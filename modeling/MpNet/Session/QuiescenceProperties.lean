import Mathlib.Data.List.Induction
import MpNet.Session.AgreementProperties

/-!
# Sessions and connections when nothing is on the way

While no push is refused, every connection that the parent has open is heard of: its
worker has or will have the session, or somebody has asked for the connection to be
closed. With the queues empty only the session is left.
-/

set_option autoImplicit false

namespace MpNet.Session

open Library Net Net.Epi

def Action.Accepted : Action → Prop
  | .accept _ _ _ _ accepted | .packet _ _ accepted _ | .drop _ accepted
  | .output _ (.failed accepted) | .recv _ accepted | .send _ _ _ accepted
  | .close _ _ accepted => accepted = true
  | .register .. | .transfer .. | .output _ (.sent ..) | .closeQueue => True

/-- The worker has or will have the session, or the connection is to be closed. -/
def Heard (s : State) (worker : Nat) (fd : Int) (origin : Nat) : Prop :=
  (s.worker worker).last fd = some origin ∨ (s.epi.fds fd).needClose = true ∨
    ∃ mb ∈ (s.worker worker).sendq, mb.type = .finBlock ∧ mb.fd = fd ∧ mb.origin = origin

def AllHeard (s : State) : Prop :=
  ∀ worker fd origin, Live s worker fd origin → Heard s worker fd origin

variable {s s' : State}

theorem Action.Accepted.harmless {action : Action} (accepted : action.Accepted)
    (few : s.regs < 4294967295) : Harmless s action := by
  cases action with
  | packet fd data pushed closeAccepted =>
      obtain rfl : pushed = true := accepted
      trivial
  | drop fd closeAccepted =>
      obtain rfl : closeAccepted = true := accepted
      trivial
  | output worker outcome =>
      intro mb rest front passes
      refine ⟨fun _ => (Nat.sub_le ..).trans_lt few, ?_⟩
      rintro _ rfl
      cases accepted
  | register | accept | transfer | closeQueue | recv | send | close => trivial

private theorem not_live_delConn {fd : Int} {worker origin : Nat} :
    ¬ Live (s.delConn fd) worker fd origin := by
  intro live
  have remote := live.remote
  simp [State.delConn, release_same] at remote

/-! ## What a push leaves alone -/

section Push

variable {fd : Int} {type : BlockType} {data : List UInt8} {accepted : Bool} {worker : Nat}

theorem pushBlock_gen : (s.pushBlock fd type data accepted).gen = s.gen := by
  unfold State.pushBlock
  split <;> rfl

theorem pushBlock_sendq :
    ((s.pushBlock fd type data accepted).worker worker).sendq = (s.worker worker).sendq := by
  unfold State.pushBlock
  split
  · rename_i owner _
    by_cases here : worker = owner
    · subst here
      rw [State.setWorker_same]
      rfl
    · rw [State.setWorker_other _ _ here]
  · rfl

/-- A block that settles nothing about `other`. -/
theorem pushBlock_last {other : Int}
    (elsewhere : ∀ now, settle other now ⟨(s.epi.fds fd).id, fd, type, data, s.gen fd⟩ = now) :
    ((s.pushBlock fd type data true).worker worker).last other = (s.worker worker).last other := by
  unfold State.pushBlock
  split
  · rename_i owner _
    by_cases here : worker = owner
    · subst here
      rw [State.setWorker_same, Worker.last_pushRecvq, elsewhere]
    · rw [State.setWorker_other _ _ here]
  · rfl

end Push

namespace AllHeard

theorem kept (heard : AllHeard s) {worker : Nat} {fd : Int} {origin : Nat}
    (live : Live s' worker fd origin)
    (slot : (s'.epi.fds fd).type = (s.epi.fds fd).type ∧
      (s'.epi.fds fd).bcElem = (s.epi.fds fd).bcElem ∧
      (s'.epi.fds fd).needClose = (s.epi.fds fd).needClose)
    (gen : s'.gen fd = s.gen fd)
    (last : (s'.worker worker).last fd = (s.worker worker).last fd)
    (sendq : ∀ mb ∈ (s.worker worker).sendq, mb.type = .finBlock → mb.fd = fd →
      mb.origin = origin → mb ∈ (s'.worker worker).sendq) : Heard s' worker fd origin := by
  obtain ⟨remote, owner, current⟩ := live
  have before : Live s worker fd origin :=
    ⟨slot.1.symm.trans remote, slot.2.1.symm.trans owner, gen.symm.trans current⟩
  rcases heard worker fd origin before with session | closing | ⟨mb, member, fin, here, about⟩
  · exact .inl (last.trans session)
  · exact .inr (.inl (slot.2.2.trans closing))
  · exact .inr (.inr ⟨mb, sendq mb member fin here about, fin, here, about⟩)

theorem changeSlot (heard : AllHeard s) (fd : Int) (workers : s'.worker = s.worker)
    (others : ∀ other, other ≠ fd →
      s'.epi.fds other = s.epi.fds other ∧ s'.gen other = s.gen other)
    (changed : ∀ worker origin, Live s' worker fd origin → Heard s' worker fd origin) :
    AllHeard s' := by
  intro worker other origin live
  by_cases here : other = fd
  · subst here
    exact changed worker origin live
  · obtain ⟨slot, gen⟩ := others other here
    refine heard.kept live (slot ▸ ⟨rfl, rfl, rfl⟩) gen (by rw [workers]) ?_
    intro mb member _ _ _
    rwa [workers]

theorem delConn (heard : AllHeard s) (fd : Int) : AllHeard (s.delConn fd) :=
  heard.changeSlot fd rfl (fun _ apart => ⟨release_other apart, rfl⟩)
    fun _ _ live => absurd live not_live_delConn

theorem modify (heard : AllHeard s) {fd : Int} {change : FdInfo → FdInfo}
    (type : (change (s.epi.fds fd)).type = (s.epi.fds fd).type)
    (bcElem : (change (s.epi.fds fd)).bcElem = (s.epi.fds fd).bcElem)
    (needClose : (change (s.epi.fds fd)).needClose = (s.epi.fds fd).needClose) :
    AllHeard (s.modify fd change) := by
  refine heard.changeSlot fd rfl (fun _ apart => ⟨modify_other _ apart, rfl⟩) ?_
  intro worker origin live
  refine heard.kept live ?_ rfl rfl fun _ member _ _ _ => member
  simp only [State.modify, modify_same]
  exact ⟨type, bcElem, needClose⟩

theorem dropConn (heard : AllHeard s) (fd : Int) : AllHeard (s.dropConn fd true) := by
  unfold State.dropConn
  split
  · exact heard
  · intro worker other origin live
    by_cases here : other = fd
    · subst here
      exact absurd live not_live_delConn
    · refine heard.kept live ?_ ?_ ?_ ?_
      · simp [State.delConn, release_other here, Agrees.pushBlock_epi]
      · simp [State.delConn, pushBlock_gen]
      · exact pushBlock_last fun now => if_neg (Ne.symm here)
      · intro mb member _ _ _
        simpa [State.delConn, pushBlock_sendq] using member

theorem addConn (heard : AllHeard s) (fd : Int) {type : FdType} (other : type ≠ .remote)
    (worker : Option Nat) : AllHeard (s.addConn fd type none worker) := by
  refine heard.changeSlot fd rfl ?_ ?_
  · intro other apart
    simp [State.addConn, apart]
  · intro owner origin live
    have remote := live.remote
    simp only [State.addConn, Epi.doAddConn, Function.update_self] at remote
    exact absurd remote other

theorem openConn (heard : AllHeard s) (fd newfd : Int) (peer : UInt16 × UInt32) (now : UInt32) :
    AllHeard (s.openConn fd newfd peer now true) := by
  intro worker other origin live
  unfold State.openConn at live ⊢
  simp only [if_pos] at live ⊢
  by_cases here : other = newfd
  · subst here
    have owner := live.owner
    have gen := live.gen
    rw [Agrees.pushBlock_epi] at owner
    rw [pushBlock_gen] at gen
    refine .inl ?_
    unfold State.pushBlock
    rw [owner]
    simp [Worker.last_pushRecvq, settle, gen]
  · refine heard.kept live ?_ ?_ ?_ ?_
    · simp [Agrees.pushBlock_epi, State.addRemote, State.modify, State.addConn,
        modify_other _ here, doAddConn_other here]
    · simp [pushBlock_gen, State.addRemote, State.modify, State.addConn, here]
    · exact pushBlock_last fun now => if_neg (Ne.symm here)
    · intro mb member _ _ _
      rw [pushBlock_sendq]
      exact member

theorem pushData (heard : AllHeard s) (fd : Int) (data : List UInt8) :
    AllHeard (s.pushBlock fd .dataBlock data true) := by
  intro worker other origin live
  refine heard.kept live ?_ ?_ ?_ ?_
  · simp [Agrees.pushBlock_epi]
  · rw [pushBlock_gen]
  · exact pushBlock_last fun now => by simp [settle]
  · intro mb member _ _ _
    rwa [pushBlock_sendq]

theorem setWorker (heard : AllHeard s) (worker : Nat) {w : Worker}
    (changed : ∀ fd origin, Live s worker fd origin → Heard s worker fd origin →
      w.last fd = some origin ∨ (s.epi.fds fd).needClose = true ∨
        ∃ mb ∈ w.sendq, mb.type = .finBlock ∧ mb.fd = fd ∧ mb.origin = origin) :
    AllHeard (s.setWorker worker w) := by
  rintro other fd origin ⟨remote, owner, gen⟩
  have live : Live s other fd origin := ⟨remote, owner, gen⟩
  unfold Heard
  by_cases here : other = worker
  · subst here
    rw [State.setWorker_same]
    exact changed fd origin live (heard other fd origin live)
  · rw [State.setWorker_other _ _ here]
    exact heard other fd origin live

/-- A FIN_BLOCK about an open connection passes the filters. -/
theorem passes_of_live (inv : Inv s) {worker : Nat} {mb : Block}
    (member : mb ∈ (s.worker worker).sendq) (live : Live s worker mb.fd mb.origin) :
    s.Passes mb := by
  have used : (s.epi.fds mb.fd).type ≠ .unused := by
    rw [live.remote]
    exact FdType.noConfusion
  have bounds := inv.tidy.bounded mb.fd used
  have id := ((inv.workers worker).sendq mb member).id
  have slot := (inv.slots mb.fd used).1
  rw [live.gen] at slot
  refine ⟨by omega, ?_⟩
  rintro (type | apart)
  · exact type live.remote
  · exact apart (id.trans slot.symm)

theorem popSendq (heard : AllHeard s) {worker : Nat} {mb : Block} {rest : List Block}
    (front : (s.worker worker).sendq = mb :: rest)
    (idle : mb.type = .finBlock → ¬ Live s worker mb.fd mb.origin) :
    AllHeard (s.setWorker worker { s.worker worker with sendq := rest }) := by
  refine heard.setWorker worker ?_
  intro fd origin live before
  rcases before with session | closing | ⟨fin, member, type, here, about⟩
  · exact .inl session
  · exact .inr (.inl closing)
  · rw [front] at member
    rcases List.mem_cons.mp member with rfl | later
    · subst here about
      exact absurd live (idle type)
    · exact .inr (.inr ⟨fin, later, type, here, about⟩)

theorem handleSendQueue (heard : AllHeard s) (inv : Inv s) (worker : Nat)
    {outcome : SendOutcome} (accepted : (Action.output worker outcome).Accepted) :
    AllHeard (s.handleSendQueue worker outcome) := by
  cases queue : (s.worker worker).sendq with
  | nil =>
      unfold State.handleSendQueue
      rw [queue]
      exact heard
  | cons mb rest =>
      rw [State.handleSendQueue_front queue]
      have member : mb ∈ (s.worker worker).sendq := queue ▸ List.mem_cons_self
      simp only
      split
      · unfold State.applyBlock
        split
        · rintro other fd origin ⟨remote, owner, gen⟩
          by_cases here : fd = mb.fd
          · subst here
            refine .inr (.inl ?_)
            simp [addToCloseQueue_same]
          · have slot : (s.epi.addToCloseQueue mb.fd).fds fd = s.epi.fds fd :=
              addToCloseQueue_other here
            refine heard.kept ⟨remote, owner, gen⟩ (slot ▸ ⟨rfl, rfl, rfl⟩) rfl ?_ ?_
            · by_cases same : other = worker
              · subst same
                simp [Worker.last, Worker.now, Worker.getFdsess]
              · simp [State.setWorker, same]
            · intro fin isMember _ onFd _
              by_cases same : other = worker
              · subst same
                rw [queue] at isMember
                rcases List.mem_cons.mp isMember with rfl | later
                · exact absurd onFd.symm here
                · simpa using later
              · simpa [State.setWorker, same] using isMember
        · rename_i other
          have popped := heard.popSendq queue fun fin => absurd fin other
          cases outcome with
          | sent cb now => exact popped.modify rfl rfl rfl
          | failed closeAccepted =>
              obtain rfl : closeAccepted = true := accepted
              exact popped.dropConn mb.fd
      · rename_i blocked
        exact heard.popSendq queue fun _ live => blocked (passes_of_live inv member live)

theorem recv (heard : AllHeard s) (agrees : Agrees s) (worker : Nat) (accepted : Bool) :
    AllHeard (s.setWorker worker ((s.worker worker).handleRecvQueue accepted)) := by
  obtain ⟨way, sendq, _⟩ := Worker.Settled.received (agrees.settled worker)
    (Worker.handleRecvQueue_received (s.worker worker) accepted)
  refine heard.setWorker worker ?_
  intro fd origin _ before
  rw [(way fd).2, sendq]
  exact before

theorem send (heard : AllHeard s) (worker : Nat) (fd : Int) (data : List UInt8) (accepted : Bool) :
    AllHeard (s.setWorker worker ((s.worker worker).sendPkgToClient fd data accepted)) := by
  refine heard.setWorker worker ?_
  intro other origin _ before
  unfold Worker.sendPkgToClient
  split
  · rcases before with session | closing | ⟨fin, member, rest⟩
    · exact .inl session
    · exact .inr (.inl closing)
    · exact .inr (.inr ⟨fin, Worker.mem_pushSendq_of_mem accepted member, rest⟩)
  · exact before

/-- The session that the plugin closes, or a FIN_BLOCK about it, is still there. -/
theorem close (heard : AllHeard s) (worker : Nat) (fd : Int) :
    AllHeard (s.setWorker worker ((s.worker worker).closeClientConn fd true)) := by
  refine heard.setWorker worker ?_
  intro other origin _ before
  unfold Worker.closeClientConn
  cases found : (s.worker worker).getFdsess fd with
  | none => exact before
  | some session =>
      rcases before with ends | closing | ⟨fin, member, rest⟩
      · by_cases here : other = fd
        · subst here
          have now : (s.worker worker).now other = some session.origin := by
            simp [Worker.now, found]
          have last : ((s.worker worker).handleClose other).last other =
              run (settle other) none (s.worker worker).recvq := by
            unfold Worker.last
            rw [Worker.now_handleClose]
            rfl
          rcases settle_none other ((s.worker worker).now other) (s.worker worker).recvq with
            same | ⟨_, kept⟩
          · exact .inl (last.trans (same.trans ends))
          · have origin : session.origin = origin :=
              Option.some.inj (now.symm.trans (kept.symm.trans ends))
            refine .inr (.inr ⟨_, List.mem_append_right _ List.mem_cons_self, rfl, rfl, origin⟩)
        · exact .inl ((Worker.handleClose_elsewhere here).2.trans ends)
      · exact .inr (.inl closing)
      · exact .inr (.inr ⟨fin, Worker.mem_pushSendq_of_mem true member, rest⟩)

theorem step (heard : AllHeard s) (inv : Inv s) (agrees : Agrees s) {action : Action}
    (accepted : action.Accepted) : AllHeard (step s action) := by
  cases action with
  | register fd type worker =>
      simp only [Session.step]
      split
      · rename_i free
        exact heard.addConn fd free.2.2.2 worker
      · exact heard
  | accept fd newfd peer now pushed =>
      obtain rfl : pushed = true := accepted
      simp only [Session.step]
      split
      · exact heard.openConn fd newfd peer now
      · exact heard
  | packet fd data pushed closeAccepted =>
      obtain rfl : pushed = true := accepted
      simp only [Session.step]
      split
      · exact heard.pushData fd data
      · exact heard
  | transfer fd cb now =>
      simp only [Session.step]
      split
      · exact heard.modify rfl rfl rfl
      · exact heard
  | drop fd closeAccepted =>
      obtain rfl : closeAccepted = true := accepted
      simp only [Session.step]
      split
      · exact heard.dropConn fd
      · exact heard
  | output worker outcome => exact heard.handleSendQueue inv worker accepted
  | closeQueue =>
      simp only [Session.step]
      split
      · exact heard.delConn _
      · exact heard
  | recv worker finAccepted => exact heard.recv agrees worker finAccepted
  | send worker fd data pushed => exact heard.send worker fd data pushed
  | close worker fd finAccepted =>
      obtain rfl : finAccepted = true := accepted
      exact heard.close worker fd

end AllHeard

theorem allHeard_init : AllHeard init := by
  intro worker fd origin live
  exact absurd live.remote (by simp [init, netInit, FdInfo.zero])

theorem heard_run (actions : List Action) (accepted : ∀ action ∈ actions, action.Accepted)
    (few : (run step init actions).regs < 4294967295) :
    Orderly (run step init actions) ∧ AllHeard (run step init actions) := by
  induction actions using List.reverseRecOn with
  | nil => exact ⟨orderly_init, allHeard_init⟩
  | append_singleton actions action ih =>
      rw [run_concat] at few ⊢
      have before := (regs_le _ action).trans_lt few
      obtain ⟨orderly, heard⟩ :=
        ih (fun earlier member => accepted earlier (List.mem_append_left _ member)) before
      have last := accepted action (List.mem_append_right _ List.mem_cons_self)
      exact ⟨orderly.step action (last.harmless before),
        heard.step orderly.historic.inv orderly.agrees last⟩

/-! ## Main result -/

/-- The worker has a session exactly for the connections that the parent has open for
it, with the identifier and the address of the connection. -/
def SessionsAgree (s : State) (worker : Nat) : Prop :=
  ∀ fd, (((s.worker worker).getFdsess fd).isSome ↔
      (s.epi.fds fd).type = .remote ∧ (s.epi.fds fd).bcElem = some worker) ∧
    ∀ session, (s.worker worker).getFdsess fd = some session →
      session.id = (s.epi.fds fd).id ∧ session.remoteIp = (s.epi.fds fd).sk.remoteIp ∧
        session.remotePort = (s.epi.fds fd).sk.remotePort

theorem Orderly.sessionsAgree (orderly : Orderly s) (heard : AllHeard s) {worker : Nat}
    (recvq : (s.worker worker).recvq = []) (sendq : (s.worker worker).sendq = [])
    (closeHead : s.epi.closeHead = []) : SessionsAgree s worker := by
  have inv := orderly.historic.inv
  have settled : ∀ fd, (s.worker worker).last fd = (s.worker worker).now fd := by
    intro fd
    unfold Worker.last
    rw [recvq, run_nil]
  intro fd
  constructor
  · constructor
    · intro present
      obtain ⟨session, found⟩ := Option.isSome_iff_exists.mp present
      have last : (s.worker worker).last fd = some session.origin := by
        rw [settled, Worker.now, found, Option.map_some]
      have live := (orderly.agrees.opened worker fd _ last).live
      exact ⟨live.remote, live.owner⟩
    · rintro ⟨remote, owner⟩
      rcases heard worker fd (s.gen fd) ⟨remote, owner, rfl⟩ with session | closing | ⟨mb, member, _⟩
      · rw [settled, Worker.now, Option.map_eq_some_iff] at session
        obtain ⟨session, found, _⟩ := session
        rw [found, Option.isSome_some]
      · rw [← inv.tidy.closing, closeHead] at closing
        cases closing
      · rw [sendq] at member
        cases member
  · intro session found
    have last : (s.worker worker).last fd = some session.origin := by
      rw [settled, Worker.now, found, Option.map_some]
    have live := (orderly.agrees.opened worker fd _ last).live
    have used : (s.epi.fds fd).type ≠ .unused := by
      rw [live.remote]
      exact FdType.noConfusion
    have known := (inv.workers worker).sessions fd session found
    have slot := (inv.slots fd used).1
    rw [live.gen] at slot
    obtain ⟨port, ip⟩ := known.peer live.gen
    exact ⟨known.known.id.trans slot.symm, ip, port⟩

/-- In a run that refuses no push and registers fewer than 2^32 - 1 connections, every
DATA_BLOCK is handed to the session of its own connection, no OPEN_BLOCK is rejected,
and whenever the queues are empty the sessions are the connections. -/
theorem sessions_follow_connections (actions : List Action)
    (accepted : ∀ action ∈ actions, action.Accepted)
    (few : (run step init actions).regs < 4294967295) (worker : Nat) :
    let s := run step init actions
    ServesRightly (s.worker worker) ∧
      ((s.worker worker).recvq = [] → (s.worker worker).sendq = [] → s.epi.closeHead = [] →
        SessionsAgree s worker) := by
  obtain ⟨orderly, heard⟩ := heard_run actions accepted few
  exact ⟨orderly.rightly worker, orderly.sessionsAgree heard⟩

/-- The closes of both sides cross, and the descriptor is used again. -/
def crossedCloses : List Action :=
  [.register 3 .listen (some 0), .accept 3 5 (80, 16777343) 7 true, .recv 0 true,
    .close 0 5 true, .drop 5 true, .accept 3 5 (81, 33554559) 8 true, .packet 5 [1] true true,
    .output 0 (.failed true), .recv 0 true, .recv 0 true, .recv 0 true]

theorem sessions_follow_connections_crossed :
    ∃ session, ((run step init crossedCloses).worker 0).getFdsess 5 = some session ∧
      session.id = ((run step init crossedCloses).epi.fds 5).id := by
  have accepted : ∀ action ∈ crossedCloses, action.Accepted := by
    simp [crossedCloses, Action.Accepted]
  obtain ⟨_, agree⟩ := sessions_follow_connections crossedCloses accepted (by decide +kernel) 0
  have slot := agree (by decide +kernel) (by decide +kernel) (by decide +kernel) 5
  obtain ⟨session, found⟩ := Option.isSome_iff_exists.mp (slot.1.mpr (by decide +kernel))
  exact ⟨session, found, (slot.2 session found).1⟩

end MpNet.Session
