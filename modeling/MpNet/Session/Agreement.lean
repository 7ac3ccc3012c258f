import MpNet.Session.History

/-!
# Parent and worker agree

For one descriptor, the receive queue of a worker is a program for its session:
`last` is the connection the session will belong to when the queue is empty, and
`Settled` says that no block on the way finds the wrong session. The invariant is
that `last` is a connection that the parent has open and nobody has asked to close.
-/

set_option autoImplicit false

namespace MpNet.Session

open Library Net Net.Epi

/-! ## The receive queue and one descriptor -/

/-- The connection of the session on `fd` after the worker has handled a block. -/
def settle (fd : Int) (now : Option Nat) (mb : Block) : Option Nat :=
  if mb.fd = fd then
    match mb.type with
    | .openBlock => some mb.origin
    | .closeBlock => none
    | _ => now
  else now

/-- The block finds the session that it is for, or none. -/
def Suits (fd : Int) (now : Option Nat) (mb : Block) : Prop :=
  mb.fd = fd →
    match mb.type with
    | .openBlock => now = none ∧ mb.data.length = sizeofRemoteInfo
    | .dataBlock => now = none ∨ now = some mb.origin
    | _ => True

section Queue

variable {fd : Int} {now : Option Nat} {queue : List Block}

/-- Without the session, the queue ends with the same one or with none. -/
theorem settle_none (fd : Int) (now : Option Nat) (queue : List Block) :
    run (settle fd) none queue = run (settle fd) now queue ∨
      run (settle fd) none queue = none ∧ run (settle fd) now queue = now := by
  induction queue generalizing now with
  | nil => exact .inr ⟨rfl, rfl⟩
  | cons mb rest ih =>
      simp only [run_cons, settle]
      split
      · split
        · exact .inl rfl
        · exact .inl rfl
        · exact ih now
      · exact ih now

private theorem suits_none (suits : Along (settle fd) (Suits fd) now queue) :
    Along (settle fd) (Suits fd) none queue := by
  induction queue generalizing now with
  | nil => trivial
  | cons mb rest ih =>
      obtain ⟨first, later⟩ := suits
      refine ⟨?_, ?_⟩
      · intro here
        have first := first here
        split at first
        · exact ⟨rfl, first.2⟩
        · exact .inl rfl
        · trivial
      · simp only [settle] at later ⊢
        split at later
        · rename_i here
          rw [if_pos here]
          split at later
          · exact later
          · exact later
          · exact ih later
        · rename_i elsewhere
          rw [if_neg elsewhere]
          exact ih later

/-- A session at the end is the one at the start or comes from an OPEN_BLOCK. -/
theorem settle_some {origin : Nat} (ends : run (settle fd) now queue = some origin) :
    now = some origin ∨
      ∃ mb ∈ queue, mb.type = .openBlock ∧ mb.fd = fd ∧ mb.origin = origin := by
  induction queue generalizing now with
  | nil => exact .inl ends
  | cons mb rest ih =>
      rw [run_cons] at ends
      rcases ih ends with start | ⟨later, member, found⟩
      · unfold settle at start
        split at start
        · rename_i here
          split at start
          · rename_i type
            exact .inr ⟨mb, List.mem_cons_self, type, here, Option.some.inj start⟩
          · cases start
          · exact .inl start
        · exact .inl start
      · exact .inr ⟨later, List.mem_cons_of_mem mb member, found⟩

end Queue

namespace Worker

variable {w w' : Worker} {fd : Int}

def now (w : Worker) (fd : Int) : Option Nat := (w.getFdsess fd).map FdSess.origin

/-- The connection of the session on `fd` once the receive queue is empty. -/
def last (w : Worker) (fd : Int) : Option Nat := run (settle fd) (w.now fd) w.recvq

def Settled (w : Worker) (fd : Int) : Prop :=
  Along (settle fd) (Suits fd) (w.now fd) w.recvq

theorem last_pushRecvq (w : Worker) (fd : Int) (mb : Block) :
    (w.pushRecvq mb true).last fd = settle fd (w.last fd) mb := run_concat ..

theorem Settled.pushRecvq (settled : w.Settled fd) {mb : Block} (suits : Suits fd (w.last fd) mb) :
    (w.pushRecvq mb true).Settled fd :=
  (along_append ..).mpr ⟨settled, suits, trivial⟩

theorem Settled.advance (settled : w.Settled fd) {mb : Block} {rest : List Block}
    (first : w.recvq = mb :: rest) (queue : w'.recvq = rest)
    (now : w'.now fd = settle fd (w.now fd) mb) : w'.Settled fd ∧ w'.last fd = w.last fd := by
  unfold Settled last at *
  rw [queue, now]
  rw [first] at settled ⊢
  exact ⟨settled.2, rfl⟩

/-- A worker whose queue is settled rejects no OPEN_BLOCK, hands each DATA_BLOCK to its
own session, and every descriptor stays on its way. -/
theorem Settled.received {accepted : Bool} (settled : ∀ fd, w.Settled fd)
    (received : Received accepted w w') :
    (∀ fd, w'.Settled fd ∧ w'.last fd = w.last fd) ∧ w'.sendq = w.sendq ∧
      (∀ mb, .rejected mb ∈ w'.log → .rejected mb ∈ w.log) ∧
      ∀ session mb, .process session mb ∈ w'.log → .process session mb ∈ w.log ∨
        mb ∈ w.recvq ∧ w.getFdsess mb.fd = some session ∧ session.origin = mb.origin := by
  have suits : ∀ mb rest, w.recvq = mb :: rest → Suits mb.fd (w.now mb.fd) mb := by
    intro mb rest first
    have all := settled mb.fd
    unfold Settled at all
    rw [first] at all
    exact all.1
  cases received with
  | idle => exact ⟨fun fd => ⟨settled fd, rfl⟩, rfl, fun _ => id, fun _ _ => .inl⟩
  | ignored mb rest first dull =>
      refine ⟨fun fd => (settled fd).advance first rfl ?_, rfl, fun _ => id, fun _ _ => .inl⟩
      have type : mb.type = .finBlock ∨ mb.type = .dataBlock := dull.imp_right And.left
      rcases type with type | type <;> simp [settle, type, now, getFdsess]
  | process mb rest session first type found =>
      have suit := suits mb rest first rfl
      rw [type, now, found] at suit
      refine ⟨fun fd => (settled fd).advance first rfl ?_, rfl, ?_, ?_⟩
      · simp [settle, type, now, getFdsess]
      · intro other member
        simpa using member
      · intro session' mb' member
        rcases List.mem_append.mp member with old | new
        · exact .inl old
        · obtain ⟨rfl, rfl⟩ := Event.process.inj (List.mem_singleton.mp new)
          exact .inr ⟨first ▸ List.mem_cons_self, found, by simpa using suit⟩
  | opened mb rest first type absent =>
      refine ⟨fun fd => (settled fd).advance first rfl ?_, rfl, ?_, ?_⟩
      · by_cases here : mb.fd = fd
        · subst here
          simp [settle, type, now, getFdsess_addFdsess, sessionOf]
        · have apart : fd ≠ (sessionOf mb).fd := fun same => here same.symm
          simp [settle, here, now, getFdsess_addFdsess, apart]
      · intro other member
        simpa [addFdsess] using member
      · intro session' mb' member
        exact .inl (by simpa [addFdsess] using member)
  | rejected mb rest first type refused =>
      have suit := suits mb rest first rfl
      rw [type] at suit
      rcases refused with present | short
      · have none := suit.1
        unfold now at none
        rw [Option.map_eq_none_iff] at none
        simp [none] at present
      · exact absurd suit.2 short
  | closed mb rest first type =>
      refine ⟨fun fd => (settled fd).advance first rfl ?_, rfl, ?_, ?_⟩
      · by_cases here : mb.fd = fd
        · subst here
          simp [settle, type, now, getFdsess_handleClose]
        · simp [settle, here, now, getFdsess_handleClose, Ne.symm here]
      · intro other member
        simpa [handleClose, removeFdsess] using member
      · intro session' mb' member
        exact .inl (by simpa [handleClose, removeFdsess] using member)

/-! ## The plugin closes a session -/

theorem now_handleClose (w : Worker) (fd : Int) : (w.handleClose fd).now fd = none := by
  simp [now, getFdsess_handleClose]

private theorem handleClose_settled (settled : w.Settled fd) : (w.handleClose fd).Settled fd := by
  unfold Settled
  rw [now_handleClose]
  exact suits_none settled

/-- A session that is still on the way comes from an OPEN_BLOCK in the queue. -/
theorem handleClose_last {origin : Nat} (ends : (w.handleClose fd).last fd = some origin) :
    w.last fd = some origin ∧
      ∃ mb ∈ w.recvq, mb.type = .openBlock ∧ mb.origin = origin := by
  unfold last at ends
  rw [now_handleClose] at ends
  have same : w.last fd = some origin := by
    rcases settle_none fd (w.now fd) w.recvq with same | ⟨none, _⟩
    · exact same.symm.trans ends
    · exact absurd (none.symm.trans ends) (by simp)
  rcases settle_some ends with start | ⟨mb, member, type, _, made⟩
  · cases start
  · exact ⟨same, mb, member, type, made⟩

theorem handleClose_elsewhere {other : Int} (apart : other ≠ fd) :
    (w.Settled other → (w.handleClose fd).Settled other) ∧
      (w.handleClose fd).last other = w.last other := by
  have same : (w.handleClose fd).now other = w.now other := by
    simp [now, getFdsess_handleClose, apart]
  unfold Settled last
  rw [same]
  exact ⟨id, rfl⟩

end Worker

/-! ## The invariant -/

/-- The parent has the connection open for the worker. -/
structure Live (s : State) (worker : Nat) (fd : Int) (origin : Nat) : Prop where
  remote : (s.epi.fds fd).type = .remote
  owner : (s.epi.fds fd).bcElem = some worker
  gen : s.gen fd = origin

/-- The connection is live and nobody has asked to close it. -/
structure Open (s : State) (worker : Nat) (fd : Int) (origin : Nat) : Prop where
  live : Live s worker fd origin
  wanted : (s.epi.fds fd).needClose = false
  noFin : ∀ mb ∈ (s.worker worker).sendq, mb.type = .finBlock → mb.fd = fd → mb.origin ≠ origin

structure Agrees (s : State) : Prop where
  settled : ∀ worker fd, (s.worker worker).Settled fd
  opened : ∀ worker fd origin, (s.worker worker).last fd = some origin → Open s worker fd origin

/-- A CLOSE_BLOCK about `fd` that is refused now leaves a session behind: the worker
has the session, or its OPEN_BLOCK is still queued. -/
def LeavesSession (s : State) (fd : Int) : Prop :=
  ∃ worker, (s.epi.fds fd).bcElem = some worker ∧
    ((s.worker worker).now fd = some (s.gen fd) ∨
      ∃ mb ∈ (s.worker worker).recvq,
        mb.type = .openBlock ∧ mb.fd = fd ∧ mb.origin = s.gen fd)

/-- The step refuses no CLOSE_BLOCK that leaves a session behind, and processes no
FIN_BLOCK so late that identifiers have come round. -/
def Harmless (s : State) : Action → Prop
  | .packet fd _ false false => ¬ LeavesSession s fd
  | .drop fd false => ¬ LeavesSession s fd
  | .output worker outcome =>
      ∀ mb rest, (s.worker worker).sendq = mb :: rest → s.Passes mb →
        (mb.type = .finBlock → s.regs - mb.origin < 4294967295) ∧
          (mb.type ≠ .finBlock → outcome = .failed false → ¬ LeavesSession s mb.fd)
  | _ => True

variable {s s' : State}

theorem agrees_init : Agrees init where
  settled := fun _ _ => trivial
  opened := fun _ _ _ ends => by cases ends

namespace Agrees

theorem closed (agrees : Agrees s) {fd : Int}
    (free : ∀ worker origin, Open s worker fd origin → (s.worker worker).last fd = none)
    (worker : Nat) : (s.worker worker).last fd = none := by
  cases ends : (s.worker worker).last fd with
  | none => rfl
  | some origin =>
      have none := free worker origin (agrees.opened worker fd origin ends)
      exact ends.symm.trans none

theorem changeSlot (agrees : Agrees s) (fd : Int)
    (closed : ∀ worker, (s.worker worker).last fd = none) (workers : s'.worker = s.worker)
    (others : ∀ other, other ≠ fd →
      s'.epi.fds other = s.epi.fds other ∧ s'.gen other = s.gen other) : Agrees s' where
  settled := workers ▸ agrees.settled
  opened := by
    intro worker other origin ends
    rw [workers] at ends
    have apart : other ≠ fd := by
      intro here
      rw [here, closed worker] at ends
      cases ends
    obtain ⟨slot, gen⟩ := others other apart
    obtain ⟨⟨remote, owner, current⟩, wanted, noFin⟩ := agrees.opened worker other origin ends
    exact ⟨⟨slot ▸ remote, slot ▸ owner, gen ▸ current⟩, slot ▸ wanted, workers ▸ noFin⟩

theorem delConn (agrees : Agrees s) {fd : Int}
    (closed : ∀ worker, (s.worker worker).last fd = none) : Agrees (s.delConn fd) :=
  agrees.changeSlot fd closed rfl fun _ apart => ⟨release_other apart, rfl⟩

theorem modify (agrees : Agrees s) {fd : Int} {change : FdInfo → FdInfo}
    (type : (change (s.epi.fds fd)).type = (s.epi.fds fd).type)
    (bcElem : (change (s.epi.fds fd)).bcElem = (s.epi.fds fd).bcElem)
    (needClose : (change (s.epi.fds fd)).needClose = (s.epi.fds fd).needClose) :
    Agrees (s.modify fd change) where
  settled := agrees.settled
  opened := by
    intro worker other origin ends
    have opened := agrees.opened worker other origin ends
    by_cases here : other = fd
    · subst here
      refine ⟨⟨?_, ?_, opened.live.gen⟩, ?_, opened.noFin⟩
      · rw [State.modify, modify_same, type]
        exact opened.live.remote
      · rw [State.modify, modify_same, bcElem]
        exact opened.live.owner
      · rw [State.modify, modify_same, needClose]
        exact opened.wanted
    · have slot : (s.modify fd change).epi.fds other = s.epi.fds other := modify_other _ here
      refine ⟨⟨?_, ?_, opened.live.gen⟩, ?_, opened.noFin⟩
      · rw [slot]
        exact opened.live.remote
      · rw [slot]
        exact opened.live.owner
      · rw [slot]
        exact opened.wanted

theorem setWorker (agrees : Agrees s) (worker : Nat) {w : Worker}
    (settled : ∀ fd, w.Settled fd)
    (opened : ∀ fd origin, w.last fd = some origin →
      Live s worker fd origin ∧ (s.epi.fds fd).needClose = false ∧
        ∀ mb ∈ w.sendq, mb.type = .finBlock → mb.fd = fd → mb.origin ≠ origin) :
    Agrees (s.setWorker worker w) where
  settled := by
    intro other fd
    by_cases here : other = worker
    · subst here
      rw [State.setWorker_same]
      exact settled fd
    · rw [State.setWorker_other s w here]
      exact agrees.settled other fd
  opened := by
    intro other fd origin ends
    by_cases here : other = worker
    · subst here
      rw [State.setWorker_same] at ends
      obtain ⟨⟨remote, owner, gen⟩, wanted, noFin⟩ := opened fd origin ends
      refine ⟨⟨remote, owner, gen⟩, wanted, ?_⟩
      rw [State.setWorker_same]
      exact noFin
    · rw [State.setWorker_other s w here] at ends
      obtain ⟨⟨remote, owner, gen⟩, wanted, noFin⟩ := agrees.opened other fd origin ends
      refine ⟨⟨remote, owner, gen⟩, wanted, ?_⟩
      rw [State.setWorker_other s w here]
      exact noFin

theorem pushBlock (agrees : Agrees s) {fd : Int} {type : BlockType} {data : List UInt8}
    (suits : ∀ worker, (s.epi.fds fd).bcElem = some worker →
      Suits fd ((s.worker worker).last fd) ⟨(s.epi.fds fd).id, fd, type, data, s.gen fd⟩)
    (opened : ∀ worker, (s.epi.fds fd).bcElem = some worker → ∀ origin,
      settle fd ((s.worker worker).last fd) ⟨(s.epi.fds fd).id, fd, type, data, s.gen fd⟩ =
        some origin → Open s worker fd origin) :
    Agrees (s.pushBlock fd type data true) := by
  unfold State.pushBlock
  split
  · rename_i worker owner
    refine agrees.setWorker worker ?_ ?_
    · intro other
      refine (agrees.settled worker other).pushRecvq ?_
      intro here
      obtain rfl : fd = other := here
      exact suits worker owner rfl
    · intro other origin ends
      rw [Worker.last_pushRecvq] at ends
      by_cases here : fd = other
      · subst here
        obtain ⟨live, wanted, noFin⟩ := opened worker owner origin ends
        exact ⟨live, wanted, noFin⟩
      · have same : (s.worker worker).last other = some origin := by
          simpa [settle, here] using ends
        obtain ⟨live, wanted, noFin⟩ := agrees.opened worker other origin same
        exact ⟨live, wanted, noFin⟩
  · exact agrees

theorem pushData (agrees : Agrees s) (fd : Int) (data : List UInt8) :
    Agrees (s.pushBlock fd .dataBlock data true) := by
  refine agrees.pushBlock ?_ ?_
  · intro worker _ _
    cases ends : (s.worker worker).last fd with
    | none => exact .inl rfl
    | some origin => exact .inr (by rw [(agrees.opened worker fd origin ends).live.gen])
  · intro worker _ origin ends
    exact agrees.opened worker fd origin (by simpa [settle] using ends)

private theorem pushClose (agrees : Agrees s) (fd : Int) :
    Agrees (s.pushBlock fd .closeBlock [] true) := by
  refine agrees.pushBlock (fun _ _ _ => trivial) ?_
  intro worker _ origin ends
  simp [settle] at ends

private theorem pushClose_last {fd : Int} {worker : Nat}
    (owner : (s.epi.fds fd).bcElem = some worker) :
    ((s.pushBlock fd .closeBlock [] true).worker worker).last fd = none := by
  unfold State.pushBlock
  rw [owner]
  simp only [State.setWorker_same, Worker.last_pushRecvq]
  simp [settle]

theorem pushBlock_epi (fd : Int) (type : BlockType) (data : List UInt8) (accepted : Bool) :
    (s.pushBlock fd type data accepted).epi = s.epi := by
  unfold State.pushBlock
  split <;> rfl

theorem dropConn (agrees : Agrees s) (fd : Int) {closeAccepted : Bool}
    (harmless : closeAccepted = false → ¬ LeavesSession s fd) :
    Agrees (s.dropConn fd closeAccepted) := by
  unfold State.dropConn
  split
  · exact agrees
  · cases closeAccepted with
    | true =>
        have pushed := agrees.pushClose fd
        refine pushed.delConn (pushed.closed fun worker origin opened => ?_)
        have owner := opened.live.owner
        rw [pushBlock_epi] at owner
        exact pushClose_last owner
    | false =>
        rw [State.pushBlock_refused]
        refine agrees.delConn (agrees.closed fun worker origin opened => ?_)
        cases ends : (s.worker worker).last fd with
        | none => rfl
        | some origin' =>
            have gen := (agrees.opened worker fd origin' ends).live.gen
            refine absurd ⟨worker, opened.live.owner, ?_⟩ (harmless rfl)
            rw [gen]
            exact settle_some ends

theorem addConn (agrees : Agrees s) {fd : Int} (unused : (s.epi.fds fd).type = .unused)
    (type : FdType) (peer : Option (UInt16 × UInt32)) (bcElem : Option Nat) :
    Agrees (s.addConn fd type peer bcElem) := by
  refine agrees.changeSlot fd (agrees.closed fun worker origin opened => ?_) rfl ?_
  · have remote := opened.live.remote
    rw [unused] at remote
    cases remote
  · intro other apart
    exact ⟨doAddConn_other apart, by simp [State.addConn, apart]⟩

private theorem addRemote_closed (agrees : Agrees s) {newfd : Int}
    (unused : (s.epi.fds newfd).type = .unused) (fd : Int) (peer : UInt16 × UInt32)
    (now : UInt32) (worker : Nat) :
    ((s.addRemote fd newfd peer now).worker worker).last newfd = none := by
  refine agrees.closed (fun worker origin opened => ?_) worker
  have remote := opened.live.remote
  rw [unused] at remote
  cases remote

theorem openConn (agrees : Agrees s) (inv : Inv s) {newfd : Int}
    (unused : (s.epi.fds newfd).type = .unused) (fd : Int) (peer : UInt16 × UInt32)
    (now : UInt32) (accepted : Bool) : Agrees (s.openConn fd newfd peer now accepted) := by
  have added : Agrees (s.addRemote fd newfd peer now) :=
    (agrees.addConn unused .remote (some peer) (s.epi.fds fd).bcElem).modify rfl rfl rfl
  have closed := agrees.addRemote_closed unused fd peer now
  unfold State.openConn
  cases accepted with
  | true =>
      refine added.pushBlock ?_ ?_
      · intro worker _ _
        exact ⟨closed worker, remoteInfoBytes_length _⟩
      · intro worker owner origin ends
        have last : s.regs + 1 = origin := by
          simpa [settle, State.addRemote, State.modify, State.addConn] using ends
        subst last
        refine ⟨⟨?_, owner, ?_⟩, ?_, ?_⟩
        · simp [State.addRemote, State.modify, State.addConn, Epi.doAddConn]
        · simp [State.addRemote, State.modify, State.addConn]
        · simp [State.addRemote, State.modify, State.addConn, Epi.doAddConn, FdInfo.zero]
        · intro mb member _ here
          have past := ((inv.workers worker).sendq mb member).past
          have bound := inv.gen_le mb.fd
          simp only [State.table] at past
          omega
  | false =>
      simp only [State.pushBlock_refused]
      exact added.delConn closed

theorem popSendq (agrees : Agrees s) {worker : Nat} {mb : Block} {rest : List Block}
    (front : (s.worker worker).sendq = mb :: rest) :
    Agrees (s.setWorker worker { s.worker worker with sendq := rest }) := by
  refine agrees.setWorker worker (agrees.settled worker) ?_
  intro fd origin ends
  obtain ⟨live, wanted, noFin⟩ := agrees.opened worker fd origin ends
  exact ⟨live, wanted, fun other member => noFin other (front ▸ List.mem_cons_of_mem mb member)⟩

theorem handleSendQueue (agrees : Agrees s) (inv : Inv s) (worker : Nat)
    (outcome : SendOutcome) (harmless : Harmless s (.output worker outcome)) :
    Agrees (s.handleSendQueue worker outcome) := by
  cases queue : (s.worker worker).sendq with
  | nil =>
      unfold State.handleSendQueue
      rw [queue]
      exact agrees
  | cons mb rest =>
      rw [State.handleSendQueue_front queue]
      have popped := agrees.popSendq queue
      simp only
      split
      · rename_i passes
        obtain ⟨near, kept⟩ := harmless mb rest queue passes
        have member : mb ∈ (s.worker worker).sendq := queue ▸ List.mem_cons_self
        have known := (inv.workers worker).sendq mb member
        unfold State.applyBlock
        split
        · rename_i fin
          have reached := inv.passes_origin known passes (near fin)
          have closed : ∀ other, (s.worker other).last mb.fd = none := by
            refine agrees.closed fun other origin opened => ?_
            have owner := opened.live.owner.symm.trans (known.owner reached)
            obtain rfl := Option.some.inj owner
            have gen := opened.live.gen
            exact absurd (reached.symm.trans gen) (opened.noFin mb member fin rfl)
          refine popped.changeSlot mb.fd ?_ rfl fun _ apart => ⟨addToCloseQueue_other apart, rfl⟩
          intro other
          by_cases here : other = worker
          · subst here
            rw [State.setWorker_same]
            exact closed other
          · rw [State.setWorker_other _ _ here]
            exact closed other
        · rename_i other
          split
          · exact popped.modify rfl rfl rfl
          · rename_i closeAccepted
            refine popped.dropConn mb.fd fun refused => ?_
            rintro ⟨owner, serves, left⟩
            refine kept other (by rw [refused]) ⟨owner, serves, ?_⟩
            by_cases here : owner = worker
            · subst here
              rw [State.setWorker_same] at left
              exact left
            · rw [State.setWorker_other _ _ here] at left
              exact left
      · exact popped

theorem recv (agrees : Agrees s) (worker : Nat) (accepted : Bool) :
    Agrees (s.setWorker worker ((s.worker worker).handleRecvQueue accepted)) := by
  obtain ⟨way, sendq, _⟩ := Worker.Settled.received (agrees.settled worker)
    (Worker.handleRecvQueue_received (s.worker worker) accepted)
  refine agrees.setWorker worker (fun fd => (way fd).1) ?_
  intro fd origin ends
  rw [(way fd).2] at ends
  obtain ⟨live, wanted, noFin⟩ := agrees.opened worker fd origin ends
  exact ⟨live, wanted, sendq ▸ noFin⟩

theorem send (agrees : Agrees s) (worker : Nat) (fd : Int) (data : List UInt8) (accepted : Bool) :
    Agrees (s.setWorker worker ((s.worker worker).sendPkgToClient fd data accepted)) := by
  unfold Worker.sendPkgToClient
  split
  · refine agrees.setWorker worker (agrees.settled worker) ?_
    intro other origin ends
    obtain ⟨live, wanted, noFin⟩ := agrees.opened worker other origin ends
    refine ⟨live, wanted, ?_⟩
    intro mb member fin
    rcases Worker.mem_pushSendq member with old | rfl
    · exact noFin mb old fin
    · cases fin
  · rw [State.setWorker_eq_self]
    exact agrees

theorem close (agrees : Agrees s) (historic : Historic s) (worker : Nat) (fd : Int)
    (accepted : Bool) :
    Agrees (s.setWorker worker ((s.worker worker).closeClientConn fd accepted)) := by
  unfold Worker.closeClientConn
  cases found : (s.worker worker).getFdsess fd with
  | none =>
      simp only
      rw [State.setWorker_eq_self]
      exact agrees
  | some session =>
      refine agrees.setWorker worker ?_ ?_
      · intro other
        by_cases here : other = fd
        · subst here
          exact Worker.handleClose_settled (agrees.settled worker other)
        · exact (Worker.handleClose_elsewhere here).1 (agrees.settled worker other)
      · intro other origin ends
        by_cases here : other = fd
        · subst here
          obtain ⟨same, mb, member, type, rfl⟩ := Worker.handleClose_last ends
          obtain ⟨live, wanted, noFin⟩ := agrees.opened worker other mb.origin same
          refine ⟨live, wanted, ?_⟩
          have recorded := (historic.recorded worker).sessions other session found
          have older := (historic.ordered worker).session_lt recorded member type
          intro fin queued isFin onFd
          rcases Worker.mem_pushSendq queued with old | rfl
          · exact noFin fin old isFin onFd
          · exact older.ne
        · have same := (Worker.handleClose_elsewhere here).2.symm.trans ends
          obtain ⟨live, wanted, noFin⟩ := agrees.opened worker other origin same
          refine ⟨live, wanted, ?_⟩
          intro fin queued isFin onFd
          rcases Worker.mem_pushSendq queued with old | rfl
          · exact noFin fin old isFin onFd
          · exact absurd onFd.symm here

theorem step (agrees : Agrees s) (historic : Historic s) (action : Action)
    (harmless : Harmless s action) : Agrees (step s action) := by
  cases action with
  | register fd type worker =>
      simp only [Session.step]
      split
      · rename_i free
        exact agrees.addConn free.1 type none worker
      · exact agrees
  | accept fd newfd peer now accepted =>
      simp only [Session.step]
      split
      · rename_i free
        exact agrees.openConn historic.inv free.2.1 fd peer now accepted
      · exact agrees
  | packet fd data accepted closeAccepted =>
      simp only [Session.step]
      split
      · cases accepted with
        | true => exact agrees.pushData fd data
        | false =>
            rw [State.pushBlock_refused]
            refine agrees.dropConn fd fun refused => ?_
            subst refused
            exact harmless
      · exact agrees
  | transfer fd cb now =>
      simp only [Session.step]
      split
      · exact agrees.modify rfl rfl rfl
      · exact agrees
  | drop fd closeAccepted =>
      simp only [Session.step]
      split
      · refine agrees.dropConn fd fun refused => ?_
        subst refused
        exact harmless
      · exact agrees
  | output worker outcome => exact agrees.handleSendQueue historic.inv worker outcome harmless
  | closeQueue =>
      simp only [Session.step]
      split
      · rename_i fd rest queue
        have member : fd ∈ s.epi.closeHead := queue ▸ List.mem_cons_self
        have closing := (historic.inv.tidy.closing fd).mp member
        refine agrees.delConn (agrees.closed fun worker origin opened => ?_)
        rw [opened.wanted] at closing
        cases closing
      · exact agrees
  | recv worker finAccepted => exact agrees.recv worker finAccepted
  | send worker fd data accepted => exact agrees.send worker fd data accepted
  | close worker fd finAccepted => exact agrees.close historic worker fd finAccepted

end Agrees

end MpNet.Session
