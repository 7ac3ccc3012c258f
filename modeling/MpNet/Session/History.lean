import MpNet.Session.Identity

/-!
# The history of a worker

The log only grows. Every session of the table was opened, every block of the send
queue answers an OPEN_BLOCK, and no OPEN_BLOCK is handled twice: their origins
increase from the log through the receive queue.
-/

set_option autoImplicit false

namespace MpNet.Session

open Library Net Net.Epi

/-- The OPEN_BLOCK, accepted or rejected, from which a block took its descriptor and
its identifier. -/
inductive Answers (log : List Event) (mb : Block) : Prop
  | opened (session : FdSess) (member : Event.opened session ∈ log) (fd : session.fd = mb.fd)
      (id : session.id = mb.id) (origin : session.origin = mb.origin)
  | rejected (refused : Block) (member : Event.rejected refused ∈ log) (fd : refused.fd = mb.fd)
      (id : refused.id = mb.id) (origin : refused.origin = mb.origin)

theorem Answers.mono {log later : List Event} {mb : Block} (answers : Answers log mb)
    (grows : log ⊆ later) : Answers later mb := by
  cases answers with
  | opened session member fd id origin => exact .opened session (grows member) fd id origin
  | rejected refused member fd id origin => exact .rejected refused (grows member) fd id origin

def Event.openedOrigin : Event → Option Nat
  | .opened session => some session.origin
  | _ => none

def Block.openOrigin (mb : Block) : Option Nat :=
  if mb.type = .openBlock then some mb.origin else none

namespace Worker

variable {w w' : Worker}

/-- The origins of the sessions opened and of the OPEN_BLOCKs still queued, in order. -/
def opens (w : Worker) : List Nat :=
  w.log.filterMap Event.openedOrigin ++ w.recvq.filterMap Block.openOrigin

structure Recorded (w : Worker) : Prop where
  sessions : ∀ fd session, w.getFdsess fd = some session → .opened session ∈ w.log
  sendq : ∀ mb ∈ w.sendq, Answers w.log mb

theorem recorded_init : Recorded .init where
  sessions := by simp [init, getFdsess]
  sendq := by simp [init]

theorem Recorded.pushSendq (recorded : w.Recorded) {mb : Block} (answers : Answers w.log mb)
    (accepted : Bool) : (w.pushSendq mb accepted).Recorded where
  sessions := recorded.sessions
  sendq := by
    intro other member
    rcases mem_pushSendq member with old | rfl
    · exact recorded.sendq other old
    · exact answers

theorem Recorded.log (recorded : w.Recorded) (rest : List Block) (event : Event) :
    Recorded { w with recvq := rest, log := w.log ++ [event] } where
  sessions := fun fd session found => List.mem_append_left _ (recorded.sessions fd session found)
  sendq := fun mb member => (recorded.sendq mb member).mono (List.subset_append_left ..)

theorem Recorded.handleClose (recorded : w.Recorded) (fd : Int) : (w.handleClose fd).Recorded where
  sessions := by
    intro other session found
    rw [getFdsess_handleClose] at found
    split at found
    · cases found
    · exact List.mem_append_left _ (recorded.sessions other session found)
  sendq := (recorded.log w.recvq (.closed fd (w.getFdsess fd))).sendq

theorem Recorded.received (recorded : w.Recorded) {accepted : Bool}
    (received : Received accepted w w') : w'.Recorded := by
  cases received with
  | idle => exact recorded
  | ignored mb rest first => exact ⟨recorded.sessions, recorded.sendq⟩
  | process mb rest session => exact recorded.log rest (.process session mb)
  | opened mb rest first =>
      refine ⟨?_, (recorded.log rest (.opened (sessionOf mb))).sendq⟩
      intro fd session found
      rw [getFdsess_addFdsess] at found
      split at found
      · obtain rfl := Option.some.inj found
        exact List.mem_append_right _ (List.mem_singleton.mpr rfl)
      · exact List.mem_append_left _ (recorded.sessions fd session found)
  | rejected mb rest first =>
      refine (recorded.log rest (.rejected mb)).pushSendq ?_ accepted
      exact .rejected mb (List.mem_append_right _ (List.mem_singleton.mpr rfl)) rfl rfl rfl
  | closed mb rest first =>
      have popped : Recorded { w with recvq := rest } := ⟨recorded.sessions, recorded.sendq⟩
      exact popped.handleClose mb.fd

theorem Recorded.sendPkgToClient (recorded : w.Recorded) (fd : Int) (data : List UInt8)
    (accepted : Bool) : (w.sendPkgToClient fd data accepted).Recorded := by
  unfold Worker.sendPkgToClient
  split
  · rename_i session found
    exact recorded.pushSendq (.opened session (recorded.sessions fd session found) rfl rfl rfl)
      accepted
  · exact recorded

theorem Recorded.closeClientConn {t : Table} {worker : Nat} (recorded : w.Recorded)
    (known : w.AllKnown t worker) (fd : Int) (accepted : Bool) :
    (w.closeClientConn fd accepted).Recorded := by
  unfold Worker.closeClientConn
  split
  · rename_i session found
    refine (recorded.handleClose fd).pushSendq ?_ accepted
    exact .opened session (List.mem_append_left _ (recorded.sessions fd session found))
      (known.sessions fd session found).key rfl rfl
  · exact recorded

/-! ## The log grows -/

theorem Received.log_grows {accepted : Bool} (received : Received accepted w w') :
    w.log <+: w'.log := by
  cases received with
  | idle | ignored => exact List.prefix_rfl
  | process | opened | rejected | closed => exact List.prefix_append ..

theorem sendPkgToClient_log (fd : Int) (data : List UInt8) (accepted : Bool) :
    (w.sendPkgToClient fd data accepted).log = w.log := by
  unfold sendPkgToClient
  split <;> rfl

theorem closeClientConn_log_grows (fd : Int) (accepted : Bool) :
    w.log <+: (w.closeClientConn fd accepted).log := by
  unfold closeClientConn
  split
  · exact List.prefix_append ..
  · exact List.prefix_rfl

/-! ## The order of the OPEN_BLOCKs -/

private theorem opens_handleClose (fd : Int) : (w.handleClose fd).opens = w.opens := by
  simp [opens, handleClose, removeFdsess, Event.openedOrigin]

private theorem opens_closeClientConn (fd : Int) (accepted : Bool) :
    (w.closeClientConn fd accepted).opens = w.opens := by
  unfold closeClientConn
  split
  · exact opens_handleClose fd
  · rfl

theorem opens_sendPkgToClient (fd : Int) (data : List UInt8) (accepted : Bool) :
    (w.sendPkgToClient fd data accepted).opens = w.opens := by
  unfold sendPkgToClient
  split <;> rfl

theorem Received.opens_sublist {accepted : Bool} (received : Received accepted w w') :
    w'.opens.Sublist w.opens := by
  cases received with
  | idle => exact List.Sublist.refl _
  | ignored mb rest first dull =>
      have shut : mb.openOrigin = none := by
        rcases dull with type | ⟨type, _⟩ <;> simp [Block.openOrigin, type]
      simp [opens, first, shut]
  | process mb rest session first type =>
      simp [opens, first, Block.openOrigin, type, Event.openedOrigin]
  | opened mb rest first type =>
      simp [opens, addFdsess, first, Block.openOrigin, type, Event.openedOrigin, sessionOf]
  | rejected mb rest first type =>
      simp [opens, pushSendq, first, Block.openOrigin, type, Event.openedOrigin]
  | closed mb rest first type =>
      rw [opens_handleClose]
      simp [opens, first, Block.openOrigin, type]

end Worker

/-! ## What a step does to one worker -/

variable {s : State}

/-- The parent takes blocks off the send queue and pushes at most one block; `regs` and
`later` count the registrations before and after. -/
structure Served (regs later : Nat) (w w' : Worker) : Prop where
  own : w'.cn = w.cn ∧ w'.count = w.count ∧ w'.log = w.log
  sendq : w'.sendq <:+ w.sendq
  recvq : w'.recvq = w.recvq ∨ ∃ mb, w'.recvq = w.recvq ++ [mb] ∧
    (mb.type = .openBlock → mb.origin = regs + 1 ∧ later = regs + 1)

theorem Served.refl (regs later : Nat) (w : Worker) : Served regs later w w :=
  ⟨⟨rfl, rfl, rfl⟩, List.suffix_rfl, .inl rfl⟩

theorem Served.after {regs later : Nat} {w popped w' : Worker}
    (own : popped.cn = w.cn ∧ popped.count = w.count ∧ popped.log = w.log)
    (sendq : popped.sendq <:+ w.sendq) (recvq : popped.recvq = w.recvq)
    (served : Served regs later popped w') : Served regs later w w' where
  own := ⟨served.own.1.trans own.1, served.own.2.1.trans own.2.1, served.own.2.2.trans own.2.2⟩
  sendq := served.sendq.trans sendq
  recvq := recvq ▸ served.recvq

theorem served_pushBlock (regs later : Nat) (fd : Int) (type : BlockType) (data : List UInt8)
    (accepted : Bool) (worker : Nat)
    (opening : type = .openBlock → s.gen fd = regs + 1 ∧ later = regs + 1) :
    Served regs later (s.worker worker)
      ((s.pushBlock fd type data accepted).worker worker) := by
  unfold State.pushBlock
  split
  · rename_i owner _
    by_cases here : worker = owner
    · subst here
      simp only [State.setWorker, Function.update_self]
      cases accepted with
      | true => exact ⟨⟨rfl, rfl, rfl⟩, List.suffix_rfl, .inr ⟨_, rfl, opening⟩⟩
      | false => exact .refl ..
    · simp only [State.setWorker, Function.update_of_ne here]
      exact .refl ..
  · exact .refl ..

theorem State.pushBlock_refused (fd : Int) (type : BlockType) (data : List UInt8) :
    s.pushBlock fd type data false = s := by
  unfold State.pushBlock
  split
  · simp [State.setWorker, Worker.pushRecvq]
  · rfl

theorem served_dropConn (regs later : Nat) (fd : Int) (closeAccepted : Bool) (worker : Nat) :
    Served regs later (s.worker worker) ((s.dropConn fd closeAccepted).worker worker) := by
  unfold State.dropConn
  split
  · exact .refl ..
  · exact served_pushBlock regs later fd .closeBlock [] closeAccepted worker (by simp)

theorem pushBlock_regs (fd : Int) (type : BlockType) (data : List UInt8) (accepted : Bool) :
    (s.pushBlock fd type data accepted).regs = s.regs := by
  unfold State.pushBlock
  split <;> rfl

theorem dropConn_regs (fd : Int) (closeAccepted : Bool) :
    (s.dropConn fd closeAccepted).regs = s.regs := by
  unfold State.dropConn
  split
  · rfl
  · exact pushBlock_regs ..

theorem dropConn_slot (s : State) (fd : Int) (closeAccepted : Bool) :
    ((s.dropConn fd closeAccepted).epi.fds fd).type = .unused ∧
      ∀ other, other ≠ fd → (s.dropConn fd closeAccepted).epi.fds other = s.epi.fds other := by
  unfold State.dropConn
  split
  · rename_i unused
    exact ⟨unused, fun _ _ => rfl⟩
  · have pushed : (s.pushBlock fd .closeBlock [] closeAccepted).epi = s.epi := by
      unfold State.pushBlock
      split <;> rfl
    constructor
    · simp [State.delConn, release_same]
    · intro other apart
      simp [State.delConn, release_other apart, pushed]

theorem applyBlock_regs (mb : Block) (outcome : SendOutcome) :
    (s.applyBlock mb outcome).regs = s.regs := by
  unfold State.applyBlock
  split
  · rfl
  · cases outcome with
    | sent cb now => rfl
    | failed accepted => exact dropConn_regs mb.fd accepted

private theorem openConn_regs (fd newfd : Int) (peer : UInt16 × UInt32) (now : UInt32)
    (accepted : Bool) : (s.openConn fd newfd peer now accepted).regs = s.regs + 1 := by
  unfold State.openConn
  cases accepted <;> exact pushBlock_regs ..

theorem served_openConn (fd newfd : Int) (peer : UInt16 × UInt32) (now : UInt32)
    (accepted : Bool) (worker : Nat) :
    Served s.regs (s.regs + 1) (s.worker worker)
      ((s.openConn fd newfd peer now accepted).worker worker) := by
  have pushed : Served s.regs (s.regs + 1) ((s.addRemote fd newfd peer now).worker worker)
      (((s.addRemote fd newfd peer now).pushBlock newfd .openBlock
        (remoteInfoBytes ((s.addRemote fd newfd peer now).epi.fds newfd).sk) accepted).worker
          worker) :=
    served_pushBlock _ _ newfd _ _ accepted worker
      fun _ => ⟨by simp [State.addRemote, State.modify, State.addConn], rfl⟩
  unfold State.openConn
  cases accepted <;> exact pushed

private theorem served_applyBlock (regs later : Nat) (mb : Block) (outcome : SendOutcome)
    (worker : Nat) :
    Served regs later (s.worker worker) ((s.applyBlock mb outcome).worker worker) := by
  unfold State.applyBlock
  split
  · exact .refl ..
  · split
    · exact .refl ..
    · exact served_dropConn ..

theorem served_handleSendQueue (regs later : Nat) (popping : Nat) (outcome : SendOutcome)
    (worker : Nat) :
    Served regs later (s.worker worker) ((s.handleSendQueue popping outcome).worker worker) := by
  unfold State.handleSendQueue
  cases queue : (s.worker popping).sendq with
  | nil => exact .refl ..
  | cons mb rest =>
      simp only
      generalize popped : s.setWorker popping { s.worker popping with sendq := rest } = s'
      have own : (s'.worker worker).cn = (s.worker worker).cn ∧
          (s'.worker worker).count = (s.worker worker).count ∧
          (s'.worker worker).log = (s.worker worker).log ∧
          (s'.worker worker).sendq <:+ (s.worker worker).sendq ∧
          (s'.worker worker).recvq = (s.worker worker).recvq := by
        subst popped
        by_cases here : worker = popping
        · subst here
          simp [State.setWorker, queue]
        · simp [State.setWorker, here]
      refine .after ⟨own.1, own.2.1, own.2.2.1⟩ own.2.2.2.1 own.2.2.2.2 ?_
      split
      · exact served_applyBlock regs later mb outcome worker
      · exact .refl ..

/-- What a step does to the worker: it is served by the parent, or takes a step of its own. -/
inductive Changed (s : State) (action : Action) (worker : Nat) : Worker → Prop
  | parent (w' : Worker) (served : Served s.regs (step s action).regs (s.worker worker) w') :
      Changed s action worker w'
  | received (finAccepted : Bool) (here : action = .recv worker finAccepted) :
      Changed s action worker ((s.worker worker).handleRecvQueue finAccepted)
  | sent (fd : Int) (data : List UInt8) (accepted : Bool) :
      Changed s action worker ((s.worker worker).sendPkgToClient fd data accepted)
  | closed (fd : Int) (accepted : Bool) (here : action = .close worker fd accepted) :
      Changed s action worker ((s.worker worker).closeClientConn fd accepted)

theorem step_changed (s : State) (action : Action) (worker : Nat) :
    Changed s action worker ((step s action).worker worker) := by
  cases action with
  | register fd type owner =>
      refine .parent _ ?_
      simp only [step]
      split <;> exact .refl ..
  | accept fd newfd peer now accepted =>
      refine .parent _ ?_
      simp only [step]
      split
      · rw [openConn_regs]
        exact served_openConn ..
      · exact .refl ..
  | packet fd data accepted closeAccepted =>
      refine .parent _ ?_
      simp only [step]
      split
      · cases accepted with
        | true =>
            exact served_pushBlock _ _ fd .dataBlock data true worker (by simp)
        | false =>
            rw [State.pushBlock_refused]
            exact served_dropConn ..
      · exact .refl ..
  | transfer fd cb now =>
      refine .parent _ ?_
      simp only [step]
      split <;> exact .refl ..
  | drop fd closeAccepted =>
      refine .parent _ ?_
      simp only [step]
      split
      · exact served_dropConn ..
      · exact .refl ..
  | output popping outcome =>
      refine .parent _ ?_
      exact served_handleSendQueue ..
  | closeQueue =>
      refine .parent _ ?_
      simp only [step]
      split <;> exact .refl ..
  | recv owner finAccepted =>
      by_cases here : worker = owner
      · subst here
        have own := Changed.received (s := s) finAccepted (rfl : Action.recv worker finAccepted = _)
        simpa [step, State.setWorker] using own
      · refine .parent _ ?_
        simp only [step, State.setWorker, Function.update_of_ne here]
        exact .refl ..
  | send owner fd data accepted =>
      by_cases here : worker = owner
      · subst here
        simpa [step, State.setWorker] using .sent fd data accepted
      · refine .parent _ ?_
        simp only [step, State.setWorker, Function.update_of_ne here]
        exact .refl ..
  | close owner fd finAccepted =>
      by_cases here : worker = owner
      · subst here
        have own := Changed.closed (s := s) fd finAccepted
          (rfl : Action.close worker fd finAccepted = _)
        simpa [step, State.setWorker] using own
      · refine .parent _ ?_
        simp only [step, State.setWorker, Function.update_of_ne here]
        exact .refl ..

theorem regs_le (s : State) (action : Action) : s.regs ≤ (step s action).regs := by
  cases action with
  | register fd type worker =>
      simp only [step]
      split <;> simp [State.addConn]
  | accept fd newfd peer now accepted =>
      simp only [step]
      split
      · rw [openConn_regs]
        omega
      · exact le_rfl
  | packet fd data accepted closeAccepted =>
      simp only [step]
      split
      · split
        · rw [pushBlock_regs]
        · rw [dropConn_regs, pushBlock_regs]
      · exact le_rfl
  | transfer fd cb now =>
      simp only [step]
      split <;> exact le_rfl
  | drop fd closeAccepted =>
      simp only [step]
      split
      · rw [dropConn_regs]
      · exact le_rfl
  | output worker outcome =>
      simp only [step, State.handleSendQueue]
      split
      · exact le_rfl
      · split
        · unfold State.applyBlock
          split
          · exact le_rfl
          · split
            · exact le_rfl
            · rw [dropConn_regs]
              exact le_rfl
        · exact le_rfl
  | closeQueue =>
      simp only [step]
      split <;> exact le_rfl
  | recv | send | close => exact le_rfl

/-! ## The history of every worker -/

/-- The OPEN_BLOCKs of a worker come in the order of their registrations. -/
structure Worker.Ordered (regs : Nat) (w : Worker) : Prop where
  increasing : w.opens.Pairwise (· < ·)
  bounded : ∀ origin ∈ w.opens, origin ≤ regs

/-- Sessions are older than the OPEN_BLOCKs in the queue. -/
theorem Worker.Ordered.session_lt {regs : Nat} {w : Worker} (ordered : w.Ordered regs)
    {session : FdSess} (recorded : .opened session ∈ w.log) {mb : Block}
    (member : mb ∈ w.recvq) (type : mb.type = .openBlock) : session.origin < mb.origin := by
  have increasing := ordered.increasing
  unfold Worker.opens at increasing
  rw [List.pairwise_append] at increasing
  refine increasing.2.2 _ (List.mem_filterMap.mpr ⟨_, recorded, rfl⟩) _ ?_
  exact List.mem_filterMap.mpr ⟨mb, member, by simp [Block.openOrigin, type]⟩

theorem Worker.Ordered.sublist {regs later : Nat} {w w' : Worker} (ordered : w.Ordered regs)
    (sublist : w'.opens.Sublist w.opens) (grows : regs ≤ later) : w'.Ordered later where
  increasing := ordered.increasing.sublist sublist
  bounded := fun origin member => (ordered.bounded origin (sublist.subset member)).trans grows

theorem Worker.Ordered.served {regs later : Nat} {w w' : Worker} (ordered : w.Ordered regs)
    (served : Served regs later w w') (grows : regs ≤ later) : w'.Ordered later := by
  have log := served.own.2.2
  rcases served.recvq with same | ⟨mb, pushed, opening⟩
  · refine ordered.sublist ?_ grows
    simp [Worker.opens, log, same]
  · have opens : w'.opens = w.opens ++ [mb].filterMap Block.openOrigin := by
      simp [Worker.opens, log, pushed]
    by_cases type : mb.type = .openBlock
    · obtain ⟨fresh, last⟩ := opening type
      have single : [mb].filterMap Block.openOrigin = [mb.origin] := by
        simp [Block.openOrigin, type]
      rw [single] at opens
      constructor
      · rw [opens, List.pairwise_append]
        refine ⟨ordered.increasing, List.pairwise_singleton .., ?_⟩
        intro old member new isNew
        have bound := ordered.bounded old member
        rw [List.mem_singleton.mp isNew]
        omega
      · intro origin member
        rw [opens] at member
        rcases List.mem_append.mp member with old | new
        · exact (ordered.bounded origin old).trans grows
        · rw [List.mem_singleton.mp new]
          omega
    · refine ordered.sublist ?_ grows
      simp [opens, Block.openOrigin, type]

theorem Worker.Recorded.served {regs later : Nat} {w w' : Worker} (recorded : w.Recorded)
    (served : Served regs later w w') : w'.Recorded where
  sessions := by
    intro fd session found
    rw [served.own.2.2]
    exact recorded.sessions fd session (by simpa [Worker.getFdsess, served.own.1] using found)
  sendq := by
    intro mb member
    rw [served.own.2.2]
    exact recorded.sendq mb (served.sendq.subset member)

structure Historic (s : State) : Prop where
  inv : Inv s
  recorded : ∀ worker, (s.worker worker).Recorded
  ordered : ∀ worker, (s.worker worker).Ordered s.regs

theorem historic_init : Historic init where
  inv := inv_init
  recorded := fun _ => Worker.recorded_init
  ordered := fun _ => ⟨List.Pairwise.nil, by simp [init, Worker.init, Worker.opens]⟩

theorem Historic.step (historic : Historic s) (action : Action) : Historic (step s action) where
  inv := historic.inv.step action
  recorded := by
    intro worker
    have recorded := historic.recorded worker
    have changed := step_changed s action worker
    generalize (Session.step s action).worker worker = w' at changed
    cases changed with
    | parent _ served => exact recorded.served served
    | received finAccepted => exact recorded.received (Worker.handleRecvQueue_received ..)
    | sent fd data accepted => exact recorded.sendPkgToClient fd data accepted
    | closed fd accepted =>
        exact recorded.closeClientConn (historic.inv.workers worker) fd accepted
  ordered := by
    intro worker
    have ordered := historic.ordered worker
    have grows := regs_le s action
    have changed := step_changed s action worker
    generalize (Session.step s action).worker worker = w' at changed
    cases changed with
    | parent _ served => exact ordered.served served grows
    | received finAccepted =>
        exact ordered.sublist (Worker.handleRecvQueue_received ..).opens_sublist grows
    | sent fd data accepted =>
        exact ordered.sublist (by rw [Worker.opens_sendPkgToClient]) grows
    | closed fd accepted =>
        exact ordered.sublist (by rw [Worker.opens_closeClientConn]) grows

theorem historic_run (actions : List Action) : Historic (run step init actions) :=
  run_preserves Historic (fun _ action historic => historic.step action) historic_init actions

end MpNet.Session
