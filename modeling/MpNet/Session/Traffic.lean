import MpNet.Session.QuiescenceProperties

/-!
# What a step does to a descriptor and to a receive queue

A slot of the parent is kept, freed or registered anew, and a worker's queue gets at most
one block, which is about the connection that the slot has then.
-/

set_option autoImplicit false

namespace MpNet.Session

open Library Net Net.Epi

/-- The worker serves the client on `fd`. -/
def Serves (s : State) (worker : Nat) (fd : Int) : Prop :=
  (s.epi.fds fd).type = .remote ∧ (s.epi.fds fd).bcElem = some worker

/-- The slot goes with the worker: a connection that it serves, or the pipe from it. -/
structure Attached (s : State) (worker : Nat) (fd : Int) : Prop where
  owner : (s.epi.fds fd).bcElem = some worker
  used : (s.epi.fds fd).type ≠ .unused
  conn : (s.epi.fds fd).type ≠ .listen

theorem Serves.attached {s : State} {worker : Nat} {fd : Int} (serves : Serves s worker fd) :
    Attached s worker fd :=
  ⟨serves.2, by simp [serves.1], by simp [serves.1]⟩

/-- A step as it is seen from one slot. -/
inductive SlotStep (s s' : State) (fd : Int) : Prop
  | kept (type : (s'.epi.fds fd).type = (s.epi.fds fd).type)
      (bcElem : (s'.epi.fds fd).bcElem = (s.epi.fds fd).bcElem) (gen : s'.gen fd = s.gen fd)
  | freed (type : (s'.epi.fds fd).type = .unused)
  | registered (gen : s'.gen fd = s.regs + 1)
      (announced : ∀ worker, Serves s' worker fd → ∃ mb, mb.type = .openBlock ∧ mb.fd = fd ∧
        (s'.worker worker).recvq = (s.worker worker).recvq ++ [mb])

section Slots

variable {s : State} {fd other : Int}

theorem SlotStep.refl (s : State) (fd : Int) : SlotStep s s fd := .kept rfl rfl rfl

private theorem slotStep_setWorker (worker : Nat) (w : Worker) :
    SlotStep s (s.setWorker worker w) fd :=
  .kept rfl rfl rfl

private theorem slotStep_pushBlock (type : BlockType) (data : List UInt8) (accepted : Bool) :
    SlotStep s (s.pushBlock other type data accepted) fd := by
  have epi := Agrees.pushBlock_epi (s := s) other type data accepted
  exact .kept (epi ▸ rfl) (epi ▸ rfl) (by rw [pushBlock_gen])

private theorem slotStep_modify {change : FdInfo → FdInfo}
    (type : (change (s.epi.fds other)).type = (s.epi.fds other).type)
    (bcElem : (change (s.epi.fds other)).bcElem = (s.epi.fds other).bcElem) :
    SlotStep s (s.modify other change) fd := by
  by_cases here : fd = other
  · subst here
    exact .kept (by simp [State.modify, type]) (by simp [State.modify, bcElem]) rfl
  · have slot : (s.modify other change).epi.fds fd = s.epi.fds fd := modify_other _ here
    exact .kept (slot ▸ rfl) (slot ▸ rfl) rfl

private theorem slotStep_delConn : SlotStep s (s.delConn other) fd := by
  by_cases here : fd = other
  · subst here
    exact .freed (by simp [State.delConn, release_same])
  · have slot : (s.delConn other).epi.fds fd = s.epi.fds fd := release_other here
    exact .kept (slot ▸ rfl) (slot ▸ rfl) rfl

theorem slotStep_dropConn (closeAccepted : Bool) : SlotStep s (s.dropConn other closeAccepted) fd := by
  unfold State.dropConn
  split
  · exact .refl s fd
  · by_cases here : fd = other
    · subst here
      exact .freed (by simp [State.delConn, release_same])
    · refine .kept ?_ ?_ ?_ <;>
        simp [State.delConn, release_other here, Agrees.pushBlock_epi, pushBlock_gen]

theorem slotStep_addConn {type : FdType} (peer : Option (UInt16 × UInt32)) (bcElem : Option Nat)
    (local_ : type ≠ .remote) : SlotStep s (s.addConn other type peer bcElem) fd := by
  by_cases here : fd = other
  · subst here
    refine .registered (by simp [State.addConn]) fun worker serves => ?_
    have remote := serves.1
    simp only [State.addConn, Epi.doAddConn, Function.update_self] at remote
    exact absurd remote local_
  · refine .kept ?_ ?_ ?_ <;> simp [State.addConn, here]

private theorem pushBlock_recvq {worker : Nat} (owner : (s.epi.fds fd).bcElem = some worker)
    (type : BlockType) (data : List UInt8) :
    ((s.pushBlock fd type data true).worker worker).recvq = (s.worker worker).recvq ++
      [⟨(s.epi.fds fd).id, fd, type, data, s.gen fd⟩] := by
  unfold State.pushBlock
  rw [owner]
  simp only [State.setWorker_same]
  rfl

private theorem pushBlock_recvq_other {worker : Nat} (owner : (s.epi.fds fd).bcElem ≠ some worker)
    (type : BlockType) (data : List UInt8) (accepted : Bool) :
    ((s.pushBlock fd type data accepted).worker worker).recvq = (s.worker worker).recvq := by
  unfold State.pushBlock
  split
  · rename_i other here
    have apart : worker ≠ other := fun same => owner (same ▸ here)
    rw [State.setWorker_other _ _ apart]
  · rfl

private theorem slotStep_openConn (fd newfd : Int) (peer : UInt16 × UInt32) (now : UInt32)
    (accepted : Bool) :
    SlotStep s (s.openConn fd newfd peer now accepted) other := by
  by_cases here : other = newfd
  · subst here
    unfold State.openConn
    cases accepted with
    | true =>
        refine .registered ?_ fun worker serves => ?_
        · simp [pushBlock_gen, State.addRemote, State.modify, State.addConn]
        · have owner := serves.2
          simp only [if_pos, Agrees.pushBlock_epi] at owner
          exact ⟨_, rfl, rfl, pushBlock_recvq owner ..⟩
    | false => exact .freed (by simp [State.delConn, release_same])
  · have slot : (s.openConn fd newfd peer now accepted).epi.fds other = s.epi.fds other := by
      unfold State.openConn
      cases accepted <;>
        simp [State.delConn, Agrees.pushBlock_epi, release_other here, State.addRemote,
          State.modify, State.addConn, modify_other _ here, doAddConn_other here]
    refine .kept (slot ▸ rfl) (slot ▸ rfl) ?_
    unfold State.openConn
    cases accepted <;>
      simp [State.delConn, pushBlock_gen, State.addRemote, State.modify, State.addConn, here]

private theorem slotStep_applyBlock (mb : Block) (outcome : SendOutcome) :
    SlotStep s (s.applyBlock mb outcome) fd := by
  unfold State.applyBlock
  split
  · by_cases here : fd = mb.fd
    · subst here
      refine .kept ?_ ?_ rfl <;> simp [addToCloseQueue_same]
    · have slot : (s.epi.addToCloseQueue mb.fd).fds fd = s.epi.fds fd := addToCloseQueue_other here
      exact .kept (slot ▸ rfl) (slot ▸ rfl) rfl
  · split
    · exact slotStep_modify rfl rfl
    · exact slotStep_dropConn _

private theorem popSendq_recvq (worker other : Nat) (rest : List Block) :
    ((s.setWorker worker { s.worker worker with sendq := rest }).worker other).recvq =
      (s.worker other).recvq := by
  by_cases here : other = worker
  · subst here
    rw [State.setWorker_same]
  · rw [State.setWorker_other _ _ here]

private theorem slotStep_handleSendQueue (worker : Nat) (outcome : SendOutcome) :
    SlotStep s (s.handleSendQueue worker outcome) fd := by
  cases queue : (s.worker worker).sendq with
  | nil =>
      unfold State.handleSendQueue
      rw [queue]
      exact .refl s fd
  | cons mb rest =>
      rw [State.handleSendQueue_front queue]
      simp only
      split
      · -- The pop changes no slot.
        have applied := @slotStep_applyBlock
          (s.setWorker worker { s.worker worker with sendq := rest }) fd mb outcome
        cases applied with
        | kept type bcElem gen => exact .kept type bcElem gen
        | freed type => exact .freed type
        | registered gen announced =>
            refine .registered gen fun owner serves => ?_
            obtain ⟨opening, type, here, recvq⟩ := announced owner serves
            rw [popSendq_recvq] at recvq
            exact ⟨opening, type, here, recvq⟩
      · exact slotStep_setWorker ..

theorem step_slot (s : State) (action : Action) (fd : Int) : SlotStep s (step s action) fd := by
  cases action with
  | register newfd type worker =>
      simp only [step]
      split
      · rename_i free
        exact slotStep_addConn none worker free.2.2.2
      · exact .refl s fd
  | accept listener newfd peer now accepted =>
      simp only [step]
      split
      · exact slotStep_openConn ..
      · exact .refl s fd
  | packet client data accepted closeAccepted =>
      simp only [step]
      split
      · cases accepted with
        | true => exact slotStep_pushBlock ..
        | false =>
            rw [State.pushBlock_refused]
            exact slotStep_dropConn closeAccepted
      · exact .refl s fd
  | transfer client cb now =>
      simp only [step]
      split
      · exact slotStep_modify rfl rfl
      · exact .refl s fd
  | drop client closeAccepted =>
      simp only [step]
      split
      · exact slotStep_dropConn closeAccepted
      · exact .refl s fd
  | output worker outcome => exact slotStep_handleSendQueue worker outcome
  | closeQueue =>
      simp only [step]
      split
      · exact slotStep_delConn
      · exact .refl s fd
  | recv | send | close => exact slotStep_setWorker ..

end Slots

/-! ## Receive queues -/

def Block.payload (fd : Int) (origin : Nat) (mb : Block) : Option (List UInt8) :=
  if mb.type = .dataBlock ∧ mb.fd = fd ∧ mb.origin = origin ∧ mb.data ≠ [] then some mb.data
  else none

/-- The packet that a step puts in the worker's queue for a connection. -/
def arrival (worker : Nat) (fd : Int) (origin : Nat) (s : State) : Action → List (List UInt8)
  | .packet client data true _ =>
      if (s.epi.fds client).type = .remote ∧ (s.epi.fds client).bcElem = some worker ∧
          client = fd ∧ s.gen client = origin ∧ data ≠ [] then [data]
      else []
  | _ => []

/-- A step of the parent as it is seen from one receive queue. -/
inductive QueueStep (s s' : State) (worker : Nat) (fd : Int) (origin : Nat) :
    List (List UInt8) → Prop
  | quiet (recvq : (s'.worker worker).recvq = (s.worker worker).recvq) :
      QueueStep s s' worker fd origin []
  | opened (mb : Block) (recvq : (s'.worker worker).recvq = (s.worker worker).recvq ++ [mb])
      (type : mb.type = .openBlock) (about : mb.origin = s.regs + 1)
      (length : mb.data.length = sizeofRemoteInfo) : QueueStep s s' worker fd origin []
  | closed (mb : Block) (recvq : (s'.worker worker).recvq = (s.worker worker).recvq ++ [mb])
      (type : mb.type = .closeBlock) (about : mb.origin = s.gen mb.fd)
      (freed : (s'.epi.fds mb.fd).type = .unused) (attached : Attached s worker mb.fd) :
      QueueStep s s' worker fd origin []
  | data (mb : Block) (recvq : (s'.worker worker).recvq = (s.worker worker).recvq ++ [mb])
      (type : mb.type = .dataBlock) (about : mb.origin = s.gen mb.fd)
      (serves : Serves s worker mb.fd) :
      QueueStep s s' worker fd origin (mb.payload fd origin).toList

section Queues

variable {s : State} {worker : Nat} {fd : Int} {origin : Nat}

theorem queueStep_dropConn (client : Int) (closeAccepted : Bool)
    (conn : (s.epi.fds client).type ≠ .listen) :
    QueueStep s (s.dropConn client closeAccepted) worker fd origin [] := by
  unfold State.dropConn
  split
  · exact .quiet rfl
  · rename_i used
    cases closeAccepted with
    | false =>
        rw [State.pushBlock_refused]
        exact .quiet rfl
    | true =>
        by_cases owner : (s.epi.fds client).bcElem = some worker
        · exact .closed _ (pushBlock_recvq owner ..) rfl rfl
            (by simp [State.delConn, release_same]) ⟨owner, used, conn⟩
        · exact .quiet (pushBlock_recvq_other owner ..)

private theorem queueStep_openConn (listener newfd : Int) (peer : UInt16 × UInt32) (now : UInt32)
    (accepted : Bool) :
    QueueStep s (s.openConn listener newfd peer now accepted) worker fd origin [] := by
  unfold State.openConn
  generalize added : s.addRemote listener newfd peer now = s'
  have gen : s'.gen newfd = s.regs + 1 := by
    subst added
    simp [State.addRemote, State.modify, State.addConn]
  have same : (s'.worker worker).recvq = (s.worker worker).recvq := by subst added; rfl
  cases accepted with
  | false =>
      simp only [State.pushBlock_refused]
      exact .quiet same
  | true =>
      by_cases owner : (s'.epi.fds newfd).bcElem = some worker
      · exact .opened _ (same ▸ pushBlock_recvq owner ..) rfl gen (remoteInfoBytes_length _)
      · exact .quiet ((pushBlock_recvq_other owner ..).trans same)

private theorem queueStep_applyBlock (mb : Block) (outcome : SendOutcome) (passes : s.Passes mb) :
    QueueStep s (s.applyBlock mb outcome) worker fd origin [] := by
  unfold State.applyBlock
  split
  · exact .quiet rfl
  · split
    · exact .quiet rfl
    · have filters := passes.2
      simp only [not_or, ne_eq, not_not] at filters
      exact queueStep_dropConn _ _ (by simp [filters.1])

private theorem queueStep_handleSendQueue (popping : Nat) (outcome : SendOutcome) :
    QueueStep s (s.handleSendQueue popping outcome) worker fd origin [] := by
  cases queue : (s.worker popping).sendq with
  | nil =>
      unfold State.handleSendQueue
      rw [queue]
      exact .quiet rfl
  | cons mb rest =>
      rw [State.handleSendQueue_front queue]
      have popped := popSendq_recvq (s := s) popping worker rest
      simp only
      split
      · rename_i passes
        have applied := @queueStep_applyBlock
          (s.setWorker popping { s.worker popping with sendq := rest }) worker fd origin mb outcome
          passes
        generalize none_arrives : ([] : List (List UInt8)) = arrived at applied
        cases applied with
        | quiet recvq => exact .quiet (recvq.trans popped)
        | opened mb recvq type about length =>
            exact .opened mb (popped ▸ recvq) type about length
        | closed mb recvq type about freed attached =>
            exact .closed mb (popped ▸ recvq) type about freed ⟨attached.1, attached.2, attached.3⟩
        | data mb recvq type about serves =>
            exact .data mb (popped ▸ recvq) type about serves
      · exact .quiet popped

/-- The parent's steps, and those of the other workers. -/
theorem step_queue (s : State) (action : Action) (worker : Nat) (fd : Int) (origin : Nat) :
    (∃ finAccepted, action = .recv worker finAccepted) ∨
      QueueStep s (step s action) worker fd origin (arrival worker fd origin s action) := by
  cases action with
  | register newfd type owner =>
      refine .inr (.quiet ?_)
      simp only [step]
      split <;> rfl
  | accept listener newfd peer now accepted =>
      refine .inr ?_
      simp only [step, arrival]
      split
      · exact queueStep_openConn ..
      · exact .quiet rfl
  | packet client data accepted closeAccepted =>
      refine .inr ?_
      simp only [step]
      split
      · rename_i remote
        cases accepted with
        | false =>
            rw [State.pushBlock_refused]
            exact queueStep_dropConn client closeAccepted (by simp [remote])
        | true =>
            by_cases owner : (s.epi.fds client).bcElem = some worker
            · have pushed := pushBlock_recvq owner .dataBlock data
              have payload : arrival worker fd origin s (.packet client data true closeAccepted) =
                  (Block.payload fd origin
                    ⟨(s.epi.fds client).id, client, .dataBlock, data, s.gen client⟩).toList := by
                simp only [arrival, Block.payload, remote, owner, true_and]
                split <;> rfl
              rw [payload]
              exact .data _ pushed rfl rfl ⟨remote, owner⟩
            · have none_here : arrival worker fd origin s (.packet client data true closeAccepted) =
                  [] := if_neg fun here => owner here.2.1
              rw [none_here]
              exact .quiet (pushBlock_recvq_other owner ..)
      · rename_i other
        have none_here : arrival worker fd origin s (.packet client data accepted closeAccepted) =
            [] := by
          cases accepted with
          | false => rfl
          | true => exact if_neg fun here => other here.1
        rw [none_here]
        exact .quiet rfl
  | transfer client cb now =>
      refine .inr (.quiet ?_)
      simp only [step]
      split <;> rfl
  | drop client closeAccepted =>
      refine .inr ?_
      simp only [step, arrival]
      split
      · rename_i remote
        exact queueStep_dropConn client closeAccepted (by simp [remote])
      · exact .quiet rfl
  | output popping outcome => exact .inr (queueStep_handleSendQueue popping outcome)
  | closeQueue =>
      refine .inr (.quiet ?_)
      simp only [step]
      split <;> rfl
  | recv owner finAccepted =>
      by_cases here : worker = owner
      · exact .inl ⟨finAccepted, here ▸ rfl⟩
      · refine .inr (.quiet ?_)
        simp only [step]
        rw [State.setWorker_other _ _ here]
  | send owner client data accepted =>
      refine .inr (.quiet ?_)
      simp only [step]
      by_cases here : worker = owner
      · subst here
        rw [State.setWorker_same]
        unfold Worker.sendPkgToClient
        split <;> rfl
      · rw [State.setWorker_other _ _ here]
  | close owner client finAccepted =>
      refine .inr (.quiet ?_)
      simp only [step]
      by_cases here : worker = owner
      · subst here
        rw [State.setWorker_same]
        unfold Worker.closeClientConn
        split <;> rfl
      · rw [State.setWorker_other _ _ here]

end Queues

/-! ## Sessions and logs -/

/-- A step as it is seen from the sessions and the log of one worker. -/
inductive OwnStep (s : State) (action : Action) (worker : Nat) : Worker → Prop
  | parent (w' : Worker) (cn : w'.cn = (s.worker worker).cn) (log : w'.log = (s.worker worker).log)
      (away : ∀ finAccepted, action ≠ .recv worker finAccepted) : OwnStep s action worker w'
  | received (finAccepted : Bool) (here : action = .recv worker finAccepted) :
      OwnStep s action worker ((s.worker worker).handleRecvQueue finAccepted)
  | closed (fd : Int) (finAccepted : Bool) (here : action = .close worker fd finAccepted) :
      OwnStep s action worker ((s.worker worker).closeClientConn fd finAccepted)

private theorem Served.ownStep {s : State} {action : Action} {worker : Nat} {regs later : Nat}
    {w' : Worker}
    (served : Served regs later (s.worker worker) w')
    (away : ∀ finAccepted, action ≠ .recv worker finAccepted) : OwnStep s action worker w' :=
  .parent w' served.own.1 served.own.2.2 away

theorem step_own (s : State) (action : Action) (worker : Nat) :
    OwnStep s action worker ((step s action).worker worker) := by
  cases action with
  | register fd type owner =>
      refine .parent _ ?_ ?_ (by simp) <;> · simp only [step]; split <;> rfl
  | accept fd newfd peer now accepted =>
      simp only [step]
      split
      · exact (served_openConn fd newfd peer now accepted worker).ownStep (by simp)
      · exact .parent _ rfl rfl (by simp)
  | packet fd data accepted closeAccepted =>
      simp only [step]
      split
      · cases accepted with
        | true =>
            exact (served_pushBlock 0 0 fd .dataBlock data true worker (by simp)).ownStep (by simp)
        | false =>
            rw [State.pushBlock_refused]
            exact (served_dropConn 0 0 fd closeAccepted worker).ownStep (by simp)
      · exact .parent _ rfl rfl (by simp)
  | transfer fd cb now =>
      refine .parent _ ?_ ?_ (by simp) <;> · simp only [step]; split <;> rfl
  | drop fd closeAccepted =>
      simp only [step]
      split
      · exact (served_dropConn 0 0 fd closeAccepted worker).ownStep (by simp)
      · exact .parent _ rfl rfl (by simp)
  | output popping outcome =>
      exact (served_handleSendQueue 0 0 popping outcome worker).ownStep (by simp)
  | closeQueue =>
      refine .parent _ ?_ ?_ (by simp) <;> · simp only [step]; split <;> rfl
  | recv owner finAccepted =>
      by_cases here : worker = owner
      · subst here
        simpa [step, State.setWorker] using
          OwnStep.received (s := s) finAccepted (rfl : Action.recv worker finAccepted = _)
      · simp only [step, State.setWorker_other _ _ here]
        refine .parent _ rfl rfl fun _ same => here ?_
        cases same
        rfl
  | send owner fd data accepted =>
      by_cases here : worker = owner
      · subst here
        simp only [step, State.setWorker_same]
        unfold Worker.sendPkgToClient
        split <;> exact .parent _ rfl rfl (by simp)
      · simp only [step, State.setWorker_other _ _ here]
        exact .parent _ rfl rfl (by simp)
  | close owner fd finAccepted =>
      by_cases here : worker = owner
      · subst here
        simpa [step, State.setWorker] using
          OwnStep.closed (s := s) fd finAccepted (rfl : Action.close worker fd finAccepted = _)
      · simp only [step, State.setWorker_other _ _ here]
        exact .parent _ rfl rfl (by simp)

end MpNet.Session
