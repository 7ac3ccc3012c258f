import MpNet.Session.QuiescenceProperties

/-!
# What a step does to a buffer

A step keeps the buffer of a connection, replaces it, or has to do with another connection.
-/

set_option autoImplicit false

namespace MpNet.Session

open Library Net Net.Epi

/-- The connection whose buffer a step replaces. -/
def Action.fills (s : State) : Action → Option Int
  | .transfer fd _ _ => some fd
  | .output worker (.sent _ _) => (s.worker worker).sendq.head?.map Block.fd
  | _ => none

/-- A step as it is seen from the buffer of one descriptor. -/
inductive BufferStep (s s' : State) (fd : Int) : Prop
  | kept (gen : s'.gen fd = s.gen fd) (type : (s'.epi.fds fd).type = (s.epi.fds fd).type)
      (bcElem : (s'.epi.fds fd).bcElem = (s.epi.fds fd).bcElem)
      (cb : (s'.epi.fds fd).cb = (s.epi.fds fd).cb)
      (needClose : (s'.epi.fds fd).needClose = true →
        (s.epi.fds fd).needClose = true ∨ (s.epi.fds fd).type = .remote)
  | closed (away : (s'.epi.fds fd).type ≠ .remote) (needClose : (s'.epi.fds fd).needClose = false)
  | opened (gen : s'.gen fd = s.regs + 1) (cb : (s'.epi.fds fd).cb = .zero)
      (needClose : (s'.epi.fds fd).needClose = false)

section Buffers

variable {s : State} {fd client : Int} {worker : Nat} {room : Nat}

theorem BufferStep.refl (s : State) (fd : Int) : BufferStep s s fd :=
  .kept rfl rfl rfl rfl .inl

theorem BufferStep.of_slot {s' : State} (gen : s'.gen fd = s.gen fd)
    (slot : s'.epi.fds fd = s.epi.fds fd) : BufferStep s s' fd :=
  .kept gen (slot ▸ rfl) (slot ▸ rfl) (slot ▸ rfl) fun set => .inl (slot ▸ set)

private theorem bufferStep_delConn : BufferStep s (s.delConn client) fd := by
  by_cases here : fd = client
  · subst here
    exact .closed (by simp [State.delConn, release_same]) (by simp [State.delConn, release_same])
  · exact .of_slot rfl (release_other here)

private theorem bufferStep_dropConn (closeAccepted : Bool) :
    BufferStep s (s.dropConn client closeAccepted) fd := by
  unfold State.dropConn
  split
  · exact .refl s fd
  · by_cases here : fd = client
    · subst here
      exact .closed (by simp [State.delConn, release_same]) (by simp [State.delConn, release_same])
    · refine .of_slot (by simp [State.delConn, pushBlock_gen]) ?_
      simp [State.delConn, release_other here, Agrees.pushBlock_epi]

private theorem bufferStep_openConn (listener newfd : Int) (peer : UInt16 × UInt32) (now : UInt32)
    (accepted : Bool) : BufferStep s (s.openConn listener newfd peer now accepted) fd := by
  by_cases here : fd = newfd
  · subst here
    unfold State.openConn
    cases accepted with
    | true =>
        refine .opened ?_ ?_ ?_
        · simp [pushBlock_gen, State.addRemote, State.modify, State.addConn]
        · simp [Agrees.pushBlock_epi, State.addRemote, State.modify, State.addConn, Epi.doAddConn,
            FdInfo.zero]
        · simp [Agrees.pushBlock_epi, State.addRemote, State.modify, State.addConn, Epi.doAddConn,
            FdInfo.zero]
    | false =>
        exact .closed (by simp [State.delConn, release_same]) (by simp [State.delConn, release_same])
  · refine .of_slot ?_ ?_
    · unfold State.openConn
      cases accepted <;>
        simp [State.delConn, pushBlock_gen, State.addRemote, State.modify, State.addConn, here]
    · unfold State.openConn
      cases accepted <;>
        simp [State.delConn, Agrees.pushBlock_epi, release_other here, State.addRemote,
          State.modify, State.addConn, modify_other _ here, doAddConn_other here]

private theorem bufferStep_modify {change : FdInfo → FdInfo} (apart : fd ≠ client) :
    BufferStep s (s.modify client change) fd := by
  have slot : (s.modify client change).epi.fds fd = s.epi.fds fd := modify_other _ apart
  exact .of_slot rfl slot

private theorem bufferStep_addConn {type : FdType} (owner : Option Nat) (apart : type ≠ .remote) :
    BufferStep s (s.addConn client type none owner) fd := by
  by_cases here : fd = client
  · subst here
    exact .closed (by simp [State.addConn, Epi.doAddConn, apart])
      (by simp [State.addConn, Epi.doAddConn, FdInfo.zero])
  · refine .of_slot ?_ ?_ <;> simp [State.addConn, here]

private theorem bufferStep_applyBlock {mb : Block} (remote : (s.epi.fds mb.fd).type = .remote)
    (outcome : SendOutcome)
    (away : ∀ cb now, outcome = .sent cb now → fd ≠ mb.fd) :
    BufferStep s (s.applyBlock mb outcome) fd := by
  unfold State.applyBlock
  split
  · by_cases here : fd = mb.fd
    · subst here
      refine .kept rfl ?_ ?_ ?_ fun _ => .inr remote <;> simp [addToCloseQueue_same]
    · have slot : (s.epi.addToCloseQueue mb.fd).fds fd = s.epi.fds fd := addToCloseQueue_other here
      exact .of_slot rfl slot
  · cases outcome with
    | sent cb now => exact bufferStep_modify (away cb now rfl)
    | failed closeAccepted => exact bufferStep_dropConn closeAccepted

private theorem bufferStep_output (outcome : SendOutcome)
    (away : Action.fills s (.output worker outcome) ≠ some fd) :
    BufferStep s (s.handleSendQueue worker outcome) fd := by
  cases queue : (s.worker worker).sendq with
  | nil =>
      unfold State.handleSendQueue
      rw [queue]
      exact .refl s fd
  | cons mb rest =>
      have apart (cb : ConnBuf) (now : UInt32) (sent : outcome = .sent cb now) : fd ≠ mb.fd := by
        rintro rfl
        exact away (by simp [Action.fills, sent, queue])
      rw [State.handleSendQueue_front queue]
      simp only
      split
      · -- The pop changes no slot.
        rename_i passes
        have remote : (s.epi.fds mb.fd).type = .remote := not_not.mp (not_or.mp passes.2).1
        have applied := @bufferStep_applyBlock
          (s.setWorker worker { s.worker worker with sendq := rest }) fd mb remote outcome apart
        cases applied with
        | kept gen type bcElem cb needClose => exact .kept gen type bcElem cb needClose
        | closed away needClose => exact .closed away needClose
        | opened gen cb needClose => exact .opened gen cb needClose
      · exact .of_slot rfl rfl

theorem step_buffer (action : Action) (away : action.fills s ≠ some fd) :
    BufferStep s (step s action) fd := by
  cases action with
  | register newfd type owner =>
      simp only [step]
      split
      · rename_i free
        exact bufferStep_addConn owner free.2.2.2
      · exact .refl s fd
  | accept listener newfd peer now accepted =>
      simp only [step]
      split
      · exact bufferStep_openConn listener newfd peer now accepted
      · exact .refl s fd
  | packet owner data accepted closeAccepted =>
      simp only [step]
      split
      · cases accepted with
        | true => exact .of_slot (by simp [pushBlock_gen]) (by simp [Agrees.pushBlock_epi])
        | false =>
            rw [State.pushBlock_refused]
            exact bufferStep_dropConn closeAccepted
      · exact .refl s fd
  | transfer owner cb now =>
      have here : fd ≠ owner := by
        rintro rfl
        exact away rfl
      simp only [step]
      split
      · exact bufferStep_modify here
      · exact .refl s fd
  | drop owner closeAccepted =>
      simp only [step]
      split
      · exact bufferStep_dropConn closeAccepted
      · exact .refl s fd
  | output owner outcome => exact bufferStep_output outcome away
  | closeQueue =>
      simp only [step]
      split
      · exact bufferStep_delConn
      · exact .refl s fd
  | recv | send | close => exact .of_slot rfl rfl

end Buffers

/-! ## The close queue -/

/-- Only clients are queued to be closed. -/
def Clients (s : State) : Prop :=
  ∀ fd, (s.epi.fds fd).needClose = true → (s.epi.fds fd).type = .remote

/-- The slot with another buffer. -/
def filled (slot : FdInfo) (cb : ConnBuf) (now : UInt32) : FdInfo :=
  { slot with cb := cb, sk := { slot.sk with lastTm := now } }

section Closing

variable {s s' : State} {fd : Int} {worker : Nat} {cb : ConnBuf} {now : UInt32}

theorem transfer_slot (remote : (s.epi.fds fd).type = .remote) :
    (step s (.transfer fd cb now)).epi.fds fd = filled (s.epi.fds fd) cb now := by
  simp only [step, if_pos remote, State.modify, modify_same]
  rfl

theorem output_slot {mb : Block} {rest : List Block} (front : (s.worker worker).sendq = mb :: rest)
    (passes : s.Passes mb) (data : mb.type ≠ .finBlock) :
    (step s (.output worker (.sent cb now))).epi.fds mb.fd =
      filled (s.epi.fds mb.fd) cb now := by
  simp only [step, State.handleSendQueue_front front, if_pos passes, State.applyBlock, if_neg data,
    State.modify, modify_same]
  rfl

/-- What a step does to the slot whose buffer it may replace. -/
theorem filled_slot {action : Action} (fills : action.fills s = some fd) :
    BufferStep s (step s action) fd ∨
      ∃ cb now, (step s action).epi.fds fd = filled (s.epi.fds fd) cb now := by
  cases action with
  | transfer client cb now =>
      obtain rfl := Option.some.inj fills
      by_cases remote : (s.epi.fds client).type = .remote
      · exact .inr ⟨cb, now, transfer_slot remote⟩
      · left
        rw [step, if_neg remote]
        exact .refl s client
  | output owner outcome =>
      cases outcome with
      | failed closeAccepted => cases fills
      | sent cb now =>
          cases queue : (s.worker owner).sendq with
          | nil =>
              rw [Action.fills, queue] at fills
              cases fills
          | cons mb rest =>
              rw [Action.fills, queue] at fills
              obtain rfl := Option.some.inj fills
              by_cases passes : s.Passes mb
              · by_cases fin : mb.type = .finBlock
                · left
                  have remote : (s.epi.fds mb.fd).type = .remote :=
                    not_not.mp (not_or.mp passes.2).1
                  have slot := @addToCloseQueue_same s.epi mb.fd
                  have same : (step s (.output owner (.sent cb now))).gen = s.gen ∧
                      (step s (.output owner (.sent cb now))).epi = s.epi.addToCloseQueue mb.fd := by
                    simp only [step, State.handleSendQueue_front queue, if_pos passes,
                      State.applyBlock, if_pos fin]
                    exact ⟨rfl, rfl⟩
                  refine .kept (congrFun same.1 mb.fd) ?_ ?_ ?_ fun _ => .inr remote <;>
                    rw [same.2, slot]
                · exact .inr ⟨cb, now, output_slot queue passes fin⟩
              · left
                simp only [step, State.handleSendQueue_front queue, if_neg passes]
                exact .of_slot rfl rfl
  | _ => cases fills

theorem BufferStep.clients (buffer : BufferStep s s' fd) (clients : Clients s)
    (queued : (s'.epi.fds fd).needClose = true) : (s'.epi.fds fd).type = .remote := by
  cases buffer with
  | kept _ type _ _ needClose =>
      rw [type]
      exact (needClose queued).elim (clients fd) id
  | closed _ needClose | opened _ _ needClose =>
      rw [needClose] at queued
      cases queued

theorem Clients.step (clients : Clients s) (action : Action) : Clients (step s action) := by
  intro fd queued
  by_cases fills : action.fills s = some fd
  · rcases filled_slot fills with buffer | ⟨cb, now, slot⟩
    · exact buffer.clients clients queued
    · rw [slot] at queued ⊢
      exact clients fd queued
  · exact (step_buffer action fills).clients clients queued

end Closing

end MpNet.Session
