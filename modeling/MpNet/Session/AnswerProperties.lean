import MpNet.Session.History

/-!
# Answers reach only the client they were made for
-/

set_option autoImplicit false

namespace MpNet.Session

open Library Net

/-- What `schedule_output` does with a block that passes its filters: it changes the
connection of the block's descriptor, no other slot or entry of the close queue, and no
worker but for the block that is popped and the CLOSE_BLOCK of a deleted connection. -/
structure AppliedTo (s s' : State) (worker : Nat) (mb : Block) (rest : List Block)
    (outcome : SendOutcome) : Prop where
  gen : s'.gen = s.gen
  others : ∀ other, other ≠ mb.fd → s'.epi.fds other = s.epi.fds other
  queue : ∀ other, other ≠ mb.fd → (other ∈ s'.epi.closeHead ↔ other ∈ s.epi.closeHead)
  workers : ∀ other, other ≠ worker → s'.worker other = s.worker other
  closes : mb.type = .finBlock →
    mb.fd ∈ s'.epi.closeHead ∧ (s'.epi.fds mb.fd).type = (s.epi.fds mb.fd).type ∧
      s'.worker worker = { s.worker worker with sendq := rest }
  sends : mb.type ≠ .finBlock → ∀ cb now, outcome = .sent cb now →
    s'.epi.fds mb.fd =
      { s.epi.fds mb.fd with cb := cb, sk := { (s.epi.fds mb.fd).sk with lastTm := now } } ∧
      s'.worker worker = { s.worker worker with sendq := rest }
  deletes : mb.type ≠ .finBlock → ∀ closeAccepted, outcome = .failed closeAccepted →
    (s'.epi.fds mb.fd).type = .unused ∧
      s'.worker worker = { s.worker worker with sendq := rest }.pushRecvq
        ⟨(s.epi.fds mb.fd).id, mb.fd, .closeBlock, [], s.gen mb.fd⟩ closeAccepted

section Applying

variable {s : State} {mb : Block}

private theorem dropConn_gen (fd : Int) (closeAccepted : Bool) :
    (s.dropConn fd closeAccepted).gen = s.gen := by
  unfold State.dropConn State.pushBlock
  split
  · rfl
  · split <;> rfl

private theorem applyBlock_gen (outcome : SendOutcome) : (s.applyBlock mb outcome).gen = s.gen := by
  unfold State.applyBlock
  split
  · rfl
  · cases outcome with
    | sent cb now => rfl
    | failed closeAccepted => exact dropConn_gen mb.fd closeAccepted

private theorem applyBlock_other {other : Int} (apart : other ≠ mb.fd) (outcome : SendOutcome) :
    (s.applyBlock mb outcome).epi.fds other = s.epi.fds other := by
  unfold State.applyBlock
  split
  · exact Epi.addToCloseQueue_other apart
  · cases outcome with
    | sent cb now =>
        simp only [State.modify]
        exact Epi.modify_other _ apart
    | failed closeAccepted =>
        exact (dropConn_slot s mb.fd closeAccepted).2 other apart

private theorem dropConn_worker {fd : Int} {owner : Nat} (used : (s.epi.fds fd).type ≠ .unused)
    (owned : (s.epi.fds fd).bcElem = some owner) (closeAccepted : Bool) :
    (s.dropConn fd closeAccepted).worker = Function.update s.worker owner
      ((s.worker owner).pushRecvq ⟨(s.epi.fds fd).id, fd, .closeBlock, [], s.gen fd⟩
        closeAccepted) := by
  unfold State.dropConn State.pushBlock
  rw [if_neg used]
  simp only [owned]
  rfl

private theorem applyBlock_workers {owner other : Nat}
    (used : (s.epi.fds mb.fd).type ≠ .unused) (owned : (s.epi.fds mb.fd).bcElem = some owner)
    (apart : other ≠ owner) (outcome : SendOutcome) :
    (s.applyBlock mb outcome).worker other = s.worker other := by
  unfold State.applyBlock
  split
  · rfl
  · cases outcome with
    | sent cb now => rfl
    | failed closeAccepted =>
        simp only [dropConn_worker used owned]
        exact Function.update_of_ne apart ..

private theorem applyBlock_appliedTo {worker : Nat} {rest : List Block} (inv : Inv s)
    (front : (s.worker worker).sendq = mb :: rest) (passes : s.Passes mb)
    (owned : (s.epi.fds mb.fd).bcElem = some worker) (outcome : SendOutcome) :
    AppliedTo s (step s (.output worker outcome)) worker mb rest outcome := by
  have used : (s.epi.fds mb.fd).type ≠ .unused := by
    intro free
    exact passes.2 (.inl (by simp [free]))
  have after := inv.step (.output worker outcome)
  have acts : step s (.output worker outcome) =
      (s.setWorker worker { s.worker worker with sendq := rest }).applyBlock mb outcome :=
    (State.handleSendQueue_front front outcome).trans (if_pos passes)
  generalize step s (.output worker outcome) = s' at after acts ⊢
  subst acts
  refine ⟨applyBlock_gen outcome, fun other apart => applyBlock_other apart outcome,
    ?_, ?_, ?_, ?_, ?_⟩
  · intro other apart
    rw [after.tidy.closing, inv.tidy.closing, applyBlock_other apart]
    rfl
  · intro other apart
    have same := applyBlock_workers (s := s.setWorker worker { s.worker worker with sendq := rest })
      used owned apart outcome
    exact same.trans (State.setWorker_other s _ apart)
  · intro fin
    have closed := @Epi.addToCloseQueue_same s.epi mb.fd
    rw [after.tidy.closing]
    unfold State.applyBlock
    rw [if_pos fin]
    have needClose := congrArg FdInfo.needClose closed
    have type := congrArg FdInfo.type closed
    exact ⟨needClose, type, State.setWorker_same ..⟩
  · rintro data cb now rfl
    unfold State.applyBlock
    rw [if_neg data]
    simp only [State.modify]
    exact ⟨Epi.modify_same _, State.setWorker_same ..⟩
  · rintro data closeAccepted rfl
    unfold State.applyBlock
    rw [if_neg data]
    refine ⟨(dropConn_slot _ mb.fd closeAccepted).1, ?_⟩
    have pushed := dropConn_worker (s := s.setWorker worker { s.worker worker with sendq := rest })
      used owned closeAccepted
    rw [pushed, Function.update_self, State.setWorker_same]
    rfl

end Applying

/-- Over any run of any number of workers, with pushes refused anywhere: a block at
the front of a send queue took its descriptor and identifier from an OPEN_BLOCK of
that worker; if `schedule_output` acts on it fewer than 2^32 - 1 registrations after
that of its connection, then on this very connection, which the worker serves, and on
nothing else; and if the connection is gone the block is popped without any other
effect, also when its descriptor is in use again. -/
theorem answers_reach_their_client (actions : List Action) (worker : Nat) (mb : Block)
    (rest : List Block) (front : ((run step init actions).worker worker).sendq = mb :: rest)
    (near : (run step init actions).regs - mb.origin < 4294967295) :
    let s := run step init actions
    Answers (s.worker worker).log mb ∧
      (s.Passes mb → s.gen mb.fd = mb.origin ∧ (s.epi.fds mb.fd).bcElem = some worker ∧
        ∀ outcome, AppliedTo s (step s (.output worker outcome)) worker mb rest outcome) ∧
      ∀ outcome, (s.epi.fds mb.fd).type ≠ .remote ∨ s.gen mb.fd ≠ mb.origin →
        step s (.output worker outcome) =
          s.setWorker worker { s.worker worker with sendq := rest } := by
  intro s
  have historic : Historic s := historic_run actions
  have front : (s.worker worker).sendq = mb :: rest := front
  have member : mb ∈ (s.worker worker).sendq := front ▸ List.mem_cons_self
  have known := (historic.inv.workers worker).sendq mb member
  have reached : s.Passes mb → s.gen mb.fd = mb.origin :=
    fun passes => historic.inv.passes_origin known passes near
  refine ⟨(historic.recorded worker).sendq mb member, fun passes => ?_, ?_⟩
  · have owned := known.owner (reached passes)
    exact ⟨reached passes, owned, applyBlock_appliedTo historic.inv front passes owned⟩
  · intro outcome gone
    have blocked : ¬ s.Passes mb := by
      intro passes
      rcases gone with type | other
      · exact passes.2 (.inl type)
      · exact other (reached passes)
    exact (State.handleSendQueue_front front outcome).trans (if_neg blocked)

def answered : List Action :=
  [.register 3 .listen (some 0), .accept 3 5 (80, 16777343) 7 true, .recv 0 true,
    .send 0 5 [1, 2] true]

theorem answers_reach_their_client_once :
    let s := run step init answered
    let mb : Block := ⟨2, 5, .dataBlock, [1, 2], 2⟩
    s.Passes mb ∧ s.gen 5 = 2 ∧
      AppliedTo s (step s (.output 0 (.sent .zero 8))) 0 mb [] (.sent .zero 8) := by
  intro s mb
  have passes : s.Passes mb := by decide +kernel
  have reaches := (answers_reach_their_client answered 0 mb [] (by decide +kernel)
    (by decide +kernel)).2.1 passes
  exact ⟨passes, reaches.1, reaches.2.2 (.sent .zero 8)⟩

end MpNet.Session
