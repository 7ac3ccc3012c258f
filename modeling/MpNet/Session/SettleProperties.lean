import Mathlib.Algebra.BigOperators.Group.Finset.Basic
import MpNet.Net.QueuesProperties
import MpNet.Session.QuiescenceProperties

/-!
# The parent and its workers settle

When nothing comes from the network or the plugins, only blocks that are queued are popped and
connections that are to be closed are deleted. That ends after a number of steps that the
queues bound, in whatever order, and then sessions and connections agree.
-/

set_option autoImplicit false

namespace MpNet.Session

open Library Net Net.Epi

/-- A step that pops a block of one of the workers, or deletes a connection of the close queue;
no push is refused. -/
def Internal (workers : Finset Nat) (s : State) : Action → Prop
  | .recv worker finAccepted =>
      worker ∈ workers ∧ (s.worker worker).recvq ≠ [] ∧ finAccepted = true
  | .output worker outcome =>
      worker ∈ workers ∧ (s.worker worker).sendq ≠ [] ∧ Action.Accepted (.output worker outcome)
  | .closeQueue => s.epi.closeHead ≠ []
  | _ => False

/-- The steps that a block of `recvq` may cause: a rejected OPEN_BLOCK is answered by a
FIN_BLOCK, which puts its connection in the close queue. -/
def Block.work (mb : Block) : Nat := if mb.type = .openBlock then 3 else 1

def Worker.work (w : Worker) : Nat := (w.recvq.map Block.work).sum + 2 * w.sendq.length

def State.work (workers : Finset Nat) (s : State) : Nat :=
  (∑ worker ∈ workers, (s.worker worker).work) + s.epi.closeHead.length

variable {workers : Finset Nat} {s : State} {worker : Nat}

private theorem work_pos (mb : Block) : 0 < mb.work := by
  unfold Block.work
  split <;> decide

private theorem work_pop {w : Worker} {mb : Block} {rest : List Block}
    (first : w.recvq = mb :: rest) :
    w.work = mb.work + Worker.work { w with recvq := rest } := by
  simp only [Worker.work, first, List.map_cons, List.sum_cons]
  omega

/-- Every block that is popped leaves less to do. -/
theorem work_received {w : Worker} (waiting : w.recvq ≠ []) :
    (w.handleRecvQueue true).work < w.work := by
  have received := w.handleRecvQueue_received true
  generalize w.handleRecvQueue true = w' at received
  cases received with
  | idle empty => exact absurd empty waiting
  | ignored mb rest first | process mb rest _ first | opened mb rest first | closed mb rest first =>
      rw [work_pop first]
      exact Nat.lt_add_of_pos_left (work_pos mb)
  | rejected mb rest first type =>
      rw [work_pop first]
      simp [Worker.work, Worker.pushSendq, Block.work, type]
      omega

/-! ## The work of all workers -/

private theorem work_setWorker (member : worker ∈ workers) (w : Worker) :
    (s.setWorker worker w).work workers + (s.worker worker).work = s.work workers + w.work := by
  have others : ∑ other ∈ workers.erase worker, ((s.setWorker worker w).worker other).work =
      ∑ other ∈ workers.erase worker, (s.worker other).work :=
    Finset.sum_congr rfl fun other inside => by
      rw [State.setWorker_other s w (Finset.ne_of_mem_erase inside)]
  have before := Finset.add_sum_erase workers (fun other => (s.worker other).work) member
  have after := Finset.add_sum_erase workers
    (fun other => ((s.setWorker worker w).worker other).work) member
  simp only [State.setWorker_same, others] at before after
  have same : (s.setWorker worker w).epi = s.epi := rfl
  unfold State.work
  rw [← before, ← after, same]
  omega

private theorem work_setWorker_outside (outside : worker ∉ workers) (w : Worker) :
    (s.setWorker worker w).work workers = s.work workers := by
  have others : ∑ other ∈ workers, ((s.setWorker worker w).worker other).work =
      ∑ other ∈ workers, (s.worker other).work :=
    Finset.sum_congr rfl fun other inside => by
      rw [State.setWorker_other s w (ne_of_mem_of_not_mem inside outside)]
  unfold State.work
  rw [others]
  rfl

private theorem work_pushBlock (fd : Int) (data : List UInt8) (accepted : Bool) :
    (s.pushBlock fd .closeBlock data accepted).work workers ≤ s.work workers + 1 := by
  unfold State.pushBlock
  split
  · rename_i owner _
    by_cases member : owner ∈ workers
    · have changed := work_setWorker (s := s) member ((s.worker owner).pushRecvq
        ⟨(s.epi.fds fd).id, fd, .closeBlock, data, s.gen fd⟩ accepted)
      have pushed : ((s.worker owner).pushRecvq
          ⟨(s.epi.fds fd).id, fd, .closeBlock, data, s.gen fd⟩ accepted).work ≤
            (s.worker owner).work + 1 := by
        cases accepted
        · exact Nat.le_succ _
        · simp [Worker.work, Worker.pushRecvq, Block.work]
          omega
      omega
    · rw [work_setWorker_outside member]
      exact Nat.le_succ _
  · exact Nat.le_succ _

private theorem release_closeHead_length (e : Epi) (fd : Int) :
    (e.release fd).closeHead.length ≤ e.closeHead.length ∧
      ((e.fds fd).needClose = true → fd ∈ e.closeHead →
        (e.release fd).closeHead.length < e.closeHead.length) := by
  rw [release_closeHead_eq]
  unfold delFromCloseQueue
  simp only [delFromEtinQueue_same, delFromEtinQueue_closeHead]
  split
  · exact ⟨List.length_filter_le .., fun _ member =>
      List.length_filter_lt_length_iff_exists.mpr ⟨fd, member, by simp⟩⟩
  · rename_i free
    rw [delFromEtinQueue_closeHead]
    exact ⟨le_rfl, fun queued => absurd queued free⟩

private theorem addToCloseQueue_length (e : Epi) (fd : Int) :
    (e.addToCloseQueue fd).closeHead.length ≤ e.closeHead.length + 1 := by
  unfold addToCloseQueue
  simp only
  split
  · simp
  · rw [delFromEtinQueue_closeHead]
    exact Nat.le_succ _

private theorem work_dropConn (fd : Int) (accepted : Bool) :
    (s.dropConn fd accepted).work workers ≤ s.work workers + 1 := by
  unfold State.dropConn
  split
  · exact Nat.le_succ _
  · refine le_trans ?_ (work_pushBlock fd [] accepted)
    exact Nat.add_le_add_left (release_closeHead_length _ fd).1 _

private theorem work_applyBlock (mb : Block) (outcome : SendOutcome) :
    (s.applyBlock mb outcome).work workers ≤ s.work workers + 1 := by
  unfold State.applyBlock
  split
  · exact Nat.add_le_add_left (addToCloseQueue_length s.epi mb.fd) _
  · cases outcome with
    | sent cb now => exact Nat.le_succ _
    | failed accepted => exact work_dropConn mb.fd accepted

private theorem work_popSendq {mb : Block} {rest : List Block} (member : worker ∈ workers)
    (queue : (s.worker worker).sendq = mb :: rest) :
    (s.setWorker worker { s.worker worker with sendq := rest }).work workers + 2 =
      s.work workers := by
  have changed := work_setWorker (s := s) member { s.worker worker with sendq := rest }
  simp only [Worker.work, queue, List.length_cons] at changed ⊢
  omega

private theorem work_output (outcome : SendOutcome) (member : worker ∈ workers)
    (waiting : (s.worker worker).sendq ≠ []) :
    (s.handleSendQueue worker outcome).work workers < s.work workers := by
  cases queue : (s.worker worker).sendq with
  | nil => exact absurd queue waiting
  | cons mb rest =>
      have popped := work_popSendq member queue
      rw [State.handleSendQueue_front queue]
      simp only
      split
      · refine (work_applyBlock mb outcome).trans_lt ?_
        rw [← popped]
        exact Nat.lt_succ_self _
      · rw [← popped]
        exact Nat.lt_add_of_pos_right Nat.two_pos

/-- Every internal step leaves less to do. -/
theorem work_step (inv : Inv s) (action : Action) (internal : Internal workers s action) :
    (step s action).work workers < s.work workers := by
  cases action with
  | recv worker finAccepted =>
      obtain ⟨member, waiting, rfl⟩ := internal
      have changed := work_setWorker (s := s) member ((s.worker worker).handleRecvQueue true)
      have less := work_received waiting
      rw [step]
      omega
  | output worker outcome => exact work_output outcome internal.1 internal.2.1
  | closeQueue =>
      rw [step]
      cases queue : s.epi.closeHead with
      | nil => exact absurd queue internal
      | cons fd rest =>
          have member : fd ∈ s.epi.closeHead := queue ▸ List.mem_cons_self
          have shorter := (release_closeHead_length s.epi fd).2 ((inv.tidy.closing fd).mp member) member
          exact Nat.add_lt_add_left shorter _
  | _ => exact internal.elim

/-! ## Where the steps end -/

private theorem internal_accepted {action : Action} (internal : Internal workers s action) :
    action.Accepted := by
  cases action with
  | recv => exact internal.2.2
  | output => exact internal.2.2
  | closeQueue => trivial
  | _ => exact internal.elim

private theorem internal_regs {action : Action} (internal : Internal workers s action) :
    (step s action).regs = s.regs := by
  cases action with
  | recv => rfl
  | output worker outcome =>
      rw [step]
      unfold State.handleSendQueue
      split
      · rfl
      · simp only
        split
        · exact applyBlock_regs ..
        · rfl
  | closeQueue =>
      rw [step]
      split <;> rfl
  | _ => exact internal.elim

/-- From every state that is reached without a refused push, with fewer than 2^32 - 1
connections registered: in any order, at most `work` internal steps of any workers are
possible; some run of them goes on until none is; and at the end of every such run the
sessions of these workers are their connections. -/
theorem sessions_settle (actions : List Action) (accepted : ∀ action ∈ actions, action.Accepted)
    (few : (run step init actions).regs < 4294967295) (workers : Finset Nat) :
    let s := run step init actions
    (∀ later, Along step (Internal workers) s later → later.length ≤ s.work workers) ∧
      (∃ later, Along step (Internal workers) s later ∧
        ∀ action, ¬ Internal workers (run step s later) action) ∧
      ∀ later, Along step (Internal workers) s later →
        (∀ action, ¬ Internal workers (run step s later) action) →
        ∀ worker ∈ workers, SessionsAgree (run step s later) worker := by
  intro s
  have inv : Inv s := (historic_run actions).inv
  refine ⟨fun later along => ?_, ?_, fun later along ended worker member => ?_⟩
  · exact length_le_of_lowers (State.work workers) Inv (fun _ action _ inv => inv.step action)
      (fun _ action internal inv => work_step inv action internal) inv along
  · exact exists_run_to_end (State.work workers) Inv (fun _ action _ inv => inv.step action)
      (fun _ action internal inv => work_step inv action internal) inv
  · have regs : (run step s later).regs = s.regs :=
      run_preserves_along (fun t => t.regs = s.regs)
        (fun _ _ internal same => (internal_regs internal).trans same) rfl along
    have pushed : ∀ action ∈ later, action.Accepted :=
      forall_of_along (along_of_along (fun _ => True) (fun _ _ _ _ => trivial)
        (fun _ _ internal _ => internal_accepted internal) trivial along)
    have joined : run step s later = run step init (actions ++ later) := (run_append ..).symm
    obtain ⟨orderly, heard⟩ := heard_run (actions ++ later) (fun action inside =>
      (List.mem_append.mp inside).elim (accepted action) (pushed action))
      (by rw [← joined, regs]; exact few)
    rw [← joined] at orderly heard
    refine orderly.sessionsAgree heard ?_ ?_ ?_
    · by_contra waiting
      exact ended (.recv worker true) ⟨member, waiting, rfl⟩
    · by_contra waiting
      exact ended (.output worker (.failed true)) ⟨member, waiting, rfl⟩
    · by_contra waiting
      exact ended .closeQueue waiting

/-- A worker closes a session while a packet for it and the answer to another are queued. -/
def closedHalfway : List Action :=
  [.register 3 .listen (some 0), .accept 3 5 (80, 16777343) 7 true, .recv 0 true,
    .send 0 5 [1] true, .close 0 5 true, .packet 5 [2] true true]

theorem sessions_settle_once :
    ∃ later, later.length ≤ (run step init closedHalfway).work {0} ∧
      SessionsAgree (run step (run step init closedHalfway) later) 0 := by
  have accepted : ∀ action ∈ closedHalfway, action.Accepted := by
    simp [closedHalfway, Action.Accepted]
  obtain ⟨bound, ⟨later, along, ended⟩, agree⟩ :=
    sessions_settle closedHalfway accepted (by decide +kernel) {0}
  exact ⟨later, bound later along, agree later along ended 0 (Finset.mem_singleton_self 0)⟩

end MpNet.Session
