import MpNet.Net.QueueOperations
import MpNet.Net.QueuesProperties

/-!
# Flags and links agree along every sequence
-/

set_option autoImplicit false

namespace MpNet.Net.QueueOperations

open Library

variable {s : State}

/-- The operations on a queue are for registered descriptors. -/
theorem agrees_registered {queues : Queues} {fd : Int} (agrees : s.queues.Agrees)
    (changed : (s.queues.epi.fds fd).type ≠ .unused → queues.Agrees) :
    (if s.registered fd then { s with queues } else s).queues.Agrees := by
  split
  · rename_i used
    exact changed (by simpa [State.registered] using used)
  · exact agrees

private theorem agrees_step (s : State) (action : Action) (agrees : s.queues.Agrees) :
    (step s action).queues.Agrees := by
  cases action with
  | addToEtinQueue fd => exact agrees_registered agrees fun used => agrees.addToEtinQueue used
  | delFromEtinQueue fd => exact agrees_registered agrees fun _ => agrees.delFromEtinQueue fd
  | addToCloseQueue fd => exact agrees_registered agrees fun used => agrees.addToCloseQueue used
  | delFromCloseQueue fd => exact agrees_registered agrees fun _ => agrees.delFromCloseQueue fd
  | doDelConn fd isParent =>
      simp only [step, State.doDelConn]
      split
      · split
        · exact agrees
        · exact agrees.release
      · exact agrees
  | onFdClosed =>
      simp only [step, State.onFdClosed]
      split
      · exact agrees
      · exact agrees.release
  | doAddConn fd type peer bcElem =>
      simp only [step, State.doAddConn]
      split
      · exact agrees
      · rename_i unused
        exact agrees.doAddConn (by simpa [State.registered] using unused)

private theorem agrees_run (actions : List Action) : (run step init actions).queues.Agrees :=
  run_preserves (fun reached : State => reached.queues.Agrees) agrees_step Queues.agrees_init actions

/-! ## Order -/

/-- The members other than some descriptors are the same in the same order. -/
def Kept (involved before after : List Int) : Prop :=
  after.filter (· ∉ involved) = before.filter (· ∉ involved)

private theorem kept_filter {fd : Int} {before : List Int} :
    Kept [fd] before (before.filter (· ≠ fd)) := by
  simp only [Kept, List.filter_filter, List.mem_singleton]
  refine List.filter_congr fun other _ => ?_
  simp

private theorem kept_append {fd : Int} {before : List Int} : Kept [fd] before (before ++ [fd]) := by
  simp [Kept, List.filter_append]

private theorem kept_addToEtinQueue {e : Epi} {fd : Int} :
    Kept [fd] e.closeHead (e.addToEtinQueue fd).closeHead ∧
      Kept [fd] e.etinHead (e.addToEtinQueue fd).etinHead := by
  unfold Epi.addToEtinQueue
  split
  · exact ⟨rfl, kept_append⟩
  · exact ⟨rfl, rfl⟩

private theorem kept_delFromEtinQueue {e : Epi} {fd : Int} :
    Kept [fd] e.closeHead (e.delFromEtinQueue fd).closeHead ∧
      Kept [fd] e.etinHead (e.delFromEtinQueue fd).etinHead := by
  unfold Epi.delFromEtinQueue
  split
  · exact ⟨rfl, kept_filter⟩
  · exact ⟨rfl, rfl⟩

private theorem kept_delFromCloseQueue {e : Epi} {fd : Int} :
    Kept [fd] e.closeHead (e.delFromCloseQueue fd).closeHead ∧
      Kept [fd] e.etinHead (e.delFromCloseQueue fd).etinHead := by
  unfold Epi.delFromCloseQueue
  split
  · exact ⟨kept_filter, rfl⟩
  · exact ⟨rfl, rfl⟩

private theorem kept_addToCloseQueue {e : Epi} {fd : Int} :
    Kept [fd] e.closeHead (e.addToCloseQueue fd).closeHead ∧
      Kept [fd] e.etinHead (e.addToCloseQueue fd).etinHead := by
  have removed : Kept [fd] e.closeHead (e.delFromEtinQueue fd).closeHead ∧ _ :=
    kept_delFromEtinQueue
  unfold Epi.addToCloseQueue
  simp only
  split
  · exact ⟨kept_append.trans removed.1, removed.2⟩
  · exact removed

private theorem kept_release {e : Epi} {fd : Int} :
    Kept [fd] e.closeHead (e.release fd).closeHead ∧
      Kept [fd] e.etinHead (e.release fd).etinHead := by
  have removed : Kept [fd] e.closeHead (e.delFromEtinQueue fd).closeHead ∧ _ :=
    kept_delFromEtinQueue
  constructor
  · rw [Epi.release_closeHead_eq]
    exact kept_delFromCloseQueue.1.trans removed.1
  · rw [Epi.release_etinHead_eq]
    exact removed.2

private theorem kept_registered {queues : Queues} {e : Epi} {fd : Int} (changed : queues.epi = e)
    (kept : Kept [fd] s.queues.epi.closeHead e.closeHead ∧
      Kept [fd] s.queues.epi.etinHead e.etinHead) :
    Kept [fd] s.queues.epi.closeHead
        (if s.registered fd then { s with queues } else s).queues.epi.closeHead ∧
      Kept [fd] s.queues.epi.etinHead
        (if s.registered fd then { s with queues } else s).queues.epi.etinHead := by
  subst changed
  split
  · exact kept
  · exact ⟨rfl, rfl⟩

private theorem kept_step (s : State) (action : Action) :
    Kept (s.involved action) s.queues.epi.closeHead (step s action).queues.epi.closeHead ∧
      Kept (s.involved action) s.queues.epi.etinHead (step s action).queues.epi.etinHead := by
  cases action with
  | addToEtinQueue fd => exact kept_registered Queues.addToEtinQueue_epi kept_addToEtinQueue
  | delFromEtinQueue fd => exact kept_registered Queues.delFromEtinQueue_epi kept_delFromEtinQueue
  | addToCloseQueue fd => exact kept_registered Queues.addToCloseQueue_epi kept_addToCloseQueue
  | delFromCloseQueue fd =>
      exact kept_registered Queues.delFromCloseQueue_epi kept_delFromCloseQueue
  | doDelConn fd isParent =>
      simp only [step, State.doDelConn]
      split
      · split
        · exact ⟨rfl, rfl⟩
        · exact kept_release
      · exact ⟨rfl, rfl⟩
  | onFdClosed =>
      simp only [step, State.onFdClosed]
      split
      · exact ⟨rfl, rfl⟩
      · rename_i calls
        simp only [State.involved, calls]
        exact kept_release
  | doAddConn fd type peer bcElem =>
      simp only [step, State.doAddConn]
      split <;> exact ⟨rfl, rfl⟩

/-! ## The statement on the links -/

/-- The links of the two heads stand for sequences that the flags describe. -/
structure Linked (s : State) (closing etin : List Int) : Prop where
  closeHead : Holds s.queues.links .closeHead (closing.map .list)
  etinHead : Holds s.queues.links .etinHead (etin.map .list)
  needClose : ∀ fd, closing.count fd = if (s.queues.epi.fds fd).needClose then 1 else 0
  needPollin : ∀ fd, etin.count fd = if (s.queues.epi.fds fd).needPollin then 1 else 0
  apart : closing.Disjoint etin

private theorem count_eq {members : List Int} {fd : Int} {flag : Bool} (distinct : members.Nodup)
    (flagged : fd ∈ members ↔ flag = true) : members.count fd = if flag then 1 else 0 := by
  split
  · rename_i set
    exact List.count_eq_one_of_mem distinct (flagged.mpr set)
  · rename_i clear
    exact List.count_eq_zero_of_not_mem fun member => clear (flagged.mp member)

private theorem linked_of_agrees (agrees : s.queues.Agrees) :
    Linked s s.queues.epi.closeHead s.queues.epi.etinHead where
  closeHead := agrees.closing
  etinHead := agrees.etin
  needClose fd := count_eq
    (List.Nodup.of_map _ (List.nodup_cons.mp agrees.closing.distinct).2) (agrees.flagged.closing fd)
  needPollin fd := count_eq agrees.nodup (agrees.flagged.polling fd)
  apart := by
    intro fd closing polled
    have clear := agrees.flagged.apart fd ((agrees.flagged.closing fd).mp closing)
    rw [(agrees.flagged.polling fd).mp polled] at clear
    cases clear

private theorem wiped_apart (agrees : s.queues.Agrees) (action : Action) :
    (s.wiped action).Disjoint (s.queues.epi.closeHead ++ s.queues.epi.etinHead) := by
  intro fd wiped linked
  have queued : (s.queues.epi.fds fd).needClose = true ∨ (s.queues.epi.fds fd).needPollin = true :=
    (List.mem_append.mp linked).imp (agrees.flagged.closing fd).mp (agrees.flagged.polling fd).mp
  have used := agrees.flagged.used fd queued
  cases action with
  | doAddConn other type peer bcElem =>
      simp only [State.wiped] at wiped
      split at wiped
      · cases wiped
      · rename_i unused
        obtain rfl : fd = other := by simpa using wiped
        exact unused (by simpa [State.registered] using used)
  | _ => cases wiped

/-- After any sequence of operations the links agree with the flags, and one more operation
keeps the order of the other nodes and wipes no linked one. -/
theorem queues_agree (actions : List Action) (action : Action) :
    ∃ closing etin closing' etin',
      Linked (run step init actions) closing etin ∧
      Linked (step (run step init actions) action) closing' etin' ∧
      Kept ((run step init actions).involved action) closing closing' ∧
      Kept ((run step init actions).involved action) etin etin' ∧
      ((run step init actions).wiped action).Disjoint (closing ++ etin) := by
  have agrees := agrees_run actions
  have kept := kept_step (run step init actions) action
  exact ⟨_, _, _, _, linked_of_agrees agrees, linked_of_agrees (agrees_step _ action agrees),
    kept.1, kept.2, wiped_apart agrees action⟩

end MpNet.Net.QueueOperations
