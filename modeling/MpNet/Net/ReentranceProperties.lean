import MpNet.Net.FdTableProperties
import MpNet.Net.Reentrance

/-!
# What a callback may do to the connection being deleted

As long as the plugin leaves the connection alone, its descriptor stays open and its slot
registered, so that no new connection can get either.
-/

set_option autoImplicit false

namespace MpNet.Net.Reentrance

open Library

theorem release_count (e : Epi) (fd : Int) : (e.release fd).count = e.count - 1 := by
  unfold Epi.release Epi.delFromCloseQueue Epi.delFromEtinQueue
  simp only
  split
  · split <;> split <;> rfl
  · split <;> split <;> rfl

/-- A call of `do_del_conn(fd, 0)` closes the descriptor once, counts every connection that
it registers or removes, and spares all others. -/
structure DeletesOnce (e : Epi) (others : Int → Bool) (fd : Int) (callback : List Call) :
    Prop where
  closedOnce : ((State.start e others).doDelConn fd callback).closes.count fd = 1
  counted :
    let s := (State.start e others).doDelConn fd callback
    s.epi.count = e.count + s.added - s.removed
  /-- Also a connection that the plugin has registered. -/
  untouched :
    let returned := run State.call (.start e others) callback
    let s := (State.start e others).doDelConn fd callback
    ∀ other, other ≠ fd ∨ returned.fresh other = true →
      s.epi.fds other = returned.epi.fds other ∧ (s.Opened other ↔ returned.Opened other)

section Callback

variable {s : State} {fd : Int} {count : Int}

/-- The connection on `fd` is as it was when `do_del_conn` began. -/
structure Spared (fd : Int) (count : Int) (s : State) : Prop where
  registered : (s.epi.fds fd).type ≠ .unused
  notClosed : s.closes.count fd = 0
  old : s.fresh fd = false
  counted : s.epi.count = count + s.added - s.removed

private theorem tearDown_counted (used : (s.epi.fds fd).type ≠ .unused)
    (counted : s.epi.count = count + s.added - s.removed) :
    (s.tearDown fd).epi.count = count + (s.tearDown fd).added - (s.tearDown fd).removed := by
  simp only [State.tearDown, release_count, if_neg used]
  push_cast
  omega

theorem Spared.call (spared : Spared fd count s) {call : Call} (other : call ≠ .closeSvr fd) :
    Spared fd count (s.call call) := by
  cases call with
  | closeSvr svrfd =>
      have apart : fd ≠ svrfd := fun same => other (by rw [same])
      unfold State.call
      simp only
      split
      · exact spared
      · rename_i used
        refine ⟨?_, ?_, ?_, tearDown_counted used spared.counted⟩
        · simp only [State.tearDown, Epi.release_other apart]
          exact spared.registered
        · simp only [State.tearDown, List.count_append, spared.notClosed]
          simp [apart.symm]
        · simp [State.tearDown, apart, spared.old]
  | connectToSvr newfd peer =>
      unfold State.call
      simp only
      split
      · rename_i free
        have apart : fd ≠ newfd := by
          rintro rfl
          exact free.1 (.inr spared.registered)
        have counted := spared.counted
        refine ⟨?_, spared.notClosed, ?_, ?_⟩
        · simp only [Epi.doAddConn_other apart]
          exact spared.registered
        · simp [apart, spared.old]
        · simp only [Epi.doAddConn]
          push_cast
          omega
      · exact spared

private theorem run_spared (spared : Spared fd count s) {callback : List Call}
    (leaves : .closeSvr fd ∉ callback) : Spared fd count (run State.call s callback) := by
  have others : Along State.call (fun _ call => call ≠ .closeSvr fd) s callback :=
    along_of_forall s fun call member same => leaves (same ▸ member)
  exact run_preserves_along (Spared fd count) (fun _ _ other spared => spared.call other) spared
    others

private theorem call_closes (s : State) (call : Call) :
    s.closes.count fd ≤ (s.call call).closes.count fd := by
  cases call with
  | closeSvr svrfd =>
      simp only [State.call]
      split
      · exact le_rfl
      · simp [State.tearDown]
  | connectToSvr newfd peer =>
      simp only [State.call]
      split <;> exact le_rfl

/-- A plugin that closes the connection itself has called `close` on it. -/
theorem run_closes (spared : Spared fd count s) {callback : List Call}
    (closes : .closeSvr fd ∈ callback) : 0 < (run State.call s callback).closes.count fd := by
  induction callback generalizing s with
  | nil => cases closes
  | cons call rest ih =>
      by_cases here : call = .closeSvr fd
      · subst here
        have keeps : ∀ (s : State) call, 0 < s.closes.count fd →
            0 < (s.call call).closes.count fd :=
          fun s call closed => closed.trans_le (call_closes s call)
        refine run_preserves _ keeps ?_ rest
        simp [State.call, spared.registered, State.tearDown]
      · exact ih (spared.call here) ((List.mem_cons.mp closes).resolve_left (Ne.symm here))

end Callback

/-- For every table and every callback of calls of `close_svr` and `connect_to_svr`: the
deletion of a registered connection does what it should if and only if the callback does
not close that connection itself. -/
theorem do_del_conn_once_iff (e : Epi) (others : Int → Bool) (fd : Int)
    (registered : (e.fds fd).type ≠ .unused) (callback : List Call) :
    DeletesOnce e others fd callback ↔ .closeSvr fd ∉ callback := by
  have spared : Spared fd e.count (.start e others) :=
    ⟨registered, rfl, rfl, by simp [State.start]⟩
  have tears : (State.start e others).doDelConn fd callback =
      (run State.call (.start e others) callback).tearDown fd := if_neg registered
  constructor
  · rintro ⟨once, _, _⟩ closes
    have before := run_closes spared closes
    rw [tears] at once
    simp only [State.tearDown, List.count_append, List.count_singleton_self] at once
    omega
  · intro leaves
    have after := run_spared spared leaves
    refine ⟨?_, ?_, ?_⟩
    · rw [tears]
      simp [State.tearDown, after.notClosed]
    · rw [tears]
      exact tearDown_counted after.registered after.counted
    · intro returned s other spares
      have apart : other ≠ fd := by
        rcases spares with apart | fresh
        · exact apart
        · rintro rfl
          exact absurd fresh (by simp [returned, after.old])
      have same : s = returned.tearDown fd := tears
      rw [same]
      simp [State.tearDown, State.Opened, Epi.release_other apart, apart]

def twoConns : Epi := (netInit.doAddConn 5 .remote none none).doAddConn 6 .remote none none

/-- The plugin closes the other connection and reconnects on its descriptor. -/
theorem do_del_conn_once_iff_reconnected :
    DeletesOnce twoConns (fun _ => false) 5 [.closeSvr 6, .connectToSvr 6 (80, 1)] ↔
      Call.closeSvr 5 ∉ [.closeSvr 6, .connectToSvr 6 (80, 1)] :=
  do_del_conn_once_iff twoConns _ 5 (by decide) _

/-- The plugin closes the connection itself and connects again, on the same number: the
number is closed twice and the new connection torn down. -/
theorem do_del_conn_twice :
    let callback : List Call := [.closeSvr 5, .connectToSvr 5 (80, 1)]
    let returned := run State.call (.start twoConns fun _ => false) callback
    let s := (State.start twoConns fun _ => false).doDelConn 5 callback
    (returned.fresh 5 = true ∧ (returned.epi.fds 5).type = .remote ∧ s.closes = [5, 5] ∧
      (s.epi.fds 5).type = .unused) ∧ ¬ DeletesOnce twoConns (fun _ => false) 5 callback :=
  ⟨by decide, fun deletes => absurd deletes.closedOnce (by decide)⟩

end MpNet.Net.Reentrance
