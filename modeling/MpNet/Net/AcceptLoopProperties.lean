import MpNet.Net.AcceptLoop
import MpNet.Net.UnreadInputProperties

/-!
# How the loop over `accept` leaves the etin queue

The loop adds connections and changes the place of its listening socket only when it
stops, by the `errno` it stops on.
-/

set_option autoImplicit false

namespace MpNet.Net.EdgeTriggered

open Library

variable {World : Type*} {pageSize : Nat} {s : State} {fd : Int}

theorem acceptLoop_acceptAll {results : List AcceptResult} {after : State}
    {last : AcceptResult} (stops : s.acceptLoop fd results = some (after, last)) :
    ∃ accepted error, after = s.acceptAll fd error accepted := by
  induction size : results.length using Nat.strongRecOn generalizing results s with
  | ind length ih =>
      subst size
      unfold State.acceptLoop at stops
      split at stops
      · cases stops
      · rename_i conn _ rest accepts
        split at stops
        · rename_i free
          split at stops
          · rename_i positive
            obtain ⟨accepted, error, same⟩ := ih _ (safeTcpAccept_shorter accepts) stops rfl
            refine ⟨conn :: accepted, error, ?_⟩
            rw [State.acceptAll, if_pos free, if_pos positive, same]
          · rename_i zero
            cases stops
            refine ⟨[conn], .other, ?_⟩
            rw [State.acceptAll, if_pos free, if_neg zero]
        · cases stops
      · rename_i errno _ _ _
        cases stops
        exact ⟨[], errorOf errno, rfl⟩

/-- What a result of `accept` with which the loop stops does to the queue: it is `EAGAIN`,
or it queues the socket or leaves it there. -/
def AcceptResult.Handled (s : State) (fd : Int) : AcceptResult → Prop
  | .error errno =>
      match errorOf errno with
      | .again => True
      | .tooMany => fd ∈ s.epi.etinHead ∨ (s.epi.fds fd).needClose = false
      | .other => fd ∈ s.epi.etinHead
  | .newfd _ (some errno) =>
      match errorOf errno with
      | .again => False
      | .tooMany => fd ∈ s.epi.etinHead ∨ (s.epi.fds fd).needClose = false
      | .other => fd ∈ s.epi.etinHead
  -- descriptor 0
  | .newfd _ none => fd ∈ s.epi.etinHead

/-- The backlog is empty and the listening socket out of the queue, or it is in the queue. -/
structure LeavesNone (fd : Int) (after : State) (last : AcceptResult) : Prop where
  reached : last.Empty ∨ fd ∈ after.epi.etinHead
  cleared : last.Empty → fd ∉ after.epi.etinHead

def Follows (last : AcceptResult) : Accepted ⊕ Errno → Prop
  | .inl conn => last = .newfd conn none
  | .inr errno => last = .error errno ∨ ∃ conn, last = .newfd conn (some errno)

private theorem safeTcpAccept_last {results rest : List AcceptResult} {accepted : Accepted ⊕ Errno}
    {last : AcceptResult} (accepts : safeTcpAccept results = some (accepted, last, rest)) :
    Follows last accepted := by
  induction results with
  | nil => cases accepts
  | cons result later ih =>
      unfold safeTcpAccept at accepts
      split at accepts
      · cases ‹_›
      · rename_i same
        cases same
        exact ih accepts
      · cases accepts
        exact .inl rfl
      · cases accepts
        rfl
      · cases accepts
        exact .inr ⟨_, rfl⟩

/-- The loop stops where the queue and the flags of the listening socket are as before. -/
theorem acceptLoop_stops {before : State} (positive : 0 < pageSize)
    (opened : Opened pageSize fd before s) (needClose : (s.epi.fds fd).needClose =
      (before.epi.fds fd).needClose) {results : List AcceptResult} {after : State}
    {last : AcceptResult} (stops : s.acceptLoop fd results = some (after, last)) :
    ∃ mid, Opened pageSize fd before mid ∧
      (mid.epi.fds fd).needClose = (before.epi.fds fd).needClose ∧
      ((∃ conn, last = .newfd conn none ∧ after = mid) ∨
        ∃ errno, (last = .error errno ∨ ∃ conn, last = .newfd conn (some errno)) ∧
          after = mid.acceptError fd (errorOf errno)) := by
  induction size : results.length using Nat.strongRecOn generalizing results s with
  | ind length ih =>
      subst size
      unfold State.acceptLoop at stops
      split at stops
      · cases stops
      · rename_i conn _ rest accepts
        split at stops
        · rename_i free
          have apart : fd ≠ conn.newfd := by
            rintro rfl
            have listens := opened.listens
            rw [free.1] at listens
            cases listens
          have touches := (doOpenConn_slot fd opened.sound.linked free positive).1
          have flags : ((s.doOpenConn fd conn).epi.fds fd).needClose =
              (before.epi.fds fd).needClose := by rw [touches.others fd apart, needClose]
          split at stops
          · exact ih _ (safeTcpAccept_shorter accepts) (opened.doOpenConn positive free) flags
              stops rfl
          · cases stops
            exact ⟨_, opened.doOpenConn positive free, flags,
              .inl ⟨conn, safeTcpAccept_last accepts, rfl⟩⟩
        · cases stops
      · rename_i errno _ _ accepts
        cases stops
        exact ⟨s, opened, needClose, .inr ⟨errno, safeTcpAccept_last accepts, rfl⟩⟩

private theorem empty_error_iff (errno : Errno) :
    (AcceptResult.error errno).Empty ↔ errorOf errno = .again := by
  cases errno <;> simp [AcceptResult.Empty, errorOf]

private theorem acceptError_mem (linked : s.epi.Linked) (fd : Int) (error : EventLoop.AcceptError) :
    fd ∈ (s.acceptError fd error).epi.etinHead ↔
      match error with
      | .again => False
      | .tooMany => fd ∈ s.epi.etinHead ∨ (s.epi.fds fd).needClose = false
      | .other => fd ∈ s.epi.etinHead := by
  cases error with
  | again => simp [State.acceptError, Epi.delFromEtinQueue_etinHead linked]
  | tooMany => simp [State.acceptError, Epi.addToEtinQueue_etinHead linked]
  | other => rfl

private theorem leavesNone_iff (positive : 0 < pageSize) (sound : Sound pageSize s)
    (listens : (s.epi.fds fd).type = .listen) {results : List AcceptResult} {after : State}
    {last : AcceptResult} (stops : s.acceptLoop fd results = some (after, last)) :
    LeavesNone fd after last ↔ last.Handled s fd := by
  have opened : Opened pageSize fd s s := ⟨sound, rfl, listens, fun _ => Iff.rfl, id⟩
  obtain ⟨mid, opened, flags, ends⟩ := acceptLoop_stops positive opened rfl stops
  have head := opened.head fd
  rcases ends with ⟨conn, rfl, rfl⟩ | ⟨errno, reported, rfl⟩
  · constructor
    · rintro ⟨reached, _⟩
      exact head.mp (reached.resolve_left id)
    · exact fun queued => ⟨.inr (head.mpr queued), fun empty => absurd empty id⟩
  have member := acceptError_mem opened.sound.linked fd (errorOf errno)
  rw [flags, head] at member
  rcases reported with rfl | ⟨conn, rfl⟩
  · have empty := empty_error_iff errno
    unfold AcceptResult.Handled
    simp only
    cases error : errorOf errno with
    | again =>
        rw [error] at member empty
        exact iff_of_true ⟨.inl (empty.mpr rfl), fun _ => member.mp⟩ trivial
    | tooMany | other =>
        rw [error] at member empty
        have full : ¬ (AcceptResult.error errno).Empty := by simp [empty]
        refine Iff.trans ?_ member
        exact ⟨fun leaves => leaves.reached.resolve_left full,
          fun queued => ⟨.inr queued, fun empty => absurd empty full⟩⟩
  · refine Iff.trans ?_ (member.trans ?_)
    · exact ⟨fun leaves => leaves.reached.resolve_left id,
        fun queued => ⟨.inr queued, fun empty => absurd empty id⟩⟩
    · unfold AcceptResult.Handled
      simp only

private theorem reached_sound (positive : 0 < pageSize) (actions : List (Action World))
    (live : (run (step pageSize) init actions).phase ≠ .exited) :
    Sound pageSize (run (step pageSize) init actions) := by
  refine run_preserves (fun s : State => s.phase ≠ .exited → Sound pageSize s) ?_
    (fun _ => sound_init pageSize) actions live
  intro s action sound live
  have before : s.phase ≠ .exited := fun exited => live (step_exited action exited)
  exact (sound before).step positive action live

/-- In every state that the parent can reach with a listening socket to read, and for all
results of `accept`: when the loop over `do_open_conn` stops, it leaves the backlog empty
or the socket in the etin queue if and only if the result on which it stops is one that
the code handles, or the socket was in the queue before. -/
theorem accept_loop_leaves_none_iff (pageSize : Nat) (positive : 0 < pageSize)
    (actions : List (Action World)) (fd : Int) (results : List AcceptResult) :
    let s := run (step pageSize) init actions
    s.current = some fd → (s.epi.fds fd).type = .listen →
      ∀ after last, s.acceptLoop fd results = some (after, last) →
        (LeavesNone fd after last ↔ last.Handled s fd) := by
  intro s current listens after last stops
  have live : s.phase ≠ .exited := by
    intro exited
    simp [State.current, exited] at current
  exact leavesNone_iff positive (reached_sound positive actions live) listens stops

def reportListener : List (Action Unit) :=
  [.register 3 .listen 0, .advance, .advance, .epollWait [3], .advance]

/-- A connection, and then no descriptor for the next one. -/
theorem accept_loop_leaves_none_iff_no_descriptor :
    let s := run (step 4) init reportListener
    ∃ after last,
      s.acceptLoop 3 [.error .eintr, .newfd ⟨5, (80, 1), 0, true, [], false⟩ none,
          .error .emfile] = some (after, last) ∧
        (LeavesNone 3 after last ↔ last.Handled s 3) := by
  intro s
  obtain ⟨⟨after, last⟩, stops⟩ := Option.isSome_iff_exists.mp
    (show (s.acceptLoop 3 [.error .eintr, .newfd ⟨5, (80, 1), 0, true, [], false⟩ none,
      .error .emfile]).isSome by decide +kernel)
  exact ⟨after, last, stops, accept_loop_leaves_none_iff 4 (by decide) reportListener 3 _
    (by decide +kernel) (by decide +kernel) after last stops⟩

/-- The first connection was aborted: `accept` reports `ECONNABORTED`, which is 103. -/
theorem accept_loop_stops_on_aborted :
    let s := run (step 4) init reportListener
    s.current = some 3 ∧ (s.epi.fds 3).type = .listen ∧
      ∃ after last, s.acceptLoop 3 [.error (.other 103)] = some (after, last) ∧
        ¬ LeavesNone 3 after last := by
  intro s
  refine ⟨by decide +kernel, by decide +kernel, ?_⟩
  obtain ⟨⟨after, last⟩, stops⟩ := Option.isSome_iff_exists.mp
    (show (s.acceptLoop 3 [.error (.other 103)]).isSome by decide +kernel)
  have stranded : ∀ stopped ∈ s.acceptLoop 3 [.error (.other 103)],
      ¬ stopped.2.Empty ∧ 3 ∉ stopped.1.epi.etinHead := by decide +kernel
  refine ⟨after, last, stops, fun leaves => ?_⟩
  obtain ⟨full, unqueued⟩ := stranded _ stops
  exact unqueued (leaves.reached.resolve_left full)

end MpNet.Net.EdgeTriggered
