import MpNet.Net.Sweeps
import MpNet.Net.TableOperationsProperties

/-!
# The sweeps remove exactly what they should
-/

set_option autoImplicit false

namespace MpNet.Net.TableOperations

variable {removes : FdInfo → Bool} {push : Int → Push} {s : State} {fd : Int}

/-- What `do_del_conn` leaves of a slot. -/
def released (slot : FdInfo) : FdInfo :=
  { slot with needPollin := false, needClose := false, cb := freeCb slot.cb, type := .unused }

/-- A table after the removal of some of its slots. -/
structure Removed (gone : Int → Prop) (s s' : State) : Prop where
  valid : s'.epi.Valid
  alive : s'.exited = false
  removed : ∀ fd, gone fd → s'.epi.fds fd = released (s.epi.fds fd)
  kept : ∀ fd, ¬ gone fd → s'.epi.fds fd = s.epi.fds fd

theorem Removed.congr {gone gone' : Int → Prop} {s' : State} (removed : Removed gone s s')
    (same : ∀ fd, gone' fd ↔ gone fd) : Removed gone' s s' where
  valid := removed.valid
  alive := removed.alive
  removed fd member := removed.removed fd ((same fd).mp member)
  kept fd outside := removed.kept fd fun member => outside ((same fd).mpr member)

private theorem removed_refl (valid : s.epi.Valid) (alive : s.exited = false) {gone : Int → Prop}
    (none : ∀ fd, ¬ gone fd) : Removed gone s s where
  valid := valid
  alive := alive
  removed fd member := absurd member (none fd)
  kept _ _ := rfl

private theorem sweepBody_removed (valid : s.epi.Valid) (alive : s.exited = false)
    (returns : ∀ fd, push fd ≠ .exited) (i : Nat) :
    Removed (fun fd => fd = i ∧ fd ∈ s.epi.used ∧ removes (s.epi.fds fd) = true) s
      (sweepBody removes push s i) := by
  unfold sweepBody State.doDelConn
  split
  · rename_i removes
    split
    · rename_i unused
      exact removed_refl valid alive fun fd gone => gone.2.1 (gone.1 ▸ unused)
    · rename_i used
      rw [if_neg fun exits => returns i exits.2]
      refine ⟨valid.release used, alive, ?_, ?_⟩
      · rintro fd ⟨rfl, _, _⟩
        exact Epi.release_same
      · intro fd stays
        refine Epi.release_other ?_
        rintro rfl
        exact stays ⟨rfl, used, removes⟩
  · rename_i stays
    exact removed_refl valid alive fun fd gone => stays (gone.1 ▸ gone.2.2)

private theorem sweep_removed (valid : s.epi.Valid) (alive : s.exited = false)
    (returns : ∀ fd, push fd ≠ .exited) (i : Nat) :
    Removed (fun fd => i ≤ fd ∧ fd ∈ s.epi.used ∧ removes (s.epi.fds fd) = true) s
      (sweep removes push s i) := by
  fun_induction sweep removes push s i with
  | case1 s i loops ih =>
      have round : Removed (fun fd => fd = i ∧ fd ∈ s.epi.used ∧ removes (s.epi.fds fd) = true) s
          (sweepBody removes push s i) := sweepBody_removed valid alive returns i
      have later := ih round.valid round.alive
      have others : ∀ fd : Int, fd ≠ i → (sweepBody removes push s i).epi.fds fd = s.epi.fds fd :=
        fun fd apart => round.kept fd fun gone => apart gone.1
      refine ⟨later.valid, later.alive, ?_, ?_⟩
      · rintro fd ⟨above, used, chosen⟩
        by_cases here : fd = i
        · rw [later.kept fd fun gone => by omega]
          exact round.removed fd ⟨here, used, chosen⟩
        · have same := others fd here
          rw [later.removed fd ⟨by omega, by rwa [Epi.mem_used, same], by rwa [same]⟩, same]
      · intro fd stays
        by_cases here : fd = i
        · rw [later.kept fd fun gone => by omega]
          exact round.kept fd fun gone => stays ⟨here.ge, gone.2⟩
        · have same := others fd here
          rw [later.kept fd, same]
          rintro ⟨above, used, chosen⟩
          rw [Epi.mem_used, same] at used
          exact stays ⟨by omega, used, same ▸ chosen⟩
  | case2 s i ends =>
      refine removed_refl valid alive fun fd gone => ends ⟨alive, ?_⟩
      exact gone.1.trans (valid.bounded fd gone.2.1).2

/-! ## The two loops -/

private theorem crashSweep_removed (valid : s.epi.Valid) (alive : s.exited = false)
    (returns : ∀ fd, push fd ≠ .exited) (bc : Nat) :
    Removed (fun fd => fd ∈ s.epi.used ∧ (s.epi.fds fd).bcElem = some bc ∧
      (s.epi.fds fd).type ≠ .listen) s (crashSweep bc push s) := by
  refine (sweep_removed valid alive returns 0).congr fun fd => ?_
  simp only [decide_eq_true_eq]
  exact ⟨fun gone => ⟨(valid.bounded fd gone.1).1, gone⟩, And.right⟩

private theorem idleSweep_removed (valid : s.epi.Valid) (alive : s.exited = false)
    (returns : ∀ fd, push fd ≠ .exited) (now socketTimeout : Int) :
    Removed (fun fd => socketTimeout ≠ 0 ∧ (s.epi.fds fd).type = .remote ∧
      now - (s.epi.fds fd).sk.lastTm.toNat ≥ socketTimeout) s
      (idleSweep now socketTimeout push s) := by
  unfold idleSweep
  split
  · rename_i some
    refine (sweep_removed valid alive returns 0).congr fun fd => ?_
    simp only [decide_eq_true_eq]
    constructor
    · rintro ⟨_, remote, idle⟩
      have used : fd ∈ s.epi.used := by simp [Epi.mem_used, remote]
      exact ⟨(valid.bounded fd used).1, used, remote, idle⟩
    · rintro ⟨_, _, remote, idle⟩
      exact ⟨some, remote, idle⟩
  · rename_i off
    exact removed_refl valid alive fun fd gone => off gone.1

theorem Removed.used_iff {gone : Int → Prop} {s' : State} (removed : Removed gone s s') (fd : Int) :
    fd ∈ s'.epi.used ↔ fd ∈ s.epi.used ∧ ¬ gone fd := by
  by_cases chosen : gone fd
  · simp [Epi.mem_used, removed.removed fd chosen, released, chosen]
  · simp [Epi.mem_used, removed.kept fd chosen, chosen]

structure SweepsExactly (s : State) (push : Int → Push) (bc : Nat) (now socketTimeout : Int) :
    Prop where
  /-- No slot but a listener belongs to the worker. -/
  crashed : ∀ fd ∈ (crashSweep bc push s).epi.used,
    ((crashSweep bc push s).epi.fds fd).bcElem = some bc →
      ((crashSweep bc push s).epi.fds fd).type = .listen
  /-- The listeners and the slots of other workers are as they were. -/
  spared : ∀ fd, (s.epi.fds fd).type = .listen ∨ (s.epi.fds fd).bcElem ≠ some bc →
    (crashSweep bc push s).epi.fds fd = s.epi.fds fd
  /-- The removed slots are the remote ones that were idle for long enough. -/
  idle : ∀ fd ∈ s.epi.used, fd ∉ (idleSweep now socketTimeout push s).epi.used ↔
    socketTimeout ≠ 0 ∧ (s.epi.fds fd).type = .remote ∧
      now - (s.epi.fds fd).sk.lastTm.toNat ≥ socketTimeout
  kept : ∀ fd ∈ (idleSweep now socketTimeout push s).epi.used,
    (idleSweep now socketTimeout push s).epi.fds fd = s.epi.fds fd

theorem sweeps_remove_exactly (valid : s.epi.Valid) (alive : s.exited = false)
    (returns : ∀ fd, push fd ≠ .exited) (bc : Nat) (now socketTimeout : Int) :
    SweepsExactly s push bc now socketTimeout := by
  have crashed := crashSweep_removed valid alive returns bc
  have idle := idleSweep_removed valid alive returns now socketTimeout
  constructor
  · intro fd member owned
    obtain ⟨used, stays⟩ := (crashed.used_iff fd).mp member
    rw [crashed.kept fd stays] at owned ⊢
    by_contra other
    exact stays ⟨used, owned, other⟩
  · intro fd spared
    refine crashed.kept fd ?_
    rintro ⟨_, owned, other⟩
    rcases spared with listens | foreign
    · exact other listens
    · exact foreign owned
  · intro fd member
    rw [idle.used_iff fd, not_and, not_not]
    exact ⟨fun gone => gone member, fun gone _ => gone⟩
  · intro fd member
    exact idle.kept fd ((idle.used_iff fd).mp member).2

/-- Two workers with a listener, a pipe and two connections, with holes between them. -/
def twoWorkers : State :=
  Library.run (step ⟨true, ⟨4096, 4096⟩, 0⟩) init
    ([.doAddConn 3 .listen none (some 0), .doAddConn 5 .pipe none (some 0),
      .doOpenConn 3 (.newfd 8 (80, 1) 60 .taken), .doAddConn 11 .remote none (some 1)] :
      List (Action Unit))

private theorem twoWorkers_valid : twoWorkers.epi.Valid :=
  (table_sound _ _).valid

theorem sweeps_twoWorkers : SweepsExactly twoWorkers (fun _ => .taken) 0 100 30 :=
  sweeps_remove_exactly twoWorkers_valid rfl (fun _ => by simp) 0 100 30

end MpNet.Net.TableOperations
