import MpNet.Process.ChildPids

/-!
# What is left in `child_pids`

An entry that is not 0 names a worker that has not been reaped, as long as every worker
is found when it is reaped.
-/

set_option autoImplicit false

namespace MpNet.Process

open Library

/-- The worker that is reaped has its pid stored, in the range of the search. -/
def Action.IsFound (bindNum : Nat) (s : State) : Action → Prop
  | .waitpid pid => (∀ fork ∈ s.forked, fork.2 ≠ pid) ∧
      ∀ i < bindNum, s.childPids i = pid → i < searched
  | _ => True

instance (bindNum : Nat) (s : State) : (action : Action) → Decidable (action.IsFound bindNum s)
  | .waitpid _ => inferInstanceAs (Decidable (_ ∧ _))
  | .fork .. | .atomicSet | .exit _ | .sigchld | .handled => .isTrue trivial

/-- The pids that are stored, or about to be, belong to different known children. -/
structure Sound (bindNum : Nat) (s : State) : Prop where
  named : ∀ pid, s.children.Known pid → pid ≠ 0
  stored : ∀ i, s.childPids i ≠ 0 → i < bindNum ∧ s.children.Known (s.childPids i)
  unique : ∀ i j, s.childPids i ≠ 0 → s.childPids i = s.childPids j → i = j
  forked : ∀ i pid, s.forked = some (i, pid) →
    i < bindNum ∧ pid ≠ 0 ∧ s.children.Known pid ∧ ∀ j, s.childPids j ≠ pid

theorem sound_init (bindNum : Nat) : Sound bindNum init := by
  constructor <;> simp [init, Children.none, Children.Known]

variable {bindNum : Nat} {s : State}

private theorem clearPid_eq {childPids : Nat → Nat} {pid : Nat} (some_pid : pid ≠ 0)
    (unique : ∀ i j, childPids i ≠ 0 → childPids i = childPids j → i = j)
    (inRange : ∀ i, childPids i = pid → i < searched) (i : Nat) :
    clearPid childPids pid i = if childPids i = pid then 0 else childPids i := by
  unfold clearPid
  cases found : (List.range searched).find? fun i => childPids i = pid with
  | none =>
      have absent : childPids i ≠ pid := by
        intro same
        have missed := List.find?_eq_none.mp found i (List.mem_range.mpr (inRange i same))
        simp [same] at missed
      rw [if_neg absent]
  | some first =>
      have holds : childPids first = pid := by simpa using List.find?_some found
      by_cases here : i = first
      · subst here
        simp [holds]
      · have apart : childPids i ≠ pid := by
          intro same
          exact here (unique i first (same ▸ some_pid) (same.trans holds.symm))
        simp [here, apart]

namespace Sound

theorem fork (sound : Sound bindNum s) {i pid : Nat} (below : i < bindNum) (positive : 0 < pid)
    (fresh : ¬ s.children.Known pid) :
    Sound bindNum { s with forked := some (i, pid), children := s.children.fork pid } where
  named := by
    intro other known
    rcases Children.known_fork.mp known with rfl | known
    · exact Nat.ne_of_gt positive
    · exact sound.named other known
  stored := fun j some_pid =>
    ⟨(sound.stored j some_pid).1, Children.known_fork.mpr (.inr (sound.stored j some_pid).2)⟩
  unique := sound.unique
  forked := by
    intro i' pid' same
    cases same
    refine ⟨below, Nat.ne_of_gt positive, Children.known_fork.mpr (.inl rfl), fun j same => ?_⟩
    have some_pid : s.childPids j ≠ 0 := same ▸ Nat.ne_of_gt positive
    exact fresh (same ▸ (sound.stored j some_pid).2)

theorem atomicSet (sound : Sound bindNum s) {i pid : Nat} (forked : s.forked = some (i, pid)) :
    Sound bindNum { s with childPids := Function.update s.childPids i pid, forked := none } := by
  obtain ⟨below, some_pid, known, unstored⟩ := sound.forked i pid forked
  constructor
  · exact sound.named
  · intro j
    by_cases here : j = i
    · subst here
      simpa using fun _ => ⟨below, known⟩
    · simpa [here] using sound.stored j
  · intro j k
    by_cases first : j = i
    · by_cases second : k = i
      · exact fun _ _ => first.trans second.symm
      · subst first
        simpa [second] using fun _ same => absurd same.symm (unstored k)
    · by_cases second : k = i
      · subst second
        simpa [first] using fun _ same => absurd same (unstored j)
      · simpa [first, second] using sound.unique j k
  · simp

theorem exit (sound : Sound bindNum s) {pid : Nat} (running : pid ∈ s.children.running) :
    Sound bindNum { s with children := s.children.exit pid } where
  named := fun other known => sound.named other ((Children.known_exit running).mp known)
  stored := fun i some_pid =>
    ⟨(sound.stored i some_pid).1, (Children.known_exit running).mpr (sound.stored i some_pid).2⟩
  unique := sound.unique
  forked := by
    intro i pid' forked
    obtain ⟨below, some_pid, known, unstored⟩ := sound.forked i pid' forked
    exact ⟨below, some_pid, (Children.known_exit running).mpr known, unstored⟩

theorem waitpid (sound : Sound bindNum s) {pid : Nat} (zombie : pid ∈ s.children.zombies)
    (found : (Action.waitpid pid).IsFound bindNum s) :
    Sound bindNum
      { s with childPids := clearPid s.childPids pid, children := s.children.reap pid } := by
  have some_pid : pid ≠ 0 := sound.named pid (.inr zombie)
  have inRange : ∀ i, s.childPids i = pid → i < searched := fun i same =>
    found.2 i (sound.stored i (same ▸ some_pid)).1 same
  have clears := clearPid_eq some_pid sound.unique inRange
  constructor
  · exact fun other known => sound.named other known.of_reap
  · intro i
    simp only [clears i]
    split
    · exact fun empty => absurd rfl empty
    · rename_i apart
      exact fun some_pid =>
        ⟨(sound.stored i some_pid).1, (sound.stored i some_pid).2.reap apart⟩
  · intro i j
    simp only [clears i, clears j]
    split
    · exact fun empty => absurd rfl empty
    · split
      · exact fun some_pid same => absurd same some_pid
      · exact sound.unique i j
  · intro i pid' forked
    obtain ⟨below, some_pid, known, unstored⟩ := sound.forked i pid' forked
    have apart : pid' ≠ pid := found.1 (i, pid') forked
    refine ⟨below, some_pid, known.reap apart, fun j same => ?_⟩
    simp only [clears j] at same
    split at same
    · exact some_pid same.symm
    · exact unstored j same

theorem step (sound : Sound bindNum s) (action : Action) (found : action.IsFound bindNum s) :
    Sound bindNum (step bindNum s action) := by
  cases action with
  | fork i pid =>
      simp only [Process.step]
      split
      · rename_i possible
        exact sound.fork possible.2.2.1 possible.2.2.2.1 possible.2.2.2.2
      · exact sound
  | atomicSet =>
      simp only [Process.step]
      split
      · exact sound.atomicSet ‹_›
      · exact sound
  | exit pid =>
      simp only [Process.step]
      split
      · exact sound.exit ‹_›
      · exact sound
  | sigchld => exact ⟨sound.named, sound.stored, sound.unique, sound.forked⟩
  | waitpid pid =>
      simp only [Process.step]
      split
      · rename_i possible
        exact sound.waitpid possible.2 found
      · exact sound
  | handled =>
      simp only [Process.step]
      split
      · exact ⟨sound.named, sound.stored, sound.unique, sound.forked⟩
      · exact sound

end Sound

/-- In every run whose workers are all found when they are reaped, no entry is left when
all of them are reaped, and the wait loop of `killall_children` ends. -/
theorem killall_children_ends (bindNum : Nat) (actions : List Action)
    (found : Along (step bindNum) (fun s action => action.IsFound bindNum s) init actions) :
    let s := run (step bindNum) init actions
    s.AllReaped → (∀ i < bindNum, s.childPids i = 0) ∧ killallWaits bindNum s = false := by
  intro s reaped
  have sound : Sound bindNum s :=
    run_preserves_along (Sound bindNum) (fun _ action found sound => sound.step action found)
      (sound_init bindNum) found
  have empty : ∀ i < bindNum, s.childPids i = 0 := by
    intro i _
    by_contra some_pid
    have known := (sound.stored i some_pid).2
    simp [Children.Known, reaped.1, reaped.2.1] at known
  exact ⟨empty, by simpa [killallWaits] using empty⟩

def start (i pid : Nat) : List Action := [.fork i pid, .atomicSet]

theorem killall_children_ends_two :
    let s := run (step 2) init (start 0 11 ++ start 1 12 ++
      [.exit 12, .sigchld, .waitpid 12, .handled] ++ start 1 13 ++
      [.exit 11, .exit 13, .sigchld, .waitpid 13, .waitpid 11, .handled])
    (∀ i < 2, s.childPids i = 0) ∧ killallWaits 2 s = false :=
  killall_children_ends 2 _ (by decide) (by decide)

/-- The third worker is outside the range of the search. -/
theorem killall_children_waits_for_third :
    let s := run (step 3) init (start 0 11 ++ start 1 12 ++ start 2 13 ++
      [.exit 11, .exit 12, .exit 13, .sigchld, .waitpid 11, .waitpid 12, .waitpid 13, .handled])
    s.AllReaped ∧ s.childPids 2 = 13 ∧ killallWaits 3 s = true := by
  decide

-- A worker that is reaped before its pid is stored.
example :
    let s := run (step 1) init [.fork 0 11, .exit 11, .sigchld, .waitpid 11, .handled, .atomicSet]
    s.AllReaped ∧ s.childPids 0 = 11 := by
  decide

end MpNet.Process
