import MpNet.Process.PipeEnds

/-!
# How often a worker is started

A worker is started again only on a hang-up of its pipe, and an entry that is given up has no
pipe left that could hang up. So `restart_cnt`, a `uint8_t`, never wraps. Here a `fork` may
fail as well.
-/

set_option autoImplicit false

namespace MpNet.Process.PipeEnds

open Library Net

/-- `fork` fails, in `main` or in `restart_child_process`: the four ends stay open in the
parent, which registers none of them. -/
def State.forkFailed (s : State) (worker : Nat) : State :=
  { s with
    forking := none
    started := if worker = s.started then s.started + 1 else s.started }

inductive RestartAction where
  | plain (action : Action)
  | forkFails

def restartStep (bindNum : Nat) (s : State) : RestartAction → State
  | .plain action => step bindNum s action
  | .forkFails =>
      match s.forking with
      | some worker => s.forkFailed worker
      | none => s

/-! ## Deleting registrations -/

private theorem size_close (table : Descriptors Resource) (number : Nat) :
    (table.close number).size = table.size := List.length_set ..

private theorem size_closeAll (table : Descriptors Resource) (closings : List (Nat × Resource)) :
    (table.closeAll closings).1.size = table.size := by
  induction closings generalizing table with
  | nil => rfl
  | cons closing rest ih => exact (ih (table.close closing.1)).trans (size_close table closing.1)

private theorem size_allocate (table : Descriptors Resource) (resource : Resource) :
    table.size ≤ (table.allocate resource).size ∧
      table.lowest < (table.allocate resource).size := by
  unfold Descriptors.allocate
  split
  · rename_i inside
    simp only [Descriptors.size, List.length_set] at inside ⊢
    exact ⟨le_rfl, inside⟩
  · have top : table.lowest ≤ table.slots.length := List.findIdx_le_length
    simp only [Descriptors.size, List.length_append, List.length_singleton]
    omega

structure Fewer (s s' : State) : Prop where
  size : s'.parent.size = s.parent.size
  configs : s'.configs = s.configs
  started : s'.started = s.started
  forking : s'.forking = s.forking
  fds : ∀ fd slot, s'.fds fd = some slot → s.fds fd = some slot

section Deleting

variable {s s' s'' : State}

theorem Fewer.refl (s : State) : Fewer s s := ⟨rfl, rfl, rfl, rfl, fun _ _ used => used⟩

theorem Fewer.trans (first : Fewer s s') (second : Fewer s' s'') : Fewer s s'' where
  size := second.size.trans first.size
  configs := second.configs.trans first.configs
  started := second.started.trans first.started
  forking := second.forking.trans first.forking
  fds := fun fd slot used => first.fds fd slot (second.fds fd slot used)

private theorem fewer_closes (closings : List (Nat × Resource)) : Fewer s (s.closes closings) where
  size := size_closeAll s.parent closings
  configs := rfl
  started := rfl
  forking := rfl
  fds := fun _ _ used => used

private theorem fewer_doDelConn (fd : Nat) (meant : Resource) : Fewer s (s.doDelConn fd meant) := by
  unfold State.doDelConn
  cases used : s.fds fd with
  | none => exact .refl s
  | some slot =>
      refine ⟨size_closeAll s.parent [(fd, meant)], rfl, rfl, rfl, fun other slot' used' => ?_⟩
      by_cases here : other = fd
      · simp [here] at used'
      · simpa [here, State.closes] using used'

private theorem doDelConn_deletes (fd : Nat) (meant : Resource) :
    (s.doDelConn fd meant).fds fd = none := by
  unfold State.doDelConn
  cases used : s.fds fd with
  | none => exact used
  | some slot => simp

private theorem fewer_sweepOne (worker fd : Nat) : Fewer s (s.sweepOne worker fd) := by
  unfold State.sweepOne
  split
  · exact .refl s
  · split
    · exact fewer_doDelConn ..
    · exact .refl s

private theorem sweepOne_deletes (worker fd : Nat) {slot : Slot}
    (used : (s.sweepOne worker fd).fds fd = some slot) (pipe : slot.type = .pipe) :
    slot.bcElem ≠ worker := by
  unfold State.sweepOne at used
  split at used
  · rename_i unused
    rw [unused] at used
    cases used
  · rename_i held before
    split at used
    · rw [doDelConn_deletes] at used
      cases used
    · rename_i kept
      rw [before] at used
      cases used
      exact fun same => kept ⟨same, by simp [pipe]⟩

private theorem run_sweepOne (worker : Nat) (fds : List Nat) :
    Fewer s (run (State.sweepOne worker) s fds) ∧
      ∀ fd ∈ fds, ∀ slot, (run (State.sweepOne worker) s fds).fds fd = some slot →
        slot.type = .pipe → slot.bcElem ≠ worker := by
  induction fds generalizing s with
  | nil => exact ⟨.refl s, by simp⟩
  | cons first rest ih =>
      obtain ⟨fewer, deleted⟩ := ih (s := s.sweepOne worker first)
      refine ⟨(fewer_sweepOne worker first).trans fewer, fun fd member slot used pipe => ?_⟩
      rw [run_cons] at used
      rcases List.mem_cons.mp member with rfl | later
      · exact sweepOne_deletes worker fd (fewer.fds fd slot used) pipe
      · exact deleted fd later slot used pipe

end Deleting

/-! ## The counters -/

/-- An entry with a registered pipe, or about to fork, is not given up. -/
structure Counted (bindNum : Nat) (s : State) : Prop where
  inside : ∀ fd slot, s.fds fd = some slot → fd < s.parent.size
  piped : ∀ fd slot, s.fds fd = some slot → slot.type = .pipe →
    slot.bcElem < s.started ∧ (s.configs slot.bcElem).restartCnt ≤ 20
  forking : ∀ worker, s.forking = some worker → worker ≤ s.started ∧
    (s.configs worker).restartCnt ≤ 20 ∧ (s.configs worker).sendq.reader < s.parent.size
  starting : s.started < bindNum → ∀ worker, (s.configs worker).restartCnt = 0
  unmade : ∀ worker, s.started ≤ worker → s.forking ≠ some worker →
    (s.configs worker).incarnation = 0
  restarts : ∀ worker, (s.configs worker).restartCnt ≤ 21
  starts : ∀ worker, (s.configs worker).incarnation ≤ min (s.configs worker).restartCnt 20 + 1

namespace Counted

variable {bindNum : Nat} {s s' : State} {worker : Nat}

theorem init (bindNum : Nat) (parent : Descriptors Resource) : Counted bindNum (init parent) where
  inside := fun _ _ used => by cases used
  piped := fun _ _ used => by cases used
  forking := fun _ forking => by cases forking
  starting := fun _ _ => rfl
  unmade := fun _ _ _ => rfl
  restarts := fun _ => Nat.zero_le _
  starts := fun _ => Nat.zero_le _

theorem fewer (counted : Counted bindNum s) (fewer : Fewer s s') : Counted bindNum s' where
  inside := fun fd slot used => fewer.size ▸ counted.inside fd slot (fewer.fds fd slot used)
  piped := by
    rw [fewer.configs, fewer.started]
    exact fun fd slot used => counted.piped fd slot (fewer.fds fd slot used)
  forking := by
    rw [fewer.configs, fewer.started, fewer.forking, fewer.size]
    exact counted.forking
  starting := by
    rw [fewer.configs, fewer.started]
    exact counted.starting
  unmade := by
    rw [fewer.configs, fewer.started, fewer.forking]
    exact counted.unmade
  restarts := by
    rw [fewer.configs]
    exact counted.restarts
  starts := by
    rw [fewer.configs]
    exact counted.starts

theorem grow (counted : Counted bindNum s) {table : Descriptors Resource}
    (larger : s.parent.size ≤ table.size) : Counted bindNum { s with parent := table } :=
  { counted with
    inside := fun fd slot used => (counted.inside fd slot used).trans_le larger
    forking := fun worker forking => by
      obtain ⟨made, active, reader⟩ := counted.forking worker forking
      exact ⟨made, active, reader.trans_le larger⟩ }

theorem doAddConn (counted : Counted bindNum s) {fd : Nat} (slot : Slot) (inside : fd < s.parent.size)
    (piped : slot.type = .pipe → slot.bcElem < s.started ∧
      (s.configs slot.bcElem).restartCnt ≤ 20) : Counted bindNum (s.doAddConn fd slot) :=
  { counted with
    inside := by
      intro other slot' used
      by_cases here : other = fd
      · exact here ▸ inside
      · exact counted.inside other slot' (by simpa [State.doAddConn, here] using used)
    piped := by
      intro other slot' used
      by_cases here : other = fd
      · obtain rfl : slot = slot' := by simpa [State.doAddConn, here] using used
        exact piped
      · exact counted.piped other slot' (by simpa [State.doAddConn, here] using used) }

theorem openSocket (counted : Counted bindNum s) {type : FdType} (notPipe : type ≠ .pipe)
    (bcElem : Nat) : Counted bindNum (s.openSocket type bcElem) := by
  obtain ⟨larger, inside⟩ := size_allocate s.parent (.socket s.sockets)
  have grown := counted.grow larger
  have opened : Counted bindNum { s with
      parent := s.parent.allocate (.socket s.sockets), sockets := s.sockets + 1 } := { grown with }
  exact opened.doAddConn ⟨type, bcElem, .socket s.sockets⟩ inside
    fun pipe => absurd pipe notPipe

private theorem size_pipeCreate (parent : Descriptors Resource) (end_ : Side → Resource) :
    parent.size ≤ (State.pipeCreate parent end_).1.size ∧
      (State.pipeCreate parent end_).2.reader < (State.pipeCreate parent end_).1.size := by
  obtain ⟨first, reader⟩ := size_allocate parent (end_ .reader)
  obtain ⟨second, -⟩ := size_allocate (parent.allocate (end_ .reader)) (end_ .writer)
  exact ⟨first.trans second, reader.trans_le second⟩

theorem shmqCreate (counted : Counted bindNum s) (made : worker ≤ s.started)
    (active : (s.configs worker).restartCnt ≤ 20)
    (idle : s.forking = none) (few : (s.configs worker).incarnation ≤ (s.configs worker).restartCnt) :
    Counted bindNum (s.shmqCreate worker) := by
  obtain ⟨first, reader⟩ := size_pipeCreate s.parent
    (.pipe worker ((s.configs worker).incarnation + 1) .sendq)
  obtain ⟨second, -⟩ := size_pipeCreate (State.pipeCreate s.parent
    (.pipe worker ((s.configs worker).incarnation + 1) .sendq)).1
    (.pipe worker ((s.configs worker).incarnation + 1) .recvq)
  have restartCnt (other : Nat) :
      ((s.shmqCreate worker).configs other).restartCnt = (s.configs other).restartCnt := by
    by_cases here : other = worker
    · subst here
      simp [State.shmqCreate]
    · simp [State.shmqCreate, here]
  constructor
  · exact fun fd slot used => (counted.inside fd slot used).trans_le (first.trans second)
  · intro fd slot used pipe
    rw [restartCnt]
    exact counted.piped fd slot used pipe
  · intro other forking
    obtain rfl : worker = other := Option.some.inj forking
    rw [restartCnt]
    refine ⟨made, active, ?_⟩
    simp only [State.shmqCreate, Function.update_self]
    exact reader.trans_le second
  · intro more other
    rw [restartCnt]
    exact counted.starting more other
  · intro other later forking
    have apart : other ≠ worker := by
      rintro rfl
      exact forking rfl
    have unmade := counted.unmade other later (by simp [idle])
    simpa [State.shmqCreate, apart] using unmade
  · intro other
    rw [restartCnt]
    exact counted.restarts other
  · intro other
    rw [restartCnt]
    by_cases here : other = worker
    · subst here
      simp only [State.shmqCreate, Function.update_self]
      omega
    · have starts := counted.starts other
      simpa [State.shmqCreate, here] using starts

theorem forkFailed (counted : Counted bindNum s) (forking : s.forking = some worker) :
    Counted bindNum (s.forkFailed worker) := by
  obtain ⟨made, -⟩ := counted.forking worker forking
  have later : s.started ≤ (if worker = s.started then s.started + 1 else s.started) ∧
      worker < (if worker = s.started then s.started + 1 else s.started) := by
    split <;> omega
  exact { counted with
    piped := fun fd slot used pipe =>
      (counted.piped fd slot used pipe).imp_left fun below => below.trans_le later.1
    forking := fun _ forking => by cases forking
    starting := fun more => counted.starting (later.1.trans_lt more)
    unmade := fun other behind _ => by
      refine counted.unmade other (later.1.trans behind) ?_
      rw [forking]
      rintro same
      cases same
      exact (later.2.trans_le behind).false }

theorem fork (counted : Counted bindNum s) (forking : s.forking = some worker) (listening : Bool) :
    Counted bindNum (s.fork bindNum worker listening) := by
  obtain ⟨made, active, reader⟩ := counted.forking worker forking
  have forked := (counted.forkFailed forking).fewer (fewer_closes (s.closeShmqPipe worker false))
  have below : worker < (if worker = s.started then s.started + 1 else s.started) := by
    split <;> omega
  have inside : (s.configs worker).sendq.reader <
      (s.parent.closeAll (s.closeShmqPipe worker false)).1.size := by
    rw [size_closeAll]
    exact reader
  have added := forked.doAddConn ⟨.pipe, worker, (s.stored worker .sendq .reader).2⟩ inside
    fun _ => ⟨below, active⟩
  unfold State.fork
  simp only
  split
  · rename_i first
    simp only [State.forkFailed, if_pos first] at added
    split
    · refine Counted.openSocket ?_ (by simp) worker
      exact added.fewer ⟨rfl, rfl, rfl, rfl, fun _ _ used => used⟩
    · exact added.fewer ⟨rfl, rfl, rfl, rfl, fun _ _ used => used⟩
  · rename_i again
    simp only [State.forkFailed, if_neg again] at added
    exact added.fewer ⟨rfl, rfl, rfl, rfl, fun _ _ used => used⟩

end Counted

def State.countCrash (s : State) (worker : Nat) : State :=
  { s with
    configs := Function.update s.configs worker
      { s.configs worker with restartCnt := (s.configs worker).restartCnt + 1 } }

section Crashes

variable {bindNum : Nat} {s : State} {worker : Nat}

private theorem childCrashed_eq (s : State) (worker : Nat) :
    s.childCrashed worker =
      if ((s.sweep worker).configs worker).restartCnt < 20 then
        ((s.sweep worker).countCrash worker).restartChildProcess worker
      else (s.sweep worker).countCrash worker := rfl

private theorem countCrash_restartCnt (s : State) (worker other : Nat) :
    ((s.countCrash worker).configs other).restartCnt =
      (s.configs other).restartCnt + if other = worker then 1 else 0 := by
  by_cases here : other = worker
  · subst here
    simp [State.countCrash]
  · simp [State.countCrash, here]

private theorem countCrash_incarnation (s : State) (worker other : Nat) :
    ((s.countCrash worker).configs other).incarnation = (s.configs other).incarnation := by
  by_cases here : other = worker
  · subst here
    simp [State.countCrash]
  · simp [State.countCrash, here]

namespace Counted

/-- A crash is counted once the pipes of the worker are no longer registered. -/
theorem countCrash (counted : Counted bindNum s) (worker : Nat) (looping : s.Looping bindNum)
    (active : (s.configs worker).restartCnt ≤ 20)
    (swept : ∀ fd slot, s.fds fd = some slot → slot.type = .pipe → slot.bcElem ≠ worker) :
    Counted bindNum (s.countCrash worker) := by
  obtain ⟨all, idle⟩ := looping
  constructor
  · exact counted.inside
  · intro fd slot used pipe
    rw [countCrash_restartCnt, if_neg (swept fd slot used pipe)]
    exact counted.piped fd slot used pipe
  · intro other forking
    cases idle.symm.trans forking
  · intro more
    exact absurd all more.ne
  · intro other later forking
    rw [countCrash_incarnation]
    exact counted.unmade other later forking
  · intro other
    have restarts := counted.restarts other
    rw [countCrash_restartCnt]
    split
    · rename_i here
      subst here
      omega
    · exact restarts
  · intro other
    have starts := counted.starts other
    rw [countCrash_restartCnt, countCrash_incarnation]
    omega

theorem childCrashed (counted : Counted bindNum s) (looping : s.Looping bindNum)
    (made : worker < s.started) (active : (s.configs worker).restartCnt ≤ 20) :
    Counted bindNum (s.childCrashed worker) := by
  obtain ⟨fewer, deleted⟩ := run_sweepOne (s := s) worker (List.range s.parent.size)
  change Fewer s (s.sweep worker) at fewer
  have swept := counted.fewer fewer
  have idle : (s.sweep worker).forking = none := fewer.forking.trans looping.2
  have counts := swept.countCrash worker ⟨fewer.started.trans looping.1, idle⟩
    (by rw [fewer.configs]; exact active)
    (fun fd slot used pipe => by
      have inside := counted.inside fd slot (fewer.fds fd slot used)
      exact deleted fd (List.mem_range.mpr inside) slot used pipe)
  have few := swept.starts worker
  rw [childCrashed_eq]
  split
  · rename_i again
    have closed : Fewer ((s.sweep worker).countCrash worker) _ :=
      (fewer_closes [((s.sweep worker).countCrash worker).stored worker .recvq .writer]).trans
        (fewer_doDelConn (((s.sweep worker).countCrash worker).stored worker .sendq .reader).1
          (((s.sweep worker).countCrash worker).stored worker .sendq .reader).2)
    have made' : worker ≤ ((s.sweep worker).countCrash worker).started :=
      made.le.trans_eq fewer.started.symm
    refine (counts.fewer closed).shmqCreate (closed.started ▸ made') ?_ (closed.forking.trans idle) ?_
    · rw [closed.configs, countCrash_restartCnt, if_pos rfl]
      omega
    · rw [closed.configs, countCrash_restartCnt, countCrash_incarnation, if_pos rfl]
      omega
  · exact counts

theorem step (counted : Counted bindNum s) (action : Action) :
    Counted bindNum (step bindNum s action) := by
  cases action with
  | shmqCreate =>
      simp only [PipeEnds.step]
      split
      · rename_i ready
        have none_yet := counted.starting ready.1 s.started
        have unmade := counted.unmade s.started le_rfl (by simp [ready.2])
        exact counted.shmqCreate le_rfl (by omega) ready.2 (by omega)
      · exact counted
  | fork listening =>
      simp only [PipeEnds.step]
      split
      · rename_i worker forking
        exact counted.fork forking listening
      · exact counted
  | crash worker => exact counted.fewer ⟨rfl, rfl, rfl, rfl, fun _ _ used => used⟩
  | accept fd =>
      simp only [PipeEnds.step]
      split
      · split
        · exact counted.openSocket (by simp) _
        · exact counted
      · exact counted
  | delete fd =>
      simp only [PipeEnds.step]
      split
      · split
        · exact counted.fewer (fewer_doDelConn ..)
        · exact counted
      · exact counted
  | hangup fd =>
      simp only [PipeEnds.step]
      split
      · rename_i slot used
        split
        · rename_i enabled
          obtain ⟨made, active⟩ := counted.piped fd slot used enabled.2.1
          exact counted.childCrashed enabled.1 made active
        · exact counted
      · exact counted
  | openOther owner =>
      cases owner with
      | none => exact counted.grow (size_allocate s.parent .other).1
      | some worker => exact counted.fewer ⟨rfl, rfl, rfl, rfl, fun _ _ used => used⟩
  | closeOther owner number =>
      cases owner with
      | none =>
          refine counted.grow ?_
          simp only [State.closeOther]
          split
          · exact (size_close s.parent number).ge
          · exact le_rfl
      | some worker => exact counted.fewer ⟨rfl, rfl, rfl, rfl, fun _ _ used => used⟩

theorem restartStep (counted : Counted bindNum s) (action : RestartAction) :
    Counted bindNum (restartStep bindNum s action) := by
  cases action with
  | plain action => exact counted.step action
  | forkFails =>
      simp only [PipeEnds.restartStep]
      split
      · rename_i worker forking
        exact counted.forkFailed forking
      · exact counted

end Counted

end Crashes

/-- In every run, with forks that fail, a worker is started at most 21 times, `restart_cnt`
stays far below the end of a `uint8_t`, and after the last crash no pipe of the worker is
registered. -/
theorem restarts_bounded (bindNum : Nat) (parent : Descriptors Resource)
    (actions : List RestartAction) (worker : Nat) :
    let s := run (restartStep bindNum) (init parent) actions
    (s.configs worker).restartCnt ≤ 21 ∧ (s.configs worker).incarnation ≤ 21 ∧
      ((s.configs worker).restartCnt = 21 →
        ∀ fd slot, s.fds fd = some slot → slot.type = .pipe → slot.bcElem ≠ worker) := by
  intro s
  have counted : Counted bindNum s :=
    run_preserves (Counted bindNum) (fun _ action counted => counted.restartStep action)
      (Counted.init bindNum parent) actions
  have starts := counted.starts worker
  refine ⟨counted.restarts worker, by omega, fun last fd slot used pipe same => ?_⟩
  have active := (counted.piped fd slot used pipe).2
  rw [same, last] at active
  omega

/-- The first worker is never forked. The second crashes 21 times. -/
def secondCrashes : List RestartAction :=
  [.plain .shmqCreate, .forkFails, .plain .shmqCreate, .plain (.fork true)] ++
    (List.replicate 20 [.plain (.crash 1), .plain (.hangup 8), .plain (.fork false)]).flatten ++
    [.plain (.crash 1), .plain (.hangup 8)]

theorem restarts_bounded_crashes :
    let s := run (restartStep 2) (init ⟨List.replicate 4 (some .other)⟩) secondCrashes
    (s.configs 1).restartCnt = 21 ∧ (s.configs 1).incarnation = 21 ∧
      ∀ fd slot, s.fds fd = some slot → slot.type = .pipe → slot.bcElem ≠ 1 := by
  have last : (fun s : State => (s.configs 1).restartCnt = 21 ∧ (s.configs 1).incarnation = 21)
      (run (restartStep 2) (init ⟨List.replicate 4 (some .other)⟩) secondCrashes) := by
    decide +kernel
  exact ⟨last.1, last.2, (restarts_bounded 2 _ secondCrashes 1).2.2 last.1⟩

end MpNet.Process.PipeEnds
