import Mathlib.Logic.Function.Basic
import Mathlib.Logic.Relation

/-!
# Processes that share queues

Each process runs code on its own memory that pushes items to shared queues and pops items
from them, interleaved with the code of the others. When code pops at most once, before it
pushes, and ends after the first push that is accepted, every run is also a run in which
code is not interleaved.
-/

set_option autoImplicit false

namespace MpNet.Library

/-- What is left to do: end with a result, or use a queue and go on with the answer. -/
inductive Code (Queue Item Result : Type*) where
  | ret (result : Result)
  /-- The answer is whether the queue took the item. -/
  | push (queue : Queue) (item : Item) (next : Bool → Code Queue Item Result)
  | pop (queue : Queue) (next : Option Item → Code Queue Item Result)

variable {Process Queue Item : Type*} {Local : Process → Type*} {Result : Type*}

namespace Code

/-- All the code at once, each push being accepted or refused. -/
inductive Runs [DecidableEq Queue] :
    Code Queue Item Result → (Queue → List Item) → Result → (Queue → List Item) → Prop
  | ret (result : Result) (queues : Queue → List Item) : Runs (.ret result) queues result queues
  | accept {queue : Queue} {item : Item} {next : Bool → Code Queue Item Result}
      {queues queues' : Queue → List Item} {result : Result}
      (after : Runs (next true) (Function.update queues queue (queues queue ++ [item]))
        result queues') :
      Runs (.push queue item next) queues result queues'
  | refuse {queue : Queue} {item : Item} {next : Bool → Code Queue Item Result}
      {queues queues' : Queue → List Item} {result : Result}
      (after : Runs (next false) queues result queues') :
      Runs (.push queue item next) queues result queues'
  | empty {queue : Queue} {next : Option Item → Code Queue Item Result}
      {queues queues' : Queue → List Item} {result : Result} (drained : queues queue = [])
      (after : Runs (next none) queues result queues') : Runs (.pop queue next) queues result queues'
  | take {queue : Queue} {next : Option Item → Code Queue Item Result}
      {queues queues' : Queue → List Item} {result : Result} (item : Item) (rest : List Item)
      (front : queues queue = item :: rest)
      (after : Runs (next (some item)) (Function.update queues queue rest) result queues') :
      Runs (.pop queue next) queues result queues'

def Ends : Code Queue Item Result → Prop
  | .ret _ => True
  | _ => False

/-- Pushes only, and nothing after a push that is accepted. -/
def Pushes : Code Queue Item Result → Prop
  | .ret _ => True
  | .push _ _ next => (next true).Ends ∧ (next false).Pushes
  | .pop .. => False

/-- At most one pop, of one of the queues, before all pushes; nothing after it when it
finds the queue empty. -/
def Short (owned : Queue → Prop) : Code Queue Item Result → Prop
  | .pop queue next => owned queue ∧ (next none).Ends ∧ ∀ item, (next (some item)).Pushes
  | code => code.Pushes

theorem Ends.ret {code : Code Queue Item Result} (ends : code.Ends) :
    ∃ result, code = .ret result := by
  cases code with
  | ret result => exact ⟨result, rfl⟩
  | push | pop => cases ends

theorem Pushes.short {owned : Queue → Prop} {code : Code Queue Item Result}
    (pushes : code.Pushes) : code.Short owned := by
  cases code with
  | ret | push => exact pushes
  | pop => cases pushes

theorem Ends.pushes {code : Code Queue Item Result} (ends : code.Ends) : code.Pushes := by
  obtain ⟨result, rfl⟩ := ends.ret
  exact ends

end Code

variable [DecidableEq Process] [DecidableEq Queue]

/-! ## Interleaved code -/

structure Shared (Process Queue Item : Type*) (Local : Process → Type*) where
  memory : ∀ process, Local process
  /-- The code that each process is in, if any. -/
  code : ∀ process, Option (Code Queue Item (Local process))
  queue : Queue → List Item

namespace Shared

def setCode (s : Shared Process Queue Item Local) (process : Process)
    (code : Option (Code Queue Item (Local process))) : Shared Process Queue Item Local :=
  { s with code := Function.update s.code process code }

def setQueue (s : Shared Process Queue Item Local) (queue : Queue) (items : List Item) :
    Shared Process Queue Item Local :=
  { s with queue := Function.update s.queue queue items }

/-- One use of a queue, or the start or the end of code that the process may run. -/
inductive Step (may : ∀ process, Local process → Code Queue Item (Local process) → Prop)
    (s : Shared Process Queue Item Local) : Shared Process Queue Item Local → Prop
  | start (process : Process) (code : Code Queue Item (Local process))
      (idle : s.code process = none) (allowed : may process (s.memory process) code) :
      Step may s (s.setCode process (some code))
  | accept (process : Process) (queue : Queue) (item : Item)
      (next : Bool → Code Queue Item (Local process))
      (here : s.code process = some (.push queue item next)) :
      Step may s
        ((s.setQueue queue (s.queue queue ++ [item])).setCode process (some (next true)))
  | refuse (process : Process) (queue : Queue) (item : Item)
      (next : Bool → Code Queue Item (Local process))
      (here : s.code process = some (.push queue item next)) :
      Step may s (s.setCode process (some (next false)))
  | empty (process : Process) (queue : Queue)
      (next : Option Item → Code Queue Item (Local process))
      (here : s.code process = some (.pop queue next)) (drained : s.queue queue = []) :
      Step may s (s.setCode process (some (next none)))
  | take (process : Process) (queue : Queue)
      (next : Option Item → Code Queue Item (Local process)) (item : Item) (rest : List Item)
      (here : s.code process = some (.pop queue next)) (front : s.queue queue = item :: rest) :
      Step may s ((s.setQueue queue rest).setCode process (some (next (some item))))
  | finish (process : Process) (result : Local process)
      (here : s.code process = some (.ret result)) :
      Step may s
        ({ s with memory := Function.update s.memory process result }.setCode process none)

end Shared

/-! ## Code that is not interleaved -/

structure Whole (Process Queue Item : Type*) (Local : Process → Type*) where
  memory : ∀ process, Local process
  queue : Queue → List Item

/-- One process runs all its code. -/
inductive Transaction (may : ∀ process, Local process → Code Queue Item (Local process) → Prop)
    (w : Whole Process Queue Item Local) : Whole Process Queue Item Local → Prop
  | run (process : Process) (code : Code Queue Item (Local process)) (result : Local process)
      (queues : Queue → List Item) (allowed : may process (w.memory process) code)
      (runs : code.Runs w.queue result queues) :
      Transaction may w ⟨Function.update w.memory process result, queues⟩

/-! ## Each run as a run of transactions

The transaction of a process happens at its accepted push, at its pop of an empty queue, or
when it ends. Until then the item that it has popped is still in the queue.
-/

/-- What a process has taken from a queue. -/
def takenFrom (taken : Option (Queue × Item)) (queue : Queue) : List Item :=
  match taken with
  | some (other, item) => if other = queue then [item] else []
  | none => []

/-- Code in progress whose transaction is still to come. -/
structure Busy (owned : Queue → Prop) (may : Code Queue Item Result → Prop)
    (code : Code Queue Item Result) (taken : Option (Queue × Item)) : Prop where
  short : code.Short owned
  uses : ∀ queue item, taken = some (queue, item) → owned queue ∧ code.Pushes
  resumes : ∃ whole, may whole ∧ ∀ queues result queues', code.Runs queues result queues' →
    whole.Runs (fun queue => takenFrom taken queue ++ queues queue) result queues'

/-- Where a process is: its code, what it has taken for a transaction that is still to come,
and its memory according to the transactions. -/
inductive Stage (owned : Queue → Prop) (may : Code Queue Item Result → Prop) (memory : Result) :
    Option (Code Queue Item Result) → Option (Queue × Item) → Result → Prop
  | idle : Stage owned may memory none none memory
  | busy {code : Code Queue Item Result} {taken : Option (Queue × Item)}
      (busy : Busy owned may code taken) : Stage owned may memory (some code) taken memory
  | done (result : Result) : Stage owned may memory (some (.ret result)) none result

section Stages

variable {owned : Queue → Prop} {may : Code Queue Item Result → Prop} {memory now : Result}
  {code : Code Queue Item Result} {taken : Option (Queue × Item)} {queue : Queue} {item : Item}

theorem Stage.of_idle (stage : Stage owned may memory none taken now) :
    taken = none ∧ now = memory := by
  cases stage with
  | idle => exact ⟨rfl, rfl⟩

private theorem Stage.of_going (stage : Stage owned may memory (some code) taken now)
    (going : ¬ code.Ends) : Busy owned may code taken ∧ now = memory := by
  cases stage with
  | busy busy => exact ⟨busy, rfl⟩
  | done => exact absurd trivial going

private theorem Stage.of_ret {result : Result}
    (stage : Stage owned may memory (some (.ret result)) taken now) :
    Busy owned may (.ret result) taken ∧ now = memory ∨ taken = none ∧ now = result := by
  cases stage with
  | busy busy => exact .inl ⟨busy, rfl⟩
  | done => exact .inr ⟨rfl, rfl⟩

theorem Busy.start (allowed : may code) (short : code.Short owned) : Busy owned may code none :=
  ⟨short, nofun, code, allowed, fun _ _ _ => id⟩

theorem Busy.refuse {next : Bool → Code Queue Item Result}
    (busy : Busy owned may (.push queue item next) taken) : Busy owned may (next false) taken := by
  have later : (next false).Pushes := busy.short.2
  obtain ⟨whole, allowed, resumes⟩ := busy.resumes
  exact ⟨later.short, fun queue item mine => ⟨(busy.uses queue item mine).1, later⟩,
    whole, allowed, fun _ _ _ runs => resumes _ _ _ (.refuse runs)⟩

/-- A pop comes first. -/
theorem Busy.untaken {next : Option Item → Code Queue Item Result}
    (busy : Busy owned may (.pop queue next) taken) : taken = none := by
  cases taken with
  | none => rfl
  | some mine => exact (busy.uses mine.1 mine.2 rfl).2.elim

theorem Busy.take {next : Option Item → Code Queue Item Result}
    (busy : Busy owned may (.pop queue next) none) :
    Busy owned may (next (some item)) (some (queue, item)) := by
  obtain ⟨mine, -, later⟩ := busy.short
  obtain ⟨whole, allowed, resumes⟩ := busy.resumes
  refine ⟨(later item).short, ?_, whole, allowed, fun queues result queues' runs => ?_⟩
  · intro other taken same
    cases same
    exact ⟨mine, later item⟩
  · refine resumes (fun other => takenFrom (some (queue, item)) other ++ queues other) _ _ ?_
    refine .take item (queues queue) ?_ ?_
    · simp [takenFrom]
    · have back : Function.update
          (fun other => takenFrom (some (queue, item)) other ++ queues other) queue (queues queue) =
            queues := by
        funext other
        by_cases here : other = queue
        · subst here
          exact Function.update_self ..
        · rw [Function.update_of_ne here, takenFrom, if_neg (Ne.symm here)]
          rfl
      rwa [back]

end Stages

section Simulation

variable (may : ∀ process, Local process → Code Queue Item (Local process) → Prop)
  (owner : Queue → Process)

/-- The queues of the transactions still hold what their owners have taken. -/
structure Covers (taken : Process → Option (Queue × Item)) (s : Shared Process Queue Item Local)
    (w : Whole Process Queue Item Local) : Prop where
  stages : ∀ process, Stage (owner · = process) (may process (s.memory process))
    (s.memory process) (s.code process) (taken process) (w.memory process)
  queues : ∀ queue, w.queue queue = takenFrom (taken (owner queue)) queue ++ s.queue queue

variable {may owner} {s s' : Shared Process Queue Item Local} {w : Whole Process Queue Item Local}
  {taken : Process → Option (Queue × Item)} {process : Process}

/-- One process has moved on, and the queues have changed in step. -/
theorem Covers.move (covers : Covers may owner taken s w) (memory now : Local process)
    {code : Option (Code Queue Item (Local process))} {mine : Option (Queue × Item)}
    {queue queue' : Queue → List Item}
    (stage : Stage (owner · = process) (may process memory) memory code mine now)
    (queues : ∀ q, queue' q =
      takenFrom (Function.update taken process mine (owner q)) q ++ queue q) :
    Covers may owner (Function.update taken process mine)
      ⟨Function.update s.memory process memory, Function.update s.code process code, queue⟩
      ⟨Function.update w.memory process now, queue'⟩ := by
  refine ⟨fun other => ?_, queues⟩
  by_cases here : other = process
  · subst here
    simpa using stage
  · simpa [here] using covers.stages other

/-- A step without a transaction. -/
theorem Covers.going (covers : Covers may owner taken s w)
    (same : w.memory process = s.memory process) {code : Code Queue Item (Local process)}
    {mine : Option (Queue × Item)} {queue : Queue → List Item}
    (busy : Busy (owner · = process) (may process (s.memory process)) code mine)
    (queues : ∀ q, w.queue q =
      takenFrom (Function.update taken process mine (owner q)) q ++ queue q) :
    Covers may owner (Function.update taken process mine)
      ⟨s.memory, Function.update s.code process (some code), queue⟩ w := by
  have moved := covers.move _ _ (.busy busy) queues
  rwa [← same, Function.update_eq_self, same, Function.update_eq_self] at moved

/-- The queues without what the process has taken. -/
theorem Covers.others (covers : Covers may owner taken s w)
    (mine : ∀ queue item, taken process = some (queue, item) → owner queue = process) :
    w.queue = fun queue => takenFrom (taken process) queue ++
      (takenFrom (Function.update taken process none (owner queue)) queue ++ s.queue queue) := by
  funext queue
  rw [covers.queues queue]
  by_cases here : owner queue = process
  · rw [here, Function.update_self]
    rfl
  · rw [Function.update_of_ne here]
    cases took : taken process with
    | none => rfl
    | some other =>
        obtain ⟨other, item⟩ := other
        have apart : other ≠ queue := fun same => here (same ▸ mine other item took)
        rw [takenFrom, if_neg apart]
        rfl

/-- The transaction of a process, with the queues as the others see them. -/
theorem Covers.transaction (covers : Covers may owner taken s w)
    {code : Code Queue Item (Local process)} {result : Local process} {queues : Queue → List Item}
    (busy : Busy (owner · = process) (may process (s.memory process)) code (taken process))
    (same : w.memory process = s.memory process)
    (runs : code.Runs
      (fun queue => takenFrom (Function.update taken process none (owner queue)) queue ++
        s.queue queue) result queues) :
    Transaction may w ⟨Function.update w.memory process result, queues⟩ := by
  obtain ⟨-, uses, whole, allowed, resumes⟩ := busy
  have runs := resumes _ _ _ runs
  rw [← covers.others fun queue item mine => (uses queue item mine).1] at runs
  exact .run process whole result queues (same.symm ▸ allowed) runs

/-- A step with which the transaction of the process is made. -/
theorem Covers.commit (covers : Covers may owner taken s w) {code : Code Queue Item (Local process)}
    {result : Local process} {queue queues : Queue → List Item}
    (busy : Busy (owner · = process) (may process (s.memory process)) code (taken process))
    (same : w.memory process = s.memory process)
    (runs : code.Runs
      (fun queue => takenFrom (Function.update taken process none (owner queue)) queue ++
        s.queue queue) result queues)
    (after : ∀ q, queues q = takenFrom (Function.update taken process none (owner q)) q ++ queue q) :
    ∃ taken' w', Relation.ReflTransGen (Transaction may) w w' ∧
      Covers may owner taken'
        ⟨s.memory, Function.update s.code process (some (.ret result)), queue⟩ w' := by
  have moved := covers.move (s.memory process) result (.done result) after
  rw [Function.update_eq_self] at moved
  exact ⟨_, _, .single (covers.transaction busy same runs), moved⟩

/-- Each step is made by at most one transaction. -/
theorem Covers.step
    (short : ∀ process memory code, may process memory code → code.Short (owner · = process))
    (covers : Covers may owner taken s w) (step : Shared.Step may s s') :
    ∃ taken' w', Relation.ReflTransGen (Transaction may) w w' ∧
      Covers may owner taken' s' w' := by
  cases step with
  | start process code idle allowed =>
      obtain ⟨untaken, same⟩ := (idle ▸ covers.stages process).of_idle
      refine ⟨_, w, .refl, covers.going same (.start allowed (short process _ code allowed)) ?_⟩
      rw [← untaken, Function.update_eq_self]
      exact covers.queues
  | accept process queue item next here =>
      obtain ⟨busy, same⟩ := (here ▸ covers.stages process).of_going id
      obtain ⟨result, ends⟩ := busy.short.1.ret
      rw [ends]
      have last := ends ▸ Code.Runs.ret result
      refine covers.commit busy same (.accept (last _)) fun other => ?_
      by_cases elsewhere : other = queue
      · subst elsewhere
        simp [Shared.setQueue]
      · simp [elsewhere, Shared.setQueue]
  | refuse process queue item next here =>
      obtain ⟨busy, same⟩ := (here ▸ covers.stages process).of_going id
      refine ⟨_, w, .refl, covers.going same busy.refuse ?_⟩
      rw [Function.update_eq_self]
      exact covers.queues
  | empty process queue next here drained =>
      obtain ⟨busy, same⟩ := (here ▸ covers.stages process).of_going id
      obtain ⟨result, ends⟩ := busy.short.2.1.ret
      have clear : takenFrom (Function.update taken process none (owner queue)) queue ++
          s.queue queue = [] := by
        rw [busy.short.1, Function.update_self, drained]
        rfl
      rw [ends]
      exact covers.commit busy same (.empty clear (ends ▸ .ret result _)) fun _ => rfl
  | take process queue next item rest here front =>
      obtain ⟨busy, same⟩ := (here ▸ covers.stages process).of_going id
      have untaken := busy.untaken
      refine ⟨_, w, .refl, covers.going same (untaken ▸ busy).take fun other => ?_⟩
      rw [covers.queues other]
      by_cases elsewhere : other = queue
      · subst elsewhere
        have mine : owner other = process := busy.short.1
        simp [mine, untaken, takenFrom, front, Shared.setQueue]
      · by_cases mine : owner other = process
        · simp [mine, untaken, takenFrom, elsewhere, Ne.symm elsewhere, Shared.setQueue]
        · simp [mine, elsewhere, Shared.setQueue]
  | finish process result here =>
      rcases (here ▸ covers.stages process).of_ret with ⟨busy, same⟩ | ⟨untaken, same⟩
      · have runs := covers.transaction busy same (.ret result _)
        exact ⟨_, _, .single runs, covers.move _ _ .idle fun _ => rfl⟩
      · subst same
        have kept : ∀ q, w.queue q =
            takenFrom (Function.update taken process none (owner q)) q ++ s.queue q := by
          rw [← untaken, Function.update_eq_self]
          exact covers.queues
        have moved := covers.move (w.memory process) (w.memory process) .idle kept
        rw [Function.update_eq_self process w.memory] at moved
        exact ⟨_, w, .refl, moved⟩

/-- Every run of interleaved code is covered by a run of transactions. -/
theorem Covers.run
    (short : ∀ process memory code, may process memory code → code.Short (owner · = process))
    (covers : Covers may owner taken s w) (steps : Relation.ReflTransGen (Shared.Step may) s s') :
    ∃ taken' w', Relation.ReflTransGen (Transaction may) w w' ∧
      Covers may owner taken' s' w' := by
  induction steps with
  | refl => exact ⟨taken, w, .refl, covers⟩
  | tail _ step ih =>
      obtain ⟨taken', w', made, covers'⟩ := ih
      obtain ⟨taken'', w'', more, covers''⟩ := covers'.step short step
      exact ⟨taken'', w'', made.trans more, covers''⟩

end Simulation

end MpNet.Library
