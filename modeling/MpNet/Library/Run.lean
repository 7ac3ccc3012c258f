import Mathlib.Data.List.Basic

/-!
# Runs of a total step function

A system is a step function on states and actions; a run is the fold of a list
of actions. Actions that are not enabled leave the state alone, so quantifying
over all action lists quantifies over all interleavings.
-/

set_option autoImplicit false

namespace MpNet.Library

variable {State Action : Type*}

def run (step : State → Action → State) (start : State) (actions : List Action) : State :=
  actions.foldl step start

/-- Every step of the run meets a condition on its action and the state before it. -/
def Along (step : State → Action → State) (condition : State → Action → Prop) :
    State → List Action → Prop
  | _, [] => True
  | state, action :: rest => condition state action ∧ Along step condition (step state action) rest

section Runs

variable {step : State → Action → State}

@[simp] theorem run_nil (start : State) : run step start [] = start := rfl

@[simp] theorem run_cons (start : State) (action : Action) (rest : List Action) :
    run step start (action :: rest) = run step (step start action) rest := rfl

theorem run_append (start : State) (first second : List Action) :
    run step start (first ++ second) = run step (run step start first) second :=
  List.foldl_append ..

theorem run_concat (start : State) (actions : List Action) (action : Action) :
    run step start (actions ++ [action]) = step (run step start actions) action := by
  rw [run_append, run_cons, run_nil]

/-- What every step preserves, every run preserves. -/
theorem run_preserves (invariant : State → Prop)
    (preserved : ∀ state action, invariant state → invariant (step state action))
    {start : State} (initial : invariant start) (actions : List Action) :
    invariant (run step start actions) := by
  induction actions generalizing start with
  | nil => exact initial
  | cons action rest ih => exact ih (preserved start action initial)

end Runs

section Conditions

variable {step : State → Action → State} {condition : State → Action → Prop}

@[simp] theorem along_nil (start : State) : Along step condition start [] := trivial

@[simp] theorem along_cons (start : State) (action : Action) (rest : List Action) :
    Along step condition start (action :: rest) ↔
      condition start action ∧ Along step condition (step start action) rest := Iff.rfl

theorem along_append (start : State) (first second : List Action) :
    Along step condition start (first ++ second) ↔
      Along step condition start first ∧ Along step condition (run step start first) second := by
  induction first generalizing start with
  | nil => simp
  | cons action rest ih => simp [ih, and_assoc]

theorem along_of_forall {required : Action → Prop} (start : State) {actions : List Action}
    (all : ∀ action ∈ actions, required action) :
    Along step (fun _ action => required action) start actions := by
  induction actions generalizing start with
  | nil => exact trivial
  | cons action rest ih =>
      exact ⟨all action List.mem_cons_self, ih _ fun later member =>
        all later (List.mem_cons_of_mem _ member)⟩

theorem forall_of_along {required : Action → Prop} {start : State} {actions : List Action}
    (along : Along step (fun _ action => required action) start actions) :
    ∀ action ∈ actions, required action := by
  induction actions generalizing start with
  | nil => exact List.forall_mem_nil _
  | cons action rest ih => exact List.forall_mem_cons.mpr ⟨along.1, ih along.2⟩

theorem along_and {first second : State → Action → Prop} {start : State} {actions : List Action} :
    Along step (fun state action => first state action ∧ second state action) start actions ↔
      Along step first start actions ∧ Along step second start actions := by
  induction actions generalizing start with
  | nil => simp
  | cons action rest ih => simp [ih, and_assoc, and_left_comm]

instance Along.decidable [∀ state action, Decidable (condition state action)] :
    ∀ (start : State) (actions : List Action), Decidable (Along step condition start actions)
  | _, [] => .isTrue trivial
  | start, action :: rest =>
      have := Along.decidable (step start action) rest
      inferInstanceAs (Decidable (_ ∧ _))

/-- What every step that meets the condition preserves, every run whose steps
all meet it preserves. -/
theorem run_preserves_along (invariant : State → Prop)
    (preserved : ∀ state action, condition state action → invariant state →
      invariant (step state action))
    {start : State} (initial : invariant start) {actions : List Action}
    (along : Along step condition start actions) : invariant (run step start actions) := by
  induction actions generalizing start with
  | nil => exact initial
  | cons action rest ih => exact ih (preserved start action along.1 initial) along.2

/-- What an invariant gives of every step that meets the condition, it gives all along a
run whose steps meet it. -/
theorem along_of_along {given : State → Action → Prop} (invariant : State → Prop)
    (preserved : ∀ state action, condition state action → invariant state →
      invariant (step state action))
    (gives : ∀ state action, condition state action → invariant state → given state action)
    {start : State} (initial : invariant start) {actions : List Action}
    (along : Along step condition start actions) : Along step given start actions := by
  induction actions generalizing start with
  | nil => exact trivial
  | cons action rest ih =>
      exact ⟨gives start action along.1 initial,
        ih (preserved start action along.1 initial) along.2⟩

/-- Where a step that violates the condition does damage that lasts, a run meets the
condition if and only if it ends undamaged. -/
theorem along_iff_intact (invariant intact : State → Prop)
    (preserved : ∀ state action, condition state action → invariant state →
      invariant (step state action))
    (keeps : ∀ state, invariant state → intact state)
    (damages : ∀ state action, invariant state → ¬ condition state action →
      ¬ intact (step state action))
    (lasting : ∀ state action, ¬ intact state → ¬ intact (step state action))
    {start : State} (initial : invariant start) (actions : List Action) :
    Along step condition start actions ↔ intact (run step start actions) := by
  constructor
  · exact fun along => keeps _ (run_preserves_along invariant preserved initial along)
  · induction actions generalizing start with
    | nil => exact fun _ => trivial
    | cons action rest ih =>
        intro ends
        have holds : condition start action := by
          by_contra violated
          exact run_preserves (fun state => ¬ intact state) lasting
            (damages start action initial violated) rest ends
        exact ⟨holds, ih (preserved start action holds initial) ends⟩

/-- Two conditions that agree where an invariant holds agree along every run that keeps it. -/
theorem along_congr {first second : State → Action → Prop} (invariant : State → Prop)
    (preserved : ∀ state action, condition state action → invariant state → first state action →
      invariant (step state action))
    (same : ∀ state action, condition state action → invariant state →
      (first state action ↔ second state action))
    {start : State} (initial : invariant start) {actions : List Action}
    (along : Along step condition start actions) :
    Along step first start actions ↔ Along step second start actions := by
  induction actions generalizing start with
  | nil => exact Iff.rfl
  | cons action rest ih =>
      have here := same start action along.1 initial
      constructor
      · rintro ⟨holds, later⟩
        exact ⟨here.mp holds, (ih (preserved start action along.1 initial holds) along.2).mp later⟩
      · rintro ⟨holds, later⟩
        have holds := here.mpr holds
        exact ⟨holds, (ih (preserved start action along.1 initial holds) along.2).mpr later⟩

end Conditions

/-! ## Runs that come to an end -/

section Endings

variable {step : State → Action → State} {condition : State → Action → Prop}

/-- A measure that every step lowers bounds the length of a run. -/
theorem length_le_of_lowers (measure : State → Nat) (invariant : State → Prop)
    (preserved : ∀ state action, condition state action → invariant state →
      invariant (step state action))
    (lowers : ∀ state action, condition state action → invariant state →
      measure (step state action) < measure state)
    {start : State} (initial : invariant start) {actions : List Action}
    (along : Along step condition start actions) : actions.length ≤ measure start := by
  induction actions generalizing start with
  | nil => exact Nat.zero_le _
  | cons action rest ih =>
      have later := ih (preserved start action along.1 initial) along.2
      exact Nat.lt_of_le_of_lt later (lowers start action along.1 initial)

/-- Some run of such steps goes on until no step is left. -/
theorem exists_run_to_end (measure : State → Nat) (invariant : State → Prop)
    (preserved : ∀ state action, condition state action → invariant state →
      invariant (step state action))
    (lowers : ∀ state action, condition state action → invariant state →
      measure (step state action) < measure state)
    {start : State} (initial : invariant start) :
    ∃ actions, Along step condition start actions ∧
      ∀ action, ¬ condition (run step start actions) action := by
  induction bound : measure start using Nat.strongRecOn generalizing start with
  | ind bound ih =>
      by_cases more : ∃ action, condition start action
      · obtain ⟨action, meets⟩ := more
        have smaller := lowers start action meets initial
        obtain ⟨rest, along, ended⟩ :=
          ih _ (bound ▸ smaller) (preserved start action meets initial) rfl
        exact ⟨action :: rest, ⟨meets, along⟩, ended⟩
      · exact ⟨[], trivial, fun action meets => more ⟨action, meets⟩⟩

end Endings

/-! ## What a run puts out -/

section Traces

variable {Out : Type*}

/-- The outputs of all steps of a run, in order. -/
def trace (step : State → Action → State) (out : State → Action → List Out) :
    State → List Action → List Out
  | _, [] => []
  | state, action :: rest => out state action ++ trace step out (step state action) rest

/-- What every step preserves, with what it puts out, every run preserves. -/
theorem run_trace_preserves (step : State → Action → State) (out : State → Action → List Out)
    (condition : State → Action → Prop) (invariant : State → List Out → Prop)
    (preserved : ∀ state action before, condition state action → invariant state before →
      invariant (step state action) (before ++ out state action))
    (start : State) (before : List Out) (initial : invariant start before) {actions : List Action}
    (along : Along step condition start actions) :
    invariant (run step start actions) (before ++ trace step out start actions) := by
  induction actions generalizing start before with
  | nil => simpa [trace] using initial
  | cons action rest ih =>
      rw [run_cons, trace, ← List.append_assoc]
      exact ih _ _ (preserved start action before along.1 initial) along.2

/-- The same for two kinds of output. -/
theorem run_traces_preserve {Other : Type*} (step : State → Action → State)
    (out : State → Action → List Out) (other : State → Action → List Other)
    (invariant : State → List Out → List Other → Prop)
    (preserved : ∀ state action before earlier, invariant state before earlier →
      invariant (step state action) (before ++ out state action) (earlier ++ other state action))
    (start : State) (before : List Out) (earlier : List Other)
    (initial : invariant start before earlier) (actions : List Action) :
    invariant (run step start actions) (before ++ trace step out start actions)
      (earlier ++ trace step other start actions) := by
  induction actions generalizing start before earlier with
  | nil => simpa [trace] using initial
  | cons action rest ih =>
      rw [run_cons, trace, trace, ← List.append_assoc, ← List.append_assoc]
      exact ih _ _ _ (preserved start action before earlier initial)

theorem trace_append {step : State → Action → State} {out : State → Action → List Out}
    (start : State) (first second : List Action) :
    trace step out start (first ++ second) =
      trace step out start first ++ trace step out (run step start first) second := by
  induction first generalizing start with
  | nil => rfl
  | cons action rest ih => simp [trace, ih]

end Traces

/-! ## A step that is itself a run -/

section Composite

variable {Whole Out : Type*} {step : State → Action → State} {parts : State → Whole → List Action}

/-- The step that makes all the steps of `parts`. -/
def composite (step : State → Action → State) (parts : State → Whole → List Action)
    (state : State) (whole : Whole) : State :=
  run step state (parts state whole)

/-- All the steps of a run of composite steps. -/
def partsOf (step : State → Action → State) (parts : State → Whole → List Action) :
    State → List Whole → List Action :=
  trace (composite step parts) parts

theorem run_partsOf (start : State) (wholes : List Whole) :
    run step start (partsOf step parts start wholes) = run (composite step parts) start wholes := by
  induction wholes generalizing start with
  | nil => rfl
  | cons whole rest ih =>
      rw [partsOf, trace, run_append, run_cons]
      exact ih (composite step parts start whole)

theorem trace_partsOf (out : State → Action → List Out) (start : State) (wholes : List Whole) :
    trace step out start (partsOf step parts start wholes) =
      trace (composite step parts) (fun state whole => trace step out state (parts state whole))
        start wholes := by
  induction wholes generalizing start with
  | nil => rfl
  | cons whole rest ih =>
      rw [partsOf, trace, trace_append, trace]
      exact congrArg _ (ih (composite step parts start whole))

theorem along_partsOf {condition : State → Action → Prop} (start : State) (wholes : List Whole) :
    Along step condition start (partsOf step parts start wholes) ↔
      Along (composite step parts)
        (fun state whole => Along step condition state (parts state whole)) start wholes := by
  induction wholes generalizing start with
  | nil => exact Iff.rfl
  | cons whole rest ih =>
      rw [partsOf, trace, along_append, along_cons]
      exact and_congr_right' (ih (composite step parts start whole))

end Composite

end MpNet.Library
