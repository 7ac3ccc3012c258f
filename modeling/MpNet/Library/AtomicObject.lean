import Mathlib.Logic.Function.Basic
import MpNet.Library.Run

/-!
# Atomic objects

An object that several processes share by calls. Each call takes effect at one moment
between its start and its return. What such an object can show is linearizable.
-/

set_option autoImplicit false

namespace MpNet.Library

/-- The results and the next contents that an operation may have. -/
abbrev SequentialObject (Content Op Result : Type*) := Content → Op → Result → Content → Prop

inductive CallEvent (Process Op Result : Type*) where
  | call (process : Process) (op : Op)
  | ret (process : Process) (result : Result)
  deriving DecidableEq

inductive CallStatus (Op Result : Type*) where
  | idle
  /-- The call has started and has not taken effect. -/
  | called (op : Op)
  /-- It has taken effect and has not returned. -/
  | done (result : Result)

structure AtomicObject (Process Content Op Result : Type*) where
  content : Content
  status : Process → CallStatus Op Result

variable {Process Content Op Result : Type*} [DecidableEq Process]

namespace AtomicObject

def setStatus (a : AtomicObject Process Content Op Result) (process : Process)
    (status : CallStatus Op Result) : AtomicObject Process Content Op Result :=
  { a with status := Function.update a.status process status }

def takeEffect (a : AtomicObject Process Content Op Result) (process : Process) (result : Result)
    (content : Content) : AtomicObject Process Content Op Result :=
  ⟨content, Function.update a.status process (.done result)⟩

variable {a : AtomicObject Process Content Op Result} {process : Process} {result : Result}
  {content : Content} {status : CallStatus Op Result}

@[simp] theorem setStatus_self : (a.setStatus process status).status process = status :=
  Function.update_self ..

@[simp] theorem takeEffect_self :
    (a.takeEffect process result content).status process = .done result :=
  Function.update_self ..

end AtomicObject

/-- The events that the object shows on the way from one state to another. -/
inductive Shows (object : SequentialObject Content Op Result)
    (a : AtomicObject Process Content Op Result) :
    List (CallEvent Process Op Result) → AtomicObject Process Content Op Result → Prop
  | refl : Shows object a [] a
  | call {events b} (before : Shows object a events b) (process : Process) (op : Op)
      (idle : b.status process = .idle) :
      Shows object a (events ++ [.call process op]) (b.setStatus process (.called op))
  | effect {events b} (before : Shows object a events b) (process : Process) (op : Op)
      (result : Result) (content : Content) (called : b.status process = .called op)
      (allowed : object b.content op result content) :
      Shows object a events (b.takeEffect process result content)
  | ret {events b} (before : Shows object a events b) (process : Process) (result : Result)
      (done : b.status process = .done result) :
      Shows object a (events ++ [.ret process result]) (b.setStatus process .idle)

/-- Every call can be given one moment of effect between its start and its return, or none if
it has not returned, so that the effects in their order are what the sequential object does. -/
def Linearizable (object : SequentialObject Content Op Result) (content : Content)
    (history : List (CallEvent Process Op Result)) : Prop :=
  ∃ a, Shows object ⟨content, fun _ => .idle⟩ history a

theorem Shows.trans {object : SequentialObject Content Op Result}
    {a b c : AtomicObject Process Content Op Result}
    {first second : List (CallEvent Process Op Result)} (before : Shows object a first b)
    (after : Shows object b second c) : Shows object a (first ++ second) c := by
  induction after with
  | refl => rwa [List.append_nil]
  | call _ process op idle ih =>
      rw [← List.append_assoc]
      exact ih.call process op idle
  | effect _ process op result content called allowed ih =>
      exact ih.effect process op result content called allowed
  | ret _ process result done ih =>
      rw [← List.append_assoc]
      exact ih.ret process result done

/-- A system whose steps the atomic object can follow is linearizable in every run. -/
theorem linearizable_of_simulation {State Action : Type*}
    {object : SequentialObject Content Op Result} {content : Content}
    (step : State → Action → State)
    (events : State → Action → List (CallEvent Process Op Result))
    (shown : State → AtomicObject Process Content Op Result → Prop)
    (follows : ∀ state action a, shown state a →
      ∃ a', Shows object a (events state action) a' ∧ shown (step state action) a')
    {start : State} (initial : shown start ⟨content, fun _ => .idle⟩) (actions : List Action) :
    Linearizable object content (trace step events start actions) := by
  have kept := run_trace_preserves step events (fun _ _ => True)
    (fun state history => ∃ a, Shows object ⟨content, fun _ => .idle⟩ history a ∧ shown state a)
    (fun state action _ _ ⟨a, shows, here⟩ => by
      obtain ⟨a', later, there⟩ := follows state action a here
      exact ⟨a', shows.trans later, there⟩)
    start [] ⟨_, .refl, initial⟩ (along_of_forall start fun (_ : Action) (_ : _ ∈ actions) => trivial)
  obtain ⟨a, shows, -⟩ := kept
  exact ⟨a, shows⟩

end MpNet.Library
