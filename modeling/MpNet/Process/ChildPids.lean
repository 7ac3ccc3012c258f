import MpNet.Library.Children
import MpNet.Library.Run
import Mathlib.Logic.Function.Basic

/-!
# The pids of the workers

`child_pids` as the parent's main code and `sigchld_handler` share it. The handler may
run between any two steps of the main code, which waits until it returns; workers exit
at any time. Actions that are not possible leave the state alone.
-/

set_option autoImplicit false

namespace MpNet.Process

open Library

structure State where
  /-- 0 stands for no worker. -/
  childPids : Nat → Nat
  /-- What `fork` has returned and `atomic_set` has not stored yet. -/
  forked : Option (Nat × Nat)
  children : Children
  handling : Bool

/-- After `clean_child_pids`. -/
def init : State := ⟨fun _ => 0, none, .none, false⟩

inductive Action where
  /-- `fork` for entry `i`, at the start or in `restart_child_process`. -/
  | fork (i pid : Nat)
  | atomicSet
  | exit (pid : Nat)
  | sigchld
  | waitpid (pid : Nat)
  /-- `waitpid` returns no child and the handler ends. -/
  | handled
  deriving DecidableEq

/-- The range of the search in `sigchld_handler`. -/
def searched : Nat := 2

/-- The search in `sigchld_handler`. -/
def clearPid (childPids : Nat → Nat) (pid : Nat) : Nat → Nat :=
  match (List.range searched).find? fun i => childPids i = pid with
  | some i => Function.update childPids i 0
  | none => childPids

def step (bindNum : Nat) (s : State) : Action → State
  | .fork i pid =>
      if s.handling = false ∧ s.forked = none ∧ i < bindNum ∧ 0 < pid ∧ ¬ s.children.Known pid then
        { s with forked := some (i, pid), children := s.children.fork pid }
      else s
  | .atomicSet =>
      match s.handling, s.forked with
      | false, some (i, pid) =>
          { s with childPids := Function.update s.childPids i pid, forked := none }
      | _, _ => s
  | .exit pid =>
      if pid ∈ s.children.running then { s with children := s.children.exit pid } else s
  | .sigchld => { s with handling := true }
  | .waitpid pid =>
      if s.handling ∧ pid ∈ s.children.zombies then
        { s with childPids := clearPid s.childPids pid, children := s.children.reap pid }
      else s
  | .handled =>
      if s.children.zombies = [] then { s with handling := false } else s

/-- The test of the wait loop in `killall_children`. -/
def killallWaits (bindNum : Nat) (s : State) : Bool :=
  (List.range bindNum).any fun i => s.childPids i ≠ 0

/-- Every worker has been reaped and no `atomic_set` is outstanding. -/
def State.AllReaped (s : State) : Prop :=
  s.children.running = [] ∧ s.children.zombies = [] ∧ s.forked = none

instance (s : State) : Decidable s.AllReaped := inferInstanceAs (Decidable (_ ∧ _))

end MpNet.Process
