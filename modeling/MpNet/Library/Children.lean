import Mathlib.Data.List.Basic

/-!
# The children of a process

A child runs until it exits and is a zombie until its parent reaps it. Its number is
not given to another child in the meantime.
-/

set_option autoImplicit false

namespace MpNet.Library

structure Children where
  running : List Nat
  zombies : List Nat

namespace Children

def none : Children := ⟨[], []⟩

/-- The numbers that are in use. -/
def Known (children : Children) (pid : Nat) : Prop :=
  pid ∈ children.running ∨ pid ∈ children.zombies

instance (children : Children) (pid : Nat) : Decidable (children.Known pid) :=
  inferInstanceAs (Decidable (_ ∨ _))

def fork (children : Children) (pid : Nat) : Children :=
  { children with running := pid :: children.running }

def exit (children : Children) (pid : Nat) : Children :=
  ⟨children.running.filter (· ≠ pid), pid :: children.zombies⟩

def reap (children : Children) (pid : Nat) : Children :=
  { children with zombies := children.zombies.filter (· ≠ pid) }

variable {children : Children} {pid other : Nat}

theorem known_fork : (children.fork pid).Known other ↔ other = pid ∨ children.Known other := by
  simp [Known, fork, or_assoc]

theorem known_exit (running : pid ∈ children.running) :
    (children.exit pid).Known other ↔ children.Known other := by
  by_cases same : other = pid
  · subst same
    simp [Known, Children.exit, running]
  · simp [Known, Children.exit, same]

theorem Known.reap (known : children.Known other) (apart : other ≠ pid) :
    (children.reap pid).Known other := by
  rcases known with running | zombie
  · exact .inl running
  · exact .inr (by simpa [Children.reap, apart] using zombie)

theorem Known.of_reap (known : (children.reap pid).Known other) : children.Known other := by
  rcases known with running | zombie
  · exact .inl running
  · exact .inr (List.mem_of_mem_filter zombie)

end Children

end MpNet.Library
