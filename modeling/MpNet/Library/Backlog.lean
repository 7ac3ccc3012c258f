import Mathlib.Data.List.Basic

/-!
# A stream with a backlog

A producer appends to a stream and a consumer takes from it in pieces of its own
choice. What has been taken and what waits always make up the stream.
-/

set_option autoImplicit false

namespace MpNet.Library

variable {Item : Type*}

structure Backlog (Item : Type*) where
  accepted : List Item
  pending : List Item

namespace Backlog

def empty : Backlog Item := ⟨[], []⟩

/-- Everything that was ever appended. -/
def passed (backlog : Backlog Item) : List Item := backlog.accepted ++ backlog.pending

def push (backlog : Backlog Item) (items : List Item) : Backlog Item :=
  { backlog with pending := backlog.pending ++ items }

def drain (backlog : Backlog Item) (count : Nat) : Backlog Item :=
  ⟨backlog.accepted ++ backlog.pending.take count, backlog.pending.drop count⟩

variable {backlog : Backlog Item} {items : List Item}

@[simp] theorem passed_empty : (empty : Backlog Item).passed = [] := rfl

@[simp] theorem passed_push (backlog : Backlog Item) (items : List Item) :
    (backlog.push items).passed = backlog.passed ++ items := by
  simp [passed, push]

@[simp] theorem passed_drain (backlog : Backlog Item) (count : Nat) :
    (backlog.drain count).passed = backlog.passed := by
  simp [passed, drain]

@[simp] theorem drain_zero (backlog : Backlog Item) : backlog.drain 0 = backlog := by
  simp [drain]

/-- Items that find nothing waiting may be taken before the rest of them is stored. -/
theorem push_drain (idle : backlog.pending = []) (items : List Item) (count : Nat) :
    (backlog.push items).drain count =
      ⟨backlog.accepted ++ items.take count, items.drop count⟩ := by
  simp [push, drain, idle]

end Backlog

end MpNet.Library
