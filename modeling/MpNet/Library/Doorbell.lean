import Mathlib.Data.List.Basic

/-!
# A queue with a doorbell

A producer appends an item to a queue and then rings: it writes one byte to a
bounded pipe. The consumer takes items off the queue and reads bytes off the pipe,
in an order of its own. `Rung` is the promise a sleeping consumer relies on.
-/

set_option autoImplicit false

namespace MpNet.Library

structure Doorbell (Item : Type*) where
  queue : List Item
  /-- The last item appended has not been rung for. -/
  ringing : Bool
  /-- The unread bytes. -/
  pipe : Nat

namespace Doorbell

variable {Item : Type*} {bell : Doorbell Item}

/-- The items in the queue whose push is over. -/
def completed (bell : Doorbell Item) : List Item :=
  if bell.ringing then bell.queue.dropLast else bell.queue

/-- A queue that holds a completed item has a byte to read. -/
def Rung (bell : Doorbell Item) : Prop := bell.completed ≠ [] → 0 < bell.pipe

def append (bell : Doorbell Item) (item : Item) : Doorbell Item :=
  { bell with queue := bell.queue ++ [item], ringing := true }

/-- A full pipe refuses the byte. -/
def ring (capacity : Nat) (bell : Doorbell Item) : Doorbell Item :=
  { bell with
    ringing := false
    pipe := if bell.pipe < capacity then bell.pipe + 1 else bell.pipe }

def take (bell : Doorbell Item) : Doorbell Item := { bell with queue := bell.queue.tail }

def read (bell : Doorbell Item) (count : Nat) : Doorbell Item :=
  { bell with pipe := bell.pipe - count }

theorem Rung.append (rung : bell.Rung) (quiet : bell.ringing = false) (item : Item) :
    (bell.append item).Rung := by
  intro occupied
  apply rung
  simpa [completed, Doorbell.append, quiet] using occupied

theorem rung_ring {capacity : Nat} (room : 0 < capacity) (bell : Doorbell Item) :
    (bell.ring capacity).Rung := by
  intro _
  simp only [ring]
  split <;> omega

theorem Rung.take (rung : bell.Rung) : bell.take.Rung := by
  intro occupied
  apply rung
  intro none
  apply occupied
  cases ringing : bell.ringing with
  | false =>
      simp only [completed, ringing, Bool.false_eq_true, if_false] at none
      simp [completed, Doorbell.take, ringing, none]
  | true =>
      simp only [completed, ringing, if_true] at none
      simp [completed, Doorbell.take, ringing, ← List.tail_dropLast, none]

/-- Reading is harmless exactly when no completed item waits or bytes remain. -/
theorem rung_read_iff {count : Nat} :
    (bell.read count).Rung ↔ bell.completed = [] ∨ count < bell.pipe := by
  have same : (bell.read count).completed = bell.completed := rfl
  constructor
  · intro rung
    by_cases none : bell.completed = []
    · exact .inl none
    · have left : 0 < bell.pipe - count := rung (same ▸ none)
      exact .inr (by omega)
  · rintro (none | more) occupied
    · exact absurd none (same ▸ occupied)
    · simp only [read]
      omega

end Doorbell

end MpNet.Library
