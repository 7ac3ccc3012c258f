import Mathlib.Data.List.Induction

/-!
# A pointer into a buffer

The bytes before the pointer, the innermost first, and the bytes from it on. An access
outside the buffer has no result. The scans are the loops that move the pointer while a
test holds of the byte that it points to.
-/

set_option autoImplicit false

namespace MpNet.Library

structure Cursor (Byte : Type*) where
  before : List Byte
  after : List Byte

namespace Cursor

variable {Byte : Type*}

/-- The offset of the pointer in the buffer. -/
def pos (cursor : Cursor Byte) : Nat := cursor.before.length

def bytes (cursor : Cursor Byte) : List Byte := cursor.before.reverse ++ cursor.after

def ofOffset (buffer : List Byte) (offset : Nat) : Cursor Byte :=
  ⟨(buffer.take offset).reverse, buffer.drop offset⟩

def read (cursor : Cursor Byte) : Option Byte := cursor.after.head?

def store (cursor : Cursor Byte) (byte : Byte) : Option (Cursor Byte) :=
  match cursor.after with
  | [] => none
  | _ :: after => some ⟨cursor.before, byte :: after⟩

def next (cursor : Cursor Byte) : Option (Cursor Byte) :=
  match cursor.after with
  | [] => none
  | byte :: after => some ⟨byte :: cursor.before, after⟩

def advance : Nat → Cursor Byte → Option (Cursor Byte)
  | 0, cursor => some cursor
  | count + 1, cursor => cursor.next.bind (advance count)

def forwardFrom (test : Byte → Bool) : List Byte → List Byte → Option (Cursor Byte)
  | _, [] => none
  | before, byte :: after =>
      if test byte then forwardFrom test (byte :: before) after else some ⟨before, byte :: after⟩

/-- `while (test(*p)) ++p`. -/
def forward (test : Byte → Bool) (cursor : Cursor Byte) : Option (Cursor Byte) :=
  forwardFrom test cursor.before cursor.after

def backwardFrom (test : Byte → Bool) : List Byte → List Byte → Option (Cursor Byte)
  | _, [] => none
  | [], byte :: after => if test byte then none else some ⟨[], byte :: after⟩
  | last :: before, byte :: after =>
      if test byte then backwardFrom test before (last :: byte :: after)
      else some ⟨last :: before, byte :: after⟩

/-- `while (test(*p)) --p`. -/
def backward (test : Byte → Bool) (cursor : Cursor Byte) : Option (Cursor Byte) :=
  backwardFrom test cursor.before cursor.after

/-- The number of bytes before the next `stop`. -/
def distance [DecidableEq Byte] (stop : Byte) : List Byte → Option Nat
  | [] => none
  | byte :: after => if byte = stop then some 0 else (distance stop after).map (· + 1)

theorem ofOffset_length (before after : List Byte) :
    ofOffset (before ++ after) before.length = ⟨before.reverse, after⟩ := by
  simp [ofOffset]

section Scans

variable {test : Byte → Bool} {before after passed : List Byte} {byte : Byte}

theorem forward_stops (passes : ∀ byte ∈ passed, test byte = true) (stops : test byte = false) :
    forward test ⟨before, passed ++ byte :: after⟩ =
      some ⟨passed.reverse ++ before, byte :: after⟩ := by
  unfold forward
  induction passed generalizing before with
  | nil => simp [forwardFrom, stops]
  | cons first passed ih =>
      have here : test first = true := passes first List.mem_cons_self
      have later := fun byte member => passes byte (List.mem_cons_of_mem first member)
      simp only [List.cons_append, forwardFrom, here, if_true]
      rw [ih later]
      simp

/-- The passed bytes lie between the byte on which the scan stops and the pointer. -/
theorem backward_stops {last : Byte} (passes : ∀ byte ∈ passed, test byte = true)
    (here : test last = true) (stops : test byte = false) :
    backward test ⟨passed.reverse ++ byte :: before, last :: after⟩ =
      some ⟨before, byte :: (passed ++ last :: after)⟩ := by
  unfold backward
  induction passed using List.reverseRecOn generalizing last after with
  | nil =>
      simp only [List.reverse_nil, List.nil_append, backwardFrom, here, if_true]
      cases before <;> simp [backwardFrom, stops]
  | append_singleton passed final ih =>
      have tested : test final = true := passes final (by simp)
      have earlier := fun byte member => passes byte (List.mem_append_left [final] member)
      simp only [List.reverse_append, List.reverse_singleton, List.nil_append, List.cons_append,
        backwardFrom, here, if_true]
      refine (ih earlier tested).trans ?_
      simp

theorem backward_stays (stops : test byte = false) :
    backward test ⟨before, byte :: after⟩ = some ⟨before, byte :: after⟩ := by
  unfold backward
  cases before <;> simp [backwardFrom, stops]

theorem advance_passed : advance passed.length ⟨before, passed ++ after⟩ =
    some ⟨passed.reverse ++ before, after⟩ := by
  induction passed generalizing before with
  | nil => rfl
  | cons first passed ih =>
      simp only [List.length_cons, advance, next, List.cons_append, Option.bind_some]
      rw [ih]
      simp

theorem distance_eq [DecidableEq Byte] {stop : Byte} (absent : stop ∉ passed) :
    distance stop (passed ++ stop :: after) = some passed.length := by
  induction passed with
  | nil => simp [distance]
  | cons first passed ih =>
      simp only [List.mem_cons, not_or] at absent
      simp [distance, Ne.symm absent.1, ih absent.2]

end Scans

end Cursor

end MpNet.Library
