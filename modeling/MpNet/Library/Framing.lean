import Mathlib.Algebra.Order.Ring.Int
import Mathlib.Data.List.Basic

/-!
# Cutting a stream into packets

A framer reads the length of the packet at the front of the bytes it is shown, or
0 while it needs more of them. `parse` cuts a whole stream; a packet has at most
`max` bytes, and a framer that still asks for more after `max` bytes is stuck.
-/

set_option autoImplicit false

namespace MpNet.Library

structure Framer (Byte : Type*) where
  lengthOf : List Byte → Int
  empty : lengthOf [] = 0
  /-- A length, once known, does not change with more bytes. -/
  stable : ∀ shown more, lengthOf shown ≠ 0 → lengthOf (shown ++ more) = lengthOf shown

/-- How a stream ends after its last packet. -/
inductive Ending (Byte : Type*) where
  | leftover (rest : List Byte)
  /-- The next length is negative or above `max`. -/
  | malformed
  /-- `max` bytes do not determine a length. -/
  | stuck

namespace Framer

variable {Byte : Type*}

/-- The reference parse: the successive packets and the end. -/
def parse (framer : Framer Byte) (max : Nat) (stream : List Byte) :
    List (List Byte) × Ending Byte :=
  let length := framer.lengthOf (stream.take max)
  if length = 0 then
    if max ≤ stream.length then ([], .stuck) else ([], .leftover stream)
  else if length < 0 ∨ max < length then ([], .malformed)
  else if length ≤ stream.length then
    let rest := framer.parse max (stream.drop length.toNat)
    (stream.take length.toNat :: rest.1, rest.2)
  else ([], .leftover stream)
termination_by stream.length
decreasing_by
  simp only [List.length_drop]
  omega

variable {framer : Framer Byte} {max : Nat} {shown future : List Byte}

private theorem lengthOf_take (short : shown.length ≤ max) (known : framer.lengthOf shown ≠ 0) :
    framer.lengthOf ((shown ++ future).take max) = framer.lengthOf shown := by
  rw [List.take_append, List.take_of_length_le short]
  exact framer.stable _ _ known

theorem parse_malformed (short : shown.length ≤ max)
    (outside : framer.lengthOf shown < 0 ∨ max < framer.lengthOf shown) :
    framer.parse max (shown ++ future) = ([], .malformed) := by
  rw [parse, lengthOf_take short (by omega), if_neg (by omega), if_pos outside]

theorem parse_stuck (full : shown.length = max) (unknown : framer.lengthOf shown = 0) :
    framer.parse max (shown ++ future) = ([], .stuck) := by
  rw [parse, List.take_append_of_le_length full.ge, List.take_of_length_le full.le,
    if_pos unknown, if_pos]
  simp only [List.length_append]
  omega

/-- Bytes that show no length, or only part of a packet, wait for more. -/
def Waiting (framer : Framer Byte) (max : Nat) (shown : List Byte) : Prop :=
  shown.length < max ∧
    (framer.lengthOf shown = 0 ∨
      shown.length < framer.lengthOf shown ∧ framer.lengthOf shown ≤ max)

theorem Waiting.parse (waiting : framer.Waiting max shown) :
    framer.parse max shown = ([], .leftover shown) := by
  obtain ⟨short, partly⟩ := waiting
  rw [Framer.parse, List.take_of_length_le short.le]
  rcases partly with unknown | ⟨longer, fits⟩
  · rw [if_pos unknown, if_neg (by omega)]
  · rw [if_neg (by omega), if_neg (by omega), if_neg (by omega)]

/-! ## Parsing piece by piece -/

/-- Parsing `shown` yields `packets` and continues at `rest`, whatever follows. -/
def Consumes (framer : Framer Byte) (max : Nat) (shown : List Byte) (packets : List (List Byte))
    (rest : List Byte) : Prop :=
  ∀ future, framer.parse max (shown ++ future) =
    (packets ++ (framer.parse max (rest ++ future)).1, (framer.parse max (rest ++ future)).2)

/-- Parsing `shown` yields `packets` and ends there, whatever follows. -/
def Ends (framer : Framer Byte) (max : Nat) (shown : List Byte) (packets : List (List Byte))
    (ending : Ending Byte) : Prop :=
  ∀ future, framer.parse max (shown ++ future) = (packets, ending)

theorem consumes_refl (framer : Framer Byte) (max : Nat) (shown : List Byte) :
    framer.Consumes max shown [] shown := fun _ => rfl

theorem consumes_packet (short : shown.length ≤ max) (positive : 0 < framer.lengthOf shown)
    (whole : framer.lengthOf shown ≤ shown.length) :
    framer.Consumes max shown [shown.take (framer.lengthOf shown).toNat]
      (shown.drop (framer.lengthOf shown).toNat) := by
  intro future
  have whole' : framer.lengthOf shown ≤ (shown ++ future).length := by
    simp only [List.length_append]
    omega
  rw [parse, lengthOf_take short (by omega), if_neg (by omega), if_neg (by omega),
    if_pos whole', List.take_append_of_le_length (by omega),
    List.drop_append_of_le_length (by omega)]
  rfl

theorem Consumes.trans {first second : List (List Byte)} {middle rest : List Byte}
    (consumes : framer.Consumes max shown first middle)
    (next : framer.Consumes max middle second rest) :
    framer.Consumes max shown (first ++ second) rest := by
  intro future
  rw [consumes future, next future, List.append_assoc]

theorem Consumes.ends {first second : List (List Byte)} {middle : List Byte}
    {ending : Ending Byte} (consumes : framer.Consumes max shown first middle)
    (next : framer.Ends max middle second ending) :
    framer.Ends max shown (first ++ second) ending := by
  intro future
  rw [consumes future, next future]

theorem Consumes.append {packets : List (List Byte)} {rest : List Byte}
    (consumes : framer.Consumes max shown packets rest) (more : List Byte) :
    framer.Consumes max (shown ++ more) packets (rest ++ more) := by
  intro future
  simpa only [List.append_assoc] using consumes (more ++ future)

theorem Ends.append {packets : List (List Byte)} {ending : Ending Byte}
    (ends : framer.Ends max shown packets ending) (more : List Byte) :
    framer.Ends max (shown ++ more) packets ending := by
  intro future
  simpa only [List.append_assoc] using ends (more ++ future)

end Framer

end MpNet.Library
