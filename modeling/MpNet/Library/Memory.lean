import Mathlib.Algebra.Order.Ring.Int
import Mathlib.Data.List.Basic
import Mathlib.Order.Interval.Finset.Nat

/-!
# Byte-addressed memory

Memory is a function from addresses to bytes. `write` stores a byte string,
`read` loads one, and `Holds` says that a byte string is stored at an address.
-/

set_option autoImplicit false

namespace MpNet.Library

abbrev Memory := Int → UInt8

namespace Memory

def write (memory : Memory) (address : Int) (bytes : List UInt8) : Memory := fun position =>
  if address ≤ position ∧ position < address + bytes.length then
    bytes.getD (position - address).toNat 0
  else memory position

def read (memory : Memory) (address : Int) (count : Nat) : List UInt8 :=
  (List.range count).map fun offset : Nat => memory (address + offset)

def Holds (memory : Memory) (address : Int) (bytes : List UInt8) : Prop :=
  memory.read address bytes.length = bytes

def Agree (before after : Memory) (low high : Int) : Prop :=
  ∀ position, low ≤ position → position < high → after position = before position

@[simp] theorem read_zero (memory : Memory) (address : Int) : memory.read address 0 = [] := rfl

@[simp] theorem read_length (memory : Memory) (address : Int) (count : Nat) :
    (memory.read address count).length = count := by simp [read]

theorem read_take {memory : Memory} {address : Int} {count shorter : Nat}
    (short : shorter ≤ count) :
    (memory.read address count).take shorter = memory.read address shorter := by
  unfold read
  rw [← List.map_take, List.take_range, Nat.min_eq_left short]

theorem read_drop {memory : Memory} {address : Int} {count skipped : Nat} :
    (memory.read address count).drop skipped =
      memory.read (address + skipped) (count - skipped) := by
  apply List.ext_getElem
  · simp
  · intro offset _ _
    simp [read, add_assoc]

theorem holds_iff {memory : Memory} {address : Int} {bytes : List UInt8} :
    memory.Holds address bytes ↔
      ∀ offset (inside : offset < bytes.length), memory (address + offset) = bytes[offset] := by
  constructor
  · intro holds offset inside
    have same := congrArg (fun stored : List UInt8 => stored[offset]?) holds
    simpa [read, inside] using same
  · intro cells
    apply List.ext_getElem (by simp)
    intro offset _ inside
    simpa [read] using cells offset inside

theorem holds_append {memory : Memory} {address : Int} {first second : List UInt8} :
    memory.Holds address (first ++ second) ↔
      memory.Holds address first ∧ memory.Holds (address + first.length) second := by
  have split : memory.read address (first.length + second.length) =
      memory.read address first.length ++ memory.read (address + first.length) second.length := by
    simp [read, List.range_add, Function.comp_def, add_assoc]
  unfold Holds
  rw [List.length_append, split]
  exact ⟨fun same => List.append_inj same (by simp), fun same => by rw [same.1, same.2]⟩

theorem Holds.agree {before after : Memory} {address : Int} {bytes : List UInt8}
    (holds : before.Holds address bytes)
    (agree : Agree before after address (address + bytes.length)) : after.Holds address bytes := by
  rw [holds_iff] at holds ⊢
  intro offset inside
  rw [agree _ (by omega) (by omega), holds offset inside]

theorem write_of_outside {memory : Memory} {address position : Int} {bytes : List UInt8}
    (outside : position < address ∨ address + bytes.length ≤ position) :
    memory.write address bytes position = memory position := by
  unfold write
  rw [if_neg (by omega)]

theorem holds_write (memory : Memory) (address : Int) (bytes : List UInt8) :
    (memory.write address bytes).Holds address bytes := by
  rw [holds_iff]
  intro offset inside
  unfold write
  have shifted : (address + (offset : Int) - address).toNat = offset := by omega
  rw [if_pos (by omega), shifted]
  simp [inside]

theorem Agree.narrow {before after : Memory} {low high innerLow innerHigh : Int}
    (agree : Agree before after low high) (above : low ≤ innerLow) (below : innerHigh ≤ high) :
    Agree before after innerLow innerHigh :=
  fun position inLow inHigh => agree position (by omega) (by omega)

theorem agree_write {memory : Memory} {address low high : Int} {bytes : List UInt8}
    (apart : high ≤ address ∨ address + bytes.length ≤ low) :
    Agree memory (memory.write address bytes) low high := by
  intro position inLow inHigh
  exact write_of_outside (by omega)

/-- Bytes written behind others extend them. -/
theorem read_write_append (memory : Memory) (count : Nat) (bytes : List UInt8) :
    (memory.write count bytes).read 0 (count + bytes.length) = memory.read 0 count ++ bytes := by
  have held : memory.Holds 0 (memory.read 0 count) := by rw [Holds, read_length]
  have both : (memory.write count bytes).Holds 0 (memory.read 0 count ++ bytes) := by
    refine holds_append.mpr ⟨held.agree (agree_write (.inl ?_)), ?_⟩
    · rw [read_length, Int.zero_add]
    · rw [read_length, Int.zero_add]
      exact holds_write ..
  rwa [Holds, List.length_append, read_length] at both

end Memory

/-!
## Little-endian 32-bit words
-/

/-- The four bytes of a 32-bit word, least significant first. -/
def wordBytes (word : UInt32) : List UInt8 :=
  [UInt8.ofNat word.toNat, UInt8.ofNat (word.toNat / 256), UInt8.ofNat (word.toNat / 65536),
    UInt8.ofNat (word.toNat / 16777216)]

@[simp] theorem wordBytes_length (word : UInt32) : (wordBytes word).length = 4 := rfl

def Memory.readWord (memory : Memory) (address : Int) : UInt32 :=
  UInt32.ofNat ((memory address).toNat + 256 * (memory (address + 1)).toNat +
    65536 * (memory (address + 2)).toNat + 16777216 * (memory (address + 3)).toNat)

theorem Memory.Holds.readWord {memory : Memory} {address : Int} {word : UInt32}
    (holds : memory.Holds address (wordBytes word)) : memory.readWord address = word := by
  rw [Memory.holds_iff] at holds
  have byte0 := holds 0 (by simp)
  have byte1 := holds 1 (by simp)
  have byte2 := holds 2 (by simp)
  have byte3 := holds 3 (by simp)
  simp only [wordBytes, List.getElem_cons_zero, List.getElem_cons_succ, Nat.cast_zero,
    Nat.cast_one, Nat.cast_ofNat, Int.add_zero] at byte0 byte1 byte2 byte3
  have bound := word.toNat_lt
  apply UInt32.toNat_inj.mp
  simp only [Memory.readWord, byte0, byte1, byte2, byte3, UInt32.toNat_ofNat', UInt8.toNat_ofNat']
  omega

/-! ## Fields of a packed record -/

/-- The two bytes of a 16-bit word, least significant first. -/
def halfBytes (half : UInt16) : List UInt8 :=
  [UInt8.ofNat half.toNat, UInt8.ofNat (half.toNat / 256)]

@[simp] theorem halfBytes_length (half : UInt16) : (halfBytes half).length = 2 := rfl

def Memory.readHalf (memory : Memory) (address : Int) : UInt16 :=
  UInt16.ofNat ((memory address).toNat + 256 * (memory (address + 1)).toNat)

theorem Memory.Holds.readHalf {memory : Memory} {address : Int} {half : UInt16}
    (holds : memory.Holds address (halfBytes half)) : memory.readHalf address = half := by
  rw [Memory.holds_iff] at holds
  have byte0 := holds 0 (by simp)
  have byte1 := holds 1 (by simp)
  simp only [halfBytes, List.getElem_cons_zero, List.getElem_cons_succ, Nat.cast_zero,
    Nat.cast_one, Int.add_zero] at byte0 byte1
  have bound := half.toNat_lt
  apply UInt16.toNat_inj.mp
  simp only [Memory.readHalf, byte0, byte1, UInt16.toNat_ofNat', UInt8.toNat_ofNat']
  omega

/-! ## Ranges in a buffer -/

structure ByteRange where
  first : Nat
  count : Nat
  deriving DecidableEq

namespace ByteRange

def offsets (range : ByteRange) : Finset Nat := Finset.Ico range.first (range.first + range.count)

/-- Within the first `size` bytes. -/
def Inside (range : ByteRange) (size : Nat) : Prop := range.first + range.count ≤ size

instance (range : ByteRange) (size : Nat) : Decidable (range.Inside size) :=
  inferInstanceAs (Decidable (_ ≤ _))

/-- A range and the range of its size at the front are apart when it starts behind that. -/
theorem offsets_disjoint_iff {first count : Nat} :
    Disjoint (offsets ⟨first, count⟩) (offsets ⟨0, count⟩) ↔ count ≤ first := by
  unfold offsets
  rw [Finset.disjoint_left]
  simp only [Finset.mem_Ico]
  constructor
  · intro apart
    by_contra near
    exact apart ⟨le_rfl, by omega⟩ (by omega)
  · intro far offset inside
    omega

end ByteRange

/-! ## A memory from its bytes -/

def Memory.ofBytes (bytes : List UInt8) : Memory := Memory.write (fun _ => 0) 0 bytes

theorem Memory.holds_ofBytes (bytes : List UInt8) : (Memory.ofBytes bytes).Holds 0 bytes :=
  Memory.holds_write ..

end MpNet.Library
