import MpNet.Library.SlotTable

/-!
# The dictionary of the configuration

The functions of `dictionary.c`. A string is the list of its bytes; the arrays `key`, `val`
and `hash` are one list of slots, `size` long. Allocations succeed. Growing has no result
where the size of an array leaves the `int` that `mem_double` computes it in.
-/

set_option autoImplicit false

namespace MpNet.Config

open Library

/-- A pointer to a string, with the values that stand for none. -/
inductive CharPtr where
  | null
  -- `(char*)-1`
  | invalidKey
  | string (bytes : List UInt8)
  deriving DecidableEq

def CharPtr.ofOption : Option (List UInt8) → CharPtr
  | none => .null
  | some bytes => .string bytes

structure Slot where
  key : Option (List UInt8)
  val : Option (List UInt8)
  hash : UInt32
  deriving DecidableEq

def Slot.empty : Slot := ⟨none, none, 0⟩

structure Dictionary where
  n : Nat
  slots : List Slot
  deriving DecidableEq

def Dictionary.size (d : Dictionary) : Nat := d.slots.length

def dictMinSz : Nat := 128

/-- A `char` is signed; the conversion to `unsigned` extends its sign. -/
def charToUnsigned (byte : UInt8) : UInt32 := byte.toInt8.toInt32.toUInt32

def dictionaryHash (key : List UInt8) : UInt32 :=
  let hash := key.foldl (fun hash byte =>
    let hash := hash + charToUnsigned byte
    let hash := hash + (hash <<< 10)
    hash ^^^ (hash >>> 6)) 0
  let hash := hash + (hash <<< 3)
  let hash := hash ^^^ (hash >>> 11)
  hash + (hash <<< 15)

def dictionaryNew (size : Int) : Dictionary :=
  let size := if size < dictMinSz then dictMinSz else size.toNat
  ⟨0, List.replicate size .empty⟩

/-- The comparison of the loops over the slots. -/
def Slot.matches (hash : UInt32) (key : List UInt8) (slot : Slot) : Bool :=
  slot.key.any fun stored => hash = slot.hash && key = stored

def dictionaryGet (d : Dictionary) (key : List UInt8) (default : CharPtr) : CharPtr :=
  match d.slots.find? (Slot.matches (dictionaryHash key) key) with
  | some slot => .ofOption slot.val
  | none => default

/-- `mem_double` on the three arrays; `char*` has 8 bytes. -/
def Dictionary.grow (d : Dictionary) : Option Dictionary :=
  if 2 * (d.size * 8) < 2147483648 then
    some { d with slots := d.slots ++ List.replicate d.size .empty }
  else none

def Dictionary.setSlot (d : Dictionary) (i : Nat) (slot : Slot) : Dictionary :=
  { d with slots := d.slots.set i slot }

/-- "See if dictionary needs to grow". -/
def Dictionary.makeRoom (d : Dictionary) : Option Dictionary :=
  if d.n = d.size then d.grow else some d

/-- "Insert key in the first empty slot". -/
def Dictionary.insertKey (d : Dictionary) (key : List UInt8) (val : Option (List UInt8)) :
    Option Dictionary :=
  (SlotTable.scanRound (fun slot : Slot => slot.key.isNone) d.slots d.size d.n).map fun i =>
    { d.setSlot i ⟨some key, val, dictionaryHash key⟩ with n := d.n + 1 }

/-- The dictionary and the return value. -/
def dictionarySet (d : Dictionary) (key : Option (List UInt8)) (val : Option (List UInt8)) :
    Option (Dictionary × Int) :=
  match key with
  | none => some (d, -1)
  | some key =>
      let hash := dictionaryHash key
      match if 0 < d.n then d.slots.findIdx? (Slot.matches hash key) else none with
      | some i => some (d.setSlot i { (d.slots[i]?).getD .empty with val := val }, 0)
      | none => (d.makeRoom.bind (·.insertKey key val)).map (·, 0)

def dictionaryUnset (d : Dictionary) (key : Option (List UInt8)) : Dictionary :=
  match key with
  | none => d
  | some key =>
      match d.slots.findIdx? (Slot.matches (dictionaryHash key) key) with
      | some i => { d.setSlot i .empty with n := d.n - 1 }
      | none => d

end MpNet.Config
