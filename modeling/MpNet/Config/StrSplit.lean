import MpNet.Library.CString
import MpNet.Library.Cursor
import MpNet.Library.Tokens

/-!
# Cutting a line into fields

`str_split` on a buffer of bytes. The buffer is all that it may touch; an access beside it,
or to `field` beside its `n` entries, has no result.
-/

set_option autoImplicit false

namespace MpNet.Config

open Library

/-- The bytes whose entry in the table is not 0. -/
def defaultIfs (byte : UInt8) : Bool :=
  byte = 32 || byte = 9 || byte = 13 || byte = 10 || byte = 61

/-- The rounds of the loop; `free` entries of `field` are left. -/
def splitFrom (ifs : UInt8 → Bool) :
    Nat → Cursor UInt8 → List Nat → Option (Cursor UInt8 × List Nat)
  | 0, _, _ => none
  | free + 1, line, field => do
      let line ← line.forward ifs
      if (← line.read) = 0 then some (line, field)
      else
        let field := field ++ [line.pos]
        if free = 0 then
          let line ← line.advance ((← Cursor.distance 0 line.after) - 1)
          let line ← line.backward ifs
          let line ← line.next
          some (← line.store 0, field)
        else
          let line ← line.forward fun byte => byte ≠ 0 && !ifs byte
          if (← line.read) = 0 then some (line, field)
          else
            let line ← line.store 0
            splitFrom ifs free (← line.next) field

/-- `str_split(ifs, line, field, n)`: the buffer and the offsets in `field`. -/
def strSplit (ifs : Option (UInt8 → Bool)) (line : Cursor UInt8) (n : Nat) :
    Option (List UInt8 × List Nat) :=
  (splitFrom (ifs.getD defaultIfs) n line []).map fun (line, field) => (line.bytes, field)

/-- The string at an offset of a buffer. -/
def stringAt (buffer : List UInt8) (offset : Nat) : List UInt8 :=
  cstring (buffer.drop offset)

end MpNet.Config
