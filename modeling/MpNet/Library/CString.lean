import Mathlib.Data.List.TakeWhile
import MpNet.Library.CInt

/-!
# Strings of C

A string is the list of the bytes before its terminator; an array holds a string when its
bytes before the first 0 are those of the string.
-/

set_option autoImplicit false

namespace MpNet.Library

def isspace (byte : UInt8) : Bool := byte = 32 || (9 ≤ byte && byte ≤ 13)

def isdigit (byte : UInt8) : Bool := 48 ≤ byte && byte ≤ 57

def digitsValue (digits : List UInt8) : Nat :=
  digits.foldl (fun value digit => 10 * value + (digit.toNat - 48)) 0

/-- `strtol(string, NULL, 10)` with a 64-bit `long`; the result is saturated. -/
def strtol (string : List UInt8) : Int :=
  let number := string.dropWhile isspace
  let signed := number.head? = some 43 ∨ number.head? = some 45
  let digits := if signed then number.tail else number
  let value : Int := digitsValue (digits.takeWhile isdigit)
  max (-9223372036854775808)
    (min 9223372036854775807 (if number.head? = some 45 then -value else value))

/-- The value of a byte as a digit or a letter. -/
def digitOf (byte : UInt8) : Option Nat :=
  if isdigit byte then some (byte.toNat - 48)
  else if 97 ≤ byte && byte ≤ 122 then some (byte.toNat - 87)
  else if 65 ≤ byte && byte ≤ 90 then some (byte.toNat - 55)
  else none

def isdigitIn (base : Nat) (byte : UInt8) : Bool := (digitOf byte).any (· < base)

/-- The base that a number shows, with the digits that follow. -/
def numberBase : List UInt8 → Nat × List UInt8
  | 48 :: letter :: digit :: rest =>
      if (letter = 120 || letter = 88) && isdigitIn 16 digit then (16, digit :: rest)
      else (8, 48 :: letter :: digit :: rest)
  | 48 :: rest => (8, 48 :: rest)
  | digits => (10, digits)

/-- `strtol(string, NULL, 0)` with a 64-bit `long`; the result is saturated. -/
def strtolAnyBase (string : List UInt8) : Int :=
  let number := string.dropWhile isspace
  let signed := number.head? = some 43 ∨ number.head? = some 45
  let (base, digits) := numberBase (if signed then number.tail else number)
  let value : Int := (digits.takeWhile (isdigitIn base)).foldl
    (fun value digit => base * value + ((digitOf digit).getD 0)) 0
  max (-9223372036854775808)
    (min 9223372036854775807 (if number.head? = some 45 then -value else value))

example : strtolAnyBase [45, 48, 120, 70, 102] = -255 ∧ strtolAnyBase [32, 48, 52, 50] = 34 := by
  decide

def atoi (string : List UInt8) : Int := i32 (strtol string)

example : atoi [32, 45, 52, 50, 120] = -42 := by decide

/-- The bytes of a literal. -/
def literal (text : String) : List UInt8 := text.toList.map fun char => UInt8.ofNat char.toNat

/-- The string in an array. -/
def cstring (array : List UInt8) : List UInt8 := array.takeWhile (· ≠ 0)

/-- `strncpy(array, string, count)`. -/
def strncpy (array string : List UInt8) (count : Nat) : List UInt8 :=
  string.take count ++ List.replicate (count - string.length) 0 ++ array.drop count

theorem cstring_eq {string rest : List UInt8} (noNul : 0 ∉ string) :
    cstring (string ++ 0 :: rest) = string := by
  have passes : ∀ byte ∈ string, decide (byte ≠ 0) = true := fun byte member => by
    simpa using ne_of_mem_of_not_mem member noNul
  rw [cstring, List.takeWhile_append_of_pos passes]
  simp

theorem cstring_noNul (array : List UInt8) : 0 ∉ cstring array := by
  intro member
  simpa using List.mem_takeWhile_imp member

/-- The array keeps a terminator behind the bytes that may be written. -/
theorem cstring_strncpy {array string rest : List UInt8} {count : Nat} (noNul : 0 ∉ string)
    (ends : array.drop count = 0 :: rest) :
    cstring (strncpy array string count) = string.take count := by
  have kept : 0 ∉ string.take count := fun member => noNul (List.mem_of_mem_take member)
  obtain ⟨rest', padded⟩ : ∃ rest',
      List.replicate (count - string.length) 0 ++ array.drop count = 0 :: rest' := by
    rw [ends]
    cases count - string.length with
    | zero => exact ⟨rest, rfl⟩
    | succ fill => exact ⟨_, rfl⟩
  rw [strncpy, List.append_assoc, padded, cstring_eq kept]

end MpNet.Library
