import Mathlib.Data.List.DropRight
import MpNet.Library.CString

/-!
# Scanning a string by a format

`sscanf` with the directives that take no numbers: white space, a literal character and
`%[..]`. The result is the list of the converted fields. `strip` removes the white space
around a string.
-/

set_option autoImplicit false

namespace MpNet.Library

inductive Directive where
  | space
  | char (byte : UInt8)
  /-- `%[..]`, with the bytes that it takes. -/
  | scanset (takes : UInt8 → Bool)

def sscanf : List Directive → List UInt8 → List (List UInt8)
  | [], _ => []
  | .space :: format, string => sscanf format (string.dropWhile isspace)
  | .char _ :: _, [] => []
  | .char byte :: format, first :: string => if first = byte then sscanf format string else []
  | .scanset takes :: format, string =>
      let field := string.takeWhile takes
      if field = [] then [] else field :: sscanf format (string.dropWhile takes)

def strip (string : List UInt8) : List UInt8 := (string.dropWhile isspace).rdropWhile isspace

/-- `tolower` on every byte, in the C locale. -/
def lowercase (string : List UInt8) : List UInt8 :=
  string.map fun byte => if 65 ≤ byte && byte ≤ 90 then byte + 32 else byte

example : sscanf [.scanset (· ≠ 61), .space, .char 61, .space, .scanset (· ≠ 59)]
    [97, 32, 61, 32, 98, 59] = [[97, 32], [98]] := by decide

section Scan

variable {format : List Directive} {string field rest : List UInt8} {takes : UInt8 → Bool}
  {byte : UInt8}

@[simp] theorem sscanf_nil (string : List UInt8) : sscanf [] string = [] := rfl

@[simp] theorem sscanf_space :
    sscanf (.space :: format) string = sscanf format (string.dropWhile isspace) := rfl

@[simp] theorem sscanf_char_nil : sscanf (.char byte :: format) [] = [] := rfl

@[simp] theorem sscanf_char :
    sscanf (.char byte :: format) (byte :: string) = sscanf format string := if_pos rfl

private theorem sscanf_char_ne {first : UInt8} (apart : first ≠ byte) :
    sscanf (.char byte :: format) (first :: string) = [] := if_neg apart

theorem sscanf_char_missing (head : string.head? ≠ some byte) :
    sscanf (.char byte :: format) string = [] := by
  cases string with
  | nil => rfl
  | cons first string => exact sscanf_char_ne fun same => head (congrArg some same)

@[simp] theorem sscanf_scanset_nil : sscanf (.scanset takes :: format) [] = [] := rfl

/-- A scanset takes a field up to a byte that it does not take. -/
theorem sscanf_scanset (some : field ≠ []) (taken : ∀ byte ∈ field, takes byte = true)
    (stops : takes byte = false) :
    sscanf (.scanset takes :: format) (field ++ byte :: rest) =
      field :: sscanf format (byte :: rest) := by
  simp [sscanf, List.takeWhile_append_of_pos taken, List.dropWhile_append_of_pos taken, stops, some]

theorem sscanf_scanset_all (some : field ≠ []) (taken : ∀ byte ∈ field, takes byte = true) :
    sscanf (.scanset takes :: format) field = field :: sscanf format [] := by
  have full : field.takeWhile takes = field := List.takeWhile_eq_self_iff.mpr taken
  have none : field.dropWhile takes = [] := List.dropWhile_eq_nil_iff.mpr taken
  simp [sscanf, full, none, some]

/-- The fields are no longer than the string. -/
theorem sscanf_length_le (format : List Directive) (string : List UInt8) :
    ∀ field ∈ sscanf format string, field.length ≤ string.length := by
  induction format, string using sscanf.induct with
  | case1 string => simp
  | case2 string format ih =>
      intro field member
      exact (ih field member).trans (List.dropWhile_sublist _).length_le
  | case3 byte format => simp
  | case4 byte format string ih =>
      intro field member
      rw [sscanf_char] at member
      exact (ih field member).trans (Nat.le_succ _)
  | case5 byte format first string apart =>
      rw [sscanf_char_ne apart]
      simp
  | case6 takes format string _ none =>
      intro field member
      simp only [sscanf] at member
      rw [if_pos none] at member
      cases member
  | case7 takes format string _ some ih =>
      intro field member
      simp only [sscanf] at member
      rw [if_neg some, List.mem_cons] at member
      rcases member with rfl | later
      · exact (List.takeWhile_sublist _).length_le
      · exact (ih field later).trans (List.dropWhile_sublist _).length_le

end Scan

theorem strip_length_le (string : List UInt8) : (strip string).length ≤ string.length :=
  (List.rdropWhile_prefix isspace _).length_le.trans (List.dropWhile_sublist _).length_le

end MpNet.Library
