import MpNet.Config.IniDump
import MpNet.Config.IniParserProperties

/-!
# Lines that are read back

What `iniparser_line` finds in a section and a key as `iniparser_dumpsection_ini` prints them.
-/

set_option autoImplicit false

namespace MpNet.Config

open Library

/-! ## What the syntax can express -/

structure SectionName (s : List UInt8) : Prop where
  nonempty : s ≠ []
  trimmed : strip s = s
  lower : lowercase s = s
  plain : ∀ byte ∈ s, byte ≠ 93 ∧ byte ≠ 58 ∧ byte ≠ 10 ∧ byte ≠ 0
  short : s.length ≤ 1020

structure KeyName (key : List UInt8) : Prop where
  nonempty : key ≠ []
  trimmed : strip key = key
  lower : lowercase key = key
  plain : ∀ byte ∈ key, byte ≠ 61 ∧ byte ≠ 10 ∧ byte ≠ 0
  head : key.head? ≠ some 35 ∧ key.head? ≠ some 59 ∧ key.head? ≠ some 91

structure ValueText (val : List UInt8) : Prop where
  trimmed : strip val = val
  plain : ∀ byte ∈ val, byte ≠ 59 ∧ byte ≠ 35 ∧ byte ≠ 10 ∧ byte ≠ 0
  head : val.head? ≠ some 34 ∧ val.head? ≠ some 39
  last : val.getLast? ≠ some 92

/-! ## Reading back a line -/

section Lines

variable {sect s key val : List UInt8}

theorem strip_eq_self_iff :
    strip s = s ↔ s.dropWhile isspace = s ∧ s.rdropWhile isspace = s := by
  constructor
  · intro trimmed
    have shorter : (strip s).length ≤ (s.dropWhile isspace).length :=
      (List.rdropWhile_prefix isspace _).length_le
    rw [trimmed] at shorter
    have front : s.dropWhile isspace = s := (List.dropWhile_suffix isspace).eq_of_length_le shorter
    unfold strip at trimmed
    rw [front] at trimmed
    exact ⟨front, trimmed⟩
  · rintro ⟨front, back⟩
    rw [strip, front, back]

private theorem head_not_space (front : s.dropWhile isspace = s) {first : UInt8} {rest : List UInt8}
    (split : s = first :: rest) : isspace first = false := by
  subst split
  by_contra space
  rw [Bool.not_eq_false] at space
  rw [List.dropWhile_cons_of_pos space] at front
  have length := (List.dropWhile_sublist isspace (l := rest)).length_le
  rw [front, List.length_cons] at length
  omega

private theorem dropWhile_append_solid (some : s ≠ []) (front : s.dropWhile isspace = s)
    (rest : List UInt8) : (s ++ rest).dropWhile isspace = s ++ rest := by
  cases s with
  | nil => exact absurd rfl some
  | cons first more =>
      have solid := head_not_space front rfl
      simp [solid]

theorem rdropWhile_append_solid (some : s ≠ []) (back : s.rdropWhile isspace = s)
    (before : List UInt8) : (before ++ s).rdropWhile isspace = before ++ s := by
  rw [List.rdropWhile_eq_self_iff] at back ⊢
  intro _
  rw [List.getLast_append_of_ne_nil _ some]
  exact back some

private theorem rdropWhile_blanks (count : Nat) :
    (s ++ List.replicate count 32).rdropWhile isspace = s.rdropWhile isspace := by
  induction count with
  | zero => simp
  | succ count ih =>
      rw [List.replicate_succ', ← List.append_assoc,
        List.rdropWhile_concat_pos _ _ _ (by decide), ih]

/-- The blanks behind a key are stripped again. -/
theorem strip_padded (some : s ≠ []) (trimmed : strip s = s) (count : Nat) :
    strip (s ++ List.replicate count 32) = s := by
  obtain ⟨front, back⟩ := strip_eq_self_iff.mp trimmed
  rw [strip, dropWhile_append_solid some front, rdropWhile_blanks, back]

theorem strlwc_self (lower : lowercase s = s) (short : s.length ≤ asciiLineSz) : strlwc s = s := by
  rw [strlwc, List.take_of_length_le short, lower]

/-- A section is read back. -/
theorem iniparserLine_header (name : SectionName s) :
    iniparserLine sect (91 :: s ++ [93]) = some (.section s) := by
  have short : (91 :: s ++ [93]).length ≤ asciiLineSz := by
    have bound := name.short
    simp only [List.length_append, List.length_cons, List.length_nil]
    unfold asciiLineSz
    omega
  have trimmed : strip (91 :: s ++ [93]) = 91 :: s ++ [93] := by
    rw [strip_eq_self_iff]
    exact ⟨by simp [isspace], rdropWhile_append_solid (by simp) (by decide) _⟩
  have fields : sscanf sectionFormat (91 :: s ++ [93]) = [s] := by
    unfold sectionFormat
    rw [List.cons_append, sscanf_char, sscanf_scanset name.nonempty _ (by decide), sscanf_nil]
    exact fun byte member => by simpa using (name.plain byte member).1
  have fits : s.length ≤ asciiLineSz := name.short.trans (by decide)
  have last : (91 :: s ++ [93]).getLast? = some 93 := List.getLast?_concat ..
  unfold iniparserLine
  rw [strstrip_short short, Option.bind_eq_bind, Option.bind_some, trimmed, if_neg (by simp),
    if_neg (by simp), if_pos ⟨rfl, last⟩, fields, List.headD_cons, strstrip_short fits, name.trimmed]
  simp [strlwc_self name.lower fits]

/-! ### Keys -/

/-- Behind the equal sign no quotation begins. -/
theorem scan_quoted (taken : ∀ byte ∈ key, byte ≠ 61) (solid : key ≠ [])
    (head : (val.dropWhile isspace).head? ≠ some 34 ∧ (val.dropWhile isspace).head? ≠ some 39) :
    scanPair doubleQuoted (key ++ 61 :: val) = none ∧
      scanPair singleQuoted (key ++ 61 :: val) = none := by
  have passes : ∀ byte ∈ key, (byte ≠ 61 : Bool) = true := fun byte member => by
    simpa using taken byte member
  have equal : (61 :: val).dropWhile isspace = 61 :: val := by simp [isspace]
  unfold scanPair doubleQuoted singleQuoted
  constructor
  · rw [sscanf_scanset solid passes (by decide), sscanf_space, equal, sscanf_char, sscanf_space,
      sscanf_char_missing head.1]
  · rw [sscanf_scanset solid passes (by decide), sscanf_space, equal, sscanf_char, sscanf_space,
      sscanf_char_missing head.2]

theorem keyLine_eq (key val : List UInt8) :
    keyLine key val = (key ++ List.replicate (30 - key.length + 1) 32) ++ 61 :: 32 :: val := by
  have equal : literal " = " = [32, 61, 32] := by decide
  simp [keyLine, equal, List.replicate_succ']

private theorem iniparserLine_assignment (name : KeyName key) (text : ValueText val) {blanks : Nat}
    {tail line : List UInt8} (whole : line = key ++ List.replicate blanks 32 ++ 61 :: tail)
    (trimmed : strip line = line) (short : line.length ≤ asciiLineSz)
    (quotes : (tail.dropWhile isspace).head? ≠ some 34 ∧ (tail.dropWhile isspace).head? ≠ some 39)
    (scanned : scanPair plainValue line = some (key ++ List.replicate blanks 32, val) ∨
      scanPair plainValue line = none ∧ val = [] ∧ scanPair commentOnly line = none ∧
        ∃ equal, scanPair equalOnly line = some (key ++ List.replicate blanks 32, equal)) :
    iniparserLine sect line = some (.value key val) := by
  have padded : key ++ List.replicate blanks 32 ≠ [] := by simp [name.nonempty]
  have noEqual : ∀ byte ∈ key ++ List.replicate blanks 32, byte ≠ 61 := by
    intro byte member
    rcases List.mem_append.mp member with inKey | blank
    · exact (name.plain byte inKey).1
    · rw [(List.mem_replicate.mp blank).2]
      decide
  have head : line.head? = key.head? := by
    rw [whole, List.append_assoc, List.head?_append_of_ne_nil _ name.nonempty]
  have size : line.length = key.length + blanks + tail.length + 1 := by
    rw [whole]
    simp [Nat.add_assoc]
  have solid : line ≠ [] := by
    rintro rfl
    simp at size
  have keyFits : key.length ≤ asciiLineSz := by omega
  have paddedFits : (key ++ List.replicate blanks 32).length ≤ asciiLineSz := by
    rw [List.length_append, List.length_replicate]
    omega
  obtain ⟨double, single⟩ := scan_quoted noEqual padded quotes
  rw [← whole] at double single
  obtain ⟨noHash, noSemicolon, noBracket⟩ := name.head
  have notComment : ¬ (line.head? = some 35 ∨ line.head? = some 59) := by
    rw [head]
    exact not_or.mpr ⟨noHash, noSemicolon⟩
  have notHeader : ¬ (line.head? = some 91 ∧ line.getLast? = some 93) := by
    rw [head]
    exact fun both => noBracket both.1
  unfold iniparserLine
  rw [strstrip_short short, Option.bind_eq_bind, Option.bind_some, trimmed, if_neg solid,
    if_neg notComment, if_neg notHeader, double, single]
  rcases scanned with plain | ⟨noPlain, rfl, noComment, equal, found⟩
  · have valFits : val.length ≤ asciiLineSz := (scanPair_length_le plain).2.trans short
    have notEmpty : ¬ (val = [34, 34] ∨ val = [39, 39]) := by
      rintro (rfl | rfl)
      · exact text.head.1 rfl
      · exact text.head.2 rfl
    simp [plain, strstrip_short paddedFits, strstrip_short valFits,
      strip_padded name.nonempty name.trimmed, text.trimmed, notEmpty,
      strlwc_self name.lower keyFits]
  · simp [noPlain, noComment, found, strstrip_short paddedFits,
      strip_padded name.nonempty name.trimmed, strlwc_self name.lower keyFits]

/-- A key is read back with its value; the blank behind the equal sign of an empty value is
not read. -/
theorem iniparserLine_keyLine (name : KeyName key) (text : ValueText val)
    (short : (keyLine key val).length ≤ asciiLineSz) :
    iniparserLine sect ((keyLine key val).rdropWhile isspace) = some (.value key val) := by
  have padded : key ++ List.replicate (30 - key.length + 1) 32 ≠ [] := by simp [name.nonempty]
  have passes : ∀ byte ∈ key ++ List.replicate (30 - key.length + 1) 32, (byte ≠ 61 : Bool) = true := by
    intro byte member
    rcases List.mem_append.mp member with inKey | blank
    · simpa using (name.plain byte inKey).1
    · rw [(List.mem_replicate.mp blank).2]
      decide
  obtain ⟨front, -⟩ := strip_eq_self_iff.mp name.trimmed
  obtain ⟨valFront, valBack⟩ := strip_eq_self_iff.mp text.trimmed
  have equal (tail : List UInt8) : (61 :: tail).dropWhile isspace = 61 :: tail := by simp [isspace]
  rw [keyLine_eq] at short ⊢
  by_cases empty : val = []
  · subst empty
    have line : ((key ++ List.replicate (30 - key.length + 1) 32) ++ [61, 32]).rdropWhile isspace =
        (key ++ List.replicate (30 - key.length + 1) 32) ++ [61] := by
      rw [List.append_cons, List.rdropWhile_concat_pos _ _ _ (by decide),
        rdropWhile_append_solid (by simp) (by decide)]
    rw [line]
    refine iniparserLine_assignment name text rfl ?_ ?_ (by simp) (.inr ⟨?_, rfl, ?_, [61], ?_⟩)
    · refine strip_eq_self_iff.mpr ⟨?_, rdropWhile_append_solid (by simp) (by decide) _⟩
      rw [List.append_assoc, dropWhile_append_solid name.nonempty front]
    · refine le_trans ?_ short
      simp
    · unfold scanPair plainValue
      rw [sscanf_scanset padded passes (by decide), sscanf_space, equal, sscanf_char]
      rfl
    · unfold scanPair commentOnly
      rw [sscanf_scanset padded passes (by decide), sscanf_space, equal, sscanf_char]
      rfl
    · unfold scanPair equalOnly
      rw [sscanf_scanset padded passes (by decide), sscanf_space, equal]
      rfl
  · have line : ((key ++ List.replicate (30 - key.length + 1) 32) ++ 61 :: 32 :: val).rdropWhile
        isspace = (key ++ List.replicate (30 - key.length + 1) 32) ++ 61 :: 32 :: val := by
      rw [List.append_cons, List.append_cons, rdropWhile_append_solid empty valBack]
    have blank : (32 :: val).dropWhile isspace = val :=
      (List.dropWhile_cons_of_pos (by decide)).trans valFront
    have taken : ∀ byte ∈ val, (byte ≠ 59 && byte ≠ 35 : Bool) = true := fun byte member => by
      simpa using ⟨(text.plain byte member).1, (text.plain byte member).2.1⟩
    rw [line]
    refine iniparserLine_assignment name text rfl ?_ short (blank.symm ▸ text.head) (.inl ?_)
    · refine strip_eq_self_iff.mpr ⟨?_, line⟩
      rw [List.append_assoc, dropWhile_append_solid name.nonempty front]
    · unfold scanPair plainValue
      rw [sscanf_scanset padded passes (by decide), sscanf_space, equal, sscanf_char, sscanf_space,
        blank, sscanf_scanset_all empty taken, sscanf_nil]

end Lines

end MpNet.Config
