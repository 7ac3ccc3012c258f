import MpNet.Config.IniParserProperties

/-!
# How loading a configuration file ends

Every file is a sequence of lines that fit in the buffer, and a rest without a newline in
reach. The load leaves its buffers, fails or gives the meaning of the lines, and which of
these it does is read off the lines and the rest.
-/

set_option autoImplicit false

namespace MpNet.Config

open Library

/-- The lines of a file, and what is left behind the last newline in reach. -/
structure Splits (file : List UInt8) (lines : List (List UInt8)) (rest : List UInt8) : Prop where
  file : file = textOf lines ++ rest
  strings : ∀ line ∈ lines, 0 ∉ line ∧ 10 ∉ line
  restNoNul : 0 ∉ rest
  short : ShortLines lines
  cut : 10 ∉ rest.take (1023 - (run carried [] lines).length)
  few : lines.length ≤ 134217728

/-- `fgets` meets the end of the file, or of the buffer, before a newline. A single byte at
the end of the file is passed over. -/
def Truncated (lines : List (List UInt8)) (rest : List UInt8) : Prop :=
  rest ≠ [] ∧ ¬ (run carried [] lines = [] ∧ rest.length = 1)

/-- A section or a value. -/
def IniMeaning.Assigns (m : IniMeaning) (text : List UInt8) : Prop :=
  (∃ name, iniparserLine m.sect text = some (.section name)) ∨
    ∃ key val, iniparserLine m.sect text = some (.value key val)

/-- There is a syntax error with no assignment behind it. -/
def EndsInError (texts : List (List UInt8)) : Prop :=
  ∃ before text after, texts = before ++ text :: after ∧
    iniparserLine (run IniMeaning.statement .start before).sect text = some .error ∧
    Along IniMeaning.statement (fun m text => ¬ m.Assigns text)
      (run IniMeaning.statement .start (before ++ [text])) after

/-! ## Every file -/

private theorem carried_length_le {last line : List UInt8} (short : (last ++ line).length ≤ 1022) :
    (carried last line).length ≤ 1021 := by
  have shorter := (List.rdropWhile_prefix isspace (last ++ line)).length_le
  unfold carried
  simp only
  split
  · rw [List.length_dropLast]
    omega
  · exact Nat.zero_le _

private theorem run_carried_length_le {last : List UInt8} {lines : List (List UInt8)}
    (fits : last.length ≤ 1021)
    (short : Along carried (fun last line => (last ++ line).length ≤ 1022) last lines) :
    (run carried last lines).length ≤ 1021 :=
  run_preserves_along (fun last => last.length ≤ 1021)
    (fun _ _ short _ => carried_length_le short) fits short

private theorem textOf_cons (line : List UInt8) (lines : List (List UInt8)) :
    textOf (line :: lines) = line ++ 10 :: textOf lines := by simp [textOf]

private theorem splits_from (file last : List UInt8) (noNul : 0 ∉ file) :
    ∃ lines rest, file = textOf lines ++ rest ∧ (∀ line ∈ lines, 0 ∉ line ∧ 10 ∉ line) ∧
      0 ∉ rest ∧ Along carried (fun last line => (last ++ line).length ≤ 1022) last lines ∧
      10 ∉ rest.take (1023 - (run carried last lines).length) := by
  induction length : file.length using Nat.strong_induction_on generalizing file last with
  | _ size ih =>
      by_cases newline : 10 ∈ file.take (1023 - last.length)
      · obtain ⟨line, more, taken, oneLine⟩ := List.eq_append_cons_of_mem newline
        have whole : file = line ++ 10 :: (more ++ file.drop (1023 - last.length)) := by
          conv_lhs => rw [← List.take_append_drop (1023 - last.length) file, taken]
          simp
        generalize more ++ file.drop (1023 - last.length) = left at whole
        have reach : line.length + 1 ≤ 1023 - last.length := by
          have bound := List.length_take_le (1023 - last.length) file
          rw [taken, List.length_append, List.length_cons] at bound
          omega
        subst whole
        simp only [List.mem_append, List.mem_cons, not_or] at noNul
        obtain ⟨lines, rest, file, strings, restNoNul, short, cut⟩ :=
          ih left.length (by simp at length; omega) left (carried last line) noNul.2.2 rfl
        refine ⟨line :: lines, rest, ?_, ?_, restNoNul, ?_, cut⟩
        · rw [file, textOf_cons, List.append_assoc, List.cons_append]
        · intro other member
          rcases List.mem_cons.mp member with rfl | later
          · exact ⟨noNul.1, oneLine⟩
          · exact strings other later
        · refine ⟨?_, short⟩
          show (last ++ line).length ≤ 1022
          rw [List.length_append]
          omega
      · exact ⟨[], file, rfl, by simp, noNul, trivial, newline⟩

theorem length_le_textOf (lines : List (List UInt8)) : lines.length ≤ (textOf lines).length := by
  induction lines with
  | nil => exact le_rfl
  | cons line lines ih =>
      rw [textOf_cons, List.length_append, List.length_cons, List.length_cons]
      omega

private theorem length_le_count_textOf (lines : List (List UInt8)) :
    lines.length ≤ (textOf lines).count 10 := by
  induction lines with
  | nil => exact le_rfl
  | cons line lines ih =>
      rw [textOf_cons, List.count_append, List.count_cons_self, List.length_cons]
      omega

/-- Every file without NUL bytes splits so, unless it has more than 2^27 lines. -/
theorem splits_exists {file : List UInt8} (noNul : 0 ∉ file) (few : file.count 10 ≤ 134217728) :
    ∃ lines rest, Splits file lines rest := by
  obtain ⟨lines, rest, whole, strings, restNoNul, short, cut⟩ := splits_from file [] noNul
  refine ⟨lines, rest, whole, strings, restNoNul, short, cut, ?_⟩
  have bound := length_le_count_textOf lines
  rw [whole, List.count_append] at few
  omega

/-! ## Every round takes a byte -/

namespace IniLoad

variable {load load' : IniLoad}

private theorem finish_ends : load.finish ≠ .running := by
  unfold finish
  split <;> simp

private theorem assign_file {key : List UInt8} {val : Option (List UInt8)}
    (assigned : load.assign key val = some load') : load'.file = load.file := by
  obtain ⟨⟨dict, errs⟩, -, rfl⟩ := Option.map_eq_some_iff.mp assigned
  rfl

private theorem parseLine_file {line : List UInt8} (parsed : load.parseLine line = some load') :
    load'.file = load.file := by
  obtain ⟨status, -, applied⟩ := Option.bind_eq_some_iff.mp parsed
  cases status with
  | error | empty | comment =>
      cases applied
      rfl
  | «section» name =>
      have same := @assign_file { load with sect := name } load' name none applied
      exact same
  | value key val =>
      simp only [applyStatus] at applied
      split at applied
      · exact assign_file applied
      · cases applied

private theorem takeLine_file {line : List UInt8} (next : load.takeLine line = .next load') :
    load'.file = load.file := by
  unfold takeLine at next
  split at next
  · cases next
  split at next
  · cases next
    rfl
  split at next
  · cases next
  simp only at next
  split at next
  · cases next
  split at next
  · cases next
    rfl
  split at next
  · cases next
  · rename_i parsed
    split at next
    · cases next
    · cases next
      have same := parseLine_file parsed
      exact same

private theorem takeLine_ends (line : List UInt8) : load.takeLine line ≠ .ended .running := by
  unfold takeLine
  intro ends
  split at ends
  · cases ends
  split at ends
  · cases ends
  split at ends
  · cases ends
  simp only at ends
  split at ends
  · cases ends
  split at ends
  · cases ends
  split at ends
  · cases ends
  · split at ends
    · exact finish_ends (IniRound.ended.inj ends)
    · cases ends

private theorem round_file (next : load.round = .next load') :
    load'.file.length < load.file.length := by
  unfold IniLoad.round at next
  simp only at next
  split at next
  · cases next
  · rename_i chunk
    rw [takeLine_file next]
    have taken := List.length_pos_iff.mpr chunk
    simp only [fgets, List.length_take, List.length_drop] at taken ⊢
    omega

private theorem scan_ends (rounds : Nat) (enough : load.file.length < rounds) :
    load.scan rounds ≠ .running := by
  induction rounds generalizing load with
  | zero => exact absurd enough (Nat.not_lt_zero _)
  | succ rounds ih =>
      unfold scan
      split
      · rename_i load' next
        exact ih (by have shorter := round_file next; omega)
      · rename_i outcome ended
        rintro rfl
        unfold IniLoad.round at ended
        simp only at ended
        split at ended
        · exact finish_ends (IniRound.ended.inj ended)
        · exact takeLine_ends _ ended

end IniLoad

theorem iniparserLoad_ends (file : List UInt8) : iniparserLoad file ≠ .running :=
  IniLoad.scan_ends _ (Nat.lt_succ_self _)

/-! ## Behind the lines -/

namespace IniLoad

variable {load : IniLoad} {m : IniMeaning}

private theorem scan_end (rounds : Nat) (empty : load.file = []) :
    load.scan (rounds + 1) = load.finish := by
  have read : fgets (asciiLineSz - load.last.length) ([] : List UInt8) = ([], []) := by
    simp [fgets]
  rw [IniLoad.scan, IniLoad.round, empty, read]
  rfl

private theorem scan_truncated (rounds : Nat) {rest : List UInt8} (file : load.file = rest)
    (noNul : 0 ∉ load.last ++ rest) (fits : load.last.length ≤ 1021)
    (cut : 10 ∉ rest.take (1023 - load.last.length)) (some : rest ≠ []) :
    load.scan (rounds + 2) = if load.last = [] ∧ rest.length = 1 then load.finish else .null := by
  have reach : asciiLineSz - load.last.length - 1 = 1023 - load.last.length := by
    unfold asciiLineSz
    omega
  have read := @fgets_part (asciiLineSz - load.last.length) rest (reach.symm ▸ cut)
  rw [reach] at read
  have chunk : rest.take (1023 - load.last.length) ≠ [] := by
    rw [ne_eq, List.take_eq_nil_iff, not_or]
    exact ⟨by omega, some⟩
  have clean : 0 ∉ load.last ++ rest.take (1023 - load.last.length) := by
    rw [List.mem_append, not_or] at noNul ⊢
    exact ⟨noNul.1, fun member => noNul.2 (List.mem_of_mem_take member)⟩
  rw [IniLoad.scan, IniLoad.round, file, read]
  simp only [if_neg chunk, cstring_self clean]
  obtain ⟨front, final, split⟩ := List.eq_nil_or_concat'
    (rest.take (1023 - load.last.length)) |>.resolve_left chunk
  have notNewline : final ≠ 10 := by
    rintro rfl
    rw [split] at cut
    simp at cut
  rw [split]
  unfold takeLine
  simp only [← List.append_assoc, List.getLast?_append, List.getLast?_singleton, Option.some_or]
  by_cases single : load.last = [] ∧ rest.length = 1
  · obtain ⟨none, one⟩ := single
    have short : (load.last ++ front ++ [final]).length = 1 := by
      have size := congrArg List.length split
      rw [none, List.length_take, one] at size
      simp only [List.length_append, List.length_singleton, none, List.length_nil] at size ⊢
      omega
    have drained : rest.drop (1023 - load.last.length) = [] := by
      rw [List.drop_eq_nil_iff]
      omega
    rw [if_pos short, if_pos ⟨none, one⟩, drained]
    exact scan_end rounds rfl
  · have long : (load.last ++ front ++ [final]).length ≠ 1 := by
      intro short
      have size := congrArg List.length split
      rw [List.length_take] at size
      simp only [List.length_append, List.length_singleton] at short size
      refine single ⟨List.length_eq_zero_iff.mp (by omega), by omega⟩
    rw [if_neg long, if_pos notNewline, if_neg single]

end IniLoad

/-- The load of a file that is split into lines. -/
theorem iniparserLoad_eq {file rest : List UInt8} {lines : List (List UInt8)}
    (splits : Splits file lines rest) :
    (¬ StaysInside lines → iniparserLoad file = .fault) ∧
    (StaysInside lines → Truncated lines rest → iniparserLoad file = .null) ∧
    (StaysInside lines → ¬ Truncated lines rest → ∃ load : IniLoad,
      load.Means (meaning lines) ∧ iniparserLoad file = load.finish) := by
  have size : file.length = (textOf lines).length + rest.length := by
    rw [splits.file, List.length_append]
  have bound := length_le_textOf lines
  obtain ⟨spare, rounds⟩ : ∃ spare, file.length + 1 = lines.length + (spare + rest.length + 1) :=
    ⟨(textOf lines).length - lines.length, by omega⟩
  obtain ⟨succeeds, fails⟩ := (IniLoad.means_start file).lines splits.file
    (by simp [IniLoad.start]) splits.strings splits.short
    (by simpa [IniLoad.start, dictionaryNew] using splits.few)
  unfold iniparserLoad
  rw [rounds]
  refine ⟨fun outside => fails outside _, fun inside truncated => ?_, fun inside whole => ?_⟩
  · obtain ⟨load, scans, means, left, last, noNul⟩ := succeeds inside
    obtain ⟨more, notSingle⟩ := truncated
    have fits : load.last.length ≤ 1021 :=
      last ▸ run_carried_length_le (Nat.zero_le _) splits.short
    obtain ⟨behind, positive⟩ := Nat.exists_eq_succ_of_ne_zero (List.length_pos_iff.mpr more).ne'
    have clean : 0 ∉ load.last ++ rest := by simp [noNul, splits.restNoNul]
    have cut : 10 ∉ rest.take (1023 - load.last.length) := last ▸ splits.cut
    rw [scans, positive, show spare + behind.succ + 1 = spare + behind + 2 by omega,
      IniLoad.scan_truncated _ left clean fits cut more, if_neg]
    rw [last]
    exact notSingle
  · obtain ⟨load, scans, means, left, last, noNul⟩ := succeeds inside
    refine ⟨load, means, ?_⟩
    rw [scans]
    by_cases empty : rest = []
    · subst empty
      exact IniLoad.scan_end _ left
    · have single : run carried [] lines = [] ∧ rest.length = 1 := by
        by_contra several
        exact whole ⟨empty, several⟩
      have fits : load.last.length ≤ 1021 :=
        last ▸ run_carried_length_le (Nat.zero_le _) splits.short
      have clean : 0 ∉ load.last ++ rest := by simp [noNul, splits.restNoNul]
      have cut : 10 ∉ rest.take (1023 - load.last.length) := last ▸ splits.cut
      rw [single.2, IniLoad.scan_truncated spare left clean fits cut empty, if_pos]
      rw [last]
      exact single

/-! ## The errors that count -/

private theorem endsInError_concat (texts : List (List UInt8)) (last : List UInt8) :
    EndsInError (texts ++ [last]) ↔
      iniparserLine (run IniMeaning.statement .start texts).sect last = some .error ∨
        EndsInError texts ∧ ¬ (run IniMeaning.statement .start texts).Assigns last := by
  constructor
  · rintro ⟨before, text, after, split, error, quiet⟩
    rcases List.eq_nil_or_concat' after with rfl | ⟨after, final, rfl⟩
    · obtain ⟨rfl, same⟩ := List.append_inj' split rfl
      obtain rfl := List.singleton_inj.mp same
      exact .inl error
    · rw [← List.cons_append, ← List.append_assoc] at split
      obtain ⟨rfl, same⟩ := List.append_inj' split rfl
      obtain rfl := List.singleton_inj.mp same
      rw [along_append] at quiet
      refine .inr ⟨⟨before, text, after, rfl, error, quiet.1⟩, ?_⟩
      have unassigned := quiet.2.1
      rwa [← run_append, List.append_assoc, List.singleton_append] at unassigned
  · rintro (error | ⟨⟨before, text, after, rfl, error, quiet⟩, unassigned⟩)
    · exact ⟨texts, last, [], rfl, error, trivial⟩
    · refine ⟨before, text, after ++ [last], by simp, error, ?_⟩
      rw [along_append]
      refine ⟨quiet, ?_, trivial⟩
      rwa [← run_append, List.append_assoc, List.singleton_append]

theorem errs_iff (texts : List (List UInt8)) :
    (run IniMeaning.statement .start texts).errs ≠ 0 ↔ EndsInError texts := by
  induction texts using List.reverseRecOn with
  | nil =>
      refine iff_of_false (not_not.mpr rfl) ?_
      rintro ⟨before, text, after, split, -⟩
      simp at split
  | append_singleton texts last ih =>
      rw [endsInError_concat, run_concat, ← ih]
      generalize run IniMeaning.statement .start texts = m
      unfold IniMeaning.statement IniMeaning.Assigns
      cases read : iniparserLine m.sect last with
      | none => simp
      | some status => cases status <;> simp [IniMeaning.apply, IniMeaning.assign]

/-! ## What the load returns -/

section Results

variable {file rest : List UInt8} {lines : List (List UInt8)}

/-- The load leaves its buffers exactly when a statement is all white space, or its section
and its key do not fit in `tmp` together. -/
theorem iniparser_load_faults_iff (file : List UInt8) :
    (0 ∉ file → file.count 10 ≤ 134217728 → ∃ lines rest, Splits file lines rest) ∧
      ∀ lines rest, Splits file lines rest →
        (iniparserLoad file = .fault ↔ ¬ StaysInside lines) := by
  refine ⟨splits_exists, fun lines rest splits => ?_⟩
  obtain ⟨outside, cut, whole⟩ := iniparserLoad_eq splits
  refine ⟨fun faults inside => ?_, outside⟩
  by_cases truncated : Truncated lines rest
  · rw [cut inside truncated] at faults
    cases faults
  · obtain ⟨load, -, ends⟩ := whole inside truncated
    rw [ends, IniLoad.finish] at faults
    split at faults <;> cases faults

/-- A line with a single blank. -/
theorem iniparser_load_faults_blank : iniparserLoad [32, 10] = .fault := by
  have splits : Splits [32, 10] [[32]] [] :=
    ⟨by decide, by decide, by decide, ⟨by decide, trivial⟩, by decide, by decide⟩
  exact ((iniparser_load_faults_iff _).2 _ _ splits).mpr fun inside => inside.1.1 rfl

theorem iniparserLoad_null_iff (splits : Splits file lines rest) :
    iniparserLoad file = .null ↔
      StaysInside lines ∧ (Truncated lines rest ∨ EndsInError (statements [] lines)) := by
  obtain ⟨outside, cut, whole⟩ := iniparserLoad_eq splits
  by_cases inside : StaysInside lines
  · by_cases truncated : Truncated lines rest
    · simp [inside, truncated, cut inside truncated]
    · obtain ⟨load, means, ends⟩ := whole inside truncated
      have errs : load.errs ≠ 0 ↔ EndsInError (statements [] lines) := by
        rw [means.errs, ← errs_iff, meaning]
        exact Int.ofNat_ne_zero
      rw [ends, IniLoad.finish, ← errs]
      by_cases failed : load.errs ≠ 0 <;> simp [inside, truncated, failed]
  · simp [inside, outside inside]

/-- Otherwise it returns no dictionary exactly when the file breaks off, or a syntax error
has no assignment behind it. -/
theorem iniparser_load_null_iff (file : List UInt8) :
    (0 ∉ file → file.count 10 ≤ 134217728 → ∃ lines rest, Splits file lines rest) ∧
      ∀ lines rest, Splits file lines rest →
        (iniparserLoad file = .null ↔
          StaysInside lines ∧ (Truncated lines rest ∨ EndsInError (statements [] lines))) :=
  ⟨splits_exists, fun _ _ => iniparserLoad_null_iff⟩

/-- A line without an equal sign that ends the file. -/
theorem iniparser_load_null_word : iniparserLoad [97, 10] = .null := by
  have read : iniparserLine [] [97] = some .error := by decide
  have splits : Splits [97, 10] [[97]] [] :=
    ⟨by decide, by decide, by decide, ⟨by decide, trivial⟩, by decide, by decide⟩
  refine ((iniparser_load_null_iff _).2 _ _ splits).mpr
    ⟨⟨⟨by decide, fun key val value => ?_⟩, trivial⟩, .inr ⟨[], [97], [], rfl, read, trivial⟩⟩
  change iniparserLine [] [97] = _ at value
  rw [read] at value
  cases value

/-- The dictionary has what the statements mean. -/
theorem iniparserLoad_loaded (splits : Splits file lines rest) (inside : StaysInside lines)
    (whole : ¬ Truncated lines rest) (correct : ¬ EndsInError (statements [] lines)) :
    ∃ d, iniparserLoad file = .loaded d ∧
      ∀ key default, iniparserGetstring (some d) key default =
        (meaning lines).map.get (strlwc key) default := by
  obtain ⟨load, means, ends⟩ := (iniparserLoad_eq splits).2.2 inside whole
  have errs : ¬ load.errs ≠ 0 := by
    rw [means.errs, Int.natCast_ne_zero, meaning, errs_iff]
    exact correct
  exact ⟨load.dict, by rw [ends, IniLoad.finish, if_neg errs],
    fun key default => means.holds.get _ default⟩

/-- In every other case every key has the value that the statements gave it last. -/
theorem iniparser_load_means (file : List UInt8) :
    (0 ∉ file → file.count 10 ≤ 134217728 → ∃ lines rest, Splits file lines rest) ∧
      ∀ lines rest, Splits file lines rest → StaysInside lines → ¬ Truncated lines rest →
        ¬ EndsInError (statements [] lines) →
        ∃ d, iniparserLoad file = .loaded d ∧
          ∀ key default, iniparserGetstring (some d) key default =
            (meaning lines).map.get (strlwc key) default :=
  ⟨splits_exists, fun _ _ splits => iniparserLoad_loaded splits⟩

/-- A section and a value. -/
theorem iniparser_load_means_value : ∃ d, iniparserLoad [91, 97, 93, 10, 98, 61, 99, 10] = .loaded d ∧
    ∀ key default, iniparserGetstring (some d) key default =
      (meaning [[91, 97, 93], [98, 61, 99]]).map.get (strlwc key) default := by
  have header : iniparserLine [] [91, 97, 93] = some (.section [97]) := by decide
  have assigned : iniparserLine [97] [98, 61, 99] = some (.value [98] [99]) := by decide
  have splits : Splits [91, 97, 93, 10, 98, 61, 99, 10] [[91, 97, 93], [98, 61, 99]] [] :=
    ⟨by decide, by decide, by decide, ⟨by decide, by decide, trivial⟩, by decide, by decide⟩
  refine (iniparser_load_means _).2 _ _ splits
    ⟨⟨by decide, fun key val value => ?_⟩, ⟨by decide, fun key val value => ?_⟩, trivial⟩
    (fun truncated => truncated.1 rfl) (fun ends => (errs_iff _).mpr ends rfl)
  · change iniparserLine [] [91, 97, 93] = _ at value
    rw [header] at value
    cases value
  · change iniparserLine [97] [98, 61, 99] = _ at value
    rw [assigned] at value
    cases value
    decide

end Results

end MpNet.Config
