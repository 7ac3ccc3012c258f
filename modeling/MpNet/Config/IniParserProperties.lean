import MpNet.Config.DictionaryProperties
import MpNet.Config.IniParser
import MpNet.Library.Run

/-!
# What a configuration file means

The statements of a file are its lines, joined where a backslash ends them. Their meaning is
a section, a map and the number of syntax errors since the last assignment. `iniparser_load`
finds the meaning of every file on which it stays inside its buffers.
-/

set_option autoImplicit false

namespace MpNet.Config

open Library

/-! ## Statements -/

/-- What `line` holds up to `last` after a line. -/
def carried (last line : List UInt8) : List UInt8 :=
  let text := (last ++ line).rdropWhile isspace
  if text.getLast? = some 92 then text.dropLast else []

/-- The text that is parsed after a line; an empty line is passed over. -/
def statementText (last line : List UInt8) : Option (List UInt8) :=
  let text := (last ++ line).rdropWhile isspace
  if last ++ line = [] ∨ text.getLast? = some 92 then none else some text

def statements : List UInt8 → List (List UInt8) → List (List UInt8)
  | _, [] => []
  | last, line :: lines => (statementText last line).toList ++ statements (carried last line) lines

structure IniMeaning where
  sect : List UInt8
  map : DictMap
  /-- The syntax errors since the last assignment. -/
  errs : Nat

namespace IniMeaning

def start : IniMeaning := ⟨[], fun _ => none, 0⟩

def assign (m : IniMeaning) (key : List UInt8) (val : Option (List UInt8)) : IniMeaning :=
  { m with map := m.map.call (.set key val), errs := 0 }

def apply (m : IniMeaning) : LineStatus → IniMeaning
  | .empty | .comment => m
  | .section name => { m with sect := name }.assign name none
  | .value key val => m.assign (m.sect ++ 58 :: key) (some val)
  | .error => { m with errs := m.errs + 1 }

def statement (m : IniMeaning) (text : List UInt8) : IniMeaning :=
  (iniparserLine m.sect text).elim m m.apply

/-- The section, the colon and the key fit in `tmp`. -/
def FitsTmp (m : IniMeaning) (text : List UInt8) : Prop :=
  ∀ key val, iniparserLine m.sect text = some (.value key val) →
    (m.sect ++ 58 :: key).length ≤ asciiLineSz

/-- The statement is read inside the buffers: it is not all white space, and `tmp` holds the
key. -/
def Inside (m : IniMeaning) (text : List UInt8) : Prop := text ≠ [] ∧ m.FitsTmp text

end IniMeaning

def meaning (lines : List (List UInt8)) : IniMeaning :=
  run IniMeaning.statement .start (statements [] lines)

def StaysInside (lines : List (List UInt8)) : Prop :=
  Along IniMeaning.statement IniMeaning.Inside .start (statements [] lines)

/-- Every line, with what is carried into it, fits in `line`. -/
def ShortLines (lines : List (List UInt8)) : Prop :=
  Along carried (fun last line => (last ++ line).length ≤ 1022) [] lines

/-- The text of a file whose lines all end with a newline. -/
def textOf (lines : List (List UInt8)) : List UInt8 := lines.flatMap (· ++ [10])

/-! ## Reading one line -/

section Strings

variable {sect input : List UInt8}

theorem strstrip_short (short : input.length ≤ asciiLineSz) : strstrip input = some (strip input) :=
  if_pos ((List.dropWhile_sublist _).length_le.trans short)

private theorem strlwc_length_le (s : List UInt8) : (strlwc s).length ≤ asciiLineSz := by
  simp only [strlwc, lowercase, List.length_map, List.length_take]
  exact Nat.min_le_left ..

theorem scanPair_length_le {format : List Directive} {key value : List UInt8}
    (scanned : scanPair format input = some (key, value)) :
    key.length ≤ input.length ∧ value.length ≤ input.length := by
  have fields := sscanf_length_le format input
  unfold scanPair at scanned
  split at scanned
  · rename_i first second pair
    obtain ⟨rfl, rfl⟩ := Prod.mk.inj (Option.some.inj scanned)
    exact ⟨fields _ (by simp [pair]), fields _ (by simp [pair])⟩
  · cases scanned

private theorem scanPair_or {format : List Directive} {other : Option (List UInt8 × List UInt8)}
    {pair : List UInt8 × List UInt8} (scanned : (scanPair format input <|> other) = some pair) :
    scanPair format input = some pair ∨ other = some pair := by
  have either : scanPair format input = some pair ∨
      scanPair format input = none ∧ other = some pair := by simpa using scanned
  exact either.imp_right And.right

/-- A line that fits in the buffer is read. -/
theorem iniparserLine_isSome (sectFits : sect.length ≤ asciiLineSz)
    (short : input.length ≤ asciiLineSz) : (iniparserLine sect input).isSome := by
  have stripped : (strip input).length ≤ asciiLineSz := (strip_length_le input).trans short
  unfold iniparserLine
  rw [strstrip_short short, Option.bind_eq_bind, Option.bind_some]
  generalize strip input = line at stripped
  split
  · rfl
  split
  · rfl
  split
  · have nameFits : ((sscanf sectionFormat line).headD sect).length ≤ asciiLineSz := by
      cases fields : sscanf sectionFormat line with
      | nil => exact sectFits
      | cons name more =>
          exact (sscanf_length_le sectionFormat line name (by simp [fields])).trans stripped
    rw [strstrip_short nameFits]
    rfl
  split
  · rename_i key value scanned
    have lengths : key.length ≤ line.length ∧ value.length ≤ line.length := by
      rcases scanPair_or scanned with double | scanned
      · exact scanPair_length_le double
      rcases scanPair_or scanned with single | plain
      · exact scanPair_length_le single
      · exact scanPair_length_le plain
    rw [strstrip_short (lengths.1.trans stripped), strstrip_short (lengths.2.trans stripped)]
    rfl
  · split
    · rename_i key value scanned
      have length : key.length ≤ line.length := by
        rcases scanPair_or scanned with comment | equal
        · exact (scanPair_length_le comment).1
        · exact (scanPair_length_le equal).1
      rw [strstrip_short (length.trans stripped)]
      rfl
    · rfl

private theorem iniparserLine_section {name : List UInt8}
    (read : iniparserLine sect input = some (.section name)) : name.length ≤ asciiLineSz := by
  unfold iniparserLine at read
  cases copied : strstrip input with
  | none => simp [copied] at read
  | some line =>
      rw [copied, Option.bind_eq_bind, Option.bind_some] at read
      split at read
      · cases read
      split at read
      · cases read
      split at read
      · cases stripped : strstrip ((sscanf sectionFormat line).headD sect) with
        | none =>
            rw [stripped] at read
            cases read
        | some sect' =>
            rw [stripped] at read
            cases read
            exact strlwc_length_le sect'
      split at read
      · rename_i key value _
        cases first : strstrip key <;> cases second : strstrip value <;> simp [first, second] at read
      · split at read
        · rename_i key _ _
          cases first : strstrip key <;> simp [first] at read
        · cases read

end Strings

section Chunks

variable {last line more : List UInt8}

private theorem fgets_line (oneLine : 10 ∉ line) {size : Nat} (room : line.length + 2 ≤ size) :
    fgets size (line ++ 10 :: more) = (line ++ [10], more) := by
  have passes : ∀ byte ∈ line, (byte ≠ 10 : Bool) = true := fun byte member => by
    simpa using ne_of_mem_of_not_mem member oneLine
  have kept : (line ++ 10 :: more).take (size - 1) = line ++ 10 :: more.take (size - line.length - 2) := by
    rw [List.take_append, List.take_of_length_le (by omega : line.length ≤ size - 1),
      show size - 1 - line.length = size - line.length - 2 + 1 by omega, List.take_succ_cons]
  have whole : (line ++ 10 :: more.take (size - line.length - 2)).takeWhile (· ≠ 10) = line := by
    rw [List.takeWhile_append_of_pos passes]
    simp
  unfold fgets
  simp only [kept, whole]
  have chunk : (line ++ 10 :: more.take (size - line.length - 2)).take (line.length + 1) =
      line ++ [10] := by simp [List.take_append]
  rw [chunk]
  simp

/-- Without a newline within reach all that is read is a part of a line. -/
theorem fgets_part {size : Nat} {rest : List UInt8} (cut : 10 ∉ rest.take (size - 1)) :
    fgets size rest = (rest.take (size - 1), rest.drop (size - 1)) := by
  have whole : (rest.take (size - 1)).takeWhile (· ≠ 10) = rest.take (size - 1) :=
    List.takeWhile_eq_self_iff.mpr fun byte member => by
      simpa using ne_of_mem_of_not_mem member cut
  unfold fgets
  simp only [whole]
  rw [List.take_of_length_le (by omega : (rest.take (size - 1)).length ≤ _)]
  simp only [Prod.mk.injEq, true_and]
  rw [List.length_take]
  by_cases reached : size - 1 ≤ rest.length
  · rw [Nat.min_eq_left reached]
  · rw [Nat.min_eq_right (by omega), List.drop_length, List.drop_eq_nil_of_le (by omega)]

theorem cstring_self (noNul : 0 ∉ line) : cstring line = line :=
  List.takeWhile_eq_self_iff.mpr fun byte member => by
    simpa using ne_of_mem_of_not_mem member noNul

private theorem rdropWhile_newline (body : List UInt8) :
    (body ++ [10]).rdropWhile (fun byte => byte = 10 || isspace byte) = body.rdropWhile isspace := by
  have same : (fun byte : UInt8 => decide (byte = 10) || isspace byte) = isspace := by
    funext byte
    by_cases newline : byte = 10
    · subst newline
      decide
    · simp [newline]
  rw [same, List.rdropWhile_concat_pos _ _ _ (by decide)]

end Chunks

/-! ## Reading the lines of a file -/

namespace IniLoad

structure Means (load : IniLoad) (m : IniMeaning) : Prop where
  sect : load.sect = m.sect
  sectFits : load.sect.length ≤ asciiLineSz
  holds : load.dict.Holds m.map
  errs : load.errs = m.errs

variable {load : IniLoad} {m : IniMeaning} {text : List UInt8}

theorem means_start (file : List UInt8) : (start file).Means .start :=
  ⟨rfl, Nat.zero_le _, Dictionary.holds_new 0, rfl⟩

/-- What a round leaves of the file, the line and the dictionary. -/
structure After (load after : IniLoad) : Prop where
  file : after.file = load.file
  last : after.last = load.last
  count : after.dict.n ≤ load.dict.n + 1

theorem Means.assign (means : load.Means m) (small : load.dict.n < 134217728)
    (key : List UInt8) (val : Option (List UInt8)) :
    ∃ load', load.assign key val = some load' ∧ load'.Means (m.assign key val) ∧
      load.After load' := by
  obtain ⟨dict, sets, holds, count⟩ := means.holds.set key val small
  refine ⟨{ load with dict := dict, errs := 0 }, ?_, ?_, rfl, rfl, count⟩
  · rw [IniLoad.assign, sets]
    rfl
  · exact ⟨means.sect, means.sectFits, holds, rfl⟩

theorem Means.parseLine (means : load.Means m) (small : load.dict.n < 134217728)
    (short : text.length ≤ asciiLineSz) :
    (m.FitsTmp text → ∃ load', load.parseLine text = some load' ∧
      load'.Means (m.statement text) ∧ load.After load') ∧
    (¬ m.FitsTmp text → load.parseLine text = none) := by
  have same : After load load := ⟨rfl, rfl, Nat.le_succ _⟩
  obtain ⟨status, read⟩ := Option.isSome_iff_exists.mp (iniparserLine_isSome means.sectFits short)
  have read' : iniparserLine m.sect text = some status := means.sect ▸ read
  have applied : m.statement text = m.apply status := by rw [IniMeaning.statement, read']; rfl
  have parsed : load.parseLine text = load.applyStatus status := by rw [IniLoad.parseLine, read]; rfl
  rw [applied, parsed]
  cases status with
  | error =>
      refine ⟨fun _ => ⟨_, rfl, ?_, rfl, rfl, Nat.le_succ _⟩, fun outside => absurd ?_ outside⟩
      · exact ⟨means.sect, means.sectFits, means.holds, by simp [IniMeaning.apply, means.errs]⟩
      · intro key val value
        rw [read'] at value
        cases value
  | empty =>
      refine ⟨fun _ => ⟨load, rfl, means, same⟩, fun outside => absurd ?_ outside⟩
      intro key val value
      rw [read'] at value
      cases value
  | comment =>
      refine ⟨fun _ => ⟨load, rfl, means, same⟩, fun outside => absurd ?_ outside⟩
      intro key val value
      rw [read'] at value
      cases value
  | «section» name =>
      refine ⟨fun _ => ?_, fun outside => absurd ?_ outside⟩
      · have renamed : Means { load with sect := name } { m with sect := name } :=
          ⟨rfl, iniparserLine_section read, means.holds, means.errs⟩
        obtain ⟨load', assigned, means', after⟩ := renamed.assign small name none
        exact ⟨load', assigned, means', after.file, after.last, after.count⟩
      · intro key val value
        rw [read'] at value
        cases value
  | value key val =>
      constructor
      · intro fits
        have inside := fits key val read'
        simp only [applyStatus, means.sect, if_pos inside]
        exact means.assign small _ _
      · intro faults
        have outside : ¬ (m.sect ++ 58 :: key).length ≤ asciiLineSz := by
          intro inside
          refine faults fun key' val' value => ?_
          rw [read'] at value
          cases value
          exact inside
        simp only [applyStatus, means.sect, if_neg outside]

/-- One line of the file. -/
theorem Means.round (means : load.Means m) (small : load.dict.n < 134217728)
    {line more : List UInt8} (file : load.file = line ++ 10 :: more) (oneLine : 10 ∉ line)
    (noNul : 0 ∉ load.last ++ line) (short : (load.last ++ line).length ≤ 1022) :
    (Along IniMeaning.statement IniMeaning.Inside m (statementText load.last line).toList →
      ∃ load', load.round = .next load' ∧
        load'.Means (run IniMeaning.statement m (statementText load.last line).toList) ∧
        load'.file = more ∧ load'.last = carried load.last line ∧
        load'.dict.n ≤ load.dict.n + 1) ∧
    (¬ Along IniMeaning.statement IniMeaning.Inside m (statementText load.last line).toList →
      load.round = .ended .fault) := by
  have room : line.length + 2 ≤ asciiLineSz - load.last.length := by
    rw [List.length_append] at short
    unfold asciiLineSz
    omega
  have clean : 0 ∉ load.last ++ (line ++ [10]) := by
    rw [← List.append_assoc, List.mem_append, not_or]
    exact ⟨noNul, by decide⟩
  have rounds : load.round = takeLine { load with file := more } (load.last ++ line ++ [10]) := by
    unfold IniLoad.round
    rw [file, fgets_line oneLine room]
    simp [cstring_self clean]
  rw [rounds]
  generalize joined : load.last ++ line = body at short
  have moved : Means { load with file := more } m :=
    ⟨means.sect, means.sectFits, means.holds, means.errs⟩
  unfold takeLine statementText carried
  simp only [joined, List.getLast?_append, List.getLast?_singleton, Option.some_or,
    rdropWhile_newline]
  by_cases blank : body = []
  · subst blank
    have none : load.last = [] := (List.append_eq_nil_iff.mp joined).1
    simp only [List.nil_append, List.length_singleton, if_true, true_or, Option.toList_none,
      along_nil, run_nil, forall_const, not_true_eq_false, false_imp_iff, and_true]
    exact ⟨_, rfl, moved, rfl, by simpa using none, Nat.le_succ _⟩
  · have long : (body ++ [10]).length ≠ 1 := by simpa using blank
    have textShort : (body.rdropWhile isspace).length ≤ asciiLineSz := by
      have shorter := (List.rdropWhile_prefix isspace body).length_le
      unfold asciiLineSz
      omega
    simp only [if_neg long, blank, false_or, ne_eq, not_true_eq_false, if_false]
    generalize body.rdropWhile isspace = text at textShort
    cases final : text.getLast? with
    | none =>
        have empty : text = [] := List.getLast?_eq_none_iff.mp final
        subst empty
        simp [IniMeaning.Inside]
    | some byte =>
        have solid : text ≠ [] := by
          rintro rfl
          cases final
        by_cases backslash : byte = 92
        · subst backslash
          simp only [if_true, Option.toList_none, along_nil, run_nil, forall_const,
            not_true_eq_false, false_imp_iff, and_true]
          exact ⟨_, rfl, ⟨moved.sect, moved.sectFits, moved.holds, moved.errs⟩, rfl, rfl,
            Nat.le_succ _⟩
        · have other : ¬ some byte = some (92 : UInt8) := fun same => backslash (Option.some.inj same)
          simp only [if_neg backslash, if_neg other, Option.toList_some, along_cons, along_nil,
            and_true, run_cons, run_nil, IniMeaning.Inside, ne_eq, solid, not_false_eq_true, true_and]
          have reset : Means { load with file := more, last := [] } m :=
            ⟨means.sect, means.sectFits, means.holds, means.errs⟩
          obtain ⟨succeeds, fails⟩ := reset.parseLine small textShort
          constructor
          · intro fits
            obtain ⟨load', parsed, means', after⟩ := succeeds fits
            have nonneg : ¬ load'.errs < 0 := by rw [means'.errs]; omega
            simp only [parsed, if_neg nonneg]
            exact ⟨load', rfl, means', after.file, after.last, after.count⟩
          · intro outside
            simp only [fails outside]

private theorem carried_noNul {last line : List UInt8} (noNul : 0 ∉ last ++ line) :
    0 ∉ carried last line := by
  intro member
  have inside : ∀ byte ∈ (last ++ line).rdropWhile isspace, byte ∈ last ++ line :=
    fun byte kept => (List.rdropWhile_prefix _ _).subset kept
  unfold carried at member
  simp only at member
  split at member
  · exact noNul (inside 0 (List.mem_of_mem_dropLast member))
  · cases member

private theorem scan_next {load load' : IniLoad} (goes : load.round = .next load') (rounds : Nat) :
    load.scan (rounds + 1) = load'.scan rounds := by rw [IniLoad.scan, goes]

private theorem scan_ended {outcome : IniOutcome} (ends : load.round = .ended outcome)
    (rounds : Nat) :
    load.scan (rounds + 1) = outcome := by rw [IniLoad.scan, ends]

/-- All lines that end with a newline. -/
theorem Means.lines (means : load.Means m) {lines : List (List UInt8)} {rest : List UInt8}
    (file : load.file = textOf lines ++ rest) (noNul : 0 ∉ load.last)
    (strings : ∀ line ∈ lines, 0 ∉ line ∧ 10 ∉ line)
    (short : Along carried (fun last line => (last ++ line).length ≤ 1022) load.last lines)
    (few : load.dict.n + lines.length ≤ 134217728) :
    (Along IniMeaning.statement IniMeaning.Inside m (statements load.last lines) →
      ∃ load' : IniLoad, (∀ rounds, load.scan (lines.length + rounds) = load'.scan rounds) ∧
        load'.Means (run IniMeaning.statement m (statements load.last lines)) ∧
        load'.file = rest ∧ load'.last = run carried load.last lines ∧ 0 ∉ load'.last) ∧
    (¬ Along IniMeaning.statement IniMeaning.Inside m (statements load.last lines) →
      ∀ rounds, load.scan (lines.length + rounds) = .fault) := by
  induction lines generalizing load m with
  | nil =>
      refine ⟨fun _ => ⟨load, by simp, means, by simpa [textOf] using file, rfl, noNul⟩, ?_⟩
      exact fun outside => absurd trivial outside
  | cons line lines ih =>
      obtain ⟨lineNoNul, oneLine⟩ := strings line List.mem_cons_self
      have later := fun other member => strings other (List.mem_cons_of_mem line member)
      have joinedNoNul : 0 ∉ load.last ++ line := by simp [noNul, lineNoNul]
      rw [List.length_cons] at few
      have file' : load.file = line ++ 10 :: (textOf lines ++ rest) := by simp [file, textOf]
      obtain ⟨here, shortLater⟩ := (along_cons ..).mp short
      obtain ⟨succeeds, fails⟩ := means.round (by omega) file' oneLine joinedNoNul here
      simp only [statements, along_append, run_append, List.length_cons, run_cons]
      have shift (rounds : Nat) : lines.length + 1 + rounds = lines.length + rounds + 1 :=
        Nat.add_right_comm ..
      by_cases inside : Along IniMeaning.statement IniMeaning.Inside m
          (statementText load.last line).toList
      · obtain ⟨load', goes, means', file, last, count⟩ := succeeds inside
        have noNul' : 0 ∉ load'.last := last ▸ carried_noNul joinedNoNul
        obtain ⟨goOn, stop⟩ := ih means' file noNul' later (last ▸ shortLater) (by omega)
        have scanned (rounds : Nat) :
            load.scan (lines.length + 1 + rounds) = load'.scan (lines.length + rounds) := by
          rw [shift, scan_next goes]
        rw [last] at goOn stop
        constructor
        · rintro ⟨-, along⟩
          obtain ⟨final, scans, rests⟩ := goOn along
          exact ⟨final, fun count => (scanned count).trans (scans count), rests⟩
        · intro outside count
          exact (scanned count).trans (stop (fun along => outside ⟨inside, along⟩) count)
      · refine ⟨fun along => absurd along.1 inside, fun _ count => ?_⟩
        rw [shift, scan_ended (fails inside)]

end IniLoad

end MpNet.Config
