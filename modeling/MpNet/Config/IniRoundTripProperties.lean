import MpNet.Config.IniDumpProperties
import MpNet.Config.IniLoadProperties

/-!
# A dictionary that is written can be loaded again

What `iniparser_dump_ini` prints of a dictionary whose sections, keys and values the syntax
can express is a file that `iniparser_load` reads back to the same dictionary.
-/

set_option autoImplicit false

namespace MpNet.Config

open Library

/-- A line that is short enough, and that no backslash joins with the next. -/
structure PlainLine (line : List UInt8) : Prop where
  short : line.length ≤ 1022
  closed : (line.rdropWhile isspace).getLast? ≠ some 92

section PlainLines

variable {line : List UInt8} {lines : List (List UInt8)}

private theorem carried_plain (plain : PlainLine line) : carried [] line = [] := if_neg plain.closed

private theorem shortLines_plain (plain : ∀ line ∈ lines, PlainLine line) : ShortLines lines := by
  unfold ShortLines
  induction lines with
  | nil => exact trivial
  | cons line lines ih =>
      have here := plain line List.mem_cons_self
      refine ⟨here.short, ?_⟩
      rw [carried_plain here]
      exact ih fun later member => plain later (List.mem_cons_of_mem line member)

/-- Every line is a statement of its own. -/
theorem statements_plain (plain : ∀ line ∈ lines, PlainLine line) :
    statements [] lines = lines.flatMap fun line => (statementText [] line).toList := by
  induction lines with
  | nil => rfl
  | cons line lines ih =>
      rw [statements, carried_plain (plain line List.mem_cons_self), List.flatMap_cons,
        ih fun later member => plain later (List.mem_cons_of_mem line member)]

private theorem statementText_plain (plain : PlainLine line) (some_text : line ≠ []) :
    statementText [] line = some (line.rdropWhile isspace) := by
  refine if_neg ?_
  rintro (empty | backslash)
  · exact some_text empty
  · exact plain.closed backslash

end PlainLines

namespace DictMap

variable {map : DictMap}

/-- Calls that set keys to the values that a map has, and miss none, give the map. -/
theorem calls_agree {calls : List DictCall}
    (agree : ∀ call ∈ calls, ∃ key val, call = .set key val ∧ map key = some val)
    (covers : ∀ key val, map key = some val → .set key val ∈ calls) : DictMap.calls calls = map := by
  have either (base : DictMap) (key : List UInt8) :
      calls.foldl DictMap.call base key = map key ∨
        (∀ val, DictCall.set key val ∉ calls) ∧ calls.foldl DictMap.call base key = base key := by
    clear covers
    induction calls generalizing base with
    | nil => exact .inr ⟨by simp, rfl⟩
    | cons call calls ih =>
        obtain ⟨key', val', rfl, held⟩ := agree call List.mem_cons_self
        rw [List.foldl_cons]
        rcases ih (fun later member => agree later (List.mem_cons_of_mem _ member))
          (base.call (.set key' val')) with same | ⟨absent, kept⟩
        · exact .inl same
        · rw [kept, DictMap.call]
          by_cases same : key = key'
          · subst same
            exact .inl (by rw [Function.update_self, held])
          · refine .inr ⟨fun val member => ?_, Function.update_of_ne same ..⟩
            rcases List.mem_cons.mp member with first | later
            · cases first
              exact same rfl
            · exact absent val later
  funext key
  rcases either (fun _ => none) key with same | ⟨absent, kept⟩
  · exact same
  · refine kept.trans ?_
    cases held : map key with
    | none => rfl
    | some val => exact absurd (covers key val held) (absent val)

/-- What a key has was set. -/
theorem mem_of_calls {calls : List DictCall} {key : List UInt8} {val : Option (List UInt8)}
    (held : DictMap.calls calls key = some val) : .set key val ∈ calls := by
  induction calls using List.reverseRecOn with
  | nil => cases held
  | append_singleton calls last ih =>
      unfold DictMap.calls at held ih
      rw [List.foldl_append, List.foldl_cons, List.foldl_nil] at held
      cases last with
      | set key' val' =>
          rw [DictMap.call] at held
          by_cases same : key = key'
          · subst same
            rw [Function.update_self] at held
            cases held
            exact List.mem_concat_self
          · rw [Function.update_of_ne same] at held
            exact List.mem_append_left _ (ih held)
      | unset key' =>
          rw [DictMap.call] at held
          by_cases same : key = key'
          · subst same
            rw [Function.update_self] at held
            cases held
          · rw [Function.update_of_ne same] at held
            exact List.mem_append_left _ (ih held)

end DictMap

/-- What the lines of a section set. -/
def Dictionary.sectionCalls (d : Dictionary) (s : List UInt8) : List DictCall :=
  .set s none :: (d.keysOf s).map fun (name, text) => .set (s ++ 58 :: name) (some text)

section Reading

variable {d : Dictionary} {map : DictMap} {s name text : List UInt8} {m : IniMeaning}

private theorem plain_header (named : SectionName s) : PlainLine (91 :: s ++ [93]) := by
  constructor
  · have short := named.short
    simp only [List.length_append, List.length_cons, List.length_nil]
    omega
  · rw [rdropWhile_append_solid (by simp) (by decide), List.getLast?_concat]
    decide

private theorem plain_keyLine (value : ValueText text) (short : (keyLine name text).length ≤ 1022) :
    PlainLine (keyLine name text) := by
  refine ⟨short, ?_⟩
  rw [keyLine_eq]
  by_cases empty : text = []
  · subst empty
    rw [List.append_cons, List.rdropWhile_concat_pos _ _ _ (by decide),
      rdropWhile_append_solid (by simp) (by decide), List.getLast?_concat]
    decide
  · rw [List.append_cons, List.append_cons,
      rdropWhile_append_solid empty (strip_eq_self_iff.mp value.trimmed).2,
      List.getLast?_append_of_ne_nil _ empty]
    exact value.last

private theorem header_solid : (91 :: s ++ [93]).rdropWhile isspace = 91 :: s ++ [93] :=
  rdropWhile_append_solid (by simp) (by decide) _

private theorem keyLine_solid (name text : List UInt8) :
    (keyLine name text).rdropWhile isspace ≠ [] := by
  intro empty
  have blank := List.rdropWhile_eq_nil_iff.mp empty 61 (by simp [keyLine_eq])
  exact absurd blank (by decide)

/-- A statement that assigns has its effect, and is read inside the buffers. -/
theorem statement_header (named : SectionName s) :
    m.Inside (91 :: s ++ [93]) ∧
      m.statement (91 :: s ++ [93]) = ⟨s, m.map.call (.set s none), 0⟩ := by
  have read := @iniparserLine_header m.sect s named
  constructor
  · refine ⟨by simp, fun key val value => ?_⟩
    rw [read] at value
    cases value
  · rw [IniMeaning.statement, read]
    rfl

private theorem statement_keyLine (key : KeyName name) (value : ValueText text)
    (short : (keyLine name text).length ≤ 1022)
    (fits : (m.sect ++ 58 :: name).length ≤ asciiLineSz) :
    m.Inside ((keyLine name text).rdropWhile isspace) ∧
      m.statement ((keyLine name text).rdropWhile isspace) =
        m.assign (m.sect ++ 58 :: name) (some text) := by
  have read := @iniparserLine_keyLine m.sect name text key value (short.trans (by decide))
  constructor
  · refine ⟨keyLine_solid name text, fun key val value => ?_⟩
    rw [read] at value
    cases value
    exact fits
  · rw [IniMeaning.statement, read]
    rfl

private theorem run_keys (m : IniMeaning) (keys : List (List UInt8 × List UInt8))
    (fit : ∀ name text, (name, text) ∈ keys → KeyName name ∧ ValueText text ∧
      (m.sect ++ 58 :: name).length ≤ asciiLineSz ∧ (keyLine name text).length ≤ 1022)
    (correct : m.errs = 0) :
    Along IniMeaning.statement IniMeaning.Inside m
        (keys.map fun (name, text) => (keyLine name text).rdropWhile isspace) ∧
      run IniMeaning.statement m
        (keys.map fun (name, text) => (keyLine name text).rdropWhile isspace) =
        { m with map := (keys.map fun (name, text) =>
            DictCall.set (m.sect ++ 58 :: name) (some text)).foldl DictMap.call m.map } := by
  induction keys generalizing m with
  | nil => exact ⟨trivial, rfl⟩
  | cons first keys ih =>
      obtain ⟨name, text⟩ := first
      obtain ⟨key, value, fits, short⟩ := fit name text List.mem_cons_self
      obtain ⟨inside, assigned⟩ := statement_keyLine key value short fits
      simp only [List.map_cons, along_cons, run_cons, assigned]
      obtain ⟨along, runs⟩ := ih (m.assign (m.sect ++ 58 :: name) (some text))
        (fun name text later => fit name text (List.mem_cons_of_mem _ later)) rfl
      refine ⟨⟨inside, along⟩, runs.trans ?_⟩
      simp only [IniMeaning.assign, List.foldl_cons, correct]

def Dictionary.sectionTexts (d : Dictionary) (s : List UInt8) : List (List UInt8) :=
  (91 :: s ++ [93]) :: (d.keysOf s).map fun (name, text) => (keyLine name text).rdropWhile isspace

private theorem plain_section (holds : d.Holds map) (writable : Writable map)
    (listed : s ∈ d.sections) :
    ∀ line ∈ d.sectionLines s, PlainLine line := by
  obtain ⟨plain, present⟩ := holds.mem_sections.mp listed
  obtain ⟨val, held⟩ := Option.ne_none_iff_exists'.mp present
  have blank : PlainLine [] := ⟨Nat.zero_le _, by simp⟩
  intro line member
  simp only [Dictionary.sectionLines, List.mem_cons, List.mem_append, List.mem_map,
    List.not_mem_nil, or_false] at member
  rcases member with (rfl | rfl | ⟨⟨name, text⟩, inSection, rfl⟩) | rfl
  · exact blank
  · exact plain_header (writable.sections s val held plain).2
  · have held := (holds.mem_keysOf writable plain).mp inSection
    obtain ⟨text', same, -, -, value, -, short⟩ := writable.key plain held
    cases same
    exact plain_keyLine value short
  · exact blank

private theorem texts_section (holds : d.Holds map) (writable : Writable map)
    (listed : s ∈ d.sections) :
    (d.sectionLines s).flatMap (fun line => (statementText [] line).toList) = d.sectionTexts s := by
  have plain := plain_section holds writable listed
  have blank : statementText [] [] = none := rfl
  have header : statementText [] (91 :: s ++ [93]) = some (91 :: s ++ [93]) := by
    rw [statementText_plain (plain _ (by simp [Dictionary.sectionLines])) (by simp), header_solid]
  have keys : ((d.keysOf s).map fun (name, text) => keyLine name text).flatMap
      (fun line => (statementText [] line).toList) =
        (d.keysOf s).map fun (name, text) => (keyLine name text).rdropWhile isspace := by
    rw [List.flatMap_map, List.map_eq_flatMap]
    refine List.flatMap_congr fun entry inSection => ?_
    have line := plain (keyLine entry.1 entry.2) (by
      simp only [Dictionary.sectionLines, List.mem_cons, List.mem_append, List.mem_map]
      exact .inl (.inr (.inr ⟨entry, inSection, rfl⟩)))
    rw [statementText_plain line (by simp [keyLine_eq])]
    rfl
  unfold Dictionary.sectionLines Dictionary.sectionTexts
  rw [List.flatMap_append, List.flatMap_cons, List.flatMap_cons, keys, header, blank]
  simp [blank]

/-- What reading a section does. -/
theorem run_section (holds : d.Holds map) (writable : Writable map) (listed : s ∈ d.sections) :
    Along IniMeaning.statement IniMeaning.Inside m (d.sectionTexts s) ∧
      run IniMeaning.statement m (d.sectionTexts s) =
        ⟨s, (d.sectionCalls s).foldl DictMap.call m.map, 0⟩ := by
  obtain ⟨plain, present⟩ := holds.mem_sections.mp listed
  obtain ⟨val, held⟩ := Option.ne_none_iff_exists'.mp present
  obtain ⟨inside, entered⟩ := statement_header (m := m) (writable.sections s val held plain).2
  obtain ⟨along, runs⟩ := run_keys ⟨s, m.map.call (.set s none), 0⟩ (d.keysOf s) (by
    intro name text inSection
    have held := (holds.mem_keysOf writable plain).mp inSection
    obtain ⟨text', same, -, key, value, fits, short⟩ := writable.key plain held
    cases same
    exact ⟨key, value, fits, short⟩) rfl
  rw [Dictionary.sectionTexts, along_cons, run_cons, entered]
  exact ⟨⟨inside, along⟩, runs⟩

/-- What reading all sections does. -/
theorem run_sections (holds : d.Holds map) (writable : Writable map)
    {names : List (List UInt8)} (listed : ∀ s ∈ names, s ∈ d.sections) (correct : m.errs = 0) :
    Along IniMeaning.statement IniMeaning.Inside m (names.flatMap d.sectionTexts) ∧
      (run IniMeaning.statement m (names.flatMap d.sectionTexts)).map =
        (names.flatMap d.sectionCalls).foldl DictMap.call m.map ∧
      (run IniMeaning.statement m (names.flatMap d.sectionTexts)).errs = 0 := by
  induction names generalizing m with
  | nil => exact ⟨trivial, rfl, correct⟩
  | cons s names ih =>
      obtain ⟨along, runs⟩ := run_section (m := m) holds writable (listed s List.mem_cons_self)
      obtain ⟨later, map, errs⟩ := ih
        (m := ⟨s, (d.sectionCalls s).foldl DictMap.call m.map, 0⟩)
        (fun other member => listed other (List.mem_cons_of_mem s member)) rfl
      rw [List.flatMap_cons, List.flatMap_cons, along_append, run_append, runs, List.foldl_append]
      exact ⟨⟨along, later⟩, map, errs⟩

/-- The sections that are listed set what the map holds. -/
theorem calls_sections (holds : d.Holds map) (writable : Writable map) :
    DictMap.calls (d.sections.flatMap d.sectionCalls) = map := by
  refine DictMap.calls_agree ?_ ?_
  · intro call member
    obtain ⟨s, listed, inSection⟩ := List.mem_flatMap.mp member
    obtain ⟨plain, present⟩ := holds.mem_sections.mp listed
    obtain ⟨val, held⟩ := Option.ne_none_iff_exists'.mp present
    rcases List.mem_cons.mp inSection with rfl | key
    · obtain ⟨rfl, -⟩ := writable.sections s val held plain
      exact ⟨s, none, rfl, held⟩
    · obtain ⟨⟨name, text⟩, entry, rfl⟩ := List.mem_map.mp key
      exact ⟨_, _, rfl, (holds.mem_keysOf writable plain).mp entry⟩
  · intro key val held
    rw [List.mem_flatMap]
    by_cases colon : 58 ∈ key
    · obtain ⟨s, name, text, rfl, rfl, plain, present, -⟩ := writable.keys key val held colon
      refine ⟨s, holds.mem_sections.mpr ⟨plain, present⟩, List.mem_cons_of_mem _ ?_⟩
      exact List.mem_map.mpr ⟨(name, text), (holds.mem_keysOf writable plain).mpr held, rfl⟩
    · obtain ⟨rfl, -⟩ := writable.sections key val held colon
      exact ⟨key, holds.mem_sections.mpr ⟨colon, by simp [held]⟩, List.mem_cons_self⟩

end Reading

section Results

variable {d : Dictionary} {map : DictMap}

private theorem plain_dump (holds : d.Holds map) (writable : Writable map) :
    ∀ line ∈ d.dumpLines, PlainLine line := by
  intro line member
  rcases List.mem_append.mp member with inSections | last
  · obtain ⟨s, listed, inSection⟩ := List.mem_flatMap.mp inSections
    exact plain_section holds writable listed line inSection
  · rw [List.mem_singleton.mp last]
    exact ⟨Nat.zero_le _, by simp⟩

private theorem strings_dump (holds : d.Holds map) (writable : Writable map) :
    ∀ line ∈ d.dumpLines, 0 ∉ line ∧ 10 ∉ line := by
  intro line member
  simp only [Dictionary.dumpLines, Dictionary.sectionLines, List.mem_append, List.mem_flatMap,
    List.mem_cons, List.mem_map, List.not_mem_nil, or_false] at member
  rcases member with ⟨s, listed, (rfl | rfl | ⟨⟨name, text⟩, entry, rfl⟩) | rfl⟩ | rfl
  · simp
  · obtain ⟨plain, present⟩ := holds.mem_sections.mp listed
    obtain ⟨val, held⟩ := Option.ne_none_iff_exists'.mp present
    have bytes := (writable.sections s val held plain).2.plain
    have noNul : 0 ∉ s := fun member => (bytes 0 member).2.2.2 rfl
    have oneLine : 10 ∉ s := fun member => (bytes 10 member).2.2.1 rfl
    simp [noNul, oneLine]
  · obtain ⟨plain, -⟩ := holds.mem_sections.mp listed
    have held := (holds.mem_keysOf writable plain).mp entry
    obtain ⟨text', same, -, key, value, -⟩ := writable.key plain held
    cases same
    have noNul : 0 ∉ name ∧ 0 ∉ text :=
      ⟨fun member => (key.plain 0 member).2.2 rfl, fun member => (value.plain 0 member).2.2.2 rfl⟩
    have oneLine : 10 ∉ name ∧ 10 ∉ text :=
      ⟨fun member => (key.plain 10 member).2.1 rfl, fun member => (value.plain 10 member).2.2.1 rfl⟩
    simp [keyLine_eq, noNul, oneLine]
  · simp
  · simp

private theorem statements_dump (holds : d.Holds map) (writable : Writable map) :
    statements [] d.dumpLines = d.sections.flatMap d.sectionTexts := by
  rw [statements_plain (plain_dump holds writable), Dictionary.dumpLines, List.flatMap_append,
    List.flatMap_assoc, List.flatMap_congr fun s listed => texts_section holds writable listed]
  exact List.append_nil _

/-- A file of plain lines is read as its statements. -/
theorem iniparserLoad_plain (lines : List (List UInt8)) (plain : ∀ line ∈ lines, PlainLine line)
    (strings : ∀ line ∈ lines, 0 ∉ line ∧ 10 ∉ line) (small : (textOf lines).length ≤ 134217728)
    (inside : StaysInside lines) (correct : (meaning lines).errs = 0) :
    ∃ d, iniparserLoad (textOf lines) = .loaded d ∧ d.Holds (meaning lines).map := by
  have splits : Splits (textOf lines) lines [] :=
    ⟨by simp, strings, by simp, shortLines_plain plain, by simp,
      (length_le_textOf lines).trans small⟩
  obtain ⟨load, means, ends⟩ := (iniparserLoad_eq splits).2.2 inside fun truncated => truncated.1 rfl
  have errs : ¬ load.errs ≠ 0 := by
    rw [means.errs, correct]
    exact not_not.mpr rfl
  exact ⟨load.dict, by rw [ends, IniLoad.finish, if_neg errs], means.holds⟩

/-- Without sections a dictionary holds nothing and nothing is printed. -/
theorem iniparserDumpIni_blank (holds : d.Holds map) (writable : Writable map)
    (blank : d.sections = []) : iniparserDumpIni d = some [] ∧ map = fun _ => none := by
  have empty : map = fun _ => none := by
    funext key
    by_contra present
    obtain ⟨val, held⟩ := Option.ne_none_iff_exists'.mp present
    have listed : ∃ s, s ∈ d.sections := by
      by_cases colon : 58 ∈ key
      · obtain ⟨s, name, text, -, -, plain, present, -⟩ := writable.keys key val held colon
        exact ⟨s, holds.mem_sections.mpr ⟨plain, present⟩⟩
      · exact ⟨key, holds.mem_sections.mpr ⟨colon, present⟩⟩
    obtain ⟨s, listed⟩ := listed
    rw [blank] at listed
    cases listed
  refine ⟨?_, empty⟩
  have unused : ∀ slot ∈ d.slots, dumpPlain slot = [] := by
    intro slot member
    cases stored : slot.key with
    | none => simp [dumpPlain, stored]
    | some key =>
        have held := holds.mem_slots.mpr ⟨slot, member, stored, rfl⟩
        rw [empty] at held
        cases held
  have none_listed : iniparserGetnsec d < 1 := by
    rw [iniparserGetnsec_eq, blank]
    exact Nat.one_pos
  rw [iniparserDumpIni]
  simp only [if_pos none_listed]
  rw [List.flatMap_eq_nil_iff.mpr unused]

private theorem dump_loads (holds : d.Holds map) (writable : Writable map) :
    ∃ file, iniparserDumpIni d = some file ∧ (file.length ≤ 134217728 →
      ∃ d', iniparserLoad file = .loaded d' ∧ d'.Holds map) := by
  by_cases blank : d.sections = []
  · obtain ⟨dumps, empty⟩ := iniparserDumpIni_blank holds writable blank
    refine ⟨[], dumps, fun small => ?_⟩
    rw [empty]
    exact iniparserLoad_plain [] (by simp) (by simp) small trivial rfl
  · refine ⟨_, iniparserDumpIni_eq holds writable blank, fun small => ?_⟩
    obtain ⟨inside, meant, errs⟩ := run_sections (m := .start) holds writable
      (fun s listed => listed) rfl
    have texts := statements_dump holds writable
    rw [← texts] at inside meant errs
    obtain ⟨d', loads, holds'⟩ := iniparserLoad_plain _ (plain_dump holds writable)
      (strings_dump holds writable) small inside errs
    refine ⟨d', loads, ?_⟩
    have same : (meaning d.dumpLines).map = map := meant.trans (calls_sections holds writable)
    rw [← same]
    exact holds'

/-- What is printed of a dictionary that the syntax can express is loaded as a dictionary with
the same keys and values. -/
theorem iniparser_dump_loads (size : Int) {calls : List DictCall}
    (few : (calls.filter DictCall.isSet).length ≤ 134217728)
    (writable : Writable (DictMap.calls calls)) :
    ∃ d file, (dictionaryNew size).calls calls = some d ∧ iniparserDumpIni d = some file ∧
      (file.length ≤ 134217728 → ∃ d', iniparserLoad file = .loaded d' ∧ d'.n = d.n ∧
        ∀ key default, dictionaryGet d' key default = dictionaryGet d key default) := by
  obtain ⟨d, runs, holds⟩ := (Dictionary.holds_new size).calls calls
    (by simpa [dictionaryNew] using few)
  obtain ⟨file, dumps, loads⟩ := dump_loads holds writable
  refine ⟨d, file, runs, dumps, fun small => ?_⟩
  obtain ⟨d', loaded, holds'⟩ := loads small
  refine ⟨d', loaded, ?_, fun key default => ?_⟩
  · rw [holds'.counted, holds.counted, holds'.represents.count, holds.represents.count]
  · rw [holds'.get, holds.get]

theorem iniparser_dump_loads_one_value :
    ∃ d file, (dictionaryNew 0).calls
        [.set (literal "net") none, .set (literal "net:idle") (some (literal "30 s"))] = some d ∧
      iniparserDumpIni d = some file ∧
      (file.length ≤ 134217728 → ∃ d', iniparserLoad file = .loaded d' ∧ d'.n = d.n ∧
        ∀ key default, dictionaryGet d' key default = dictionaryGet d key default) := by
  refine iniparser_dump_loads 0 (by decide) ⟨?_, ?_⟩
  · intro key val held plain
    rcases List.mem_cons.mp (DictMap.mem_of_calls held) with same | later
    · cases same
      exact ⟨rfl, by decide, by decide, by decide, by simp [literal], by decide⟩
    · cases List.mem_singleton.mp later
      exact absurd plain (by decide)
  · intro key val held colon
    rcases List.mem_cons.mp (DictMap.mem_of_calls held) with same | later
    · cases same
      exact absurd colon (by decide)
    · cases List.mem_singleton.mp later
      exact ⟨literal "net", literal "idle", literal "30 s", by decide, rfl, by decide, by decide,
        ⟨by decide, by decide, by decide, by simp [literal], by decide⟩,
        ⟨by decide, by simp [literal], by decide, by decide⟩, by decide, by decide⟩

end Results

end MpNet.Config
