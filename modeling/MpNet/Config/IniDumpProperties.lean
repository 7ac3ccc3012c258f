import MpNet.Config.DictionaryProperties
import MpNet.Config.IniLineProperties

/-!
# What is listed and printed of a dictionary

The sections are the keys without a colon, each with the keys that begin with it. Where the
syntax can express them, what `iniparser_dump_ini` prints is the text of their lines.
-/

set_option autoImplicit false

namespace MpNet.Config

open Library

/-- The keys without a colon are sections and have no value. Every other key belongs to a
section, and fits in a line with its value. -/
structure Writable (map : DictMap) : Prop where
  sections : ∀ key val, map key = some val → 58 ∉ key → val = none ∧ SectionName key
  keys : ∀ key val, map key = some val → 58 ∈ key →
    ∃ s name text, key = s ++ 58 :: name ∧ val = some text ∧ 58 ∉ s ∧ map s ≠ none ∧
      KeyName name ∧ ValueText text ∧ key.length ≤ asciiLineSz ∧
      (keyLine name text).length ≤ 1022

/-! ## What a dictionary lists -/

def Slot.sectionName (slot : Slot) : Option (List UInt8) := slot.key.filter (58 ∉ ·)

/-- The keys without a colon, in the order of the slots. -/
def Dictionary.sections (d : Dictionary) : List (List UInt8) := d.slots.filterMap Slot.sectionName

/-- The keys of a section with their values, in the order of the slots. -/
def Dictionary.keysOf (d : Dictionary) (s : List UInt8) : List (List UInt8 × List UInt8) :=
  d.slots.filterMap fun slot =>
    if slot.inSection s then some ((slot.key.getD []).drop (s.length + 1), slot.val.getD [])
    else none

section Listing

variable {d : Dictionary} {map : DictMap} {s name : List UInt8}

private theorem slot_isSection (slot : Slot) : slot.isSection = slot.sectionName.isSome := by
  unfold Slot.isSection Slot.sectionName
  cases slot.key with
  | none => rfl
  | some key => by_cases plain : 58 ∈ key <;> simp [Option.filter, plain]

theorem iniparserGetnsec_eq (d : Dictionary) : iniparserGetnsec d = d.sections.length := by
  unfold iniparserGetnsec Dictionary.sections
  rw [List.length_filterMap_eq_countP]
  exact congrArg (List.countP · d.slots) (funext slot_isSection)

private theorem secnameFrom_eq (slots : List Slot) (n : Nat) :
    secnameFrom slots n = (slots.filterMap Slot.sectionName)[n]? := by
  induction slots generalizing n with
  | nil => rfl
  | cons slot slots ih =>
      unfold secnameFrom
      rw [slot_isSection]
      cases listed : slot.sectionName with
      | none => simpa [List.filterMap_cons_none listed] using ih n
      | some key =>
          rw [List.filterMap_cons_some listed]
          cases n with
          | zero => simpa using (Option.filter_eq_some_iff.mp listed).1
          | succ n => simpa using ih n

/-- The sections are listed in the order of the slots. -/
theorem iniparserGetsecname_eq (d : Dictionary) (n : Nat) :
    iniparserGetsecname d n = d.sections[n]? := secnameFrom_eq d.slots n

theorem Dictionary.Holds.mem_slots (holds : d.Holds map) {key : List UInt8}
    {val : Option (List UInt8)} :
    map key = some val ↔ ∃ slot ∈ d.slots, slot.key = some key ∧ slot.val = val := by
  rw [holds.represents.entry_iff, Dictionary.table, List.mem_map]
  refine exists_congr fun slot => and_congr_right fun _ => ?_
  unfold Slot.entry
  cases slot.key <;> simp

theorem Dictionary.Holds.mem_sections (holds : d.Holds map) :
    s ∈ d.sections ↔ 58 ∉ s ∧ map s ≠ none := by
  rw [Option.ne_none_iff_exists']
  simp only [holds.mem_slots, Dictionary.sections, List.mem_filterMap, Slot.sectionName,
    Option.filter_eq_some_iff, decide_eq_true_eq]
  constructor
  · rintro ⟨slot, member, stored, plain⟩
    exact ⟨plain, slot.val, slot, member, stored, rfl⟩
  · rintro ⟨plain, val, slot, member, stored, -⟩
    exact ⟨slot, member, stored, plain⟩

private theorem split_colon {s' name' : List UInt8} (plain : 58 ∉ s) (plain' : 58 ∉ s')
    (same : s ++ 58 :: name = s' ++ 58 :: name') : s = s' ∧ name = name' := by
  have front (s name : List UInt8) (plain : 58 ∉ s) :
      (s ++ 58 :: name).takeWhile (· ≠ 58) = s := by
    rw [List.takeWhile_append_of_pos fun byte member => by
      simpa using ne_of_mem_of_not_mem member plain]
    simp
  obtain rfl : s = s' := by rw [← front s name plain, same, front s' name' plain']
  simpa using same

private theorem slot_inSection {slot : Slot} :
    slot.inSection s = true ↔ ∃ name, slot.key = some (s ++ 58 :: name) := by
  unfold Slot.inSection
  cases slot.key with
  | none => simp
  | some key =>
      simp only [Option.any_some, List.isPrefixOf_iff_prefix, List.prefix_iff_exists_eq_append,
        Option.some.injEq, List.append_assoc, List.singleton_append]

private theorem Dictionary.keys_table (d : Dictionary) :
    SlotTable.keys d.table = d.slots.filterMap Slot.key := by
  unfold SlotTable.keys Dictionary.table
  rw [List.filterMap_map]
  refine List.filterMap_congr fun slot _ => ?_
  cases stored : slot.key <;> simp [Slot.entry, stored]

private theorem Dictionary.Holds.sections_nodup (holds : d.Holds map) : d.sections.Nodup := by
  have distinct := holds.represents.distinct
  rw [d.keys_table] at distinct
  have listed : d.sections = (d.slots.filterMap Slot.key).filter (58 ∉ ·) := by
    rw [List.filter_filterMap]
    rfl
  rw [listed]
  exact distinct.filter _

/-- The slots whose keys meet a condition are as many as the keys of the map that do. -/
theorem Dictionary.Holds.count_keys (holds : d.Holds map) (meets : List UInt8 → Bool) :
    d.slots.countP (fun slot => slot.key.any meets) =
      Set.ncard {key | map key ≠ none ∧ meets key = true} := by
  have distinct := holds.represents.distinct
  have same : {key | map key ≠ none ∧ meets key = true} =
      (((SlotTable.keys d.table).filter meets).toFinset : Set (List UInt8)) := by
    ext key
    simp [holds.represents.mem_keys]
  rw [same, Set.ncard_coe_finset, List.toFinset_card_of_nodup (distinct.filter _), d.keys_table,
    List.filter_filterMap, List.length_filterMap_eq_countP]
  congr 1
  funext slot
  cases stored : slot.key with
  | none => rfl
  | some key => by_cases met : meets key <;> simp [Option.filter, met]

/-- A key of a section, with what the syntax asks of it. -/
theorem Writable.key (writable : Writable map) (plain : 58 ∉ s) {val : Option (List UInt8)}
    (held : map (s ++ 58 :: name) = some val) :
    ∃ text, val = some text ∧ map s ≠ none ∧ KeyName name ∧ ValueText text ∧
      (s ++ 58 :: name).length ≤ asciiLineSz ∧ (keyLine name text).length ≤ 1022 := by
  obtain ⟨s', name', text, same, rfl, plain', present, conditions⟩ :=
    writable.keys _ val held (by simp)
  obtain ⟨rfl, rfl⟩ := split_colon plain plain' same
  exact ⟨text, rfl, present, conditions⟩

theorem Dictionary.Holds.mem_keysOf (holds : d.Holds map) (writable : Writable map)
    (plain : 58 ∉ s) {text : List UInt8} :
    (name, text) ∈ d.keysOf s ↔ map (s ++ 58 :: name) = some (some text) := by
  unfold Dictionary.keysOf
  rw [List.mem_filterMap]
  constructor
  · rintro ⟨slot, member, listed⟩
    split at listed
    · rename_i inside
      obtain ⟨name', stored⟩ := slot_inSection.mp inside
      have held := holds.mem_slots.mpr ⟨slot, member, stored, rfl⟩
      obtain ⟨text', value, -⟩ := writable.key plain held
      rw [stored, value] at listed
      obtain ⟨rfl, rfl⟩ : name' = name ∧ text' = text := by simpa using listed
      rw [held, value]
    · cases listed
  · intro held
    obtain ⟨slot, member, stored, value⟩ := holds.mem_slots.mp held
    refine ⟨slot, member, ?_⟩
    rw [if_pos (slot_inSection.mpr ⟨name, stored⟩), stored, value]
    simp

/-- Every section is listed once, and the numbers of sections and of their keys are right; a
section whose name does not fit into `keym` has no number of keys. -/
theorem iniparser_lists_sections (size : Int) {calls : List DictCall}
    (few : (calls.filter DictCall.isSet).length ≤ 134217728) :
    ∃ d, (dictionaryNew size).calls calls = some d ∧
      (∀ s, (∃! n, iniparserGetsecname d n = some s) ↔ DictMap.calls calls s ≠ none ∧ 58 ∉ s) ∧
      iniparserGetnsec d = Set.ncard {s | DictMap.calls calls s ≠ none ∧ 58 ∉ s} ∧
      ∀ s, iniparserFindEntry d s = true → iniparserGetsecnkeys d s =
        if s.length < 1024 then
          some (Set.ncard {key | DictMap.calls calls key ≠ none ∧ s ++ [58] <+: key})
        else none := by
  obtain ⟨d, runs, holds⟩ := (Dictionary.holds_new size).calls calls
    (by simpa [dictionaryNew] using few)
  refine ⟨d, runs, fun s => ?_, ?_, fun s found => ?_⟩
  · rw [and_comm]
    refine Iff.trans ?_ holds.mem_sections
    simp only [iniparserGetsecname_eq]
    constructor
    · rintro ⟨n, listed, -⟩
      exact List.mem_of_getElem? listed
    · intro member
      obtain ⟨n, below, rfl⟩ := List.getElem_of_mem member
      refine ⟨n, List.getElem?_eq_getElem below, fun other listed => ?_⟩
      obtain ⟨inside, same⟩ := List.getElem?_eq_some_iff.mp listed
      exact holds.sections_nodup.getElem_inj_iff.mp same
  · refine (holds.count_keys fun key => decide (58 ∉ key)).trans ?_
    simp only [decide_eq_true_eq]
    rfl
  · rw [iniparserGetsecnkeys, if_pos found]
    refine if_congr Nat.succ_le_iff (congrArg some ?_) rfl
    refine (holds.count_keys fun key => (s ++ [58]).isPrefixOf key).trans ?_
    simp only [List.isPrefixOf_iff_prefix]
    rfl

theorem iniparser_lists_sections_one :
    ∃ d, (dictionaryNew 0).calls
        [.set (literal "net") none, .set (literal "net:idle") (some (literal "30"))] = some d ∧
      (∀ s, (∃! n, iniparserGetsecname d n = some s) ↔
        DictMap.calls [.set (literal "net") none, .set (literal "net:idle") (some (literal "30"))] s
          ≠ none ∧ 58 ∉ s) ∧
      iniparserGetnsec d = Set.ncard {s | DictMap.calls
        [.set (literal "net") none, .set (literal "net:idle") (some (literal "30"))] s ≠ none ∧
          58 ∉ s} ∧
      ∀ s, iniparserFindEntry d s = true → iniparserGetsecnkeys d s =
        if s.length < 1024 then some (Set.ncard {key |
          DictMap.calls [.set (literal "net") none, .set (literal "net:idle") (some (literal "30"))]
            key ≠ none ∧ s ++ [58] <+: key})
        else none :=
  iniparser_lists_sections 0 (by decide)

end Listing

/-! ## What is printed -/

def Dictionary.sectionLines (d : Dictionary) (s : List UInt8) : List (List UInt8) :=
  [] :: (91 :: s ++ [93]) :: (d.keysOf s).map (fun (name, text) => keyLine name text) ++ [[]]

def Dictionary.dumpLines (d : Dictionary) : List (List UInt8) :=
  d.sections.flatMap d.sectionLines ++ [[]]

section Printing

variable {d : Dictionary} {map : DictMap} {s : List UInt8}

private theorem textOf_append (first second : List (List UInt8)) :
    textOf (first ++ second) = textOf first ++ textOf second := List.flatMap_append

private theorem textOf_keysOf (slots : List Slot) (n : Nat) (s : List UInt8) :
    slots.flatMap (dumpSlot s) =
      textOf ((Dictionary.keysOf ⟨n, slots⟩ s).map fun (name, text) => keyLine name text) := by
  induction slots with
  | nil => rfl
  | cons slot slots ih =>
      rw [List.flatMap_cons, ih]
      unfold Dictionary.keysOf dumpSlot
      by_cases inside : slot.inSection s
      · simp [inside, textOf]
      · simp [inside]

private theorem findEntry_section (holds : d.Holds map) (writable : Writable map) (plain : 58 ∉ s)
    (present : map s ≠ none) : iniparserFindEntry d s = true := by
  obtain ⟨val, held⟩ := Option.ne_none_iff_exists'.mp present
  obtain ⟨rfl, named⟩ := writable.sections s val held plain
  have fits : s.length ≤ asciiLineSz := named.short.trans (by decide)
  have found : iniparserGetstring (some d) s .invalidKey = .null := by
    rw [iniparserGetstring, strlwc_self named.lower fits, holds.get, DictMap.get, held]
    rfl
  simp [iniparserFindEntry, found]

private theorem iniparserDumpsectionIni_eq (holds : d.Holds map) (writable : Writable map)
    (listed : s ∈ d.sections) : iniparserDumpsectionIni d s = some (textOf (d.sectionLines s)) := by
  obtain ⟨plain, present⟩ := holds.mem_sections.mp listed
  obtain ⟨val, held⟩ := Option.ne_none_iff_exists'.mp present
  have fits : s.length + 1 ≤ asciiLineSz := by
    have short := (writable.sections s val held plain).2.short
    unfold asciiLineSz
    omega
  rw [iniparserDumpsectionIni, if_pos (findEntry_section holds writable plain present), if_pos fits,
    textOf_keysOf d.slots d.n]
  simp [Dictionary.sectionLines, textOf]

/-- A loop that appends what it computes. -/
theorem foldlM_append {Item : Type} {part : Item → Option (List UInt8)} {text : Item → List UInt8}
    {items : List Item} (parts : ∀ item ∈ items, part item = some (text item)) (out : List UInt8) :
    items.foldlM (fun out item => (part item).bind fun section_ => some (out ++ section_)) out =
      some (out ++ items.flatMap text) := by
  induction items generalizing out with
  | nil => simp
  | cons item items ih =>
      rw [List.foldlM_cons, parts item List.mem_cons_self]
      refine (ih (fun later member => parts later (List.mem_cons_of_mem item member)) _).trans ?_
      rw [List.flatMap_cons, List.append_assoc]

private theorem sections_flatMap {Item : Type} (names : List Item) (text : Item → List UInt8) :
    (List.range names.length).flatMap (fun i => (names[i]?).elim [] text) = names.flatMap text := by
  have listed : (List.range names.length).map (names[·]?) = names.map some := by
    refine List.ext_getElem (by simp) fun i _ below => ?_
    simp at below
    simp [below]
  calc (List.range names.length).flatMap (fun i => (names[i]?).elim [] text)
      = ((List.range names.length).map (names[·]?)).flatMap (·.elim [] text) := by
        rw [List.flatMap_map]
    _ = names.flatMap text := by
        rw [listed, List.flatMap_map]
        rfl

theorem iniparserDumpIni_eq (holds : d.Holds map) (writable : Writable map)
    (some_section : d.sections ≠ []) : iniparserDumpIni d = some (textOf d.dumpLines) := by
  have positive : ¬ iniparserGetnsec d < 1 := by
    rw [iniparserGetnsec_eq, Nat.lt_one_iff, List.length_eq_zero_iff]
    exact some_section
  have parts : ∀ i ∈ List.range (iniparserGetnsec d),
      (iniparserGetsecname d i).elim (some []) (iniparserDumpsectionIni d) =
        some ((d.sections[i]?).elim [] fun s => textOf (d.sectionLines s)) := by
    intro i _
    rw [iniparserGetsecname_eq]
    cases listed : d.sections[i]? with
    | none => rfl
    | some s => exact iniparserDumpsectionIni_eq holds writable (List.mem_of_getElem? listed)
  have sections := sections_flatMap d.sections fun s => textOf (d.sectionLines s)
  unfold iniparserDumpIni
  simp only [if_neg positive, Option.bind_eq_bind]
  rw [foldlM_append parts, Option.bind_some, List.nil_append, iniparserGetnsec_eq, sections,
    Dictionary.dumpLines, textOf_append]
  simp [textOf, List.flatMap_assoc]

end Printing

end MpNet.Config
