import MpNet.Config.BindConf
import MpNet.Config.StrSplitProperties

/-!
# The entries of the bind file

What the table holds after `load_bind_file`, beside the entries that the lines of the file
denote.
-/

set_option autoImplicit false

namespace MpNet.Config

open Library

/-- What a line says, with names as strings. -/
structure Entry where
  serverId : Int
  serverName : List UInt8
  bindIp : List UInt8
  bindPort : Int
deriving DecidableEq

def BindConfigInfo.entry (bc : BindConfigInfo) : Entry where
  serverId := bc.serverId
  serverName := cstring bc.serverName
  bindIp := cstring bc.bindIp
  bindPort := bc.bindPort

def fieldsEntry : List (List UInt8) → Option Entry
  | [id, name, ip, port] => some {
      serverId := u32 (atoi id)
      serverName := name.take 15
      bindIp := ip.take 15
      bindPort := u32 (atoi port) }
  | _ => none

/-- A line that starts with `#` or has fewer than four fields says nothing. -/
def lineEntry (line : List UInt8) : Option Entry :=
  if line.head? = some 35 then none else fieldsEntry (splitFields defaultIfs 4 line)

def entries (text : List UInt8) : List Entry := (text.splitOn 10).filterMap lineEntry

/-- The last line of the text ends with a newline. -/
def Terminated (text : List UInt8) : Prop := text = [] ∨ text.getLast? = some 10

instance (text : List UInt8) : Decidable (Terminated text) :=
  inferInstanceAs (Decidable (text = [] ∨ text.getLast? = some 10))

section Text

variable {line text left right rest : List UInt8}

private theorem entries_nil : entries [] = [] := by decide

private theorem entries_append_cons :
    entries (left ++ 10 :: right) = entries left ++ entries right := by
  rw [entries, List.splitOn_append_cons_self, List.filterMap_append]
  rfl

private theorem entries_line (oneLine : 10 ∉ line) : entries line = (lineEntry line).toList := by
  rw [entries, List.splitOn_eq_singleton oneLine]
  cases found : lineEntry line <;> simp [found]

private theorem entries_append (terminated : Terminated left) :
    entries (left ++ right) = entries left ++ entries right := by
  rcases terminated with rfl | last
  · rw [entries_nil, List.nil_append, List.nil_append]
  · obtain ⟨init, rfl⟩ := List.getLast?_eq_some_iff.mp last
    rw [List.append_assoc, List.singleton_append, entries_append_cons, entries_append_cons,
      entries_nil, List.append_nil]

private theorem terminated_nil : Terminated [] := .inl rfl

private theorem terminated_append_cons : Terminated (left ++ 10 :: right) ↔ Terminated right := by
  unfold Terminated
  cases right <;> simp

private theorem not_terminated (some : line ≠ []) (oneLine : 10 ∉ line) : ¬ Terminated line := by
  rintro (empty | last)
  · exact some empty
  · exact oneLine (List.mem_of_getLast? last)

end Text

/-! ## One line -/

namespace Load

/-- The table holds these entries and nothing else. -/
structure Holds (load : Load) (found : List Entry) : Prop where
  stored : load.stored = List.range found.length
  bindNum : load.bindNum = found.length
  configs : (List.range found.length).map (fun index => (load.configs index).entry) = found
  fresh : ∀ index ≥ found.length, load.configs index = .zeroed

variable {load : Load} {found : List Entry} {before line rest : List UInt8}

theorem Holds.congr {load' : Load} (holds : load.Holds found) (stored : load'.stored = load.stored)
    (bindNum : load'.bindNum = load.bindNum) (configs : load'.configs = load.configs) :
    load'.Holds found where
  stored := stored ▸ holds.stored
  bindNum := bindNum ▸ holds.bindNum
  configs := configs ▸ holds.configs
  fresh := configs ▸ holds.fresh

theorem Holds.checkNum (holds : load.Holds found) : load.checkNum.Holds found := by
  unfold Load.checkNum
  split
  · exact holds.congr rfl rfl rfl
  · exact holds

private theorem checkNum_buffer : load.checkNum.buffer = load.buffer := by
  unfold Load.checkNum
  split <;> rfl

private theorem checkNum_start : load.checkNum.start = load.start := by
  unfold Load.checkNum
  split <;> rfl

theorem Holds.storeFields (holds : load.Holds found) {field : List (List UInt8)}
    (noNul : ∀ string ∈ field, 0 ∉ string) :
    (load.storeFields field).Holds (found ++ (fieldsEntry field).toList) := by
  unfold Load.storeFields fieldsEntry
  split
  · rename_i id name ip port
    have zeroed : load.configs load.bindNum = .zeroed := holds.fresh _ holds.bindNum.ge
    have nameStored : cstring (strncpy (load.configs load.bindNum).serverName name 15) =
        name.take 15 := by
      rw [zeroed]
      exact cstring_strncpy (noNul name (by simp)) rfl
    have ipStored : cstring (strncpy (load.configs load.bindNum).bindIp ip 15) = ip.take 15 := by
      rw [zeroed]
      exact cstring_strncpy (noNul ip (by simp)) rfl
    have earlier : ∀ index ∈ List.range found.length, index ≠ load.bindNum := by
      intro index member
      rw [holds.bindNum]
      exact (List.mem_range.mp member).ne
    constructor
    · simp [holds.stored, holds.bindNum, List.range_succ]
    · simp [holds.bindNum]
    · simp only [Option.toList_some, List.length_append, List.length_singleton, List.range_succ,
        List.map_append, List.map_singleton]
      congr 1
      · refine (List.map_congr_left fun index member => ?_).trans holds.configs
        rw [Function.update_of_ne (earlier index member)]
      · rw [← holds.bindNum, Function.update_self]
        simp [BindConfigInfo.entry, nameStored, ipStored]
    · intro index above
      simp only [Option.toList_some, List.length_append, List.length_singleton] at above
      have later : index ≠ load.bindNum := by
        rw [holds.bindNum]
        omega
      simp only [Function.update_of_ne later]
      exact holds.fresh index (by omega)
  · simpa using holds

private theorem storeFields_buffer (field : List (List UInt8)) :
    (load.storeFields field).buffer = load.buffer := by
  unfold Load.storeFields
  split <;> rfl

private theorem parseLine_holds (noNul : 0 ∉ line)
    (buffer : load.buffer = before ++ (line ++ 0 :: rest))
    (holds : load.Holds found) :
    ∃ load' line', load.parseLine before.length = some load' ∧
      load'.buffer = before ++ (line' ++ 0 :: rest) ∧ line'.length = line.length ∧
      load'.Holds (found ++ (lineEntry line).toList) := by
  obtain ⟨byte, reads, first⟩ : ∃ byte, load.buffer[before.length]? = some byte ∧
      (byte = 35 ↔ line.head? = some 35) := by
    rw [buffer]
    cases line with
    | nil => exact ⟨0, by simp⟩
    | cons byte line => exact ⟨byte, by simp⟩
  unfold Load.parseLine
  simp only [reads, Option.bind_eq_bind, Option.bind_some]
  by_cases comment : byte = 35
  · refine ⟨load, line, if_pos comment, buffer, rfl, ?_⟩
    simpa [lineEntry, first.mp comment] using holds
  · obtain ⟨line', field, splits, length, inside, strings⟩ :=
      strSplit_line none rfl noNul 3 before rest
    rw [← Cursor.ofOffset_length, ← buffer] at splits
    have ends : ∀ offset ∈ field, 0 ∈ (before ++ (line' ++ 0 :: rest)).drop offset := by
      intro offset member
      have bound := inside offset member
      rw [← length, ← List.length_append] at bound
      rw [← List.append_assoc, List.drop_append_of_le_length bound]
      simp
    generalize same : before ++ (line' ++ 0 :: rest) = after at splits strings ends
    have noNuls : ∀ string ∈ field.map (stringAt after), 0 ∉ string := by
      intro string member
      obtain ⟨offset, -, rfl⟩ := List.mem_map.mp member
      exact cstring_noNul _
    have kept : Holds { load with buffer := after } found := holds.congr rfl rfl rfl
    rw [if_neg comment, bindConfMaxFieldNum, splits, Option.bind_some, if_pos ends]
    refine ⟨_, line', rfl, ?_, length, ?_⟩
    · rw [storeFields_buffer, same]
    · rw [lineEntry, if_neg (mt first.mpr comment)]
      rw [Option.getD_none] at strings
      rw [← strings]
      exact kept.storeFields noNuls

private theorem cutLine_eq (noNul : 0 ∉ line) (oneLine : 10 ∉ line) {stop : UInt8}
    (stops : stop = 10 ∨ stop = 0) :
    cutLine (before ++ (line ++ stop :: rest)) before.length =
      some (before ++ (line ++ 0 :: rest),
        if stop = 10 then some (before.length + line.length + 1) else none) := by
  have passes : ∀ byte ∈ line, (decide (byte ≠ 10) && decide (byte ≠ 0)) = true :=
    fun byte member => by
      simp [ne_of_mem_of_not_mem member oneLine, ne_of_mem_of_not_mem member noNul]
  have ends : (decide (stop ≠ 10) && decide (stop ≠ 0)) = false := by
    rcases stops with rfl | rfl <;> rfl
  unfold cutLine
  rw [Cursor.ofOffset_length, Cursor.forward_stops passes ends]
  rcases stops with rfl | rfl
  · simp [Cursor.read, Cursor.store, Cursor.bytes, Cursor.pos, Nat.add_comm]
  · simp [Cursor.read]

private theorem round_holds (noNul : 0 ∉ line) (oneLine : 10 ∉ line) {stop : UInt8}
    (stops : stop = 10 ∨ stop = 0) (buffer : load.buffer = before ++ (line ++ stop :: rest))
    (start : load.start = some before.length) (holds : load.Holds found) :
    ∃ load' line', load.round = some load' ∧ load'.buffer = before ++ (line' ++ 0 :: rest) ∧
      line'.length = line.length ∧
      load'.start = (if stop = 10 then some (before.length + line.length + 1) else none) ∧
      load'.Holds (found ++ (lineEntry line).toList) := by
  have same : Holds { load with
      buffer := before ++ (line ++ 0 :: rest), start := some before.length } found :=
    holds.congr rfl rfl rfl
  obtain ⟨parsed, line', parses, after, length, result⟩ := parseLine_holds noNul rfl same
  let next := if stop = 10 then some (before.length + line.length + 1) else none
  refine ⟨{ parsed with start := next }.checkNum, line', ?_, ?_, length, ?_, ?_⟩
  · simp only [Load.round, start, buffer, cutLine_eq noNul oneLine stops, Option.bind_eq_bind,
      Option.bind_some]
    rw [parses, Option.bind_some]
  · rw [checkNum_buffer, after]
  · rw [checkNum_start]
  · have moved : Holds { parsed with start := next } _ := result.congr rfl rfl rfl
    exact moved.checkNum

private theorem scan_line (noNul : 0 ∉ line) (oneLine : 10 ∉ line)
    (buffer : load.buffer = before ++ (line ++ 10 :: rest)) (start : load.start = some before.length)
    (holds : load.Holds found) {len : Nat} (within : before.length < len) (rounds : Nat) :
    ∃ (load' : Load) (before' : List UInt8),
      load.scan len (rounds + 1) = load'.scan len rounds ∧
      load'.buffer = before' ++ rest ∧ load'.start = some before'.length ∧
      before'.length = before.length + line.length + 1 ∧
      load'.Holds (found ++ (lineEntry line).toList) := by
  obtain ⟨load', line', runs, after, length, next, result⟩ :=
    round_holds noNul oneLine (.inl rfl) buffer start holds
  have position : (before ++ (line' ++ [0])).length = before.length + line.length + 1 := by
    simp [length, Nat.add_assoc]
  refine ⟨load', before ++ (line' ++ [0]), ?_, by simp [after], ?_, position, result⟩
  · rw [Load.scan, start, Option.all_some, if_pos (by simpa using within), runs]
  · rw [next, if_pos rfl, position]

/-- The line without newline is stored, and the next round reads at the address 1. -/
theorem scan_unfinished (noNul : 0 ∉ line) (oneLine : 10 ∉ line)
    (buffer : load.buffer = before ++ (line ++ 0 :: rest)) (start : load.start = some before.length)
    (holds : load.Holds found) {len : Nat} (within : before.length < len) (rounds : Nat) :
    ∃ load', load.scan len (rounds + 2) = .fault load' ∧
      load'.Holds (found ++ (lineEntry line).toList) := by
  obtain ⟨load', line', runs, -, -, next, result⟩ :=
    round_holds noNul oneLine (.inr rfl) buffer start holds
  rw [if_neg (by decide)] at next
  have faults : load'.round = none := by simp [Load.round, next]
  refine ⟨load', ?_, result⟩
  rw [Load.scan, start, Option.all_some, if_pos (by simpa using within), runs]
  simp only [Load.scan, next, Option.all_none, faults, if_true]

/-- The induction is on the rounds that are left; each takes the first line off the text. -/
theorem scan_holds {text : List UInt8} {rounds : Nat} (noNul : 0 ∉ text)
    (buffer : load.buffer = before ++ (text ++ 0 :: rest)) (start : load.start = some before.length)
    (holds : load.Holds found) (enough : text.length < rounds) :
    ∃ load', load.scan (before.length + text.length) rounds =
        (if Terminated text then .ended 0 load' else .fault load') ∧
      load'.Holds (found ++ entries text) := by
  induction rounds generalizing load found before text with
  | zero => exact absurd enough (Nat.not_lt_zero _)
  | succ rounds ih =>
      by_cases newline : 10 ∈ text
      · obtain ⟨line, later, rfl, oneLine⟩ := List.eq_append_cons_of_mem newline
        simp only [List.mem_append, List.mem_cons, not_or] at noNul
        simp only [List.length_append, List.length_cons] at enough ⊢
        have cut : load.buffer = before ++ (line ++ 10 :: (later ++ 0 :: rest)) := by
          simp [buffer]
        have within : before.length < before.length + (line.length + (later.length + 1)) := by omega
        obtain ⟨load', before', scans, after, next, position, result⟩ :=
          scan_line noNul.1 oneLine cut start holds within rounds
        obtain ⟨last, ends, table⟩ := ih noNul.2.2 after next result (by omega)
        have len : before.length + (line.length + (later.length + 1)) =
            before'.length + later.length := by omega
        refine ⟨last, ?_, ?_⟩
        · rw [scans, len, ends]
          simp only [terminated_append_cons]
        · rwa [entries_append_cons, entries_line oneLine, ← List.append_assoc]
      · cases text with
        | nil =>
            refine ⟨load, ?_, by simpa [entries_nil] using holds⟩
            simp [Load.scan, start, terminated_nil]
        | cons byte text =>
            rw [List.length_cons] at enough
            obtain ⟨rounds, rfl⟩ : ∃ more, rounds = more + 1 := ⟨rounds - 1, by omega⟩
            have within : before.length < before.length + (byte :: text).length := by simp
            obtain ⟨load', faults, result⟩ :=
              scan_unfinished noNul newline buffer start holds within rounds
            refine ⟨load', ?_, ?_⟩
            · rw [faults, if_neg (not_terminated (List.cons_ne_nil byte text) newline)]
            · rwa [entries_line newline]

end Load

/-! ## The file -/

/-- The number of bytes of a file that the mapping gets. -/
def readCount (length : Nat) : Nat :=
  if i32 (i32 length + 1) ≤ 0 then 0 else min (i32 length).toNat maxRwCount

variable {file : List UInt8}

private theorem readCount_small {length : Nat} (small : length ≤ maxRwCount) :
    readCount length = length := by
  have bound := small
  unfold maxRwCount at bound
  have len : i32 length = length := i32_of_range (by omega) (by omega)
  have mapped : i32 (length + 1) = length + 1 := i32_of_range (by omega) (by omega)
  rw [readCount, len, mapped, if_neg (by omega), Int.toNat_natCast]
  exact Nat.min_eq_left small

private theorem mmapConfigFile_eq (file : List UInt8) :
    (mmapConfigFile file = none ∧ readCount file.length = 0) ∨
      ∃ post, mmapConfigFile file = some (file.take (readCount file.length) ++ 0 :: post) := by
  unfold mmapConfigFile readCount
  split
  · exact .inl ⟨if_pos ‹_›, rfl⟩
  · rename_i mapped
    right
    simp only [if_neg mapped]
    generalize (i32 file.length).toNat = len
    have within : (file.take (min len maxRwCount)).length ≤ len := by
      simp
    generalize file.take (min len maxRwCount) = bytes at within ⊢
    refine ⟨List.replicate (len - bytes.length) 0, ?_⟩
    rw [List.drop_replicate, List.set_append_right _ _ within, List.set_replicate_self,
      Nat.succ_sub within, List.replicate_succ]

private theorem initial_holds (buffer : List UInt8) : (Load.initial buffer).Holds [] where
  stored := rfl
  bindNum := rfl
  configs := rfl
  fresh _ _ := rfl

private theorem cstring_append (array rest : List UInt8) :
    ∃ post, array ++ 0 :: rest = cstring array ++ 0 :: post := by
  have parts : cstring array ++ array.dropWhile (· ≠ 0) = array :=
    List.takeWhile_append_dropWhile
  cases stop : array.dropWhile (· ≠ 0) with
  | nil =>
      rw [stop, List.append_nil] at parts
      exact ⟨rest, by rw [parts]⟩
  | cons byte after =>
      have nul : byte = 0 := by
        have stops := List.head?_dropWhile_not (fun byte : UInt8 => decide (byte ≠ 0)) array
        rw [stop] at stops
        simpa using stops
      subst nul
      refine ⟨after ++ 0 :: rest, ?_⟩
      rw [← List.cons_append, ← List.append_assoc, ← stop, parts]

private theorem loadMapping_holds {text : List UInt8} (noNul : 0 ∉ text) (post : List UInt8) :
    ∃ load, loadMapping (text ++ 0 :: post) =
        (if Terminated text then .ended 0 load else .fault load) ∧
      load.Holds (entries text) := by
  have buffer : (Load.initial (text ++ 0 :: post)).buffer = [] ++ (text ++ 0 :: post) := rfl
  obtain ⟨load, scans, holds⟩ := Load.scan_holds noNul buffer rfl (initial_holds _)
    (Nat.lt_succ_self text.length)
  refine ⟨load, ?_, holds⟩
  simp only [loadMapping, Cursor.distance_eq noNul]
  simpa using scans

/-- The text of a file, up to the first 0 that was read. -/
def textRead (file : List UInt8) : List UInt8 := cstring (file.take (readCount file.length))

private theorem loadBindFile_holds (file : List UInt8) :
    ∃ retCode load, loadBindFile file =
        (if Terminated (textRead file) then .ended retCode load else .fault load) ∧
      load.Holds (entries (textRead file)) := by
  rcases mmapConfigFile_eq file with ⟨failed, nothing⟩ | ⟨zeros, mapped⟩
  · have empty : textRead file = [] := by rw [textRead, nothing]; rfl
    refine ⟨-1, .initial [], ?_, ?_⟩
    · rw [loadBindFile, failed, empty, if_pos terminated_nil, Option.elim_none]
    · rw [empty, entries_nil]
      exact initial_holds []
  · obtain ⟨post, buffer⟩ := cstring_append (file.take (readCount file.length)) zeros
    obtain ⟨load, loads, holds⟩ :=
      loadMapping_holds (cstring_noNul (file.take (readCount file.length))) post
    refine ⟨0, load, ?_, holds⟩
    rw [loadBindFile, mapped, buffer, Option.elim_some]
    exact loads

/-! ## Files that are loaded -/

/-- The loop ends, and the table is that of the file's entries. -/
def Loads (file : List UInt8) : Prop :=
  ∃ retCode load, loadBindFile file = .ended retCode load ∧
    (∀ index ∈ load.stored, index < maxListenFds) ∧
    (List.range load.bindNum).map (fun index => (load.configs index).entry) = entries file

theorem Loads.terminated (loads : Loads file) : Terminated (textRead file) := by
  obtain ⟨_, load, runs, _⟩ := loadBindFile_holds file
  obtain ⟨_, ended, ends, _⟩ := loads
  by_contra unfinished
  rw [if_neg unfinished, ends] at runs
  cases runs

private theorem textRead_noNul (noNul : 0 ∉ file) :
    textRead file = file.take (readCount file.length) := by
  unfold textRead cstring
  rw [List.takeWhile_eq_self_iff]
  intro byte member
  simpa using ne_of_mem_of_not_mem (List.mem_of_mem_take member) noNul

/-- What is read ends with a newline, and the rest has no entry. -/
theorem load_bind_file_loads (noNul : 0 ∉ file) (few : (entries file).length ≤ maxListenFds) :
    Loads file ↔ Terminated (file.take (readCount file.length)) ∧
      entries (file.drop (readCount file.length)) = [] := by
  obtain ⟨retCode, load, runs, holds⟩ := loadBindFile_holds file
  rw [← textRead_noNul noNul]
  have table := holds.configs
  rw [← holds.bindNum] at table
  have parts : textRead file ++ file.drop (readCount file.length) = file := by
    rw [textRead_noNul noNul, List.take_append_drop]
  have whole : Terminated (textRead file) →
      entries file = entries (textRead file) ++ entries (file.drop (readCount file.length)) := by
    intro terminated
    rw [← entries_append terminated, parts]
  constructor
  · intro loads
    have terminated := loads.terminated
    obtain ⟨_, ended, ends, -, same⟩ := loads
    rw [if_pos terminated] at runs
    obtain ⟨-, rfl⟩ := Outcome.ended.inj (runs.symm.trans ends)
    rw [table, whole terminated] at same
    exact ⟨terminated, List.self_eq_append_right.mp same⟩
  · rintro ⟨terminated, nothing⟩
    have all := whole terminated
    rw [nothing, List.append_nil] at all
    rw [if_pos terminated] at runs
    refine ⟨retCode, load, runs, ?_, table.trans all.symm⟩
    intro index member
    rw [holds.stored, List.mem_range, ← all] at member
    omega

/-- A comment and an entry: `#` and `1 a b=80`, both with a newline. -/
def smallFile : List UInt8 := [35, 10, 49, 32, 97, 32, 98, 61, 56, 48, 10]

theorem load_bind_file_smallFile : Loads smallFile := by
  have all : readCount smallFile.length = smallFile.length := readCount_small (by decide)
  refine (load_bind_file_loads (by decide) (by decide)).mpr ?_
  rw [all, List.take_length, List.drop_length]
  exact ⟨by decide, entries_nil⟩

example : entries smallFile = [⟨1, [97], [98], 80⟩] := by decide

/-- The same entry without a newline. -/
def unfinishedFile : List UInt8 := [49, 32, 97, 32, 98, 61, 56, 48]

theorem unfinishedFile_faults : 0 ∉ unfinishedFile ∧
    (entries unfinishedFile).length ≤ maxListenFds ∧ ¬ Loads unfinishedFile := by
  have noNul : 0 ∉ unfinishedFile := by decide
  have all : readCount unfinishedFile.length = unfinishedFile.length := readCount_small (by decide)
  refine ⟨noNul, by decide, fun loads => ?_⟩
  have terminated := loads.terminated
  rw [textRead_noNul noNul, all, List.take_length] at terminated
  exact absurd terminated (by decide)

/-! ## The bounds of the table -/

/-- The stores stay within `configs`, and so do the loops over `bind_num`, also those on
`child_pids`, which has as many entries. -/
def WithinTable (load : Load) : Prop :=
  (∀ index ∈ load.stored, index < maxListenFds) ∧ load.bindNum ≤ maxListenFds ∧
    ∀ index < load.bindNum, index < maxListenFds

private theorem Load.Holds.withinTable {load : Load} {found : List Entry}
    (holds : load.Holds found) :
    WithinTable load ↔ found.length ≤ maxListenFds := by
  unfold WithinTable
  rw [holds.stored, holds.bindNum]
  constructor
  · rintro ⟨_, bound, _⟩
    exact bound
  · intro bound
    refine ⟨fun index member => ?_, bound, fun index below => by omega⟩
    have below := List.mem_range.mp member
    omega

private theorem loadBindFile_load (file : List UInt8) :
    (loadBindFile file).load.Holds (entries (textRead file)) := by
  obtain ⟨retCode, load, runs, holds⟩ := loadBindFile_holds file
  rw [runs]
  split <;> exact holds

theorem load_bind_file_within (file : List UInt8) :
    WithinTable (loadBindFile file).load ↔ (entries (textRead file)).length ≤ maxListenFds :=
  (loadBindFile_load file).withinTable

/-- Lines `1 a b 1`. -/
def entryLines (count : Nat) : List UInt8 :=
  (List.replicate count [49, 32, 97, 32, 98, 32, 49, 10]).flatten

private theorem entryLines_succ (count : Nat) :
    entryLines (count + 1) = [49, 32, 97, 32, 98, 32, 49] ++ 10 :: entryLines count := rfl

private theorem entryLines_terminated (count : Nat) : Terminated (entryLines count) := by
  induction count with
  | zero => exact terminated_nil
  | succ count ih => rwa [entryLines_succ, terminated_append_cons]

private theorem entryLines_noNul (count : Nat) : 0 ∉ entryLines count := by
  simp [entryLines]

private theorem entryLines_length (count : Nat) : (entryLines count).length = count * 8 := by
  simp [entryLines]

private theorem entryLines_entries (count : Nat) : (entries (entryLines count)).length = count := by
  induction count with
  | zero => rw [entryLines, List.replicate_zero, List.flatten_nil, entries_nil, List.length_nil]
  | succ count ih =>
      have one : (entries [49, 32, 97, 32, 98, 32, 49]).length = 1 := by decide
      rw [entryLines_succ, entries_append_cons, List.length_append, one, ih, Nat.add_comm]

theorem entryLines_overrun :
    Terminated (entryLines 501) ∧ ¬ WithinTable (loadBindFile (entryLines 501)).load := by
  refine ⟨entryLines_terminated 501, ?_⟩
  have count : (entries (textRead (entryLines 501))).length = 501 := by
    rw [textRead_noNul (entryLines_noNul 501), readCount_small, List.take_length, entryLines_entries]
    rw [entryLines_length]
    decide
  rw [(loadBindFile_load _).withinTable, count]
  decide

end MpNet.Config
