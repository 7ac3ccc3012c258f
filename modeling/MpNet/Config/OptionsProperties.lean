import MpNet.Config.IniLoadProperties
import MpNet.Config.Options
import MpNet.Shmq.Invariant

/-!
# The options that a file sets

The keys in a dictionary that was loaded are sections, without a value, or have a colon. So
a key without a colon has no value whatever the file says, and where it names a section there
is nothing to read. The packet size is the last that the statements set.
-/

set_option autoImplicit false

namespace MpNet.Config

open Library

/-- Every value belongs to a key with a colon. -/
def Dictionary.Sectioned (d : Dictionary) : Prop :=
  ∀ slot ∈ d.slots, ∀ key ∈ slot.key, 58 ∉ key → slot.val = none

def IniOutcome.Sectioned : IniOutcome → Prop
  | .loaded dict => dict.Sectioned
  | _ => True

def IniRound.Sectioned : IniRound → Prop
  | .next load => load.dict.Sectioned
  | .ended outcome => outcome.Sectioned

namespace Dictionary

variable {d d' : Dictionary} {key : List UInt8} {val : Option (List UInt8)}

private theorem sectioned_new (size : Int) : (dictionaryNew size).Sectioned := by
  intro slot member key held
  rw [(List.mem_replicate.mp member).2] at held
  cases held

theorem Sectioned.setSlot (sectioned : d.Sectioned) (i : Nat) {slot : Slot}
    (fits : ∀ key ∈ slot.key, 58 ∉ key → slot.val = none) : (d.setSlot i slot).Sectioned := by
  intro other member
  rcases List.mem_or_eq_of_mem_set member with old | rfl
  · exact sectioned other old
  · exact fits

theorem Sectioned.grow (sectioned : d.Sectioned) (grows : d.grow = some d') : d'.Sectioned := by
  unfold Dictionary.grow at grows
  split at grows
  · cases grows
    intro slot member
    rcases List.mem_append.mp member with old | new
    · exact sectioned slot old
    · rw [(List.mem_replicate.mp new).2]
      simp [Slot.empty]
  · cases grows

theorem Sectioned.set (sectioned : d.Sectioned) {ret : Int}
    (fits : 58 ∉ key → val = none) (sets : dictionarySet d (some key) val = some (d', ret)) :
    d'.Sectioned := by
  unfold dictionarySet at sets
  simp only at sets
  split at sets
  · rename_i i found
    cases sets
    refine sectioned.setSlot i fun other held plain => ?_
    -- The slot that was found has this key.
    have same : other = key := by
      split at found
      · obtain ⟨below, matched, -⟩ := List.findIdx?_eq_some_iff_getElem.mp found
        have held : other ∈ (d.slots[i]).key := by
          simpa [List.getElem?_eq_getElem below] using held
        rw [Slot.matches, Option.mem_def.mp held] at matched
        simp only [Option.any_some, Bool.and_eq_true, decide_eq_true_eq] at matched
        exact matched.2.symm
      · cases found
    exact fits (same ▸ plain)
  · obtain ⟨added, adds, same⟩ := Option.map_eq_some_iff.mp sets
    obtain ⟨rfl, -⟩ := Prod.mk.inj same
    obtain ⟨room, makes, inserts⟩ := Option.bind_eq_some_iff.mp adds
    obtain ⟨i, -, rfl⟩ := Option.map_eq_some_iff.mp inserts
    have kept : room.Sectioned := by
      unfold Dictionary.makeRoom at makes
      split at makes
      · exact sectioned.grow makes
      · cases makes
        exact sectioned
    refine kept.setSlot i fun other held plain => ?_
    cases held
    exact fits plain

/-- The slot of a key without a colon has no value. -/
theorem Sectioned.get (sectioned : d.Sectioned) (plain : 58 ∉ key) (default : CharPtr) :
    dictionaryGet d key default = default ∨ dictionaryGet d key default = .null := by
  unfold dictionaryGet
  split
  · rename_i slot found
    have matched := List.find?_some found
    obtain ⟨held, stored, same⟩ : ∃ held, slot.key = some held ∧ key = held := by
      unfold Slot.matches at matched
      cases stored : slot.key with
      | none => simp [stored] at matched
      | some held => exact ⟨held, rfl, by simp_all⟩
    have unset := sectioned slot (List.mem_of_find?_eq_some found) held stored (same ▸ plain)
    exact .inr (by rw [unset]; rfl)
  · exact .inl rfl

end Dictionary

namespace IniLoad

variable {load load' : IniLoad}

private theorem assign_sectioned {key : List UInt8} {val : Option (List UInt8)}
    (sectioned : load.dict.Sectioned) (fits : 58 ∉ key → val = none)
    (assigned : load.assign key val = some load') : load'.dict.Sectioned := by
  obtain ⟨⟨dict, errs⟩, sets, rfl⟩ := Option.map_eq_some_iff.mp assigned
  exact sectioned.set fits sets

private theorem parseLine_sectioned {line : List UInt8} (sectioned : load.dict.Sectioned)
    (parsed : load.parseLine line = some load') : load'.dict.Sectioned := by
  obtain ⟨status, -, applied⟩ := Option.bind_eq_some_iff.mp parsed
  cases status with
  | error =>
      cases applied
      exact sectioned
  | empty =>
      cases applied
      exact sectioned
  | comment =>
      cases applied
      exact sectioned
  | «section» name =>
      have kept : Dictionary.Sectioned { load with sect := name }.dict := sectioned
      exact assign_sectioned kept (fun _ => rfl) applied
  | value key val =>
      simp only [applyStatus] at applied
      split at applied
      · exact assign_sectioned sectioned (fun plain => absurd (by simp) plain) applied
      · cases applied

private theorem finish_sectioned (sectioned : load.dict.Sectioned) : load.finish.Sectioned := by
  unfold IniLoad.finish
  split
  · trivial
  · exact sectioned

private theorem takeLine_sectioned (sectioned : load.dict.Sectioned) (line : List UInt8) :
    (load.takeLine line).Sectioned := by
  unfold takeLine
  split
  · trivial
  split
  · exact sectioned
  split
  · trivial
  simp only
  split
  · trivial
  split
  · exact sectioned
  · have reset : Dictionary.Sectioned { load with last := [] }.dict := sectioned
    split
    · trivial
    · rename_i load' parsed
      have kept := parseLine_sectioned reset parsed
      split
      · exact finish_sectioned kept
      · exact kept

private theorem round_sectioned (sectioned : load.dict.Sectioned) : load.round.Sectioned := by
  unfold IniLoad.round
  simp only
  split
  · exact finish_sectioned sectioned
  · have moved : Dictionary.Sectioned
        { load with file := (fgets (asciiLineSz - load.last.length) load.file).2 }.dict := sectioned
    exact takeLine_sectioned moved _

private theorem scan_sectioned (rounds : Nat) (sectioned : load.dict.Sectioned) :
    (load.scan rounds).Sectioned := by
  induction rounds generalizing load with
  | zero => trivial
  | succ rounds ih =>
      have round := round_sectioned sectioned
      unfold scan
      split
      · rename_i load' next
        rw [next] at round
        exact ih round
      · rename_i outcome ended
        rw [ended] at round
        exact round

end IniLoad

private theorem iniparserLoad_sectioned (file : List UInt8) : (iniparserLoad file).Sectioned :=
  IniLoad.scan_sectioned _ (Dictionary.sectioned_new 0)

/-! ## What the server reads -/

section Reading

variable {ini : Option Dictionary} {key : List UInt8}

/-- No dictionary, or one in which every value has a section. -/
def IniSectioned (ini : Option Dictionary) : Prop := ∀ d ∈ ini, d.Sectioned

private theorem getstring_plain (sectioned : IniSectioned ini) (plain : 58 ∉ strlwc key)
    (default : CharPtr) :
    iniparserGetstring ini key default = default ∨ iniparserGetstring ini key default = .null := by
  cases ini with
  | none => exact .inl rfl
  | some d => exact (sectioned d rfl).get plain default

private theorem getint_plain (sectioned : IniSectioned ini) (plain : 58 ∉ strlwc key)
    {notfound value : Int}
    (read : iniparserGetint ini key notfound = some value) : value = notfound := by
  unfold iniparserGetint at read
  rcases getstring_plain sectioned plain .invalidKey with missing | null
  · rw [missing] at read
    exact (Option.some.inj read).symm
  · rw [null] at read
    cases read

end Reading

/-- What `readOptions` has found. -/
theorem readOptions_plain {ini : Option Dictionary} (sectioned : IniSectioned ini)
    {options : Options} (read : readOptions ini = some options) :
    options.maxFdNum = 20000 ∧ options.background = true ∧ options.shmqLength = 2 ^ 26 ∧
      options.idleTimeout = 10 ∧ options.timeout = 100 := by
  unfold readOptions at read
  obtain ⟨maxFdNum, first, read⟩ := Option.bind_eq_some_iff.mp read
  obtain ⟨socketTimeout, -, read⟩ := Option.bind_eq_some_iff.mp read
  obtain ⟨pageSize, -, read⟩ := Option.bind_eq_some_iff.mp read
  obtain ⟨limit, -, read⟩ := Option.bind_eq_some_iff.mp read
  obtain ⟨length, second, read⟩ := Option.bind_eq_some_iff.mp read
  obtain ⟨idleTimeout, third, read⟩ := Option.bind_eq_some_iff.mp read
  obtain ⟨timeout, fourth, read⟩ := Option.bind_eq_some_iff.mp read
  have background : runsInBackground (iniparserGetstring ini (literal "run_mode") .null) = true := by
    have plain : 58 ∉ strlwc (literal "run_mode") := by decide
    rcases getstring_plain sectioned plain .null with null | null <;> rw [null] <;> rfl
  obtain rfl : length = 2 ^ 26 := getint_plain sectioned (by decide) second
  obtain rfl : timeout = 100 := getint_plain sectioned (by decide) fourth
  cases read
  exact ⟨getint_plain sectioned (by decide) first, background, rfl,
    getint_plain sectioned (by decide) third, rfl⟩

/-- The keys whose values `strtol` reads. -/
def numberKeys : List (List UInt8) :=
  [literal "max_open_fd", literal "server:cli_socket_timeout",
    literal "server:incoming_packet_max_size", literal "server:send_buf_limit_size",
    literal "shmq_length", literal "idle_timeout", literal "net_loop_interval"]

private theorem getint_none {ini : Option Dictionary} (key : List UInt8) (notfound : Int) :
    iniparserGetint ini key notfound = none ↔ iniparserGetstring ini key .invalidKey = .null := by
  unfold iniparserGetint
  cases iniparserGetstring ini key .invalidKey <;> simp

/-- Reading goes on if the next number is there. -/
private theorem bind_none {α β : Type} {value : Option α} {rest : α → Option β} {fails : Prop}
    (later : ∀ a, rest a = none ↔ fails) : value.bind rest = none ↔ value = none ∨ fails := by
  cases value <;> simp [later]

private theorem readOptions_none (ini : Option Dictionary) :
    readOptions ini = none ↔
      ∃ key ∈ numberKeys, iniparserGetstring ini key .invalidKey = .null := by
  simp only [numberKeys, List.exists_mem_cons_iff, List.not_mem_nil, false_and, exists_false]
  rw [← getint_none (literal "max_open_fd") 20000,
    ← getint_none (literal "server:cli_socket_timeout") 0,
    ← getint_none (literal "server:incoming_packet_max_size") (-1),
    ← getint_none (literal "server:send_buf_limit_size") 0,
    ← getint_none (literal "shmq_length") (2 ^ 26), ← getint_none (literal "idle_timeout") 10,
    ← getint_none (literal "net_loop_interval") 100]
  refine bind_none fun maxFdNum => bind_none fun socketTimeout => bind_none fun pageSize =>
    bind_none fun limit => bind_none fun length => bind_none fun idleTimeout =>
    bind_none fun timeout => ?_
  exact iff_of_false (Option.some_ne_none _) id

private theorem loadOptions_plain {file : List UInt8} {options : Options}
    (read : loadOptions file = some options) :
    options.maxFdNum = 20000 ∧ options.background = true ∧ options.shmqLength = 2 ^ 26 ∧
      options.idleTimeout = 10 ∧ options.timeout = 100 := by
  have sectioned := iniparserLoad_sectioned file
  unfold loadOptions at read
  split at read
  · rename_i dict loaded
    rw [loaded] at sectioned
    refine readOptions_plain (fun d same => ?_) read
    cases same
    exact sectioned
  · exact readOptions_plain (fun d same => by cases same) read
  · cases read
  · cases read

/-- The options can be read unless the load leaves its buffers or a section has the name of a
number. Then the server runs with the default of every option that it looks up without a
section. -/
theorem plain_options_keep_defaults (file : List UInt8) :
    (∀ options, loadOptions file = some options →
      options.maxFdNum = 20000 ∧ options.background = true ∧ options.shmqLength = 2 ^ 26 ∧
        options.idleTimeout = 10 ∧ options.timeout = 100) ∧
    (loadOptions file = none ↔ iniparserLoad file = .fault ∨
      ∃ dict, iniparserLoad file = .loaded dict ∧
        ∃ key ∈ numberKeys, iniparserGetstring (some dict) key .invalidKey = .null) := by
  refine ⟨fun options => loadOptions_plain, ?_⟩
  unfold loadOptions
  cases loaded : iniparserLoad file with
  | loaded dict => simp [readOptions_none]
  | null => simp [readOptions_none, iniparserGetstring]
  | fault => simp
  | running => exact absurd loaded (iniparserLoad_ends file)

theorem plain_options_keep_defaults_set :
    (∃ options, loadOptions (literal "max_open_fd=5\n") = some options ∧
      options.maxFdNum = 20000 ∧ options.background = true ∧ options.shmqLength = 2 ^ 26 ∧
      options.idleTimeout = 10 ∧ options.timeout = 100) ∧
    iniparserLoad (literal "[shmq_length]\n") ≠ .fault ∧
    ∃ dict, iniparserLoad (literal "[shmq_length]\n") = .loaded dict ∧
      ∃ key ∈ numberKeys, iniparserGetstring (some dict) key .invalidKey = .null := by
  have loads : (loadOptions (literal "max_open_fd=5\n")).isSome = true := by decide +kernel
  obtain ⟨options, read⟩ := Option.isSome_iff_exists.mp loads
  have dies : loadOptions (literal "[shmq_length]\n") = none :=
    Option.isNone_iff_eq_none.mp (by decide +kernel)
  have inside : iniparserLoad (literal "[shmq_length]\n") ≠ .fault := by decide +kernel
  exact ⟨⟨options, read, (plain_options_keep_defaults _).1 options read⟩, inside,
    ((plain_options_keep_defaults _).2.mp dies).resolve_left inside⟩

/-! ## The sizes of the queues -/

/-- `page_size`, from the value of `server:incoming_packet_max_size`. -/
def configuredPageSize : CharPtr → Int
  | .string text =>
      if i32 (strtolAnyBase text) ≤ 0 then defPageSize else i32 (strtolAnyBase text)
  | _ => defPageSize

private theorem readOptions_pageSize {ini : Option Dictionary} {options : Options}
    (read : readOptions ini = some options) :
    options.pageSize = configuredPageSize
      (iniparserGetstring ini (literal "server:incoming_packet_max_size") .invalidKey) := by
  unfold readOptions at read
  obtain ⟨maxFdNum, -, read⟩ := Option.bind_eq_some_iff.mp read
  obtain ⟨socketTimeout, -, read⟩ := Option.bind_eq_some_iff.mp read
  obtain ⟨pageSize, found, read⟩ := Option.bind_eq_some_iff.mp read
  obtain ⟨limit, -, read⟩ := Option.bind_eq_some_iff.mp read
  obtain ⟨length, -, read⟩ := Option.bind_eq_some_iff.mp read
  obtain ⟨idleTimeout, -, read⟩ := Option.bind_eq_some_iff.mp read
  obtain ⟨timeout, -, read⟩ := Option.bind_eq_some_iff.mp read
  have kept : options.pageSize = if pageSize ≤ 0 then defPageSize else pageSize := by
    cases read
    rfl
  rw [kept]
  unfold iniparserGetint at found
  cases value : iniparserGetstring ini (literal "server:incoming_packet_max_size") .invalidKey with
  | invalidKey =>
      rw [value] at found
      cases found
      rfl
  | null =>
      rw [value] at found
      cases found
  | string text =>
      rw [value] at found
      cases found
      rfl

/-- The queues that `shmq_create` makes, with the `page_size` of the processes. -/
def Options.queue (options : Options) : Shmq.Config := ⟨options.shmqLength, options.pageSize⟩

/-- The queues have the sizes that they need exactly when the packet size is between that of
a block header and that of the default queue. It is what the last statement set, or the
default where that is not positive, there is none or the load fails. -/
theorem queues_sized_iff {file : List UInt8} {options : Options}
    (read : loadOptions file = some options) :
    (options.queue.Sized ↔ 13 ≤ options.pageSize ∧ options.pageSize ≤ 67108856) ∧
    ∀ lines rest, Splits file lines rest →
      (Truncated lines rest ∨ EndsInError (statements [] lines) →
        options.pageSize = defPageSize) ∧
      (¬ (Truncated lines rest ∨ EndsInError (statements [] lines)) →
        options.pageSize = configuredPageSize
          ((meaning lines).map.get (literal "server:incoming_packet_max_size") .invalidKey)) := by
  constructor
  · have length := (loadOptions_plain read).2.2.1
    constructor
    · rintro ⟨room, -, page⟩
      simp only [Options.queue, length, Shmq.sizeofShmHead, Shmq.sizeofShmBlock] at room page
      omega
    · rintro ⟨low, high⟩
      constructor <;>
        simp only [Options.queue, length, Shmq.sizeofShmHead, Shmq.sizeofShmBlock] <;> omega
  · intro lines rest splits
    have inside : StaysInside lines := by
      by_contra outside
      rw [loadOptions, (iniparserLoad_eq splits).1 outside] at read
      cases read
    constructor
    · intro fails
      rw [loadOptions, (iniparserLoad_null_iff splits).mpr ⟨inside, fails⟩] at read
      exact readOptions_pageSize read
    · intro loads
      obtain ⟨whole, correct⟩ := not_or.mp loads
      obtain ⟨dict, loaded, means⟩ := iniparserLoad_loaded splits inside whole correct
      rw [loadOptions, loaded] at read
      rw [readOptions_pageSize read, means]
      rfl

/-- The second statement wins, and is hexadecimal. -/
theorem queues_sized_iff_last : ∃ options, loadOptions (literal
    "[server]\nincoming_packet_max_size = 12\nincoming_packet_max_size = 0x200\n") = some options ∧
      options.pageSize = 512 ∧ options.queue.Sized := by
  have loads : (loadOptions (literal
      "[server]\nincoming_packet_max_size = 12\nincoming_packet_max_size = 0x200\n")).isSome =
      true := by decide +kernel
  obtain ⟨options, read⟩ := Option.isSome_iff_exists.mp loads
  obtain ⟨sized, means⟩ := queues_sized_iff read
  let lines := [literal "[server]", literal "incoming_packet_max_size = 12",
    literal "incoming_packet_max_size = 0x200"]
  have splits : Splits _ lines [] :=
    ⟨rfl, by decide, by decide, by unfold ShortLines; decide, by decide, by decide⟩
  have correct : ¬ EndsInError (statements [] lines) :=
    fun ends => (errs_iff _).mpr ends (by decide +kernel)
  have set : options.pageSize = 512 := by
    rw [(means lines [] splits).2 (not_or.mpr ⟨fun truncated => truncated.1 rfl, correct⟩)]
    decide +kernel
  exact ⟨options, read, set, sized.mpr (by omega)⟩

end MpNet.Config
