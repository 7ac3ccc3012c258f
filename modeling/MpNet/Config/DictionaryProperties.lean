import MpNet.Config.Dictionary

/-!
# The dictionary is a finite map

Every sequence of calls of `dictionary_set` and `dictionary_unset` leaves a table with one
slot for each key. As long as nothing is removed, the slots are in the order in which their
keys came.
-/

set_option autoImplicit false

namespace MpNet.Config

open Library

inductive DictCall where
  | set (key : List UInt8) (val : Option (List UInt8))
  | unset (key : List UInt8)

def DictCall.isSet : DictCall → Bool
  | .set _ _ => true
  | .unset _ => false

def Dictionary.call (d : Dictionary) : DictCall → Option Dictionary
  | .set key val => (dictionarySet d (some key) val).map Prod.fst
  | .unset key => some (dictionaryUnset d (some key))

def Dictionary.calls (d : Dictionary) (calls : List DictCall) : Option Dictionary :=
  calls.foldlM Dictionary.call d

/-- What a dictionary is for: the value that each key was last set to. -/
abbrev DictMap := List UInt8 → Option (Option (List UInt8))

def DictMap.call (map : DictMap) : DictCall → DictMap
  | .set key val => Function.update map key (some val)
  | .unset key => Function.update map key none

def DictMap.calls (calls : List DictCall) : DictMap :=
  calls.foldl DictMap.call fun _ => none

/-- `dictionary_get`, of the map. -/
def DictMap.get (map : DictMap) (key : List UInt8) (default : CharPtr) : CharPtr :=
  (map key).elim default .ofOption

def Slot.entry (slot : Slot) : Option (List UInt8 × Option (List UInt8)) :=
  slot.key.map (·, slot.val)

namespace Dictionary

def table (d : Dictionary) : List (Option (List UInt8 × Option (List UInt8))) :=
  d.slots.map Slot.entry

structure Holds (d : Dictionary) (map : DictMap) : Prop where
  represents : SlotTable.Represents d.table map
  counted : d.n = (SlotTable.keys d.table).length
  hashed : ∀ slot ∈ d.slots, ∀ key ∈ slot.key, slot.hash = dictionaryHash key
  nonempty : 0 < d.size

variable {d : Dictionary} {map : DictMap} {key : List UInt8} {val : Option (List UInt8)}

private theorem table_length : d.table.length = d.size := List.length_map ..

private theorem Holds.n_le (holds : d.Holds map) : d.n ≤ d.size := by
  rw [holds.counted, ← table_length]
  exact SlotTable.keys_length_le _

theorem holds_new (size : Int) : (dictionaryNew size).Holds fun _ => none := by
  have blank : (dictionaryNew size).table = List.replicate (dictionaryNew size).size none := by
    simp [table, dictionaryNew, Dictionary.size, Slot.entry, Slot.empty]
  constructor
  · rw [blank]
    exact .empty _
  · rw [blank, SlotTable.keys_replicate]
    rfl
  · intro slot member key held
    rw [(List.mem_replicate.mp member).2] at held
    cases held
  · unfold Dictionary.size dictionaryNew
    rw [List.length_replicate]
    split
    · decide
    · unfold dictMinSz at *
      omega

/-! ## Finding a key -/

private theorem Holds.matches_iff (holds : d.Holds map) {slot : Slot} (member : slot ∈ d.slots) :
    slot.matches (dictionaryHash key) key = true ↔ slot.key = some key := by
  cases stored : slot.key with
  | none => simp [Slot.matches, stored]
  | some held =>
      have hash := holds.hashed slot member held stored
      simp only [Slot.matches, stored, hash, Option.any_some, Bool.and_eq_true, decide_eq_true_eq,
        Option.some.injEq]
      constructor
      · exact fun same => same.2.symm
      · rintro rfl
        exact ⟨rfl, rfl⟩

private theorem entry_mem {slot : Slot} (member : slot ∈ d.slots) (stored : slot.key = some key) :
    some (key, slot.val) ∈ d.table :=
  List.mem_map.mpr ⟨slot, member, by simp [Slot.entry, stored]⟩

theorem Holds.missing (holds : d.Holds map)
    (missed : ∀ slot ∈ d.slots, slot.matches (dictionaryHash key) key = false) : map key = none := by
  by_contra present
  obtain ⟨val, held⟩ := Option.ne_none_iff_exists'.mp present
  obtain ⟨slot, member, entry⟩ := List.mem_map.mp ((holds.represents.entry_iff key val).mp held)
  have stored : slot.key = some key := by
    unfold Slot.entry at entry
    cases stored : slot.key <;> simp_all
  have found := (holds.matches_iff member).mpr stored
  rw [missed slot member] at found
  cases found

theorem Holds.get (holds : d.Holds map) (key : List UInt8) (default : CharPtr) :
    dictionaryGet d key default = map.get key default := by
  unfold dictionaryGet DictMap.get
  split
  · rename_i slot found
    have member := List.mem_of_find?_eq_some found
    have stored := (holds.matches_iff member).mp (List.find?_some found)
    rw [(holds.represents.entry_iff key slot.val).mpr (entry_mem member stored)]
    rfl
  · rename_i missed
    have absent := holds.missing fun slot member => by
      simpa using List.find?_eq_none.mp missed slot member
    rw [absent]
    rfl

/-- The search of `dictionary_set` and `dictionary_unset`. -/
theorem Holds.find (holds : d.Holds map) (key : List UInt8) :
    (d.slots.findIdx? (Slot.matches (dictionaryHash key) key) = none ∧ map key = none) ∨
    ∃ i slot, d.slots.findIdx? (Slot.matches (dictionaryHash key) key) = some i ∧
      d.slots[i]? = some slot ∧ slot.key = some key ∧ map key = some slot.val := by
  cases found : d.slots.findIdx? (Slot.matches (dictionaryHash key) key) with
  | none =>
      refine .inl ⟨rfl, holds.missing fun slot member => ?_⟩
      exact List.findIdx?_eq_none_iff.mp found slot member
  | some i =>
      obtain ⟨below, matched, -⟩ := List.findIdx?_eq_some_iff_getElem.mp found
      have member := List.getElem_mem below
      have stored := (holds.matches_iff member).mp matched
      refine .inr ⟨i, d.slots[i], rfl, List.getElem?_eq_getElem below, stored, ?_⟩
      exact (holds.represents.entry_iff key _).mpr (entry_mem member stored)

/-! ## The calls -/

private theorem table_setSlot (i : Nat) (slot : Slot) :
    (d.setSlot i slot).table = d.table.set i slot.entry :=
  List.map_set

private theorem table_getElem {i : Nat} {slot : Slot} (here : d.slots[i]? = some slot) :
    d.table[i]? = some slot.entry := by simp [table, here]

private theorem Holds.hashed_setSlot (holds : d.Holds map) (i : Nat) {slot : Slot}
    (hash : ∀ key ∈ slot.key, slot.hash = dictionaryHash key) :
    ∀ other ∈ (d.setSlot i slot).slots, ∀ key ∈ other.key, other.hash = dictionaryHash key := by
  intro other member
  rcases List.mem_or_eq_of_mem_set member with old | rfl
  · exact holds.hashed other old
  · exact hash

theorem Holds.overwrite (holds : d.Holds map) {i : Nat} {slot : Slot} (here : d.slots[i]? = some slot)
    (stored : slot.key = some key) (val : Option (List UInt8)) :
    (d.setSlot i { slot with val := val }).Holds (Function.update map key (some val)) := by
  have full : d.table[i]? = some (some (key, slot.val)) := by
    rw [table_getElem here]
    simp [Slot.entry, stored]
  have entry : Slot.entry { slot with val := val } = some (key, val) := by simp [Slot.entry, stored]
  have member := List.mem_of_getElem? here
  constructor
  · rw [table_setSlot, entry]
    exact holds.represents.overwrite full
  · obtain ⟨before, after, split, changes⟩ := SlotTable.split_at full
    rw [table_setSlot, entry, changes]
    refine holds.counted.trans ?_
    simp [split, SlotTable.keys_append]
  · exact holds.hashed_setSlot i (holds.hashed slot member)
  · simpa [Dictionary.size, setSlot] using holds.nonempty

theorem Holds.unset (holds : d.Holds map) (key : List UInt8) :
    (dictionaryUnset d (some key)).Holds (map.call (.unset key)) := by
  rcases holds.find key with ⟨missed, absent⟩ | ⟨i, slot, found, here, stored, held⟩
  · have same : Function.update map key none = map := by
      rw [← absent]
      exact Function.update_eq_self key map
    simpa only [dictionaryUnset, missed, DictMap.call, same] using holds
  · have full : d.table[i]? = some (some (key, slot.val)) := by
      rw [table_getElem here]
      simp [Slot.entry, stored]
    have entry : Slot.empty.entry = none := rfl
    simp only [dictionaryUnset, found, DictMap.call]
    constructor
    · exact (table_setSlot i .empty).symm ▸ holds.represents.clear full
    · obtain ⟨before, after, split, changes⟩ := SlotTable.split_at full
      have keys : (SlotTable.keys d.table).length =
          (SlotTable.keys (before ++ none :: after)).length + 1 := by
        simp only [split, SlotTable.keys_append, SlotTable.keys_entry, SlotTable.keys_empty,
          List.length_append, List.length_cons]
        omega
      have emptied : (d.setSlot i .empty).table = before ++ none :: after := by
        rw [table_setSlot, entry, changes]
      show d.n - 1 = (SlotTable.keys (d.setSlot i .empty).table).length
      rw [emptied, holds.counted, keys, Nat.add_sub_cancel]
    · refine holds.hashed_setSlot i ?_
      simp [Slot.empty]
    · simpa [Dictionary.size, setSlot] using holds.nonempty

theorem Holds.grow (holds : d.Holds map) (small : d.size < 134217728) :
    ∃ d', d.grow = some d' ∧ d'.Holds map ∧ d'.n = d.n ∧ d'.size = 2 * d.size := by
  have fits : 2 * (d.size * 8) < 2147483648 := by omega
  refine ⟨_, if_pos fits, ?_, rfl, ?_⟩
  · have longer : d.table ++ List.replicate d.size none =
        (d.slots ++ List.replicate d.size Slot.empty).map Slot.entry := by
      simp [table, Slot.entry, Slot.empty]
    constructor
    · show SlotTable.Represents (List.map Slot.entry _) map
      rw [← longer]
      exact holds.represents.grow _
    · show d.n = (SlotTable.keys (List.map Slot.entry _)).length
      rw [← longer, SlotTable.keys_append, SlotTable.keys_replicate, List.append_nil]
      exact holds.counted
    · intro slot member key stored
      rcases List.mem_append.mp member with old | new
      · exact holds.hashed slot old key stored
      · rw [(List.mem_replicate.mp new).2] at stored
        cases stored
    · have positive := holds.nonempty
      simp only [Dictionary.size, List.length_append, List.length_replicate] at positive ⊢
      omega
  · simp only [Dictionary.size, List.length_append, List.length_replicate]
    omega

/-- The search of `dictionary_set` finds a slot for a new key. -/
theorem Holds.insertKey (holds : d.Holds map) (fresh : map key = none) (room : d.n < d.size)
    (val : Option (List UInt8)) :
    ∃ d', d.insertKey key val = some d' ∧ d'.Holds (Function.update map key (some val)) ∧
      d'.n = d.n + 1 := by
  have fewer : (SlotTable.keys d.table).length < d.table.length := by
    rw [← holds.counted, table_length]
    exact room
  obtain ⟨slot, member, blank⟩ := List.mem_map.mp (SlotTable.exists_empty fewer)
  have free : slot.key.isNone := by
    unfold Slot.entry at blank
    cases stored : slot.key <;> simp_all
  obtain ⟨i, found⟩ := SlotTable.scanRound_finds (fun slot : Slot => slot.key.isNone) room member
    free
  obtain ⟨chosen, here, unused⟩ := SlotTable.scanRound_free found
  have empty : d.table[i]? = some none := by
    rw [table_getElem here]
    simpa [Slot.entry] using unused
  have entry : Slot.entry ⟨some key, val, dictionaryHash key⟩ = some (key, val) := rfl
  have table : (d.setSlot i ⟨some key, val, dictionaryHash key⟩).table =
      d.table.set i (some (key, val)) := table_setSlot i _
  refine ⟨{ d.setSlot i ⟨some key, val, dictionaryHash key⟩ with n := d.n + 1 }, ?_,
    ⟨?_, ?_, ?_, ?_⟩, rfl⟩
  · rw [Dictionary.insertKey, Dictionary.size, found, Option.map_some]
  · exact table.symm ▸ holds.represents.fill _ empty fresh
  · obtain ⟨before, after, split, changes⟩ := SlotTable.split_at empty
    show d.n + 1 = (SlotTable.keys (d.setSlot i _).table).length
    rw [table, changes, holds.counted, split]
    simp only [SlotTable.keys_append, SlotTable.keys_entry, SlotTable.keys_empty,
      List.length_append, List.length_cons]
    omega
  · refine holds.hashed_setSlot i ?_
    simp
  · simpa [Dictionary.size, setSlot] using holds.nonempty

theorem Holds.set (holds : d.Holds map) (key : List UInt8) (val : Option (List UInt8))
    (small : d.n < 134217728) :
    ∃ d', dictionarySet d (some key) val = some (d', 0) ∧ d'.Holds (map.call (.set key val)) ∧
      d'.n ≤ d.n + 1 := by
  unfold dictionarySet
  rcases holds.find key with ⟨missed, fresh⟩ | ⟨i, slot, found, here, stored, held⟩
  · have skipped : (if 0 < d.n then d.slots.findIdx? (Slot.matches (dictionaryHash key) key)
        else none) = none := by rw [missed, ite_self]
    simp only [skipped]
    by_cases full : d.n = d.size
    · obtain ⟨grown, grows, holds', n, size⟩ := holds.grow (full ▸ small)
      have positive := holds.nonempty
      obtain ⟨d', inserts, filled, count⟩ := holds'.insertKey fresh (by omega) val
      rw [makeRoom, if_pos full, grows, Option.bind_some, inserts]
      exact ⟨d', rfl, filled, by omega⟩
    · have room : d.n < d.size := lt_of_le_of_ne holds.n_le full
      obtain ⟨d', inserts, filled, count⟩ := holds.insertKey fresh room val
      rw [makeRoom, if_neg full, Option.bind_some, inserts]
      exact ⟨d', rfl, filled, count.le⟩
  · -- A dictionary that has the key is not empty, so the search is made.
    have some_key : 0 < d.n := by
      rw [holds.counted]
      refine List.length_pos_of_mem (a := key) (holds.represents.mem_keys.mpr ?_)
      simp [held]
    simp only [if_pos some_key, found, here, Option.getD_some]
    exact ⟨_, rfl, holds.overwrite here stored val, Nat.le_succ _⟩

theorem Holds.calls (holds : d.Holds map) (calls : List DictCall)
    (few : d.n + (calls.filter DictCall.isSet).length ≤ 134217728) :
    ∃ d', d.calls calls = some d' ∧ d'.Holds (calls.foldl DictMap.call map) := by
  induction calls generalizing d map with
  | nil => exact ⟨d, rfl, holds⟩
  | cons call calls ih =>
      cases call with
      | set key val =>
          rw [List.filter_cons_of_pos rfl, List.length_cons] at few
          obtain ⟨d', sets, holds', grown⟩ := holds.set key val (by omega)
          obtain ⟨last, runs, final⟩ := ih holds' (by omega)
          refine ⟨last, ?_, final⟩
          rw [Dictionary.calls, List.foldlM_cons, Dictionary.call, sets]
          exact runs
      | unset key =>
          have shrinks : (dictionaryUnset d (some key)).n ≤ d.n := by
            unfold dictionaryUnset
            simp only
            split
            · exact Nat.sub_le ..
            · exact le_rfl
          rw [List.filter_cons_of_neg (by simp [DictCall.isSet])] at few
          obtain ⟨last, runs, final⟩ := ih (holds.unset key) (by omega)
          refine ⟨last, ?_, final⟩
          rw [Dictionary.calls, List.foldlM_cons]
          exact runs

end Dictionary

/-- Every run of calls on a new dictionary succeeds and leaves it with the values that the
keys were last set to; `n` counts the keys. -/
theorem dictionary_is_map (size : Int) {calls : List DictCall}
    (few : (calls.filter DictCall.isSet).length ≤ 134217728) :
    ∃ d, (dictionaryNew size).calls calls = some d ∧
      (∀ key default, dictionaryGet d key default = (DictMap.calls calls).get key default) ∧
      d.n = Set.ncard {key | DictMap.calls calls key ≠ none} := by
  obtain ⟨d, runs, holds⟩ := (Dictionary.holds_new size).calls calls
    (by simpa [dictionaryNew] using few)
  exact ⟨d, runs, fun key default => holds.get key default, holds.counted.trans holds.represents.count⟩

theorem dictionary_is_map_overwritten :
    ∃ d, (dictionaryNew 0).calls [.set [97] none, .set [97] (some [98]), .unset [99]] = some d ∧
      (∀ key default, dictionaryGet d key default =
        (DictMap.calls [.set [97] none, .set [97] (some [98]), .unset [99]]).get key default) ∧
      d.n = Set.ncard
        {key | DictMap.calls [.set [97] none, .set [97] (some [98]), .unset [99]] key ≠ none} :=
  dictionary_is_map 0 (by decide)

end MpNet.Config
