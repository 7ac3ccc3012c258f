import Mathlib.Data.Set.Card
import Mathlib.Logic.Function.Basic

/-!
# Tables of slots

A table is a list of slots that are empty or hold a key with a value. It represents a
finite map when every key has one slot. A slot that is filled, overwritten or emptied
updates the map at its key.
-/

set_option autoImplicit false

namespace MpNet.Library

namespace SlotTable

variable {Key Value : Type*}

def keys (table : List (Option (Key × Value))) : List Key :=
  table.filterMap fun slot => slot.map Prod.fst

structure Represents (table : List (Option (Key × Value))) (map : Key → Option Value) : Prop where
  distinct : (keys table).Nodup
  entry_iff : ∀ key value, map key = some value ↔ some (key, value) ∈ table

section Keys

variable {table before after : List (Option (Key × Value))} {key : Key} {value : Value}

theorem keys_append : keys (before ++ after) = keys before ++ keys after :=
  List.filterMap_append

@[simp] theorem keys_entry : keys (some (key, value) :: after) = key :: keys after := rfl

@[simp] theorem keys_empty : keys (none :: after) = keys after := rfl

theorem keys_replicate (count : Nat) : keys (List.replicate count (none : Option (Key × Value))) = [] := by
  induction count with
  | zero => rfl
  | succ count ih => rw [List.replicate_succ, keys_empty, ih]

theorem mem_keys : key ∈ keys table ↔ ∃ value, some (key, value) ∈ table := by
  simp [keys]

theorem keys_length_le (table : List (Option (Key × Value))) : (keys table).length ≤ table.length :=
  List.length_filterMap_le ..

/-- A table with fewer keys than slots has an empty slot. -/
theorem exists_empty (fewer : (keys table).length < table.length) : none ∈ table := by
  induction table with
  | nil => cases fewer
  | cons slot table ih =>
      cases slot with
      | none => exact List.mem_cons_self
      | some entry =>
          rw [keys_entry, List.length_cons, List.length_cons] at fewer
          exact List.mem_cons_of_mem _ (ih (by omega))

theorem split_at {index : Nat} {slot : Option (Key × Value)} (at_index : table[index]? = some slot) :
    ∃ before after, table = before ++ slot :: after ∧
      ∀ changed, table.set index changed = before ++ changed :: after := by
  obtain ⟨inside, rfl⟩ := List.getElem?_eq_some_iff.mp at_index
  refine ⟨table.take index, table.drop (index + 1), by simp, fun changed => ?_⟩
  rw [List.set_eq_take_append_cons_drop, if_pos inside]

end Keys

namespace Represents

variable {table : List (Option (Key × Value))} {map : Key → Option Value} {key : Key}
  {value : Value} {index : Nat}

theorem mem_keys (represents : Represents table map) : key ∈ keys table ↔ map key ≠ none := by
  rw [SlotTable.mem_keys, Option.ne_none_iff_exists']
  exact exists_congr fun value => (represents.entry_iff key value).symm

theorem empty (count : Nat) :
    Represents (List.replicate count (none : Option (Key × Value))) fun _ => none where
  distinct := by simp [keys_replicate]
  entry_iff := by simp

theorem grow (represents : Represents table map) (count : Nat) :
    Represents (table ++ List.replicate count none) map where
  distinct := by simpa [keys_append, keys_replicate] using represents.distinct
  entry_iff := by simpa using represents.entry_iff

/-- The number of keys in the table is the number of keys of the map. -/
theorem count (represents : Represents table map) :
    (keys table).length = Set.ncard {key | map key ≠ none} := by
  classical
  have same : {key | map key ≠ none} = ((keys table).toFinset : Set Key) := by
    ext key
    simp [← represents.mem_keys]
  rw [same, Set.ncard_coe_finset, List.toFinset_card_of_nodup represents.distinct]

variable [DecidableEq Key]

theorem fill (represents : Represents table map) (value : Value)
    (empty : table[index]? = some none) (fresh : map key = none) :
    Represents (table.set index (some (key, value))) (Function.update map key (some value)) := by
  obtain ⟨before, after, rfl, changes⟩ := split_at empty
  have absent : key ∉ keys (before ++ none :: after) := by simp [represents.mem_keys, fresh]
  have distinct := represents.distinct
  rw [changes]
  constructor
  · rw [keys_append, keys_entry, List.nodup_middle, List.nodup_cons]
    rw [keys_append, keys_empty] at distinct absent
    exact ⟨absent, distinct⟩
  · intro other held
    by_cases same : other = key
    · subst same
      have nowhere : ∀ held, some (other, held) ∉ before ++ none :: after := fun held member =>
        absent (SlotTable.mem_keys.mpr ⟨held, member⟩)
      have outside : some (other, held) ∉ before ∧ some (other, held) ∉ after := by
        simpa using nowhere held
      simp [outside, eq_comm]
    · rw [Function.update_of_ne same, represents.entry_iff]
      simp [same]

theorem clear (represents : Represents table map) (full : table[index]? = some (some (key, value))) :
    Represents (table.set index none) (Function.update map key none) := by
  obtain ⟨before, after, rfl, changes⟩ := split_at full
  have distinct := represents.distinct
  rw [keys_append, keys_entry, List.nodup_middle, List.nodup_cons] at distinct
  rw [changes]
  constructor
  · rw [keys_append, keys_empty]
    exact distinct.2
  · intro other held
    by_cases same : other = key
    · subst same
      have outside : ¬ ((∃ held, some (other, held) ∈ before) ∨ ∃ held, some (other, held) ∈ after) := by
        simpa [SlotTable.mem_keys] using distinct.1
      have absent : some (other, held) ∉ before ++ none :: after := by
        simp only [not_or, not_exists] at outside
        simp [outside.1 held, outside.2 held]
      simp [absent]
    · rw [Function.update_of_ne same, represents.entry_iff]
      simp [same]

theorem overwrite {old : Value} (represents : Represents table map)
    (full : table[index]? = some (some (key, old))) :
    Represents (table.set index (some (key, value))) (Function.update map key (some value)) := by
  have inside : index < table.length := (List.getElem?_eq_some_iff.mp full).1
  have cleared := represents.clear full
  have filled := cleared.fill value (List.getElem?_set_self inside) (Function.update_self key none map)
  rwa [List.set_set, Function.update_idem] at filled

end Represents

/-! ## Searching round the table -/

section Scan

variable {Slot : Type*} (free : Slot → Bool) (slots : List Slot)

/-- `for (i = start; !free(slots[i]); ) if (++i == size) i = 0`, for a number of rounds. -/
def scanRound : Nat → Nat → Option Nat
  | 0, _ => none
  | rounds + 1, i =>
      match slots[i]? with
      | none => none
      | some slot =>
          if free slot then some i
          else scanRound rounds (if i + 1 = slots.length then 0 else i + 1)

variable {free slots}

theorem scanRound_free {rounds start index : Nat}
    (found : scanRound free slots rounds start = some index) :
    ∃ slot, slots[index]? = some slot ∧ free slot := by
  induction rounds generalizing start with
  | zero => cases found
  | succ rounds ih =>
      unfold scanRound at found
      split at found
      · cases found
      · rename_i slot here
        split at found
        · rename_i isFree
          cases found
          exact ⟨slot, here, isFree⟩
        · exact ih found

/-- A search that does not end has passed one slot in each round. -/
theorem scanRound_none {rounds start : Nat} (inside : start < slots.length)
    (none : scanRound free slots rounds start = none) (offset : Nat) (passed : offset < rounds) :
    ∀ slot ∈ slots[(start + offset) % slots.length]?, free slot = false := by
  induction rounds generalizing start offset with
  | zero => cases passed
  | succ rounds ih =>
      unfold scanRound at none
      simp only [List.getElem?_eq_getElem inside] at none
      split at none
      · cases none
      · rename_i busy
        have wraps : (if start + 1 = slots.length then 0 else start + 1) =
            (start + 1) % slots.length := by
          split
          · rename_i last
            rw [last, Nat.mod_self]
          · exact (Nat.mod_eq_of_lt (by omega)).symm
        cases offset with
        | zero =>
            intro slot here
            rw [Nat.add_zero, Nat.mod_eq_of_lt inside, List.getElem?_eq_getElem inside] at here
            rw [← Option.some.inj here]
            simpa using busy
        | succ offset =>
            rw [wraps] at none
            have later := ih (Nat.mod_lt _ (by omega)) none offset (by omega)
            rwa [Nat.mod_add_mod, Nat.add_right_comm] at later

/-- One round finds a free slot if there is one. -/
theorem scanRound_finds (free : Slot → Bool) {start : Nat} (inside : start < slots.length) {slot : Slot}
    (member : slot ∈ slots) (isFree : free slot) :
    ∃ index, scanRound free slots slots.length start = some index := by
  rw [← Option.isSome_iff_exists]
  by_contra missed
  have none : scanRound free slots slots.length start = none := by simpa using missed
  obtain ⟨index, below, rfl⟩ := List.mem_iff_getElem.mp member
  obtain ⟨offset, passed, reaches⟩ : ∃ offset < slots.length,
      (start + offset) % slots.length = index := by
    by_cases ahead : start ≤ index
    · exact ⟨index - start, by omega, by
        rw [show start + (index - start) = index by omega, Nat.mod_eq_of_lt below]⟩
    · exact ⟨index + slots.length - start, by omega, by
        rw [show start + (index + slots.length - start) = index + slots.length by omega,
          Nat.add_mod_right, Nat.mod_eq_of_lt below]⟩
  have busy := scanRound_none inside none offset passed slots[index]
    (by rw [reaches, List.getElem?_eq_getElem below]; rfl)
  rw [busy] at isFree
  cases isFree

end Scan

end SlotTable

end MpNet.Library
