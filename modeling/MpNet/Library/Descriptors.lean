import Mathlib.Data.List.Basic

/-!
# Descriptor tables

A process holds resources under numbers. A new resource takes the lowest free number,
and closing a number frees it, whatever it holds by then. `closeAll` closes numbers on
behalf of the resources they are thought to hold and reports a mistake.
-/

set_option autoImplicit false

namespace MpNet.Library

structure Descriptors (Resource : Type*) where
  slots : List (Option Resource)

namespace Descriptors

variable {Resource : Type*}

def get (table : Descriptors Resource) (number : Nat) : Option Resource :=
  (table.slots[number]?).join

def size (table : Descriptors Resource) : Nat := table.slots.length

/-- The lowest free number. -/
def lowest (table : Descriptors Resource) : Nat := table.slots.findIdx Option.isNone

def allocate (table : Descriptors Resource) (resource : Resource) : Descriptors Resource :=
  if table.lowest < table.size then ⟨table.slots.set table.lowest (some resource)⟩
  else ⟨table.slots ++ [some resource]⟩

def close (table : Descriptors Resource) (number : Nat) : Descriptors Resource :=
  ⟨table.slots.set number none⟩

def closeEach (table : Descriptors Resource) (numbers : List Nat) : Descriptors Resource :=
  numbers.foldl close table

def Holds (table : Descriptors Resource) (resource : Resource) : Prop :=
  some resource ∈ table.slots

instance [DecidableEq Resource] (table : Descriptors Resource) (resource : Resource) :
    Decidable (table.Holds resource) := inferInstanceAs (Decidable (_ ∈ _))

/-- Closing the number for that resource closes nothing else. -/
def Fits (table : Descriptors Resource) (closing : Nat × Resource) : Prop :=
  ∀ resource ∈ table.get closing.1, resource = closing.2

instance [DecidableEq Resource] (table : Descriptors Resource) (closing : Nat × Resource) :
    Decidable (table.Fits closing) := inferInstanceAs (Decidable (∀ resource ∈ _, _))

/-- The table after the closings, and whether one of them hit something else. -/
def closeAll [DecidableEq Resource] (table : Descriptors Resource) :
    List (Nat × Resource) → Descriptors Resource × Bool
  | [] => (table, false)
  | closing :: rest =>
      let (closed, wrong) := (table.close closing.1).closeAll rest
      (closed, wrong || !decide (table.Fits closing))

variable {table : Descriptors Resource} {number other : Nat} {resource : Resource}

theorem lt_size (holds : table.get number = some resource) : number < table.size := by
  by_contra beyond
  unfold get at holds
  rw [List.getElem?_eq_none (Nat.le_of_not_lt beyond)] at holds
  cases holds

theorem holds_iff : table.Holds resource ↔ ∃ number, table.get number = some resource := by
  unfold Holds get
  rw [List.mem_iff_getElem?]
  simp [Option.join_eq_some_iff]

theorem fits_of_held {closing : Nat × Resource} (held : table.get closing.1 = some closing.2) :
    table.Fits closing := fun _ other => Option.some.inj (other.symm.trans held)

theorem lowest_free (table : Descriptors Resource) : table.get table.lowest = none := by
  unfold get
  by_cases inside : table.lowest < table.size
  · have free : (table.slots[table.lowest]).isNone := List.findIdx_getElem (w := inside)
    rw [List.getElem?_eq_getElem inside]
    simpa using free
  · rw [List.getElem?_eq_none (Nat.le_of_not_lt inside)]
    rfl

private theorem get_allocate (table : Descriptors Resource) (added : Resource) (number : Nat) :
    (table.allocate added).get number =
      if number = table.lowest then some added else table.get number := by
  unfold allocate get
  by_cases inside : table.lowest < table.size
  · rw [if_pos inside]
    by_cases here : number = table.lowest
    · subst here
      have slot : table.lowest < table.slots.length := inside
      simp [slot]
    · have apart : table.lowest ≠ number := fun same => here same.symm
      simp [here, apart]
  · have top : table.lowest = table.slots.length :=
      Nat.le_antisymm List.findIdx_le_length (Nat.le_of_not_lt inside)
    rw [if_neg inside, top]
    by_cases here : number = table.slots.length
    · subst here
      simp
    · rw [if_neg here]
      by_cases below : number < table.slots.length
      · rw [List.getElem?_append_left below]
      · rw [List.getElem?_eq_none (by simp; omega), List.getElem?_eq_none (by omega)]

theorem allocate_holds {added : Resource} : (table.allocate added).get number = some resource ↔
    number = table.lowest ∧ resource = added ∨ table.get number = some resource := by
  rw [get_allocate]
  split
  · rename_i here
    subst here
    simp [lowest_free, eq_comm]
  · rename_i apart
    simp [apart]

private theorem get_close (table : Descriptors Resource) (number other : Nat) :
    (table.close number).get other = if other = number then none else table.get other := by
  unfold close get
  by_cases here : other = number
  · subst here
    by_cases inside : other < table.slots.length
    · simp [inside]
    · rw [if_pos rfl, List.getElem?_eq_none (by rw [List.length_set]; omega)]
      rfl
  · have apart : number ≠ other := fun same => here same.symm
    simp [here, apart]

theorem close_holds : (table.close number).get other = some resource ↔
    table.get other = some resource ∧ other ≠ number := by
  rw [get_close]
  split
  · rename_i here
    simp [here]
  · rename_i apart
    simp [apart]

theorem closeEach_holds {numbers : List Nat} :
    (table.closeEach numbers).get other = some resource ↔
      table.get other = some resource ∧ other ∉ numbers := by
  induction numbers generalizing table with
  | nil => simp [closeEach]
  | cons number rest ih =>
      have later : ((table.close number).closeEach rest).get other = some resource ↔ _ := ih
      unfold closeEach at later ⊢
      rw [List.foldl_cons, later, close_holds, List.mem_cons, not_or, and_assoc]

section Closings

variable [DecidableEq Resource]

theorem closeAll_table (table : Descriptors Resource) (closings : List (Nat × Resource)) :
    (table.closeAll closings).1 = table.closeEach (closings.map Prod.fst) := by
  induction closings generalizing table with
  | nil => rfl
  | cons closing rest ih => exact ih (table.close closing.1)

theorem closeAll_fits {closings : List (Nat × Resource)}
    (fits : ∀ closing ∈ closings, table.Fits closing) : (table.closeAll closings).2 = false := by
  induction closings generalizing table with
  | nil => rfl
  | cons closing rest ih =>
      have later : ∀ next ∈ rest, (table.close closing.1).Fits next := by
        intro next member resource holds
        exact fits next (List.mem_cons_of_mem _ member) resource (close_holds.mp holds).1
      have first : table.Fits closing := fits closing (by simp)
      simp [closeAll, ih later, first]

private theorem closeAll_concat (table : Descriptors Resource) (closings : List (Nat × Resource))
    (last : Nat × Resource) :
    (table.closeAll (closings ++ [last])).2 = ((table.closeAll closings).2 ||
      !decide ((table.closeEach (closings.map Prod.fst)).Fits last)) := by
  induction closings generalizing table with
  | nil => simp [closeAll, closeEach]
  | cons closing rest ih =>
      simp only [List.cons_append, closeAll, ih]
      rw [Bool.or_right_comm]
      rfl

/-- One more closing fits, or closes again what has been closed already. -/
theorem closeAll_concat_fits {closings : List (Nat × Resource)} {last : Nat × Resource}
    (right : (table.closeAll closings).2 = false)
    (listed : ∀ resource ∈ table.get last.1, (last.1, resource) ∈ closings ++ [last]) :
    (table.closeAll (closings ++ [last])).2 = false := by
  have fits : (table.closeEach (closings.map Prod.fst)).Fits last := by
    intro resource held
    obtain ⟨held, unclosed⟩ := closeEach_holds.mp held
    rcases List.mem_append.mp (listed resource held) with earlier | here
    · exact absurd (List.mem_map_of_mem earlier) unclosed
    · exact congrArg Prod.snd (List.mem_singleton.mp here)
  simp [closeAll_concat, right, fits]

end Closings

end Descriptors

end MpNet.Library
