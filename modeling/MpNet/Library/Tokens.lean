import Mathlib.Data.List.DropRight

/-!
# Tokens between delimiters

The tokens of a list are its maximal nonempty parts without a delimiter.
-/

set_option autoImplicit false

namespace MpNet.Library

variable {α : Type*} (delimits : α → Bool)

def tokens (list : List α) : List (List α) :=
  (list.splitOnP delimits).filter (!·.isEmpty)

/-- The part of the list from the start of a token on. -/
def fromToken : Nat → List α → List α
  | 0, list => list.dropWhile delimits
  | index + 1, list => fromToken index ((list.dropWhile delimits).dropWhile (!delimits ·))

/-- From the start of a token to the end of the last one. -/
def remainder (index : Nat) (list : List α) : List α :=
  (fromToken delimits index list).rdropWhile delimits

variable {delimits} {gap word rest : List α} {separator : α}

private theorem tokens_cons_of_delimits (delimiter : delimits separator = true) :
    tokens delimits (separator :: rest) = tokens delimits rest := by
  simp [tokens, List.splitOnP_cons_eq_if_modifyHead, delimiter]

private theorem tokens_gap (blank : ∀ item ∈ gap, delimits item = true) :
    tokens delimits (gap ++ rest) = tokens delimits rest := by
  induction gap with
  | nil => rfl
  | cons item gap ih =>
      rw [List.cons_append, tokens_cons_of_delimits (blank item List.mem_cons_self)]
      exact ih fun later member => blank later (List.mem_cons_of_mem item member)

private theorem tokens_blank (blank : ∀ item ∈ gap, delimits item = true) :
    tokens delimits gap = [] := by
  rw [← List.append_nil gap, tokens_gap blank]
  simp [tokens]

theorem tokens_word (some : word ≠ []) (solid : ∀ item ∈ word, delimits item = false) :
    tokens delimits word = [word] := by
  simp [tokens, List.splitOnP_eq_singleton solid, some]

theorem tokens_word_cons (some : word ≠ []) (solid : ∀ item ∈ word, delimits item = false)
    (delimiter : delimits separator = true) :
    tokens delimits (word ++ separator :: rest) = word :: tokens delimits rest := by
  simp [tokens, List.splitOnP_append_cons_of_forall_mem solid separator delimiter, some]

private theorem dropWhile_gap (blank : ∀ item ∈ gap, delimits item = true) :
    (gap ++ rest).dropWhile delimits = rest.dropWhile delimits := by
  rw [List.dropWhile_append_of_pos blank]

private theorem fromToken_gap (blank : ∀ item ∈ gap, delimits item = true) (index : Nat) :
    fromToken delimits index (gap ++ rest) = fromToken delimits index rest := by
  cases index <;> simp only [fromToken, dropWhile_gap blank]

private theorem fromToken_word_cons (some : word ≠ [])
    (solid : ∀ item ∈ word, delimits item = false)
    (delimiter : delimits separator = true) (index : Nat) :
    fromToken delimits (index + 1) (word ++ separator :: rest) =
      fromToken delimits index rest := by
  obtain ⟨first, word, rfl⟩ := List.exists_cons_of_ne_nil some
  have stops : delimits first = false := solid first List.mem_cons_self
  simp only [fromToken, List.cons_append, List.dropWhile_cons, stops, Bool.false_eq_true, if_false,
    Bool.not_false, if_true]
  have passes : ∀ item ∈ word, (!delimits item) = true := fun item member => by
    simp [solid item (List.mem_cons_of_mem first member)]
  rw [List.dropWhile_append_of_pos passes]
  simp only [List.dropWhile_cons, delimiter, Bool.not_true, Bool.false_eq_true, if_false]
  have blank : ∀ item ∈ [separator], delimits item = true := by simpa using delimiter
  exact fromToken_gap blank index

private theorem head_dropWhile {first : α} {list : List α}
    (rests : list.dropWhile delimits = first :: rest) :
    delimits first = false := by
  have stops := List.head?_dropWhile_not delimits list
  rw [rests] at stops
  simpa using stops

/-- A list is blank, ends with its first token, or has a delimiter after it. -/
inductive Shape (delimits : α → Bool) : List α → Prop where
  | blank {gap : List α} (blank : ∀ item ∈ gap, delimits item = true) : Shape delimits gap
  | last {gap word : List α} (blank : ∀ item ∈ gap, delimits item = true) (some : word ≠ [])
      (solid : ∀ item ∈ word, delimits item = false) : Shape delimits (gap ++ word)
  | more {gap word rest : List α} {separator : α} (blank : ∀ item ∈ gap, delimits item = true)
      (some : word ≠ []) (solid : ∀ item ∈ word, delimits item = false)
      (delimiter : delimits separator = true) :
      Shape delimits (gap ++ (word ++ separator :: rest))

theorem shape (delimits : α → Bool) (list : List α) : Shape delimits list := by
  have blank : ∀ item ∈ list.takeWhile delimits, delimits item = true :=
    fun item member => List.mem_takeWhile_imp member
  rw [← List.takeWhile_append_dropWhile (p := delimits) (l := list)]
  cases tail : list.dropWhile delimits with
  | nil =>
      rw [List.append_nil]
      exact .blank blank
  | cons first after =>
      have stops : delimits first = false := head_dropWhile tail
      have solid : ∀ item ∈ (first :: after).takeWhile (!delimits ·), delimits item = false :=
        fun item member => by simpa using List.mem_takeWhile_imp member
      have some : (first :: after).takeWhile (!delimits ·) ≠ [] := by simp [stops]
      rw [← List.takeWhile_append_dropWhile (p := (!delimits ·)) (l := first :: after)]
      cases later : (first :: after).dropWhile (!delimits ·) with
      | nil =>
          rw [List.append_nil]
          exact .last blank some solid
      | cons separator rest =>
          have delimiter : delimits separator = true := by simpa using head_dropWhile later
          exact .more blank some solid delimiter

/-! ## A bounded number of fields -/

/-- Tokens up to a number of fields; the last one is all that remains. -/
def splitFields (delimits : α → Bool) (count : Nat) (list : List α) : List (List α) :=
  (tokens delimits list).take (count - 1) ++
    if count ≤ (tokens delimits list).length then [remainder delimits (count - 1) list] else []

theorem splitFields_blank (blank : ∀ item ∈ gap, delimits item = true) (count : Nat) :
    splitFields delimits (count + 1) gap = [] := by
  simp [splitFields, tokens_blank blank]

theorem splitFields_one (blank : ∀ item ∈ gap, delimits item = true)
    (some : tokens delimits rest ≠ []) {first : α} {after : List α} (starts : rest = first :: after)
    (solid : delimits first = false) :
    splitFields delimits 1 (gap ++ rest) = [rest.rdropWhile delimits] := by
  have positive : 1 ≤ (tokens delimits rest).length := List.length_pos_iff.mpr some
  have start : rest.dropWhile delimits = rest := by simp [starts, solid]
  simp [splitFields, tokens_gap blank, positive, remainder, fromToken, dropWhile_gap blank, start]

theorem splitFields_last (blank : ∀ item ∈ gap, delimits item = true) (some : word ≠ [])
    (solid : ∀ item ∈ word, delimits item = false) (count : Nat) :
    splitFields delimits (count + 2) (gap ++ word) = [word] := by
  simp [splitFields, tokens_gap blank, tokens_word some solid]

theorem splitFields_more (blank : ∀ item ∈ gap, delimits item = true) (some : word ≠ [])
    (solid : ∀ item ∈ word, delimits item = false) (delimiter : delimits separator = true)
    (count : Nat) :
    splitFields delimits (count + 2) (gap ++ (word ++ separator :: rest)) =
      word :: splitFields delimits (count + 1) rest := by
  simp [splitFields, tokens_gap blank, tokens_word_cons some solid delimiter, remainder,
    fromToken_gap blank, fromToken_word_cons some solid delimiter]

theorem splitFields_length (count : Nat) (list : List α) :
    (splitFields delimits (count + 1) list).length = min (count + 1) (tokens delimits list).length := by
  simp only [splitFields, Nat.add_sub_cancel, List.length_append, List.length_take]
  split
  · rw [List.length_singleton]
    omega
  · rw [List.length_nil]
    omega

theorem splitFields_getElem {count index : Nat} (below : index < count) (list : List α) :
    (splitFields delimits (count + 1) list)[index]? = (tokens delimits list)[index]? := by
  simp only [splitFields, Nat.add_sub_cancel]
  by_cases inside : index < (tokens delimits list).length
  · rw [List.getElem?_append_left (by simp; omega), List.getElem?_take_of_lt below]
  · rw [if_neg (by omega), List.append_nil, List.getElem?_take_of_lt below]

theorem splitFields_getElem_last (count : Nat) (list : List α) :
    ∀ field ∈ (splitFields delimits (count + 1) list)[count]?,
      field = remainder delimits count list := by
  intro field filled
  simp only [splitFields, Nat.add_sub_cancel] at filled
  split at filled
  · rename_i enough
    rw [List.getElem?_append_right (List.length_take_le _ _)] at filled
    simpa [Nat.min_eq_left (by omega : count ≤ (tokens delimits list).length)] using filled.symm
  · rw [List.append_nil, List.getElem?_eq_none (List.length_take_le _ _)] at filled
    cases filled

end MpNet.Library
