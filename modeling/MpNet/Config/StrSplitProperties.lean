import MpNet.Config.StrSplit

/-!
# The fields of a line

`str_split` agrees with the tokens of the line, and stays inside it.
-/

set_option autoImplicit false

namespace MpNet.Config

open Library

variable {ifs : UInt8 → Bool} {left right word line : List UInt8}

private theorem stringAt_eq (noNul : 0 ∉ word) :
    stringAt (left ++ (word ++ 0 :: right)) left.length = word := by
  rw [stringAt, List.drop_left, cstring_eq noNul]

/-! ## The last field -/

private theorem trim_moves {init trail before after : List UInt8} {last : UInt8}
    (stops : ifs last = false) (passes : ∀ byte ∈ trail, ifs byte = true) :
    (Cursor.advance (init.length + trail.length)
        ⟨before, init ++ last :: (trail ++ after)⟩).bind (·.backward ifs) =
      some ⟨init.reverse ++ before, last :: (trail ++ after)⟩ := by
  rcases List.eq_nil_or_concat trail with rfl | ⟨passed, final, rfl⟩
  · rw [List.length_nil, Nat.add_zero, Cursor.advance_passed, Option.bind_some]
    exact Cursor.backward_stays stops
  · rw [List.concat_eq_append] at passes ⊢
    have moved : Cursor.advance (init ++ last :: passed).length
        ⟨before, (init ++ last :: passed) ++ final :: after⟩ =
        some ⟨passed.reverse ++ last :: (init.reverse ++ before), final :: after⟩ := by
      rw [Cursor.advance_passed]
      simp
    have count : init.length + (passed ++ [final]).length = (init ++ last :: passed).length := by
      simp
    have buffer : init ++ last :: (passed ++ [final] ++ after) =
        (init ++ last :: passed) ++ final :: after := by simp
    rw [count, buffer, moved, Option.bind_some, Cursor.backward_stops
      (fun byte member => passes byte (List.mem_append_left [final] member))
      (passes final (by simp)) stops]
    simp

private theorem splitFrom_one {before gap post more : List UInt8} {first : UInt8}
    (blank : ∀ byte ∈ gap, ifs byte = true) (solid : ifs first = false)
    (noNul : 0 ∉ first :: more) (field : List Nat) :
    splitFrom ifs 1 ⟨before, gap ++ (first :: more ++ 0 :: post)⟩ field =
      some (⟨((first :: more).rdropWhile ifs).reverse ++ (gap.reverse ++ before),
        0 :: ((first :: more).rtakeWhile ifs ++ 0 :: post).tail⟩,
        field ++ [(gap.reverse ++ before).length]) := by
  have core : (first :: more).rdropWhile ifs ≠ [] := by
    intro none
    have delimiter := List.rdropWhile_eq_nil_iff.mp none first List.mem_cons_self
    simp [solid] at delimiter
  obtain ⟨init, last, parts⟩ : ∃ init last, (first :: more).rdropWhile ifs = init ++ [last] :=
    ⟨_, _, (List.dropLast_append_getLast core).symm⟩
  have stops : ifs last = false := by
    have solidLast := List.rdropWhile_last_not ifs (first :: more) core
    simpa [parts] using solidLast
  have whole : first :: more = init ++ last :: (first :: more).rtakeWhile ifs := by
    conv_lhs => rw [← List.rdropWhile_append_rtakeWhile (p := ifs) (l := first :: more), parts]
    simp
  have passes : ∀ byte ∈ (first :: more).rtakeWhile ifs, ifs byte = true :=
    fun byte member => List.mem_rtakeWhile_imp member
  rw [parts]
  generalize (first :: more).rtakeWhile ifs = trail at whole passes ⊢
  have buffer : first :: (more ++ 0 :: post) = init ++ last :: (trail ++ 0 :: post) := by
    rw [← List.cons_append, whole]
    simp
  have count : (first :: more).length - 1 = init.length + trail.length := by
    rw [whole]
    simp
  have moves : (Cursor.advance ((first :: more).length - 1)
      ⟨gap.reverse ++ before, first :: (more ++ 0 :: post)⟩).bind (·.backward ifs) =
      some ⟨init.reverse ++ (gap.reverse ++ before), last :: (trail ++ 0 :: post)⟩ := by
    rw [count, buffer]
    exact trim_moves stops passes
  have length : Cursor.distance 0 (first :: (more ++ 0 :: post)) = some (first :: more).length :=
    Cursor.distance_eq noNul
  have nonzero : first ≠ 0 := fun zero => noNul (zero ▸ List.mem_cons_self)
  have reads : Cursor.read ⟨gap.reverse ++ before, first :: (more ++ 0 :: post)⟩ = some first := rfl
  unfold splitFrom
  rw [List.cons_append, Cursor.forward_stops blank solid]
  simp only [Option.bind_eq_bind, Option.bind_some, reads, if_neg nonzero, if_true]
  rw [length, Option.bind_some, ← Option.bind_assoc, moves]
  simp only [Option.bind_some, Cursor.next, Cursor.pos]
  cases trail <;> simp [Cursor.store]

/-- A run of the loop: the line stays within its bounds, and the offsets that the run adds to
`field` lie in it and are those of the fields. -/
def Leaves (ifs : UInt8 → Bool) (free : Nat) (before line post : List UInt8) (field : List Nat) :
    Prop :=
  ∃ cursor offsets line', splitFrom ifs free ⟨before, line ++ 0 :: post⟩ field =
      some (cursor, field ++ offsets) ∧
    cursor.bytes = before.reverse ++ (line' ++ 0 :: post) ∧ line'.length = line.length ∧
    (∀ offset ∈ offsets, offset ≤ before.length + line.length) ∧
    offsets.map (stringAt cursor.bytes) = splitFields ifs free line

private theorem offset_eq (before gap : List UInt8) :
    (gap.reverse ++ before).length = (before.reverse ++ gap).length := by
  simp [Nat.add_comm]

/-- The terminator goes to the first trailing delimiter, or stays. -/
theorem terminated (trail post : List UInt8) : ∃ trail', trail'.length = trail.length ∧
    0 :: (trail ++ 0 :: post).tail = trail' ++ 0 :: post := by
  cases trail with
  | nil => exact ⟨[], rfl, rfl⟩
  | cons delimiter trail => exact ⟨0 :: trail, rfl, rfl⟩

private theorem splitFrom_one_leaves {before gap post more : List UInt8} {first : UInt8}
    (blank : ∀ byte ∈ gap, ifs byte = true) (solid : ifs first = false)
    (noNul : 0 ∉ first :: more) (found : tokens ifs (first :: more) ≠ []) (field : List Nat) :
    Leaves ifs 1 before (gap ++ first :: more) post field := by
  have parts : (first :: more).rdropWhile ifs ++ (first :: more).rtakeWhile ifs = first :: more :=
    List.rdropWhile_append_rtakeWhile
  have core : 0 ∉ (first :: more).rdropWhile ifs := fun member =>
    noNul ((List.rdropWhile_prefix ifs (first :: more)).subset member)
  have runs : splitFrom ifs 1 ⟨before, gap ++ (first :: more ++ 0 :: post)⟩ field = _ :=
    splitFrom_one blank solid noNul field
  have fields : splitFields ifs 1 (gap ++ first :: more) = [(first :: more).rdropWhile ifs] :=
    splitFields_one blank found rfl solid
  rw [← List.append_assoc] at runs
  generalize (first :: more).rdropWhile ifs = kept at *
  generalize (first :: more).rtakeWhile ifs = trail at *
  obtain ⟨trail', length, ends⟩ := terminated trail post
  have bytes : Cursor.bytes ⟨kept.reverse ++ (gap.reverse ++ before),
      0 :: (trail ++ 0 :: post).tail⟩ =
      (before.reverse ++ gap) ++ (kept ++ 0 :: (trail ++ 0 :: post).tail) := by
    simp [Cursor.bytes]
  refine ⟨_, _, gap ++ (kept ++ trail'), runs, ?_, ?_, ?_, ?_⟩
  · rw [bytes, ends]
    simp
  · rw [← parts]
    simp [length]
  · simp
    omega
  · rw [bytes, fields, List.map_singleton]
    rw [offset_eq, stringAt_eq core]

/-! ## One round -/

section Round

variable {before gap post : List UInt8} {separator : UInt8}

private theorem splitFrom_blank (nul : ifs 0 = false) (blank : ∀ byte ∈ gap, ifs byte = true)
    (free : Nat) (field : List Nat) :
    splitFrom ifs (free + 1) ⟨before, gap ++ 0 :: post⟩ field =
      some (⟨gap.reverse ++ before, 0 :: post⟩, field) := by
  unfold splitFrom
  rw [Cursor.forward_stops blank nul]
  simp [Cursor.read]

private theorem splitFrom_blank_leaves (nul : ifs 0 = false) (blank : ∀ byte ∈ gap, ifs byte = true)
    (free : Nat) (field : List Nat) : Leaves ifs (free + 1) before gap post field := by
  refine ⟨_, [], gap, by rw [List.append_nil]; exact splitFrom_blank nul blank free field, ?_, rfl,
    by simp, ?_⟩
  · simp [Cursor.bytes]
  · rw [splitFields_blank blank, List.map_nil]

private theorem splitFrom_token (blank : ∀ byte ∈ gap, ifs byte = true) (some : word ≠ [])
    (solid : ∀ byte ∈ word, ifs byte = false) (noNul : 0 ∉ word) {stop : UInt8}
    (stops : stop = 0 ∨ ifs stop = true) (free : Nat) (field : List Nat) :
    splitFrom ifs (free + 2) ⟨before, gap ++ (word ++ stop :: post)⟩ field =
      if stop = 0 then
        .some (⟨word.reverse ++ (gap.reverse ++ before), stop :: post⟩,
          field ++ [(gap.reverse ++ before).length])
      else
        splitFrom ifs (free + 1) ⟨0 :: (word.reverse ++ (gap.reverse ++ before)), post⟩
          (field ++ [(gap.reverse ++ before).length]) := by
  obtain ⟨first, word, rfl⟩ := List.exists_cons_of_ne_nil some
  have nonzero : first ≠ 0 := fun zero => noNul (zero ▸ List.mem_cons_self)
  have passes : ∀ byte ∈ first :: word, (decide (byte ≠ 0) && !ifs byte) = true :=
    fun byte member => by simp [solid byte member, ne_of_mem_of_not_mem member noNul]
  have ends : (decide (stop ≠ 0) && !ifs stop) = false := by
    rcases stops with rfl | delimiter
    · rfl
    · simp [delimiter]
  conv_lhs => unfold splitFrom
  rw [List.cons_append, Cursor.forward_stops blank (solid first List.mem_cons_self)]
  simp only [Option.bind_eq_bind, Option.bind_some, Cursor.read, List.head?_cons, if_neg nonzero,
    Nat.add_one_ne_zero, if_false]
  rw [← List.cons_append, Cursor.forward_stops passes ends]
  simp only [Option.bind_some, List.head?_cons, Cursor.store, Cursor.next, Cursor.pos]

private theorem splitFrom_last_leaves (blank : ∀ byte ∈ gap, ifs byte = true) (some : word ≠ [])
    (solid : ∀ byte ∈ word, ifs byte = false) (noNul : 0 ∉ word) (free : Nat) (field : List Nat) :
    Leaves ifs (free + 2) before (gap ++ word) post field := by
  have runs : splitFrom ifs (free + 2) ⟨before, gap ++ (word ++ 0 :: post)⟩ field = _ :=
    splitFrom_token blank some solid noNul (.inl rfl) free field
  rw [if_pos rfl, ← List.append_assoc] at runs
  have bytes : Cursor.bytes ⟨word.reverse ++ (gap.reverse ++ before), 0 :: post⟩ =
      (before.reverse ++ gap) ++ (word ++ 0 :: post) := by simp [Cursor.bytes]
  refine ⟨_, _, gap ++ word, runs, ?_, rfl, ?_, ?_⟩
  · rw [bytes]
    simp
  · simp
    omega
  · rw [bytes, splitFields_last blank some solid, List.map_singleton, offset_eq, stringAt_eq noNul]

private theorem splitFrom_more_leaves {rest : List UInt8} (blank : ∀ byte ∈ gap, ifs byte = true)
    (some : word ≠ []) (solid : ∀ byte ∈ word, ifs byte = false) (noNul : 0 ∉ word)
    (delimiter : ifs separator = true) (nonzero : separator ≠ 0) {free : Nat}
    (later : ∀ before field, Leaves ifs (free + 1) before rest post field) (field : List Nat) :
    Leaves ifs (free + 2) before (gap ++ (word ++ separator :: rest)) post field := by
  have runs : splitFrom ifs (free + 2)
      ⟨before, gap ++ (word ++ separator :: (rest ++ 0 :: post))⟩ field = _ :=
    splitFrom_token blank some solid noNul (.inr delimiter) free field
  obtain ⟨cursor, offsets, rest', goes, bytes, length, inside, strings⟩ :=
    later (0 :: (word.reverse ++ (gap.reverse ++ before)))
      (field ++ [(gap.reverse ++ before).length])
  rw [if_neg nonzero, goes] at runs
  have buffer : cursor.bytes = (before.reverse ++ gap) ++ (word ++ 0 :: (rest' ++ 0 :: post)) := by
    rw [bytes]
    simp
  refine ⟨cursor, (gap.reverse ++ before).length :: offsets, gap ++ (word ++ 0 :: rest'),
    ?_, ?_, ?_, ?_, ?_⟩
  · simpa using runs
  · rw [buffer]
    simp
  · simp [length]
  · intro offset member
    simp only [List.length_append, List.length_cons, List.length_reverse,
      List.mem_cons] at inside member ⊢
    rcases member with rfl | member
    · omega
    · have bound := inside offset member
      omega
  · rw [List.map_cons, strings, splitFields_more blank some solid delimiter, buffer, offset_eq,
      stringAt_eq noNul]

end Round

/-- The induction is on the entries of `field` that are left, with one case for each shape of
the line. -/
theorem splitFrom_leaves (nul : ifs 0 = false) (noNul : 0 ∉ line) (free : Nat)
    (before post : List UInt8) (field : List Nat) :
    Leaves ifs (free + 1) before line post field := by
  induction free generalizing line before field with
  | zero =>
      cases shape ifs line with
      | blank blank => exact splitFrom_blank_leaves nul blank 0 field
      | @last gap word blank some solid =>
          obtain ⟨first, word, rfl⟩ := List.exists_cons_of_ne_nil some
          refine splitFrom_one_leaves blank (solid first List.mem_cons_self) ?_ ?_ field
          · exact fun member => noNul (List.mem_append_right gap member)
          · simp [tokens_word some solid]
      | @more gap word rest separator blank some solid delimiter =>
          obtain ⟨first, word, rfl⟩ := List.exists_cons_of_ne_nil some
          refine splitFrom_one_leaves blank (solid first List.mem_cons_self) ?_ ?_ field
          · exact fun member => noNul (List.mem_append_right gap member)
          · show tokens ifs (first :: word ++ separator :: rest) ≠ []
            rw [tokens_word_cons some solid delimiter]
            simp
  | succ free ih =>
      cases shape ifs line with
      | blank blank => exact splitFrom_blank_leaves nul blank (free + 1) field
      | @last gap word blank some solid =>
          have noNul : 0 ∉ word := fun member => noNul (List.mem_append_right gap member)
          exact splitFrom_last_leaves blank some solid noNul free field
      | @more gap word rest separator blank some solid delimiter =>
          simp only [List.mem_append, List.mem_cons, not_or] at noNul
          obtain ⟨_, noNul, nonzero, later⟩ := noNul
          exact splitFrom_more_leaves blank some solid noNul delimiter (Ne.symm nonzero)
            (ih later) field

/-- `str_split` on a line within a buffer. -/
theorem strSplit_line (ifs : Option (UInt8 → Bool)) (nul : ifs.getD defaultIfs 0 = false)
    (noNul : 0 ∉ line) (free : Nat) (before post : List UInt8) :
    ∃ line' field, strSplit ifs ⟨before.reverse, line ++ 0 :: post⟩ (free + 1) =
        some (before ++ (line' ++ 0 :: post), field) ∧
      line'.length = line.length ∧ (∀ offset ∈ field, offset ≤ before.length + line.length) ∧
      field.map (stringAt (before ++ (line' ++ 0 :: post))) =
        splitFields (ifs.getD defaultIfs) (free + 1) line := by
  obtain ⟨cursor, field, line', runs, bytes, length, inside, strings⟩ :=
    splitFrom_leaves nul noNul free before.reverse post []
  rw [List.reverse_reverse] at bytes
  rw [List.length_reverse] at inside
  rw [bytes] at strings
  exact ⟨line', field, by simp [strSplit, runs, bytes], length, inside, strings⟩

/-- Within the line, `str_split` agrees with the tokens. -/
theorem str_split_fields (ifs : Option (UInt8 → Bool)) (nul : ifs.getD defaultIfs 0 = false)
    (line : List UInt8) (noNul : 0 ∉ line) (n : Nat) (positive : 0 < n) :
    ∃ buffer field, strSplit ifs ⟨[], line ++ [0]⟩ n = some (buffer, field) ∧
      buffer.length = line.length + 1 ∧
      field.length = min n (tokens (ifs.getD defaultIfs) line).length ∧
      (∀ index < n - 1, field[index]?.map (stringAt buffer) =
        (tokens (ifs.getD defaultIfs) line)[index]?) ∧
      ∀ offset ∈ field[n - 1]?, stringAt buffer offset =
        remainder (ifs.getD defaultIfs) (n - 1) line := by
  obtain ⟨free, rfl⟩ : ∃ free, n = free + 1 := ⟨n - 1, by omega⟩
  obtain ⟨line', field, splits, length, _, strings⟩ := strSplit_line ifs nul noNul free [] []
  have size : ([] ++ (line' ++ 0 :: [])).length = line.length + 1 := by simp [length]
  generalize [] ++ (line' ++ 0 :: []) = buffer at splits strings size
  refine ⟨buffer, field, splits, size, ?_, ?_, ?_⟩
  · rw [← splitFields_length, ← strings, List.length_map]
  · intro index below
    rw [← List.getElem?_map, strings]
    exact splitFields_getElem below line
  · intro offset filled
    have string : stringAt buffer offset ∈ (field.map (stringAt buffer))[free]? := by
      rw [List.getElem?_map]
      exact Option.mem_map_of_mem _ filled
    rw [strings] at string
    exact splitFields_getElem_last free line _ string

/-- A line with delimiters before, between and after its fields: `x= 1  y z ` and a tab. -/
def paddedLine : List UInt8 := [120, 61, 32, 49, 32, 32, 121, 32, 122, 32, 9]

theorem str_split_paddedLine :
    ∃ buffer field, strSplit none ⟨[], paddedLine ++ [0]⟩ 3 = some (buffer, field) ∧
      buffer.length = paddedLine.length + 1 ∧
      field.length = min 3 (tokens defaultIfs paddedLine).length ∧
      (∀ index < 2, field[index]?.map (stringAt buffer) = (tokens defaultIfs paddedLine)[index]?) ∧
      ∀ offset ∈ field[2]?, stringAt buffer offset = remainder defaultIfs 2 paddedLine :=
  str_split_fields none rfl paddedLine (by decide) 3 (by decide)

example : remainder defaultIfs 2 paddedLine = [121, 32, 122] := by decide

end MpNet.Config
