import MpNet.Net.ListHeader

/-!
# What the list header means

A list stands for the sequence of its nodes. `list_push_front` appends to it, as
`list_push_tail` does; every other operation means what its name says.
-/

set_option autoImplicit false

namespace MpNet.Net

open Library

variable {Node : Type*} [DecidableEq Node] {links : Links Node} {null head node : Node}
  {nodes before after : List Node}

private theorem listPushFront_eq :
    listPushFront links node head = links.listPushTail node head := rfl

private theorem pushFront_iff (holds : Holds links head nodes) (fresh : node ∉ head :: nodes) :
    Holds (listPushFront links node head) head (node :: nodes) ↔ nodes = [] := by
  have tail : Holds (listPushFront links node head) head (nodes ++ [node]) := by
    rw [listPushFront_eq]
    exact holds.listPushTail fresh
  constructor
  · intro front
    have same := front.unique tail
    cases nodes with
    | nil => rfl
    | cons first rest =>
        obtain rfl : node = first := (List.cons.inj same).1
        simp at fresh
  · rintro rfl
    exact tail

private theorem holds_delNode (holds : Holds links head (before ++ node :: after)) :
    Holds (listDelNode null links node) head (before ++ after) := by
  have outside : node ∉ head :: (before ++ after) := by
    have moved : (node :: (head :: before ++ after)).Nodup :=
      List.perm_middle.nodup_iff.mp holds.distinct
    exact (List.nodup_cons.mp moved).1
  refine holds.listDelInit.congr (fun other member => ?_) fun other member => ?_
  · have apart : other ≠ node := fun same => outside (same ▸ member)
    simp [listDelNode, Links.listDelInit, Links.initListHead, Links.setNext, Links.setPrev, apart]
  · have apart : other ≠ node := fun same => outside (same ▸ member)
    simp [listDelNode, Links.listDelInit, Links.initListHead, Links.setNext, Links.setPrev, apart]

private theorem listEmpty_iff (holds : Holds links head nodes) :
    listEmpty links head = true ↔ nodes = [] := by
  rw [listEmpty, decide_eq_true_eq, holds.next_head]
  cases nodes with
  | nil => simp
  | cons first rest =>
      have apart : head ≠ first := fun same =>
        (List.nodup_cons.mp holds.distinct).1 (same ▸ List.mem_cons_self)
      simp [apart.symm]

/-! ## The loop -/

section Walk

variable {State : Type*} {links : State → Links Node} {body : Node → State → State}

omit [DecidableEq Node] in
theorem UnlinksCurrent.round {walk : Walk Node State}
    (unlinks : UnlinksCurrent links body head walk) :
    UnlinksCurrent links body head (walk.round links body) :=
  fun rounds => unlinks (rounds + 1)

/-- The nodes before the position are those that the body kept. -/
theorem listForEachSafe_visits (walk : Walk Node State) (kept rest : List Node)
    (holds : Holds (links walk.state) head (kept ++ rest)) (pos : walk.pos = rest.headD head)
    (saved : walk.n = (links walk.state).next walk.pos)
    (unlinks : UnlinksCurrent links body head walk) (fuel : Nat) (enough : rest.length < fuel) :
    ∃ last, listForEachSafe links body head fuel walk = some last ∧
      last.visited = walk.visited ++ rest := by
  induction rest generalizing walk kept fuel with
  | nil =>
      obtain ⟨fuel, rfl⟩ := Nat.exists_eq_add_of_lt enough
      exact ⟨walk, by simp [listForEachSafe, show walk.pos = head from pos], by simp⟩
  | cons node rest ih =>
      have here : walk.pos = node := pos
      have apart : walk.pos ≠ head := by
        rintro same
        refine (List.nodup_cons.mp holds.distinct).1 ?_
        simp [← same, here]
      obtain ⟨fuel, rfl⟩ : ∃ less, fuel = less + 1 := ⟨fuel - 1, by simp at enough; omega⟩
      have enough : rest.length < fuel := by simpa using enough
      have next : (walk.round links body).pos = rest.headD head := by
        refine saved.trans ?_
        rw [here]
        exact holds.next_eq
      have turn : (walk.round links body).visited ++ rest = walk.visited ++ node :: rest := by
        simp [Walk.round, here]
      rw [listForEachSafe, if_neg apart, ← turn]
      rcases unlinks 0 kept rest (by simpa [here] using holds) with left | gone
      · refine ih _ (kept ++ [node]) ?_ next rfl unlinks.round fuel enough
        simpa [Walk.round, here] using left
      · exact ih _ kept gone next rfl unlinks.round fuel enough

end Walk

/-! ## The header as a whole -/

/-- What every operation but `list_push_front` owes to the sequence. -/
structure Operates (null : Node) (links : Links Node) (head : Node) (nodes : List Node)
    (node : Node) : Prop where
  pushTail : Holds (links.listPushTail node head) head (nodes ++ [node])
  delNode : ∀ entry ∈ nodes,
    Holds (listDelNode null links entry) head (nodes.filter (· ≠ entry))
  delInit : ∀ entry ∈ nodes, Holds (links.listDelInit entry) head (nodes.filter (· ≠ entry))
  empty : listEmpty links head = true ↔ nodes = []
  forEach : ∀ (State : Type) (store : State → Links Node) (body : Node → State → State)
    (state : State), store state = links →
    UnlinksCurrent store body head (Walk.start store head state) →
    ∀ fuel > nodes.length, ∃ last,
      listForEachSafe store body head fuel (Walk.start store head state) = some last ∧
        last.visited = nodes

/-- The header implements a sequence. -/
structure MeansSequence (null : Node) (links : Links Node) (head : Node) (nodes : List Node)
    (node : Node) : Prop extends Operates null links head nodes node where
  pushFront : Holds (listPushFront links node head) head (node :: nodes)

private theorem operates (holds : Holds links head nodes) (fresh : node ∉ head :: nodes) :
    Operates null links head nodes node where
  pushTail := holds.listPushTail fresh
  delNode := by
    intro entry member
    obtain ⟨before, after, rfl⟩ := List.append_of_mem member
    rw [filter_ne_middle (List.nodup_cons.mp holds.distinct).2]
    exact holds_delNode holds
  delInit := by
    intro entry member
    obtain ⟨before, after, rfl⟩ := List.append_of_mem member
    rw [filter_ne_middle (List.nodup_cons.mp holds.distinct).2]
    exact holds.listDelInit
  empty := listEmpty_iff holds
  forEach := by
    rintro State store body state rfl unlinks fuel enough
    obtain ⟨last, finished, visited⟩ := listForEachSafe_visits (Walk.start store head state) []
      nodes holds holds.next_head rfl unlinks fuel enough
    exact ⟨last, finished, visited⟩

theorem meansSequence_iff_empty (holds : Holds links head nodes) (fresh : node ∉ head :: nodes) :
    Operates null links head nodes node ∧
      (MeansSequence null links head nodes node ↔ nodes = []) := by
  have operates : Operates null links head nodes node := operates holds fresh
  refine ⟨operates, ?_⟩
  rw [← pushFront_iff holds fresh]
  exact ⟨fun means => means.pushFront, fun front => ⟨operates, front⟩⟩

/-- A head and a list of one node. -/
def oneNode : Links Nat :=
  ((Links.mk (fun _ => 0) fun _ => 0).initListHead 1).listPushTail 2 1

private theorem holds_oneNode : Holds oneNode 1 [2] :=
  (holds_initListHead _ 1).listPushTail (by decide)

theorem oneNode_operates :
    Operates 0 oneNode 1 [2] 3 ∧ (MeansSequence 0 oneNode 1 [2] 3 ↔ [2] = ([] : List Nat)) :=
  meansSequence_iff_empty holds_oneNode (by decide)

theorem oneNode_pushFront :
    Holds oneNode 1 [2] ∧ 3 ∉ [1, 2] ∧ (listPushFront oneNode 3 1).next 1 = 2 ∧
      ¬ Holds (listPushFront oneNode 3 1) 1 [3, 2] := by
  refine ⟨holds_oneNode, by decide, by decide, fun front => ?_⟩
  exact absurd front.next_head (by decide)

end MpNet.Net
