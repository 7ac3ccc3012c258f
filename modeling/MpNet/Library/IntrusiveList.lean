import Mathlib.Data.List.Basic
import Mathlib.Logic.Function.Basic

/-!
# Circular doubly linked lists through their nodes

The links of all nodes form one store. A head node holds a sequence of nodes when the
`next` links lead through them and back to the head and the `prev` links the other way.
Several lists may share the store.
-/

set_option autoImplicit false

namespace MpNet.Library

variable {Node : Type*}

/-- The `prev` and `next` of every node. -/
structure Links (Node : Type*) where
  prev : Node → Node
  next : Node → Node

namespace Links

variable [DecidableEq Node]

def setPrev (links : Links Node) (node target : Node) : Links Node :=
  { links with prev := Function.update links.prev node target }

def setNext (links : Links Node) (node target : Node) : Links Node :=
  { links with next := Function.update links.next node target }

def initListHead (links : Links Node) (ptr : Node) : Links Node :=
  (links.setNext ptr ptr).setPrev ptr ptr

def listPush (links : Links Node) (newNode prev next : Node) : Links Node :=
  (((links.setPrev next newNode).setNext newNode next).setPrev newNode prev).setNext prev newNode

def listPushTail (links : Links Node) (newNode head : Node) : Links Node :=
  links.listPush newNode (links.prev head) head

def listDel (links : Links Node) (prev next : Node) : Links Node :=
  (links.setPrev next prev).setNext prev next

def listDelInit (links : Links Node) (entry : Node) : Links Node :=
  (links.listDel (links.prev entry) (links.next entry)).initListHead entry

variable {links : Links Node} {newNode first second node entry : Node}

private theorem listPush_prev : (links.listPush newNode first second).prev node =
    if node = newNode then first else if node = second then newNode else links.prev node := by
  simp [listPush, setPrev, setNext, Function.update_apply]

private theorem listPush_next : (links.listPush newNode first second).next node =
    if node = first then newNode else if node = newNode then second else links.next node := by
  simp [listPush, setPrev, setNext, Function.update_apply]

private theorem listDelInit_prev : (links.listDelInit entry).prev node =
    if node = entry then entry else if node = links.next entry then links.prev entry
    else links.prev node := by
  simp [listDelInit, listDel, initListHead, setPrev, setNext, Function.update_apply]

private theorem listDelInit_next : (links.listDelInit entry).next node =
    if node = entry then entry else if node = links.prev entry then links.next entry
    else links.next node := by
  simp [listDelInit, listDel, initListHead, setPrev, setNext, Function.update_apply]

end Links

/-! ## Segments -/

/-- The links lead from one node through a sequence to another. -/
def Chain (links : Links Node) : Node → List Node → Node → Prop
  | first, [], last => links.next first = last ∧ links.prev last = first
  | first, node :: rest, last =>
      links.next first = node ∧ links.prev node = first ∧ Chain links node rest last

variable {links links' : Links Node} {first last node head : Node} {nodes before after : List Node}

private theorem chain_append : Chain links first (before ++ node :: after) last ↔
    Chain links first before node ∧ Chain links node after last := by
  induction before generalizing first with
  | nil => simp [Chain, and_assoc]
  | cons other before ih => simp [Chain, ih, and_assoc]

private theorem Chain.next_first (chain : Chain links first nodes last) :
    links.next first = nodes.headD last := by
  cases nodes with
  | nil => exact chain.1
  | cons node rest => exact chain.1

private theorem Chain.prev_last (chain : Chain links first nodes last) :
    links.prev last ∈ first :: nodes := by
  induction nodes generalizing first with
  | nil => simp [chain.2]
  | cons node rest ih => exact List.mem_cons_of_mem _ (ih chain.2.2)

theorem Chain.congr (chain : Chain links first nodes last)
    (next : ∀ node ∈ first :: nodes, links'.next node = links.next node)
    (prev : ∀ node ∈ nodes ++ [last], links'.prev node = links.prev node) :
    Chain links' first nodes last := by
  induction nodes generalizing first with
  | nil => exact ⟨(next first (by simp)).trans chain.1, (prev last (by simp)).trans chain.2⟩
  | cons node rest ih =>
      obtain ⟨forward, back, chain⟩ := chain
      refine ⟨(next first (by simp)).trans forward, (prev node (by simp)).trans back, ?_⟩
      refine ih chain (fun other member => next other ?_) fun other member => prev other ?_
      · exact List.mem_cons_of_mem _ member
      · exact List.mem_cons_of_mem _ member

/-- The last link of a segment is turned to another node. -/
theorem Chain.redirect {target : Node} (chain : Chain links first nodes last)
    (distinct : (first :: nodes).Nodup)
    (next : ∀ node ∈ first :: nodes, node ≠ links.prev last → links'.next node = links.next node)
    (prev : ∀ node ∈ nodes, links'.prev node = links.prev node)
    (forward : links'.next (links.prev last) = target)
    (back : links'.prev target = links.prev last) : Chain links' first nodes target := by
  induction nodes generalizing first with
  | nil =>
      rw [chain.2] at forward back
      exact ⟨forward, back⟩
  | cons node rest ih =>
      obtain ⟨firstNext, nodePrev, chain⟩ := chain
      have apart : first ≠ links.prev last := fun same =>
        (List.nodup_cons.mp distinct).1 (same ▸ chain.prev_last)
      refine ⟨(next first (by simp) apart).trans firstNext, (prev node (by simp)).trans nodePrev, ?_⟩
      refine ih chain (List.nodup_cons.mp distinct).2 (fun other member => next other ?_)
        fun other member => prev other ?_
      · exact List.mem_cons_of_mem _ member
      · exact List.mem_cons_of_mem _ member

/-! ## Lists -/

/-- The head holds a sequence of distinct nodes. -/
structure Holds (links : Links Node) (head : Node) (nodes : List Node) : Prop where
  chain : Chain links head nodes head
  distinct : (head :: nodes).Nodup

theorem Holds.congr (holds : Holds links head nodes)
    (next : ∀ node ∈ head :: nodes, links'.next node = links.next node)
    (prev : ∀ node ∈ head :: nodes, links'.prev node = links.prev node) :
    Holds links' head nodes where
  chain := holds.chain.congr next fun node member => prev node (by simp at member; simp; tauto)
  distinct := holds.distinct

theorem Holds.next_eq (holds : Holds links head (before ++ node :: after)) :
    links.next node = after.headD head := (chain_append.mp holds.chain).2.next_first

theorem Holds.next_head (holds : Holds links head nodes) : links.next head = nodes.headD head :=
  holds.chain.next_first

private theorem Holds.prev_mem (holds : Holds links head nodes) (member : node ∈ head :: nodes) :
    links.prev node ∈ head :: nodes := by
  rcases List.mem_cons.mp member with rfl | member
  · exact holds.chain.prev_last
  · obtain ⟨before, after, rfl⟩ := List.append_of_mem member
    have back := (chain_append.mp holds.chain).1.prev_last
    simp only [List.mem_cons, List.mem_append] at back ⊢
    tauto

private theorem Holds.next_mem (holds : Holds links head nodes) (member : node ∈ head :: nodes) :
    links.next node ∈ head :: nodes := by
  rcases List.mem_cons.mp member with rfl | member
  · rw [holds.next_head]
    cases nodes <;> simp
  · obtain ⟨before, after, rfl⟩ := List.append_of_mem member
    rw [holds.next_eq]
    cases after <;> simp

/-- A list stands for one sequence. -/
theorem Holds.unique {others : List Node} (holds : Holds links head nodes)
    (second : Holds links head others) : nodes = others := by
  have agree : ∀ first : Node, Chain links first nodes head → Chain links first others head →
      head ∉ nodes → head ∉ others → nodes = others := by
    clear holds second
    induction nodes generalizing others with
    | nil =>
        intro first chain second _ outside
        cases others with
        | nil => rfl
        | cons other rest =>
            exact absurd List.mem_cons_self (second.1.symm.trans chain.1 ▸ outside)
    | cons node rest ih =>
        intro first chain second outside away
        cases others with
        | nil => exact absurd List.mem_cons_self (chain.1.symm.trans second.1 ▸ outside)
        | cons other later =>
            obtain rfl : node = other := chain.1.symm.trans second.1
            simp only [List.mem_cons, not_or] at outside away
            rw [ih node chain.2.2 second.2.2 outside.2 away.2]
  exact agree head holds.chain second.chain (List.nodup_cons.mp holds.distinct).1
    (List.nodup_cons.mp second.distinct).1

variable [DecidableEq Node]

theorem filter_ne_middle (distinct : (before ++ node :: after).Nodup) :
    (before ++ node :: after).filter (· ≠ node) = before ++ after := by
  obtain ⟨_, later, apart⟩ := List.nodup_append.mp distinct
  have front : before.filter (· ≠ node) = before :=
    List.filter_eq_self.mpr fun other inside => by simpa using apart other inside node (by simp)
  have back : after.filter (· ≠ node) = after :=
    List.filter_eq_self.mpr fun other inside => by
      simpa using fun same : other = node => (List.nodup_cons.mp later).1 (same ▸ inside)
  rw [List.filter_append, List.filter_cons_of_neg (by simp), front, back]

theorem holds_initListHead (links : Links Node) (head : Node) :
    Holds (links.initListHead head) head [] where
  chain := by simp [Chain, Links.initListHead, Links.setNext, Links.setPrev]
  distinct := by simp

theorem Holds.listPushTail (holds : Holds links head nodes) (fresh : node ∉ head :: nodes) :
    Holds (links.listPushTail node head) head (nodes ++ [node]) := by
  have tail := holds.chain.prev_last
  obtain ⟨apart, others⟩ : node ≠ head ∧ node ∉ nodes := by simpa using fresh
  have headApart : head ∉ nodes := (List.nodup_cons.mp holds.distinct).1
  have tailApart : node ≠ links.prev head := fun same => fresh (same ▸ tail)
  constructor
  · refine chain_append.mpr ⟨holds.chain.redirect holds.distinct ?_ ?_ ?_ ?_, ?_, ?_⟩
    · intro other member notTail
      have notNode : other ≠ node := fun same => fresh (same ▸ member)
      simp [Links.listPushTail, Links.listPush_next, notTail, notNode]
    · intro other member
      have notNode : other ≠ node := fun same => others (same ▸ member)
      have notHead : other ≠ head := fun same => headApart (same ▸ member)
      simp [Links.listPushTail, Links.listPush_prev, notNode, notHead]
    · simp [Links.listPushTail, Links.listPush_next]
    · simp [Links.listPushTail, Links.listPush_prev]
    · simp [Links.listPushTail, Links.listPush_next, tailApart]
    · simp [Links.listPushTail, Links.listPush_prev, apart.symm]
  · simp only [List.nodup_cons, List.mem_append, List.nodup_append, List.mem_singleton]
    refine ⟨by tauto, (List.nodup_cons.mp holds.distinct).2, by simp, ?_⟩
    rintro other member _ rfl same
    exact others (same ▸ member)

theorem Holds.listDelInit (holds : Holds links head (before ++ node :: after)) :
    Holds (links.listDelInit node) head (before ++ after) := by
  obtain ⟨front, back⟩ := chain_append.mp holds.chain
  have pred : links.prev node ∈ head :: before := front.prev_last
  have succ : links.next node = after.headD head := holds.next_eq
  have moved : (node :: (head :: before ++ after)).Nodup :=
    List.perm_middle.nodup_iff.mp holds.distinct
  obtain ⟨outside, distinct⟩ := List.nodup_cons.mp moved
  obtain ⟨frontDistinct, backDistinct, apart⟩ := List.nodup_append.mp distinct
  have notNode : ∀ other ∈ head :: before ++ after, other ≠ node :=
    fun other member same => outside (same ▸ member)
  have predNode : links.prev node ≠ node := notNode _ (List.mem_append_left _ pred)
  have succNode : links.next node ≠ node := by
    rw [succ]
    refine notNode _ ?_
    cases after <;> simp
  have succBefore : links.next node ∉ before := by
    rw [succ]
    cases after with
    | nil => exact (List.nodup_cons.mp frontDistinct).1
    | cons other rest => exact fun member => apart _ (.tail _ member) _ List.mem_cons_self rfl
  have joined : Chain (links.listDelInit node) head before (links.next node) := by
    refine front.redirect frontDistinct ?_ ?_ ?_ ?_
    · intro other member notPred
      simp [Links.listDelInit_next, notPred, notNode other (List.mem_append_left _ member)]
    · intro other member
      have notSucc : other ≠ links.next node := fun same => succBefore (same ▸ member)
      simp [Links.listDelInit_prev, notSucc, notNode other (List.mem_append_left _ (.tail _ member))]
    · simp [Links.listDelInit_next, predNode]
    · simp [Links.listDelInit_prev, succNode]
  refine ⟨?_, distinct⟩
  cases after with
  | nil =>
      rw [show links.next node = head from succ] at joined
      rw [List.append_nil]
      exact joined
  | cons other rest =>
      rw [show links.next node = other from succ] at joined
      refine chain_append.mpr ⟨joined, back.2.2.congr ?_ ?_⟩
      · intro later member
        have notPred : later ≠ links.prev node := (apart _ pred _ member).symm
        simp [Links.listDelInit_next, notPred, notNode later (List.mem_append_right _ member)]
      · intro later member
        obtain ⟨notSucc, present⟩ : later ≠ other ∧ later ∈ head :: before ++ other :: rest := by
          rcases List.mem_append.mp member with inside | last
          · exact ⟨fun same => (List.nodup_cons.mp backDistinct).1 (same ▸ inside),
              List.mem_append_right _ (.tail _ inside)⟩
          · rw [List.mem_singleton.mp last]
            exact ⟨apart _ List.mem_cons_self _ List.mem_cons_self, List.mem_cons_self⟩
        rw [← show links.next node = other from succ] at notSucc
        simp [Links.listDelInit_prev, notSucc, notNode later present]

/-- A list is not touched by a removal from another one. -/
theorem Holds.listDelInit_other {other : Node} {others : List Node}
    (holds : Holds links head nodes) (second : Holds links other others)
    (member : node ∈ others) (apart : ∀ node ∈ head :: nodes, node ∉ other :: others) :
    Holds (links.listDelInit node) head nodes := by
  have inside : node ∈ other :: others := .tail _ member
  refine holds.congr (fun here present => ?_) fun here present => ?_
  · have notNode : here ≠ node := fun same => apart here present (same ▸ inside)
    have notPred : here ≠ links.prev node := fun same =>
      apart here present (same ▸ second.prev_mem inside)
    simp [Links.listDelInit_next, notNode, notPred]
  · have notNode : here ≠ node := fun same => apart here present (same ▸ inside)
    have notSucc : here ≠ links.next node := fun same =>
      apart here present (same ▸ second.next_mem inside)
    simp [Links.listDelInit_prev, notNode, notSucc]

theorem Holds.listPushTail_other {other : Node} {others : List Node}
    (holds : Holds links head nodes) (second : Holds links other others)
    (fresh : node ∉ head :: nodes) (apart : ∀ node ∈ head :: nodes, node ∉ other :: others) :
    Holds (links.listPushTail node other) head nodes := by
  refine holds.congr (fun here present => ?_) fun here present => ?_
  · have notNode : here ≠ node := fun same => fresh (same ▸ present)
    have notPred : here ≠ links.prev other := fun same =>
      apart here present (same ▸ second.prev_mem List.mem_cons_self)
    simp [Links.listPushTail, Links.listPush_next, notNode, notPred]
  · have notNode : here ≠ node := fun same => fresh (same ▸ present)
    have notHead : here ≠ other := fun same => apart here present (by simp [same])
    simp [Links.listPushTail, Links.listPush_prev, notNode, notHead]

end MpNet.Library
