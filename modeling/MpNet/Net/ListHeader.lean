import Mathlib.Logic.Function.Iterate
import MpNet.Library.IntrusiveList

/-!
# The list header

The operations of `List.h` that the queues do not use, and the loop over a list whose body
may unlink the current node.
-/

set_option autoImplicit false

namespace MpNet.Net

open Library

variable {Node : Type*} [DecidableEq Node]

def listPushFront (links : Links Node) (newNode head : Node) : Links Node :=
  links.listPush newNode (links.prev head) head

def listDelNode (null : Node) (links : Links Node) (node : Node) : Links Node :=
  ((links.listDel (links.prev node) (links.next node)).setNext node null).setPrev node null

def listEmpty (links : Links Node) (head : Node) : Bool :=
  links.next head = head

/-- The variables of `list_for_each_safe`, the state that its body works on, and the
history of the nodes that had their turn. -/
structure Walk (Node State : Type*) where
  pos : Node
  n : Node
  state : State
  visited : List Node

namespace Walk

variable {State : Type*} (links : State → Links Node) (body : Node → State → State)

def start (head : Node) (state : State) : Walk Node State where
  pos := (links state).next head
  n := (links state).next ((links state).next head)
  state := state
  visited := []

/-- The body, then `pos = n, n = pos->next`. -/
def round (walk : Walk Node State) : Walk Node State where
  pos := walk.n
  n := (links (body walk.pos walk.state)).next walk.n
  state := body walk.pos walk.state
  visited := walk.visited ++ [walk.pos]

end Walk

def listForEachSafe {State : Type*} (links : State → Links Node) (body : Node → State → State)
    (head : Node) : Nat → Walk Node State → Option (Walk Node State)
  | 0, _ => none
  | fuel + 1, walk =>
      if walk.pos = head then some walk
      else listForEachSafe links body head fuel (walk.round links body)

/-- In every round the body leaves the list as it is or without the current node. -/
def UnlinksCurrent {State : Type*} (links : State → Links Node) (body : Node → State → State)
    (head : Node) (walk : Walk Node State) : Prop :=
  ∀ rounds, let reached := (Walk.round links body)^[rounds] walk
    ∀ before after, Holds (links reached.state) head (before ++ reached.pos :: after) →
      Holds (links (body reached.pos reached.state)) head (before ++ reached.pos :: after) ∨
        Holds (links (body reached.pos reached.state)) head (before ++ after)

end MpNet.Net
