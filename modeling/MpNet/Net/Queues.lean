import MpNet.Library.IntrusiveList
import MpNet.Net.FdTable

/-!
# The queues as linked nodes

A slot has one node, `list`, for both queues. The operations of the table on the `prev`
and `next` links, beside the sequences that the links stand for.
-/

set_option autoImplicit false

namespace MpNet.Net

open Library

inductive Node where
  | null
  | closeHead
  | etinHead
  | list (fd : Int)
  deriving DecidableEq

structure Queues where
  epi : Epi
  links : Links Node

namespace Queues

def init : Queues where
  epi := netInit
  links := ((Links.mk (fun _ => Node.null) fun _ => .null).initListHead .closeHead).initListHead
    .etinHead

def delFromCloseQueue (q : Queues) (fd : Int) : Queues :=
  if (q.epi.fds fd).needClose then
    ⟨q.epi.delFromCloseQueue fd, q.links.listDelInit (.list fd)⟩
  else q

def delFromEtinQueue (q : Queues) (fd : Int) : Queues :=
  if (q.epi.fds fd).needPollin then
    ⟨q.epi.delFromEtinQueue fd, q.links.listDelInit (.list fd)⟩
  else q

def addToEtinQueue (q : Queues) (fd : Int) : Queues :=
  if ¬ (q.epi.fds fd).needClose ∧ ¬ (q.epi.fds fd).needPollin then
    ⟨q.epi.addToEtinQueue fd, q.links.listPushTail (.list fd) .etinHead⟩
  else q

def addToCloseQueue (q : Queues) (fd : Int) : Queues :=
  let q := q.delFromEtinQueue fd
  if ¬ (q.epi.fds fd).needClose then
    { epi :=
        { q.epi.modify fd ({ · with needClose := true }) with
          closeHead := q.epi.closeHead ++ [fd] }
      links := q.links.listPushTail (.list fd) .closeHead }
  else q

/-- `do_add_conn`, whose `memset` includes the node. -/
def doAddConn (q : Queues) (fd : Int) (type : FdType) (peer : Option (UInt16 × UInt32))
    (bcElem : Option Nat) : Queues where
  epi := q.epi.doAddConn fd type peer bcElem
  links := (q.links.setPrev (.list fd) .null).setNext (.list fd) .null

/-- The registration in `do_open_conn`. -/
def addRemote (q : Queues) (fd newfd : Int) (peer : UInt16 × UInt32) (now : UInt32) : Queues :=
  let added := q.doAddConn newfd .remote (some peer) (q.epi.fds fd).bcElem
  { added with
    epi := added.epi.modify newfd fun slot => { slot with sk := { slot.sk with lastTm := now } } }

/-- The part of `do_del_conn` after the notification. -/
def release (q : Queues) (fd : Int) : Queues where
  epi := q.epi.release fd
  links := ((q.delFromEtinQueue fd).delFromCloseQueue fd).links

end Queues

/-- The flags say who is in the queues, which are apart and hold used slots. -/
structure Epi.Flagged (e : Epi) : Prop where
  closing : ∀ fd, fd ∈ e.closeHead ↔ (e.fds fd).needClose = true
  polling : ∀ fd, fd ∈ e.etinHead ↔ (e.fds fd).needPollin = true
  apart : ∀ fd, (e.fds fd).needClose = true → (e.fds fd).needPollin = false
  used : ∀ fd, (e.fds fd).needClose = true ∨ (e.fds fd).needPollin = true →
    (e.fds fd).type ≠ .unused

structure Queues.Agrees (q : Queues) : Prop where
  flagged : q.epi.Flagged
  closing : Holds q.links .closeHead (q.epi.closeHead.map .list)
  etin : Holds q.links .etinHead (q.epi.etinHead.map .list)

end MpNet.Net
