import MpNet.Library.Run
import MpNet.Net.Queues

/-!
# Sequences of queue operations

The operations of the two queues and of the table on registered descriptors, in any order.
The plugin may call them in `on_fd_closed`, before `do_del_conn(fd, 0)` goes on.
-/

set_option autoImplicit false

namespace MpNet.Net.QueueOperations

open Library

structure State where
  queues : Queues
  /-- The calls of `do_del_conn(fd, 0)` that are in `on_fd_closed`, the innermost first. -/
  closing : List Int

inductive Action where
  | addToEtinQueue (fd : Int)
  | delFromEtinQueue (fd : Int)
  | addToCloseQueue (fd : Int)
  | delFromCloseQueue (fd : Int)
  | doDelConn (fd : Int) (isParent : Nat)
  -- `on_fd_closed` returns into `do_del_conn`
  | onFdClosed
  | doAddConn (fd : Int) (type : FdType) (peer : Option (UInt16 × UInt32)) (bcElem : Option Nat)

def init : State := ⟨.init, []⟩

namespace State

def registered (s : State) (fd : Int) : Bool :=
  (s.queues.epi.fds fd).type ≠ .unused

def doDelConn (s : State) (fd : Int) (isParent : Nat) : State :=
  if s.registered fd then
    if isParent = 0 then { s with closing := fd :: s.closing }
    else { s with queues := s.queues.release fd }
  else s

def onFdClosed (s : State) : State :=
  match s.closing with
  | [] => s
  | fd :: rest => { queues := s.queues.release fd, closing := rest }

/-- `epoll_ctl` refuses a descriptor that is registered, and the process exits. -/
def doAddConn (s : State) (fd : Int) (type : FdType) (peer : Option (UInt16 × UInt32))
    (bcElem : Option Nat) : State :=
  if s.registered fd then s else { s with queues := s.queues.doAddConn fd type peer bcElem }

end State

def step (s : State) : Action → State
  | .addToEtinQueue fd =>
      if s.registered fd then { s with queues := s.queues.addToEtinQueue fd } else s
  | .delFromEtinQueue fd =>
      if s.registered fd then { s with queues := s.queues.delFromEtinQueue fd } else s
  | .addToCloseQueue fd =>
      if s.registered fd then { s with queues := s.queues.addToCloseQueue fd } else s
  | .delFromCloseQueue fd =>
      if s.registered fd then { s with queues := s.queues.delFromCloseQueue fd } else s
  | .doDelConn fd isParent => s.doDelConn fd isParent
  | .onFdClosed => s.onFdClosed
  | .doAddConn fd type peer bcElem => s.doAddConn fd type peer bcElem

/-- The descriptors whose nodes an operation is about. -/
def State.involved (s : State) : Action → List Int
  | .addToEtinQueue fd | .delFromEtinQueue fd | .addToCloseQueue fd | .delFromCloseQueue fd
  | .doDelConn fd _ | .doAddConn fd _ _ _ => [fd]
  | .onFdClosed => s.closing.take 1

/-- The descriptors whose nodes the `memset` of an operation clears. -/
def State.wiped (s : State) : Action → List Int
  | .doAddConn fd _ _ _ => if s.registered fd then [] else [fd]
  | _ => []

end MpNet.Net.QueueOperations
