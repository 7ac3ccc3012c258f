import MpNet.Library.Run
import MpNet.Net.FdTable

/-!
# `do_del_conn` and the plugin it calls

In a worker `do_del_conn(fd, 0)` tests the type of the slot, lets `dll.on_fd_closed` run
and then tears the slot down. The calls that the plugin makes meanwhile are an argument;
`close_svr` is `do_del_conn(svrfd, 2)`, which calls no plugin.
-/

set_option autoImplicit false

namespace MpNet.Net.Reentrance

open Library

inductive Call where
  | closeSvr (svrfd : Int)
  -- `safe_tcp_connect` returns `newfd`
  | connectToSvr (newfd : Int) (peer : UInt16 × UInt32)
  deriving DecidableEq

structure State where
  epi : Epi
  /-- The open descriptors that are not in the table. -/
  others : Int → Bool
  closes : List Int
  /-- History: the registrations. -/
  added : Nat
  /-- History: the connections torn down. -/
  removed : Nat
  /-- History: the slot holds a connection that the plugin has registered. -/
  fresh : Int → Bool

namespace State

def start (e : Epi) (others : Int → Bool) : State := ⟨e, others, [], 0, 0, fun _ => false⟩

/-- A descriptor is free once `close` has been called on it. -/
def Opened (s : State) (fd : Int) : Prop := s.others fd = true ∨ (s.epi.fds fd).type ≠ .unused

instance (s : State) (fd : Int) : Decidable (s.Opened fd) := inferInstanceAs (Decidable (_ ∨ _))

/-- `do_del_conn` after the notification. -/
def tearDown (s : State) (fd : Int) : State :=
  { s with
    epi := s.epi.release fd
    others := Function.update s.others fd false
    closes := s.closes ++ [fd]
    removed := if (s.epi.fds fd).type = .unused then s.removed else s.removed + 1
    fresh := Function.update s.fresh fd false }

def call (s : State) : Call → State
  | .closeSvr svrfd => if (s.epi.fds svrfd).type = .unused then s else s.tearDown svrfd
  | .connectToSvr newfd peer =>
      -- the kernel gives out free numbers only
      if ¬ s.Opened newfd ∧ 0 ≤ newfd then
        { s with
          epi := s.epi.doAddConn newfd .remote (some peer) none
          added := s.added + 1
          fresh := Function.update s.fresh newfd true }
      else s

/-- `do_del_conn(fd, 0)`. -/
def doDelConn (s : State) (fd : Int) (callback : List Call) : State :=
  if (s.epi.fds fd).type = .unused then s else (run call s callback).tearDown fd

end State

end MpNet.Net.Reentrance
