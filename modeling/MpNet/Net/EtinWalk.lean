import MpNet.Library.Run
import MpNet.Net.EventLoop
import MpNet.Net.Queues

/-!
# A walk over the etin queue in a worker

`iterate_etin_queue(max_len, 0)` on the links: `list_for_each_safe` has read the successor
of a node before its turn. The plugin runs in `proc_pkg_from_serv` and, under
`do_del_conn(fd, 0)`, in `on_fd_closed`; it calls `close_svr` and `net_send`, which deletes
the connection when a write fails. A `net_send` whose writes succeed leaves the queues
alone and is not a step.
-/

set_option autoImplicit false

namespace MpNet.Net.EtinWalk

open Library

/-- Where the walk stands; `n` is the saved successor. -/
inductive Pc where
  | test (pos n : Node)
  -- before `do_read_conn`
  | recv (fd : Int) (n : Node)
  -- in the loop of `net_recv` over the packets
  | packets (fd : Int) (n : Node)
  -- in the loop over `do_open_conn`
  | accept (fd : Int) (n : Node)
  -- the end of the body, once the calls of `do_del_conn` have returned
  | leave (n : Node)
  | done
  -- a null pointer has been followed
  | crashed
  deriving DecidableEq

structure State where
  queues : Queues
  pc : Pc
  /-- The calls of `do_del_conn(fd, 0)` that are in `on_fd_closed`, the innermost first. -/
  closing : List Int
  /-- History: the descriptors that had their turn. -/
  visited : List Int
  /-- History: how often the condition of the loop was tested. -/
  tests : Nat

inductive Read where
  -- `recvlen` is `page_size` already
  | skipped
  -- `recvlen` is `max` after the `recv`, or is not
  | filled
  | drained
  -- `safe_tcp_recv` returns 0
  | closed

inductive Action where
  | test
  | doReadConn (read : Read)
  | closeSvr (svrfd : Int)
  | netSend (fd : Int)
  | onFdClosed
  | received (failed : Bool)
  | accepted (newfd : Int) (peer : UInt16 × UInt32) (now : UInt32)
  | acceptFailed (error : EventLoop.AcceptError)
  -- `pos = n, n = pos->next`
  | advance

namespace State

def slot (s : State) (fd : Int) : FdInfo := s.queues.epi.fds fd

/-- `do_del_conn(fd, 0)` up to the call of `on_fd_closed`. -/
def doDelConn (s : State) (fd : Int) : State :=
  if (s.slot fd).type = .unused then s else { s with closing := fd :: s.closing }

def inPlugin (s : State) : Bool :=
  match s.pc with
  | .packets _ _ => true
  | _ => !s.closing.isEmpty

def saved (s : State) : Option Node :=
  match s.pc with
  | .recv _ n | .packets _ n | .accept _ n | .leave n => some n
  | .test _ _ | .done | .crashed => none

def test (s : State) : State :=
  match s.pc with
  | .test pos n =>
      let s := { s with tests := s.tests + 1 }
      match pos with
      | .etinHead => { s with pc := .done }
      | .list fd =>
          { s with
            pc := if (s.slot fd).type = .listen then .accept fd n else .recv fd n
            visited := s.visited ++ [fd] }
      | .null | .closeHead => { s with pc := .crashed }
  | _ => s

def doReadConn (s : State) (read : Read) : State :=
  match s.pc with
  | .recv fd n =>
      if (s.slot fd).type = .pipe then { s with pc := .leave n }
      else
        match read with
        | .skipped => { s with pc := .packets fd n }
        | .filled => { s with queues := s.queues.addToEtinQueue fd, pc := .packets fd n }
        | .drained => { s with queues := s.queues.delFromEtinQueue fd, pc := .packets fd n }
        | .closed => { s with pc := .leave n }.doDelConn fd
  | _ => s

/-- `do_del_conn(svrfd, 2)`. -/
def closeSvr (s : State) (svrfd : Int) : State :=
  if (s.slot svrfd).type = .unused then s else { s with queues := s.queues.release svrfd }

/-- `on_fd_closed` returns into `do_del_conn`. -/
def onFdClosed (s : State) : State :=
  match s.closing with
  | [] => s
  | fd :: rest => { s with queues := s.queues.release fd, closing := rest }

def received (s : State) (failed : Bool) : State :=
  match s.pc with
  | .packets fd n =>
      if s.closing = [] then
        if failed then { s with pc := .leave n }.doDelConn fd else { s with pc := .leave n }
      else s
  | _ => s

/-- `do_open_conn` in a worker, for a descriptor that `accept` returns. -/
def accepted (s : State) (newfd : Int) (peer : UInt16 × UInt32) (now : UInt32) : State :=
  match s.pc with
  | .accept fd n =>
      if (s.slot newfd).type = .unused ∧ 0 ≤ newfd then
        { s with
          queues := s.queues.addRemote fd newfd peer now
          pc := if newfd > 0 then .accept fd n else .leave n }
      else s
  | _ => s

def acceptFailed (s : State) (error : EventLoop.AcceptError) : State :=
  match s.pc with
  | .accept fd n =>
      match error with
      | .tooMany => { s with queues := s.queues.addToEtinQueue fd, pc := .leave n }
      | .again => { s with queues := s.queues.delFromEtinQueue fd, pc := .leave n }
      | .other => { s with pc := .leave n }
  | _ => s

def advance (s : State) : State :=
  match s.pc with
  | .leave n =>
      if s.closing = [] then { s with pc := .test n (s.queues.links.next n) } else s
  | _ => s

end State

def step (s : State) : Action → State
  | .test => s.test
  | .doReadConn read => s.doReadConn read
  | .closeSvr svrfd => if s.inPlugin then s.closeSvr svrfd else s
  | .netSend fd => if s.inPlugin then s.doDelConn fd else s
  | .onFdClosed => s.onFdClosed
  | .received failed => s.received failed
  | .accepted newfd peer now => s.accepted newfd peer now
  | .acceptFailed error => s.acceptFailed error
  | .advance => s.advance

/-- `pos = head->next, n = pos->next`. -/
def start (q : Queues) : State where
  queues := q
  pc := .test (q.links.next .etinHead) (q.links.next (q.links.next .etinHead))
  closing := []
  visited := []
  tests := 0

def State.deletes (s : State) : Action → Option Int
  | .closeSvr svrfd =>
      if s.inPlugin ∧ (s.slot svrfd).type ≠ .unused then some svrfd else none
  | .onFdClosed => s.closing.head?
  | _ => none

/-- The step does not delete the connection whose node is saved. -/
def Spares (s : State) (action : Action) : Prop :=
  ∀ fd ∈ s.deletes action, s.saved ≠ some (.list fd)

instance (s : State) (action : Action) : Decidable (Spares s action) :=
  inferInstanceAs (Decidable (∀ fd ∈ s.deletes action, _))

end MpNet.Net.EtinWalk
