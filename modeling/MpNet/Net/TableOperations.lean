import MpNet.Library.Run
import MpNet.Net.EventLoop
import MpNet.Net.Output
import MpNet.Net.ReceiveProperties

/-!
# Operations on the descriptor table

The calls that register and delete connections, the calls that delete one when they fail,
and the walks over the two queues. What the kernel, the peers and the other process decide
is part of the action. The plugin does not touch the table in its callbacks, except that
`proc_pkg_from_serv` may close the connection that it is called for.
-/

set_option autoImplicit false

namespace MpNet.Net.TableOperations

open Library

/-- How `shmq_push` ends. -/
inductive Push where
  | taken
  | refused
  -- the process ends in it
  | exited
  deriving DecidableEq

structure State where
  epi : Epi
  /-- The process has ended in an `exit` or an assertion. -/
  exited : Bool

/-- What `accept` returns to `do_open_conn`. -/
inductive Accept where
  | newfd (newfd : Int) (peer : UInt16 × UInt32) (now : UInt32) (push : Push)
  | failed (error : EventLoop.AcceptError)

/-- What the rest of the system does while a connection is read. -/
structure Read (World : Type*) where
  receiver : Receiver World
  world : World
  result : RecvResult
  now : UInt32

structure Process where
  isParent : Bool
  /-- `page_size`, and the `max_len` of `net_loop`. -/
  sizes : Sizes
  /-- `send_buf_limit_size`. -/
  limit : UInt32

inductive Action (World : Type*) where
  | doAddConn (fd : Int) (type : FdType) (peer : Option (UInt16 × UInt32)) (bcElem : Option Nat)
  | doDelConn (fd : Int) (isParent : Nat) (push : Push)
  | netRecv (fd : Int) (read : Read World)
  | netSend (fd : Int) (data : List UInt8) (kernel : Output.Kernel) (push : Push)
  | doWriteConn (fd : Int) (results : List Output.SendResult) (now : UInt32)
  | doOpenConn (fd : Int) (accept : Accept)
  -- `schedule_output` of a FIN_BLOCK
  | addToCloseQueue (fd : Int)
  | iterateCloseQueue (writes : Int → List Output.SendResult × UInt32)
  | iterateEtinQueue (reads : Int → Read World) (accepts : Int → List Accept) (push : Int → Push)

def init : State := ⟨netInit, false⟩

namespace State

def used (s : State) (fd : Int) : Bool := (s.epi.fds fd).type ≠ .unused

def exit (s : State) : State := { s with exited := true }

/-- `newfd` is a number that the kernel may hand out. -/
def Free (s : State) (newfd : Int) : Prop := (s.epi.fds newfd).type = .unused ∧ 0 ≤ newfd

instance (s : State) (newfd : Int) : Decidable (s.Free newfd) :=
  inferInstanceAs (Decidable (_ ∧ _))

/-- `do_del_conn`; the CLOSE_BLOCK of the parent may end the process. -/
def doDelConn (s : State) (fd : Int) (isParent : Nat) (push : Push) : State :=
  if (s.epi.fds fd).type = .unused then s
  else if isParent = 1 ∧ push = .exited then s.exit
  else { s with epi := s.epi.release fd }

/-- The buffers of a connection; its history plays no role here. -/
def conn (s : State) (fd : Int) : Output.Conn :=
  ⟨(s.epi.fds fd).cb, (s.epi.fds fd).sk, false, [], [], false⟩

def setConn (s : State) (fd : Int) (c : Output.Conn) : State :=
  { s with epi := s.epi.modify fd fun slot => { slot with cb := c.cb, sk := c.sk } }

/-- How `net_send` or `do_write_conn` leaves the table. -/
def settle (s : State) (fd : Int) (isParent : Bool) (push : Push) :
    Output.Conn × Output.Verdict → State
  | (c, .kept _) => s.setConn fd c
  | (c, .deleted) => (s.setConn fd c).doDelConn fd isParent.toNat push
  | (c, .aborted) => (s.setConn fd c).exit

def netSend (process : Process) (s : State) (fd : Int) (data : List UInt8)
    (kernel : Output.Kernel) (push : Push) : State :=
  s.settle fd process.isParent push
    ((s.conn fd).netSend process.isParent process.limit data kernel)

def doWriteConn (s : State) (fd : Int) (results : List Output.SendResult) (now : UInt32) : State :=
  -- the caller deletes the connection when the write fails
  s.settle fd false .taken ((s.conn fd).doWriteConn results now)

/-- `net_recv`, and whether it returns -1. -/
def netRecv {World : Type*} (process : Process) (s : State) (fd : Int) (read : Read World) :
    State × Bool :=
  match Net.netRecv process.sizes read.receiver s.epi fd read.result read.now read.world with
  | (e, _, .ret cnt) => ({ s with epi := e }, cnt = -1)
  | (e, _, .exited) => ({ s with epi := e }.exit, false)

/-- `do_open_conn` and the number it returns. -/
def doOpenConn (process : Process) (s : State) (fd : Int) : Accept → State × Int
  | .newfd newfd peer now push =>
      if s.Free newfd then
        let added := s.epi.doAddConn newfd .remote (some peer) (s.epi.fds fd).bcElem
        let s := { s with
          epi := added.modify newfd fun slot =>
            { slot with sk := { slot.sk with lastTm := now } } }
        if process.isParent then
          match push with
          | .taken => (s, newfd)
          | .refused => (s.doDelConn newfd 2 push, newfd)
          | .exited => (s.exit, newfd)
        else (s, newfd)
      else (s, -1)
  | .failed .tooMany => ({ s with epi := s.epi.addToEtinQueue fd }, -1)
  | .failed .again => ({ s with epi := s.epi.delFromEtinQueue fd }, -1)
  | .failed .other => (s, -1)

/-- `while (do_open_conn(fd, is_parent) > 0)`. -/
def openAll (process : Process) (fd : Int) : List Accept → State → State
  | [], s => s
  | accept :: rest, s =>
      let (s, newfd) := s.doOpenConn process fd accept
      if s.exited then s
      else if newfd > 0 then openAll process fd rest s
      else s

end State

/-! ## The walks -/

/-- `pos->next`. -/
def next (queue : List Int) (pos : Int) : Option Int :=
  (queue.dropWhile (· ≠ pos)).tail.head?

/-- `list_for_each_safe` from `pos`, and where it stands after at most `rounds` rounds;
`none` is the head of the queue. -/
def forEachSafe (queue : Epi → List Int) (body : State → Int → State) :
    Nat → Option Int → State → State × Option Int
  | 0, pos, s => (s, pos)
  | _, none, s => (s, none)
  | rounds + 1, some pos, s =>
      if s.exited then (s, some pos)
      else
        let n := next (queue s.epi) pos
        forEachSafe queue body rounds n (body s pos)

/-- The body of the loop in `iterate_close_queue`. -/
def closeBody (process : Process) (writes : Int → List Output.SendResult × UInt32) (s : State)
    (fd : Int) : State :=
  let sockfd := (s.epi.fds fd).sockfd
  let written :=
    if 0 < (s.epi.fds fd).cb.sendlen then s.doWriteConn sockfd (writes fd).1 (writes fd).2 else s
  if written.exited then written
  else written.doDelConn sockfd (if process.isParent then 2 else 0) .taken

/-- The body of the loop in `iterate_etin_queue`. -/
def etinBody {World : Type*} (process : Process) (reads : Int → Read World)
    (accepts : Int → List Accept) (push : Int → Push) (s : State) (fd : Int) : State :=
  let sockfd := (s.epi.fds fd).sockfd
  if (s.epi.fds fd).type = .listen then s.openAll process sockfd (accepts fd)
  else
    match s.netRecv process sockfd (reads fd) with
    | (s, true) => s.doDelConn sockfd process.isParent.toNat (push fd)
    | (s, false) => s

/-- A whole walk; no queue has more rounds than nodes. -/
def walk (queue : Epi → List Int) (body : State → Int → State) (s : State) : State × Option Int :=
  forEachSafe queue body (queue s.epi).length (queue s.epi).head? s

def step {World : Type*} (process : Process) (s : State) (action : Action World) : State :=
  if s.exited then s
  else
    match action with
    | .doAddConn fd type peer bcElem =>
        if s.Free fd ∧ type ≠ .unused then { s with epi := s.epi.doAddConn fd type peer bcElem }
        else s
    | .doDelConn fd isParent push => s.doDelConn fd isParent push
    | .netRecv fd read => if s.used fd then (s.netRecv process fd read).1 else s
    | .netSend fd data kernel push => if s.used fd then s.netSend process fd data kernel push else s
    | .doWriteConn fd results now => if s.used fd then s.doWriteConn fd results now else s
    | .doOpenConn fd accept => if s.used fd then (s.doOpenConn process fd accept).1 else s
    | .addToCloseQueue fd =>
        if s.used fd then { s with epi := s.epi.addToCloseQueue fd } else s
    | .iterateCloseQueue writes => (walk (·.closeHead) (closeBody process writes) s).1
    | .iterateEtinQueue reads accepts push =>
        (walk (·.etinHead) (etinBody process reads accepts push) s).1

end MpNet.Net.TableOperations
