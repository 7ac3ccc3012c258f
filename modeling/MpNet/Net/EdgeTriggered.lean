import MpNet.Library.EdgeTrigger
import MpNet.Library.Run
import MpNet.Net.EventLoop
import MpNet.Net.ReceiveProperties
import MpNet.Shmq.Block

/-!
# Edge-triggered reading in the parent

`net_loop (-1, page_size, 1)` with the sockets that it reads: the queue of the
descriptors that are read again without a report, the wait, and the batch. The
kernel, the peers and the workers choose the actions; an action that is not possible
leaves the state alone. Events without `EPOLLIN`, write errors, timeouts and crashed
workers show as deletions.
-/

set_option autoImplicit false

namespace MpNet.Net.EdgeTriggered

open Library

/-- Where `net_loop` stands. -/
inductive Phase where
  -- between two calls
  | idle
  -- `iterate_etin_queue`, before the rest of its walk
  | reread (rest : List Int)
  | waiting
  | sendQueue (evs : List Int)
  | events (evs : List Int)
  | exited
  deriving DecidableEq

/-- On to the next descriptor. -/
def Phase.next : Phase → Phase
  | .reread (_ :: rest) => .reread rest
  | .events (_ :: evs) => .events evs
  | phase => phase

structure State where
  epi : Epi
  sockets : Int → EdgeSocket UInt8
  phase : Phase

def init : State := ⟨netInit, fun _ => .register [] false, .idle⟩

/-- A connection that `accept` returns, with what it already holds. -/
structure Accepted where
  newfd : Int
  peer : UInt16 × UInt32
  now : UInt32
  /-- `shmq_push` took the OPEN_BLOCK. -/
  pushed : Bool
  unread : List UInt8
  fin : Bool

inductive Action (World : Type*) where
  -- the peer of a connection sends or closes
  | arrive (fd : Int) (bytes : List UInt8)
  | finish (fd : Int)
  -- `net_start`, and the pipe of a worker
  | register (fd : Int) (type : FdType) (worker : Nat)
  | delete (fd : Int)
  -- `schedule_output` of a FIN_BLOCK
  | finBlock (id : UInt32) (fd : Int)
  | epollWait (evs : List Int)
  | recv (read : NetRead World)
  -- the calls of `do_open_conn` until one does not return a positive number
  | accept (accepted : List Accepted) (error : EventLoop.AcceptError)
  -- the code goes on to its next part
  | advance

/-- The receiver of the parent: `shmq_push` refuses a block that is longer than a page, and
what else the queue refuses is left to the read. -/
def NetRead.pushed {World : Type*} (pageSize : Nat) (read : NetRead World) : NetRead World :=
  { read with
    receiver :=
      { read.receiver with
        deliver := fun world data =>
          if pageSize < data.length + Shmq.sizeofShmBlock then (world, .refused)
          else read.receiver.deliver world data } }

/-- What a `recv` with room for `room` bytes may report: bytes that are there, or the end
of the stream once all of them are read. -/
def Answers (socket : EdgeSocket UInt8) (room : Nat) : RecvResult → Prop
  | .bytes chunk => chunk ≠ [] ∧ chunk.length ≤ room ∧ chunk <+: socket.unread
  | .closed => socket.unread = [] ∧ socket.fin = true
  | .error => True

instance (socket : EdgeSocket UInt8) (room : Nat) :
    (result : RecvResult) → Decidable (Answers socket room result)
  | .bytes _ => inferInstanceAs (Decidable (_ ∧ _))
  | .closed => inferInstanceAs (Decidable (_ ∧ _))
  | .error => .isTrue trivial

namespace State

/-- `newfd` is a number that the kernel may hand out. -/
def Free (s : State) (newfd : Int) : Prop := (s.epi.fds newfd).type = .unused ∧ 0 ≤ newfd

instance (s : State) (newfd : Int) : Decidable (s.Free newfd) :=
  inferInstanceAs (Decidable (_ ∧ _))

def setSocket (s : State) (fd : Int) (socket : EdgeSocket UInt8) : State :=
  { s with sockets := Function.update s.sockets fd socket }

def doDelConn (s : State) (fd : Int) : State :=
  if (s.epi.fds fd).type = .unused then s else { s with epi := s.epi.release fd }

/-- The filters at the head of the loop over the events. -/
def Skips (s : State) (fd : Int) : Prop :=
  fd > s.epi.maxfd ∨ (s.epi.fds fd).sockfd ≠ fd ∨ (s.epi.fds fd).type = .unused

instance (s : State) (fd : Int) : Decidable (s.Skips fd) := inferInstanceAs (Decidable (_ ∨ _))

/-- The descriptor that is read now, in the queue or in the batch. -/
def current (s : State) : Option Int :=
  match s.phase with
  | .reread (fd :: _) => some fd
  | .events (fd :: _) => if s.Skips fd ∨ (s.epi.fds fd).type = .pipe then none else some fd
  | _ => none

def pop (s : State) : State := { s with phase := s.phase.next }

/-- The part of `do_open_conn` before the OPEN_BLOCK. -/
def addRemote (s : State) (fd : Int) (conn : Accepted) : State :=
  let e := s.epi.doAddConn conn.newfd .remote (some conn.peer) (s.epi.fds fd).bcElem
  let e := e.modify conn.newfd fun slot => { slot with sk := { slot.sk with lastTm := conn.now } }
  { s with epi := e }.setSocket conn.newfd (.register conn.unread conn.fin)

/-- `do_open_conn` when `accept` returns `newfd`. -/
def doOpenConn (s : State) (fd : Int) (conn : Accepted) : State :=
  if conn.pushed then s.addRemote fd conn else (s.addRemote fd conn).doDelConn conn.newfd

/-- `do_open_conn` when `accept` returns -1. -/
def acceptError (s : State) (fd : Int) : EventLoop.AcceptError → State
  | .tooMany => { s with epi := s.epi.addToEtinQueue fd }
  | .again => { s with epi := s.epi.delFromEtinQueue fd }
  | .other => s

/-- `while (do_open_conn(fd, is_parent) > 0)`. -/
def acceptAll (s : State) (fd : Int) (error : EventLoop.AcceptError) : List Accepted → State
  | [] => s.acceptError fd error
  | conn :: rest =>
      if s.Free conn.newfd then
        if conn.newfd > 0 then acceptAll (s.doOpenConn fd conn) fd error rest
        else s.doOpenConn fd conn
      else acceptAll s fd error rest

/-- `page_size - recvlen`. -/
def room (pageSize : Nat) (s : State) (fd : Int) : Nat :=
  pageSize - (s.epi.fds fd).cb.content.length

/-- `net_recv`, and `do_del_conn` when it returns -1. -/
def recv {World : Type*} (pageSize : Nat) (s : State) (fd : Int) (read : NetRead World) :
    State :=
  let s' := s.setSocket fd ((s.sockets fd).take read.result.chunk.length)
  match netRecv ⟨pageSize, pageSize⟩ read.receiver s.epi fd read.result read.now read.world with
  | (e, _, .ret ret) =>
      if ret = -1 then ({ s' with epi := e }.doDelConn fd).pop else { s' with epi := e }.pop
  | (e, _, .exited) => { s' with epi := e, phase := .exited }

/-- `iterate_close_queue`, whose last writes do not matter here. -/
def iterateCloseQueue (s : State) : State := run doDelConn s s.epi.closeHead

def advance (s : State) : State :=
  match s.phase with
  | .idle =>
      let s := s.iterateCloseQueue
      { s with phase := .reread s.epi.etinHead }
  | .reread [] => { s with phase := .waiting }
  | .sendQueue evs => { s with phase := .events evs }
  | .events [] => { s with phase := .idle }
  | .events (_ :: _) => if s.current = none then s.pop else s
  | _ => s

def scheduleFin (s : State) (id : UInt32) (fd : Int) : State :=
  if fd > s.epi.maxfd ∨ fd < 0 then s
  else if (s.epi.fds fd).type ≠ .remote ∨ id ≠ (s.epi.fds fd).id then s
  else { s with epi := s.epi.addToCloseQueue fd }

/-- A report is delivered with the batch, once. -/
def epollWait (s : State) (evs : List Int) : State :=
  { s with
    sockets := fun fd => if fd ∈ evs then (s.sockets fd).delivered else s.sockets fd
    phase := .sendQueue evs }

/-- A connection is in the batch only when it is reported. -/
def Reported (s : State) (evs : List Int) : Prop :=
  ∀ fd ∈ evs, (s.epi.fds fd).type = .remote → (s.sockets fd).report = true

instance (s : State) (evs : List Int) : Decidable (s.Reported evs) :=
  inferInstanceAs (Decidable (∀ fd ∈ evs, _))

/-- Whether a handler of an event, or of the send queue, may delete connections. -/
def handles (s : State) : Bool :=
  match s.phase with
  | .sendQueue _ | .events _ => true
  | _ => false

end State

/-- One step of the parent, its kernel or a peer. -/
def step {World : Type*} (pageSize : Nat) (s : State) : Action World → State
  | .arrive fd bytes =>
      if (s.epi.fds fd).type = .remote ∧ (s.sockets fd).fin = false ∧ bytes ≠ [] then
        s.setSocket fd ((s.sockets fd).arrive bytes)
      else s
  | .finish fd =>
      if (s.epi.fds fd).type = .remote ∧ (s.sockets fd).fin = false then
        s.setSocket fd (s.sockets fd).finish
      else s
  | .register fd type worker =>
      if (s.phase = .idle ∨ s.handles) ∧ s.Free fd ∧ (type = .listen ∨ type = .pipe) then
        { s with epi := s.epi.doAddConn fd type none (some worker) }
      else s
  | .delete fd => if s.handles then s.doDelConn fd else s
  | .finBlock id fd =>
      match s.phase with
      | .sendQueue _ => s.scheduleFin id fd
      | _ => s
  | .epollWait evs => if s.phase = .waiting ∧ s.Reported evs then s.epollWait evs else s
  | .recv read =>
      match s.current with
      | some fd =>
          if (s.epi.fds fd).type ≠ .listen ∧ Answers (s.sockets fd) (s.room pageSize fd) read.result
          then s.recv pageSize fd (NetRead.pushed pageSize read)
          else s
      | none => s
  | .accept accepted error =>
      match s.current with
      | some fd =>
          if (s.epi.fds fd).type = .listen then (s.acceptAll fd error accepted).pop else s
      | none => s
  | .advance => s.advance

end MpNet.Net.EdgeTriggered
