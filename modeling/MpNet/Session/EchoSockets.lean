import MpNet.Net.Output
import MpNet.Net.ReceiveProperties
import MpNet.Session.Echo

/-!
# The echo server on its sockets

The parent reads and writes the connections itself: `net_recv` hands on what `recv` returns,
and `net_send` and `do_write_conn` pass the answers to `send`. What the kernel does and
which pushes are refused is part of the action.
-/

set_option autoImplicit false

namespace MpNet.Session

open Library Net

structure EchoConfig where
  sizes : Sizes
  /-- The bytes that a block has room for. -/
  room : Nat
  /-- `send_buf_limit_size`. -/
  limit : UInt32

/-- `get_pkg_len` of the plugin: whatever has come is a packet. -/
def getPkgLen (pkg : List UInt8) : Int := pkg.length

/-- `net_recv` in the parent, with the packets that it has pushed. -/
def toWorker (accepted : Bool) : Receiver (List (List UInt8)) where
  getPkgLen := getPkgLen
  deliver pushed packet := (pushed ++ [packet], if accepted then .taken else .refused)

structure Sockets where
  server : State
  /-- What the table does not hold of a connection, which is or was the last one with its
  descriptor. -/
  side : Int → Output.Side
  /-- History: what `recv` returned for that connection. -/
  received : Int → List UInt8
  /-- History: the steps of the server. -/
  flow : List Action
  /-- An assertion or an unsupported protocol has ended the parent. -/
  ended : Bool

inductive SocketAction where
  | register (fd : Int) (type : FdType) (worker : Option Nat)
  | accept (fd newfd : Int) (peer : UInt16 × UInt32) (now : UInt32) (accepted : Bool)
  /-- A hang-up or the timeout. -/
  | drop (fd : Int) (closeAccepted : Bool)
  /-- `net_recv`, after an event or from `iterate_etin_queue`. -/
  | read (fd : Int) (result : RecvResult) (now : UInt32) (accepted closeAccepted : Bool)
  /-- `handle_send_queue` pops one block of a worker. -/
  | output (worker : Nat) (kernel : Output.Kernel) (closeAccepted : Bool)
  /-- `EPOLLOUT`. -/
  | pollout (fd : Int) (results : List Output.SendResult) (now : UInt32) (closeAccepted : Bool)
  /-- `iterate_close_queue` takes the first connection. -/
  | closeQueue (results : List Output.SendResult) (now : UInt32)
  /-- One round of `handle_recv_queue`. -/
  | round (worker : Nat) (finAccepted : Bool) (accepted : Nat) (closeAccepted : Bool)

namespace Sockets

def init : Sockets := ⟨Session.init, fun _ => ⟨false, [], [], false⟩, fun _ => [], [], false⟩

def conn (s : Sockets) (fd : Int) : Output.Conn :=
  let slot := s.server.epi.fds fd
  let side := s.side fd
  ⟨slot.cb, slot.sk, side.pollout, side.passed, side.accepted, side.failed⟩

def setSide (s : Sockets) (fd : Int) (c : Output.Conn) : Sockets :=
  { s with side := Function.update s.side fd ⟨c.pollout, c.passed, c.accepted, c.failed⟩ }

def hear (s : Sockets) (fd : Int) (chunk : List UInt8) : Sockets :=
  { s with received := Function.update s.received fd (s.received fd ++ chunk) }

/-- A step of the server. A descriptor that is registered anew starts a new history. -/
def act (room : Nat) (s : Sockets) (action : EchoAction) : Sockets :=
  let server := echoStep room s.server action
  { s with
    server := server
    side := fun fd => if server.gen fd = s.server.gen fd then s.side fd else ⟨false, [], [], false⟩
    received := fun fd => if server.gen fd = s.server.gen fd then s.received fd else []
    flow := s.flow ++ echoParts room s.server action }

def parent (room : Nat) (s : Sockets) (action : Action) : Sockets := s.act room (.parent action)

section Functions

variable (c : EchoConfig) (s : Sockets)

/-- `net_recv`, and the `do_del_conn` that follows where it fails. -/
def read (fd : Int) (result : RecvResult) (now : UInt32) (accepted closeAccepted : Bool) :
    Sockets :=
  let (epi, packets, outcome) := netRecv c.sizes (toWorker accepted) s.server.epi fd result now []
  let s := s.hear fd result.chunk
  let s := if accepted then packets.foldl (fun s data => s.parent c.room (.packet fd data true true)) s
    else s
  match outcome with
  | .ret cnt =>
      if cnt = -1 then s.parent c.room (.drop fd closeAccepted)
      else s.parent c.room (.transfer fd (epi.fds fd).cb (epi.fds fd).sk.lastTm)
  | .exited => { s with ended := true }

/-- `shmq_pop` in `handle_send_queue`, and `schedule_output`. -/
def output (worker : Nat) (kernel : Output.Kernel) (closeAccepted : Bool) : Sockets :=
  match (s.server.worker worker).sendq with
  | [] => s
  | mb :: _ =>
      if s.server.Passes mb ∧ mb.type ≠ .finBlock then
        let (conn, verdict) := (s.conn mb.fd).netSend true c.limit mb.data kernel
        let s := s.setSide mb.fd conn
        match verdict with
        | .kept _ => s.parent c.room (.output worker (.sent conn.cb conn.sk.lastTm))
        | .deleted => s.parent c.room (.output worker (.failed closeAccepted))
        | .aborted => { s with ended := true }
      else s.parent c.room (.output worker (.failed closeAccepted))

/-- The part of `net_loop` that handles `EPOLLOUT`. -/
def pollout (fd : Int) (results : List Output.SendResult) (now : UInt32) (closeAccepted : Bool) :
    Sockets :=
  let (conn, verdict) := (s.conn fd).handlePollout results now
  let s := s.setSide fd conn
  match verdict with
  | .kept _ => s.parent c.room (.transfer fd conn.cb conn.sk.lastTm)
  | .deleted => s.parent c.room (.drop fd closeAccepted)
  | .aborted => { s with ended := true }

/-- One round of `iterate_close_queue`, which ignores the result of `do_write_conn`. -/
def closeQueue (results : List Output.SendResult) (now : UInt32) : Sockets :=
  match s.server.epi.closeHead with
  | [] => s
  | fd :: _ =>
      if 0 < (s.conn fd).cb.sendlen then
        let (conn, verdict) := (s.conn fd).doWriteConn results now
        let s := s.setSide fd conn
        if verdict = .aborted then { s with ended := true } else s.parent c.room .closeQueue
      else s.parent c.room .closeQueue

end Functions

end Sockets

def socketStep (c : EchoConfig) (s : Sockets) (action : SocketAction) : Sockets :=
  if s.ended then s
  else
    match action with
    | .register fd type worker => s.parent c.room (.register fd type worker)
    | .accept fd newfd peer now accepted => s.parent c.room (.accept fd newfd peer now accepted)
    | .drop fd closeAccepted => s.parent c.room (.drop fd closeAccepted)
    | .read fd result now accepted closeAccepted =>
        let slot := s.server.epi.fds fd
        if slot.type = .remote ∧ result.Possible (c.sizes.max - slot.cb.recvlen) then
          s.read c fd result now accepted closeAccepted
        else s
    | .output worker kernel closeAccepted => s.output c worker kernel closeAccepted
    | .pollout fd results now closeAccepted =>
        if (s.server.epi.fds fd).type = .remote then s.pollout c fd results now closeAccepted else s
    | .closeQueue results now => s.closeQueue c results now
    | .round worker finAccepted accepted closeAccepted =>
        s.act c.room (.worker worker finAccepted accepted closeAccepted)

end MpNet.Session
