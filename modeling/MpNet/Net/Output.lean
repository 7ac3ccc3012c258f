import MpNet.Library.Backlog
import MpNet.Library.CInt
import MpNet.Library.Run
import MpNet.Net.FdTable
import MpNet.Shmq.Block

/-!
# Writing to a connection

`safe_tcp_send_n`, `do_write_conn`, `net_send` and `schedule_output`, with the parts
of `net_loop` that lead to them. What the kernel does with each `send` is part of
the action. The lengths are `uint32_t`; `safe_tcp_send_n` converts them to `int` and
asserts that they are positive.
-/

set_option autoImplicit false

namespace MpNet.Net.Output

open Library

/-- What `send` reports. -/
inductive SendResult where
  -- the kernel takes `count` bytes, or all that are offered
  | sent (count : Nat)
  | eintr
  -- `EAGAIN` or `EWOULDBLOCK`
  | eagain
  | error
  deriving DecidableEq

/-- What `safe_tcp_send_n` did; a failed call may have sent some bytes before. -/
inductive Sent where
  | wrote (count : Nat)
  | failed (count : Nat)
  | aborted

/-- The loop of `safe_tcp_send_n`; the kernel blocks when the results run out. -/
def sendLoop (total : Nat) : Nat → List SendResult → Sent
  | sendBytes, [] => .wrote sendBytes
  | sendBytes, result :: rest =>
      if sendBytes < total then
        match result with
        | .sent count => sendLoop total (sendBytes + min count (total - sendBytes)) rest
        | .eintr => sendLoop total sendBytes rest
        | .eagain => .wrote sendBytes
        | .error => .failed sendBytes
      else .wrote sendBytes

/-- `assert(total > 0)` reads the length as an `int`. -/
def safeTcpSendN (total : Nat) (results : List SendResult) : Sent :=
  if 0 < total ∧ total < 2147483648 then sendLoop total 0 results else .aborted

/-- A registered connection: its slot of the table as far as writing goes, its event mask,
and its history since `do_add_conn`. -/
structure Conn where
  cb : ConnBuf
  sk : RemoteInfo
  /-- `EPOLLOUT` in the event mask last set. -/
  pollout : Bool
  /-- History: the data of the calls of `net_send`. -/
  passed : List UInt8
  /-- History: the bytes that the kernel took. -/
  accepted : List UInt8
  /-- History: a write has failed. -/
  failed : Bool

/-- What becomes of a connection. -/
inductive Verdict where
  | kept (ret : Int)
  -- `do_del_conn`
  | deleted
  -- an assertion ends the process
  | aborted
  deriving DecidableEq

/-- What the kernel does during a call of `net_send`: with the pending bytes, and with
the data when nothing is pending any more. -/
structure Kernel where
  flush : List SendResult
  direct : List SendResult
  now : UInt32

/-- `sendptr[0 .. sendlen)`. -/
def output (cb : ConnBuf) : List UInt8 :=
  match cb.sendptr with
  | some memory => memory.read 0 cb.sendlen
  | none => []

/-- Append to the pending buffer: `malloc` it, let it grow, or use the room it has. -/
def mergeBuffer (cb : ConnBuf) (rest : List UInt8) : ConnBuf :=
  let size := (cb.sendlen + rest.length) % 4294967296
  let cb := match cb.sendptr with
    | none => { cb with sendptr := some fun _ => 0, sndbufsz := rest.length }
    | some _ => if cb.sndbufsz < size then { cb with sndbufsz := size } else cb
  { cb with sendptr := cb.sendptr.map (·.write cb.sendlen rest), sendlen := size }

namespace Conn

/-- The kernel takes bytes. -/
def accept (c : Conn) (bytes : List UInt8) : Conn := { c with accepted := c.accepted ++ bytes }

def fail (c : Conn) : Conn := { c with failed := true }

/-- `mod_events (epi.epfd, fd, ..)`, with or without `EPOLLOUT`. -/
def modEvents (c : Conn) (pollout : Bool) : Conn := { c with pollout := pollout }

/-- `do_write_conn` after `count` bytes went out. -/
def wrote (c : Conn) (count : Nat) (now : UInt32) : Conn :=
  let rest := c.cb.sendlen - count
  if count = 0 then c
  else
    { c.accept ((output c.cb).take count) with
      cb := { c.cb with
        sendptr := if count < c.cb.sendlen then
            c.cb.sendptr.map fun memory => memory.write 0 (memory.read count rest)
          else c.cb.sendptr
        sendlen := rest }
      sk := { c.sk with lastTm := now } }

def doWriteConn (c : Conn) (results : List SendResult) (now : UInt32) : Conn × Verdict :=
  match safeTcpSendN c.cb.sendlen results with
  | .aborted => (c, .aborted)
  | .failed count => ((c.accept ((output c.cb).take count)).fail, .kept (-1))
  | .wrote count => (c.wrote count now, .kept count)

section Send

variable (isParent : Bool) (limit : UInt32)

/-- `net_send` from the merge on, when the kernel has taken the first `count` bytes of the
data directly; `limit` is `send_buf_limit_size`. -/
def merge (c : Conn) (prevStat : Bool) (data : List UInt8) (count : Nat) : Conn × Verdict :=
  let c := { c with passed := c.passed ++ data, accepted := c.accepted ++ data.take count }
  let c := if count < data.length then { c with cb := mergeBuffer c.cb (data.drop count) } else c
  if count < data.length ∧ isParent ∧ 0 < limit.toNat ∧ limit.toNat < c.cb.sendlen then
    (c, .kept (-1))
  else if 0 < c.cb.sendlen ∧ ¬ prevStat then (c.modEvents true, .kept 0)
  else if prevStat ∧ c.cb.sendlen = 0 then (c.modEvents false, .kept 0)
  else (c, .kept 0)

/-- `net_send` after the flush: what is not pending goes out directly. -/
def sendDirect (c : Conn) (prevStat : Bool) (data : List UInt8) (results : List SendResult) :
    Conn × Verdict :=
  if c.cb.sendlen = 0 then
    match safeTcpSendN data.length results with
    | .aborted => (c, .aborted)
    | .failed count => ((c.accept (data.take count)).fail, .deleted)
    | .wrote count => c.merge isParent limit prevStat data count
  else c.merge isParent limit prevStat data 0

def netSend (c : Conn) (data : List UInt8) (kernel : Kernel) : Conn × Verdict :=
  if 0 < c.cb.sendlen then
    match c.doWriteConn kernel.flush kernel.now with
    | (c, .aborted) => (c, .aborted)
    | (c, .deleted) => (c, .deleted)
    | (c, .kept ret) =>
        if ret = -1 then (c, .deleted) else c.sendDirect isParent limit true data kernel.direct
  else c.sendDirect isParent limit false data kernel.direct

end Send

/-- The part of `net_loop` that handles `EPOLLOUT`. -/
def handlePollout (c : Conn) (results : List SendResult) (now : UInt32) : Conn × Verdict :=
  if 0 < c.cb.sendlen then
    match c.doWriteConn results now with
    | (c, .aborted) => (c, .aborted)
    | (c, .deleted) => (c, .deleted)
    | (c, .kept ret) =>
        -- the `mod_events` that follows `do_del_conn` meets a closed descriptor
        if ret = -1 then (c, .deleted)
        else (if c.cb.sendlen = 0 then c.modEvents false else c, .kept 0)
  else (c.modEvents false, .kept 0)

end Conn

/-! ## All connections of a process -/

/-- What is not in the table. -/
structure Side where
  pollout : Bool
  passed : List UInt8
  accepted : List UInt8
  failed : Bool

structure State where
  epi : Epi
  sides : Int → Side
  /-- An assertion has ended the process. -/
  aborted : Bool

def init : State := ⟨netInit, fun _ => ⟨false, [], [], false⟩, false⟩

inductive Action where
  -- `do_open_conn` registers the connection
  | accept (fd : Int) (peer : UInt16 × UInt32) (bcElem : Option Nat)
  | block (message : Shmq.Message) (kernel : Kernel)
  | send (fd : Int) (data : List UInt8) (kernel : Kernel)
  | pollout (fd : Int) (results : List SendResult) (now : UInt32)
  -- `iterate_close_queue` calls `do_write_conn`
  | lastWrite (fd : Int) (results : List SendResult) (now : UInt32)
  -- `do_del_conn`, from any of its callers
  | delete (fd : Int)

namespace State

/-- A connection that the table holds. -/
def Live (s : State) (fd : Int) : Prop := (s.epi.fds fd).type = .remote

instance (s : State) (fd : Int) : Decidable (s.Live fd) := inferInstanceAs (Decidable (_ = _))

def conn (s : State) (fd : Int) : Conn :=
  let slot := s.epi.fds fd
  let side := s.sides fd
  ⟨slot.cb, slot.sk, side.pollout, side.passed, side.accepted, side.failed⟩

def setConn (s : State) (fd : Int) (c : Conn) : State :=
  { s with
    epi := s.epi.modify fd ({ · with cb := c.cb, sk := c.sk })
    sides := Function.update s.sides fd ⟨c.pollout, c.passed, c.accepted, c.failed⟩ }

/-- `do_add_conn` of an accepted connection. -/
def addConn (s : State) (fd : Int) (peer : UInt16 × UInt32) (bcElem : Option Nat) : State :=
  { s with
    epi := s.epi.doAddConn fd .remote (some peer) bcElem
    sides := Function.update s.sides fd ⟨false, [], [], false⟩ }

/-- `do_del_conn`; its notification of the worker or the plugin touches no buffer. -/
def doDelConn (s : State) (fd : Int) : State :=
  if (s.epi.fds fd).type = .unused then s else { s with epi := s.epi.release fd }

def settle (s : State) (fd : Int) : Conn × Verdict → State
  | (c, .kept _) => s.setConn fd c
  | (c, .deleted) => (s.setConn fd c).doDelConn fd
  | (c, .aborted) => { s.setConn fd c with aborted := true }

/-- A popped block names a live connection. -/
def Reaches (s : State) (message : Shmq.Message) (fd : Int) : Prop :=
  fd = i32 message.mb.fd.toNat ∧ fd ≤ s.epi.maxfd ∧ 0 ≤ fd ∧ s.Live fd ∧
    message.mb.id = (s.epi.fds fd).id

instance (s : State) (message : Shmq.Message) (fd : Int) : Decidable (s.Reaches message fd) :=
  inferInstanceAs (Decidable (_ ∧ _))

/-- `schedule_output`, which runs in the parent. -/
def scheduleOutput (limit : UInt32) (s : State) (message : Shmq.Message) (kernel : Kernel) :
    State :=
  let fd := i32 message.mb.fd.toNat
  if s.Reaches message fd then
    if message.mb.type = Shmq.finBlock then { s with epi := s.epi.addToCloseQueue fd }
    else s.settle fd ((s.conn fd).netSend true limit message.data kernel)
  else s

end State

def step (isParent : Bool) (limit : UInt32) (s : State) (action : Action) : State :=
  if s.aborted then s
  else
    match action with
    | .accept fd peer bcElem =>
        if (s.epi.fds fd).type = .unused then s.addConn fd peer bcElem else s
    | .block message kernel => if isParent then s.scheduleOutput limit message kernel else s
    | .send fd data kernel =>
        if s.Live fd then s.settle fd ((s.conn fd).netSend isParent limit data kernel) else s
    | .pollout fd results now =>
        if s.Live fd then s.settle fd ((s.conn fd).handlePollout results now) else s
    | .lastWrite fd results now =>
        if s.Live fd ∧ (s.epi.fds fd).needClose ∧ 0 < (s.conn fd).cb.sendlen then
          s.settle fd ((s.conn fd).doWriteConn results now)
        else s
    | .delete fd => s.doDelConn fd

end MpNet.Net.Output
