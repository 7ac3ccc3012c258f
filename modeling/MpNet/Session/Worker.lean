import Mathlib.Data.List.AList
import MpNet.Net.FdTable

/-!
# The worker's session table

The blocks that pass between the parent and a worker, the table `fds`, and the
functions of the worker that read blocks or push them. The queues are FIFO lists.
Callbacks of the plugin are events of a log; what a callback sends or closes is a
step of its own.
-/

set_option autoImplicit false

namespace MpNet.Session

open Library Net

inductive BlockType where
  | dataBlock
  | finBlock
  | openBlock
  | closeBlock
  deriving DecidableEq, Repr

structure Block where
  id : UInt32
  fd : Int
  type : BlockType
  data : List UInt8
  /-- History: which registration of `do_add_conn` made the connection it is about. -/
  origin : Nat
  deriving DecidableEq

/-- `fdsession_t`. -/
structure FdSess where
  fd : Int
  id : UInt32
  remotePort : UInt16
  remoteIp : UInt32
  /-- History: the origin of the OPEN_BLOCK that created the session. -/
  origin : Nat
  deriving DecidableEq

/-- What the worker does with blocks and sessions. -/
inductive Event where
  | opened (session : FdSess)
  | rejected (mb : Block)
  -- `dll.proc_pkg_from_client`
  | process (session : FdSess) (mb : Block)
  -- `dll.on_client_conn_closed`, with the session it is about
  | closed (fd : Int) (session : Option FdSess)
  deriving DecidableEq

structure Worker where
  recvq : List Block
  sendq : List Block
  cn : AList fun _ : Int => FdSess
  count : Int
  log : List Event

/-- After `handle_init`. -/
def Worker.init : Worker := ⟨[], [], ∅, 0, []⟩

/-! ## `struct remote_info`, packed -/

def sizeofRemoteInfo : Nat := 10

def remoteInfoBytes (sk : RemoteInfo) : List UInt8 :=
  halfBytes sk.remotePort ++ (wordBytes sk.remoteIp ++ wordBytes sk.lastTm)

/-- `*(uint16_t*)mb->data`. -/
def remotePortAt (data : List UInt8) : UInt16 := (Memory.ofBytes data).readHalf 0

/-- `*(uint32_t*)&mb->data[2]`. -/
def remoteIpAt (data : List UInt8) : UInt32 := (Memory.ofBytes data).readWord 2

theorem remoteInfoBytes_length (sk : RemoteInfo) :
    (remoteInfoBytes sk).length = sizeofRemoteInfo := rfl

/-- What the worker reads from the payload is what the parent stored. -/
theorem remoteInfo_read (sk : RemoteInfo) :
    remotePortAt (remoteInfoBytes sk) = sk.remotePort ∧
      remoteIpAt (remoteInfoBytes sk) = sk.remoteIp := by
  obtain ⟨port, rest⟩ := Memory.holds_append.mp (Memory.holds_ofBytes (remoteInfoBytes sk))
  obtain ⟨ip, _⟩ := Memory.holds_append.mp rest
  exact ⟨port.readHalf, ip.readWord⟩

namespace Worker

def getFdsess (w : Worker) (fd : Int) : Option FdSess := w.cn.lookup fd

/-- `shmq_push` to `recvq`, which the queue may refuse. -/
def pushRecvq (w : Worker) (mb : Block) (accepted : Bool) : Worker :=
  { w with recvq := if accepted then w.recvq ++ [mb] else w.recvq }

/-- `shmq_push` to `sendq`, which the queue may refuse. -/
def pushSendq (w : Worker) (mb : Block) (accepted : Bool) : Worker :=
  { w with sendq := if accepted then w.sendq ++ [mb] else w.sendq }

def addFdsess (w : Worker) (session : FdSess) : Worker :=
  { w with
    cn := w.cn.insert session.fd session
    count := w.count + 1
    log := w.log ++ [.opened session] }

def removeFdsess (w : Worker) (fd : Int) : Worker :=
  { w with cn := w.cn.erase fd, count := w.count - 1 }

/-- The session that an OPEN_BLOCK describes. -/
def sessionOf (mb : Block) : FdSess where
  fd := mb.fd
  id := mb.id
  remotePort := remotePortAt mb.data
  remoteIp := remoteIpAt mb.data
  origin := mb.origin

def handleOpen (w : Worker) (mb : Block) : Worker × Int :=
  if (w.getFdsess mb.fd).isSome ∨ mb.data.length ≠ sizeofRemoteInfo then (w, -1)
  else (w.addFdsess (sessionOf mb), 0)

/-- A missing session is only logged as an error. The session is removed after the callback,
which calls nothing here; what it may call is in `MpNet.Session.Callbacks`. -/
def handleClose (w : Worker) (fd : Int) : Worker :=
  removeFdsess { w with log := w.log ++ [.closed fd (w.getFdsess fd)] } fd

def handleProcess (w : Worker) (mb : Block) : Worker :=
  match w.getFdsess mb.fd with
  | some session => { w with log := w.log ++ [.process session mb] }
  | none => w

/-- One block of the loop in `handle_recv_queue`; `accepted` is for the FIN_BLOCK that
answers a rejected OPEN_BLOCK. -/
def handleRecvQueue (w : Worker) (accepted : Bool) : Worker :=
  match w.recvq with
  | [] => w
  | mb :: rest =>
      let w := { w with recvq := rest }
      match mb.type with
      | .dataBlock => if mb.data ≠ [] then w.handleProcess mb else w
      | .openBlock =>
          match w.handleOpen mb with
          | (w, -1) =>
              pushSendq { w with log := w.log ++ [.rejected mb] }
                { mb with type := .finBlock, data := [] } accepted
          | (w, _) => w
      | .closeBlock => w.handleClose mb.fd
      | .finBlock => w

/-- One block of `send_pkg_to_client`, called with the session of `fd`. -/
def sendPkgToClient (w : Worker) (fd : Int) (data : List UInt8) (accepted : Bool) : Worker :=
  match w.getFdsess fd with
  | some session =>
      w.pushSendq ⟨session.id, session.fd, .dataBlock, data, session.origin⟩ accepted
  | none => w

def closeClientConn (w : Worker) (fd : Int) (accepted : Bool) : Worker :=
  match w.getFdsess fd with
  | some session =>
      (w.handleClose fd).pushSendq ⟨session.id, fd, .finBlock, [], session.origin⟩ accepted
  | none => w

/-! ## What the functions do -/

variable {w : Worker}

theorem mem_pushRecvq {mb other : Block} {accepted : Bool}
    (member : other ∈ (w.pushRecvq mb accepted).recvq) : other ∈ w.recvq ∨ other = mb := by
  cases accepted with
  | false => exact .inl member
  | true => exact (List.mem_append.mp member).imp_right List.mem_singleton.mp

theorem mem_pushSendq {mb other : Block} {accepted : Bool}
    (member : other ∈ (w.pushSendq mb accepted).sendq) : other ∈ w.sendq ∨ other = mb := by
  cases accepted with
  | false => exact .inl member
  | true => exact (List.mem_append.mp member).imp_right List.mem_singleton.mp

theorem mem_pushSendq_of_mem {mb other : Block} (accepted : Bool) (member : other ∈ w.sendq) :
    other ∈ (w.pushSendq mb accepted).sendq := by
  cases accepted with
  | false => exact member
  | true => exact List.mem_append_left _ member

/-- What one iteration of `handle_recv_queue` can do. -/
inductive Received (accepted : Bool) (w : Worker) : Worker → Prop
  | idle (empty : w.recvq = []) : Received accepted w w
  | ignored (mb : Block) (rest : List Block) (first : w.recvq = mb :: rest)
      (dull : mb.type = .finBlock ∨
        mb.type = .dataBlock ∧ (mb.data = [] ∨ w.getFdsess mb.fd = none)) :
      Received accepted w { w with recvq := rest }
  | process (mb : Block) (rest : List Block) (session : FdSess) (first : w.recvq = mb :: rest)
      (type : mb.type = .dataBlock) (found : w.getFdsess mb.fd = some session) :
      Received accepted w { w with recvq := rest, log := w.log ++ [.process session mb] }
  | opened (mb : Block) (rest : List Block) (first : w.recvq = mb :: rest)
      (type : mb.type = .openBlock) (absent : w.getFdsess mb.fd = none)
      (length : mb.data.length = sizeofRemoteInfo) :
      Received accepted w ({ w with recvq := rest }.addFdsess (sessionOf mb))
  | rejected (mb : Block) (rest : List Block) (first : w.recvq = mb :: rest)
      (type : mb.type = .openBlock)
      (refused : (w.getFdsess mb.fd).isSome ∨ mb.data.length ≠ sizeofRemoteInfo) :
      Received accepted w
        (pushSendq { w with recvq := rest, log := w.log ++ [.rejected mb] }
          { mb with type := .finBlock, data := [] } accepted)
  | closed (mb : Block) (rest : List Block) (first : w.recvq = mb :: rest)
      (type : mb.type = .closeBlock) :
      Received accepted w ({ w with recvq := rest }.handleClose mb.fd)

theorem handleRecvQueue_received (w : Worker) (accepted : Bool) :
    Received accepted w (w.handleRecvQueue accepted) := by
  unfold handleRecvQueue
  cases queue : w.recvq with
  | nil => exact .idle queue
  | cons mb rest =>
      simp only
      split
      · rename_i type
        split
        · unfold handleProcess
          split
          · rename_i session found
            exact .process mb rest session queue type found
          · rename_i absent
            exact .ignored mb rest queue (.inr ⟨type, .inr absent⟩)
        · rename_i empty
          exact .ignored mb rest queue (.inr ⟨type, .inl (by simpa using empty)⟩)
      · rename_i type
        unfold handleOpen
        by_cases refused : (w.getFdsess mb.fd).isSome ∨ mb.data.length ≠ sizeofRemoteInfo
        · have refused' : (getFdsess { w with recvq := rest } mb.fd).isSome ∨
              mb.data.length ≠ sizeofRemoteInfo := refused
          simp only [if_pos refused']
          exact .rejected mb rest queue type refused
        · have accepted' : ¬ ((getFdsess { w with recvq := rest } mb.fd).isSome ∨
              mb.data.length ≠ sizeofRemoteInfo) := refused
          simp only [if_neg accepted']
          rw [not_or, Bool.not_eq_true, Option.isSome_eq_false_iff, Option.isNone_iff_eq_none,
            not_not] at refused
          exact .opened mb rest queue type refused.1 refused.2
      · rename_i type
        exact .closed mb rest queue type
      · rename_i type
        exact .ignored mb rest queue (.inl type)

@[simp] theorem getFdsess_popRecvq (rest : List Block) (fd : Int) :
    getFdsess { w with recvq := rest } fd = w.getFdsess fd := rfl

theorem getFdsess_addFdsess (session : FdSess) (fd : Int) :
    (w.addFdsess session).getFdsess fd =
      if fd = session.fd then some session else w.getFdsess fd := by
  unfold addFdsess getFdsess
  split
  · rename_i same
    rw [same]
    exact AList.lookup_insert _
  · rename_i apart
    exact AList.lookup_insert_ne apart

theorem getFdsess_handleClose (closed fd : Int) :
    (w.handleClose closed).getFdsess fd = if fd = closed then none else w.getFdsess fd := by
  unfold handleClose removeFdsess getFdsess
  split
  · rename_i same
    rw [same]
    exact AList.lookup_erase ..
  · rename_i apart
    exact AList.lookup_erase_ne apart

end Worker

end MpNet.Session
