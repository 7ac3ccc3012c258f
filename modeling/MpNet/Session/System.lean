import MpNet.Library.Run
import MpNet.Session.Worker

/-!
# The parent and its workers

The parent's descriptor table beside any number of workers, each with its two
queues. One action is one step of the parent or of one worker, up to the next push
or pop; what the kernel, the plugin and the queues decide is part of the action. An
action that is not possible leaves the state alone.
-/

set_option autoImplicit false

namespace MpNet.Session

open Library Net

structure State where
  epi : Epi
  worker : Nat → Worker
  /-- History: the number of calls of `do_add_conn`. -/
  regs : Nat
  /-- History: the last registration of each descriptor. -/
  gen : Int → Nat

def init : State := ⟨netInit, fun _ => .init, 0, fun _ => 0⟩

/-- How `net_send` ends: with the buffer it leaves, or with `do_del_conn`. -/
inductive SendOutcome where
  | sent (cb : ConnBuf) (now : UInt32)
  | failed (closeAccepted : Bool)

inductive Action where
  /-- `do_add_conn` of a listening socket, a pipe or the like. -/
  | register (fd : Int) (type : FdType) (worker : Option Nat)
  /-- `do_open_conn`, when `accept` returns `newfd`. -/
  | accept (fd newfd : Int) (peer : UInt16 × UInt32) (now : UInt32) (accepted : Bool)
  /-- `net_recv` finds a packet. -/
  | packet (fd : Int) (data : List UInt8) (accepted closeAccepted : Bool)
  /-- A read or a write that changes the buffers only. -/
  | transfer (fd : Int) (cb : ConnBuf) (now : UInt32)
  /-- `do_del_conn(fd, 1)` after a hang-up, a read or write error or the timeout. -/
  | drop (fd : Int) (closeAccepted : Bool)
  /-- `handle_send_queue` pops one block of a worker. -/
  | output (worker : Nat) (outcome : SendOutcome)
  /-- `iterate_close_queue` takes the first connection. -/
  | closeQueue
  | recv (worker : Nat) (finAccepted : Bool)
  | send (worker : Nat) (fd : Int) (data : List UInt8) (accepted : Bool)
  | close (worker : Nat) (fd : Int) (finAccepted : Bool)

namespace State

def setWorker (s : State) (worker : Nat) (w : Worker) : State :=
  { s with worker := Function.update s.worker worker w }

@[simp] theorem setWorker_same (s : State) (worker : Nat) (w : Worker) :
    (s.setWorker worker w).worker worker = w := by simp [setWorker]

theorem setWorker_eq_self (s : State) (worker : Nat) :
    s.setWorker worker (s.worker worker) = s := by simp [setWorker]

theorem setWorker_other (s : State) {worker other : Nat} (w : Worker) (apart : other ≠ worker) :
    (s.setWorker worker w).worker other = s.worker other := by simp [setWorker, apart]

/-- `do_add_conn`. -/
def addConn (s : State) (fd : Int) (type : FdType) (peer : Option (UInt16 × UInt32))
    (bcElem : Option Nat) : State :=
  { s with
    epi := s.epi.doAddConn fd type peer bcElem
    regs := s.regs + 1
    gen := Function.update s.gen fd (s.regs + 1) }

def modify (s : State) (fd : Int) (change : FdInfo → FdInfo) : State :=
  { s with epi := s.epi.modify fd change }

/-- `do_del_conn(fd, 2)`. -/
def delConn (s : State) (fd : Int) : State := { s with epi := s.epi.release fd }

/-- `shmq_push` to the receive queue of the worker that serves `fd`. -/
def pushBlock (s : State) (fd : Int) (type : BlockType) (data : List UInt8) (accepted : Bool) :
    State :=
  match (s.epi.fds fd).bcElem with
  | some worker =>
      s.setWorker worker
        ((s.worker worker).pushRecvq ⟨(s.epi.fds fd).id, fd, type, data, s.gen fd⟩ accepted)
  | none => s

/-- `do_del_conn(fd, 1)`. -/
def dropConn (s : State) (fd : Int) (closeAccepted : Bool) : State :=
  if (s.epi.fds fd).type = .unused then s
  else (s.pushBlock fd .closeBlock [] closeAccepted).delConn fd

/-- `do_open_conn` up to the push. -/
def addRemote (s : State) (fd newfd : Int) (peer : UInt16 × UInt32) (now : UInt32) : State :=
  (s.addConn newfd .remote (some peer) (s.epi.fds fd).bcElem).modify newfd
    fun slot => { slot with sk := { slot.sk with lastTm := now } }

/-- `do_open_conn` with the descriptor that `accept` returned. -/
def openConn (s : State) (fd newfd : Int) (peer : UInt16 × UInt32) (now : UInt32)
    (accepted : Bool) : State :=
  let s := s.addRemote fd newfd peer now
  let s := s.pushBlock newfd .openBlock (remoteInfoBytes (s.epi.fds newfd).sk) accepted
  if accepted then s else s.delConn newfd

/-- `schedule_output`, after its filters. -/
def applyBlock (s : State) (mb : Block) (outcome : SendOutcome) : State :=
  if mb.type = .finBlock then { s with epi := s.epi.addToCloseQueue mb.fd }
  else
    match outcome with
    | .sent cb now =>
        s.modify mb.fd fun slot => { slot with cb := cb, sk := { slot.sk with lastTm := now } }
    | .failed closeAccepted => s.dropConn mb.fd closeAccepted

/-- The filters of `schedule_output`. -/
def Passes (s : State) (mb : Block) : Prop :=
  ¬ (mb.fd > s.epi.maxfd ∨ mb.fd < 0) ∧
    ¬ ((s.epi.fds mb.fd).type ≠ .remote ∨ mb.id ≠ (s.epi.fds mb.fd).id)

instance (s : State) (mb : Block) : Decidable (s.Passes mb) :=
  inferInstanceAs (Decidable (_ ∧ _))

/-- `shmq_pop` in `handle_send_queue`, and `schedule_output`. -/
def handleSendQueue (s : State) (worker : Nat) (outcome : SendOutcome) : State :=
  match (s.worker worker).sendq with
  | [] => s
  | mb :: rest =>
      let s := s.setWorker worker { s.worker worker with sendq := rest }
      if s.Passes mb then s.applyBlock mb outcome else s

theorem handleSendQueue_front {s : State} {worker : Nat} {mb : Block} {rest : List Block}
    (front : (s.worker worker).sendq = mb :: rest) (outcome : SendOutcome) :
    s.handleSendQueue worker outcome =
      let popped := s.setWorker worker { s.worker worker with sendq := rest }
      if s.Passes mb then popped.applyBlock mb outcome else popped := by
  simp only [handleSendQueue, front]
  rfl

end State

open State in
def step (s : State) : Action → State
  | .register fd type worker =>
      if (s.epi.fds fd).type = .unused ∧ 0 ≤ fd ∧ type ≠ .unused ∧ type ≠ .remote then
        s.addConn fd type none worker
      else s
  | .accept fd newfd peer now accepted =>
      if (s.epi.fds fd).type = .listen ∧ (s.epi.fds newfd).type = .unused ∧ 0 ≤ newfd then
        s.openConn fd newfd peer now accepted
      else s
  | .packet fd data accepted closeAccepted =>
      if (s.epi.fds fd).type = .remote then
        let s := s.pushBlock fd .dataBlock data accepted
        if accepted then s else s.dropConn fd closeAccepted
      else s
  | .transfer fd cb now =>
      if (s.epi.fds fd).type = .remote then
        s.modify fd fun slot => { slot with cb := cb, sk := { slot.sk with lastTm := now } }
      else s
  | .drop fd closeAccepted =>
      if (s.epi.fds fd).type = .remote then s.dropConn fd closeAccepted else s
  | .output worker outcome => s.handleSendQueue worker outcome
  | .closeQueue =>
      match s.epi.closeHead with
      | fd :: _ => s.delConn fd
      | [] => s
  | .recv worker finAccepted =>
      s.setWorker worker ((s.worker worker).handleRecvQueue finAccepted)
  | .send worker fd data accepted =>
      s.setWorker worker ((s.worker worker).sendPkgToClient fd data accepted)
  | .close worker fd finAccepted =>
      s.setWorker worker ((s.worker worker).closeClientConn fd finAccepted)

end MpNet.Session
