import MpNet.Library.Transactions
import MpNet.Session.System
import MpNet.Shmq.AtomicQueueProperties

/-!
# The parent and its workers on shared memory

Each process runs the functions of the server on its own memory. Every push and every pop
is a call of `shmq_push` or `shmq_pop`, whose single accesses to the shared memory are
interleaved with what all other processes do.
-/

set_option autoImplicit false

namespace MpNet.Session

open Library Net

/-! ## Blocks as bytes -/

def BlockType.byte : BlockType → UInt8
  | .dataBlock => Shmq.dataBlock
  | .finBlock => Shmq.finBlock
  | .openBlock => Shmq.openBlock
  | .closeBlock => Shmq.closeBlock

def BlockType.ofByte (byte : UInt8) : BlockType :=
  if byte = Shmq.dataBlock then .dataBlock
  else if byte = Shmq.openBlock then .openBlock
  else if byte = Shmq.closeBlock then .closeBlock
  else .finBlock

private theorem BlockType.byte_ne_padBlock (type : BlockType) : type.byte ≠ Shmq.padBlock := by
  cases type <;> decide

/-- What `shmq_push` gets for a block, whose fields are in the ranges of their C types. -/
def Block.message (mb : Block) : Option Shmq.Message :=
  if fits : (-2147483648 ≤ mb.fd ∧ mb.fd < 2147483648) ∧
      Shmq.sizeofShmBlock + mb.data.length < 4294967296 then
    some (.make mb.id (UInt32.ofInt mb.fd) mb.type.byte mb.data fits.2 mb.type.byte_ne_padBlock)
  else none

/-- What the caller of `shmq_pop` reads in the block. -/
def Block.ofBytes (bytes : List UInt8) (origin : Nat) : Block where
  id := (Memory.ofBytes bytes).readWord 0
  fd := i32 ((Memory.ofBytes bytes).readWord 4).toNat
  type := .ofByte (Memory.ofBytes bytes 12)
  data := bytes.drop Shmq.sizeofShmBlock
  origin := origin

/-! ## Processes and queues -/

inductive Party where
  | parent
  | worker (worker : Nat)
  deriving DecidableEq

inductive QueueName where
  | recvq (worker : Nat)
  | sendq (worker : Nat)
  deriving DecidableEq

def QueueName.producer : QueueName → Party
  | .recvq _ => .parent
  | .sendq worker => .worker worker

def QueueName.consumer : QueueName → Party
  | .recvq worker => .worker worker
  | .sendq _ => .parent

/-- What a process has for itself. The workers of the parent's `State` and the queues of a
`Worker` are not used. -/
abbrev Party.Memory : Party → Type
  | .parent => State
  | .worker _ => Worker

abbrev Script (Result : Type) := Code QueueName Block Result

/-! ## The parent -/

namespace State

/-- `shmq_push` to the receive queue of the worker that serves `fd`. -/
def pushScript (s : State) (fd : Int) (type : BlockType) (data : List UInt8)
    (next : Bool → Script State) : Script State :=
  match (s.epi.fds fd).bcElem with
  | some worker => .push (.recvq worker) ⟨(s.epi.fds fd).id, fd, type, data, s.gen fd⟩ next
  | none => next true

/-- `do_del_conn(fd, 1)`, which ignores the result of `shmq_push`. -/
def dropScript (s : State) (fd : Int) : Script State :=
  if (s.epi.fds fd).type = .unused then .ret s
  else s.pushScript fd .closeBlock [] fun _ => .ret (s.delConn fd)

/-- `do_open_conn` with the descriptor that `accept` returned. -/
def openScript (s : State) (fd newfd : Int) (peer : UInt16 × UInt32) (now : UInt32) :
    Script State :=
  let s := s.addRemote fd newfd peer now
  s.pushScript newfd .openBlock (remoteInfoBytes (s.epi.fds newfd).sk) fun accepted =>
    .ret (if accepted then s else s.delConn newfd)

/-- `net_recv` with a packet. -/
def packetScript (s : State) (fd : Int) (data : List UInt8) : Script State :=
  s.pushScript fd .dataBlock data fun accepted => if accepted then .ret s else s.dropScript fd

/-- `schedule_output`, after its filters. -/
def applyScript (s : State) (mb : Block) (outcome : SendOutcome) : Script State :=
  if mb.type = .finBlock then .ret { s with epi := s.epi.addToCloseQueue mb.fd }
  else
    match outcome with
    | .sent cb now =>
        .ret (s.modify mb.fd fun slot =>
          { slot with cb := cb, sk := { slot.sk with lastTm := now } })
    | .failed _ => s.dropScript mb.fd

/-- One block of `handle_send_queue`. -/
def outputScript (s : State) (worker : Nat) (outcome : SendOutcome) : Script State :=
  .pop (.sendq worker) fun
    | some mb => if s.Passes mb then s.applyScript mb outcome else .ret s
    | none => .ret s

/-- What the parent does in an action; how its pushes end is up to the queues. -/
def script (s : State) : Action → Script State
  | .accept fd newfd peer now _ =>
      if (s.epi.fds fd).type = .listen ∧ (s.epi.fds newfd).type = .unused ∧ 0 ≤ newfd then
        s.openScript fd newfd peer now
      else .ret s
  | .packet fd data _ _ =>
      if (s.epi.fds fd).type = .remote then s.packetScript fd data else .ret s
  | .drop fd _ => if (s.epi.fds fd).type = .remote then s.dropScript fd else .ret s
  | .output worker outcome => s.outputScript worker outcome
  -- no queue is used
  | .register fd type worker => .ret (step s (.register fd type worker))
  | .transfer fd cb now => .ret (step s (.transfer fd cb now))
  | .closeQueue => .ret (step s .closeQueue)
  | .recv .. | .send .. | .close .. => .ret s

end State

/-! ## A worker -/

namespace Worker

/-- The `switch` of `handle_recv_queue`. -/
def blockScript (w : Worker) (worker : Nat) (mb : Block) : Script Worker :=
  match mb.type with
  | .dataBlock => .ret (if mb.data ≠ [] then w.handleProcess mb else w)
  | .openBlock =>
      match w.handleOpen mb with
      | (w, -1) =>
          .push (.sendq worker) { mb with type := .finBlock, data := [] } fun _ =>
            .ret { w with log := w.log ++ [.rejected mb] }
      | (w, _) => .ret w
  | .closeBlock => .ret (w.handleClose mb.fd)
  | .finBlock => .ret w

/-- One block of `handle_recv_queue`. -/
def recvScript (w : Worker) (worker : Nat) : Script Worker :=
  .pop (.recvq worker) fun
    | some mb => w.blockScript worker mb
    | none => .ret w

/-- One block of `send_pkg_to_client`, called with the session of `fd`. -/
def sendScript (w : Worker) (worker : Nat) (fd : Int) (data : List UInt8) : Script Worker :=
  match w.getFdsess fd with
  | some session =>
      .push (.sendq worker) ⟨session.id, session.fd, .dataBlock, data, session.origin⟩ fun _ =>
        .ret w
  | none => .ret w

/-- `close_client_conn`. -/
def closeScript (w : Worker) (worker : Nat) (fd : Int) : Script Worker :=
  match w.getFdsess fd with
  | some session =>
      .push (.sendq worker) ⟨session.id, fd, .finBlock, [], session.origin⟩ fun _ =>
        .ret (w.handleClose fd)
  | none => .ret w

def script (w : Worker) (worker : Nat) : Action → Script Worker
  | .recv .. => w.recvScript worker
  | .send _ fd data _ => w.sendScript worker fd data
  | .close _ fd _ => w.closeScript worker fd
  | _ => .ret w

end Worker

def Party.script : (party : Party) → party.Memory → Action → Script party.Memory
  | .parent, s, action => State.script s action
  | .worker number, w, action => Worker.script w number action

/-! ## One access at a time -/

/-- A queue in shared memory. -/
structure Channel where
  shm : Shmq.State
  /-- History: the origins of the blocks that are published and not released. -/
  origins : List Nat
  /-- History: the origin of the block that was released last. -/
  origin : Nat

namespace Channel

def init : Channel := ⟨Shmq.init, [], 0⟩

/-- An access of `shmq_push`, called with a block of this origin. -/
def produce (c : Shmq.Config) (ch : Channel) (origin : Nat) : Channel :=
  let shm := Shmq.produce c ch.shm
  match shm.producer with
  | .writePipe _ => { ch with shm := shm, origins := ch.origins ++ [origin] }
  | _ => { ch with shm := shm }

/-- An access of `shmq_pop`. -/
def consume (c : Shmq.Config) (ch : Channel) : Channel :=
  let shm := Shmq.consume c ch.shm
  match shm.consumer with
  | .finish _ => ⟨shm, ch.origins.tail, ch.origins.headD 0⟩
  | _ => { ch with shm := shm }

end Channel

structure Processes where
  memory : ∀ party : Party, party.Memory
  /-- The function that a process is in, if any. -/
  code : ∀ party : Party, Option (Script party.Memory)
  channel : QueueName → Channel

inductive ProcessAction where
  /-- A process that is in no function starts one. -/
  | start (party : Party) (action : Action)
  /-- A process makes its next access to shared memory. -/
  | access (party : Party)

namespace Processes

def init : Processes where
  memory
    | .parent => Session.init
    | .worker _ => .init
  code _ := none
  channel _ := .init

def setCode (s : Processes) (party : Party) (code : Option (Script party.Memory)) : Processes :=
  { s with code := Function.update s.code party code }

def setChannel (s : Processes) (queue : QueueName) (ch : Channel) : Processes :=
  { s with channel := Function.update s.channel queue ch }

/-- The next access of `shmq_push`, which is called first, or its return. -/
def push (c : Shmq.Config) (s : Processes) (party : Party) (queue : QueueName) (mb : Block)
    (next : Bool → Script party.Memory) : Processes :=
  let ch := s.channel queue
  if ch.shm.producer.isBetween then
    match mb.message with
    | some message => s.setChannel queue { ch with shm := Shmq.callPush ch.shm message }
    | none => s
  else
    let ch := ch.produce c mb.origin
    let s := s.setChannel queue ch
    match ch.shm.producer with
    | .ret result => s.setCode party (some (next (result = 0)))
    | _ => s

/-- The next access of `shmq_pop`, which is called first, or its return. The block stays in
place until the next call. -/
def pop (c : Shmq.Config) (s : Processes) (party : Party) (queue : QueueName)
    (next : Option Block → Script party.Memory) : Processes :=
  let ch := s.channel queue
  if ch.shm.consumer.isBetween then
    s.setChannel queue { ch with shm := Shmq.callPop ch.shm }
  else
    let ch := ch.consume c
    let s := s.setChannel queue ch
    match ch.shm.consumer with
    | .ret mb =>
        s.setCode party (some (next (mb.map fun curMb =>
          .ofBytes (Shmq.blockBytes ch.shm.memory curMb) ch.origin)))
    | _ => s

def finish (s : Processes) (party : Party) (result : party.Memory) : Processes :=
  { s with memory := Function.update s.memory party result }.setCode party none

def access (c : Shmq.Config) (s : Processes) (party : Party) : Processes :=
  match s.code party with
  | some (.push queue mb next) => s.push c party queue mb next
  | some (.pop queue next) => s.pop c party queue next
  | some (.ret result) => s.finish party result
  | none => s

end Processes

def processStep (c : Shmq.Config) (s : Processes) : ProcessAction → Processes
  | .start party action =>
      match s.code party with
      | none => s.setCode party (some (party.script (s.memory party) action))
      | some _ => s
  | .access party => s.access c party

end MpNet.Session
