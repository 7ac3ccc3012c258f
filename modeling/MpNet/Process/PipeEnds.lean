import MpNet.Library.Descriptors
import MpNet.Library.Run
import MpNet.Net.FdTable

/-!
# Who holds the ends of the pipes

The descriptor tables of the parent and its workers, the numbers stored in `bindconf`,
and the parent's registrations, from the initial forks over crashes and restarts. A
worker closes what it inherits before it opens anything, so its part of a fork is one
step with the parent's. `pipe` and `fork` succeed; the epoll descriptors, the log and
whatever else a process opens for itself are `other`. Actions that are not possible
leave the state alone.
-/

set_option autoImplicit false

namespace MpNet.Process.PipeEnds

open Library Net

inductive Queue where
  | sendq
  | recvq
  deriving DecidableEq

/-- `pipe_handles[0]` and `pipe_handles[1]`. -/
inductive Side where
  | reader
  | writer
  deriving DecidableEq

inductive Resource where
  /-- An end of a pipe, by the worker and the run of `shmq_create` that it was made for. -/
  | pipe (worker incarnation : Nat) (queue : Queue) (side : Side)
  | socket (stamp : Nat)
  | other
  deriving DecidableEq

/-- The writing end that belongs to a reading end. -/
def Resource.otherEnd : Resource → Option Resource
  | .pipe worker incarnation queue .reader => some (.pipe worker incarnation queue .writer)
  | _ => none

structure PipeHandles where
  reader : Nat
  writer : Nat

structure BindConfigInfo where
  restartCnt : Nat
  sendq : PipeHandles
  recvq : PipeHandles
  /-- History: the runs of `shmq_create` for the entry. -/
  incarnation : Nat

structure Slot where
  type : FdType
  bcElem : Nat
  /-- History: what the number stood for in `do_add_conn`. -/
  resource : Resource

structure State where
  parent : Descriptors Resource
  fds : Nat → Option Slot
  configs : Nat → BindConfigInfo
  workers : Nat → Option (Descriptors Resource)
  /-- The rounds of the loop in `main` that are over. -/
  started : Nat
  /-- The entry between `shmq_create` and `fork`. -/
  forking : Option Nat
  sockets : Nat
  /-- History: a closing hit a number that stood for something else by then. -/
  misclosed : Bool

def init (parent : Descriptors Resource) : State where
  parent := parent
  fds := fun _ => none
  configs := fun _ => ⟨0, ⟨0, 0⟩, ⟨0, 0⟩, 0⟩
  workers := fun _ => none
  started := 0
  forking := none
  sockets := 0
  misclosed := false

inductive Action where
  | shmqCreate
  /-- `fork`, in `main` (where `net_start` may succeed or not) or in `restart_child_process`. -/
  | fork (listening : Bool)
  | crash (worker : Nat)
  -- a connection is accepted on `fd`, or deleted
  | accept (fd : Nat)
  | delete (fd : Nat)
  | hangup (fd : Nat)
  -- a process, the parent or a worker, opens or closes something of its own
  | openOther (owner : Option Nat)
  | closeOther (owner : Option Nat) (number : Nat)
  deriving DecidableEq

def PipeHandles.handle (handles : PipeHandles) : Side → Nat
  | .reader => handles.reader
  | .writer => handles.writer

def BindConfigInfo.handle (bc : BindConfigInfo) : Queue → Side → Nat
  | .sendq => bc.sendq.handle
  | .recvq => bc.recvq.handle

namespace State

/-- What a stored number is thought to stand for. -/
def stored (s : State) (worker : Nat) (queue : Queue) (side : Side) : Nat × Resource :=
  ((s.configs worker).handle queue side,
    .pipe worker (s.configs worker).incarnation queue side)

def closeShmqPipe (s : State) (idx : Nat) (isChild : Bool) : List (Nat × Resource) :=
  if isChild then
    (List.range idx).flatMap fun i => [s.stored i .recvq .writer, s.stored i .sendq .reader]
  else [s.stored idx .recvq .reader, s.stored idx .sendq .writer]

def closes (s : State) (closings : List (Nat × Resource)) : State :=
  let (parent, wrong) := s.parent.closeAll closings
  { s with parent := parent, misclosed := s.misclosed || wrong }

def doAddConn (s : State) (fd : Nat) (slot : Slot) : State :=
  { s with fds := Function.update s.fds fd (some slot) }

/-- `do_del_conn`, which takes the number to stand for `meant`. -/
def doDelConn (s : State) (fd : Nat) (meant : Resource) : State :=
  match s.fds fd with
  | none => s
  | some _ => { s.closes [(fd, meant)] with fds := Function.update s.fds fd none }

def openSocket (s : State) (type : FdType) (bcElem : Nat) : State :=
  { s with
    parent := s.parent.allocate (.socket s.sockets)
    sockets := s.sockets + 1 }.doAddConn s.parent.lowest ⟨type, bcElem, .socket s.sockets⟩

def pipeCreate (parent : Descriptors Resource) (end_ : Side → Resource) :
    Descriptors Resource × PipeHandles :=
  let half := parent.allocate (end_ .reader)
  (half.allocate (end_ .writer), ⟨parent.lowest, half.lowest⟩)

def shmqCreate (s : State) (worker : Nat) : State :=
  let bc := s.configs worker
  let incarnation := bc.incarnation + 1
  let (parent, sendq) := pipeCreate s.parent (.pipe worker incarnation .sendq)
  let (parent, recvq) := pipeCreate parent (.pipe worker incarnation .recvq)
  { s with
    parent := parent
    configs := Function.update s.configs worker
      { bc with sendq := sendq, recvq := recvq, incarnation := incarnation }
    forking := some worker }

/-- One round of the loop over the descriptors in `handle_pipe_event`. -/
def sweepOne (worker : Nat) (s : State) (i : Nat) : State :=
  match s.fds i with
  | none => s
  | some slot =>
      if slot.bcElem = worker ∧ slot.type ≠ .listen then s.doDelConn i slot.resource else s

/-- The registered numbers are below the size of the table. -/
def sweep (worker : Nat) (s : State) : State :=
  run (sweepOne worker) s (List.range s.parent.size)

/-- `restart_child_process` up to `fork`. -/
def restartChildProcess (s : State) (worker : Nat) : State :=
  let (reader, meant) := s.stored worker .sendq .reader
  ((s.closes [s.stored worker .recvq .writer]).doDelConn reader meant).shmqCreate worker

/-- `handle_pipe_event` in the parent on EPOLLHUP. -/
def childCrashed (s : State) (worker : Nat) : State :=
  let s := s.sweep worker
  let bc := s.configs worker
  let counted :=
    { s with
      configs := Function.update s.configs worker { bc with restartCnt := bc.restartCnt + 1 } }
  if bc.restartCnt < 20 then counted.restartChildProcess worker else counted

def netExit (s : State) (child : Descriptors Resource) : Descriptors Resource :=
  child.closeEach ((List.range s.parent.size).filter fun i => (s.fds i).isSome)

/-- The start of `run_worker_process` on a copy of the parent's table. -/
def runWorkerProcess (s : State) (nInitedBc : Nat) : Descriptors Resource × Bool :=
  let (child, wrong) := s.parent.closeAll (s.closeShmqPipe nInitedBc true)
  (s.netExit child, wrong)

def nInitedBc (bindNum : Nat) (s : State) (worker : Nat) : Nat :=
  if worker = s.started then worker + 1 else bindNum

/-- `fork` and what both sides do then. -/
def fork (bindNum : Nat) (s : State) (worker : Nat) (listening : Bool) : State :=
  let (child, wrong) := s.runWorkerProcess (s.nInitedBc bindNum worker)
  let (reader, resource) := s.stored worker .sendq .reader
  let forked := (s.closes (s.closeShmqPipe worker false)).doAddConn reader ⟨.pipe, worker, resource⟩
  let forked :=
    { forked with
      workers := Function.update s.workers worker (some child)
      forking := none
      misclosed := forked.misclosed || wrong }
  if worker = s.started then
    let forked := { forked with started := s.started + 1 }
    if listening then forked.openSocket .listen worker else forked
  else forked

def Held (bindNum : Nat) (s : State) (resource : Resource) : Prop :=
  s.parent.Holds resource ∨
    ∃ j < bindNum, ∃ worker ∈ s.workers j, worker.Holds resource

instance (bindNum : Nat) (s : State) (resource : Resource) : Decidable (s.Held bindNum resource) :=
  inferInstanceAs (Decidable (_ ∨ _))

/-- The number is the reading end of a pipe whose writing end no process holds. -/
def HungUp (bindNum : Nat) (s : State) (fd : Nat) : Prop :=
  ∃ writer ∈ (s.parent.get fd).bind Resource.otherEnd, ¬ s.Held bindNum writer

instance (bindNum : Nat) (s : State) (fd : Nat) : Decidable (s.HungUp bindNum fd) :=
  inferInstanceAs (Decidable (∃ writer ∈ _, _))

def Looping (bindNum : Nat) (s : State) : Prop := s.started = bindNum ∧ s.forking = none

instance (bindNum : Nat) (s : State) : Decidable (s.Looping bindNum) :=
  inferInstanceAs (Decidable (_ ∧ _))

def change (s : State) (owner : Option Nat)
    (change : Descriptors Resource → Descriptors Resource) : State :=
  match owner with
  | none => { s with parent := change s.parent }
  | some worker =>
      { s with workers := Function.update s.workers worker ((s.workers worker).map change) }

def closeOther (table : Descriptors Resource) (number : Nat) : Descriptors Resource :=
  if table.get number = some .other then table.close number else table

end State

def step (bindNum : Nat) (s : State) : Action → State
  | .shmqCreate => if s.started < bindNum ∧ s.forking = none then s.shmqCreate s.started else s
  | .fork listening =>
      match s.forking with
      | some worker => s.fork bindNum worker listening
      | none => s
  | .crash worker => { s with workers := Function.update s.workers worker none }
  | .accept fd =>
      match s.fds fd with
      | some slot =>
          if s.Looping bindNum ∧ slot.type = .listen then s.openSocket .remote slot.bcElem else s
      | none => s
  | .delete fd =>
      match s.fds fd with
      | some slot =>
          if s.Looping bindNum ∧ slot.type = .remote then s.doDelConn fd slot.resource else s
      | none => s
  | .hangup fd =>
      match s.fds fd with
      | some slot =>
          if s.Looping bindNum ∧ slot.type = .pipe ∧ s.HungUp bindNum fd then
            s.childCrashed slot.bcElem
          else s
      | none => s
  | .openOther owner => s.change owner (·.allocate .other)
  | .closeOther owner number => s.change owner (State.closeOther · number)

end MpNet.Process.PipeEnds
