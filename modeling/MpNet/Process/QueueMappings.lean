import MpNet.Process.PipeEnds

/-!
# Which process maps which queue

The shared memory that the parent and its workers map, and the addresses they keep in
`bindconf`. A worker inherits the mappings of the parent and gives up those of the other
entries in a step of its own, while the parent goes on. `mmap` succeeds, `fork` may fail.
-/

set_option autoImplicit false

namespace MpNet.Process.QueueMappings

open Library PipeEnds

/-- The memory of a queue, by the entry and the run of `shmq_create` that it was made for. -/
structure Segment where
  entry : Nat
  incarnation : Nat
  queue : Queue
  deriving DecidableEq

structure Memory where
  /-- `configs[entry].sendq.addr` and `configs[entry].recvq.addr`. -/
  addr : Nat → Queue → Option Segment
  mapped : List Segment

namespace Memory

def setAddr (m : Memory) (entry : Nat) (queue : Queue) (value : Option Segment) :
    Nat → Queue → Option Segment :=
  fun e q => if e = entry ∧ q = queue then value else m.addr e q

def doShmqCreate (m : Memory) (segment : Segment) : Memory where
  addr := m.setAddr segment.entry segment.queue (some segment)
  mapped := segment :: m.mapped

def shmqCreate (m : Memory) (entry incarnation : Nat) : Memory :=
  (m.doShmqCreate ⟨entry, incarnation, .sendq⟩).doShmqCreate ⟨entry, incarnation, .recvq⟩

/-- The `munmap` of `do_destroy_shmq`, for one of the two queues. -/
def unmap (m : Memory) (entry : Nat) (queue : Queue) : Memory :=
  match m.addr entry queue with
  | some segment => ⟨m.setAddr entry queue none, m.mapped.erase segment⟩
  | none => m

def doDestroyShmq (m : Memory) (entry : Nat) : Memory :=
  (m.unmap entry .sendq).unmap entry .recvq

/-- One round of the loop in `shmq_destroy`. -/
def destroyOther (exclu : Option Nat) (m : Memory) (i : Nat) : Memory :=
  if some i ≠ exclu then m.doDestroyShmq i else m

def shmqDestroy (m : Memory) (exclu : Option Nat) (maxShmqNum : Nat) : Memory :=
  run (destroyOther exclu) m (List.range maxShmqNum)

end Memory

structure Worker where
  entry : Nat
  /-- History: the run of `shmq_create` before the `fork`. -/
  incarnation : Nat
  nInitedBc : Nat
  memory : Memory
  /-- `run_worker_process` is past `shmq_destroy`. -/
  running : Bool

structure State where
  parent : Memory
  workers : Nat → Option Worker
  started : Nat
  forking : Option Nat
  /-- History: the runs of `shmq_create` for each entry. -/
  incarnation : Nat → Nat
  /-- `main` is past `shmq_destroy`. -/
  stopped : Bool

def init : State where
  parent := ⟨fun _ _ => none, []⟩
  workers := fun _ => none
  started := 0
  forking := none
  incarnation := fun _ => 0
  stopped := false

inductive Action where
  | shmqCreate
  /-- `fork`, with the number of the new process unless it fails. -/
  | fork (pid : Option Nat)
  | restart (entry : Nat)
  | destroy (pid : Nat)
  | quit (pid : Nat)
  /-- `shmq_destroy` at the end of `main`. -/
  | shutdown

namespace State

def create (s : State) (entry : Nat) : State :=
  { s with
    parent := s.parent.shmqCreate entry (s.incarnation entry + 1)
    incarnation := Function.update s.incarnation entry (s.incarnation entry + 1)
    forking := some entry }

def setWorker (s : State) (pid : Nat) (worker : Option Worker) : State :=
  { s with workers := Function.update s.workers pid worker }

/-- The copy of the parent that `run_worker_process` starts with. -/
def child (bindNum : Nat) (s : State) (entry : Nat) : Worker where
  entry := entry
  incarnation := s.incarnation entry
  nInitedBc := if entry = s.started then entry + 1 else bindNum
  memory := s.parent
  running := false

def forked (s : State) (entry : Nat) : State :=
  { s with
    forking := none
    started := if entry = s.started then s.started + 1 else s.started }

def Looping (bindNum : Nat) (s : State) : Prop :=
  s.started = bindNum ∧ s.forking = none ∧ s.stopped = false

instance (bindNum : Nat) (s : State) : Decidable (s.Looping bindNum) :=
  inferInstanceAs (Decidable (_ ∧ _))

end State

def step (bindNum : Nat) (s : State) : Action → State
  | .shmqCreate => if s.started < bindNum ∧ s.forking = none then s.create s.started else s
  | .fork pid =>
      match s.forking, pid with
      | some entry, some pid =>
          if s.workers pid = none then
            (s.setWorker pid (some (s.child bindNum entry))).forked entry
          else s
      | some entry, none => s.forked entry
      | none, _ => s
  | .restart entry =>
      if s.Looping bindNum ∧ entry < bindNum then
        { s with parent := s.parent.doDestroyShmq entry }.create entry
      else s
  | .destroy pid =>
      match s.workers pid with
      | some w =>
          if w.running then s
          else
            s.setWorker pid (some { w with
              memory := w.memory.shmqDestroy (some w.entry) w.nInitedBc
              running := true })
      | none => s
  | .quit pid => s.setWorker pid none
  | .shutdown =>
      if s.Looping bindNum then
        { s with parent := s.parent.shmqDestroy none bindNum, stopped := true }
      else s

end MpNet.Process.QueueMappings
