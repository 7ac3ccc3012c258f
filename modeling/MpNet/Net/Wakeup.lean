import MpNet.Shmq.Bell
import Mathlib.Logic.Function.Basic

/-!
# Waking the parent

The parent's `net_loop(-1, ..)` beside any number of workers that push to their
send queues. A worker's `shmq_push` and the parent's `shmq_pop` run access by
access, as in the model of the queue; `handle_send_queue`, the loop over the events
and each `read` of `handle_pipe_event` are steps of the parent. `schedule_output`
and the events of other descriptors touch neither a send queue nor its pipe.
-/

set_option autoImplicit false

namespace MpNet.Net.Wakeup

open Library Shmq

def trashSize : Nat := 4096

structure Config where
  queue : Shmq.Config
  /-- `bindconf.bind_num`. -/
  bindNum : Nat
  /-- The bytes a pipe can hold. -/
  pipeSize : Nat
  pipeSize_pos : 0 < pipeSize

/-- An entry of `epi.evs`. -/
inductive Event where
  /-- `EPOLLIN` on the pipe of a worker's send queue. -/
  | pipe (worker : Nat)
  | other
  deriving DecidableEq

/-- Where the parent stands in `net_loop`. -/
inductive ParentPc where
  -- `iterate_close_queue` and `iterate_etin_queue`
  | iterate
  | epollWait
  | sendQueue (worker : Nat) (evs : List Event)
  | shmqPop (worker : Nat) (evs : List Event)
  | events (evs : List Event)
  | readTrash (worker : Nat) (evs : List Event)
  deriving DecidableEq

structure State where
  parent : ParentPc
  /-- `bindconf.configs[i].sendq`. -/
  sendq : Nat → Shmq.State
  pipe : Nat → Nat

inductive Action where
  | push (worker : Nat) (message : Message)
  | produce (worker : Nat)
  | wake (evs : List Event)
  | parent

def init : State := ⟨.iterate, fun _ => Shmq.init, fun _ => 0⟩

/-- The kernel reports a level-triggered pipe while it holds a byte. -/
def Event.ready (c : Config) (s : State) : Event → Bool
  | .pipe worker => worker < c.bindNum && 0 < s.pipe worker
  | .other => true

/-- The next step of the parent, unless it sleeps. -/
def netLoop (c : Config) (s : State) : State :=
  match s.parent with
  | .iterate => { s with parent := .epollWait }
  | .epollWait => s
  | .sendQueue worker evs =>
      if worker = c.bindNum then { s with parent := .events evs }
      else
        { s with
          sendq := Function.update s.sendq worker (callPop (s.sendq worker))
          parent := .shmqPop worker evs }
  | .shmqPop worker evs =>
      match (s.sendq worker).consumer with
      | .ret none => { s with parent := .sendQueue (worker + 1) evs }
      | .ret (some _) => { s with parent := .sendQueue worker evs }
      | _ => { s with sendq := Function.update s.sendq worker (consume c.queue (s.sendq worker)) }
  | .events [] => { s with parent := .iterate }
  | .events (.other :: evs) => { s with parent := .events evs }
  | .events (.pipe worker :: evs) => { s with parent := .readTrash worker evs }
  | .readTrash worker evs =>
      { s with
        pipe := Function.update s.pipe worker (s.pipe worker - trashSize)
        -- a short read, or none at all, ends the loop
        parent := if trashSize ≤ s.pipe worker then .readTrash worker evs else .events evs }

def step (c : Config) (s : State) : Action → State
  | .push worker message =>
      { s with sendq := Function.update s.sendq worker (callPush (s.sendq worker) message) }
  | .produce worker =>
      { s with
        sendq := Function.update s.sendq worker (Shmq.produce c.queue (s.sendq worker))
        pipe := Function.update s.pipe worker
          (writePipe c.pipeSize (s.sendq worker) (s.pipe worker)) }
  | .wake evs =>
      match s.parent with
      | .epollWait =>
          if evs.all (Event.ready c s) then { s with parent := .sendQueue 0 evs } else s
      | _ => s
  | .parent => netLoop c s

def State.bell (s : State) (worker : Nat) : Doorbell Message :=
  Shmq.bell (s.sendq worker) (s.pipe worker)

def readsPipe (s : State) : Action → Option Nat
  | .parent =>
      match s.parent with
      | .readTrash worker _ => some worker
      | _ => none
  | _ => none

/-- A read of a pipe leaves bytes in it or finds no block whose push has returned. -/
def HarmlessRead (s : State) (action : Action) : Prop :=
  ∀ worker ∈ readsPipe s action,
    (s.bell worker).completed = [] ∨ trashSize < s.pipe worker

instance (s : State) (action : Action) : Decidable (HarmlessRead s action) :=
  inferInstanceAs (Decidable (∀ worker ∈ readsPipe s action, _))

/-! ## The invariant -/

def Rung (s : State) : Prop := ∀ worker, (s.bell worker).Rung

variable {c : Config} {s : State}

private theorem rung_init : Rung init := fun _ occupied => absurd rfl occupied

theorem Rung.update (rung : Rung s) (parent : ParentPc) (worker : Nat) {queue : Shmq.State}
    {pipe : Nat} (kept : (Shmq.bell queue pipe).Rung) :
    Rung ⟨parent, Function.update s.sendq worker queue, Function.update s.pipe worker pipe⟩ := by
  intro other
  by_cases same : other = worker
  · subst same
    simpa [State.bell] using kept
  · simpa [State.bell, same] using rung other

private theorem Rung.updateQueue (rung : Rung s) (parent : ParentPc) (worker : Nat)
    {queue : Shmq.State} (kept : (Shmq.bell queue (s.pipe worker)).Rung) :
    Rung ⟨parent, Function.update s.sendq worker queue, s.pipe⟩ := by
  simpa using rung.update parent worker kept

private theorem Rung.updatePipe (rung : Rung s) (parent : ParentPc) (worker : Nat) {pipe : Nat}
    (kept : (Shmq.bell (s.sendq worker) pipe).Rung) :
    Rung ⟨parent, s.sendq, Function.update s.pipe worker pipe⟩ := by
  simpa using rung.update parent worker kept

private theorem netLoop_rung (rung : Rung s) (harmless : HarmlessRead s .parent) :
    Rung (netLoop c s) := by
  unfold netLoop
  cases standing : s.parent with
  | iterate => exact rung
  | epollWait => exact rung
  | sendQueue worker evs =>
      simp only
      split
      · exact rung
      · refine rung.updateQueue _ worker ?_
        rw [callPop_bell]
        exact rung worker
  | shmqPop worker evs =>
      simp only
      split
      · exact rung
      · exact rung
      · exact rung.updateQueue _ worker (consume_rung (rung worker))
  | events evs =>
      rcases evs with _ | ⟨_ | _, evs⟩ <;> exact rung
  | readTrash worker evs =>
      have reads : worker ∈ readsPipe s .parent := by simp [readsPipe, standing]
      exact rung.updatePipe _ worker (Doorbell.rung_read_iff.mpr (harmless worker reads))

private theorem step_rung (action : Action) (harmless : HarmlessRead s action) (rung : Rung s) :
    Rung (step c s action) := by
  cases action with
  | push worker message =>
      refine rung.updateQueue _ worker ?_
      rw [callPush_bell]
      exact rung worker
  | produce worker =>
      exact rung.update _ worker (produce_rung c.pipeSize_pos (rung worker))
  | wake evs =>
      simp only [step]
      split
      · split
        · exact rung
        · exact rung
      · exact rung
  | parent => exact netLoop_rung rung harmless

/-! ## Main results -/

/-- In a run in which every read of a pipe leaves bytes in it or finds no completed
block, a parent that sleeps has a byte to read for each send queue with a completed
block. -/
theorem sendq_wakes_parent (c : Config) (actions : List Action)
    (harmless : Along (step c) HarmlessRead init actions) :
    let s := run (step c) init actions
    s.parent = .epollWait → ∀ worker, (s.bell worker).completed ≠ [] → 0 < s.pipe worker := by
  intro s _ worker occupied
  have rung : Rung s := run_preserves_along Rung (fun _ => step_rung) rung_init harmless
  exact rung worker occupied

def oneWorker : Config := ⟨⟨64, 16⟩, 1, 16, by decide⟩

/-- A block pushed by worker 0, from the call to the return. -/
def pushBlock : List Action :=
  .push 0 (.control 7 3 finBlock (by decide)) :: List.replicate 10 (.produce 0)

/-- The parent sleeps, wakes for the pipe of worker 0 and drains the send queues. -/
def wakeAndDrain : List Action :=
  .parent :: pushBlock ++ .wake [.pipe 0] :: List.replicate 17 .parent

/-- The parent reads the pipe and sleeps before the next push. -/
def orderly : List Action := wakeAndDrain ++ List.replicate 5 .parent ++ pushBlock

theorem sendq_wakes_parent_orderly :
    let s := run (step oneWorker) init orderly
    s.parent = .epollWait ∧ 0 < s.pipe 0 :=
  have sleeping : (run (step oneWorker) init orderly).parent = .epollWait := by decide +kernel
  ⟨sleeping, sendq_wakes_parent oneWorker orderly (by decide +kernel) sleeping 0
    (by decide +kernel)⟩

/-- The next push falls between the drain of the send queues and the read of the pipe. -/
def overtaken : List Action := wakeAndDrain ++ pushBlock ++ List.replicate 5 .parent

theorem sendq_strands_block : ¬ ∀ (c : Config) (actions : List Action),
    let s := run (step c) init actions
    s.parent = .epollWait → ∀ worker, (s.bell worker).completed ≠ [] → 0 < s.pipe worker := by
  intro wakes
  have sleeping : (run (step oneWorker) init overtaken).parent = .epollWait := by decide +kernel
  have occupied : ((run (step oneWorker) init overtaken).bell 0).completed ≠ [] := by
    decide +kernel
  have silent : (run (step oneWorker) init overtaken).pipe 0 = 0 := by decide +kernel
  have rung := wakes oneWorker overtaken sleeping 0 occupied
  omega

end MpNet.Net.Wakeup
