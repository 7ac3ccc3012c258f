import MpNet.Net.Wakeup
import MpNet.Shmq.FifoProperties

/-!
# Waking a worker

A worker's `net_loop(timeout, ..)` beside the parent, which pushes to its receive queue.
`shmq_push` and `shmq_pop` run access by access; the events, each `read` of
`handle_pipe_event` and `handle_recv_queue` are steps of the worker. The handlers of the
blocks touch neither the receive queue nor its pipe, which is in no queue of the table.
-/

set_option autoImplicit false

namespace MpNet.Net.WorkerWakeup

open Library Shmq

structure Config where
  queue : Shmq.Config
  /-- The bytes a pipe can hold. -/
  pipeSize : Nat
  pipeSize_pos : 0 < pipeSize

/-- An entry of `epi.evs`. -/
inductive Event where
  -- `EPOLLIN` on the pipe of the receive queue
  | pipe
  -- `EPOLLHUP` on it
  | hangup
  | other
  deriving DecidableEq

/-- Where the worker stands in `net_loop`. -/
inductive WorkerPc where
  -- `iterate_close_queue` and `iterate_etin_queue`
  | iterate
  | epollWait
  | events (evs : List Event)
  | readTrash (evs : List Event)
  | recvQueue
  | shmqPop
  deriving DecidableEq

structure State where
  worker : WorkerPc
  recvq : Shmq.State
  pipe : Nat

inductive Action where
  | push (message : Message)
  | produce
  | wake (evs : List Event)
  | worker

def init : State := ⟨.iterate, Shmq.init, 0⟩

/-- The kernel reports a level-triggered pipe while it holds a byte. -/
def Event.ready (s : State) : Event → Bool
  | .pipe => 0 < s.pipe
  | .hangup | .other => true

/-- A batch has one entry for a descriptor. -/
def Once (evs : List Event) : Prop := (evs.filter (· ≠ .other)).length ≤ 1

instance (evs : List Event) : Decidable (Once evs) := inferInstanceAs (Decidable (_ ≤ _))

/-- The next step of the worker, unless it sleeps. -/
def netLoop (c : Config) (s : State) : State :=
  match s.worker with
  | .iterate => { s with worker := .epollWait }
  | .epollWait => s
  | .events [] => { s with worker := .recvQueue }
  | .events (.other :: evs) => { s with worker := .events evs }
  | .events (.pipe :: evs) => { s with worker := .readTrash evs }
  -- `net_loop` returns -1, and is called again unless the plugin has finished
  | .events (.hangup :: _) => { s with worker := .iterate }
  | .readTrash evs =>
      { s with
        pipe := s.pipe - Wakeup.trashSize
        -- a short read, or none at all, ends the loop
        worker := if Wakeup.trashSize ≤ s.pipe then .readTrash evs else .events evs }
  | .recvQueue => { s with recvq := callPop s.recvq, worker := .shmqPop }
  | .shmqPop =>
      match s.recvq.consumer with
      | .ret none => { s with worker := .iterate }
      | .ret (some _) => { s with worker := .recvQueue }
      | _ => { s with recvq := consume c.queue s.recvq }

def step (c : Config) (s : State) : Action → State
  | .push message => { s with recvq := callPush s.recvq message }
  | .produce =>
      { s with
        recvq := Shmq.produce c.queue s.recvq
        pipe := writePipe c.pipeSize s.recvq s.pipe }
  | .wake evs =>
      match s.worker with
      | .epollWait =>
          if evs.all (Event.ready s) ∧ Once evs then { s with worker := .events evs } else s
      | _ => s
  | .worker => netLoop c s

def State.bell (s : State) : Doorbell Message := Shmq.bell s.recvq s.pipe

/-! ## The queue -/

/-- A block of `page_size` fits into the queue, whose length is an `int`. -/
structure Sized (c : Shmq.Config) : Prop where
  positive : 0 < c.pageSize
  room : sizeofShmHead + c.pageSize ≤ c.length
  length_lt : c.length < 2147483648

/-- Nothing can be pushed below the size of a header. -/
structure Barren (s : Shmq.State) : Prop where
  published : s.published = []
  producer : match s.producer with
    | .idle | .checkLength _ | .ret _ => True
    | _ => False

/-- What the worker relies on. -/
def Queued (c : Shmq.Config) (q : Shmq.State) : Prop :=
  if (sizeofShmBlock : Int) ≤ c.pageSize then Inv c q else Barren q

variable {c : Config} {queue : Shmq.Config} {q : Shmq.State} {s : State}

theorem Sized.fits (sized : Sized queue) (page : (sizeofShmBlock : Int) ≤ queue.pageSize) :
    queue.Fits :=
  ⟨sized.room, page, sized.length_lt⟩

private theorem queued_init (sized : Sized queue) : Queued queue Shmq.init := by
  unfold Queued
  split
  · exact inv_init (sized.fits ‹_›)
  · exact ⟨rfl, trivial⟩

theorem Barren.produce (barren : Barren q) (page : queue.pageSize < sizeofShmBlock)
    (positive : 0 < queue.pageSize) : Barren (Shmq.produce queue q) := by
  obtain ⟨published, producer⟩ := barren
  cases pc : q.producer <;> simp only [pc] at producer <;> simp only [Shmq.produce, pc]
  case idle => exact ⟨published, by simp [pc]⟩
  case ret => exact ⟨published, by simp [pc]⟩
  case checkLength message =>
      have size := message.size_ge
      have unsigned : u32 queue.pageSize = queue.pageSize :=
        u32_of_range (by omega) (by simp [sizeofShmBlock] at page; omega)
      rw [if_pos (by simp [sizeofShmBlock] at page; omega)]
      exact ⟨published, trivial⟩

theorem Barren.step (barren : Barren q) (page : queue.pageSize < sizeofShmBlock)
    (positive : 0 < queue.pageSize) (action : Shmq.Action) :
    Barren (Shmq.step queue q action) := by
  obtain ⟨published, producer⟩ := barren
  cases action with
  | push message =>
      simp only [Shmq.step, callPush]
      split
      · exact ⟨published, trivial⟩
      · exact ⟨published, trivial⟩
      · exact ⟨published, producer⟩
  | produce => exact Barren.produce ⟨published, producer⟩ page positive
  | pop =>
      simp only [Shmq.step, callPop]
      split <;> exact ⟨published, producer⟩
  | consume =>
      obtain ⟨same, log⟩ := consume_producer queue q
      exact ⟨log.trans published, by rwa [Shmq.step, same]⟩

theorem Queued.step (sized : Sized queue) (queued : Queued queue q) (action : Shmq.Action) :
    Queued queue (Shmq.step queue q action) := by
  unfold Queued at queued ⊢
  split
  · rename_i page
    rw [if_pos page] at queued
    exact inv_step (sized.fits page) queued action
  · rename_i page
    rw [if_neg page] at queued
    exact queued.step (lt_of_not_ge page) sized.positive action

/-- `shmq_pop` returns -1 from a step that finds nothing to pop. -/
theorem Queued.drained (queued : Queued queue q) (inside : q.consumer ≠ .ret none)
    (refused : (consume queue q).consumer = .ret none) : q.pending = [] := by
  unfold Queued at queued
  split at queued
  · have all := queued.popped_all inside refused
    exact List.drop_eq_nil_of_le all.ge
  · simp [Shmq.State.pending, queued.published]

/-! ## The invariant -/

/-- What must hold of the bell where the worker stands: between the read of the pipe and
the last pop nothing is promised. -/
def Promise (s : State) : Prop :=
  match s.worker with
  | .iterate | .epollWait => s.bell.Rung
  | .events evs => Once evs ∧ (.hangup ∈ evs → s.bell.Rung)
  | .readTrash evs => ∀ ev ∈ evs, ev = .other
  | .recvQueue => True
  | .shmqPop => s.recvq.consumer = .ret none → s.bell.Rung

private theorem once_others {evs : List Event} (others : ∀ ev ∈ evs, ev = .other) :
    Once evs ∧ .hangup ∉ evs := by
  constructor
  · have none : evs.filter (· ≠ .other) = [] :=
      List.filter_eq_nil_iff.mpr fun ev member => by simp [others ev member]
    rw [Once, none]
    exact Nat.zero_le 1
  · intro member
    cases others .hangup member

/-- The rest of a batch after the entry of the pipe. -/
theorem Once.others {evs : List Event} {ev : Event} (once : Once (ev :: evs))
    (about : ev ≠ .other) : ∀ later ∈ evs, later = .other := by
  intro later member
  by_contra other
  have kept : later ∈ evs.filter (· ≠ .other) := List.mem_filter.mpr ⟨member, by simpa using other⟩
  have length : (evs.filter (· ≠ .other)).length + 1 ≤ 1 := by
    simpa [Once, List.filter_cons_of_pos, about] using once
  have positive := List.length_pos_of_mem kept
  omega

private theorem Promise.of_bell {s' : State} (promise : Promise s) (worker : s'.worker = s.worker)
    (consumer : s'.recvq.consumer = s.recvq.consumer) (kept : s.bell.Rung → s'.bell.Rung) :
    Promise s' := by
  unfold Promise at promise ⊢
  rw [worker]
  split at promise
  · exact kept promise
  · exact kept promise
  · exact ⟨promise.1, fun hangs => kept (promise.2 hangs)⟩
  · exact promise
  · trivial
  · rw [consumer]
    exact fun refused => kept (promise refused)

private theorem callPop_runs (q : Shmq.State) : (callPop q).consumer ≠ .ret none := by
  unfold callPop
  split
  · simp
  · simp
  · rename_i running
    exact fun returned => running _ returned

private theorem rung_of_empty {pipe : Nat} (empty : q.pending = []) : (Shmq.bell q pipe).Rung := by
  intro occupied
  simp [Doorbell.completed, Shmq.bell, empty] at occupied

private theorem callPush_consumer (q : Shmq.State) (message : Message) :
    (callPush q message).consumer = q.consumer := by
  unfold callPush
  split <;> rfl

private theorem produce_consumer (queue : Shmq.Config) (q : Shmq.State) :
    (Shmq.produce queue q).consumer = q.consumer := by
  cases pc : q.producer <;> simp only [Shmq.produce, pc]
  case checkLength | waitHead => split <;> rfl
  case readHeadPos | compareTail | gapHead => split <;> (try split) <;> rfl

private theorem netLoop_promise (queued : Queued c.queue s.recvq) (promise : Promise s) :
    Promise (netLoop c s) := by
  unfold Promise at promise
  unfold netLoop
  cases standing : s.worker with
  | iterate =>
      rw [standing] at promise
      exact promise
  | epollWait => simpa [Promise, standing] using promise
  | events evs =>
      rw [standing] at promise
      obtain ⟨once, hangs⟩ := promise
      rcases evs with _ | ⟨_ | _ | _, evs⟩
      · trivial
      · exact once.others (by simp)
      · exact hangs List.mem_cons_self
      · exact ⟨by simpa [Once] using once, fun member => hangs (.tail _ member)⟩
  | readTrash evs =>
      rw [standing] at promise
      by_cases full : Wakeup.trashSize ≤ s.pipe
      · simpa [Promise, full] using promise
      · obtain ⟨once, quiet⟩ := once_others promise
        simp only [Promise, if_neg full]
        exact ⟨once, fun hangs => absurd hangs quiet⟩
  | recvQueue => exact fun refused => absurd refused (callPop_runs s.recvq)
  | shmqPop =>
      rw [standing] at promise
      simp only
      split
      · rename_i refused
        exact promise refused
      · trivial
      · rename_i running _
        simp only [Promise]
        intro refused
        exact consume_rung (rung_of_empty (queued.drained running refused))

private theorem step_promise (action : Action) (queued : Queued c.queue s.recvq)
    (promise : Promise s) :
    Promise (step c s action) := by
  cases action with
  | push message =>
      refine promise.of_bell rfl (callPush_consumer s.recvq message) fun rung => ?_
      simpa only [State.bell, step, callPush_bell] using rung
  | produce =>
      exact promise.of_bell rfl (produce_consumer c.queue s.recvq)
        fun rung => produce_rung c.pipeSize_pos rung
  | wake evs =>
      simp only [step]
      split
      · rename_i standing
        split
        · rename_i batch
          simp only [Promise, standing] at promise
          exact ⟨batch.2, fun _ => promise⟩
        · exact promise
      · exact promise
  | worker => exact netLoop_promise queued promise

private theorem step_queued (sized : Sized c.queue) (action : Action)
    (queued : Queued c.queue s.recvq) :
    Queued c.queue (step c s action).recvq := by
  cases action with
  | push message => exact queued.step sized (.push message)
  | produce => exact queued.step sized .produce
  | wake evs =>
      simp only [step]
      split
      · split <;> exact queued
      · exact queued
  | worker =>
      simp only [step, netLoop]
      split
      case h_8 => exact queued.step sized .pop
      case h_9 =>
        split
        · exact queued
        · exact queued
        · exact queued.step sized .consume
      all_goals exact queued

/-- A worker in `epoll_wait` has a byte to read whenever a block whose push has returned is
in its receive queue. -/
theorem recvq_wakes_worker (c : Config) (sized : Sized c.queue) (actions : List Action) :
    let s := run (step c) init actions
    s.worker = .epollWait → s.bell.completed ≠ [] → 0 < s.pipe := by
  intro s waiting occupied
  have initial : Queued c.queue init.recvq ∧ Promise init :=
    ⟨queued_init sized, fun occupied => absurd rfl occupied⟩
  have kept : Queued c.queue s.recvq ∧ Promise s :=
    run_preserves (fun s : State => Queued c.queue s.recvq ∧ Promise s)
      (fun _ action kept => ⟨step_queued sized action kept.1, step_promise action kept.1 kept.2⟩)
      initial actions
  have promise := kept.2
  simp only [Promise, waiting] at promise
  exact promise occupied

def smallQueue : Config := ⟨⟨64, 16⟩, 16, Nat.zero_lt_succ 15⟩

/-- The `write` of the first push comes after the events, so that its byte outlives its
block; the second push is over while the worker sleeps. -/
def lateByte : List Action :=
  .worker :: .push (.control 7 3 closeBlock closeBlock_ne_padBlock) :: List.replicate 9 .produce ++
    .wake [.other] :: .worker :: .worker :: .produce :: List.replicate 18 .worker ++
    .push (.control 8 4 closeBlock closeBlock_ne_padBlock) :: List.replicate 10 .produce

private theorem smallQueue_sized : Sized smallQueue.queue :=
  ⟨by decide, by decide, by decide⟩

theorem recvq_wakes_worker_lateByte :
    let s := run (step smallQueue) init lateByte
    s.worker = .epollWait ∧ s.bell.completed.length = 1 ∧ 0 < s.pipe :=
  have waiting : (run (step smallQueue) init lateByte).worker = .epollWait := by decide +kernel
  have occupied : (run (step smallQueue) init lateByte).bell.completed.length = 1 := by
    decide +kernel
  ⟨waiting, occupied, recvq_wakes_worker smallQueue smallQueue_sized lateByte waiting
    fun none => by simp [none] at occupied⟩

end MpNet.Net.WorkerWakeup
