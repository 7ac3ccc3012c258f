import MpNet.Library.AtomicObject
import MpNet.Shmq.PushCallProperties

/-!
# The shared queue is an atomic queue

A call of `shmq_push` takes effect with its head update or when it gives up, a call of
`shmq_pop` with its tail update or when it reads `head` equal to `tail`.
-/

set_option autoImplicit false

namespace MpNet.Shmq

open Library

inductive Side where
  | producer
  | consumer
  deriving DecidableEq

inductive QueueOp where
  | push (message : Message)
  | pop

inductive QueueResult where
  | pushed (result : Int)
  /-- The bytes of the block, or nothing for the result -1. -/
  | popped (block : Option (List UInt8))

/-- A queue that may refuse a push at any time, and a pop only when it is empty. -/
inductive Fifo : SequentialObject (List Message) QueueOp QueueResult
  | accept (queue : List Message) (message : Message) :
      Fifo queue (.push message) (.pushed 0) (queue ++ [message])
  | refuse (queue : List Message) (message : Message) :
      Fifo queue (.push message) (.pushed (-1)) queue
  | take (message : Message) (rest : List Message) :
      Fifo (message :: rest) .pop (.popped (some message.bytes)) rest
  | empty : Fifo [] .pop (.popped none) []

abbrev QueueEvent := CallEvent Side QueueOp QueueResult

abbrev AtomicQueue := AtomicObject Side (List Message) QueueOp QueueResult

def PopPc.isBetween : PopPc → Bool
  | .idle | .ret _ => true
  | _ => false

/-- A step that ends a call shows its return, a block by its bytes. -/
def PushPc.returns (before : PushPc) : PushPc → List QueueEvent
  | .ret result => if before.isBetween then [] else [.ret .producer (.pushed result)]
  | _ => []

def PopPc.returns (memory : Memory) (before : PopPc) : PopPc → List QueueEvent
  | .ret mb =>
      if before.isBetween then [] else [.ret .consumer (.popped (mb.map (blockBytes memory)))]
  | _ => []

/-- The calls and returns that a step of either side shows. -/
def events (c : Config) (s : State) : Action → List QueueEvent
  | .push message => if s.producer.isBetween then [.call .producer (.push message)] else []
  | .produce => s.producer.returns (produce c s).producer
  | .pop => if s.consumer.isBetween then [.call .consumer .pop] else []
  | .consume => s.consumer.returns s.memory (consume c s).consumer

/-- Where the call of the producer stands. A call that has ended the process stays open. -/
def PushPc.Status (status : CallStatus QueueOp QueueResult) : PushPc → Prop
  | .idle | .ret _ => status = .idle
  | .writePipe _ => status = .done (.pushed 0)
  | .exited => ∃ m, status = .called (.push m)
  | .checkLength m | .readTailPos m | .readHeadPos m _ | .compareTail m _ _ | .resetTail m
  | .resetHead m | .padHead m _ | .padWrite m _ _ | .wrapHead m | .waitTail m _ | .waitHead m _ _
  | .gapTail m _ | .gapHead m _ _ | .headMb m | .copyHeader m _ | .copyData m _ | .loadHead m
  | .storeHead m _ => status = .called (.push m)

def State.PopStatus (c : Config) (s : State) (status : CallStatus QueueOp QueueResult) : Prop :=
  match s.consumer with
  | .idle | .ret _ => status = .idle
  | .finish curMb => ∃ m, s.Held c curMb m ∧ status = .done (.popped (some m.bytes))
  | _ => status = .called .pop

/-- What a step of the producer means for its call. -/
inductive PushMove (s s' : State) : Prop
  | silent (same : s'.pending = s.pending)
      (keeps : ∀ status, s.producer.Status status → s'.producer.Status status)
      (inside : s.producer.isBetween = true ∨ s'.producer.isBetween = false)
  | refuse (m : Message) (same : s'.pending = s.pending)
      (called : ∀ status, s.producer.Status status → status = .called (.push m))
      (inside : s.producer.isBetween = false) (result : s'.producer = .ret (-1))
  | accept (m : Message) (grown : s'.pending = s.pending ++ [m])
      (called : ∀ status, s.producer.Status status → status = .called (.push m))
      (result : s'.producer = .writePipe m)
  | ret (same : s'.pending = s.pending)
      (done : ∀ status, s.producer.Status status → status = .done (.pushed 0))
      (inside : s.producer.isBetween = false) (result : s'.producer = .ret 0)

/-- What a step of the consumer means for its call. -/
inductive PopMove (c : Config) (s s' : State) : Prop
  | silent (same : s'.pending = s.pending)
      (keeps : ∀ status, s.PopStatus c status → s'.PopStatus c status)
      (inside : s.consumer.isBetween = true ∨ s'.consumer.isBetween = false)
  | empty (drained : s.pending = []) (same : s'.pending = s.pending)
      (called : ∀ status, s.PopStatus c status → status = .called .pop)
      (inside : s.consumer.isBetween = false) (result : s'.consumer = .ret none)
  | take (m : Message) (first : s.pending = m :: s'.pending)
      (called : ∀ status, s.PopStatus c status → status = .called .pop)
      (curMb : Int) (held : s'.Held c curMb m) (result : s'.consumer = .finish curMb)
  | ret (same : s'.pending = s.pending) (curMb : Int)
      (done : ∀ status, s.PopStatus c status →
        status = .done (.popped (some (blockBytes s.memory curMb))))
      (inside : s.consumer.isBetween = false) (result : s'.consumer = .ret (some curMb))

/-- The atomic queue holds the blocks that are published and not released. -/
structure Follows (c : Config) (s : State) (a : AtomicQueue) : Prop where
  inv : Inv c s
  content : a.content = s.pending
  producer : s.producer.Status (a.status .producer)
  consumer : s.PopStatus c (a.status .consumer)

section Simulation

variable {c : Config} {s s' : State} {a : AtomicQueue}

theorem produce_move (count : s.popped ≤ s.published.length) : PushMove s (produce c s) := by
  cases pc : s.producer with
  | idle | ret | exited =>
      simp only [produce, pc]
      exact .silent rfl (fun _ status => status) (by simp [pc, PushPc.isBetween])
  | checkLength m =>
      simp only [produce, pc]
      split
      · exact .refuse m rfl (fun _ status => by rwa [pc] at status) (by rw [pc]; rfl) rfl
      · exact .silent rfl (fun _ status => by rwa [pc] at status) (.inr rfl)
  | readHeadPos m tailPos =>
      simp only [produce, pc]
      split
      · split
        · exact .silent rfl (fun _ status => ⟨m, by rwa [pc] at status⟩) (.inr rfl)
        · exact .silent rfl (fun _ status => by rwa [pc] at status) (.inr rfl)
      · exact .silent rfl (fun _ status => by rwa [pc] at status) (.inr rfl)
  | compareTail m headPos surplus =>
      simp only [produce, pc]
      split
      · exact .silent rfl (fun _ status => by rwa [pc] at status) (.inr rfl)
      · split <;> exact .silent rfl (fun _ status => by rwa [pc] at status) (.inr rfl)
  | waitHead m cnt tail =>
      simp only [produce, pc]
      split <;> exact .silent rfl (fun _ status => by rwa [pc] at status) (.inr rfl)
  | gapHead m cnt tail =>
      simp only [produce, pc]
      split
      · split
        · exact .refuse m rfl (fun _ status => by rwa [pc] at status) (by rw [pc]; rfl) rfl
        · exact .silent rfl (fun _ status => by rwa [pc] at status) (.inr rfl)
      · exact .silent rfl (fun _ status => by rwa [pc] at status) (.inr rfl)
  | copyHeader m nextMb =>
      simp only [produce, pc]
      refine .silent rfl (fun _ status => ?_) (.inr ?_)
      · rw [pc] at status
        simp only
        split <;> exact status
      · simp only
        split <;> rfl
  | storeHead m head =>
      simp only [produce, pc]
      exact .accept m (State.pending_append count m) (fun _ status => by rwa [pc] at status) rfl
  | writePipe m =>
      simp only [produce, pc]
      exact .ret rfl (fun _ status => by rwa [pc] at status) (by rw [pc]; rfl) rfl
  | readTailPos | resetTail | resetHead | padHead | padWrite | wrapHead | waitTail | gapTail | headMb
  | copyData | loadHead =>
      simp only [produce, pc]
      exact .silent rfl (fun _ status => by rwa [pc] at status) (.inr rfl)

def PopPc.Calls : PopPc → Prop
  | .idle | .ret _ | .finish _ => False
  | _ => True

theorem popStatus_iff (calls : s.consumer.Calls) (status : CallStatus QueueOp QueueResult) :
    s.PopStatus c status ↔ status = .called .pop := by
  unfold State.PopStatus
  cases pc : s.consumer <;> rw [pc] at calls <;> exact calls.elim

private theorem popMove_silent (before : s.consumer.Calls) (after : s'.consumer.Calls)
    (same : s'.pending = s.pending) : PopMove c s s' := by
  refine .silent same (fun status here => ?_) (.inr ?_)
  · rwa [popStatus_iff before, ← popStatus_iff after] at here
  · cases pc : s'.consumer <;> rw [pc] at after <;> first | exact after.elim | rfl

theorem consume_move (fits : c.Fits) (inv : Inv c s) : PopMove c s (consume c s) := by
  have delivered := consume_delivered fits inv
  have ok := inv.pop
  have drained : s.consumer ≠ .ret none → (consume c s).consumer = .ret none → s.pending = [] :=
    fun inside refused => List.drop_eq_nil_of_le (inv.popped_all inside refused).ge
  have calls (pc : s.consumer.Calls) : ∀ status, s.PopStatus c status → status = .called .pop :=
    fun status => (popStatus_iff pc status).mp
  cases pc : s.consumer with
  | idle | ret =>
      simp only [consume, pc]
      exact .silent rfl (fun _ status => status) (by simp [pc, PopPc.isBetween])
  | emptyHead tail | againHead tail =>
      simp only [consume, pc] at drained ⊢
      split
      · rename_i met
        exact .empty (drained PopPc.noConfusion (by rw [if_pos met])) rfl (calls (by rw [pc]; trivial))
          (by rw [pc]; rfl) rfl
      · exact popMove_silent (by rw [pc]; trivial) trivial rfl
  | storeTail curMb tail =>
      simp only [pc, PopOk] at ok
      obtain ⟨⟨m, rest, first, -⟩, -, -⟩ := ok
      simp only [consume, pc, Delivered] at delivered ⊢
      obtain ⟨taken, m', shape, -, held⟩ := delivered
      obtain ⟨remains, taken', -⟩ := State.pending_cons first
      rw [taken'] at shape
      obtain ⟨-, same⟩ := List.append_inj' shape rfl
      obtain rfl : m = m' := by simpa using same
      refine .take m ?_ (calls (by rw [pc]; trivial)) curMb held rfl
      rw [first]
      exact congrArg _ remains.symm
  | finish curMb =>
      simp only [consume, pc]
      refine .ret rfl curMb (fun status shown => ?_) (by rw [pc]; rfl) rfl
      rw [State.PopStatus, pc] at shown
      obtain ⟨m, held, done⟩ := shown
      rw [done, blockBytes_of_holds held.1]
  | alignTail | roomTail | padType =>
      simp only [consume, pc]
      split <;> exact popMove_silent (by rw [pc]; trivial) trivial rfl
  | emptyTail | alignHead | padTail | wrapTail | againTail | tailMb | headPos | loadTail =>
      simp only [consume, pc]
      exact popMove_silent (by rw [pc]; trivial) trivial rfl

/-! ## The simulation -/

/-- What the consumer shows is not touched by a step of the producer. -/
theorem popStatus_produce (fits : c.Fits) (inv : Inv c s) {status : CallStatus QueueOp QueueResult}
    (shown : s.PopStatus c status) : (produce c s).PopStatus c status := by
  have effect := (produce_effect fits inv).1
  unfold State.PopStatus at *
  rw [effect.consumer.1]
  cases pc : s.consumer <;> simp only [pc] at shown ⊢
  case finish curMb =>
      obtain ⟨m, held, status⟩ := shown
      exact ⟨m, effect.held held, status⟩
  all_goals exact shown

theorem PushPc.returns_inside {before after : PushPc}
    (inside : before.isBetween = true ∨ after.isBetween = false) : before.returns after = [] := by
  cases after with
  | ret result =>
      rcases inside with between | inside
      · exact if_pos between
      · cases inside
  | _ => rfl

theorem PopPc.returns_inside {before after : PopPc} (memory : Memory)
    (inside : before.isBetween = true ∨ after.isBetween = false) :
    before.returns memory after = [] := by
  cases after with
  | ret mb =>
      rcases inside with between | inside
      · exact if_pos between
      · cases inside
  | _ => rfl

private theorem follows_produce (fits : c.Fits) (follows : Follows c s a) :
    ∃ a', Shows Fifo a (events c s .produce) a' ∧ Follows c (produce c s) a' := by
  have inv := inv_step fits follows.inv .produce
  have consumer := popStatus_produce fits follows.inv follows.consumer
  have content := follows.content
  rw [events]
  cases produce_move (c := c) follows.inv.count with
  | silent same keeps inside =>
      refine ⟨a, ?_, inv, content.trans same.symm, keeps _ follows.producer, consumer⟩
      rw [PushPc.returns_inside inside]
      exact .refl
  | refuse m same called inside result =>
      have effect : Shows Fifo a [] _ := .effect .refl .producer (.push m) (.pushed (-1)) a.content
        (called _ follows.producer) (.refuse ..)
      rw [result, PushPc.returns, inside]
      refine ⟨_, effect.ret .producer (.pushed (-1)) AtomicObject.takeEffect_self, inv,
        content.trans same.symm, ?_, consumer⟩
      rw [result]
      exact AtomicObject.setStatus_self
  | accept m grown called result =>
      have effect : Shows Fifo a [] _ := .effect .refl .producer (.push m) (.pushed 0)
        (a.content ++ [m]) (called _ follows.producer) (.accept ..)
      rw [result]
      refine ⟨_, effect, inv, ?_, ?_, consumer⟩
      · exact (congrArg (· ++ [m]) content).trans grown.symm
      · rw [result]
        exact AtomicObject.takeEffect_self
  | ret same done inside result =>
      have ended : Shows Fifo a ([] ++ _) _ :=
        .ret .refl .producer (.pushed 0) (done _ follows.producer)
      rw [result, PushPc.returns, inside]
      refine ⟨_, ended, inv, content.trans same.symm, ?_, consumer⟩
      rw [result]
      exact AtomicObject.setStatus_self

private theorem follows_consume (fits : c.Fits) (follows : Follows c s a) :
    ∃ a', Shows Fifo a (events c s .consume) a' ∧ Follows c (consume c s) a' := by
  have inv := inv_step fits follows.inv .consume
  have producer : (consume c s).producer.Status (a.status .producer) := by
    rw [(consume_producer c s).1]
    exact follows.producer
  have content := follows.content
  rw [events]
  cases consume_move fits follows.inv with
  | silent same keeps inside =>
      refine ⟨a, ?_, inv, content.trans same.symm, producer, keeps _ follows.consumer⟩
      rw [PopPc.returns_inside s.memory inside]
      exact .refl
  | empty drained same called inside result =>
      have allowed : Fifo a.content .pop (.popped none) a.content := by
        rw [content, drained]
        exact .empty
      have effect : Shows Fifo a [] _ := .effect .refl .consumer .pop (.popped none) a.content
        (called _ follows.consumer) allowed
      rw [result, PopPc.returns, inside]
      refine ⟨_, effect.ret .consumer (.popped none) AtomicObject.takeEffect_self, inv,
        content.trans same.symm, producer, ?_⟩
      rw [State.PopStatus, result]
      exact AtomicObject.setStatus_self
  | take m first called curMb held result =>
      have allowed : Fifo a.content .pop (.popped (some m.bytes)) (consume c s).pending := by
        rw [content, first]
        exact .take ..
      have effect : Shows Fifo a [] _ := .effect .refl .consumer .pop (.popped (some m.bytes))
        (consume c s).pending (called _ follows.consumer) allowed
      rw [result]
      refine ⟨_, effect, inv, rfl, producer, ?_⟩
      rw [State.PopStatus, result]
      exact ⟨m, held, AtomicObject.takeEffect_self⟩
  | ret same curMb done inside result =>
      have ended : Shows Fifo a ([] ++ _) _ := .ret .refl .consumer _ (done _ follows.consumer)
      rw [result, PopPc.returns, inside]
      refine ⟨_, ended, inv, content.trans same.symm, producer, ?_⟩
      rw [State.PopStatus, result]
      exact AtomicObject.setStatus_self

theorem callPush_eq (between : s.producer.isBetween = true) (message : Message) :
    callPush s message = { s with producer := .checkLength message } := by
  unfold callPush
  cases pc : s.producer <;> rw [pc] at between <;> first | rfl | cases between

private theorem callPush_inside (inside : ¬ s.producer.isBetween = true) (message : Message) :
    callPush s message = s := by
  unfold callPush
  cases pc : s.producer <;> rw [pc] at inside <;> first | rfl | exact absurd rfl inside

theorem callPop_eq (between : s.consumer.isBetween = true) :
    callPop s = { s with consumer := .emptyTail } := by
  unfold callPop
  cases pc : s.consumer <;> rw [pc] at between <;> first | rfl | cases between

private theorem callPop_inside (inside : ¬ s.consumer.isBetween = true) : callPop s = s := by
  unfold callPop
  cases pc : s.consumer <;> rw [pc] at inside <;> first | rfl | exact absurd rfl inside

private theorem follows_step (fits : c.Fits) (follows : Follows c s a) (action : Action) :
    ∃ a', Shows Fifo a (events c s action) a' ∧ Follows c (step c s action) a' := by
  have inv := inv_step fits follows.inv action
  cases action with
  | produce => exact follows_produce fits follows
  | consume => exact follows_consume fits follows
  | push message =>
      rw [events]
      split
      · rename_i between
        have idle : a.status .producer = .idle := by
          have status := follows.producer
          cases pc : s.producer <;> rw [pc] at between status <;> first | exact status | cases between
        have called : Shows Fifo a ([] ++ _) _ := .call .refl .producer (.push message) idle
        rw [step, callPush_eq between] at inv ⊢
        exact ⟨_, called, inv, follows.content, AtomicObject.setStatus_self, follows.consumer⟩
      · rename_i inside
        rw [step, callPush_inside inside]
        exact ⟨a, .refl, follows⟩
  | pop =>
      rw [events]
      split
      · rename_i between
        have idle : a.status .consumer = .idle := by
          have status := follows.consumer
          unfold State.PopStatus at status
          cases pc : s.consumer <;> rw [pc] at between status <;> first | exact status | cases between
        have called : Shows Fifo a ([] ++ _) _ := .call .refl .consumer .pop idle
        rw [step, callPop_eq between] at inv ⊢
        exact ⟨_, called, inv, follows.content, follows.producer, AtomicObject.setStatus_self⟩
      · rename_i inside
        rw [step, callPop_inside inside]
        exact ⟨a, .refl, follows⟩

end Simulation

/-- In every interleaving of the accesses of one producer and one consumer, `shmq_push` and
`shmq_pop` behave as if each took effect at one moment of the call on a queue of blocks. -/
theorem shmq_is_atomic (c : Config) (sized : c.Sized) (actions : List Action) :
    Linearizable Fifo [] (trace (step c) (events c) init actions) := by
  have initial : Follows c init ⟨[], fun _ => .idle⟩ := ⟨inv_init sized.fits, rfl, rfl, rfl⟩
  exact linearizable_of_simulation (step c) (events c) (Follows c)
    (fun _ action _ follows => follows_step sized.fits follows action) initial actions

/-- A pop that is called before the push of a block has returned, and returns the block. -/
def overlapping : List Action :=
  .push (.control 7 3 closeBlock closeBlock_ne_padBlock) :: List.replicate 9 .produce ++
    .pop :: List.replicate 11 .consume

theorem shmq_is_atomic_overlapping :
    Linearizable Fifo [] (trace (step ⟨64, 16⟩) (events ⟨64, 16⟩) init overlapping) :=
  shmq_is_atomic ⟨64, 16⟩ ⟨by decide, by decide, by decide⟩ overlapping

end MpNet.Shmq
