import MpNet.Shmq.Reachable

/-!
# The shared queue is a FIFO under every interleaving

Blocks come out in the order of the head updates, byte for byte; -1 from
`shmq_pop` means an empty queue and -1 from `shmq_push` leaves the content alone;
a returned block stays as it is until the next `shmq_pop`.
-/

set_option autoImplicit false

namespace MpNet.Shmq

open Library

variable {c : Config} {s : State}

def Action.NoPush : Action → Prop
  | .push _ => False
  | _ => True

def Action.NoPop : Action → Prop
  | .pop => False
  | _ => True

private theorem Inv.returned_prefix (inv : Inv c s) :
    s.returned <+: s.published.map Message.bytes := by
  have delivered := inv.delivered
  have taken : (s.published.take s.popped).map Message.bytes <+: s.published.map Message.bytes :=
    (List.take_prefix ..).map _
  unfold Delivered at delivered
  split at delivered
  · obtain ⟨first, message, shape, bytes, _⟩ := delivered
    rw [shape] at taken
    rw [bytes]
    exact ((List.prefix_append ..).map _).trans taken
  · obtain ⟨first, message, shape, bytes, _⟩ := delivered
    rwa [bytes, ← shape]
  · rwa [delivered]

/-- `shmq_pop` returns -1 from a step that reads `head` equal to `tail`. -/
theorem Inv.popped_all (inv : Inv c s) (inside : s.consumer ≠ .ret none)
    (refused : (consume c s).consumer = .ret none) : s.popped = s.published.length := by
  have ok := inv.pop
  have met : s.tail = s.head := by
    cases pc : s.consumer <;> simp only [pc, PopOk, consume] at ok refused
    case emptyHead tail =>
        split at refused
        · exact ok ▸ ‹_›
        · cases refused
    case againHead tail =>
        split at refused
        · exact ok.1 ▸ ‹_›
        · cases refused
    case ret mb => exact absurd (pc.trans refused) inside
    case alignTail | roomTail | padType => split at refused <;> cases refused
    all_goals cases refused
  have ring := inv.ring
  rw [met] at ring
  have none := ring.empty
  have count := inv.count
  have := List.drop_eq_nil_iff.mp none
  omega

/-! ## A refused push -/

/-- Either nothing was published in this call, or the call is about to return 0. -/
def KeepsOrAccepts (base : List Message) (s : State) : Prop :=
  s.published = base ∨ s.producer = .ret 0 ∨ ∃ message, s.producer = .writePipe message

private theorem produce_published {base : List Message} (kept : KeepsOrAccepts base s) :
    KeepsOrAccepts base (produce c s) := by
  rcases kept with same | returned | ⟨message, writing⟩
  · cases pc : s.producer <;> simp only [produce, pc]
    case storeHead message head => exact .inr (.inr ⟨message, rfl⟩)
    case copyHeader => exact .inl same
    case writePipe => exact .inr (.inl rfl)
    case checkLength | waitHead => split <;> exact .inl same
    case readHeadPos | compareTail | gapHead => split <;> (try split) <;> exact .inl same
    all_goals exact .inl same
  · simp only [produce, returned]
    exact .inr (.inl returned)
  · simp only [produce, writing]
    exact .inr (.inl rfl)

theorem consume_producer (c : Config) (s : State) :
    (consume c s).producer = s.producer ∧ (consume c s).published = s.published := by
  unfold consume
  split <;> (try split) <;> exact ⟨rfl, rfl⟩

theorem callPop_producer (s : State) :
    (callPop s).producer = s.producer ∧ (callPop s).published = s.published := by
  unfold callPop
  split <;> exact ⟨rfl, rfl⟩

private theorem step_published {base : List Message} {action : Action} (noPush : action.NoPush)
    (kept : KeepsOrAccepts base s) : KeepsOrAccepts base (step c s action) := by
  cases action with
  | push => exact noPush.elim
  | produce => exact produce_published kept
  | pop =>
      obtain ⟨producer, same⟩ := callPop_producer s
      simpa only [step, KeepsOrAccepts, producer, same] using kept
  | consume =>
      obtain ⟨producer, same⟩ := consume_producer c s
      simpa only [step, KeepsOrAccepts, producer, same] using kept

private theorem run_published {base : List Message} {rest : List Action}
    (noPush : ∀ action ∈ rest, action.NoPush) (kept : KeepsOrAccepts base s) :
    KeepsOrAccepts base (run (step c) s rest) := by
  induction rest generalizing s with
  | nil => exact kept
  | cons action rest ih =>
      exact ih (fun other member => noPush other (.tail _ member))
        (step_published (noPush action (.head _)) kept)

theorem KeepsOrAccepts.refused {base : List Message} (kept : KeepsOrAccepts base s)
    (refused : s.producer = .ret (-1)) : s.published = base := by
  rcases kept with same | returned | ⟨message, writing⟩
  · exact same
  · rw [refused] at returned
    cases returned
  · rw [refused] at writing
    cases writing

private theorem callPush_published (s : State) (message : Message) :
    (callPush s message).published = s.published := by
  unfold callPush
  split <;> rfl

/-! ## Main results -/

/-- One producer and one consumer, in any interleaving of their accesses: the
returned blocks are a prefix of the published ones, header and payload bytes
included, and none is a padding block; a step that makes `shmq_pop` return -1
finds every published block popped; and a call of `shmq_push` that returns -1
has published nothing, with the ring still holding what was there before, up to
what the consumer has popped meanwhile. -/
theorem shmq_fifo (c : Config) (sized : c.Sized) (actions : List Action) :
    let s := run (step c) init actions
    s.returned <+: s.published.map Message.bytes ∧
      (∀ block ∈ s.returned, block[12]? ≠ some padBlock) ∧
      (s.consumer ≠ .ret none → (step c s .consume).consumer = .ret none →
        s.popped = s.published.length) ∧
      ∀ (message : Message) (rest : List Action),
        (s.producer = .idle ∨ ∃ result, s.producer = .ret result) →
        (∀ action ∈ rest, action.NoPush) →
        let s' := run (step c) (step c s (.push message)) rest
        s'.producer = .ret (-1) →
          s'.published = s.published ∧
            Ring c s'.memory s'.head s'.tail (s.published.drop s'.popped) := by
  intro s
  have inv : Inv c s := inv_run sized.fits actions
  refine ⟨inv.returned_prefix, ?_, inv.popped_all, ?_⟩
  · intro block member
    obtain ⟨message, _, rfl⟩ := List.mem_map.mp (inv.returned_prefix.subset member)
    exact message.bytes_type
  · intro message rest _ noPush s' refused
    have called : KeepsOrAccepts s.published (step c s (.push message)) :=
      .inl (callPush_published s message)
    have same := (run_published noPush called).refused refused
    have later : Inv c s' :=
      run_preserves (Inv c) (fun _ action inv => inv_step sized.fits inv action)
        (inv_step sized.fits inv (.push message)) rest
    exact ⟨same, same ▸ later.ring⟩

def PushPc.result : PushPc → Option Int
  | .ret result => some result
  | _ => none

theorem PushPc.eq_ret {pc : PushPc} {result : Int} (ended : pc.result = some result) :
    pc = .ret result := by
  cases pc with
  | ret other => rw [Option.some.inj ended]
  | _ => cases ended

def pushes (message : Message) : List Action := .push message :: List.replicate 53 .produce

def pops : List Action := .pop :: List.replicate 16 .consume

/-- The blocks are pushed, and one is popped. -/
def filled (blocks : List Message) : List Action := blocks.flatMap pushes ++ pops

/-- The fourth block does not fit behind the third. It is refused, and fits once two more
are popped. -/
theorem shmq_fifo_wraps :
    let blocks := [Message.control 1 3 openBlock (by decide),
      .make 2 3 dataBlock [1, 2, 3] (by decide) (by decide),
      .control 3 3 finBlock (by decide)]
    let fourth := Message.make 4 3 dataBlock [4, 5, 6] (by decide) (by decide)
    let s := run (step ⟨64, 16⟩) init (filled blocks)
    let refused := run (step ⟨64, 16⟩) (step ⟨64, 16⟩ s (.push fourth)) (List.replicate 53 .produce)
    let whole := filled blocks ++ pushes fourth ++ pops ++ pops ++ pushes fourth ++ pops
    (refused.producer = .ret (-1) ∧ refused.published = s.published ∧
      Ring ⟨64, 16⟩ refused.memory refused.head refused.tail
        (s.published.drop refused.popped)) ∧
    (run (step ⟨64, 16⟩) init whole).returned.length = 4 ∧
      (run (step ⟨64, 16⟩) init whole).returned <+:
        (run (step ⟨64, 16⟩) init whole).published.map Message.bytes := by
  intro blocks fourth s refused whole
  have sized : Config.Sized ⟨64, 16⟩ := ⟨by decide, by decide, by decide⟩
  have idle : s.producer = .ret 0 := PushPc.eq_ret (by decide +kernel)
  have returned : refused.producer = .ret (-1) := PushPc.eq_ret (by decide +kernel)
  refine ⟨⟨returned, (shmq_fifo ⟨64, 16⟩ sized (filled blocks)).2.2.2 fourth _ (.inr ⟨0, idle⟩) ?_
      returned⟩,
    by decide +kernel, (shmq_fifo ⟨64, 16⟩ sized whole).1⟩
  intro action member
  rw [List.eq_of_mem_replicate member]
  trivial

/-! ## A popped block stays valid -/

/-- A step of the producer changes no byte outside the range it declares. -/
theorem produce_memory (c : Config) (s : State) {position : Int}
    (outside : ∀ address count, produceWrites s = some (address, count) →
      position < address ∨ address + count ≤ position) :
    (produce c s).memory position = s.memory position := by
  unfold produceWrites at outside
  unfold produce
  cases pc : s.producer with
  | padWrite message surplus pad =>
      rw [pc] at outside
      exact writePad_onlyAt s.memory pad surplus position (outside pad sizeofShmBlock rfl)
  | copyHeader message nextMb =>
      rw [pc] at outside
      exact Memory.write_of_outside (by simpa using outside nextMb sizeofShmBlock rfl)
  | copyData message nextMb =>
      rw [pc] at outside
      exact Memory.write_of_outside (outside _ _ rfl)
  | checkLength | readHeadPos | compareTail | waitHead | gapHead => simp only; split_ifs <;> rfl
  | _ => rfl

/-- The range written next avoids a block that the consumer holds. -/
theorem Inv.write_apart (inv : Inv c s) {curMb : Int} {message : Message}
    (held : s.Held c curMb message) {address count : Int}
    (writes : produceWrites s = some (address, count)) :
    address + count ≤ curMb ∨ curMb + message.size ≤ address := by
  obtain ⟨_, released, size⟩ := held
  have ok := inv.push
  unfold produceWrites at writes
  cases pc : s.producer <;> simp only [pc, PushOk, reduceCtorEq, Option.some.injEq,
    Prod.mk.injEq] at ok writes
  case padWrite =>
      obtain ⟨rfl, rfl⟩ := writes
      obtain ⟨_, wrappable, _, _, rfl⟩ := ok
      have := wrappable.2
      omega
  case copyHeader m nextMb =>
      obtain ⟨rfl, rfl⟩ := writes
      obtain ⟨writable, rfl⟩ := ok
      have := writable.2.2
      have := m.size_ge
      simp only [sizeofShmBlock]
      omega
  case copyData m nextMb =>
      obtain ⟨rfl, rfl⟩ := writes
      obtain ⟨writable, rfl, _⟩ := ok
      have := writable.2.2
      have := m.data_length
      simp only [sizeofShmBlock]
      omega

private theorem step_held (fits : c.Fits) (inv : Inv c s) {curMb : Int} {message : Message}
    (returned : s.consumer = .ret (some curMb)) (held : s.Held c curMb message) {action : Action}
    (noPop : action.NoPop) :
    (step c s action).consumer = .ret (some curMb) ∧ (step c s action).Held c curMb message := by
  cases action with
  | pop => exact noPop.elim
  | push =>
      simp only [step, callPush]
      split <;> exact ⟨returned, held⟩
  | produce =>
      have effect := (produce_effect fits inv).1
      exact ⟨effect.consumer.1.trans returned, effect.held held⟩
  | consume =>
      simp only [step, consume, returned]
      exact ⟨trivial, held⟩

private theorem run_held (fits : c.Fits) (inv : Inv c s) {curMb : Int} {message : Message}
    (returned : s.consumer = .ret (some curMb)) (held : s.Held c curMb message)
    {rest : List Action} (noPop : ∀ action ∈ rest, action.NoPop) :
    Inv c (run (step c) s rest) ∧ (run (step c) s rest).Held c curMb message := by
  induction rest generalizing s with
  | nil => exact ⟨inv, held⟩
  | cons action rest ih =>
      obtain ⟨later, kept⟩ := step_held fits inv returned held (noPop action (.head _))
      exact ih (inv_step fits inv action) later kept fun other member => noPop other (.tail _ member)

/-- From the moment `shmq_pop` returns a block until the next call of `shmq_pop`,
whatever the producer does, no step of it writes into the block, and the block
still reads the same. -/
theorem popped_block_stays (c : Config) (sized : c.Sized) (actions rest : List Action)
    (curMb : Int) (returned : (run (step c) init actions).consumer = .ret (some curMb))
    (noPop : ∀ action ∈ rest, action.NoPop) :
    let s := run (step c) init actions
    let s' := run (step c) s rest
    (∀ address count, produceWrites s' = some (address, count) →
        address + count ≤ curMb ∨ curMb + blockLength s.memory curMb ≤ address) ∧
      Memory.Agree s.memory s'.memory curMb (curMb + blockLength s.memory curMb) := by
  intro s s'
  have inv : Inv c s := inv_run sized.fits actions
  have delivered := inv.delivered
  rw [returned] at delivered
  obtain ⟨_, message, _, _, held⟩ := delivered
  obtain ⟨later, kept⟩ := run_held sized.fits inv returned held noPop
  rw [blockLength_of_holds held.1]
  refine ⟨fun address count writes => later.write_apart kept writes, ?_⟩
  intro position low high
  have length := message.bytes_length
  have before := Memory.holds_iff.mp held.1 (position - curMb).toNat (by omega)
  have after := Memory.holds_iff.mp kept.1 (position - curMb).toNat (by omega)
  rw [Int.toNat_of_nonneg (by omega), add_sub_cancel] at before after
  exact after.trans before.symm

/-- One block pushed and popped without interleaving: ten steps of the producer,
eleven of the consumer. -/
def roundTrip : List Action :=
  .push (.control 7 3 closeBlock (by decide)) :: List.replicate 10 .produce ++
    .pop :: List.replicate 11 .consume

theorem popped_block_stays_roundTrip :
    let s := run (step ⟨64, 16⟩) init roundTrip
    let s' := run (step ⟨64, 16⟩) s
      (.push (.control 8 4 closeBlock (by decide)) :: List.replicate 10 .produce)
    Memory.Agree s.memory s'.memory 8 (8 + blockLength s.memory 8) :=
  (popped_block_stays ⟨64, 16⟩ ⟨by decide, by decide, by decide⟩ roundTrip
    (.push (.control 8 4 closeBlock (by decide)) :: List.replicate 10 .produce) 8 rfl
    (by simp [Action.NoPop])).2

end MpNet.Shmq
