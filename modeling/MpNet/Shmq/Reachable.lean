import MpNet.Shmq.Invariant

/-!
# The invariant survives every interleaving

Each side's assertions are stable under the effects of the other side; with the
effect lemmas this makes `Inv` an invariant of every run.
-/

set_option autoImplicit false

namespace MpNet.Shmq

open Library

variable {c : Config} {s s' : State}

theorem State.pending_append (count : s.popped ≤ s.published.length) (message : Message) :
    (s.published ++ [message]).drop s.popped = s.pending ++ [message] :=
  List.drop_append_of_le_length count

/-- Releasing the first pending message extends what has been taken. -/
theorem State.pending_cons {message : Message} {rest : List Message}
    (first : s.pending = message :: rest) :
    s.published.drop (s.popped + 1) = rest ∧
      s.published.take (s.popped + 1) = s.published.take s.popped ++ [message] ∧
      s.popped + 1 ≤ s.published.length := by
  unfold State.pending at first
  have inside : s.popped < s.published.length := by
    by_contra outside
    rw [List.drop_eq_nil_of_le (by omega)] at first
    cases first
  rw [List.drop_eq_getElem_cons inside] at first
  obtain ⟨here, there⟩ := List.cons.inj first
  exact ⟨there, by rw [List.take_succ_eq_append_getElem inside, here], inside⟩

/-! ## Stability under the producer -/

namespace ProduceEffect

theorem ring (effect : ProduceEffect c s s') (page : 0 < c.pageSize) (inv : Inv c s) :
    Ring c s'.memory s'.head s'.tail s'.pending := by
  cases effect with
  | quiet => exact inv.ring
  | store _ memory count clear only => exact inv.ring.store clear page only
  | wrap _ wrappable marked => exact inv.ring.wrap wrappable.2 wrappable.1 marked
  | publish _ message writable holds =>
      have published := inv.ring.publish writable.2 page holds
      rwa [← State.pending_append inv.count message] at published

theorem apart (effect : ProduceEffect c s s') (page : 0 < c.pageSize)
    (apart : s.tail ≠ s.head) : s'.tail ≠ s'.head := by
  cases effect with
  | quiet | store => exact apart
  | wrap _ wrappable _ => exact wrappable.1.ne'
  | publish _ message writable _ =>
      have size := message.size_ge
      have clear := writable.2.2
      simp only
      omega

theorem below (effect : ProduceEffect c s s') (page : 0 < c.pageSize)
    (below : s.head < s.tail) : s'.head < s'.tail := by
  cases effect with
  | quiet | store => exact below
  | wrap _ wrappable _ => exact wrappable.1
  | publish _ message writable _ =>
      have clear := writable.2.2
      simp only
      omega

theorem front (effect : ProduceEffect c s s') (page : 0 < c.pageSize)
    (count : s.popped ≤ s.published.length) (front : s.front c) : s'.front c := by
  obtain ⟨m, rest, first, holds, room, inside⟩ := front
  have size := m.size_ge
  have length := m.bytes_length
  cases effect with
  | quiet => exact ⟨m, rest, first, holds, room, inside⟩
  | store _ memory written clear only =>
      have free := clear.2
      exact ⟨m, rest, first, holds.agree fun position _ _ => only position (by omega), room, inside⟩
  | wrap _ wrappable _ => exact ⟨m, rest, first, holds, room, .inl wrappable.1⟩
  | publish _ message writable _ =>
      have free := writable.2.2
      have size' := message.size_ge
      refine ⟨m, rest ++ [message], ?_, holds, room, by simp only; omega⟩
      exact (State.pending_append count message).trans (by rw [first]; rfl)

theorem atMark (effect : ProduceEffect c s s') (page : 0 < c.pageSize)
    (count : s.popped ≤ s.published.length) (atMark : s.atMark) : s'.atMark := by
  refine ⟨effect.below page atMark.1, ?_⟩
  cases effect with
  | quiet => exact atMark.2
  | store _ memory written clear only =>
      exact atMark.2.agree fun position _ below => only position (.inl below)
  | wrap _ wrappable _ =>
      have := atMark.1
      have := wrappable.2
      omega
  | publish _ message _ holds =>
      have laid := atMark.2.concat holds
      rwa [← State.pending_append count message] at laid

/-- No step of the producer touches the block that the consumer still reads. -/
theorem held (effect : ProduceEffect c s s') {curMb : Int} {message : Message}
    (held : s.Held c curMb message) : s'.Held c curMb message := by
  obtain ⟨holds, released, size⟩ := held
  cases effect with
  | quiet | wrap | publish => exact ⟨holds, released, size⟩
  | store _ memory count clear only =>
      have free := clear.2
      have length := message.bytes_length
      exact ⟨holds.agree fun position _ _ => only position (by omega), released, size⟩

theorem tail (effect : ProduceEffect c s s') : s'.tail = s.tail := by cases effect <;> rfl

theorem consumer (effect : ProduceEffect c s s') :
    s'.consumer = s.consumer ∧ s'.popped = s.popped ∧ s'.returned = s.returned := by
  cases effect <;> exact ⟨rfl, rfl, rfl⟩

private theorem popOk (effect : ProduceEffect c s s') (page : 0 < c.pageSize) (inv : Inv c s) :
    PopOk c s' s'.consumer := by
  have ok := inv.pop
  have tail := effect.tail
  have front := effect.front page inv.count
  rw [effect.consumer.1]
  cases pc : s.consumer <;> simp only [pc, PopOk, tail] at ok ⊢
  case emptyHead => exact ok
  case alignHead => exact tail ▸ effect.apart page ok
  case alignTail => exact ⟨fun straight => front (ok.1 straight), fun wrapped =>
    tail ▸ effect.below page (ok.2 wrapped)⟩
  case padTail => exact tail ▸ effect.below page ok
  case roomTail => exact ⟨tail ▸ effect.below page ok.1, ok.2⟩
  case padType => exact ⟨tail ▸ effect.below page ok.1, ok.2⟩
  case wrapTail => exact effect.atMark page inv.count ok
  case againTail => exact ok.imp_left front
  case againHead => exact ⟨ok.1, ok.2.imp_left front⟩
  case tailMb => exact front ok
  case headPos | loadTail | storeTail => exact ⟨front ok.1, ok.2⟩

theorem delivered (effect : ProduceEffect c s s') (inv : Inv c s) :
    Delivered c s' s'.consumer := by
  have delivered := inv.delivered
  obtain ⟨consumer, popped, returned⟩ := effect.consumer
  have taken : s'.published.take s'.popped = s.published.take s.popped := by
    cases effect with
    | quiet | store | wrap => rfl
    | publish => exact List.take_append_of_le_length inv.count
  rw [consumer]
  unfold Delivered at *
  rw [taken, returned]
  split at delivered
  · obtain ⟨first, message, shape, bytes, held⟩ := delivered
    exact ⟨first, message, shape, bytes, effect.held held⟩
  · obtain ⟨first, message, shape, bytes, held⟩ := delivered
    exact ⟨first, message, shape, bytes, effect.held held⟩
  · exact delivered

theorem inv (effect : ProduceEffect c s s') (page : 0 < c.pageSize) (inv : Inv c s)
    (push : PushOk c s' s'.producer) : Inv c s' where
  ring := effect.ring page inv
  bounded := by
    cases effect with
    | quiet | store | wrap => exact inv.bounded
    | publish _ message writable _ =>
        intro other member
        rcases List.mem_append.mp member with old | new
        · exact inv.bounded other old
        · exact List.mem_singleton.mp new ▸ writable.1
  count := by
    have count := inv.count
    cases effect with
    | quiet | store | wrap => exact count
    | publish =>
        simp only [List.length_append]
        omega
  push := push
  pop := effect.popOk page inv
  delivered := effect.delivered inv

end ProduceEffect

/-! ## Stability under the consumer -/

namespace ConsumeEffect

theorem ring (effect : ConsumeEffect c s s') (inv : Inv c s) :
    Ring c s'.memory s'.head s'.tail s'.pending := by
  cases effect with
  | quiet | finish => exact inv.ring
  | unwrap _ atMark => exact inv.ring.unwrap atMark
  | pop message rest first holds room _ =>
      have released := (first ▸ inv.ring).pop holds room
      rwa [← (State.pending_cons first).1] at released

theorem same (effect : ConsumeEffect c s s') :
    s'.memory = s.memory ∧ s'.head = s.head ∧ s'.published = s.published ∧
      s'.producer = s.producer := by
  cases effect <;> exact ⟨rfl, rfl, rfl, rfl⟩

/-- The consumer only gives room. -/
theorem clear (effect : ConsumeEffect c s s') (low : 8 ≤ s.head) {count : Int}
    (clear : Clear c s.head s.tail count) : Clear c s'.head s'.tail count := by
  obtain ⟨room, free⟩ := clear
  cases effect with
  | quiet | finish => exact ⟨room, free⟩
  | unwrap => exact ⟨room, .inl low⟩
  | pop message _ _ _ _ inside =>
      have size := message.size_ge
      exact ⟨room, by simp only; omega⟩

/-- In an unwrapped ring `tail` moves forward, up to `head`. -/
theorem straight (effect : ConsumeEffect c s s') (straight : s.tail ≤ s.head) :
    s.tail ≤ s'.tail ∧ s'.tail ≤ s'.head := by
  cases effect with
  | quiet | finish => exact ⟨le_rfl, straight⟩
  | unwrap _ atMark =>
      have := atMark.1
      omega
  | pop message _ _ _ _ inside =>
      have size := message.size_ge
      simp only
      omega

theorem wrappable (effect : ConsumeEffect c s s') (wrappable : s.Wrappable) : s'.Wrappable := by
  have moved := effect.straight wrappable.2
  exact ⟨wrappable.1.trans_le moved.1, moved.2⟩

private theorem pushOk (effect : ConsumeEffect c s s') (inv : Inv c s) :
    PushOk c s' s'.producer := by
  have ok := inv.push
  obtain ⟨memory, head, _, producer⟩ := effect.same
  have low := inv.ring.low
  have clear : ∀ count, Clear c s.head s.tail count → Clear c s'.head s'.tail count :=
    fun _ room => effect.clear low.2 room
  have straight := effect.straight
  have wrappable := effect.wrappable
  rw [producer]
  cases pc : s.producer <;>
    simp only [pc, PushOk, State.Fitting, State.Writable, memory, head] at ok straight clear ⊢
  case ret => exact ok
  case readTailPos => exact ok
  case readHeadPos =>
      refine ⟨ok.1, ok.2.1, ok.2.2.imp_right fun order => ?_⟩
      have := straight order.2
      omega
  case compareTail => exact ⟨ok.1, wrappable ok.2.1, ok.2.2⟩
  case padHead => exact ⟨ok.1, wrappable ok.2.1, ok.2.2⟩
  case padWrite => exact ⟨ok.1, wrappable ok.2.1, ok.2.2⟩
  case wrapHead => exact ⟨ok.1, wrappable ok.2.1, ok.2.2⟩
  case waitTail | gapTail => exact ok
  case waitHead =>
      exact ⟨ok.1, ok.2.1, fun order => (straight (ok.2.2 order)).2⟩
  case gapHead =>
      obtain ⟨fitting, tries, upper, lower, room⟩ := ok
      exact ⟨fitting, tries, upper, lower, fun order => clear _ (room order)⟩
  case headMb => exact ⟨ok.1, clear _ ok.2⟩
  case copyHeader | copyData | loadHead | storeHead =>
      exact ⟨⟨ok.1.1, clear _ ok.1.2⟩, ok.2⟩

theorem count (effect : ConsumeEffect c s s') (inv : Inv c s) :
    s'.popped ≤ s'.published.length := by
  cases effect with
  | quiet | unwrap | finish => exact inv.count
  | pop _ _ first => exact (State.pending_cons first).2.2

end ConsumeEffect

/-- The consumer's own history follows its own steps. -/
theorem consume_delivered (fits : c.Fits) (inv : Inv c s) :
    Delivered c (consume c s) (consume c s).consumer := by
  have delivered := inv.delivered
  have ok := inv.pop
  cases pc : s.consumer <;> simp only [pc, PopOk, consume] at ok ⊢ <;>
    simp only [pc, Delivered] at delivered
  case storeTail curMb tail =>
      obtain ⟨⟨m, rest, first, holds, room, inside⟩, rfl, rfl⟩ := ok
      have size := m.size_ge
      have high := fits.length_lt
      have low := inv.ring.low
      have member : m ∈ s.published := List.mem_of_mem_drop (first ▸ List.mem_cons_self)
      rw [blockLength_of_holds holds, i32_of_range (by omega) (by omega)]
      exact ⟨s.published.take s.popped, m, (State.pending_cons first).2.1, delivered, holds, rfl,
        inv.bounded m member⟩
  case finish curMb =>
      obtain ⟨taken, m, shape, bytes, held⟩ := delivered
      refine ⟨taken, m, shape, ?_, held⟩
      simp only [bytes, blockBytes_of_holds held.1, List.map_append, List.map_cons, List.map_nil]
  case emptyHead | alignTail | roomTail | padType | againHead => split <;> exact delivered
  all_goals exact delivered

theorem inv_step (fits : c.Fits) (inv : Inv c s) (action : Action) : Inv c (step c s action) := by
  have page : 0 < c.pageSize := by have := fits.page; omega
  cases action with
  | push message =>
      simp only [step, callPush]
      split
      · exact { inv with push := trivial }
      · exact { inv with push := trivial }
      · exact inv
  | pop =>
      have delivered := inv.delivered
      simp only [step, callPop]
      split
      · rename_i pc
        rw [pc] at delivered
        exact { inv with pop := trivial, delivered := delivered }
      · rename_i pc
        rw [pc] at delivered
        refine { inv with pop := trivial, delivered := ?_ }
        unfold Delivered at delivered
        split at delivered
        · contradiction
        · obtain ⟨taken, message, shape, bytes, _⟩ := delivered
          simpa [Delivered, shape] using bytes
        · exact delivered
      · exact inv
  | produce =>
      obtain ⟨effect, push⟩ := produce_effect fits inv
      exact effect.inv page inv push
  | consume =>
      obtain ⟨effect, pop⟩ := consume_effect fits inv
      exact {
        ring := effect.ring inv
        bounded := effect.same.2.2.1 ▸ inv.bounded
        count := effect.count inv
        push := effect.pushOk inv
        pop := pop
        delivered := consume_delivered fits inv }

/-- Every state that an interleaving of the two sides reaches satisfies the invariant. -/
theorem inv_run (fits : c.Fits) (actions : List Action) : Inv c (run (step c) init actions) :=
  run_preserves (Inv c) (fun _ action inv => inv_step fits inv action) (inv_init fits) actions

end MpNet.Shmq
