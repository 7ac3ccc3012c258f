import MpNet.Shmq.Reachable

/-!
# Positions of the shared queue

`head`, `tail` and every block that either side touches stay inside the ring. A
wrapped `head` keeps a page away from `tail`, so the branch of `align_queue_head`
that throws the content away is never reached.
-/

set_option autoImplicit false

namespace MpNet.Shmq

open Library

variable {c : Config} {s : State}

/-- An access to `count` bytes stays behind the two positions and before the end. -/
def Inside (c : Config) (access : Option (Int × Int)) : Prop :=
  ∀ address count, access = some (address, count) →
    sizeofShmHead ≤ address ∧ address + count ≤ c.length

private theorem inside_none : Inside c none := by
  intro address count none
  cases none

private theorem inside_some {address count : Int} (low : sizeofShmHead ≤ address)
    (high : address + count ≤ c.length) : Inside c (some (address, count)) := by
  rintro _ _ ⟨⟩
  exact ⟨low, high⟩

private theorem Inv.writes_inside (inv : Inv c s) : Inside c (produceWrites s) := by
  have low := inv.ring.low
  have ok := inv.push
  unfold produceWrites
  split <;> rename_i pc <;> try exact inside_none
  · simp only [pc, PushOk] at ok
    obtain ⟨_, _, surplus, long, rfl⟩ := ok
    simp only [sizeofShmBlock]
    exact inside_some low.2 (by omega)
  · rename_i m _
    simp only [pc, PushOk] at ok
    obtain ⟨writable, rfl⟩ := ok
    have size := m.size_ge
    have room := writable.2.1
    simp only [sizeofShmBlock]
    exact inside_some low.2 (by omega)
  · rename_i m _
    simp only [pc, PushOk] at ok
    obtain ⟨writable, rfl, _⟩ := ok
    have length := m.data_length
    have room := writable.2.1
    simp only [sizeofShmBlock]
    refine inside_some ?_ (by omega)
    simp only [sizeofShmHead]
    omega

/-- The block that the caller of `shmq_pop` is about to read lies behind the two positions. -/
def State.Grasped (s : State) : Prop :=
  ∀ curMb, s.consumer = .finish curMb → sizeofShmHead ≤ curMb

private theorem consume_grasped (inv : Inv c s) : (consume c s).Grasped := by
  intro curMb finishing
  have low := inv.ring.low
  have ok := inv.pop
  cases pc : s.consumer <;> simp only [consume, pc] at finishing <;> simp only [pc, PopOk] at ok
  case storeTail mb tail =>
      cases finishing
      exact ok.2.1 ▸ low.1
  case emptyHead | alignTail | roomTail | padType | againHead => split at finishing <;> cases finishing
  all_goals cases finishing

private theorem run_grasped (fits : c.Fits) (actions : List Action) :
    (run (step c) init actions).Grasped := by
  refine (run_preserves (fun s => Inv c s ∧ s.Grasped) ?_ ⟨inv_init fits, ?_⟩ actions).2
  · rintro s action ⟨inv, grasped⟩
    refine ⟨inv_step fits inv action, ?_⟩
    intro curMb finishing
    cases action with
    | push message =>
        simp only [step, callPush] at finishing
        split at finishing <;> exact grasped curMb finishing
    | pop =>
        simp only [step, callPop] at finishing
        split at finishing
        · cases finishing
        · cases finishing
        · exact grasped curMb finishing
    | produce => exact grasped curMb ((produce_effect fits inv).1.consumer.1.symm.trans finishing)
    | consume => exact consume_grasped inv curMb finishing
  · intro curMb finishing
    cases finishing

private theorem Inv.reads_inside (inv : Inv c s) (grasped : s.Grasped) :
    Inside c (consumeReads s) := by
  have low := inv.ring.low
  have ok := inv.pop
  have delivered := inv.delivered
  have front : ∀ m : Message, s.memory.Holds s.tail m.bytes → s.tail + m.size ≤ c.length →
      Inside c (some (s.tail, (sizeofShmBlock : Int))) := by
    intro m _ room
    have size := m.size_ge
    simp only [sizeofShmBlock]
    exact inside_some low.1 (by omega)
  unfold consumeReads
  split <;> rename_i pc <;> simp only [pc, PopOk, Delivered] at ok delivered
  · obtain ⟨_, rfl, long⟩ := ok
    simp only [sizeofShmBlock]
    exact inside_some low.1 (by omega)
  · obtain ⟨⟨m, _, _, holds, room, _⟩, rfl⟩ := ok
    exact front m holds room
  · obtain ⟨⟨m, _, _, holds, room, _⟩, rfl, _⟩ := ok
    exact front m holds room
  · obtain ⟨_, m, _, _, holds, released, _⟩ := delivered
    have high := inv.ring.high
    rw [blockLength_of_holds holds]
    exact inside_some (grasped _ pc) (by omega)
  · exact inside_none

/-- In every state of every interleaving of calls of `shmq_push` and `shmq_pop`: both
positions stay between the header and the end, so do all blocks that the two sides
write and read, a `tail` above `head` is a page away unless `head` has just wrapped, and
no call stands in the branch that discards the content. -/
theorem queue_representation (c : Config) (sized : c.Sized) (actions : List Action) :
    let s := run (step c) init actions
    (sizeofShmHead ≤ s.head ∧ s.head ≤ c.length) ∧
      (sizeofShmHead ≤ s.tail ∧ s.tail ≤ c.length) ∧
      Inside c (produceWrites s) ∧ Inside c (consumeReads s) ∧
      (s.head < s.tail → s.head = sizeofShmHead ∨ c.pageSize ≤ s.tail - s.head) ∧
      ∀ message, s.producer ≠ .resetTail message ∧ s.producer ≠ .resetHead message := by
  intro s
  have inv : Inv c s := inv_run sized.fits actions
  have low := inv.ring.low
  have high := inv.ring.high
  refine ⟨⟨low.2, high.2⟩, ⟨low.1, high.1⟩, inv.writes_inside,
    inv.reads_inside (run_grasped sized.fits actions), ?_, ?_⟩
  · intro above
    rcases inv.ring.gap with straight | start | gap
    · omega
    · exact .inl start
    · exact .inr (by omega)
  · have ok := inv.push
    intro message
    constructor <;> intro pc <;> simp only [pc, PushOk] at ok

/-- A refused push leaves `head` at the start, 13 bytes before `tail`. -/
theorem queue_representation_wrapped :
    let message := Message.control 7 3 closeBlock (by decide)
    let call := .push message :: List.replicate 53 .produce
    let s := run (step ⟨40, 16⟩) init (call ++ call ++ (.pop :: List.replicate 12 .consume) ++ call)
    (s.head = sizeofShmHead ∧ s.tail = 21) ∧
      (sizeofShmHead ≤ s.head ∧ s.head ≤ 40) ∧ (sizeofShmHead ≤ s.tail ∧ s.tail ≤ 40) ∧
      Inside ⟨40, 16⟩ (produceWrites s) ∧ Inside ⟨40, 16⟩ (consumeReads s) ∧
      (s.head < s.tail → s.head = sizeofShmHead ∨ 16 ≤ s.tail - s.head) ∧
      ∀ message, s.producer ≠ .resetTail message ∧ s.producer ≠ .resetHead message :=
  ⟨by decide +kernel, queue_representation ⟨40, 16⟩ ⟨by decide, by decide, by decide⟩ _⟩

end MpNet.Shmq
