import MpNet.Shmq.FullQueueProperties

/-!
# One call of `shmq_push`

From any state of the queue and whatever the consumer does meanwhile, a call that
returns 0 has published its block, which fits a page, and one that returns -1 nothing.
-/

set_option autoImplicit false

namespace MpNet.Shmq

open Library

variable {c : Config} {s : State} {message : Message} {base : List Message}

/-- The producer is in a call for the message, or has just returned from it. -/
def Calling (c : Config) (message : Message) (base : List Message) (s : State) : Prop :=
  match s.producer with
  | .idle => False
  | .exited => message.size ≤ u32 c.pageSize ∧ s.published = base
  | .checkLength m => m = message ∧ s.published = base
  | .readTailPos m | .readHeadPos m _ | .compareTail m _ _ | .resetTail m | .resetHead m
  | .padHead m _ | .padWrite m _ _ | .wrapHead m | .waitTail m _ | .waitHead m _ _
  | .gapTail m _ | .gapHead m _ _ | .headMb m | .copyHeader m _ | .copyData m _ | .loadHead m
  | .storeHead m _ => m = message ∧ message.size ≤ u32 c.pageSize ∧ s.published = base
  | .writePipe _ => message.size ≤ u32 c.pageSize ∧ s.published = base ++ [message]
  | .ret result =>
      result = 0 ∧ message.size ≤ u32 c.pageSize ∧ s.published = base ++ [message] ∨
        result = -1 ∧ s.published = base

def PushPc.isBetween : PushPc → Bool
  | .idle | .ret _ => true
  | _ => false

theorem run_between (c : Config) (between : s.producer.isBetween) {rest : List Action}
    (noPush : ∀ action ∈ rest, action.NoPush) :
    (run (step c) s rest).producer = s.producer ∧
      (run (step c) s rest).published = s.published := by
  induction rest generalizing s with
  | nil => exact ⟨rfl, rfl⟩
  | cons action rest ih =>
      have kept : (step c s action).producer = s.producer ∧
          (step c s action).published = s.published := by
        cases action with
        | push => exact (noPush _ (.head _)).elim
        | produce =>
            have same : produce c s = s := by
              cases pc : s.producer <;> simp [pc, PushPc.isBetween] at between <;> simp [produce, pc]
            exact ⟨congrArg State.producer same, congrArg State.published same⟩
        | pop => exact callPop_producer s
        | consume => exact consume_producer c s
      obtain ⟨producer, published⟩ := ih (kept.1 ▸ between) fun other member =>
        noPush other (.tail _ member)
      exact ⟨producer.trans kept.1, published.trans kept.2⟩

theorem callPush_calling (between : s.producer.isBetween) (same : s.published = base) :
    Calling c message base (callPush s message) := by
  cases pc : s.producer <;> simp [pc, PushPc.isBetween] at between
  all_goals
    simp only [callPush, pc]
    exact ⟨rfl, same⟩

theorem callPush_counted (message : Message) (between : s.producer.isBetween) :
    (callPush s message).producer.Counted := by
  cases pc : s.producer <;> simp [pc, PushPc.isBetween] at between
  all_goals
    simp only [callPush, pc]
    trivial

theorem callPush_rank (message : Message) (between : s.producer.isBetween) :
    (callPush s message).producer.rank = 53 := by
  cases pc : s.producer <;> simp [pc, PushPc.isBetween] at between
  all_goals simp only [callPush, pc, PushPc.rank]

/-- A call ends with a result or with the process. -/
theorem Calling.rank_pos (calling : Calling c message base s) (going : s.producer ≠ .exited) :
    (∃ result, s.producer = .ret result) ∨ 0 < s.producer.rank := by
  cases pc : s.producer <;> simp only [Calling, pc] at calling
  case ret result => exact .inl ⟨result, rfl⟩
  case exited => exact (going pc).elim
  all_goals
    right
    simp only [PushPc.rank]
    omega

theorem produce_calling (calling : Calling c message base s) :
    Calling c message base (produce c s) := by
  cases pc : s.producer <;> simp only [Calling, pc] at calling <;> simp only [produce, pc]
  case ret | exited => simpa only [Calling, pc] using calling
  case checkLength m =>
      obtain ⟨rfl, same⟩ := calling
      split
      · exact .inr ⟨rfl, same⟩
      · exact ⟨rfl, by omega, same⟩
  case readHeadPos m tailPos =>
      split
      · split
        · exact calling.2
        · exact calling
      · exact calling
  case compareTail => split <;> (try split) <;> exact calling
  case waitHead => split <;> exact calling
  case gapHead =>
      split
      · split
        · exact .inr ⟨rfl, calling.2.2⟩
        · exact calling
      · exact calling
  case copyHeader =>
      unfold Calling
      split <;> rename_i next <;> split at next <;> cases next <;> exact calling
  case storeHead m head =>
      obtain ⟨rfl, fits, same⟩ := calling
      exact ⟨fits, congrArg (· ++ [m]) same⟩
  case writePipe => exact .inl ⟨rfl, calling⟩
  all_goals exact calling

/-- At any point nothing or the block has been published. -/
theorem Calling.published (calling : Calling c message base s) :
    s.published = base ∨ message.size ≤ u32 c.pageSize ∧ s.published = base ++ [message] := by
  cases pc : s.producer <;> simp only [Calling, pc] at calling
  case exited | checkLength => exact .inl calling.2
  case writePipe => exact .inr calling
  case ret =>
      rcases calling with ⟨_, accepted⟩ | ⟨_, same⟩
      · exact .inr accepted
      · exact .inl same
  all_goals exact .inl calling.2.2

theorem calling_congr {s' : State} (producer : s'.producer = s.producer)
    (published : s'.published = s.published) :
    Calling c message base s' ↔ Calling c message base s := by
  unfold Calling
  rw [producer, published]

private theorem run_calling (calling : Calling c message base s) {rest : List Action}
    (noPush : ∀ action ∈ rest, action.NoPush) :
    Calling c message base (run (step c) s rest) := by
  induction rest generalizing s with
  | nil => exact calling
  | cons action rest ih =>
      refine ih ?_ fun other member => noPush other (.tail _ member)
      cases action with
      | push => exact (noPush _ (.head _)).elim
      | produce => exact produce_calling calling
      | pop =>
          obtain ⟨producer, published⟩ := callPop_producer s
          exact (calling_congr producer published).mpr calling
      | consume =>
          obtain ⟨producer, published⟩ := consume_producer c s
          exact (calling_congr producer published).mpr calling

inductive Pushed (c : Config) (message : Message) (base : List Message) (s : State) : Prop where
  | accepted (returned : s.producer = .ret 0) (fits : message.size ≤ u32 c.pageSize)
      (published : s.published = base ++ [message])
  | refused (returned : s.producer = .ret (-1)) (published : s.published = base)
  | exited (exits : s.producer = .exited) (fits : message.size ≤ u32 c.pageSize)

theorem Calling.pushed (calling : Calling c message base s) (still : s.producer.rank = 0) :
    Pushed c message base s := by
  cases pc : s.producer <;> simp only [pc, PushPc.rank] at still <;>
    simp only [Calling, pc] at calling
  case ret =>
      rcases calling with ⟨rfl, fits, same⟩ | ⟨rfl, same⟩
      · exact .accepted pc fits same
      · exact .refused pc same
  case exited => exact .exited pc calling.1
  all_goals omega

/-- A call has ended after 53 steps of its own, whatever the consumer does meanwhile. -/
theorem run_pushed (between : s.producer.isBetween) {rest : List Action}
    (noPush : ∀ action ∈ rest, action.NoPush) (enough : 53 ≤ rest.countP Action.isProduce) :
    Pushed c message s.published (run (step c) (callPush s message) rest) := by
  have down := run_rank c (callPush_counted message between) noPush
  rw [callPush_rank message between] at down
  exact (run_calling (callPush_calling between rfl) noPush).pushed (by omega)

end MpNet.Shmq
