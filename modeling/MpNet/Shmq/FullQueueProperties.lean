import MpNet.Shmq.FifoProperties

/-!
# Pushing to a full queue

A call of `shmq_push` takes a bounded number of producer steps. It ends with 0 or
-1 except in one situation: `align_queue_head` reads `tail` at the start of the
ring while the block no longer fits before the end, and the process exits.
-/

set_option autoImplicit false

namespace MpNet.Shmq

open Library

variable {c : Config} {s : State}

def PushPc.rank : PushPc → Nat
  | .idle | .ret _ | .exited => 0
  | .writePipe _ => 1
  | .storeHead _ _ => 2
  | .loadHead _ => 3
  | .copyData _ _ => 4
  | .copyHeader _ _ => 5
  | .headMb _ => 6
  | .gapHead _ cnt _ => 3 + 4 * (10 - cnt)
  | .gapTail _ cnt => 4 + 4 * (10 - cnt)
  | .waitHead _ cnt _ => 5 + 4 * (10 - cnt)
  | .waitTail _ cnt => 6 + 4 * (10 - cnt)
  | .wrapHead _ | .resetHead _ => 47
  | .padWrite _ _ _ | .resetTail _ => 48
  | .padHead _ _ => 49
  | .compareTail _ _ _ => 50
  | .readHeadPos _ _ => 51
  | .readTailPos _ => 52
  | .checkLength _ => 53

def Action.isProduce : Action → Bool
  | .produce => true
  | _ => false

/-- The waiting loop has not been refused ten times. -/
def PushPc.Counted : PushPc → Prop
  | .waitTail _ cnt | .waitHead _ cnt _ | .gapTail _ cnt | .gapHead _ cnt _ => cnt < 10
  | _ => True

theorem PushOk.counted (ok : PushOk c s s.producer) : s.producer.Counted := by
  cases pc : s.producer <;> simp only [pc, PushOk] at ok
  case waitTail | gapTail => exact ok.2
  case waitHead | gapHead => exact ok.2.1
  all_goals trivial

theorem produce_counted (c : Config) (counted : s.producer.Counted) :
    (produce c s).producer.Counted := by
  cases pc : s.producer <;> simp only [pc, PushPc.Counted] at counted <;> simp only [produce, pc]
  case idle | ret | exited => simp [PushPc.Counted]
  case gapHead =>
      split
      · split
        · trivial
        · simp only [PushPc.Counted]
          omega
      · trivial
  case checkLength | copyHeader => split <;> trivial
  case readHeadPos | compareTail => split <;> (try split) <;> simp [PushPc.Counted]
  case waitHead => split <;> simp [PushPc.Counted, counted]
  case resetHead | wrapHead => simp [PushPc.Counted]
  case waitTail | gapTail => exact counted
  all_goals trivial

theorem produce_rank (counted : s.producer.Counted) :
    (produce c s).producer.rank ≤ s.producer.rank - 1 := by
  cases pc : s.producer <;> simp only [produce, pc] <;> simp only [pc, PushPc.Counted] at counted
  case idle | ret | exited => simp [PushPc.rank]
  case waitHead => split <;> simp only [PushPc.rank] <;> omega
  case gapHead => split <;> (try split) <;> simp only [PushPc.rank] <;> omega
  case checkLength => split <;> simp only [PushPc.rank] <;> omega
  case readHeadPos | compareTail => split <;> (try split) <;> simp only [PushPc.rank] <;> omega
  case copyHeader => split <;> simp only [PushPc.rank] <;> omega
  all_goals simp only [PushPc.rank]
  all_goals omega

theorem run_rank (c : Config) (counted : s.producer.Counted) {rest : List Action}
    (noPush : ∀ action ∈ rest, action.NoPush) :
    (run (step c) s rest).producer.rank ≤ s.producer.rank - rest.countP Action.isProduce := by
  induction rest generalizing s with
  | nil => simp
  | cons action rest ih =>
      have others : ∀ other ∈ rest, other.NoPush := fun other member =>
        noPush other (.tail _ member)
      cases action with
      | push => exact (noPush _ (.head _)).elim
      | produce =>
          have later := ih (produce_counted c counted) others
          have down : (produce c s).producer.rank ≤ s.producer.rank - 1 := produce_rank counted
          simp only [run_cons, step, List.countP_cons, Action.isProduce, ↓reduceIte]
          omega
      | pop =>
          have same := (callPop_producer s).1
          have later := ih (same ▸ counted) others
          rw [same] at later
          simpa [step, Action.isProduce] using later
      | consume =>
          have same := (consume_producer c s).1
          have later := ih (same ▸ counted) others
          rw [same] at later
          simpa [step, Action.isProduce] using later

/-- A call that read `tail_pos` without the fatal combination is under way or has ended. -/
def UnderWay (c : Config) (message : Message) (base : List Message) (s : State) : Prop :=
  match s.producer with
  | .idle | .exited | .checkLength _ | .readTailPos _ => False
  | .readHeadPos m tailPos =>
      m = message ∧ s.published = base ∧
        ¬ (tailPos = sizeofShmHead ∧ c.length - s.head < message.size)
  | .compareTail m _ _ | .resetTail m | .resetHead m | .padHead m _ | .padWrite m _ _
  | .wrapHead m | .waitTail m _ | .waitHead m _ _ | .gapTail m _ | .gapHead m _ _ | .headMb m
  | .copyHeader m _ | .copyData m _ | .loadHead m | .storeHead m _ =>
      m = message ∧ s.published = base
  | .writePipe _ => s.published = base ++ [message]
  | .ret result =>
      result = 0 ∧ s.published = base ++ [message] ∨ result = -1 ∧ s.published = base

private theorem produce_underWay (fits : c.Fits) (inv : Inv c s) {message : Message}
    {base : List Message} (underWay : UnderWay c message base s) :
    UnderWay c message base (produce c s) := by
  have low := inv.ring.low
  have high := inv.ring.high
  have length_lt := fits.length_lt
  cases pc : s.producer <;> simp only [UnderWay, pc] at underWay <;> simp only [produce, pc]
  case ret => simpa only [UnderWay, pc] using underWay
  case readHeadPos m tailPos =>
      obtain ⟨rfl, same, safe⟩ := underWay
      rw [u32_of_range (by omega) (by omega)]
      split
      · rw [if_neg fun start => safe ⟨start, ‹_›⟩]
        exact ⟨rfl, same⟩
      · exact ⟨rfl, same⟩
  case compareTail => split <;> (try split) <;> exact underWay
  case waitHead => split <;> exact underWay
  case gapHead =>
      split
      · split
        · exact .inr ⟨rfl, underWay.2⟩
        · exact underWay
      · exact underWay
  case copyHeader =>
      unfold UnderWay
      split <;> rename_i next <;> split at next <;> cases next <;> exact underWay
  case storeHead m head =>
      obtain ⟨rfl, same⟩ := underWay
      exact congrArg (· ++ [m]) same
  case writePipe => exact .inl ⟨rfl, underWay⟩
  all_goals exact underWay

private theorem run_underWay (fits : c.Fits) (inv : Inv c s) {message : Message}
    {base : List Message}
    (underWay : UnderWay c message base s) {rest : List Action}
    (noPush : ∀ action ∈ rest, action.NoPush) :
    Inv c (run (step c) s rest) ∧ UnderWay c message base (run (step c) s rest) := by
  induction rest generalizing s with
  | nil => exact ⟨inv, underWay⟩
  | cons action rest ih =>
      refine ih (inv_step fits inv action) ?_ fun other member => noPush other (.tail _ member)
      cases action with
      | push => exact (noPush _ (.head _)).elim
      | produce => exact produce_underWay fits inv underWay
      | pop =>
          have same : callPop s = s ∨ callPop s = { s with consumer := .emptyTail } := by
            unfold callPop
            split <;> simp
          rcases same with same | same <;> simp only [step, same] <;> exact underWay
      | consume =>
          obtain ⟨_, head, published, producer⟩ := (consume_effect fits inv).1.same
          simpa only [step, UnderWay, head, published, producer] using underWay

theorem UnderWay.ended {message : Message} {base : List Message}
    (underWay : UnderWay c message base s) (still : s.producer.rank = 0) :
    s.producer = .ret 0 ∧ s.published = base ++ [message] ∨
      s.producer = .ret (-1) ∧ s.published = base := by
  cases pc : s.producer <;> simp only [pc, PushPc.rank] at still <;>
    simp only [UnderWay, pc] at underWay
  case ret result =>
      rcases underWay with ⟨rfl, same⟩ | ⟨rfl, same⟩
      · exact .inl ⟨rfl, same⟩
      · exact .inr ⟨rfl, same⟩
  all_goals omega

private theorem run_exited (exited : s.producer = .exited) (rest : List Action) :
    (run (step c) s rest).producer = .exited := by
  refine run_preserves (fun s : State => s.producer = .exited) ?_ exited rest
  intro s action exited
  cases action with
  | push => simp [step, callPush, exited]
  | produce => simp [step, produce, exited]
  | pop => exact (callPop_producer s).1.trans exited
  | consume => exact (consume_producer c s).1.trans exited

private theorem produce_exits (fits : c.Fits) (inv : Inv c s) {message : Message}
    (called : s.producer = .readTailPos message) (start : s.tail = sizeofShmHead)
    (short : c.length - s.head < message.size) :
    (produce c (produce c s)).producer = .exited := by
  have low := inv.ring.low
  have high := inv.ring.high
  have length_lt := fits.length_lt
  have first : produce c s = { s with producer := .readHeadPos message s.tail } := by
    simp only [produce, called]
  rw [first]
  simp only [produce]
  rw [u32_of_range (by omega) (by omega), if_pos short, if_pos start]

/-- Consider a call of `shmq_push` past its page size test, about to read `tail_pos`,
in any reachable state and with the consumer at any point. It always returns 0 or -1
within 51 further producer steps, with exactly this block or nothing published and
the ring holding the published blocks that were not popped, if and only if `tail` is
not at the start of the ring or the block fits before the end. -/
theorem shmq_push_returns_iff (c : Config) (sized : c.Sized) (actions : List Action)
    (message : Message)
    (called : (run (step c) init actions).producer = .readTailPos message) :
    let s := run (step c) init actions
    (∀ rest : List Action, (∀ action ∈ rest, action.NoPush) →
        51 ≤ rest.countP Action.isProduce →
        let s' := run (step c) (step c s .produce) rest
        (s'.producer = .ret 0 ∧ s'.published = s.published ++ [message] ∨
          s'.producer = .ret (-1) ∧ s'.published = s.published) ∧
        Ring c s'.memory s'.head s'.tail s'.pending) ↔
      ¬ (s.tail = sizeofShmHead ∧ c.length - s.head < message.size) := by
  intro s
  have inv : Inv c s := inv_run sized.fits actions
  have next := inv_step sized.fits inv .produce
  have first : produce c s = { s with producer := .readHeadPos message s.tail } := by
    unfold produce
    rw [called]
  constructor
  · rintro returns ⟨start, short⟩
    have exits : (run (step c) (step c s .produce) (List.replicate 51 .produce)).producer =
        .exited := by
      rw [List.replicate_succ, run_cons]
      exact run_exited (produce_exits sized.fits inv called start short) _
    obtain ⟨ended, _⟩ := returns (List.replicate 51 .produce)
      (fun action member => by rw [List.eq_of_mem_replicate member]; trivial) (by decide)
    rcases ended with ⟨ended, _⟩ | ⟨ended, _⟩ <;> exact absurd (exits.symm.trans ended) (by simp)
  · intro safe rest noPush enough s'
    have started : UnderWay c message s.published (step c s .produce) := by
      simp only [step, first]
      exact ⟨rfl, rfl, safe⟩
    obtain ⟨later, underWay⟩ := run_underWay sized.fits next started noPush
    have down := run_rank c next.push.counted noPush
    have rank : (step c s .produce).producer.rank = 51 := by simp only [step, first, PushPc.rank]
    exact ⟨underWay.ended (by omega), later.ring⟩

/-- A block that wraps and meets `tail` a few bytes above: it is refused if nothing is popped
meanwhile. -/
theorem shmq_push_returns_full :
    let blocks := [Message.control 1 3 openBlock (by decide),
      .make 2 3 dataBlock [1, 2, 3] (by decide) (by decide),
      .control 3 3 finBlock (by decide)]
    let message := Message.make 4 3 dataBlock [4, 5, 6] (by decide) (by decide)
    let s := run (step ⟨64, 16⟩) init (filled blocks ++ [.push message, .produce])
    (∀ rest : List Action, (∀ action ∈ rest, action.NoPush) →
      51 ≤ rest.countP Action.isProduce →
      let s' := run (step ⟨64, 16⟩) (step ⟨64, 16⟩ s .produce) rest
      (s'.producer = .ret 0 ∧ s'.published = s.published ++ [message] ∨
        s'.producer = .ret (-1) ∧ s'.published = s.published) ∧
      Ring ⟨64, 16⟩ s'.memory s'.head s'.tail s'.pending) ∧
    (run (step ⟨64, 16⟩) (step ⟨64, 16⟩ s .produce) (List.replicate 51 .produce)).producer =
      .ret (-1) := by
  intro blocks message s
  have called : s.producer = .readTailPos message := by
    simp only [s, run_append, run_cons, run_nil]
    have idle : (run (step ⟨64, 16⟩) init (filled blocks)).producer = .ret 0 :=
      PushPc.eq_ret (by decide +kernel)
    have page : ¬ u32 (Config.mk 64 16).pageSize < message.size := by decide
    simp only [step, callPush, idle, produce, if_neg page]
  have room : ¬ (s.tail = sizeofShmHead ∧ (Config.mk 64 16).length - s.head < message.size) := by
    decide +kernel
  exact ⟨(shmq_push_returns_iff ⟨64, 16⟩ ⟨by decide, by decide, by decide⟩ _ message called).mpr
    room, PushPc.eq_ret (by decide +kernel)⟩

/-- A consumer that never pops: the third push finds 6 bytes left before the end and
`tail` at the start. -/
theorem shmq_push_exits_stalled :
    let message := Message.control 7 3 closeBlock (by decide)
    let call := .push message :: List.replicate 10 .produce
    (Config.mk 40 16).Sized ∧ (sizeofShmBlock : Int) ≤ message.size ∧ message.size ≤ 16 ∧
      (run (step ⟨40, 16⟩) init (call ++ call ++ call)).producer = .exited :=
  ⟨⟨by decide, by decide, by decide⟩, by decide, by decide, rfl⟩

end MpNet.Shmq
