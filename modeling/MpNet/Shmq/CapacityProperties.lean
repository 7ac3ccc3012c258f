import MpNet.Shmq.FullQueueProperties

/-!
# The capacity of the shared queue

Padding at the end of the ring and the page kept free before `tail` cost less than
three pages together. As long as the outstanding blocks leave that much, a push is
accepted wherever the two positions stand.
-/

set_option autoImplicit false

namespace MpNet.Shmq

open Library

variable {c : Config} {s s' : State}

/-- The summed lengths of some blocks. -/
def total (messages : List Message) : Int := (messages.map Message.size).sum

private theorem total_append (first second : List Message) :
    total (first ++ second) = total first + total second := by
  simp [total]

private theorem total_cons (message : Message) (rest : List Message) :
    total (message :: rest) = message.size + total rest := by
  simp [total]

private theorem total_singleton (message : Message) : total [message] = message.size := by
  simp [total]

theorem total_nonneg (messages : List Message) : 0 ≤ total messages := by
  induction messages with
  | nil => exact le_rfl
  | cons message rest ih =>
      have size := message.size_ge
      rw [total_cons]
      omega

private theorem Laid.stop_eq {memory : Memory} {start stop : Int} {messages : List Message}
    (laid : Laid memory start messages stop) : stop = start + total messages := by
  induction messages generalizing start with
  | nil =>
      have same : start = stop := laid
      simp [total, same]
  | cons message rest ih =>
      have later := ih laid.2
      rw [total_cons]
      omega

private theorem Ring.head_eq {memory : Memory} {head tail : Int} {pending : List Message}
    (ring : Ring c memory head tail pending) (straight : tail ≤ head) :
    head = tail + total pending := by
  cases ring with
  | straight _ _ laid => exact laid.stop_eq
  | wrapped _ _ _ _ _ _ above => omega

/-! ## What a wrapped ring wastes -/

/-- The calls that are about to wrap `head`. -/
def PushPc.Wrapping : PushPc → Prop
  | .compareTail _ _ _ | .padHead _ _ | .padWrite _ _ _ | .wrapHead _ => True
  | _ => False

/-- `head` wraps within the last page only, so a wrapped ring holds all but a page of what
lies outside the gap. -/
structure Snug (c : Config) (s : State) : Prop where
  wrapped : s.head < s.tail →
    c.length - c.pageSize < s.tail - s.head + sizeofShmHead + total s.pending
  wrapping : s.producer.Wrapping → c.length - s.head < c.pageSize

private theorem snug_init : Snug c init where
  wrapped := fun above => absurd above (by decide)
  wrapping := False.elim

private theorem produce_snug (fits : c.Fits) (inv : Inv c s) (snug : Snug c s) :
    Snug c (produce c s) := by
  obtain ⟨room, page, length_lt⟩ := fits
  have low := inv.ring.low
  have high := inv.ring.high
  have ok := inv.push
  obtain ⟨wrapped, wrapping⟩ := snug
  cases pc : s.producer <;> simp only [produce, pc] <;> simp only [pc, PushOk] at ok <;>
    simp only [pc, PushPc.Wrapping, true_implies] at wrapping
  case readHeadPos m tailPos =>
      rw [u32_of_range (by omega) (by omega)]
      split
      · split
        · exact ⟨wrapped, False.elim⟩
        · exact ⟨wrapped, fun _ => by simp only; omega⟩
      · exact ⟨wrapped, False.elim⟩
  case compareTail m headPos surplus =>
      split
      · exact ⟨wrapped, False.elim⟩
      · split <;> exact ⟨wrapped, fun _ => wrapping⟩
  case padHead m surplus => exact ⟨wrapped, fun _ => wrapping⟩
  case padWrite m surplus pad => exact ⟨wrapped, fun _ => wrapping⟩
  case wrapHead m =>
      refine ⟨fun _ => ?_, False.elim⟩
      have straight := inv.ring.head_eq ok.2.1.2
      simp only [State.pending, sizeofShmHead] at straight ⊢
      omega
  case storeHead m head =>
      obtain ⟨writable, holds, rfl⟩ := ok
      have size := m.size_ge
      have bound := writable.2.1
      rw [i32_of_range (by omega) (by omega)]
      refine ⟨fun above => ?_, False.elim⟩
      simp only at above
      have before := wrapped (by omega)
      have more : total ((s.published ++ [m]).drop s.popped) = total s.pending + m.size := by
        rw [State.pending_append inv.count, total_append, total_singleton]
      simp only [State.pending] at before more ⊢
      omega
  case checkLength => split <;> exact ⟨wrapped, False.elim⟩
  case waitHead => split <;> exact ⟨wrapped, False.elim⟩
  case gapHead => split <;> (try split) <;> exact ⟨wrapped, False.elim⟩
  case copyHeader => exact ⟨wrapped, by simp only; split <;> exact False.elim⟩
  case idle | ret | exited => exact ⟨wrapped, by simp [pc, PushPc.Wrapping]⟩
  all_goals exact ⟨wrapped, False.elim⟩

namespace ConsumeEffect

private theorem total_le (effect : ConsumeEffect c s s') : total s'.pending ≤ total s.pending := by
  cases effect with
  | quiet | unwrap | finish => exact le_rfl
  | pop message rest first =>
      have size := message.size_ge
      rw [first, total_cons]
      simp only [State.pending, (State.pending_cons first).1]
      omega

theorem snug (effect : ConsumeEffect c s s') (inv : Inv c s) (snug : Snug c s) : Snug c s' where
  wrapped := by
    cases effect with
    | quiet | finish => exact snug.wrapped
    | unwrap =>
        have low := inv.ring.low
        intro above
        simp only at above
        omega
    | pop message rest first _ _ inside =>
        have size := message.size_ge
        have before := snug.wrapped
        intro above
        simp only [State.pending, (State.pending_cons first).1] at above ⊢
        rw [first, total_cons] at before
        omega
  wrapping := by
    obtain ⟨_, head, _, producer⟩ := effect.same
    rw [head, producer]
    exact snug.wrapping

end ConsumeEffect

theorem snug_step (fits : c.Fits) (inv : Inv c s) (snug : Snug c s) (action : Action) :
    Snug c (step c s action) := by
  cases action with
  | push message =>
      simp only [step, callPush]
      split
      · exact ⟨snug.wrapped, False.elim⟩
      · exact ⟨snug.wrapped, False.elim⟩
      · exact snug
  | pop =>
      simp only [step, callPop]
      split <;> exact ⟨snug.wrapped, snug.wrapping⟩
  | produce => exact produce_snug fits inv snug
  | consume => exact (consume_effect fits inv).1.snug inv snug

theorem snug_run (fits : c.Fits) (actions : List Action) :
    Inv c (run (step c) init actions) ∧ Snug c (run (step c) init actions) := by
  refine run_preserves (fun s => Inv c s ∧ Snug c s) ?_ ⟨inv_init fits, snug_init⟩ actions
  rintro s action ⟨inv, snug⟩
  exact ⟨inv_step fits inv action, snug_step fits inv snug action⟩

/-! ## A push that cannot be refused -/

/-- The outstanding blocks leave three pages. -/
def State.Roomy (c : Config) (s : State) : Prop :=
  total s.pending ≤ c.length - sizeofShmHead - 3 * c.pageSize

theorem Snug.gap (snug : Snug c s) (roomy : s.Roomy c) (above : s.head < s.tail) :
    s.head + 2 * c.pageSize < s.tail := by
  have wrapped := snug.wrapped above
  unfold State.Roomy at roomy
  omega

/-- A call on its way to the result 0. The waiting loop goes round a second time only when
the consumer has just wrapped `tail`. -/
def Accepting (c : Config) (message : Message) (base : List Message) (s : State) : Prop :=
  match s.producer with
  | .idle | .exited | .resetTail _ | .resetHead _ => False
  | .checkLength m | .readTailPos m | .compareTail m _ _ | .padHead m _ | .padWrite m _ _
  | .wrapHead m => m = message ∧ s.published = base ∧ s.Roomy c
  | .readHeadPos m tailPos =>
      m = message ∧ s.published = base ∧ s.Roomy c ∧
        (tailPos = sizeofShmHead → m.size ≤ c.length - s.head)
  | .waitTail m cnt =>
      m = message ∧ s.published = base ∧ s.Roomy c ∧ (cnt = 0 ∨ cnt = 1 ∧ s.tail ≤ s.head)
  | .waitHead m cnt tail =>
      m = message ∧ s.published = base ∧ s.Roomy c ∧ (cnt = 0 ∨ cnt = 1 ∧ tail ≤ s.head)
  | .gapTail m cnt => m = message ∧ s.published = base ∧ s.Roomy c ∧ cnt = 0
  | .gapHead m cnt tail =>
      m = message ∧ s.published = base ∧ s.Roomy c ∧ cnt = 0 ∧
        (s.head + m.size + c.pageSize ≤ tail ∨ s.tail ≤ s.head)
  | .headMb m | .copyHeader m _ | .copyData m _ | .loadHead m | .storeHead m _ =>
      m = message ∧ s.published = base
  | .writePipe _ => s.published = base ++ [message]
  | .ret result => result = 0 ∧ s.published = base ++ [message]

section Call

variable {message : Message} {base : List Message}

private theorem produce_accepting (fits : c.Fits) (inv : Inv c s) (snug : Snug c s)
    (small : message.size ≤ c.pageSize) (accepting : Accepting c message base s) :
    Accepting c message base (produce c s) := by
  obtain ⟨room, page, length_lt⟩ := fits
  have low := inv.ring.low
  have high := inv.ring.high
  have ok := inv.push
  cases pc : s.producer <;> simp only [Accepting, pc] at accepting <;>
    simp only [pc, PushOk] at ok <;> simp only [produce, pc]
  case ret => simpa only [Accepting, pc] using accepting
  case checkLength m =>
      obtain ⟨rfl, same, roomy⟩ := accepting
      rw [u32_of_range (by omega) (by omega), if_neg (by omega)]
      exact ⟨rfl, same, roomy⟩
  case readTailPos m =>
      refine ⟨accepting.1, accepting.2.1, accepting.2.2, fun start => ?_⟩
      have straight := inv.ring.head_eq (by simp only [sizeofShmHead] at start; omega)
      have roomy := accepting.2.2
      simp only [State.Roomy, State.pending] at roomy straight ⊢
      omega
  case readHeadPos m tailPos =>
      obtain ⟨rfl, same, roomy, start⟩ := accepting
      rw [u32_of_range (by omega) (by omega)]
      split
      · rw [if_neg fun low => by have := start low; omega]
        exact ⟨rfl, same, roomy⟩
      · exact ⟨rfl, same, roomy, .inl rfl⟩
  case compareTail m headPos surplus =>
      obtain ⟨size, wrappable, rfl, rfl⟩ := ok
      rw [if_neg (by unfold State.Wrappable at wrappable; omega)]
      split <;> exact accepting
  case padHead | padWrite => exact accepting
  case wrapHead => exact ⟨accepting.1, accepting.2.1, accepting.2.2, .inl rfl⟩
  case waitTail => exact accepting
  case waitHead m cnt tail =>
      obtain ⟨same, published, roomy, turn⟩ := accepting
      split
      · exact ⟨same, published, roomy, by omega⟩
      · exact ⟨same, published⟩
  case gapTail m cnt =>
      obtain ⟨rfl, published, roomy, first⟩ := accepting
      refine ⟨rfl, published, roomy, first, ?_⟩
      by_cases above : s.head < s.tail
      · have gap := snug.gap roomy above
        left
        simp only
        omega
      · right
        simp only
        omega
  case gapHead m cnt tail =>
      obtain ⟨same, published, roomy, rfl, gap⟩ := accepting
      have size := m.size_ge
      obtain ⟨⟨_, fitting⟩, tries, upper, lower, clear⟩ := ok
      rw [u32_of_range lower (by omega), u32_of_range (by omega) (by omega)]
      split
      · rw [if_neg (by decide)]
        exact ⟨same, published, roomy, .inr ⟨rfl, gap.resolve_left (by omega)⟩⟩
      · exact ⟨same, published⟩
  case headMb => exact accepting
  case copyHeader =>
      unfold Accepting
      split <;> rename_i next <;> split at next <;> cases next <;> exact accepting
  case copyData | loadHead => exact accepting
  case storeHead m head =>
      obtain ⟨rfl, same⟩ := accepting
      exact congrArg (· ++ [m]) same
  case writePipe => exact ⟨rfl, accepting⟩

theorem ConsumeEffect.accepting (effect : ConsumeEffect c s s')
    (accepting : Accepting c message base s) : Accepting c message base s' := by
  obtain ⟨_, head, published, producer⟩ := effect.same
  have less := effect.total_le
  have straight : s.tail ≤ s.head → s'.tail ≤ s'.head := fun order => (effect.straight order).2
  have roomy : s.Roomy c → s'.Roomy c := less.trans
  cases pc : s.producer <;> simp only [Accepting, pc, producer, head, published] at accepting ⊢
  case readHeadPos => exact ⟨accepting.1, accepting.2.1, roomy accepting.2.2.1, accepting.2.2.2⟩
  case checkLength | readTailPos | compareTail | padHead | padWrite | wrapHead =>
      exact ⟨accepting.1, accepting.2.1, roomy accepting.2.2⟩
  case waitTail =>
      obtain ⟨same, base, room, turn⟩ := accepting
      exact ⟨same, base, roomy room, turn.imp_right fun second => ⟨second.1, head ▸ straight second.2⟩⟩
  case waitHead => exact ⟨accepting.1, accepting.2.1, roomy accepting.2.2.1, accepting.2.2.2⟩
  case gapTail => exact ⟨accepting.1, accepting.2.1, roomy accepting.2.2.1, accepting.2.2.2⟩
  case gapHead =>
      obtain ⟨same, base, room, first, gap⟩ := accepting
      exact ⟨same, base, roomy room, first, gap.imp_right fun order => head ▸ straight order⟩
  all_goals exact accepting

theorem run_accepting (fits : c.Fits) (inv : Inv c s) (snug : Snug c s)
    (small : message.size ≤ c.pageSize) (accepting : Accepting c message base s)
    {rest : List Action} (noPush : ∀ action ∈ rest, action.NoPush) :
    Accepting c message base (run (step c) s rest) := by
  induction rest generalizing s with
  | nil => exact accepting
  | cons action rest ih =>
      refine ih (inv_step fits inv action) (snug_step fits inv snug action) ?_
        fun other member => noPush other (.tail _ member)
      cases action with
      | push => exact (noPush _ (.head _)).elim
      | produce => exact produce_accepting fits inv snug small accepting
      | pop =>
          simp only [step, callPop]
          split <;> exact accepting
      | consume => exact (consume_effect fits inv).1.accepting accepting

theorem Accepting.ended (accepting : Accepting c message base s) (still : s.producer.rank = 0) :
    s.producer = .ret 0 ∧ s.published = base ++ [message] := by
  cases pc : s.producer <;> simp only [pc, PushPc.rank] at still <;>
    simp only [Accepting, pc] at accepting
  case ret => exact ⟨congrArg PushPc.ret accepting.1, accepting.2⟩
  all_goals omega

end Call

/-- In every reachable state between two calls of `shmq_push`, with the consumer at any
point, let the outstanding blocks leave three pages. Then a block of at most a page is
accepted: whatever the consumer does meanwhile, 53 producer steps end the call with 0. -/
theorem shmq_push_accepts (c : Config) (small : c.length < 2 ^ 31)
    (page : (sizeofShmBlock : Int) ≤ c.pageSize) (actions : List Action) (message : Message)
    (short : message.size ≤ c.pageSize) :
    let s := run (step c) init actions
    (s.producer = .idle ∨ ∃ result, s.producer = .ret result) →
    total s.pending ≤ c.length - sizeofShmHead - 3 * c.pageSize →
    ∀ rest : List Action, (∀ action ∈ rest, action.NoPush) →
      53 ≤ rest.countP Action.isProduce →
      let s' := run (step c) (step c s (.push message)) rest
      s'.producer = .ret 0 ∧ s'.published = s.published ++ [message] := by
  intro s between roomy rest noPush enough s'
  have fits : c.Fits := by
    have none : 0 ≤ total s.pending := total_nonneg _
    simp only [sizeofShmHead, sizeofShmBlock] at roomy page
    exact ⟨by omega, page, small⟩
  obtain ⟨inv, snug⟩ := snug_run fits actions
  have called : step c s (.push message) = { s with producer := .checkLength message } := by
    simp only [step, callPush]
    rcases between with idle | ⟨result, returned⟩
    · rw [idle]
    · rw [returned]
  have inv' := inv_step fits inv (.push message)
  have snug' := snug_step fits inv snug (.push message)
  have accepting : Accepting c message s.published (step c s (.push message)) := by
    rw [called]
    exact ⟨rfl, rfl, roomy⟩
  have rank : (step c s (.push message)).producer.rank = 53 := by
    rw [called]
    rfl
  have down : s'.producer.rank ≤ 53 - rest.countP Action.isProduce :=
    rank ▸ run_rank c inv'.push.counted noPush
  have still : s'.producer.rank = 0 := by omega
  exact (run_accepting fits inv' snug' short accepting noPush).ended still

/-- One block of 13 bytes is outstanding and the limit is 24 bytes. -/
theorem shmq_push_accepts_second :
    let message := Message.control 7 3 closeBlock (by decide)
    let s := run (step ⟨80, 16⟩) init (.push message :: List.replicate 20 .produce)
    let s' := run (step ⟨80, 16⟩) (step ⟨80, 16⟩ s (.push message)) (List.replicate 53 .produce)
    s'.producer = .ret 0 ∧ s'.published = s.published ++ [message] := by
  have returned : (run (step ⟨80, 16⟩) init (.push (.control 7 3 closeBlock (by decide)) ::
      List.replicate 20 .produce)).producer = .ret 0 := rfl
  have noPush : ∀ action ∈ List.replicate 53 Action.produce, action.NoPush :=
    fun action member => by rw [List.eq_of_mem_replicate member]; trivial
  have enough : 53 ≤ (List.replicate 53 Action.produce).countP Action.isProduce := by decide
  have roomy : total (run (step ⟨80, 16⟩) init (.push (.control 7 3 closeBlock (by decide)) ::
      List.replicate 20 .produce)).pending ≤ 80 - sizeofShmHead - 3 * 16 := by decide +kernel
  exact shmq_push_accepts ⟨80, 16⟩ (by decide) (by decide) _ _ (by decide) (.inr ⟨0, returned⟩)
    roomy _ noPush enough

end MpNet.Shmq
