import MpNet.Shmq.Layout

/-!
# The invariant of the shared queue

Each side has an assertion for every program counter. `ProduceEffect` and
`ConsumeEffect` say once what a step of a side can do to the shared state; every
assertion of the other side is stable under them, so the invariant survives
every interleaving.
-/

set_option autoImplicit false

namespace MpNet.Shmq

open Library

structure Config.Sized (c : Config) : Prop where
  room : sizeofShmHead + c.pageSize ≤ c.length
  small : c.length < 2 ^ 30
  page : (sizeofShmBlock : Int) ≤ c.pageSize

/-- The sizes as far as the invariant needs them; the sums that the code forms after
`align_queue_head` then fit into 32 bits. -/
structure Config.Fits (c : Config) : Prop where
  room : 8 + c.pageSize ≤ c.length
  page : 13 ≤ c.pageSize
  length_lt : c.length < 2147483648

theorem Config.Sized.fits {c : Config} (sized : c.Sized) : c.Fits := by
  obtain ⟨room, small, page⟩ := sized
  simp only [sizeofShmHead, sizeofShmBlock] at room page
  exact ⟨room, page, by omega⟩

/-! ## Assertions -/

section Assertions

variable (c : Config) (s : State)

abbrev State.front : Prop := Front c s.memory s.head s.tail s.pending

abbrev State.atMark : Prop := AtMark s.memory s.head s.tail s.pending

/-- The unwrapped ring from which the producer may wrap `head`. -/
def State.Wrappable : Prop := 8 < s.tail ∧ s.tail ≤ s.head

def State.Fitting (message : Message) : Prop :=
  message.size ≤ c.pageSize ∧ s.head + message.size ≤ c.length

/-- The waiting loop has found room for the message. -/
def State.Writable (message : Message) : Prop :=
  message.size ≤ c.pageSize ∧ Clear c s.head s.tail message.size

/-- The message lies where the consumer has just released it. -/
def State.Held (curMb : Int) (message : Message) : Prop :=
  s.memory.Holds curMb message.bytes ∧ s.tail = curMb + message.size ∧
    message.size ≤ c.pageSize

def PushOk : PushPc → Prop
  | .idle | .checkLength _ | .writePipe _ | .exited => True
  | .ret result => result = 0 ∨ result = -1
  | .readTailPos m => m.size ≤ c.pageSize
  | .readHeadPos m tailPos =>
      m.size ≤ c.pageSize ∧ 8 ≤ tailPos ∧
        (c.pageSize ≤ c.length - s.head ∨ tailPos ≤ s.tail ∧ s.tail ≤ s.head)
  | .compareTail m headPos surplus =>
      m.size ≤ c.pageSize ∧ s.Wrappable ∧ headPos = s.head ∧ surplus = c.length - s.head
  | .resetTail _ | .resetHead _ => False
  | .padHead m surplus =>
      m.size ≤ c.pageSize ∧ s.Wrappable ∧ surplus = c.length - s.head ∧ 13 ≤ surplus
  | .padWrite m surplus pad =>
      m.size ≤ c.pageSize ∧ s.Wrappable ∧ surplus = c.length - s.head ∧ 13 ≤ surplus ∧
        pad = s.head
  | .wrapHead m => m.size ≤ c.pageSize ∧ s.Wrappable ∧ Marked c s.memory s.head
  | .waitTail m cnt => s.Fitting c m ∧ cnt < 10
  | .waitHead m cnt tail => s.Fitting c m ∧ cnt < 10 ∧ (tail ≤ s.head → s.tail ≤ s.head)
  | .gapTail m cnt => s.Fitting c m ∧ cnt < 10
  | .gapHead m cnt tail =>
      s.Fitting c m ∧ cnt < 10 ∧ tail ≤ c.length ∧ 0 ≤ tail ∧
        (s.head + m.size + c.pageSize ≤ tail → Clear c s.head s.tail m.size)
  | .headMb m => s.Writable c m
  | .copyHeader m nextMb => s.Writable c m ∧ nextMb = s.head
  | .copyData m nextMb =>
      s.Writable c m ∧ nextMb = s.head ∧ s.memory.Holds s.head m.mb.header
  | .loadHead m => s.Writable c m ∧ s.memory.Holds s.head m.bytes
  | .storeHead m head => s.Writable c m ∧ s.memory.Holds s.head m.bytes ∧ head = s.head

def PopOk : PopPc → Prop
  | .idle | .emptyTail | .finish _ | .ret _ => True
  | .emptyHead tail => tail = s.tail
  | .alignHead => s.tail ≠ s.head
  | .alignTail head =>
      (s.tail ≤ head → s.front c) ∧ (head < s.tail → s.head < s.tail)
  | .padTail => s.head < s.tail
  | .roomTail pad => s.head < s.tail ∧ pad = s.tail
  | .padType pad => s.head < s.tail ∧ pad = s.tail ∧ 13 ≤ c.length - s.tail
  | .wrapTail => s.atMark
  | .againTail => s.front c ∨ s.tail = 8
  | .againHead tail => tail = s.tail ∧ (s.front c ∨ s.tail = 8)
  | .tailMb => s.front c
  | .headPos curMb | .loadTail curMb => s.front c ∧ curMb = s.tail
  | .storeTail curMb tail => s.front c ∧ curMb = s.tail ∧ tail = s.tail

/-- How the returned blocks follow from the published ones. -/
def Delivered : PopPc → Prop
  | .finish curMb =>
      ∃ taken message, s.published.take s.popped = taken ++ [message] ∧
        s.returned = taken.map Message.bytes ∧ s.Held c curMb message
  | .ret (some curMb) =>
      ∃ taken message, s.published.take s.popped = taken ++ [message] ∧
        s.returned = (taken ++ [message]).map Message.bytes ∧ s.Held c curMb message
  | _ => s.returned = (s.published.take s.popped).map Message.bytes

structure Inv : Prop where
  ring : Ring c s.memory s.head s.tail s.pending
  bounded : ∀ message ∈ s.published, message.size ≤ c.pageSize
  count : s.popped ≤ s.published.length
  push : PushOk c s s.producer
  pop : PopOk c s s.consumer
  delivered : Delivered c s s.consumer

end Assertions

theorem inv_init {c : Config} (fits : c.Fits) : Inv c init where
  ring := .straight le_rfl (by have := fits.room; have := fits.page; simp [init, sizeofShmHead]; omega) rfl
  bounded := by simp [init]
  count := Nat.le_refl 0
  push := trivial
  pop := trivial
  delivered := rfl

/-! ## What a step can do -/

inductive ProduceEffect (c : Config) (s : State) : State → Prop
  | quiet (pc : PushPc) (rings : Nat) :
      ProduceEffect c s { s with producer := pc, rings := rings }
  | store (pc : PushPc) (memory : Memory) (count : Int) (clear : Clear c s.head s.tail count)
      (only : OnlyAt s.memory memory s.head count) :
      ProduceEffect c s { s with memory := memory, producer := pc }
  | wrap (pc : PushPc) (wrappable : s.Wrappable) (marked : Marked c s.memory s.head) :
      ProduceEffect c s { s with head := 8, producer := pc }
  | publish (pc : PushPc) (message : Message) (writable : s.Writable c message)
      (holds : s.memory.Holds s.head message.bytes) :
      ProduceEffect c s
        { s with
          head := s.head + message.size
          published := s.published ++ [message]
          producer := pc }

inductive ConsumeEffect (c : Config) (s : State) : State → Prop
  | quiet (pc : PopPc) : ConsumeEffect c s { s with consumer := pc }
  | unwrap (pc : PopPc) (atMark : s.atMark) :
      ConsumeEffect c s { s with tail := 8, consumer := pc }
  | pop (message : Message) (rest : List Message) (first : s.pending = message :: rest)
      (holds : s.memory.Holds s.tail message.bytes) (room : s.tail + message.size ≤ c.length)
      (inside : s.head < s.tail ∨ s.tail + message.size ≤ s.head) :
      ConsumeEffect c s
        { s with
          tail := s.tail + message.size
          popped := s.popped + 1
          consumer := .finish s.tail }
  | finish (curMb : Int) :
      ConsumeEffect c s
        { s with
          returned := s.returned ++ [blockBytes s.memory curMb]
          consumer := .ret (some curMb) }

section Steps

variable {c : Config} {s : State}

theorem writePad_onlyAt (memory : Memory) (pad surplus : Int) :
    OnlyAt memory (writePad memory pad surplus) pad 13 := by
  intro position outside
  unfold writePad
  rw [Memory.write_of_outside (by simp; omega), Memory.write_of_outside (by simp; omega),
    Memory.write_of_outside (by simp; omega)]

private theorem writePad_marked (c : Config) (memory : Memory) (pad surplus : Int) :
    Marked c (writePad memory pad surplus) pad := by
  right
  unfold blockType writePad
  rw [Memory.write_of_outside (by simp), Memory.write_of_outside (by simp; omega)]
  simp [Memory.write]

private theorem write_onlyAt {memory : Memory} {head address count : Int} {bytes : List UInt8}
    (low : head ≤ address) (high : address + bytes.length ≤ head + count) :
    OnlyAt memory (memory.write address bytes) head count := by
  intro position outside
  exact Memory.write_of_outside (by omega)

private theorem copied {memory : Memory} {address : Int} {message : Message}
    (holds : memory.Holds address message.mb.header) :
    (memory.write (address + sizeofShmBlock) message.data).Holds address message.bytes := by
  refine Memory.holds_append.mpr ⟨holds.agree (Memory.agree_write (.inl ?_)), ?_⟩
  · simp
  · simpa using Memory.holds_write memory (address + sizeofShmBlock) message.data

private theorem header_only {memory : Memory} {address : Int} {message : Message}
    (short : ¬ (sizeofShmBlock : Int) < message.size)
    (holds : memory.Holds address message.mb.header) : memory.Holds address message.bytes := by
  have length := message.data_length
  have none : message.data = [] := by
    apply List.eq_nil_of_length_eq_zero
    simp only [sizeofShmBlock] at short
    omega
  simpa [Message.bytes, none] using holds

theorem produce_effect (fits : c.Fits) (inv : Inv c s) :
    ProduceEffect c s (produce c s) ∧ PushOk c (produce c s) (produce c s).producer := by
  obtain ⟨room, page, length_lt⟩ := fits
  have low := inv.ring.low
  have high := inv.ring.high
  have gap := inv.ring.gap
  have ok := inv.push
  cases pc : s.producer <;> simp only [produce, pc] <;> simp only [pc, PushOk] at ok
  case idle | ret | exited => exact ⟨.quiet _ _, by simp [PushOk, ok]⟩
  case checkLength m =>
      rw [u32_of_range (by omega) (by omega)]
      split
      · exact ⟨.quiet _ _, .inr rfl⟩
      · exact ⟨.quiet _ _, by simp only [PushOk]; omega⟩
  case readTailPos m =>
      refine ⟨.quiet _ _, ok, low.1, ?_⟩
      simp only
      omega
  case readHeadPos m tailPos =>
      rw [u32_of_range (by omega) (by omega)]
      split
      · split
        · exact ⟨.quiet _ _, trivial⟩
        · refine ⟨.quiet _ _, ok.1, ?_, rfl, rfl⟩
          simp only [State.Wrappable, sizeofShmHead] at *
          omega
      · refine ⟨.quiet _ _, ⟨ok.1, ?_⟩, by decide⟩
        simp only
        omega
  case compareTail m headPos surplus =>
      obtain ⟨size, wrappable, rfl, rfl⟩ := ok
      rw [if_neg (by unfold State.Wrappable at wrappable; omega)]
      split
      · rename_i short
        exact ⟨.quiet _ _, size, wrappable, .inl short⟩
      · rename_i long
        simp only [sizeofShmBlock] at long
        exact ⟨.quiet _ _, size, wrappable, rfl, by omega⟩
  case padHead m surplus =>
      exact ⟨.quiet _ _, ok.1, ok.2.1, ok.2.2.1, ok.2.2.2, rfl⟩
  case padWrite m surplus pad =>
      obtain ⟨size, wrappable, rfl, long, rfl⟩ := ok
      refine ⟨.store _ _ 13 ⟨by omega, .inl wrappable.2⟩ (writePad_onlyAt _ _ _), size, wrappable,
        writePad_marked _ _ _ _⟩
  case wrapHead m =>
      refine ⟨.wrap _ ok.2.1 ok.2.2, ⟨ok.1, ?_⟩, by decide⟩
      simp only [sizeofShmHead]
      omega
  case waitTail m cnt => exact ⟨.quiet _ _, ok.1, ok.2, id⟩
  case waitHead m cnt tail =>
      split
      · exact ⟨.quiet _ _, ok.1, ok.2.1⟩
      · exact ⟨.quiet _ _, ok.1.1, ok.1.2, .inl (ok.2.2 (by omega))⟩
  case gapTail m cnt =>
      exact ⟨.quiet _ _, ok.1, ok.2, high.1, by have := low.1; omega, fun room => ⟨ok.1.2, .inr room⟩⟩
  case gapHead m cnt tail =>
      have size := m.size_ge
      obtain ⟨fitting, tries, upper, lower, clear⟩ := ok
      have bounds := fitting
      unfold State.Fitting at bounds
      rw [u32_of_range lower (by omega), u32_of_range (by omega) (by omega)]
      split
      · split
        · exact ⟨.quiet _ _, .inr rfl⟩
        · exact ⟨.quiet _ _, fitting, by omega⟩
      · exact ⟨.quiet _ _, fitting.1, clear (by omega)⟩
  case headMb m => exact ⟨.quiet _ _, ok, rfl⟩
  case copyHeader m nextMb =>
      obtain ⟨writable, rfl⟩ := ok
      have size := m.size_ge
      refine ⟨.store _ _ m.size writable.2 (write_onlyAt le_rfl ?_), ?_⟩
      · simp only [ShmBlock.header_length, sizeofShmBlock]
        omega
      · have holds := Memory.holds_write s.memory s.head m.mb.header
        split
        · exact ⟨writable, rfl, holds⟩
        · rename_i short
          exact ⟨writable, header_only short holds⟩
  case copyData m nextMb =>
      obtain ⟨writable, rfl, holds⟩ := ok
      have size := m.data_length
      refine ⟨.store _ _ m.size writable.2 (write_onlyAt ?_ ?_), writable, copied holds⟩
      · simp [sizeofShmBlock]
      · simp only [sizeofShmBlock]
        omega
  case loadHead m => exact ⟨.quiet _ _, ok.1, ok.2, rfl⟩
  case storeHead m head =>
      obtain ⟨writable, holds, rfl⟩ := ok
      have size := m.size_ge
      have bound := writable.2.1
      rw [i32_of_range (by omega) (by omega)]
      exact ⟨.publish _ m writable holds, trivial⟩
  case writePipe m => exact ⟨.quiet _ _, .inl rfl⟩

theorem consume_effect (fits : c.Fits) (inv : Inv c s) :
    ConsumeEffect c s (consume c s) ∧ PopOk c (consume c s) (consume c s).consumer := by
  obtain ⟨room, page, length_lt⟩ := fits
  have low := inv.ring.low
  have high := inv.ring.high
  have ok := inv.pop
  cases pc : s.consumer <;> simp only [consume, pc] <;> simp only [pc, PopOk] at ok
  case idle | ret => exact ⟨.quiet s.consumer, by simp only [PopOk]⟩
  case emptyTail => exact ⟨.quiet _, rfl⟩
  case emptyHead tail =>
      subst ok
      split
      · exact ⟨.quiet _, trivial⟩
      · exact ⟨.quiet _, ‹_›⟩
  case alignHead =>
      refine ⟨.quiet _, fun straight => ?_, id⟩
      rcases inv.ring.front_or_mark ok with front | ⟨atMark, _⟩
      · exact front
      · have := atMark.1
        simp only at straight
        omega
  case alignTail head =>
      split
      · exact ⟨.quiet _, .inl (ok.1 ‹_›)⟩
      · exact ⟨.quiet _, ok.2 (by omega)⟩
  case padTail => exact ⟨.quiet _, ok, rfl⟩
  case roomTail pad =>
      obtain ⟨below, rfl⟩ := ok
      rw [u32_of_range (by omega) (by omega)]
      split <;> rename_i test <;> simp only [sizeofShmBlock] at test
      · refine ⟨.quiet _, ?_⟩
        rcases inv.ring.front_or_mark (by omega) with ⟨m, _, _, _, room, _⟩ | ⟨atMark, _⟩
        · have := m.size_ge
          omega
        · exact atMark
      · exact ⟨.quiet _, below, rfl, by simp only; omega⟩
  case padType pad =>
      obtain ⟨below, rfl, long⟩ := ok
      rcases inv.ring.front_or_mark (by omega) with front | ⟨atMark, marked⟩
      · obtain ⟨m, _, _, holds, _, _⟩ := id front
        rw [if_neg (by rw [blockType_of_holds holds]; exact m.not_pad)]
        exact ⟨.quiet _, .inl front⟩
      · rw [if_pos (marked.resolve_left (by omega))]
        exact ⟨.quiet _, atMark⟩
  case wrapTail => exact ⟨.unwrap _ ok, .inr rfl⟩
  case againTail => exact ⟨.quiet _, rfl, ok⟩
  case againHead tail =>
      obtain ⟨rfl, place⟩ := ok
      split
      · exact ⟨.quiet _, trivial⟩
      · rename_i apart
        refine ⟨.quiet _, place.elim id fun start => ?_⟩
        rcases inv.ring.front_or_mark apart with front | ⟨atMark, _⟩
        · exact front
        · have := atMark.1
          omega
  case tailMb => exact ⟨.quiet _, ok, rfl⟩
  case headPos curMb => exact ⟨.quiet _, ok⟩
  case loadTail curMb => exact ⟨.quiet _, ok.1, ok.2, rfl⟩
  case storeTail curMb tail =>
      obtain ⟨⟨m, rest, first, holds, room, inside⟩, rfl, rfl⟩ := ok
      have size := m.size_ge
      rw [blockLength_of_holds holds, i32_of_range (by omega) (by omega)]
      exact ⟨.pop m rest first holds room inside, trivial⟩
  case finish curMb => exact ⟨.finish _, trivial⟩

end Steps

end MpNet.Shmq
