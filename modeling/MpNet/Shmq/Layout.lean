import MpNet.Shmq.Interleaving

/-!
# How the ring holds a queue

`Laid` places messages one after the other, `Ring` places the pending messages
between `tail` and `head`, in one stretch or in two when `head` has wrapped. The
older stretch of a wrapped ring ends at a mark: a PAD header, or too little room
for one.
-/

set_option autoImplicit false

namespace MpNet.Shmq

open Library

/-- The messages lie one after the other from `start` to `stop`. -/
def Laid (memory : Memory) : Int → List Message → Int → Prop
  | start, [], stop => start = stop
  | start, message :: rest, stop =>
      memory.Holds start message.bytes ∧ Laid memory (start + message.size) rest stop

namespace Laid

variable {memory : Memory} {start stop : Int} {messages : List Message}

theorem le (laid : Laid memory start messages stop) : start ≤ stop := by
  induction messages generalizing start with
  | nil => exact laid.le
  | cons message rest ih =>
      have size := message.size_ge
      have := ih laid.2
      omega

private theorem eq_nil (laid : Laid memory start messages start) : messages = [] := by
  cases messages with
  | nil => rfl
  | cons message rest =>
      have size := message.size_ge
      have := laid.2.le
      omega

theorem agree {after : Memory} (laid : Laid memory start messages stop)
    (same : Memory.Agree memory after start stop) : Laid after start messages stop := by
  induction messages generalizing start with
  | nil => exact laid
  | cons message rest ih =>
      have size := message.size_ge
      have length := message.bytes_length
      have order := laid.2.le
      exact ⟨laid.1.agree (same.narrow le_rfl (by omega)),
        ih laid.2 (same.narrow (by omega) le_rfl)⟩

theorem concat {message : Message} (laid : Laid memory start messages stop)
    (holds : memory.Holds stop message.bytes) :
    Laid memory start (messages ++ [message]) (stop + message.size) := by
  induction messages generalizing start with
  | nil =>
      have same : start = stop := laid
      subst same
      exact ⟨holds, rfl⟩
  | cons head rest ih => exact ⟨laid.1, ih laid.2⟩

end Laid

/-- The mark at which the consumer follows a wrapped `head`. -/
def Marked (c : Config) (memory : Memory) (stop : Int) : Prop :=
  c.length - stop < 13 ∨ blockType memory stop = padBlock

inductive Ring (c : Config) (memory : Memory) (head tail : Int) (pending : List Message) : Prop
  | straight (low : 8 ≤ tail) (high : head ≤ c.length) (laid : Laid memory tail pending head)
  | wrapped (older newer : List Message) (stop : Int) (split : pending = older ++ newer)
      (olderLaid : Laid memory tail older stop) (newerLaid : Laid memory 8 newer head)
      (order : head < tail) (high : stop ≤ c.length) (marked : Marked c memory stop)
      (gap : head = 8 ∨ head + c.pageSize ≤ tail)

/-- The next message lies complete at `tail`. -/
def Front (c : Config) (memory : Memory) (head tail : Int) (pending : List Message) : Prop :=
  ∃ message rest, pending = message :: rest ∧ memory.Holds tail message.bytes ∧
    tail + message.size ≤ c.length ∧ (head < tail ∨ tail + message.size ≤ head)

/-- The consumer has reached the mark and all pending messages lie at the start. -/
def AtMark (memory : Memory) (head tail : Int) (pending : List Message) : Prop :=
  head < tail ∧ Laid memory 8 pending head

/-- The producer may write `count` bytes at `head`. -/
def Clear (c : Config) (head tail count : Int) : Prop :=
  head + count ≤ c.length ∧ (tail ≤ head ∨ head + count + c.pageSize ≤ tail)

def OnlyAt (before after : Memory) (head count : Int) : Prop :=
  ∀ position, position < head ∨ head + count ≤ position → after position = before position

section Ring

variable {c : Config} {memory : Memory} {head tail : Int} {pending : List Message}

namespace Ring

theorem low (ring : Ring c memory head tail pending) : 8 ≤ tail ∧ 8 ≤ head := by
  cases ring with
  | straight low _ laid => exact ⟨low, low.trans laid.le⟩
  | wrapped _ _ _ _ _ newerLaid order _ _ _ =>
      have := newerLaid.le
      omega

theorem high (ring : Ring c memory head tail pending) : tail ≤ c.length ∧ head ≤ c.length := by
  cases ring with
  | straight _ high laid =>
      have := laid.le
      omega
  | wrapped _ _ _ _ olderLaid _ order high _ _ =>
      have := olderLaid.le
      omega

theorem gap (ring : Ring c memory head tail pending) :
    tail ≤ head ∨ head = 8 ∨ head + c.pageSize ≤ tail := by
  cases ring with
  | straight _ _ laid => exact .inl laid.le
  | wrapped _ _ _ _ _ _ _ _ _ gap => exact .inr gap

theorem empty (ring : Ring c memory head head pending) : pending = [] := by
  cases ring with
  | straight _ _ laid => exact laid.eq_nil
  | wrapped _ _ _ _ _ _ order _ _ _ => omega

theorem front_or_mark (ring : Ring c memory head tail pending) (apart : tail ≠ head) :
    Front c memory head tail pending ∨
      AtMark memory head tail pending ∧ Marked c memory tail := by
  cases ring with
  | straight low high laid =>
      cases pending with
      | nil => exact absurd laid apart
      | cons message rest =>
          have := laid.2.le
          exact .inl ⟨message, rest, rfl, laid.1, by omega, .inr this⟩
  | wrapped older newer stop split olderLaid newerLaid order high marked gap =>
      cases older with
      | nil =>
          have same : tail = stop := olderLaid
          subst same split
          exact .inr ⟨⟨order, newerLaid⟩, marked⟩
      | cons message rest =>
          have := olderLaid.2.le
          exact .inl ⟨message, rest ++ newer, split, olderLaid.1, by omega, .inl order⟩

theorem store {after : Memory} {count : Int} (ring : Ring c memory head tail pending)
    (clear : Clear c head tail count) (page : 0 < c.pageSize)
    (only : OnlyAt memory after head count) : Ring c after head tail pending := by
  cases ring with
  | straight low high laid =>
      have := laid.le
      exact .straight low high (laid.agree fun position _ below => only position (.inl below))
  | wrapped older newer stop split olderLaid newerLaid order high marked gap =>
      have order' := olderLaid.le
      have room := clear.2
      refine .wrapped older newer stop split
        (olderLaid.agree fun position above _ => only position (by omega))
        (newerLaid.agree fun position _ below => only position (.inl below)) order high ?_ gap
      refine marked.imp_right fun pad => ?_
      unfold blockType at pad ⊢
      rw [only _ (by omega), pad]

theorem publish {message : Message} (ring : Ring c memory head tail pending)
    (clear : Clear c head tail message.size) (page : 0 < c.pageSize)
    (holds : memory.Holds head message.bytes) :
    Ring c memory (head + message.size) tail (pending ++ [message]) := by
  cases ring with
  | straight low high laid => exact .straight low clear.1 (laid.concat holds)
  | wrapped older newer stop split olderLaid newerLaid order high marked gap =>
      have size := message.size_ge
      have room := clear.2
      refine .wrapped older (newer ++ [message]) stop (by rw [split, List.append_assoc]) olderLaid
        (newerLaid.concat holds) ?_ high marked (.inr (by omega))
      omega

/-- `head` may wrap over a mark once the consumer has left the start. -/
theorem wrap (ring : Ring c memory head tail pending) (order : tail ≤ head) (left : 8 < tail)
    (marked : Marked c memory head) : Ring c memory 8 tail pending := by
  cases ring with
  | straight low high laid =>
      exact .wrapped pending [] head (List.append_nil _).symm laid rfl left high marked (.inl rfl)
  | wrapped _ _ _ _ _ _ above _ _ _ => omega

/-- `tail` may wrap once the consumer has reached the mark. -/
theorem unwrap (ring : Ring c memory head tail pending)
    (atMark : AtMark memory head tail pending) : Ring c memory head 8 pending :=
  .straight le_rfl ring.high.2 atMark.2

/-- The message at `tail` may be released. -/
theorem pop {message : Message} {rest : List Message}
    (ring : Ring c memory head tail (message :: rest)) (holds : memory.Holds tail message.bytes)
    (room : tail + message.size ≤ c.length) : Ring c memory head (tail + message.size) rest := by
  have size := message.size_ge
  cases ring with
  | straight low high laid => exact .straight (by omega) high laid.2
  | wrapped older newer stop split olderLaid newerLaid order high marked gap =>
      cases older with
      | nil =>
          have same : tail = stop := olderLaid
          subst same
          rcases marked with short | pad
          · omega
          · exact absurd ((blockType_of_holds holds).symm.trans pad) message.not_pad
      | cons first older =>
          obtain ⟨rfl, rfl⟩ := List.cons.inj split
          exact .wrapped older newer stop rfl olderLaid.2 newerLaid (by omega) high marked (by omega)

end Ring

end Ring

end MpNet.Shmq
