import MpNet.Library.Doorbell
import MpNet.Shmq.Reachable

/-!
# The shared queue and its pipe as a queue with a doorbell

The head update of `shmq_push` appends, its `write` rings and the tail update of
`shmq_pop` takes; every other access is invisible.
-/

set_option autoImplicit false

namespace MpNet.Shmq

open Library

variable {c : Config} {s : State}

/-- The unread bytes of the pipe after the next step of the producer. -/
def writePipe (capacity : Nat) (s : State) (pipe : Nat) : Nat :=
  match s.producer with
  | .writePipe _ => if pipe < capacity then pipe + 1 else pipe
  | _ => pipe

/-- The head update has happened and the pipe has not been written. -/
def PushPc.ringing : PushPc → Bool
  | .writePipe _ => true
  | _ => false

def bell (s : State) (pipe : Nat) : Doorbell Message := ⟨s.pending, s.producer.ringing, pipe⟩

theorem callPush_bell (s : State) (message : Message) (pipe : Nat) :
    bell (callPush s message) pipe = bell s pipe := by
  unfold callPush
  split
  · rename_i idle
    simp [bell, State.pending, idle, PushPc.ringing]
  · rename_i returned
    simp [bell, State.pending, returned, PushPc.ringing]
  · rfl

theorem callPop_bell (s : State) (pipe : Nat) : bell (callPop s) pipe = bell s pipe := by
  unfold callPop
  split <;> rfl

private theorem produce_bell (count : s.popped ≤ s.published.length) (capacity pipe : Nat) :
    bell (produce c s) (writePipe capacity s pipe) =
      match s.producer with
      | .storeHead message _ => (bell s pipe).append message
      | .writePipe _ => (bell s pipe).ring capacity
      | _ => bell s pipe := by
  cases pc : s.producer <;> simp only [produce, writePipe, pc]
  case storeHead message head =>
      exact congrArg (fun queue => (⟨queue, true, pipe⟩ : Doorbell Message))
        (State.pending_append count message)
  case writePipe => rfl
  case checkLength | waitHead => split <;> simp [bell, pc, PushPc.ringing, State.pending]
  case readHeadPos | compareTail | gapHead =>
      split <;> (try split) <;> simp [bell, pc, PushPc.ringing, State.pending]
  case copyHeader => split <;> simp [bell, pc, PushPc.ringing, State.pending]
  all_goals simp [bell, pc, PushPc.ringing, State.pending]

private theorem consume_bell (pipe : Nat) :
    bell (consume c s) pipe =
      match s.consumer with
      | .storeTail _ _ => (bell s pipe).take
      | _ => bell s pipe := by
  cases pc : s.consumer <;> simp only [consume, pc]
  case storeTail => simp [bell, Doorbell.take, State.pending, List.tail_drop]
  case emptyHead | alignTail | roomTail | padType | againHead => split <;> rfl
  all_goals rfl

private theorem produce_published_le :
    (produce c s).popped = s.popped ∧
      (produce c s).published.length ≤ s.published.length + 1 := by
  cases pc : s.producer <;> simp only [produce, pc]
  case storeHead => simp
  case checkLength | waitHead => split <;> simp
  case readHeadPos | compareTail | gapHead => split <;> (try split) <;> simp
  all_goals simp

/-- A producer leaves no completed block without an unread byte. -/
theorem produce_rung {capacity pipe : Nat} (room : 0 < capacity) (rung : (bell s pipe).Rung) :
    (bell (produce c s) (writePipe capacity s pipe)).Rung := by
  by_cases count : s.popped ≤ s.published.length
  · rw [produce_bell count]
    split
    · rename_i pc
      exact rung.append (by simp [bell, pc, PushPc.ringing]) _
    · exact Doorbell.rung_ring room _
    · exact rung
  · obtain ⟨popped, published⟩ := produce_published_le (c := c) (s := s)
    have none : (produce c s).pending = [] := List.drop_eq_nil_of_le (by omega)
    intro occupied
    simp [Doorbell.completed, bell, none] at occupied

theorem consume_rung {pipe : Nat} (rung : (bell s pipe).Rung) :
    (bell (consume c s) pipe).Rung := by
  rw [consume_bell]
  split
  · exact rung.take
  · exact rung

end MpNet.Shmq
