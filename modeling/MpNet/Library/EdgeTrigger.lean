import Mathlib.Data.List.Basic

/-!
# Edge-triggered input

A socket is reported once after something arrives, however much has arrived by then.
Its reader notes on an agenda what is still to be read without a further report.
Input that is neither reported nor on the agenda is never read.
-/

set_option autoImplicit false

namespace MpNet.Library

structure EdgeSocket (Item : Type*) where
  unread : List Item
  /-- The end of the stream has arrived. -/
  fin : Bool
  /-- A report is pending. -/
  report : Bool

namespace EdgeSocket

variable {Item : Type*}

/-- Nothing is left to be read. -/
def Drained (socket : EdgeSocket Item) : Prop := socket.unread = [] ∧ socket.fin = false

/-- What the socket holds is reported, or on the agenda. -/
def Announced (socket : EdgeSocket Item) (agenda : Prop) : Prop :=
  socket.report = true ∨ agenda ∨ socket.Drained

instance [DecidableEq Item] (socket : EdgeSocket Item) : Decidable socket.Drained :=
  inferInstanceAs (Decidable (_ ∧ _))

instance [DecidableEq Item] (socket : EdgeSocket Item) (agenda : Prop) [Decidable agenda] :
    Decidable (socket.Announced agenda) := inferInstanceAs (Decidable (_ ∨ _))

/-- Registering a socket reports what it already holds. -/
def register (unread : List Item) (fin : Bool) : EdgeSocket Item :=
  ⟨unread, fin, !unread.isEmpty || fin⟩

def arrive (socket : EdgeSocket Item) (items : List Item) : EdgeSocket Item :=
  { socket with unread := socket.unread ++ items, report := true }

def finish (socket : EdgeSocket Item) : EdgeSocket Item :=
  { socket with fin := true, report := true }

/-- The report is delivered. -/
def delivered (socket : EdgeSocket Item) : EdgeSocket Item := { socket with report := false }

def take (socket : EdgeSocket Item) (count : Nat) : EdgeSocket Item :=
  { socket with unread := socket.unread.drop count }

variable {socket : EdgeSocket Item} {agenda : Prop}

theorem Announced.mono {later : Prop} (announced : socket.Announced agenda)
    (kept : agenda → later) : socket.Announced later := by
  rcases announced with report | noted | drained
  · exact .inl report
  · exact .inr (.inl (kept noted))
  · exact .inr (.inr drained)

theorem announced_register (unread : List Item) (fin : Bool) (agenda : Prop) :
    (register unread fin).Announced agenda := by
  cases unread with
  | nil =>
      cases fin with
      | false => exact .inr (.inr ⟨rfl, rfl⟩)
      | true => exact .inl rfl
  | cons item rest => exact .inl rfl

theorem announced_delivered (socket : EdgeSocket Item) (noted : agenda) :
    socket.delivered.Announced agenda := .inr (.inl noted)

/-- Without a report, what is off the agenda has been read to the end. -/
theorem Announced.drained (announced : socket.Announced agenda) (silent : socket.report = false)
    (absent : ¬ agenda) : socket.Drained := by
  rcases announced with report | noted | drained
  · exact absurd report (by simp [silent])
  · exact absurd noted absent
  · exact drained

end EdgeSocket

end MpNet.Library
