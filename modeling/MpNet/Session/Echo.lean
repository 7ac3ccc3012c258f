import MpNet.Net.SendPackageProperties
import MpNet.Session.AnswerOrderProperties
import MpNet.Session.RequestProperties

/-!
# The echo server

The plugin `samples/echo.cpp` sends every packet back to its client. A step is one of the
parent, or one round of the loop in `handle_recv_queue` with all that the plugin does in it.
-/

set_option autoImplicit false

namespace MpNet.Session

open Library Net Net.Epi

/-! ## The blocks of a package -/

/-- What the loop of `send_pkg_to_client` pushes, when a block has room for `room` bytes. -/
def pieces (room : Nat) : Nat → List UInt8 → List (List UInt8)
  | 0, _ => []
  | fuel + 1, pkg =>
      if pkg = [] then [] else pkg.take room :: pieces room fuel (pkg.drop room)

theorem pieces_flatten {room : Nat} (pos : 0 < room) (fuel : Nat) (pkg : List UInt8)
    (enough : pkg.length ≤ fuel) : (pieces room fuel pkg).flatten = pkg := by
  induction fuel generalizing pkg with
  | zero =>
      rw [List.eq_nil_of_length_eq_zero (Nat.le_zero.mp enough)]
      rfl
  | succ fuel ih =>
      rw [pieces]
      split
      · rename_i empty
        rw [empty]
        rfl
      · have shorter : (pkg.drop room).length ≤ fuel := by
          rw [List.length_drop]
          omega
        rw [List.flatten_cons, ih _ shorter, List.take_append_drop]

/-- A round of the loop pushes the first of the pieces that are left. -/
theorem pieces_block {c : Shmq.Config} {p : SendPackage.Package} {sendBytes room : Nat}
    (paged : SendPackage.PageSized c) (page : c.pageSize = room + Shmq.sizeofShmBlock)
    (more : sendBytes < p.pkg.length) (fuel : Nat) :
    let count := (SendPackage.curLen c.pageSize p.pkglen sendBytes).toNat
    pieces room (fuel + 1) (p.pkg.drop sendBytes) =
      (p.block sendBytes count).data :: pieces room fuel (p.pkg.drop (sendBytes + count)) := by
  intro count
  have length := p.length_eq
  have high := p.high
  have left : p.pkg.drop sendBytes ≠ [] := by
    rw [Ne, List.drop_eq_nil_iff]
    omega
  have size : count = room ∨ count = p.pkg.length - sendBytes ∧ count < room := by
    have cut := @SendPackage.PageSized.curLen_eq c paged p.pkglen sendBytes (by omega) (by omega) high
    unfold Shmq.sizeofShmBlock at page
    simp only [count, cut]
    split <;> omega
  rw [pieces, if_neg left, SendPackage.block_data, List.drop_drop]
  rcases size with same | ⟨all, short⟩
  · rw [same]
  · have rest : (p.pkg.drop sendBytes).length = count := by
      rw [List.length_drop]
      omega
    have last : p.pkg.length ≤ sendBytes + count := by omega
    have beyond : p.pkg.length ≤ sendBytes + room := by omega
    rw [List.take_of_length_le (rest.trans_lt short).le, List.take_of_length_le rest.le,
      List.drop_of_length_le last, List.drop_of_length_le beyond]

/-! ## The plugin in the worker -/

inductive EchoAction where
  /-- A step of the parent. -/
  | parent (action : Action)
  /-- A worker pops one block. Its queue takes `accepted` pieces of the answer before it
  refuses one. -/
  | worker (worker : Nat) (finAccepted : Bool) (accepted : Nat) (closeAccepted : Bool)

def Action.ofParent : Action → Bool
  | .recv .. | .send .. | .close .. => false
  | _ => true

/-- The packet that the next round hands to the plugin. -/
def Worker.echoed (w : Worker) : Option Block :=
  match w.recvq with
  | mb :: _ =>
      if mb.type = .dataBlock ∧ mb.data ≠ [] ∧ (w.getFdsess mb.fd).isSome then some mb else none
  | [] => none

/-- `proc_pkg_from_client` sends the packet back. When a push is refused, which changes
nothing, `handle_process` closes the connection. -/
def procPkgFromClient (room worker : Nat) (fd : Int) (data : List UInt8) (accepted : Nat)
    (closeAccepted : Bool) : List Action :=
  let answer := pieces room data.length data
  (answer.take accepted).map (fun piece => .send worker fd piece true) ++
    if accepted < answer.length then [.close worker fd closeAccepted] else []

def echoParts (room : Nat) (s : State) : EchoAction → List Action
  | .parent action => if action.ofParent then [action] else []
  | .worker worker finAccepted accepted closeAccepted =>
      .recv worker finAccepted ::
        match (s.worker worker).echoed with
        | some mb => procPkgFromClient room worker mb.fd mb.data accepted closeAccepted
        | none => []

def echoStep (room : Nat) : State → EchoAction → State := composite step (echoParts room)

end MpNet.Session
