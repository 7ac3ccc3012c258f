import MpNet.Net.TableInvariant
import MpNet.Net.TableOperations

/-!
# The sweeps over the table

The loops of `handle_pipe_event` and `net_loop` in the parent. Both compare `i` with
`epi.maxfd` in every round, which `do_del_conn` lowers.
-/

set_option autoImplicit false

namespace MpNet.Net.TableOperations

private theorem doDelConn_maxfd_le (s : State) {fd : Int} (nonneg : 0 ≤ fd) (isParent : Nat)
    (push : Push) : (s.doDelConn fd isParent push).epi.maxfd ≤ s.epi.maxfd := by
  unfold State.doDelConn
  split
  · exact le_rfl
  · split
    · exact le_rfl
    · simp only [Epi.release_maxfd]
      have below := Epi.usedBelow_lt (s.epi.release fd).fds fd.toNat
      split <;> omega

/-- The body of the loops, for the slots that they are about. -/
def sweepBody (removes : FdInfo → Bool) (push : Int → Push) (s : State) (i : Nat) : State :=
  if removes (s.epi.fds i) then s.doDelConn i 1 (push i) else s

private theorem sweepBody_maxfd_le (removes : FdInfo → Bool) (push : Int → Push) (s : State)
    (i : Nat) :
    (sweepBody removes push s i).epi.maxfd ≤ s.epi.maxfd := by
  unfold sweepBody
  split
  · exact doDelConn_maxfd_le s (Int.natCast_nonneg i) 1 (push i)
  · exact le_rfl

/-- The loop from `i` on; a push that exits ends it. -/
def sweep (removes : FdInfo → Bool) (push : Int → Push) (s : State) (i : Nat) : State :=
  if s.exited = false ∧ i ≤ s.epi.maxfd then
    sweep removes push (sweepBody removes push s i) (i + 1)
  else s
termination_by (s.epi.maxfd + 1 - i).toNat
decreasing_by
  have lower := sweepBody_maxfd_le removes push s i
  omega

/-- `handle_pipe_event` for the crash of the worker `bc`. -/
def crashSweep (bc : Nat) (push : Int → Push) (s : State) : State :=
  sweep (fun slot => slot.bcElem = some bc ∧ slot.type ≠ .listen) push s 0

/-- The end of `net_loop`; both times are `time_t`. -/
def idleSweep (now socketTimeout : Int) (push : Int → Push) (s : State) : State :=
  if socketTimeout ≠ 0 then
    sweep (fun slot => slot.type = .remote ∧ now - slot.sk.lastTm.toNat ≥ socketTimeout) push s 0
  else s

end MpNet.Net.TableOperations
