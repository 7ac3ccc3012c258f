import MpNet.Net.EdgeTriggered

/-!
# The calls of `accept`

`safe_tcp_accept`, `do_open_conn` and the loop over it in the parent, on the results that
`accept` and `set_io_blockability` report.
-/

set_option autoImplicit false

namespace MpNet.Net.EdgeTriggered

inductive Errno where
  | eintr
  | eagain
  | ewouldblock
  | emfile
  | enfile
  -- `ECONNABORTED`, `ENOBUFS`, `EPROTO` and so on
  | other (code : Nat)
  deriving DecidableEq

/-- What a call of `accept` reports, and for a descriptor what becomes of
`set_io_blockability`: the `errno` with which it fails. -/
inductive AcceptResult where
  | newfd (conn : Accepted) (blockability : Option Errno)
  | error (errno : Errno)

def AcceptResult.Empty : AcceptResult → Prop
  | .error .eagain | .error .ewouldblock => True
  | _ => False

instance : (result : AcceptResult) → Decidable result.Empty
  | .error .eagain | .error .ewouldblock => .isTrue trivial
  | .error .eintr | .error .emfile | .error .enfile | .error (.other _) | .newfd _ _ => .isFalse id

/-- How `safe_tcp_accept` ends, on which result of `accept`, and the results that are left;
`none` while `accept` blocks. -/
def safeTcpAccept : List AcceptResult →
    Option ((Accepted ⊕ Errno) × AcceptResult × List AcceptResult)
  | [] => none
  | .error .eintr :: rest => safeTcpAccept rest
  | .error errno :: rest => some (.inr errno, .error errno, rest)
  | .newfd conn none :: rest => some (.inl conn, .newfd conn none, rest)
  -- the descriptor is closed again
  | .newfd conn (some errno) :: rest => some (.inr errno, .newfd conn (some errno), rest)

/-- The comparisons of `errno` in `do_open_conn`. -/
def errorOf : Errno → EventLoop.AcceptError
  | .emfile | .enfile => .tooMany
  | .eagain | .ewouldblock => .again
  | .eintr | .other _ => .other

theorem safeTcpAccept_shorter {results rest : List AcceptResult} {accepted : Accepted ⊕ Errno}
    {last : AcceptResult} (accepts : safeTcpAccept results = some (accepted, last, rest)) :
    rest.length < results.length := by
  induction results with
  | nil => cases accepts
  | cons result later ih =>
      unfold safeTcpAccept at accepts
      split at accepts
      · cases ‹_›
      · rename_i same
        cases same
        exact (ih accepts).trans (Nat.lt_succ_self _)
      all_goals
        rename_i same
        cases same
        cases accepts
        exact Nat.lt_succ_self _

namespace State

/-- `while (do_open_conn(fd, is_parent) > 0)`: the state in which it stops, and the last
result of `accept`. The kernel gives out free numbers only. -/
def acceptLoop (s : State) (fd : Int) (results : List AcceptResult) :
    Option (State × AcceptResult) :=
  match _accepts : safeTcpAccept results with
  | none => none
  | some (.inl conn, last, rest) =>
      if s.Free conn.newfd then
        if conn.newfd > 0 then (s.doOpenConn fd conn).acceptLoop fd rest
        else some (s.doOpenConn fd conn, last)
      else none
  | some (.inr errno, last, _) => some (s.acceptError fd (errorOf errno), last)
termination_by results.length
decreasing_by exact safeTcpAccept_shorter _accepts

end State

end MpNet.Net.EdgeTriggered
