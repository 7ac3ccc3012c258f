import MpNet.Session.Traffic

/-!
# Workers that crash

A worker may die at any point. The parent goes on until it sees EPOLLHUP on the pipe from the
worker; then it deletes all that belongs to the worker and starts another one with new queues,
unless it has done so too often or `fork` fails.
-/

set_option autoImplicit false

namespace MpNet.Session

open Library Net

structure CrashState where
  session : State
  /-- The workers that do not run. -/
  dead : Nat → Bool
  restartCnt : Nat → Nat
  /-- History: the calls of `do_add_conn` before the queues of the worker were made. -/
  born : Nat → Nat

namespace CrashState

def init : CrashState := ⟨Session.init, fun _ => false, fun _ => 0, fun _ => 0⟩

end CrashState

inductive CrashAction where
  | step (action : Action)
  | die (worker : Nat)
  /-- EPOLLHUP on the pipe from a worker; `newPipe` is the one from the next worker, unless
  `fork` fails. -/
  | hangup (pipe : Int) (closeAccepted : Int → Bool) (newPipe : Option Int)

/-- The worker that takes the step. -/
def Action.taker : Action → Option Nat
  | .recv worker _ | .send worker _ _ _ | .close worker _ _ => some worker
  | _ => none

instance (s : State) (worker : Nat) (fd : Int) : Decidable (Attached s worker fd) :=
  decidable_of_iff ((s.epi.fds fd).bcElem = some worker ∧ (s.epi.fds fd).type ≠ .unused ∧
    (s.epi.fds fd).type ≠ .listen)
    ⟨fun ⟨owner, used, conn⟩ => ⟨owner, used, conn⟩, fun ⟨owner, used, conn⟩ => ⟨owner, used, conn⟩⟩

/-- One round of the loop in `handle_pipe_event`; on a free slot `do_del_conn` does nothing. -/
def sweepOne (worker : Nat) (closeAccepted : Int → Bool) (s : State) (i : Nat) : State :=
  if Attached s worker i then s.dropConn i (closeAccepted i) else s

/-- The loop. It compares with `epi.maxfd` again in each round, but above there are free
slots only. -/
def sweep (worker : Nat) (closeAccepted : Int → Bool) (s : State) : State :=
  run (sweepOne worker closeAccepted) s (List.range (s.epi.maxfd + 1).toNat)

/-- `do_add_conn` of the reading end of a pipe. -/
def State.addPipe (s : State) (worker : Nat) (pipe : Int) : State :=
  if (s.epi.fds pipe).type = .unused ∧ 0 ≤ pipe then s.addConn pipe .pipe none worker else s

namespace CrashState

/-- `restart_child_process`: the queues are new, and so is the worker. -/
def restartChildProcess (c : CrashState) (worker : Nat) (newPipe : Option Int) : CrashState :=
  let c :=
    { c with
      session := c.session.setWorker worker .init
      born := Function.update c.born worker c.session.regs }
  match newPipe with
  | some pipe =>
      { c with
        session := c.session.addPipe worker pipe
        dead := Function.update c.dead worker false }
  | none => c

/-- `handle_pipe_event` on EPOLLHUP. -/
def childCrashed (c : CrashState) (worker : Nat) (closeAccepted : Int → Bool)
    (newPipe : Option Int) : CrashState :=
  let counted :=
    { c with
      session := sweep worker closeAccepted c.session
      restartCnt := Function.update c.restartCnt worker (c.restartCnt worker + 1) }
  if c.restartCnt worker < 20 then counted.restartChildProcess worker newPipe else counted

end CrashState

def crashStep (c : CrashState) : CrashAction → CrashState
  | .step action =>
      if ∃ worker ∈ action.taker, c.dead worker = true then c
      else { c with session := step c.session action }
  | .die worker => { c with dead := Function.update c.dead worker true }
  | .hangup pipe closeAccepted newPipe =>
      match (c.session.epi.fds pipe).bcElem with
      | some worker =>
          if (c.session.epi.fds pipe).type = .pipe ∧ c.dead worker = true then
            c.childCrashed worker closeAccepted newPipe
          else c
      | none => c

end MpNet.Session
