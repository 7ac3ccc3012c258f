import MpNet.Net.OutputProperties

/-!
# Signals and the ends of the processes

The flags that the signal handlers set, and the loops of the parent and its workers that test
them. A signal may come between any two steps. What a worker does within `handle_init` and
`net_loop` is its output to the servers that it is connected to.
-/

set_option autoImplicit false

namespace MpNet.Process.Lifecycle

open Library Net

inductive Signal where
  -- SIGTERM, SIGINT or SIGQUIT
  | term
  -- SIGHUP
  | hup
  deriving DecidableEq

structure Flags where
  stop : Bool
  restart : Bool
  termSignal : Bool
  deriving DecidableEq

/-- `sigterm_handler` and `sighup_handler`. -/
def Flags.handle (flags : Flags) : Signal → Flags
  | .term => { flags with stop := true, restart := false, termSignal := true }
  | .hup => { flags with restart := true, stop := true }

/-! ## A worker -/

inductive WorkerPc where
  | initialise
  | test
  | netLoop
  /-- Left through the loop, or through a failed `handle_init`. -/
  | left
  | failed
  deriving DecidableEq

structure Worker where
  flags : Flags
  out : Output.State
  pc : WorkerPc
  /-- History: the calls of `net_loop`. -/
  rounds : Nat
  /-- History: the calls of `handle_fini` that returned 0. -/
  refusals : Nat
  /-- History: the output when `handle_fini` last found nothing pending. -/
  flushed : Output.State
  /-- History: `stop` was set in the parent before the `fork`. -/
  late : Bool

inductive WorkerAction where
  | signal (signal : Signal)
  | inited (result : Int)
  | output (action : Output.Action)
  /-- The condition of the loop, with what `dll.fini_service` sends and its result, nothing
  and 0 if there is none. -/
  | test (farewell : List Output.Action) (finiService : Int)
  -- `net_loop` returns
  | finished
  /-- `net_loop` returns on EPOLLHUP of the pipe from the parent. -/
  | parentCrashed

/-- The loop over the table in `handle_fini` finds a connection with output. -/
def Pending (s : Output.State) : Prop :=
  ∃ i ∈ List.range (s.epi.maxfd + 1).toNat, (s.epi.fds i).type = .remote ∧ 0 < (s.epi.fds i).cb.sendlen

instance (s : Output.State) : Decidable (Pending s) := inferInstanceAs (Decidable (∃ _ ∈ _, _))

namespace Worker

def fork (flags : Flags) : Worker :=
  ⟨flags, Output.init, .initialise, 0, 0, Output.init, flags.stop⟩

def loop (w : Worker) : Worker := { w with pc := .netLoop, rounds := w.rounds + 1 }

/-- `handle_fini`, and the loop goes on or ends. An assertion ends the process instead. -/
def handleFini (limit : UInt32) (w : Worker) (farewell : List Output.Action) (finiService : Int) :
    Worker :=
  if Pending w.out then { w.loop with refusals := w.refusals + 1 }
  else
    let w := { w with flushed := w.out, out := run (Output.step false limit) w.out farewell }
    if w.out.aborted then w
    else if finiService ≠ 0 then { w.loop with refusals := w.refusals + 1 }
    else { w with pc := .left }

def step (limit : UInt32) (w : Worker) : WorkerAction → Worker
  | .signal signal => { w with flags := w.flags.handle signal }
  | .inited result =>
      if w.pc = .initialise then { w with pc := if result ≠ 0 then .failed else .test } else w
  | .output action =>
      if w.pc = .initialise ∨ w.pc = .netLoop then
        { w with out := Output.step false limit w.out action }
      else w
  | .test farewell finiService =>
      if w.pc = .test ∧ ¬ w.out.aborted then
        -- `while (!stop || !handle_fini())`
        if ¬ w.flags.stop then w.loop else w.handleFini limit farewell finiService
      else w
  | .finished => if w.pc = .netLoop then { w with pc := .test } else w
  | .parentCrashed =>
      if w.pc = .netLoop then { w with flags := { w.flags with stop := true }, pc := .test } else w

end Worker

/-! ## The parent and its workers -/

inductive Pc where
  | start
  | test
  | netLoop
  /-- `killall_children` and what follows it. -/
  | stopping
  /-- After `daemon_stop`, which has called `execv` or not. -/
  | ended (exec : Bool)
  deriving DecidableEq

structure State where
  flags : Flags
  pc : Pc
  workers : Nat → Option Worker
  /-- History: the signals that the parent has handled, in order. -/
  signals : List Signal

def init : State := ⟨⟨false, false, false⟩, .start, fun _ => none, []⟩

inductive Action where
  | signal (signal : Signal)
  -- `main` gets to the loop
  | started
  | test
  -- `net_loop` returns 0, as it always does in the parent
  | finished
  | fork (pid : Nat)
  | daemonStop
  | worker (pid : Nat) (action : WorkerAction)

def step (limit : UInt32) (s : State) : Action → State
  | .signal signal =>
      match s.pc with
      | .ended _ => s
      | _ => { s with flags := s.flags.handle signal, signals := s.signals ++ [signal] }
  | .started => if s.pc = .start then { s with pc := .test } else s
  | .test =>
      if s.pc = .test then
        { s with pc := if s.flags.stop ∧ s.flags.termSignal then .stopping else .netLoop }
      else s
  | .finished => if s.pc = .netLoop then { s with pc := .test } else s
  | .fork pid =>
      if (s.pc = .start ∨ s.pc = .netLoop) ∧ s.workers pid = none then
        { s with workers := Function.update s.workers pid (some (.fork s.flags)) }
      else s
  | .daemonStop => if s.pc = .stopping then { s with pc := .ended s.flags.restart } else s
  | .worker pid action =>
      { s with workers := Function.update s.workers pid ((s.workers pid).map (·.step limit action)) }

end MpNet.Process.Lifecycle
