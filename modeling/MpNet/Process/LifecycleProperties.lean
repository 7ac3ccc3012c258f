import MpNet.Process.Lifecycle

/-!
# What the signals do

Only SIGTERM makes the parent leave its loop, and a SIGHUP after it makes it start again. A
worker that leaves its loop has written out all that was passed to `net_send`; one that was
started after a signal leaves at once.
-/

set_option autoImplicit false

namespace MpNet.Process.Lifecycle

open Library Net

/-! ## The output of a worker -/

def Opened : Output.Action → Prop
  | .accept fd _ _ => 0 ≤ fd
  | _ => True

instance (action : Output.Action) : Decidable (Opened action) := by
  cases action <;> unfold Opened <;> infer_instance

/-- The bytes pending stay below `2 ^ 31`, and the kernel gives out descriptors. -/
def Steady (limit : UInt32) (out : Output.State) (action : Output.Action) : Prop :=
  action.Bounded false limit out ∧ Opened action

instance (limit : UInt32) (out : Output.State) (action : Output.Action) :
    Decidable (Steady limit out action) := inferInstanceAs (Decidable (_ ∧ _))

structure Sound (out : Output.State) : Prop where
  tidy : out.epi.Tidy
  whole : ∀ fd, out.Live fd → (out.conn fd).Whole

section Outputs

variable {limit : UInt32} {out : Output.State} {action : Output.Action}

theorem sound_init : Sound Output.init where
  tidy := Epi.tidy_netInit
  whole := by simp [Output.init, Output.State.Live, netInit, FdInfo.zero]

private theorem tidy_setConn (tidy : out.epi.Tidy) (fd : Int) (c : Output.Conn) :
    (out.setConn fd c).epi.Tidy := by
  show (out.epi.modify fd ({ · with cb := c.cb, sk := c.sk })).Tidy
  exact tidy.modify rfl rfl

private theorem tidy_doDelConn (tidy : out.epi.Tidy) (fd : Int) : (out.doDelConn fd).epi.Tidy := by
  unfold Output.State.doDelConn
  split
  · exact tidy
  · exact tidy.release

private theorem tidy_settle (tidy : out.epi.Tidy) (fd : Int)
    (result : Output.Conn × Output.Verdict) :
    (out.settle fd result).epi.Tidy := by
  obtain ⟨c, verdict⟩ := result
  cases verdict with
  | kept | aborted => exact tidy_setConn tidy fd c
  | deleted => exact tidy_doDelConn (tidy_setConn tidy fd c) fd

private theorem tidy_step (tidy : out.epi.Tidy) (opened : Opened action) :
    (Output.step false limit out action).epi.Tidy := by
  unfold Output.step
  split
  · exact tidy
  · cases action with
    | accept fd peer bcElem =>
        simp only
        split
        · rename_i free
          show (out.epi.doAddConn fd .remote (some peer) bcElem).Tidy
          exact tidy.doAddConn free opened
        · exact tidy
    | block => exact tidy
    | send | pollout | lastWrite =>
        simp only
        split
        · exact tidy_settle tidy ..
        · exact tidy
    | delete fd => exact tidy_doDelConn tidy fd

theorem Sound.step (sound : Sound out) (steady : Steady limit out action) :
    Sound (Output.step false limit out action) where
  tidy := tidy_step sound.tidy steady.2
  whole := Output.step_keeps (fun _ _ => ⟨le_rfl, fun _ => rfl, rfl⟩)
    (fun _ _ acts kept same before => Output.acts_whole acts kept same steady.1 before)
    sound.whole

/-- With nothing pending, the kernel has taken all that was passed. -/
theorem Sound.flushed (sound : Sound out) (idle : ¬ Pending out) {fd : Int} (live : out.Live fd)
    (alive : (out.conn fd).failed = false) : (out.conn fd).accepted = (out.conn fd).passed := by
  have used : (out.epi.fds fd).type ≠ .unused := by
    rw [live]
    exact FdType.noConfusion
  have bounds := sound.tidy.bounded fd used
  have same : (fd.toNat : Int) = fd := Int.toNat_of_nonneg bounds.1
  have below : fd.toNat ∈ List.range (out.epi.maxfd + 1).toNat := by
    rw [List.mem_range]
    omega
  have empty : (out.conn fd).cb.sendlen = 0 := by
    by_contra busy
    refine idle ⟨fd.toNat, below, ?_⟩
    rw [same]
    exact ⟨live, Nat.pos_of_ne_zero busy⟩
  have flows := sound.whole fd live alive
  have nothing : Output.output (out.conn fd).cb = [] := by
    rw [← List.length_eq_zero_iff, Output.output_length flows.mapped, empty]
  have whole : (out.conn fd).accepted ++ Output.output (out.conn fd).cb = (out.conn fd).passed :=
    flows.whole
  rwa [nothing, List.append_nil] at whole

end Outputs

/-! ## Workers -/

def Worker.Regular (limit : UInt32) (w : Worker) : WorkerAction → Prop
  | .output action => Steady limit w.out action
  | .test farewell _ => Along (Output.step false limit) (Steady limit) w.out farewell
  | _ => True

instance (limit : UInt32) (w : Worker) (action : WorkerAction) :
    Decidable (w.Regular limit action) := by
  cases action <;> unfold Worker.Regular <;> infer_instance

def Regular (limit : UInt32) (s : State) : Action → Prop
  | .worker pid action => ∀ w ∈ s.workers pid, w.Regular limit action
  | _ => True

instance (limit : UInt32) (s : State) (action : Action) : Decidable (Regular limit s action) := by
  cases action <;> unfold Regular <;> infer_instance

/-- A worker that was started after a signal calls `net_loop` only when `handle_fini` says so. -/
structure Worker.Reluctant (w : Worker) : Prop where
  stop : w.late = true → w.flags.stop = true
  rounds : w.late = true → w.rounds ≤ w.refusals

/-- A worker that has left the loop was told to, and had nothing to write. -/
structure Worker.Leaves (limit : UInt32) (w : Worker) : Prop where
  out : Sound w.out
  stop : w.pc = .left → w.flags.stop = true
  sound : w.pc = .left → Sound w.flushed
  idle : w.pc = .left → ¬ Pending w.flushed
  farewell : w.pc = .left → ∃ farewell, w.out = run (Output.step false limit) w.flushed farewell

section Workers

variable {limit : UInt32} {w : Worker}

private theorem handle_stop (flags : Flags) (signal : Signal) :
    (flags.handle signal).stop = true := by
  cases signal <;> rfl

private theorem reluctant_fork (flags : Flags) : (Worker.fork flags).Reluctant where
  stop := fun late => late
  rounds := fun _ => le_rfl

theorem Worker.Reluctant.refused (reluctant : w.Reluctant) :
    Worker.Reluctant { w.loop with refusals := w.refusals + 1 } where
  stop := reluctant.stop
  rounds := fun late => Nat.succ_le_succ (reluctant.rounds late)

theorem Worker.Reluctant.step (reluctant : w.Reluctant) (action : WorkerAction) :
    (w.step limit action).Reluctant := by
  cases action with
  | signal signal => exact ⟨fun _ => handle_stop w.flags signal, reluctant.rounds⟩
  | inited | output | finished =>
      simp only [Worker.step]
      split
      · exact ⟨reluctant.stop, reluctant.rounds⟩
      · exact reluctant
  | test farewell finiService =>
      simp only [Worker.step]
      split
      · split
        · rename_i go
          exact ⟨reluctant.stop, fun late => absurd (reluctant.stop late) go⟩
        · unfold Worker.handleFini
          split
          · exact reluctant.refused
          · simp only
            split
            · exact ⟨reluctant.stop, reluctant.rounds⟩
            split
            · exact ⟨reluctant.stop, fun late => Nat.succ_le_succ (reluctant.rounds late)⟩
            · exact ⟨reluctant.stop, reluctant.rounds⟩
      · exact reluctant
  | parentCrashed =>
      simp only [Worker.step]
      split
      · exact ⟨fun _ => rfl, reluctant.rounds⟩
      · exact reluctant

private theorem leaves_fork (flags : Flags) : (Worker.fork flags).Leaves limit where
  out := sound_init
  stop := nofun
  sound := nofun
  idle := nofun
  farewell := nofun

private theorem leaves_of_sound {w' : Worker} (out : Sound w'.out) (stays : w'.pc ≠ .left) :
    w'.Leaves limit :=
  ⟨out, fun left => absurd left stays, fun left => absurd left stays,
    fun left => absurd left stays, fun left => absurd left stays⟩

theorem Worker.Leaves.handleFini (leaves : w.Leaves limit) (stop : w.flags.stop = true)
    (here : w.pc = .test) {farewell : List Output.Action}
    (steady : Along (Output.step false limit) (Steady limit) w.out farewell) (finiService : Int) :
    (w.handleFini limit farewell finiService).Leaves limit := by
  have sent : Sound (run (Output.step false limit) w.out farewell) :=
    run_preserves_along Sound (fun _ _ steady sound => sound.step steady) leaves.out steady
  unfold Worker.handleFini
  split
  · exact leaves_of_sound leaves.out (by simp [Worker.loop])
  · rename_i idle
    simp only
    split
    · exact leaves_of_sound sent (by simp [here])
    split
    · exact leaves_of_sound sent (by simp [Worker.loop])
    · exact ⟨sent, fun _ => stop, fun _ => leaves.out, fun _ => idle, fun _ => ⟨farewell, rfl⟩⟩

theorem Worker.Leaves.step (leaves : w.Leaves limit) {action : WorkerAction}
    (regular : w.Regular limit action) : (w.step limit action).Leaves limit := by
  cases action with
  | signal signal =>
      exact ⟨leaves.out, fun _ => handle_stop w.flags signal, leaves.sound, leaves.idle,
        leaves.farewell⟩
  | inited result =>
      simp only [Worker.step]
      split
      · refine leaves_of_sound leaves.out ?_
        simp only
        split <;> exact WorkerPc.noConfusion
      · exact leaves
  | output action =>
      simp only [Worker.step]
      split
      · rename_i works
        refine leaves_of_sound (leaves.out.step regular) fun left => ?_
        rcases works with here | here <;> exact WorkerPc.noConfusion (here.symm.trans left)
      · exact leaves
  | test farewell finiService =>
      simp only [Worker.step]
      split
      · rename_i tests
        split
        · exact leaves_of_sound leaves.out (by simp [Worker.loop])
        · rename_i stop
          exact leaves.handleFini (by simpa using stop) tests.1 regular finiService
      · exact leaves
  | finished | parentCrashed =>
      simp only [Worker.step]
      split
      · exact leaves_of_sound leaves.out WorkerPc.noConfusion
      · exact leaves

end Workers

/-! ## The parent -/

/-- What the flags and the program counter of the parent say about the signals before. -/
structure Decided (s : State) : Prop where
  stop : s.flags.stop = true ↔ s.signals ≠ []
  term : s.flags.termSignal = true ↔ .term ∈ s.signals
  restart : s.flags.restart = true ↔ s.signals.getLast? = some .hup
  stopping : s.pc = .stopping → .term ∈ s.signals
  ended : ∀ exec, s.pc = .ended exec → .term ∈ s.signals ∧ exec = s.flags.restart

section Parent

variable {limit : UInt32} {s : State}

private theorem decided_init : Decided init := by
  constructor <;> simp [init]

theorem Decided.signal (decided : Decided s) (running : ∀ exec, s.pc ≠ .ended exec)
    (signal : Signal) :
    Decided { s with flags := s.flags.handle signal, signals := s.signals ++ [signal] } where
  stop := by simp [handle_stop]
  term := by
    have term := decided.term
    cases signal <;> simp [Flags.handle, term]
  restart := by cases signal <;> simp [Flags.handle]
  stopping := fun here => List.mem_append_left _ (decided.stopping here)
  ended := fun exec here => absurd here (running exec)

theorem Decided.move (decided : Decided s) (pc : Pc) (workers : Nat → Option Worker)
    (stopping : pc = .stopping → .term ∈ s.signals)
    (ended : ∀ exec, pc = .ended exec → .term ∈ s.signals ∧ exec = s.flags.restart) :
    Decided { s with pc := pc, workers := workers } :=
  ⟨decided.stop, decided.term, decided.restart, stopping, ended⟩

private theorem Decided.leaves_loop (decided : Decided s) :
    s.flags.stop = true ∧ s.flags.termSignal = true ↔ .term ∈ s.signals := by
  rw [decided.stop, decided.term, and_iff_right_iff_imp]
  exact List.ne_nil_of_mem

theorem Decided.step (decided : Decided s) (action : Action) : Decided (step limit s action) := by
  cases action with
  | signal signal =>
      simp only [Lifecycle.step]
      split
      · exact decided
      · rename_i running
        exact decided.signal running signal
  | started | finished =>
      simp only [Lifecycle.step]
      split
      · exact decided.move _ _ nofun nofun
      · exact decided
  | test =>
      simp only [Lifecycle.step]
      split
      · refine decided.move _ _ (fun leaves => ?_) fun exec ends => ?_
        · split at leaves
          · rename_i stop
            exact decided.leaves_loop.mp stop
          · cases leaves
        · split at ends <;> cases ends
      · exact decided
  | fork pid =>
      simp only [Lifecycle.step]
      split
      · exact decided.move _ _ decided.stopping decided.ended
      · exact decided
  | daemonStop =>
      simp only [Lifecycle.step]
      split
      · rename_i here
        refine decided.move _ _ nofun fun exec ends => ?_
        cases ends
        exact ⟨decided.stopping here, rfl⟩
      · exact decided
  | worker pid action => exact decided.move _ _ decided.stopping decided.ended

/-- What a fork gives every worker and its steps preserve, all workers have. -/
theorem workers_step {good : Worker → Prop} {action : Action}
    (forks : ∀ flags, good (.fork flags))
    (keeps : ∀ pid act w, action = .worker pid act → s.workers pid = some w → good w →
      good (w.step limit act))
    (before : ∀ pid w, s.workers pid = some w → good w) (pid : Nat) (w : Worker)
    (found : (step limit s action).workers pid = some w) : good w := by
  cases action with
  | signal | started | test | finished | daemonStop =>
      simp only [step] at found
      split at found <;> exact before pid w found
  | fork other =>
      simp only [step] at found
      split at found
      · simp only [Function.update_apply] at found
        split at found
        · cases found
          exact forks s.flags
        · exact before pid w found
      · exact before pid w found
  | worker other act =>
      simp only [step, Function.update_apply] at found
      split at found
      · obtain ⟨w', here, rfl⟩ := Option.map_eq_some_iff.mp found
        exact keeps other act w' rfl here (before other w' here)
      · exact before pid w found

private theorem workers_run {good : Worker → Prop} {condition : State → Action → Prop}
    (forks : ∀ flags, good (.fork flags))
    (keeps : ∀ s pid act w, condition s (.worker pid act) → s.workers pid = some w → good w →
      good (w.step limit act))
    {actions : List Action} (along : Along (step limit) condition init actions) :
    ∀ pid w, (run (step limit) init actions).workers pid = some w → good w :=
  run_preserves_along (fun s => ∀ pid w, s.workers pid = some w → good w)
    (fun s action meets => workers_step forks fun pid act w same here =>
      keeps s pid act w (same ▸ meets) here)
    (by simp [init]) along

end Parent

/-- In every run, SIGTERM and only SIGTERM makes the parent leave its loop, and it executes
itself again exactly if the last signal was SIGHUP. A worker that was started after a signal
calls `net_loop` no more often than `handle_fini` puts it off. -/
theorem signals_decide (limit : UInt32) (actions : List Action) :
    let s := run (step limit) init actions
    (s.pc = .test → ((step limit s .test).pc = .stopping ↔ .term ∈ s.signals)) ∧
      (s.pc = .stopping → .term ∈ s.signals) ∧
      (∀ exec, s.pc = .ended exec →
        .term ∈ s.signals ∧ (exec = true ↔ s.signals.getLast? = some .hup)) ∧
      ∀ pid w, s.workers pid = some w → w.late = true → w.rounds ≤ w.refusals := by
  intro s
  have decided : Decided s :=
    run_preserves Decided (fun _ action decided => decided.step action) decided_init actions
  have reluctant : ∀ pid w, s.workers pid = some w → w.Reluctant :=
    workers_run reluctant_fork (fun _ _ act _ _ _ reluctant => reluctant.step act)
      (along_of_forall init fun (_ : Action) (_ : _ ∈ actions) => trivial)
  refine ⟨fun here => ?_, decided.stopping, fun exec ends => ?_, fun pid w found => ?_⟩
  · rw [step, if_pos here, ← decided.leaves_loop]
    simp
  · obtain ⟨term, rfl⟩ := decided.ended exec ends
    exact ⟨term, decided.restart⟩
  · exact (reluctant pid w found).rounds

/-- A worker that leaves its loop was told to stop; and the kernel had taken all that was
passed to `net_send` for a connection without a failed write, up to what `fini_service` sends. -/
theorem left_flushed (limit : UInt32) (actions : List Action)
    (regular : Along (step limit) (Regular limit) init actions) {pid : Nat} {w : Worker}
    (found : (run (step limit) init actions).workers pid = some w)
    (left : w.pc = .left) :
    w.flags.stop = true ∧
      ∃ farewell, w.out = run (Output.step false limit) w.flushed farewell ∧
        ∀ fd, w.flushed.Live fd → (w.flushed.conn fd).failed = false →
          (w.flushed.conn fd).accepted = (w.flushed.conn fd).passed := by
  have leaves : w.Leaves limit :=
    workers_run leaves_fork (fun _ _ _ w regular here leaves => leaves.step (regular w here))
      regular pid w found
  obtain ⟨farewell, sent⟩ := leaves.farewell left
  exact ⟨leaves.stop left, farewell, sent,
    fun _ live alive => (leaves.sound left).flushed (leaves.idle left) live alive⟩

/-- Three bytes to a server, of which the kernel takes one at once, and the last two when the
worker has been told to stop. -/
def flushedOnce : List Action :=
  [.fork 7, .worker 7 (.output (.accept 4 (80, 1) none)), .worker 7 (.inited 0),
    .worker 7 (.test [] 0), .worker 7 (.output (.send 4 [1, 2, 3] ⟨[], [.sent 1, .eagain], 9⟩)),
    .worker 7 .finished, .worker 7 (.signal .term), .worker 7 (.test [] 0),
    .worker 7 (.output (.pollout 4 [.sent 2] 9)), .worker 7 .finished, .worker 7 (.test [] 0)]

theorem left_flushed_once :
    let w := ((run (step 0) init flushedOnce).workers 7).getD (.fork ⟨false, false, false⟩)
    w.flags.stop = true ∧
      ∃ farewell, w.out = run (Output.step false 0) w.flushed farewell ∧
        ∀ fd, w.flushed.Live fd → (w.flushed.conn fd).failed = false →
          (w.flushed.conn fd).accepted = (w.flushed.conn fd).passed := by
  intro w
  have found : (run (step 0) init flushedOnce).workers 7 = some w := rfl
  have left : w.pc = .left := by decide +kernel
  exact left_flushed 0 flushedOnce (by decide +kernel) found left

end MpNet.Process.Lifecycle
