import Mathlib.Logic.Relation
import MpNet.Session.Crash
import MpNet.Session.RequestProperties

/-!
# Nothing outlives a worker

A step with crashes is a sequence of moves that each change one thing. What they preserve
holds across crashes: blocks, sessions and connections of a worker are never older than its
queues, and once its queues are empty a new worker has the sessions of its connections.
-/

set_option autoImplicit false

namespace MpNet.Session

open Library Net Net.Epi

/-! ## The moves of a step -/

section Moves

variable (allowed : Action → Prop) (answer : Bool → Prop)

/-- `allowed` is about the steps of the system, `answer` about the pushes of the sweep. -/
inductive Move : CrashState → CrashState → Prop
  | step (c : CrashState) (action : Action) (meets : allowed action) :
      Move c { c with session := step c.session action }
  | mark (c : CrashState) (dead : Nat → Bool) (restartCnt : Nat → Nat) :
      Move c { c with dead := dead, restartCnt := restartCnt }
  | drop (c : CrashState) (worker : Nat) (fd : Int) (accepted : Bool) (meets : answer accepted)
      (attached : Attached c.session worker fd) :
      Move c { c with session := c.session.dropConn fd accepted }
  | reset (c : CrashState) (worker : Nat) (bare : ∀ fd, ¬ Attached c.session worker fd) :
      Move c { c with
        session := c.session.setWorker worker .init
        born := Function.update c.born worker c.session.regs }
  | pipe (c : CrashState) (worker : Nat) (fd : Int) (free : (c.session.epi.fds fd).type = .unused)
      (nonneg : 0 ≤ fd) : Move c { c with session := c.session.addConn fd .pipe none worker }

def CrashAction.Meets : CrashAction → Prop
  | .step action => allowed action
  | .die _ => True
  | .hangup _ closeAccepted _ => ∀ fd, answer (closeAccepted fd)

end Moves

section Sweeping

variable {s : State} {worker : Nat} {fd : Int} {closeAccepted : Int → Bool}

private theorem sweepOne_attached (s : State) (worker : Nat) (closeAccepted : Int → Bool)
    (i : Nat) :
    ¬ Attached (sweepOne worker closeAccepted s i) worker i ∧
      ∀ fd, Attached (sweepOne worker closeAccepted s i) worker fd → Attached s worker fd := by
  unfold sweepOne
  split
  · obtain ⟨gone, others⟩ := dropConn_slot s i (closeAccepted i)
    refine ⟨fun attached => attached.used gone, fun fd attached => ?_⟩
    by_cases here : fd = i
    · exact absurd (here ▸ gone) attached.used
    · obtain ⟨owner, used, conn⟩ := attached
      rw [others fd here] at owner used conn
      exact ⟨owner, used, conn⟩
  · rename_i other
    exact ⟨other, fun _ attached => attached⟩

private theorem sweep_attached (s : State) (worker : Nat) (closeAccepted : Int → Bool)
    (slots : List Nat) :
    (∀ i ∈ slots, ¬ Attached (run (sweepOne worker closeAccepted) s slots) worker i) ∧
      ∀ fd, Attached (run (sweepOne worker closeAccepted) s slots) worker fd →
        Attached s worker fd := by
  induction slots generalizing s with
  | nil => exact ⟨by simp, fun _ attached => attached⟩
  | cons i rest ih =>
      obtain ⟨here, before⟩ := sweepOne_attached s worker closeAccepted i
      obtain ⟨later, kept⟩ := ih (sweepOne worker closeAccepted s i)
      refine ⟨fun j member => ?_, fun fd attached => before fd (kept fd attached)⟩
      rcases List.mem_cons.mp member with rfl | member
      · exact fun attached => here (kept j attached)
      · exact later j member

/-- The sweep leaves nothing of the worker. -/
theorem sweep_bare (tidy : s.epi.Tidy) (fd : Int) :
    ¬ Attached (sweep worker closeAccepted s) worker fd := by
  intro attached
  obtain ⟨gone, kept⟩ := sweep_attached s worker closeAccepted
    (List.range (s.epi.maxfd + 1).toNat)
  have bounds := tidy.bounded fd (kept fd attached).used
  have below : fd.toNat ∈ List.range (s.epi.maxfd + 1).toNat := by
    rw [List.mem_range]
    omega
  have same : (fd.toNat : Int) = fd := Int.toNat_of_nonneg bounds.1
  exact gone fd.toNat below (same ▸ attached)

end Sweeping

section Steps

variable {allowed : Action → Prop} {answer : Bool → Prop} {c : CrashState}

private theorem sweep_moves (worker : Nat) (closeAccepted : Int → Bool)
    (meets : ∀ fd, answer (closeAccepted fd)) (slots : List Nat) :
    Relation.ReflTransGen (Move allowed answer) c
      { c with session := run (sweepOne worker closeAccepted) c.session slots } := by
  induction slots generalizing c with
  | nil => exact .refl
  | cons i rest ih =>
      have later := ih (c := { c with session := sweepOne worker closeAccepted c.session i })
      rw [run_cons]
      unfold sweepOne at later ⊢
      split
      · rename_i attached
        rw [if_pos attached] at later
        exact .head (.drop c worker i (closeAccepted i) (meets i) attached) later
      · rename_i other
        rwa [if_neg other] at later

private theorem addPipe_moves (worker : Nat) (pipe : Int) :
    Relation.ReflTransGen (Move allowed answer) c
      { c with session := c.session.addPipe worker pipe } := by
  unfold State.addPipe
  split
  · rename_i free
    exact .single (.pipe c worker pipe free.1 free.2)
  · exact .refl

private theorem crashStep_moves (tidy : c.session.epi.Tidy) (action : CrashAction)
    (meets : action.Meets allowed answer) :
    Relation.ReflTransGen (Move allowed answer) c (crashStep c action) := by
  cases action with
  | step action =>
      rw [crashStep]
      split
      · exact .refl
      · exact .single (.step c action meets)
  | die worker => exact .single (.mark c _ c.restartCnt)
  | hangup pipe closeAccepted newPipe =>
      rw [crashStep]
      split
      · rename_i worker _
        split
        · have swept : Relation.ReflTransGen (Move allowed answer) c
              { c with
                session := sweep worker closeAccepted c.session
                restartCnt := Function.update c.restartCnt worker (c.restartCnt worker + 1) } :=
            .tail (sweep_moves worker closeAccepted meets _) (.mark _ _ _)
          simp only [CrashState.childCrashed]
          split
          · have renewed := swept.tail (.reset _ worker (sweep_bare tidy))
            unfold CrashState.restartChildProcess
            cases newPipe with
            | none => exact renewed
            | some pipe =>
                refine renewed.trans (.tail (addPipe_moves worker pipe) ?_)
                exact .mark _ _ _
          · exact swept
        · exact .refl
      · exact .refl

/-- What every move preserves, every run preserves. -/
theorem crash_preserves (invariant : CrashState → Prop)
    (tidy : ∀ c, invariant c → c.session.epi.Tidy)
    (preserved : ∀ c c', Move allowed answer c c' → invariant c → invariant c')
    (initial : invariant .init) {actions : List CrashAction}
    (meets : ∀ action ∈ actions, action.Meets allowed answer) :
    invariant (run crashStep .init actions) := by
  refine run_preserves_along invariant (fun c action meets holds => ?_) initial
    (along_of_forall _ meets)
  have moves := crashStep_moves (tidy c holds) action meets
  generalize crashStep c action = c' at moves
  induction moves with
  | refl => exact holds
  | tail _ move ih => exact preserved _ _ move ih

end Steps

/-! ## The invariants of the session layer -/

section Invariants

variable {s : State} {worker : Nat} {fd : Int} {accepted : Bool}

theorem Historic.dropConn (historic : Historic s) (fd : Int) (accepted : Bool) :
    Historic (s.dropConn fd accepted) where
  inv := historic.inv.dropConn fd accepted
  recorded := fun worker =>
    (historic.recorded worker).served (served_dropConn s.regs s.regs fd accepted worker)
  ordered := fun worker => by
    rw [dropConn_regs]
    exact (historic.ordered worker).served (served_dropConn s.regs s.regs fd accepted worker) le_rfl

theorem Historic.reset (historic : Historic s) (worker : Nat) :
    Historic (s.setWorker worker .init) where
  inv := historic.inv.setWorker worker (Worker.allKnown_init ..)
  recorded := by
    intro other
    by_cases here : other = worker
    · rw [here, State.setWorker_same]
      exact Worker.recorded_init
    · rw [State.setWorker_other s _ here]
      exact historic.recorded other
  ordered := by
    intro other
    by_cases here : other = worker
    · rw [here, State.setWorker_same]
      exact ⟨List.Pairwise.nil, by simp [Worker.init, Worker.opens]⟩
    · rw [State.setWorker_other s _ here]
      exact historic.ordered other

theorem Historic.addPipe (historic : Historic s) (free : (s.epi.fds fd).type = .unused)
    (nonneg : 0 ≤ fd) (worker : Nat) : Historic (s.addConn fd .pipe none worker) where
  inv := historic.inv.addConn free nonneg .pipe none worker
  recorded := historic.recorded
  ordered := fun other => (historic.ordered other).sublist (List.Sublist.refl _) (Nat.le_succ _)

/-- The connection that an event of a worker is about. -/
def Event.about : Event → Option Nat
  | .opened session => some session.origin
  | .rejected mb => some mb.origin
  | .process _ mb => some mb.origin
  | .closed _ _ => none

/-- What a worker deals with was registered after its queues were made. -/
structure Newer (s : State) (worker born : Nat) : Prop where
  past : born ≤ s.regs
  slots : ∀ fd, Attached s worker fd → born < s.gen fd
  recvq : ∀ mb ∈ (s.worker worker).recvq, born < mb.origin
  log : ∀ event ∈ (s.worker worker).log, ∀ origin ∈ event.about, born < origin

namespace Newer

variable {s' : State} {born : Nat}

theorem slot (newer : Newer s worker born) (slots : SlotStep s s' fd)
    (attached : Attached s' worker fd) : born < s'.gen fd := by
  obtain ⟨owner, used, conn⟩ := attached
  cases slots with
  | kept type bcElem gen =>
      rw [gen]
      exact newer.slots fd ⟨bcElem ▸ owner, type ▸ used, type ▸ conn⟩
  | freed type => exact absurd type used
  | registered gen =>
      have past := newer.past
      omega

theorem queue {arrived : List (List UInt8)} (newer : Newer s worker born)
    (queue : QueueStep s s' worker 0 0 arrived) :
    ∀ mb ∈ (s'.worker worker).recvq, born < mb.origin := by
  have past := newer.past
  have pushed (mb : Block) (recvq : (s'.worker worker).recvq = (s.worker worker).recvq ++ [mb])
      (later : born < mb.origin) : ∀ other ∈ (s'.worker worker).recvq, born < other.origin := by
    intro other member
    rw [recvq] at member
    rcases List.mem_append.mp member with old | new
    · exact newer.recvq other old
    · rwa [List.mem_singleton.mp new]
  cases queue with
  | quiet recvq =>
      rw [recvq]
      exact newer.recvq
  | opened mb recvq _ about => exact pushed mb recvq (by omega)
  | closed mb recvq _ about _ attached => exact pushed mb recvq (about ▸ newer.slots mb.fd attached)
  | data mb recvq _ about serves => exact pushed mb recvq (about ▸ newer.slots mb.fd serves.attached)

theorem dropConn (newer : Newer s worker born) (fd : Int) (accepted : Bool)
    (conn : (s.epi.fds fd).type ≠ .listen) : Newer (s.dropConn fd accepted) worker born where
  past := by
    rw [dropConn_regs]
    exact newer.past
  slots := fun _ attached => newer.slot (slotStep_dropConn accepted) attached
  recvq := newer.queue (queueStep_dropConn fd accepted conn)
  log := by
    rw [(served_dropConn s.regs s.regs fd accepted worker).own.2.2]
    exact newer.log

theorem addPipe (newer : Newer s worker born) (fd : Int) (owner : Nat) :
    Newer (s.addConn fd .pipe none owner) worker born where
  past := newer.past.trans (Nat.le_succ _)
  slots := fun _ attached => newer.slot (slotStep_addConn none owner (by simp)) attached
  recvq := newer.recvq
  log := newer.log

theorem received {w' : Worker} (newer : Newer s worker born)
    (received : Worker.Received accepted (s.worker worker) w') :
    ∀ event ∈ w'.log, ∀ origin ∈ event.about, born < origin := by
  have logged (mb : Block) (rest : List Block) (event : Event)
      (first : (s.worker worker).recvq = mb :: rest)
      (about : ∀ origin ∈ event.about, origin = mb.origin) :
      ∀ other ∈ (s.worker worker).log ++ [event], ∀ origin ∈ other.about, born < origin := by
    intro other member origin mentioned
    rcases List.mem_append.mp member with old | new
    · exact newer.log other old origin mentioned
    · rw [List.mem_singleton.mp new] at mentioned
      rw [about origin mentioned]
      exact newer.recvq mb (first ▸ List.mem_cons_self)
  cases received with
  | idle | ignored => exact newer.log
  | process mb rest session first =>
      exact logged mb rest (.process session mb) first fun _ same => (Option.some.inj same).symm
  | opened mb rest first =>
      exact logged mb rest (.opened (Worker.sessionOf mb)) first
        fun _ same => (Option.some.inj same).symm
  | rejected mb rest first =>
      exact logged mb rest (.rejected mb) first fun _ same => (Option.some.inj same).symm
  | closed mb rest first => exact logged mb rest (.closed mb.fd _) first nofun

theorem step (newer : Newer s worker born) (action : Action) :
    Newer (step s action) worker born where
  past := newer.past.trans (regs_le s action)
  slots := fun fd attached => newer.slot (step_slot s action fd) attached
  recvq := by
    rcases step_queue s action worker 0 0 with ⟨finAccepted, rfl⟩ | queue
    · intro mb member
      rw [Session.step, State.setWorker_same] at member
      exact newer.recvq mb
        (received_recvq (Worker.handleRecvQueue_received (s.worker worker) finAccepted) member)
    · exact newer.queue queue
  log := by
    have own := step_own s action worker
    generalize (Session.step s action).worker worker = w' at own
    cases own with
    | parent _ _ log =>
        rw [log]
        exact newer.log
    | received finAccepted =>
        exact newer.received (Worker.handleRecvQueue_received (s.worker worker) finAccepted)
    | closed closing finAccepted =>
        unfold Worker.closeClientConn
        split
        · intro event member origin mentioned
          rcases List.mem_append.mp member with old | new
          · exact newer.log event old origin mentioned
          · rw [List.mem_singleton.mp new] at mentioned
            cases mentioned
        · exact newer.log

end Newer

end Invariants

/-! ## Main results -/

theorem Newer.init (worker : Nat) : Newer init worker 0 where
  past := le_rfl
  slots := fun _ attached => absurd rfl attached.used
  recvq := by simp [Session.init, Worker.init]
  log := by simp [Session.init, Worker.init]

/-- A worker with new queues, when nothing of the last one is left. -/
theorem Newer.reset {s : State} {worker : Nat} (bare : ∀ fd, ¬ Attached s worker fd) :
    Newer (s.setWorker worker .init) worker s.regs where
  past := le_rfl
  slots := fun fd ⟨owner, used, conn⟩ => absurd ⟨owner, used, conn⟩ (bare fd)
  recvq := by simp [State.setWorker_same, Worker.init]
  log := by simp [State.setWorker_same, Worker.init]

theorem Newer.setWorker {s : State} {worker other born : Nat} (newer : Newer s worker born)
    (w : Worker) (apart : worker ≠ other) : Newer (s.setWorker other w) worker born where
  past := newer.past
  slots := fun fd ⟨owner, used, conn⟩ => newer.slots fd ⟨owner, used, conn⟩
  recvq := by
    rw [State.setWorker_other _ _ apart]
    exact newer.recvq
  log := by
    rw [State.setWorker_other _ _ apart]
    exact newer.log

def Steady (c : CrashState) : Prop :=
  Historic c.session ∧ ∀ worker, Newer c.session worker (c.born worker)

theorem Steady.move {allowed : Action → Prop} {answer : Bool → Prop} {c c' : CrashState}
    (move : Move allowed answer c c') (steady : Steady c) : Steady c' := by
  obtain ⟨historic, newer⟩ := steady
  cases move with
  | step action => exact ⟨historic.step action, fun worker => (newer worker).step action⟩
  | mark => exact ⟨historic, newer⟩
  | drop owner fd accepted _ attached =>
      exact ⟨historic.dropConn fd accepted,
        fun worker => (newer worker).dropConn fd accepted attached.conn⟩
  | reset owner bare =>
      refine ⟨historic.reset owner, fun worker => ?_⟩
      by_cases here : worker = owner
      · subst here
        simp only [Function.update_self]
        exact .reset bare
      · simp only [Function.update_of_ne here]
        exact (newer worker).setWorker .init here
  | pipe owner fd free nonneg =>
      exact ⟨historic.addPipe free nonneg owner, fun worker => (newer worker).addPipe fd owner⟩

/-- In every run with crashes and restarts, the blocks, the sessions and the connections of a
worker were registered after its queues were made, so a new worker meets nothing of the one
before; and a block that passes the filters is about a connection that this worker serves. -/
theorem nothing_outlives_a_worker (actions : List CrashAction) (worker : Nat) :
    let c := run crashStep .init actions
    let w := c.session.worker worker
    (∀ fd, Attached c.session worker fd → c.born worker < c.session.gen fd) ∧
    (∀ fd session, w.getFdsess fd = some session → c.born worker < session.origin) ∧
    (∀ mb ∈ w.recvq, c.born worker < mb.origin) ∧
    ∀ mb ∈ w.sendq, c.born worker < mb.origin ∧
      (c.session.regs - mb.origin < 4294967295 → c.session.Passes mb →
        c.session.gen mb.fd = mb.origin ∧ (c.session.epi.fds mb.fd).bcElem = some worker) := by
  intro c w
  have all : ∀ action ∈ actions, action.Meets (fun _ => True) fun _ => True := by
    intro action _
    cases action with
    | step | die => trivial
    | hangup => exact fun _ => trivial
  obtain ⟨historic, newer⟩ : Steady c := crash_preserves Steady
    (fun _ steady => steady.1.inv.tidy) (fun _ _ move steady => steady.move move)
    ⟨historic_init, Newer.init⟩ all
  have newer := newer worker
  have recorded := historic.recorded worker
  refine ⟨newer.slots, ?_, newer.recvq, fun mb member => ⟨?_, fun near passes => ?_⟩⟩
  · intro fd session found
    exact newer.log _ (recorded.sessions fd session found) _ rfl
  · cases recorded.sendq mb member with
    | opened session member _ _ origin => exact origin ▸ newer.log _ member _ rfl
    | rejected refused member _ _ origin => exact origin ▸ newer.log _ member _ rfl
  · have known := (historic.inv.workers worker).sendq mb member
    have current := historic.inv.passes_origin known passes near
    exact ⟨current, known.owner current⟩

/-- The worker dies with an answer in its queue, and the next one answers on the same
descriptor. -/
def answeredAfterCrash : List CrashAction :=
  [.step (.register 3 .listen (some 0)), .step (.register 4 .pipe (some 0)),
    .step (.accept 3 5 (80, 16777343) 7 true), .step (.recv 0 true),
    .step (.send 0 5 [1] true), .die 0, .hangup 4 (fun _ => true) (some 6),
    .step (.accept 3 5 (81, 16777343) 8 true), .step (.recv 0 true), .step (.send 0 5 [2] true)]

theorem nothing_outlives_a_worker_answered :
    let c := run crashStep .init answeredAfterCrash
    (c.session.worker 0).sendq.map Block.data = [[2]] ∧ ∀ mb ∈ (c.session.worker 0).sendq,
      c.born 0 < mb.origin ∧ c.session.gen mb.fd = mb.origin ∧
        (c.session.epi.fds mb.fd).bcElem = some 0 := by
  intro c
  have passing : ∀ mb ∈ (c.session.worker 0).sendq,
      c.session.regs - mb.origin < 4294967295 ∧ c.session.Passes mb := by decide +kernel
  refine ⟨by decide +kernel, fun mb member => ?_⟩
  obtain ⟨near, passes⟩ := passing mb member
  obtain ⟨later, current⟩ := (nothing_outlives_a_worker answeredAfterCrash 0).2.2.2 mb member
  exact ⟨later, current near passes⟩

/-! ## Sessions and connections -/

/-- Before the identifiers come round, parent and workers agree. -/
def Agreed (c : CrashState) : Prop :=
  Historic c.session ∧ (c.session.regs < 4294967295 → Orderly c.session ∧ AllHeard c.session)

theorem Orderly.dropConn {s : State} (orderly : Orderly s) (fd : Int) :
    Orderly (s.dropConn fd true) where
  historic := orderly.historic.dropConn fd true
  agrees := orderly.agrees.dropConn fd nofun
  rightly := fun worker => by
    have log := (served_dropConn (s := s) s.regs s.regs fd true worker).own.2.2
    exact ⟨log ▸ (orderly.rightly worker).process, log ▸ (orderly.rightly worker).rejected⟩

theorem Orderly.reset {s : State} (orderly : Orderly s) (worker : Nat) :
    Orderly (s.setWorker worker .init) where
  historic := orderly.historic.reset worker
  agrees := orderly.agrees.setWorker worker (fun _ => trivial) nofun
  rightly := fun other => by
    by_cases here : other = worker
    · rw [here, State.setWorker_same]
      exact ⟨by simp [Worker.init], by simp [Worker.init]⟩
    · rw [State.setWorker_other _ _ here]
      exact orderly.rightly other

theorem AllHeard.reset {s : State} (heard : AllHeard s) {worker : Nat}
    (bare : ∀ fd, ¬ Attached s worker fd) : AllHeard (s.setWorker worker .init) := by
  rintro other fd origin ⟨remote, owner, current⟩
  have live : Live s other fd origin := ⟨remote, owner, current⟩
  by_cases here : other = worker
  · subst here
    exact absurd (Serves.attached ⟨live.remote, live.owner⟩) (bare fd)
  · unfold Heard
    rw [State.setWorker_other _ _ here]
    exact heard other fd origin live

theorem Agreed.move {c c' : CrashState}
    (move : Move Action.Accepted (fun accepted => accepted = true) c c') (agreed : Agreed c) :
    Agreed c' := by
  obtain ⟨historic, agreed⟩ := agreed
  cases move with
  | step action accepted =>
      refine ⟨historic.step action, fun few => ?_⟩
      have before := (regs_le c.session action).trans_lt few
      obtain ⟨orderly, heard⟩ := agreed before
      exact ⟨orderly.step action (accepted.harmless before),
        heard.step historic.inv orderly.agrees accepted⟩
  | mark => exact ⟨historic, agreed⟩
  | drop owner fd accepted pushed =>
      subst pushed
      refine ⟨historic.dropConn fd true, fun few => ?_⟩
      rw [dropConn_regs] at few
      obtain ⟨orderly, heard⟩ := agreed few
      exact ⟨orderly.dropConn fd, heard.dropConn fd⟩
  | reset owner bare =>
      refine ⟨historic.reset owner, fun few => ?_⟩
      obtain ⟨orderly, heard⟩ := agreed few
      exact ⟨orderly.reset owner, heard.reset bare⟩
  | pipe owner fd free nonneg =>
      refine ⟨historic.addPipe free nonneg owner, fun few => ?_⟩
      obtain ⟨orderly, heard⟩ := agreed ((Nat.le_succ _).trans_lt few)
      exact ⟨⟨historic.addPipe free nonneg owner, orderly.agrees.addConn free .pipe none owner,
        orderly.rightly⟩, heard.addConn fd (by simp) owner⟩

/-- In a run that refuses no push and registers fewer than 2^32 - 1 connections, with crashes
and restarts at any point, every DATA_BLOCK is handed to the session of its own connection, no
OPEN_BLOCK is rejected, and whenever the queues are empty the sessions are the connections. -/
theorem sessions_survive_crashes (actions : List CrashAction)
    (accepted : ∀ action ∈ actions,
      action.Meets Action.Accepted fun closeAccepted => closeAccepted = true)
    (few : (run crashStep .init actions).session.regs < 4294967295) (worker : Nat) :
    let s := (run crashStep .init actions).session
    ServesRightly (s.worker worker) ∧
      ((s.worker worker).recvq = [] → (s.worker worker).sendq = [] → s.epi.closeHead = [] →
        SessionsAgree s worker) := by
  have agreed : Agreed (run crashStep .init actions) := crash_preserves Agreed
    (fun _ agreed => agreed.1.inv.tidy) (fun _ _ move agreed => agreed.move move)
    ⟨historic_init, fun _ => ⟨orderly_init, allHeard_init⟩⟩ accepted
  obtain ⟨orderly, heard⟩ := agreed.2 few
  exact ⟨orderly.rightly worker, orderly.sessionsAgree heard⟩

/-- A worker dies with a client and comes back; the descriptor is used again. -/
def crashedOnce : List CrashAction :=
  [.step (.register 3 .listen (some 0)), .step (.register 4 .pipe (some 0)),
    .step (.accept 3 5 (80, 16777343) 7 true), .step (.recv 0 true), .die 0,
    .step (.packet 5 [1] true true), .hangup 4 (fun _ => true) (some 4),
    .step (.accept 3 5 (81, 16777343) 8 true), .step (.recv 0 true)]

theorem sessions_survive_crashes_once : ∃ session,
    ((run crashStep .init crashedOnce).session.worker 0).getFdsess 5 = some session ∧
      session.id = ((run crashStep .init crashedOnce).session.epi.fds 5).id := by
  have accepted : ∀ action ∈ crashedOnce,
      action.Meets Action.Accepted fun closeAccepted => closeAccepted = true := by
    simp [crashedOnce, CrashAction.Meets, Action.Accepted]
  obtain ⟨_, agree⟩ := sessions_survive_crashes crashedOnce accepted (by decide +kernel) 0
  have slot := agree (by decide +kernel) (by decide +kernel) (by decide +kernel) 5
  obtain ⟨session, found⟩ := Option.isSome_iff_exists.mp (slot.1.mpr (by decide +kernel))
  exact ⟨session, found, (slot.2 session found).1⟩

end MpNet.Session
