import MpNet.Net.EventLoop
import MpNet.Net.FdTableProperties

/-!
# An event is applied to the connection it was reported for

The loop filters events by number and type only. So an event for a deleted connection
is skipped as long as the number is free when its turn comes, and applied to whatever
connection has the number by then.
-/

set_option autoImplicit false

namespace MpNet.Net.EventLoop

open Library Epi

namespace State

def current (s : State) : Option EpollEvent :=
  match s.phase with
  | .event ev _ _ => some ev
  | _ => none

def upcoming (s : State) : List EpollEvent :=
  match s.phase with
  | .sendQueue evs | .next evs | .event _ _ evs => evs
  | .idle | .stopped => []

/-- The numbers of the events that are not done with. -/
def pending (s : State) : List Int := (s.current.toList ++ s.upcoming).map EpollEvent.fd

end State

/-- While an event is processed, its number has the identifier that it had when
`epoll_wait` returned; an event whose connection is deleted before its turn is skipped. -/
structure AppliedRightly (s : State) : Prop where
  applied : ∀ ev, s.current = some ev → (s.epi.fds ev.fd).id = s.reported ev.fd
  skipped : ∀ ev evs connected, s.phase = .next (ev :: evs) → s.deleted ev.fd = true →
    s.take connected = { s with phase := .next evs }

/-- A new connection that stays does not get the number of an event that is not done with. -/
def KeepsNumbers (isParent : Nat) (s : State) : Action → Prop
  | .loop (.accept newfd _ _ pushed) => isParent ≠ 0 ∧ pushed = false ∨ newfd ∉ s.pending
  | .loop (.crash (some newfd)) => newfd ∉ s.upcoming.map EpollEvent.fd
  | .plugin (.connectToSvr newfd _) => newfd ∉ s.pending
  | _ => True

instance (isParent : Nat) (s : State) :
    (action : Action) → Decidable (KeepsNumbers isParent s action)
  | .loop (.accept newfd _ _ pushed) =>
      inferInstanceAs (Decidable (isParent ≠ 0 ∧ pushed = false ∨ newfd ∉ s.pending))
  | .loop (.crash (some newfd)) =>
      inferInstanceAs (Decidable (newfd ∉ s.upcoming.map EpollEvent.fd))
  | .plugin (.connectToSvr newfd _) => inferInstanceAs (Decidable (newfd ∉ s.pending))
  | .loop (.crash none) | .loop (.register ..) | .loop (.delete ..) | .loop (.transfer ..)
  | .loop (.epollWait ..) | .loop (.output ..) | .loop (.take ..) | .loop .readPipe
  | .loop (.acceptFailed ..) | .loop (.read ..) | .loop (.received ..) | .loop (.write ..)
  | .loop .advance | .plugin (.closeSvr ..) | .plugin (.netSend ..) | .fdClosed => .isTrue trivial

/-! ## What the operations keep of a slot -/

/-- The slot is still the same connection, or free. -/
structure Keeps (s s' : State) (fd : Int) : Prop where
  id : (s'.epi.fds fd).id = (s.epi.fds fd).id
  same : (s'.epi.fds fd).type = .unused ∨
    (s.epi.fds fd).type ≠ .unused ∧ s'.deleted fd = s.deleted fd

/-- Nothing is registered, and the loop stays where it is. -/
structure Quiet (s s' : State) : Prop where
  phase : s'.phase = s.phase
  reported : s'.reported = s.reported
  keeps : ∀ fd, Keeps s s' fd

variable {s s' s'' : State} {isParent : Nat}

theorem Keeps.refl (s : State) (fd : Int) : Keeps s s fd := by
  refine ⟨rfl, ?_⟩
  by_cases free : (s.epi.fds fd).type = .unused
  · exact .inl free
  · exact .inr ⟨free, rfl⟩

theorem Keeps.trans {fd : Int} (first : Keeps s s' fd) (second : Keeps s' s'' fd) :
    Keeps s s'' fd := by
  refine ⟨second.id.trans first.id, ?_⟩
  rcases second.same with free | ⟨used, deleted⟩
  · exact .inl free
  · rcases first.same with free | ⟨before, earlier⟩
    · exact absurd free used
    · exact .inr ⟨before, deleted.trans earlier⟩

namespace Quiet

theorem refl (s : State) : Quiet s s := ⟨rfl, rfl, Keeps.refl s⟩

theorem trans (first : Quiet s s') (second : Quiet s' s'') : Quiet s s'' where
  phase := second.phase.trans first.phase
  reported := second.reported.trans first.reported
  keeps := fun fd => (first.keeps fd).trans (second.keeps fd)

theorem slot (fd : Int) {e : Epi} (others : ∀ other, other ≠ fd → e.fds other = s.epi.fds other)
    (id : (e.fds fd).id = (s.epi.fds fd).id)
    (type : (s.epi.fds fd).type = .unused → (e.fds fd).type = .unused) :
    Quiet s { s with epi := e } := by
  refine ⟨rfl, rfl, fun other => ?_⟩
  by_cases here : other = fd
  · subst here
    refine ⟨id, ?_⟩
    by_cases free : (s.epi.fds other).type = .unused
    · exact .inl (type free)
    · exact .inr ⟨free, rfl⟩
  · have same : e.fds other = s.epi.fds other := others other here
    refine ⟨congrArg FdInfo.id same, ?_⟩
    rw [same]
    exact (Keeps.refl s other).same

theorem modify (fd : Int) {change : FdInfo → FdInfo}
    (id : (change (s.epi.fds fd)).id = (s.epi.fds fd).id)
    (type : (s.epi.fds fd).type = .unused → (change (s.epi.fds fd)).type = .unused) :
    Quiet s { s with epi := s.epi.modify fd change } := by
  refine slot fd (fun other apart => modify_other _ apart) ?_ ?_
  · rwa [modify_same]
  · rwa [modify_same]

theorem release (s : State) (fd : Int) : Quiet s (s.release fd) := by
  refine ⟨rfl, rfl, fun other => ?_⟩
  by_cases here : other = fd
  · subst here
    exact ⟨by simp [State.release, release_same], .inl (by simp [State.release, release_same])⟩
  · have slot : (s.release fd).epi.fds other = s.epi.fds other := release_other here
    refine ⟨by rw [slot], ?_⟩
    rw [slot]
    by_cases free : (s.epi.fds other).type = .unused
    · exact .inl free
    · exact .inr ⟨free, by simp [State.release, here]⟩

theorem doDelConn (s : State) (fd : Int) (isParent : Nat) : Quiet s (s.doDelConn fd isParent) := by
  unfold State.doDelConn
  split
  · exact refl s
  · split
    · exact ⟨rfl, rfl, fun other => ⟨(Keeps.refl s other).id, (Keeps.refl s other).same⟩⟩
    · exact release s fd

theorem addToEtinQueue (s : State) (fd : Int) :
    Quiet s { s with epi := s.epi.addToEtinQueue fd } := by
  obtain ⟨needPollin, same⟩ := addToEtinQueue_same s.epi fd
  refine slot fd (fun other apart => addToEtinQueue_other apart) ?_ ?_
  · rw [same]
  · rw [same]
    exact id

theorem delFromEtinQueue (s : State) (fd : Int) :
    Quiet s { s with epi := s.epi.delFromEtinQueue fd } := by
  refine slot fd (fun other apart => delFromEtinQueue_other apart) ?_ ?_
  · rw [delFromEtinQueue_same]
  · rw [delFromEtinQueue_same]
    exact id

theorem addToCloseQueue (s : State) (fd : Int) :
    Quiet s { s with epi := s.epi.addToCloseQueue fd } := by
  refine slot fd (fun other apart => addToCloseQueue_other apart) ?_ ?_
  · rw [addToCloseQueue_same]
  · rw [addToCloseQueue_same]
    exact id

theorem setBuf (s : State) (fd : Int) (cb : ConnBuf) (now : UInt32) :
    Quiet s (s.setBuf fd cb now) := modify fd rfl id

theorem doReadConn (s : State) (fd : Int) (cb : ConnBuf) (now : UInt32) (full : Bool) :
    Quiet s (s.doReadConn fd cb now full) := by
  refine (setBuf s fd cb now).trans ?_
  cases full with
  | true => exact addToEtinQueue _ fd
  | false => exact delFromEtinQueue _ fd

theorem netSend (s : State) (fd : Int) (written : Written) :
    Quiet s (s.netSend isParent fd written) := by
  cases written with
  | done cb now => exact setBuf s fd cb now
  | failed => exact doDelConn s fd isParent

theorem scheduleOutput (s : State) (id : UInt32) (fd : Int) (fin : Bool) (written : Written) :
    Quiet s (s.scheduleOutput isParent id fd fin written) := by
  unfold State.scheduleOutput
  split
  · exact refl s
  · split
    · exact refl s
    · split
      · exact addToCloseQueue s fd
      · exact netSend s fd written

theorem acceptError (s : State) (fd : Int) (error : AcceptError) :
    Quiet s (s.acceptError fd error) := by
  cases error with
  | tooMany => exact addToEtinQueue s fd
  | again => exact delFromEtinQueue s fd
  | other => exact refl s

theorem handleAsynConnect {fd : Int} (used : (s.epi.fds fd).type ≠ .unused) (connected : Bool) :
    Quiet s (s.handleAsynConnect fd connected) := by
  cases connected with
  | true => exact modify fd rfl fun free => absurd free used
  | false => exact doDelConn s fd 2

theorem sweep (isParent : Nat) (s : State) (worker : Nat) : Quiet s (s.sweep isParent worker) := by
  refine run_preserves (Quiet s) ?_ (refl s) _
  intro s' i quiet
  unfold State.sweepOne
  split
  · exact quiet.trans (doDelConn s' i isParent)
  · exact quiet

end Quiet

/-! ## A number is registered -/

private theorem keeps_addConn {newfd fd : Int} (apart : fd ≠ newfd) (type : FdType)
    (peer : Option (UInt16 × UInt32)) (bcElem : Option Nat) :
    Keeps s (s.addConn newfd type peer bcElem) fd := by
  have slot : (s.addConn newfd type peer bcElem).epi.fds fd = s.epi.fds fd :=
    doAddConn_other apart
  refine ⟨by rw [slot], ?_⟩
  rw [slot]
  exact (Keeps.refl s fd).same

private theorem doOpenConn_phase (s : State) (fd newfd : Int) (peer : UInt16 × UInt32)
    (now : UInt32)
    (pushed : Bool) : (s.doOpenConn isParent fd newfd peer now pushed).phase = s.phase := by
  unfold State.doOpenConn
  simp only
  split
  · exact (Quiet.doDelConn ..).phase
  · rfl

private theorem restart_keeps (s : State) (worker : Nat) (pipefd : Int) {newfd : Option Int}
    {fd : Int}
    (apart : ∀ new, newfd = some new → fd ≠ new) :
    Keeps s (s.restartChildProcess worker pipefd newfd) fd := by
  have deleted := (Quiet.doDelConn s pipefd 2).keeps fd
  unfold State.restartChildProcess
  simp only
  split
  · rename_i new
    split
    · exact deleted.trans (keeps_addConn (apart new rfl) ..)
    · exact deleted
  · exact deleted

private theorem restart_reported (s : State) (worker : Nat) (pipefd : Int) (newfd : Option Int) :
    (s.restartChildProcess worker pipefd newfd).reported = s.reported := by
  have deleted := (Quiet.doDelConn s pipefd 2).reported
  unfold State.restartChildProcess
  simp only
  split
  · split <;> exact deleted
  · exact deleted

private theorem childCrashed_keeps (isParent : Nat) (s : State) (pipefd : Int) (worker : Nat)
    {newfd : Option Int} {fd : Int} (apart : ∀ new, newfd = some new → fd ≠ new) :
    Keeps s (s.childCrashed isParent pipefd worker newfd) fd := by
  have swept := (Quiet.sweep isParent s worker).keeps fd
  unfold State.childCrashed
  simp only
  split
  · have restarted := restart_keeps { s.sweep isParent worker with
      restartCnt := Function.update (s.sweep isParent worker).restartCnt worker
        ((s.sweep isParent worker).restartCnt worker + 1) } worker pipefd apart
    exact swept.trans ⟨restarted.id, restarted.same⟩
  · exact ⟨swept.id, swept.same⟩

private theorem childCrashed_reported (isParent : Nat) (s : State) (pipefd : Int) (worker : Nat)
    (newfd : Option Int) :
    (s.childCrashed isParent pipefd worker newfd).reported = s.reported := by
  have swept := (Quiet.sweep isParent s worker).reported
  unfold State.childCrashed
  simp only
  split
  · exact (restart_reported ..).trans swept
  · exact swept

/-- The filters let an event through to any connection that has its number by then. -/
theorem not_skips_registered (s : State) (ev : EpollEvent) {type : FdType} (used : type ≠ .unused)
    (peer : Option (UInt16 × UInt32)) (bcElem : Option Nat) :
    ¬ (s.addConn ev.fd type peer bcElem).Skips ev := by
  unfold State.Skips State.addConn Epi.doAddConn
  simp only [Function.update_self, ne_eq, not_true_eq_false, used, or_self, or_false]
  split <;> omega

/-! ## The invariant -/

/-- The events that are not done with are about the connections that they were reported
for, or about free numbers. -/
structure Sound (s : State) : Prop where
  applied : ∀ ev, s.current = some ev → (s.epi.fds ev.fd).id = s.reported ev.fd
  waiting : ∀ ev ∈ s.upcoming, (s.epi.fds ev.fd).type = .unused ∨
    (s.epi.fds ev.fd).id = s.reported ev.fd ∧ s.deleted ev.fd = false

theorem sound_init : Sound init where
  applied := fun _ current => by cases current
  waiting := fun _ member => by cases member

namespace Sound

theorem keeps (sound : Sound s) (reported : s'.reported = s.reported)
    (current : ∀ ev, s'.current = some ev → s.current = some ev ∧ Keeps s s' ev.fd)
    (upcoming : ∀ ev ∈ s'.upcoming, ev ∈ s.upcoming ∧
      ((s'.epi.fds ev.fd).type = .unused ∨ Keeps s s' ev.fd)) : Sound s' where
  applied := by
    intro ev isCurrent
    obtain ⟨before, keeps⟩ := current ev isCurrent
    rw [keeps.id, reported]
    exact sound.applied ev before
  waiting := by
    intro ev member
    obtain ⟨before, free | keeps⟩ := upcoming ev member
    · exact .inl free
    · rcases keeps.same with free | ⟨used, deleted⟩
      · exact .inl free
      · rw [keeps.id, reported, deleted]
        exact .inr ((sound.waiting ev before).resolve_left used)

theorem quiet (sound : Sound s) (quiet : Quiet s s') : Sound s' := by
  refine sound.keeps quiet.reported ?_ ?_
  · intro ev isCurrent
    unfold State.current at isCurrent ⊢
    rw [quiet.phase] at isCurrent
    exact ⟨isCurrent, quiet.keeps ev.fd⟩
  · intro ev member
    unfold State.upcoming at member ⊢
    rw [quiet.phase] at member
    exact ⟨member, .inr (quiet.keeps ev.fd)⟩

theorem goTo (sound : Sound s) {phase : Phase}
    (current : ∀ ev, State.current { s with phase := phase } = some ev → s.current = some ev)
    (upcoming : ∀ ev ∈ State.upcoming { s with phase := phase }, ev ∈ s.upcoming) :
    Sound { s with phase := phase } where
  applied := fun ev isCurrent => sound.applied ev (current ev isCurrent)
  waiting := fun ev member => sound.waiting ev (upcoming ev member)

theorem take (sound : Sound s) (connected : Bool) : Sound (s.take connected) := by
  unfold State.take
  split
  · rename_i ev evs phase
    have later : ∀ other ∈ evs, other ∈ s.upcoming := by
      intro other member
      simp [State.upcoming, phase, member]
    split
    · exact sound.goTo (fun _ isCurrent => by cases isCurrent) later
    · rename_i passes
      have used : (s.epi.fds ev.fd).type ≠ .unused := fun free => passes (.inr (.inr free))
      have first : ev ∈ s.upcoming := by simp [State.upcoming, phase]
      have reached : ∀ stage, Sound { s with phase := .event ev stage evs } := by
        intro stage
        refine ⟨?_, fun other member => sound.waiting other (later other member)⟩
        intro other isCurrent
        obtain rfl : ev = other := Option.some.inj isCurrent
        exact ((sound.waiting ev first).resolve_left used).1
      split
      · exact reached .pipe
      · refine (reached .callback).quiet (Quiet.handleAsynConnect ?_ connected)
        exact used
      · exact reached .pollin
  · exact sound

theorem stage (sound : Sound s) {ev : EpollEvent} {before : Stage} {evs : List EpollEvent}
    (phase : s.phase = .event ev before evs) (after : Stage) :
    Sound { s with phase := .event ev after evs } := by
  refine sound.goTo ?_ ?_
  · intro other isCurrent
    simpa [State.current, phase] using isCurrent
  · intro other member
    simpa [State.upcoming, phase] using member

theorem finish (sound : Sound s) {ev : EpollEvent} {before : Stage} {evs : List EpollEvent}
    (phase : s.phase = .event ev before evs) : Sound { s with phase := .next evs } := by
  refine sound.goTo (fun _ isCurrent => by cases isCurrent) ?_
  intro other member
  simpa [State.upcoming, phase] using member

theorem stop (sound : Sound s) {phase : Phase} (idle : phase = .idle ∨ phase = .stopped) :
    Sound { s with phase := phase } := by
  rcases idle with rfl | rfl
  · exact sound.goTo (fun _ isCurrent => by cases isCurrent) (fun _ member => by cases member)
  · exact sound.goTo (fun _ isCurrent => by cases isCurrent) (fun _ member => by cases member)

theorem advance (sound : Sound s) : Sound (s.advance isParent) := by
  unfold State.advance
  split
  · rename_i evs phase
    refine sound.goTo (fun _ isCurrent => by cases isCurrent) ?_
    intro other member
    simpa [State.upcoming, phase] using member
  · exact sound.stop (.inl rfl)
  · rename_i phase
    exact sound.stage phase .pollin
  · rename_i ev evs phase
    exact sound.stage phase (State.pollinStage ev (s.epi.fds ev.fd).type)
  · rename_i phase
    exact sound.stage phase .pollout
  · rename_i ev evs phase
    have done := sound.stage phase .done
    simp only
    split
    · exact done.quiet (Quiet.doDelConn _ ev.fd isParent)
    · exact done
  · rename_i phase
    exact sound.finish phase
  · exact sound

theorem outside (idle : s'.phase = .idle) : Sound s' where
  applied := by simp [State.current, idle]
  waiting := by simp [State.upcoming, idle]

theorem epollWait (s : State) (evs : List EpollEvent) : Sound (s.epollWait isParent evs) where
  applied := by
    intro ev isCurrent
    by_cases parent : isParent = 0 <;>
      simp [State.epollWait, State.current, parent] at isCurrent
  waiting := fun _ _ => .inr ⟨rfl, rfl⟩

theorem register (sound : Sound s) {newfd : Int} (fresh : newfd ∉ s.pending) (type : FdType)
    (peer : Option (UInt16 × UInt32)) (bcElem : Option Nat) :
    Sound (s.addConn newfd type peer bcElem) := by
  have apart : ∀ ev ∈ s.current.toList ++ s.upcoming, ev.fd ≠ newfd := by
    intro ev member here
    exact fresh (here ▸ List.mem_map_of_mem member)
  refine sound.keeps rfl ?_ ?_
  · intro ev isCurrent
    have member : ev ∈ s.current.toList := Option.mem_toList.mpr isCurrent
    exact ⟨isCurrent, keeps_addConn (apart ev (List.mem_append_left _ member)) ..⟩
  · intro ev member
    exact ⟨member, .inr (keeps_addConn (apart ev (List.mem_append_right _ member)) ..)⟩

/-- A new connection that is deleted at once: its number is free again. -/
theorem registerRefused (sound : Sound s) {newfd : Int} (free : (s.epi.fds newfd).type = .unused)
    (listening : ∀ ev, s.current = some ev → (s.epi.fds ev.fd).type = .listen)
    (quiet : ∀ fd, fd ≠ newfd → Keeps s s' fd) (unused : (s'.epi.fds newfd).type = .unused)
    (phase : s'.phase = s.phase) (reported : s'.reported = s.reported) : Sound s' := by
  refine sound.keeps reported ?_ ?_
  · intro ev isCurrent
    have before : s.current = some ev := by
      unfold State.current at isCurrent ⊢
      rwa [phase] at isCurrent
    have apart : ev.fd ≠ newfd := by
      intro here
      have listen := listening ev before
      rw [here, free] at listen
      cases listen
    exact ⟨before, quiet ev.fd apart⟩
  · intro ev member
    have before : ev ∈ s.upcoming := by
      unfold State.upcoming at member ⊢
      rwa [phase] at member
    refine ⟨before, ?_⟩
    by_cases here : ev.fd = newfd
    · exact .inl (here ▸ unused)
    · exact .inr (quiet ev.fd here)

theorem doOpenConn (sound : Sound s) {fd newfd : Int} (free : s.Free newfd)
    (listening : ∀ ev, s.current = some ev → (s.epi.fds ev.fd).type = .listen)
    (peer : UInt16 × UInt32) (now : UInt32) {pushed : Bool}
    (fresh : isParent ≠ 0 ∧ pushed = false ∨ newfd ∉ s.pending) :
    Sound (s.doOpenConn isParent fd newfd peer now pushed) := by
  unfold State.doOpenConn
  generalize added : s.addConn newfd .remote (some peer) (s.epi.fds fd).bcElem = s'
  have stamped : Quiet s' { s' with
      epi := s'.epi.modify newfd fun slot => { slot with sk := { slot.sk with lastTm := now } } } :=
    Quiet.modify newfd rfl id
  simp only
  split
  · have used : (s'.epi.fds newfd).type = .remote := by
      simp [← added, State.addConn, Epi.doAddConn]
    have quiet := stamped.trans (Quiet.doDelConn _ newfd 2)
    refine sound.registerRefused free.1 listening ?_ ?_ (quiet.phase.trans ?_)
      (quiet.reported.trans ?_)
    · intro other apart
      subst added
      exact (keeps_addConn apart ..).trans (quiet.keeps other)
    · simp [State.doDelConn, State.release, used, release_same]
    · exact added ▸ rfl
    · exact added ▸ rfl
  · rename_i stays
    have apart : newfd ∉ s.pending := fresh.resolve_left (by simpa using stays)
    subst added
    exact (sound.register apart ..).quiet stamped

theorem childCrashed (sound : Sound s) {ev : EpollEvent} {evs : List EpollEvent}
    (phase : s.phase = .event ev .pipe evs) (worker : Nat) {newfd : Option Int}
    (fresh : ∀ fd, newfd = some fd → fd ∉ s.upcoming.map EpollEvent.fd) :
    Sound { s.childCrashed isParent ev.fd worker newfd with phase := .next evs } := by
  refine sound.keeps (childCrashed_reported ..) (fun _ isCurrent => by cases isCurrent) ?_
  intro other member
  have before : other ∈ s.upcoming := by simpa [State.upcoming, phase] using member
  refine ⟨before, .inr ?_⟩
  have keeps := childCrashed_keeps isParent s ev.fd worker
    fun fd isNew here => fresh fd isNew (here ▸ List.mem_map_of_mem before)
  exact ⟨keeps.id, keeps.same⟩

theorem loopStep (sound : Sound s) (action : LoopAction)
    (numbers : KeepsNumbers isParent s (.loop action)) : Sound (s.loopStep isParent action) := by
  unfold State.loopStep
  split
  · rename_i phase
    split
    · exact outside phase
    · exact sound
  · exact sound.quiet (Quiet.doDelConn ..)
  · exact sound.quiet (Quiet.doReadConn ..)
  · exact epollWait s _
  · exact sound.quiet (Quiet.scheduleOutput ..)
  · exact sound.take _
  · rename_i ev evs phase
    split
    · exact sound.finish phase
    · split
      · exact sound.stop (.inr rfl)
      · exact sound
  · rename_i newfd ev evs phase
    split
    · split
      · refine sound.childCrashed phase _ ?_
        intro fd isNew
        subst isNew
        exact numbers
      · exact sound
    · exact sound
  · rename_i newfd peer now pushed ev evs phase
    split
    · rename_i ready
      have opened : Sound (s.doOpenConn isParent ev.fd newfd peer now pushed) := by
        refine sound.doOpenConn ready.2 ?_ peer now numbers
        intro other isCurrent
        obtain rfl : ev = other := by simpa [State.current, phase] using isCurrent
        exact ready.1
      simp only
      split
      · exact opened
      · exact opened.stage ((doOpenConn_phase ..).trans phase) .pollout
    · exact sound
  · rename_i error ev evs phase
    have failed := Quiet.acceptError s ev.fd error
    exact (sound.quiet failed).stage (failed.phase.trans phase) .pollout
  · exact sound.quiet (Quiet.doReadConn ..)
  · rename_i failed ev evs phase
    have returned := sound.stage phase .pollout
    simp only
    split
    · exact returned.quiet (Quiet.doDelConn ..)
    · exact returned
  · rename_i written ev evs phase
    have after := sound.stage phase .pollhup
    simp only
    split
    · exact after.quiet (Quiet.netSend ..)
    · exact after
  · exact sound.advance
  · exact sound

theorem step (sound : Sound s) (action : Action) (numbers : KeepsNumbers isParent s action) :
    Sound (step isParent s action) := by
  unfold EventLoop.step
  split
  · rename_i action
    split
    · exact sound.loopStep action numbers
    · exact sound
  · rename_i call
    split
    · cases call with
      | connectToSvr newfd peer =>
          simp only [State.pluginStep]
          split
          · exact sound.register numbers ..
          · exact sound
      | closeSvr fd => exact sound.quiet (Quiet.doDelConn s fd 2)
      | netSend fd written => exact sound.quiet (Quiet.netSend s fd written)
    · exact sound
  · split
    · rename_i fd rest _
      have popped : Sound { s with closing := rest } := ⟨sound.applied, sound.waiting⟩
      exact popped.quiet (Quiet.release _ fd)
    · exact sound

private theorem appliedRightly (sound : Sound s) : AppliedRightly s where
  applied := sound.applied
  skipped := by
    intro ev evs connected phase deleted
    have member : ev ∈ s.upcoming := by simp [State.upcoming, phase]
    have skips : s.Skips ev := by
      rcases sound.waiting ev member with free | ⟨_, present⟩
      · exact .inr (.inr free)
      · rw [present] at deleted
        cases deleted
    unfold State.take
    rw [phase]
    exact if_pos skips

end Sound

/-! ## Main result -/

/-- In the parent and in a worker: in every run in which no connection that stays gets
the number of an event that is not done with, every event is applied to the connection
that it was reported for, and skipped when that connection has been deleted. -/
theorem events_reach_their_connection (isParent : Nat) (actions : List Action)
    (numbers : Along (step isParent) (KeepsNumbers isParent) init actions) :
    AppliedRightly (run (step isParent) init actions) := by
  have sound : Sound (run (step isParent) init actions) :=
    run_preserves_along Sound (fun _ action numbers sound => sound.step action numbers) sound_init
      numbers
  exact sound.appliedRightly

/-- The listening socket 3 accepts `newfd` in the course of one event. -/
def acceptOne (newfd : Int) (peer : UInt16 × UInt32) : List Action :=
  [.loop (.take false), .loop .advance, .loop (.accept newfd peer 7 true),
    .loop (.acceptFailed .again), .loop (.write .failed), .loop .advance, .loop .advance]

/-- The answer to connection 7 cannot be written, a new connection gets `newfd`, and the
loop comes to the hang-up of connection 7. -/
def hangUpAfterAccept (newfd : Int) : List Action :=
  [.loop (.register 3 .listen none (some 0)), .loop (.epollWait [⟨3, true, false, false⟩]),
      .loop .advance] ++ acceptOne 7 (80, 16777343) ++
    [.loop .advance, .loop (.epollWait [⟨3, true, false, false⟩, ⟨7, true, false, true⟩]),
      .loop (.output 2 7 false .failed), .loop .advance] ++ acceptOne newfd (81, 33554559)

theorem events_reach_their_connection_fresh :
    (run (step 1) init (hangUpAfterAccept 8)).take false =
      { run (step 1) init (hangUpAfterAccept 8) with phase := .next [] } :=
  have applied := events_reach_their_connection 1 (hangUpAfterAccept 8) (by decide +kernel)
  applied.skipped ⟨7, true, false, true⟩ [] false (by decide +kernel) (by decide +kernel)

theorem reused_number_gets_the_event : ¬ ∀ (isParent : Nat) (actions : List Action),
    AppliedRightly (run (step isParent) init actions) := by
  intro always
  have applied := (always 1 (hangUpAfterAccept 7 ++ [.loop (.take false)])).applied
    ⟨7, true, false, true⟩ (by decide +kernel)
  exact absurd applied (by decide +kernel)

end MpNet.Net.EventLoop
