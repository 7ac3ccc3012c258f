import MpNet.Net.EdgeTriggeredProperties

/-!
# Unread input

The parent waits without a timeout and reads a connection once for each report. Input
can be left unread in two ways: a descriptor that is read again fills its buffer again
just before the wait, and a read that leaves room leaves more than it found.
-/

set_option autoImplicit false

namespace MpNet.Net.EdgeTriggered

open Library

variable {World : Type*} {pageSize : Nat} {s s' : State} {fd : Int}

/-! ## Reports -/

/-- A connection that survives a read is read to its end, or its buffer is filled and it
can be queued, or it is reported again. A FIN_BLOCK takes no unread connection out of the
queue. -/
def Action.LeavesAnnounced (pageSize : Nat) (s : State) : Action World → Prop
  | .recv read => ∀ fd ∈ s.current, Answers (s.sockets fd) (s.room pageSize fd) read.result →
      Survives pageSize s fd (NetRead.pushed pageSize read) →
        ((s.sockets fd).take read.result.chunk.length).Announced
          (fd ∈ s.pop.evs ∨ Fills pageSize s fd read ∧ (s.epi.fds fd).needClose = false)
  | .finBlock id fd => id = (s.epi.fds fd).id → fd ∈ s.epi.etinHead →
      (s.sockets fd).Announced (fd ∈ s.evs)
  | _ => True

instance (s : State) :
    (action : Action World) → Decidable (action.LeavesAnnounced pageSize s)
  | .recv _ => inferInstanceAs (Decidable (∀ fd ∈ s.current, _ → _ → _))
  | .finBlock _ _ => inferInstanceAs (Decidable (_ → _ → _))
  | .arrive .. | .finish .. | .register .. | .delete .. | .epollWait .. | .accept .. | .advance =>
      .isTrue trivial

private theorem evs_next (current : s.current = some fd) (phase : s'.phase = s.phase.next)
    {other : Int}
    (apart : other ≠ fd) (member : other ∈ s.evs) : other ∈ s'.evs := by
  unfold State.evs at member ⊢
  rcases State.current_mem current with ⟨rest, walk⟩ | ⟨⟨evs, batch⟩, _⟩
  · simp [walk] at member
  · rw [phase, batch]
    simpa [batch, apart, Phase.next] using member

theorem Announced.goTo (announced : Announced s) {phase : Phase}
    (evs : ∀ fd, (s.epi.fds fd).type = .remote → fd ∈ s.evs →
      fd ∈ ({ s with phase := phase } : State).evs) :
    Announced { s with phase := phase } := fun fd remote =>
  (announced fd remote).mono (Or.imp_left (evs fd remote))

theorem Announced.accepted {mid : State} (announced : Announced mid)
    (current : s.current = some fd) (before : mid.phase = s.phase)
    (touches : Touches fd mid.epi s'.epi) (listens : (s'.epi.fds fd).type = .listen)
    (sockets : s'.sockets = mid.sockets) (phase : s'.phase = s.phase.next) : Announced s' := by
  refine announced.touch touches (fun _ _ => by rw [sockets]) ?_ fun remote => ?_
  · intro other apart member
    refine evs_next current phase apart ?_
    unfold State.evs at member ⊢
    rwa [← before]
  · rw [listens] at remote
    cases remote

theorem Announced.step (positive : 0 < pageSize) (sound : Sound pageSize s)
    (announced : Announced s) (action : Action World) (leaves : action.LeavesAnnounced pageSize s)
    (live : (step pageSize s action).phase ≠ .exited) :
    Announced (step pageSize s action) := by
  have steps := step_steps sound action
  generalize EdgeTriggered.step pageSize s action = s' at steps live ⊢
  cases steps with
  | none => exact announced
  | peer _ fd report =>
      refine announced.touch (.refl fd sound.linked) ?_ (fun _ _ member => member) ?_
      · exact fun other apart => Function.update_of_ne apart ..
      · intro _
        simp only [State.setSocket, Function.update_self]
        exact .inl report
  | @register fd type worker free kind active =>
      refine announced.touch (.doAddConn sound.linked free.1 free.2 type none (some worker))
        (fun _ _ => rfl) (fun _ _ member => member) fun remote => ?_
      rcases kind with rfl | rfl <;> simp [Epi.doAddConn] at remote
  | delete fd active => exact announced.doDelConn sound.linked fd
  | @fin _ fd _ phase remote same =>
      have used : (s.epi.fds fd).type ≠ .unused := by simp [remote]
      refine announced.touch (.addToCloseQueue sound.linked used) (fun _ _ => rfl)
        (fun _ _ member => member) fun _ => ?_
      by_cases queued : fd ∈ s.epi.etinHead
      · exact (leaves same queued).mono .inl
      · exact (announced fd remote).mono fun agenda => .inl (agenda.resolve_right queued)
  | @wait evs phase =>
      intro fd remote
      simp only [State.epollWait, State.evs]
      split
      · exact EdgeSocket.announced_delivered _ (.inl ‹_›)
      · have before := announced fd remote
        simp only [State.evs, phase, List.not_mem_nil, false_or] at before
        exact before.mono .inr
  | @recv fd read current remote answers =>
      rcases recv_cases sound remote (NetRead.pushed pageSize read) answers with
        exited | ⟨phase, sockets, touches, fate⟩
      · exact absurd exited live
      refine announced.touch touches ?_ (fun _ => evs_next current phase) fun still => ?_
      · exact fun other apart => by rw [sockets, Function.update_of_ne apart]
      · rcases fate with unused | stays
        · rw [unused] at still
          cases still
        · rw [sockets, Function.update_self]
          refine (leaves fd current answers stays.survives).mono (Or.imp ?_ ?_)
          · intro member
            unfold State.evs at member ⊢
            rwa [phase]
          · exact fun both => stays.queued both.1 both.2
  | @accept fd accepted error current listens =>
      obtain ⟨mid, opened, ends⟩ := accept_opened positive sound listens error accepted
      have before := opened.announced announced
      rcases ends with same | ⟨same, _⟩
      · obtain ⟨touches, kind, phase, sockets⟩ :=
          acceptError_keeps opened.sound.linked opened.listens error
        rw [same]
        exact before.accepted current opened.phase touches kind sockets
          (congrArg Phase.next (phase.trans opened.phase))
      · rw [same]
        exact before.accepted current opened.phase (.refl fd opened.sound.linked) opened.listens
          rfl (congrArg Phase.next opened.phase)
  | close phase =>
      obtain ⟨_, idle, closed⟩ := sound.iterateCloseQueue phase
      exact (closed announced).goTo (by simp [State.evs, idle])
  | sleep phase | finished phase => exact announced.goTo (by simp [State.evs, phase])
  | handle phase => exact announced.goTo (by simp [State.evs, phase])
  | @skip fd evs phase skipped =>
      refine announced.goTo fun other remote member => ?_
      simp only [State.evs, phase, List.mem_cons] at member ⊢
      refine member.resolve_left fun same => ?_
      subst same
      have used : (s.epi.fds other).type ≠ .unused := by simp [remote]
      have bound := (sound.linked.tidy.bounded other used).2
      have number := sound.linked.sockfd other used
      rcases skipped with (above | wrong | unused) | pipe
      · omega
      · exact wrong number
      · exact used unused
      · rw [remote] at pipe
        cases pipe

theorem step_exited (action : Action World) (exited : s.phase = .exited) :
    (step pageSize s action).phase = .exited := by
  have stopped : s.current = none := by simp [State.current, exited]
  have quiet : s.handles = false := by simp [State.handles, exited]
  cases action with
  | arrive fd bytes =>
      simp only [step]
      split <;> exact exited
  | finish fd =>
      simp only [step]
      split <;> exact exited
  | register fd type worker => simp [step, exited, quiet]
  | delete fd => simp [step, exited, quiet]
  | finBlock id fd => simp [step, exited]
  | epollWait evs => simp [step, exited]
  | recv read => simp [step, exited, stopped]
  | accept accepted error => simp [step, exited, stopped]
  | advance => simp [step, State.advance, exited]

/-- In every run of the parent whose reads and FIN_BLOCKs leave the input announced, a
connection that is neither reported nor in the etin queue holds no unread byte and no
unread end of stream. -/
theorem unannounced_input_is_read (pageSize : Nat) (positive : 0 < pageSize)
    (actions : List (Action World))
    (leaves : Along (step pageSize) (fun s action => action.LeavesAnnounced pageSize s) init
      actions) :
    let s := run (step pageSize) init actions
    s.phase ≠ .exited → ∀ fd, (s.epi.fds fd).type = .remote → (s.sockets fd).report = false →
      fd ∉ s.evs → fd ∉ s.epi.etinHead →
        (s.sockets fd).unread = [] ∧ (s.sockets fd).fin = false := by
  intro s live fd remote silent handled unqueued
  have kept : s.phase ≠ .exited → Sound pageSize s ∧ Announced s := by
    refine run_preserves_along
      (fun s : State => s.phase ≠ .exited → Sound pageSize s ∧ Announced s) ?_ ?_ leaves
    · intro s action leaves kept live
      have before : s.phase ≠ .exited := fun exited => live (step_exited action exited)
      obtain ⟨sound, announced⟩ := kept before
      exact ⟨sound.step positive action live, announced.step positive sound action leaves live⟩
    · intro _
      refine ⟨sound_init pageSize, fun fd remote => ?_⟩
      simp [init, netInit, FdInfo.zero] at remote
  exact ((kept live).2 fd remote).drained silent (not_or.mpr ⟨handled, unqueued⟩)

/-- A client is accepted on descriptor 5. -/
def acceptClient : List (Action Unit) :=
  [.register 3 .listen 0, .advance, .advance, .epollWait [3], .advance,
    .accept [⟨5, (80, 1), 0, true, [], false⟩] .again, .advance]

/-- One round of the loop that reads the client once. -/
def readClient (bytes : List UInt8) : List (Action Unit) :=
  [.advance, .advance, .epollWait [5], .advance, .recv ⟨lines, (), .bytes bytes, 0⟩, .advance]

/-- Two lines of `size` bytes. -/
def twoLines (size : Nat) : List UInt8 :=
  List.replicate (size - 1) 97 ++ 10 :: (List.replicate (size - 1) 98 ++ [10])

/-- A burst fills the buffer of 64 bytes, and the second read takes the rest. -/
def shortBurst : List (Action Unit) :=
  acceptClient ++ .arrive 5 (twoLines 32 ++ [99, 10]) :: readClient (twoLines 32) ++
    [.advance, .recv ⟨lines, (), .bytes [99, 10], 0⟩]

theorem unannounced_input_is_read_burst :
    let s := run (step 64) init shortBurst
    (s.sockets 5).unread = [] ∧ (s.sockets 5).fin = false :=
  unannounced_input_is_read 64 (by decide) shortBurst (by decide +kernel) (by decide +kernel) 5
    (by decide +kernel) (by decide +kernel) (by decide +kernel) (by decide +kernel)

/-- A line and the end of the stream in one report. -/
theorem merged_end_of_stream_is_lost :
    let s := run (step 64) init (acceptClient ++ [.arrive 5 [97, 10], .finish 5] ++
      readClient [97, 10] ++ [.advance, .advance])
    s.phase = .waiting ∧ (s.epi.fds 5).type = .remote ∧ (s.sockets 5).report = false ∧
      5 ∉ s.evs ∧ 5 ∉ s.epi.etinHead ∧ (s.sockets 5).unread = [] ∧ (s.sockets 5).fin = true := by
  decide +kernel

/-! ## The wait -/

/-- The descriptor that is read without a report. -/
def State.rereads (s : State) : Option Int :=
  match s.phase with
  | .reread (fd :: _) => some fd
  | _ => none

/-- A connection that survives a reread has room in its buffer, and the calls of `accept`
on a queued listening socket end with `EAGAIN`. -/
def Action.Settles (pageSize : Nat) (s : State) : Action World → Prop
  | .recv read => ∀ fd ∈ s.rereads, Answers (s.sockets fd) (s.room pageSize fd) read.result →
      Survives pageSize s fd (NetRead.pushed pageSize read) → ¬ Fills pageSize s fd read
  | .accept accepted error => ∀ fd ∈ s.rereads, (s.epi.fds fd).type = .listen →
      error = .again ∧ ∀ conn ∈ accepted, 0 < conn.newfd
  | _ => True

instance (s : State) : (action : Action World) → Decidable (action.Settles pageSize s)
  | .recv _ => inferInstanceAs (Decidable (∀ fd ∈ s.rereads, _ → _ → _))
  | .accept _ _ => inferInstanceAs (Decidable (∀ fd ∈ s.rereads, _ → _))
  | .arrive .. | .finish .. | .register .. | .delete .. | .finBlock .. | .epollWait .. | .advance =>
      .isTrue trivial

/-- The queue holds nothing but what the walk still comes to. -/
structure Covered (s : State) : Prop where
  walk : ∀ rest, s.phase = .reread rest → ∀ fd ∈ s.epi.etinHead, fd ∈ rest
  waiting : s.phase = .waiting → s.epi.etinHead = []

theorem Covered.visit (covered : Covered s) (current : s.current = some fd)
    (phase : s'.phase = s.phase.next)
    (head : ∀ other, other ≠ fd → (other ∈ s'.epi.etinHead ↔ other ∈ s.epi.etinHead))
    (leaves : fd ∈ s.rereads → fd ∉ s'.epi.etinHead) : Covered s' := by
  rcases State.current_mem current with ⟨rest, walk⟩ | ⟨⟨evs, batch⟩, _⟩
  · rw [walk] at phase
    refine ⟨fun rest' walk' other member => ?_, fun waiting => ?_⟩
    · rw [phase] at walk'
      cases walk'
      have apart : other ≠ fd := by
        rintro rfl
        exact leaves (by simp [State.rereads, walk]) member
      have before := covered.walk _ walk other ((head other apart).mp member)
      exact (List.mem_cons.mp before).resolve_left apart
    · rw [phase] at waiting
      cases waiting
  · rw [batch] at phase
    exact ⟨by simp [phase, Phase.next], by simp [phase, Phase.next]⟩

theorem Covered.step (positive : 0 < pageSize) (sound : Sound pageSize s) (covered : Covered s)
    (action : Action World) (settles : action.Settles pageSize s)
    (live : (step pageSize s action).phase ≠ .exited) : Covered (step pageSize s action) := by
  have steps := step_steps sound action
  generalize EdgeTriggered.step pageSize s action = s' at steps live ⊢
  cases steps with
  | none => exact covered
  | peer => exact ⟨covered.walk, covered.waiting⟩
  | register worker free kind active =>
      refine ⟨fun rest walk => absurd walk (Sound.handles_away active rest), fun waiting => ?_⟩
      simp only at waiting
      simp [State.handles, waiting] at active
  | delete fd active =>
      refine ⟨fun rest walk => ?_, fun waiting => ?_⟩
      · rw [State.doDelConn_phase] at walk
        exact absurd walk (Sound.handles_away (.inr active) rest)
      · rw [State.doDelConn_phase] at waiting
        simp [State.handles, waiting] at active
  | fin phase => exact ⟨by simp [phase], by simp [phase]⟩
  | wait => exact ⟨by simp [State.epollWait], by simp [State.epollWait]⟩
  | @recv fd read current remote answers =>
      rcases recv_cases sound remote (NetRead.pushed pageSize read) answers with
        exited | ⟨phase, _, touches, fate⟩
      · exact absurd exited live
      refine covered.visit current phase touches.head fun again member => ?_
      rcases fate with unused | stays
      · exact touches.linked.absent unused member
      · exact settles fd again answers stays.survives (stays.unqueued member)
  | @accept fd accepted error current listens =>
      obtain ⟨mid, opened, ends⟩ := accept_opened positive sound listens error accepted
      rcases ends with same | ⟨same, conn, member, last⟩
      · obtain ⟨touches, _, phase, _⟩ :=
          acceptError_keeps opened.sound.linked opened.listens error
        rw [same]
        refine covered.visit current (congrArg Phase.next (phase.trans opened.phase))
          (fun other apart => (touches.head other apart).trans (opened.head other)) fun again => ?_
        obtain ⟨rfl, _⟩ := settles fd again listens
        intro member
        exact ((Epi.delFromEtinQueue_etinHead opened.sound.linked).mp member).2 rfl
      · rw [same]
        refine covered.visit current (congrArg Phase.next opened.phase)
          (fun other _ => opened.head other) fun again => ?_
        have positive := (settles fd again listens).2 conn member
        omega
  | close phase =>
      refine ⟨fun rest walk other member => ?_, by simp⟩
      cases walk
      exact member
  | sleep phase =>
      refine ⟨by simp, fun _ => ?_⟩
      exact List.eq_nil_iff_forall_not_mem.mpr fun fd member =>
        List.not_mem_nil (covered.walk [] phase fd member)
  | handle | finished | skip => exact ⟨by simp, by simp⟩

/-- In every run of the parent in which what is read again is read to its end,
`epoll_wait` is entered with an empty etin queue only. -/
theorem parent_waits_with_empty_queue (pageSize : Nat) (positive : 0 < pageSize)
    (actions : List (Action World))
    (settles : Along (step pageSize) (fun s action => action.Settles pageSize s) init actions) :
    let s := run (step pageSize) init actions
    s.phase = .waiting → s.epi.etinHead = [] := by
  intro s waiting
  have kept : s.phase ≠ .exited → Sound pageSize s ∧ Covered s := by
    refine run_preserves_along
      (fun s : State => s.phase ≠ .exited → Sound pageSize s ∧ Covered s) ?_ ?_ settles
    · intro s action settles kept live
      have before : s.phase ≠ .exited := fun exited => live (step_exited action exited)
      obtain ⟨sound, covered⟩ := kept before
      exact ⟨sound.step positive action live, covered.step positive sound action settles live⟩
    · exact fun _ => ⟨sound_init pageSize, by simp [init], by simp [init]⟩
  exact (kept (by simp [waiting])).2.waiting waiting

theorem parent_waits_with_empty_queue_burst :
    let s := run (step 64) init (shortBurst ++ [.advance])
    s.phase = .waiting ∧ s.epi.etinHead = [] :=
  ⟨by decide +kernel,
    parent_waits_with_empty_queue 64 (by decide) (shortBurst ++ [.advance]) (by decide +kernel)
      (by decide +kernel)⟩

/-- A burst of more than two buffers of 64 bytes. -/
theorem parent_waits_with_unread_burst :
    let s := run (step 64) init (acceptClient ++
      .arrive 5 (twoLines 32 ++ twoLines 32 ++ [101, 10]) :: readClient (twoLines 32) ++
        [.advance, .recv ⟨lines, (), .bytes (twoLines 32), 0⟩, .advance])
    s.phase = .waiting ∧ s.epi.etinHead = [5] ∧ (s.epi.fds 5).type = .remote ∧
      (s.sockets 5).report = false ∧ (s.sockets 5).unread = [101, 10] := by
  decide +kernel

end MpNet.Net.EdgeTriggered
