import MpNet.Net.OutputBufferProperties
import MpNet.Net.SendLimitProperties

/-!
# The last write before a close

A `FIN_BLOCK` puts the connection into the close queue, and `iterate_close_queue` writes
its pending output once before it deletes it. What the socket does not take in that write
is lost.
-/

set_option autoImplicit false

namespace MpNet.Net.Output

open Library

/-- What the kernel is ready to take before it blocks. -/
def room : List SendResult → Nat
  | [] => 0
  | .sent count :: rest => count + room rest
  | .eintr :: rest => room rest
  | .eagain :: _ | .error :: _ => 0

private theorem sendLoop_count {total sendBytes count : Nat} {results : List SendResult}
    (bounded : sendBytes ≤ total) (sent : sendLoop total sendBytes results = .wrote count) :
    count = min total (sendBytes + room results) := by
  induction results generalizing sendBytes with
  | nil =>
      cases sent
      simp [room, bounded]
  | cons result rest ih =>
      unfold sendLoop at sent
      split at sent
      · cases result with
        | sent taken =>
            rw [ih (by omega) sent, room]
            omega
        | eintr => rw [ih bounded sent, room]
        | eagain =>
            cases sent
            simp [room, bounded]
        | error => cases sent
      · cases sent
        omega

private theorem safeTcpSendN_count {total count : Nat} {results : List SendResult}
    (sent : safeTcpSendN total results = .wrote count) : count = min total (room results) := by
  unfold safeTcpSendN at sent
  split at sent
  · rw [sendLoop_count (Nat.zero_le _) sent, Nat.zero_add]
  · cases sent

/-! ## The invariant of the buffers -/

section Runs

variable {limit : UInt32} {s : State} {action : Action}

def Conn.Sound (c : Conn) : Prop := c.failed = false → Sized c

private theorem doWriteConn_sound {c : Conn} (sound : c.Sound) (results : List SendResult)
    (now : UInt32) : (c.doWriteConn results now).1.Sound := by
  unfold Conn.doWriteConn
  cases sent : safeTcpSendN c.cb.sendlen results with
  | wrote count =>
      intro alive
      rw [wrote_failed] at alive
      have range := (sound alive).range
      refine ⟨(sound alive).toFlows.wrote (safeTcpSendN_wrote sent).1 now, ?_⟩
      simp only [wrote_sendlen]
      omega
  | failed count =>
      intro alive
      cases alive
  | aborted => exact sound

theorem Sends.failed {isParent : Bool} {c : Conn} {data : List UInt8} {kernel : Kernel}
    {result : Conn × Verdict} (sends : Sends isParent limit c data kernel result)
    (kept : result.2 ≠ .deleted) : result.1.failed = c.failed := by
  have flushed : ∀ mid, Flushes c kernel mid → mid.failed = c.failed := by
    intro mid flushes
    cases flushes with
    | idle => rfl
    | wrote count => exact wrote_failed c count kernel.now
  cases sends with
  | aborts mid flushes fails =>
      rcases flushes with same | flushes
      · rw [same]
      · exact flushed mid flushes
  | deletes mid fails => exact absurd rfl kept
  | merges mid count flushes taken direct left =>
      obtain ⟨pollout, ret, merged, _⟩ :=
        merge_cases isParent limit mid (0 < c.cb.sendlen : Bool) data count
      rw [merged]
      exact flushed mid flushes

private theorem acts_sound {fd : Int} {result : Conn × Verdict}
    (acts : Acts true limit s action fd result) (kept : result.2 ≠ .deleted)
    (short : action.Short s) (sound : (s.conn fd).Sound) : result.1.Sound := by
  cases acts with
  | send data kernel sends =>
      intro alive
      have sent := netSend_sends true limit (s.conn fd) data kernel
      rw [sent.failed kept] at alive
      exact netSend_sized (sound alive) (short _ sends) sent kept
  | pollout results now =>
      exact handlePollout_keeps sound (doWriteConn_sound sound results now)
        fun c _ sound alive => ⟨⟨(sound alive).sized, (sound alive).mapped, (sound alive).whole⟩,
          (sound alive).range⟩
  | lastWrite results now => exact doWriteConn_sound sound results now

theorem run_sound {actions : List Action}
    (short : Along (step true limit) (fun s action => action.Short s) init actions) :
    ∀ fd, (run (step true limit) init actions).Live fd →
      ((run (step true limit) init actions).conn fd).Sound := by
  refine run_preserves_along (fun s : State => ∀ fd, s.Live fd → (s.conn fd).Sound) ?_ ?_ short
  · intro s action short sound
    refine step_keeps (fun sk _ => sized_zero sk) ?_ sound
    exact fun fd result acts kept _ before => acts_sound acts kept short before
  · intro fd live
    simp [init, State.Live, netInit, FdInfo.zero] at live

end Runs

/-! ## A connection that stays -/

/-- What was passed stays passed, and a connection in the close queue stays in it. -/
structure Stays (fd : Int) (s s' : State) : Prop where
  passed : (s.conn fd).passed <+: (s'.conn fd).passed
  queued : (s.epi.fds fd).needClose = true → (s'.epi.fds fd).needClose = true

section Stays

variable {isParent : Bool} {limit : UInt32} {s : State} {action : Action} {fd : Int}

theorem Stays.trans {s' s'' : State} (first : Stays fd s s') (second : Stays fd s' s'') :
    Stays fd s s'' :=
  ⟨first.passed.trans second.passed, second.queued ∘ first.queued⟩

private theorem doWriteConn_passed (c : Conn) (results : List SendResult) (now : UInt32) :
    (c.doWriteConn results now).1.passed = c.passed := by
  unfold Conn.doWriteConn
  split
  · rfl
  · rfl
  · exact wrote_passed c _ now

private theorem acts_passed {result : Conn × Verdict}
    (acts : Acts isParent limit s action fd result)
    (kept : result.2 ≠ .deleted) : (s.conn fd).passed <+: result.1.passed := by
  cases acts with
  | send data kernel sends =>
      have flushed : ∀ mid, Flushes (s.conn fd) kernel mid → mid.passed = (s.conn fd).passed := by
        intro mid flushes
        cases flushes with
        | idle => rfl
        | wrote count => exact wrote_passed _ count kernel.now
      have sent := netSend_sends isParent limit (s.conn fd) data kernel
      generalize (s.conn fd).netSend isParent limit data kernel = result at sent kept
      cases sent with
      | aborts mid flushes fails =>
          rcases flushes with same | flushes
          · rw [same]
          · rw [flushed mid flushes]
      | deletes mid fails => exact absurd rfl kept
      | merges mid count flushes taken direct left =>
          obtain ⟨pollout, ret, merged, _⟩ := merge_cases isParent limit mid
            (0 < (s.conn fd).cb.sendlen : Bool) data count
          rw [merged, ← flushed mid flushes]
          exact List.prefix_append _ data
  | pollout results now =>
      refine handlePollout_keeps (I := fun c => (s.conn fd).passed <+: c.passed)
        List.prefix_rfl ?_ fun _ _ before => before
      rw [doWriteConn_passed]
  | lastWrite results now => rw [doWriteConn_passed]

private theorem settle_stays {other : Int} {result : Conn × Verdict}
    (acts : Acts isParent limit s action other result) (live : (s.settle other result).Live fd) :
    Stays fd s (s.settle other result) := by
  by_cases same : fd = other
  · subst same
    obtain ⟨c, verdict⟩ := result
    cases verdict with
    | deleted => exact absurd live (doDelConn_dead (s.setConn fd c) fd)
    | kept | aborted =>
        have passed := acts_passed acts (by simp)
        constructor
        · simpa [State.settle, State.setConn, State.conn] using passed
        · simp [State.settle, State.setConn]
  · obtain ⟨slot, conn⟩ := settle_other (s := s) result same
    exact ⟨by rw [conn], by rw [slot]; exact id⟩

private theorem addToCloseQueue_stays (fd other : Int) (s : State) :
    Stays fd s { s with epi := s.epi.addToCloseQueue other } := by
  by_cases same : fd = other
  · subst same
    exact ⟨by simp [State.conn, Epi.addToCloseQueue_same],
      fun _ => by simp [Epi.addToCloseQueue_same]⟩
  · exact ⟨by simp [State.conn, Epi.addToCloseQueue_other same],
      by rw [Epi.addToCloseQueue_other same]; exact id⟩

/-- A connection that is live before a step and after it is the same one. -/
theorem step_stays (before : s.Live fd) (after : (step isParent limit s action).Live fd) :
    Stays fd s (step isParent limit s action) := by
  have still : Stays fd s s := ⟨List.prefix_rfl, id⟩
  revert after
  unfold step
  split
  · exact fun _ => still
  rename_i running
  cases action with
  | accept newfd peer bcElem =>
      simp only
      split
      · rename_i free
        have apart : fd ≠ newfd := by
          rintro rfl
          rw [State.Live, free] at before
          cases before
        exact fun _ => ⟨by simp [State.addConn, State.conn, apart],
          by simp [State.addConn, Epi.doAddConn, apart]⟩
      · exact fun _ => still
  | block message kernel =>
      simp only [State.scheduleOutput]
      split
      · rename_i parent
        subst parent
        split
        · rename_i reaches
          split
          · exact fun _ => addToCloseQueue_stays fd _ s
          · rename_i data
            have sends : (Action.block message kernel).sends true s =
                some (i32 message.mb.fd.toNat, message.data, kernel) :=
              (if_neg running).trans (if_pos ⟨rfl, reaches, data⟩)
            exact settle_stays (.send _ _ sends)
        · exact fun _ => still
      · exact fun _ => still
  | send other data kernel =>
      simp only
      split
      · rename_i live
        have sends : (Action.send other data kernel).sends isParent s = some (other, data, kernel) :=
          (if_neg running).trans (if_pos live)
        exact settle_stays (.send data kernel sends)
      · exact fun _ => still
  | pollout other results now =>
      simp only
      split
      · have acts : Acts isParent limit s (.pollout other results now) other _ :=
          .pollout results now
        exact settle_stays acts
      · exact fun _ => still
  | lastWrite other results now =>
      simp only
      split
      · have acts : Acts isParent limit s (.lastWrite other results now) other _ :=
          .lastWrite results now
        exact settle_stays acts
      · exact fun _ => still
  | delete other =>
      intro after
      by_cases same : fd = other
      · subst same
        exact absurd after (doDelConn_dead s fd)
      · obtain ⟨slot, conn⟩ := doDelConn_other (s := s) same
        exact ⟨by rw [conn], by rw [slot]; exact id⟩

private theorem run_stays {actions : List Action} (before : s.Live fd)
    (stays : Along (step isParent limit)
      (fun s action => (step isParent limit s action).Live fd) s actions) :
    (run (step isParent limit) s actions).Live fd ∧
      Stays fd s (run (step isParent limit) s actions) :=
  run_preserves_along (fun s' => s'.Live fd ∧ Stays fd s s')
    (fun _ _ after holds => ⟨after, holds.2.trans (step_stays holds.1 after)⟩)
    ⟨before, ⟨List.prefix_rfl, id⟩⟩ stays

private theorem run_aborted (ended : s.aborted = true) (actions : List Action) :
    run (step isParent limit) s actions = s := by
  refine run_preserves (· = s) ?_ rfl actions
  rintro _ action rfl
  exact if_pos ended

private theorem running_of_run {actions : List Action}
    (runs : (run (step isParent limit) s actions).aborted = false) : s.aborted = false := by
  cases ended : s.aborted with
  | false => rfl
  | true =>
      rw [run_aborted ended, ended] at runs
      cases runs

end Stays

/-! ## The close -/

private theorem prefix_accepted_iff {c : Conn} (sized : Sized c) {data : List UInt8}
    (passed : data <+: c.passed) {count : Nat} :
    data <+: c.accepted ++ (output c.cb).take count ↔
      data.length ≤ c.accepted.length + min c.cb.sendlen count := by
  have length := output_length sized.mapped
  constructor
  · intro accepted
    have short := accepted.length_le
    rw [List.length_append, List.length_take, length] at short
    omega
  · intro short
    have whole : c.accepted ++ output c.cb = c.passed := sized.whole
    refine List.prefix_of_prefix_length_le passed ?_ ?_
    · rw [← whole, List.prefix_append_right_inj]
      exact List.take_prefix count _
    · rw [List.length_append, List.length_take, length]
      omega

private theorem doWriteConn_accepts_iff {c : Conn} (sized : Sized c) {data : List UInt8}
    (passed : data <+: c.passed) {results : List SendResult} {now : UInt32}
    (runs : (c.doWriteConn results now).2 ≠ .aborted)
    (alive : (c.doWriteConn results now).1.failed = false) :
    data <+: (c.doWriteConn results now).1.accepted ↔
      data.length ≤ c.accepted.length + room results := by
  have pending := sized.pending
  have bounded := passed.length_le
  unfold Conn.doWriteConn at runs alive ⊢
  cases sent : safeTcpSendN c.cb.sendlen results with
  | wrote count =>
      have accepted : (c.wrote count now).accepted = c.accepted ++ (output c.cb).take count :=
        congrArg Backlog.accepted (backlog_wrote sized.mapped (safeTcpSendN_wrote sent).1 now)
      have taken := safeTcpSendN_count sent
      simp only
      rw [accepted, prefix_accepted_iff sized passed]
      omega
  | failed count =>
      rw [sent] at alive
      cases alive
  | aborted => exact absurd (by rw [sent]) runs

private theorem doWriteConn_not_deleted (c : Conn) (results : List SendResult) (now : UInt32) :
    (c.doWriteConn results now).2 ≠ .deleted := by
  unfold Conn.doWriteConn
  split <;> simp

private theorem doWriteConn_failed {c : Conn} {results : List SendResult} {now : UInt32}
    (alive : (c.doWriteConn results now).1.failed = false) : c.failed = false := by
  unfold Conn.doWriteConn at alive
  split at alive
  · exact alive
  · cases alive
  · rw [wrote_failed] at alive
    exact alive

section Close

variable {isParent : Bool} {limit : UInt32} {s : State} {fd : Int}

private theorem settle_aborted {other : Int} {result : Conn × Verdict}
    (runs : (s.settle other result).aborted = false) : result.2 ≠ .aborted := by
  intro aborts
  obtain ⟨c, verdict⟩ := result
  cases (aborts : verdict = .aborted)
  cases runs

theorem doDelConn_keeps (s : State) (fd : Int) :
    (s.doDelConn fd).sides = s.sides ∧ (s.doDelConn fd).aborted = s.aborted := by
  unfold State.doDelConn
  split <;> exact ⟨rfl, rfl⟩

private theorem step_delete (isParent : Bool) (limit : UInt32) (s : State) (fd : Int) :
    (step isParent limit s (.delete fd)).sides = s.sides ∧
      (step isParent limit s (.delete fd)).aborted = s.aborted := by
  unfold step
  split
  · exact ⟨rfl, rfl⟩
  · exact doDelConn_keeps s fd

private theorem step_fin {message : Shmq.Message} (running : s.aborted = false)
    (reaches : s.Reaches message fd) (fin : message.mb.type = Shmq.finBlock) (kernel : Kernel) :
    step true limit s (.block message kernel) = { s with epi := s.epi.addToCloseQueue fd } := by
  unfold step
  rw [if_neg (by simp [running])]
  simp only [if_true]
  unfold State.scheduleOutput
  simp only [← reaches.1]
  rw [if_pos reaches, if_pos fin]

/-- The turn of a connection in `iterate_close_queue`. -/
def closeActions (fd : Int) (results : List SendResult) (now : UInt32) : List Action :=
  [.lastWrite fd results now, .delete fd]

private theorem close_accepts_iff (live : s.Live fd) (queued : (s.epi.fds fd).needClose = true)
    (sound : (s.conn fd).Sound) {data : List UInt8} (passed : data <+: (s.conn fd).passed)
    {results : List SendResult} {now : UInt32}
    (runs : (run (step isParent limit) s (closeActions fd results now)).aborted = false)
    (alive : ((run (step isParent limit) s (closeActions fd results now)).sides fd).failed =
      false) :
    data <+: ((run (step isParent limit) s (closeActions fd results now)).sides fd).accepted ↔
      data.length ≤ (s.conn fd).accepted.length + room results := by
  have running : s.aborted = false := running_of_run runs
  obtain ⟨sides, aborted⟩ :=
    step_delete isParent limit (step isParent limit s (.lastWrite fd results now)) fd
  simp only [closeActions, run_cons, run_nil, sides, aborted] at runs alive ⊢
  unfold step at runs alive ⊢
  simp only [running, Bool.false_eq_true, if_false] at runs alive ⊢
  by_cases busy : 0 < (s.conn fd).cb.sendlen
  · rw [if_pos ⟨live, queued, busy⟩] at runs alive ⊢
    have same := settle_conn (s := s) fd _ (doWriteConn_not_deleted (s.conn fd) results now)
    have accepted : ((s.settle fd ((s.conn fd).doWriteConn results now)).sides fd).accepted =
        ((s.conn fd).doWriteConn results now).1.accepted := congrArg Conn.accepted same
    have failed : ((s.settle fd ((s.conn fd).doWriteConn results now)).sides fd).failed =
        ((s.conn fd).doWriteConn results now).1.failed := congrArg Conn.failed same
    rw [failed] at alive
    rw [accepted]
    exact doWriteConn_accepts_iff (sound (doWriteConn_failed alive)) passed (settle_aborted runs)
      alive
  · rw [if_neg (fun closes => busy closes.2.2)] at alive ⊢
    have sized : Sized (s.conn fd) := sound alive
    have idle : (s.conn fd).cb.sendlen = 0 := by omega
    have all : data <+: (s.conn fd).accepted ++ (output (s.conn fd).cb).take 0 ↔ _ :=
      prefix_accepted_iff sized passed
    rw [List.take_zero, List.append_nil, idle] at all
    have pending := sized.pending
    have bounded := passed.length_le
    refine all.trans ?_
    omega

end Close

/-- In every run of the parent: when `iterate_close_queue` deletes the connection that a
`FIN_BLOCK` has closed, no assertion or write having failed, the kernel has taken the data
of the blocks before the `FIN_BLOCK` if and only if what it had taken before, and what it
is ready to take in the one write that is left, cover them. -/
theorem close_keeps_output_iff (limit : UInt32) (before between : List Action)
    (message : Shmq.Message) (kernel : Kernel) (fd : Int)
    (short : Along (step true limit) (fun s action => action.Short s) init
      (before ++ .block message kernel :: between))
    (reaches : (run (step true limit) init before).Reaches message fd)
    (fin : message.mb.type = Shmq.finBlock)
    (stays : Along (step true limit) (fun s action => (step true limit s action).Live fd)
      (run (step true limit) init before) (.block message kernel :: between))
    (results : List SendResult) (now : UInt32) :
    let data := ((run (step true limit) init before).conn fd).passed
    let s := run (step true limit) init (before ++ .block message kernel :: between)
    let closed := run (step true limit) s (closeActions fd results now)
    closed.aborted = false → (closed.sides fd).failed = false →
      (data <+: (closed.sides fd).accepted ↔
        data.length ≤ (s.conn fd).accepted.length + room results) := by
  intro data s closed runs alive
  have split : s = run (step true limit) (run (step true limit) init before)
      (.block message kernel :: between) := run_append ..
  have running : (run (step true limit) init before).aborted = false := by
    have later : s.aborted = false := running_of_run runs
    rw [split] at later
    exact running_of_run later
  have live : (run (step true limit) init before).Live fd := reaches.2.2.2.1
  obtain ⟨liveAfter, kept⟩ := run_stays live stays
  have queued : (s.epi.fds fd).needClose = true := by
    have later := (run_stays stays.1 stays.2).2.queued
    rw [step_fin running reaches fin kernel] at later
    rw [split, run_cons, step_fin running reaches fin kernel]
    exact later (by simp [Epi.addToCloseQueue_same])
  rw [← split] at liveAfter kept
  exact close_accepts_iff liveAfter queued (run_sound short fd liveAfter) kept.passed runs alive

/-- The worker closes the connection on descriptor 5. -/
def finMessage : Shmq.Message := .control 1 5 Shmq.finBlock Shmq.finBlock_ne_padBlock

/-- Five bytes, of which the kernel takes three, one and one. -/
theorem close_keeps_output_iff_slowly :
    let before : List Action :=
      [.accept 5 (80, 1) (some 0), .block fiveBytes ⟨[], [.sent 3, .eagain], 0⟩]
    let rest : List Action :=
      [.block finMessage ⟨[], [], 0⟩, .pollout 5 [.eintr, .sent 1, .eagain] 1]
    let s := run (step true 0) init (before ++ rest)
    let closed := run (step true 0) s (closeActions 5 [.sent 1] 2)
    ((run (step true 0) init before).conn 5).passed <+: (closed.sides 5).accepted ↔
      ((run (step true 0) init before).conn 5).passed.length ≤
        (s.conn 5).accepted.length + room [.sent 1] :=
  close_keeps_output_iff 0 _ _ finMessage _ 5 (by decide +kernel) (by decide +kernel)
    (by decide +kernel) (by decide +kernel) _ _ (by decide +kernel) (by decide +kernel)

/-- Five bytes for a socket that takes three of them before the connection is closed. -/
theorem close_loses_output :
    let before : List Action :=
      [.accept 5 (80, 1) (some 0), .block fiveBytes ⟨[], [.sent 3, .eagain], 0⟩]
    let closed := run (step true 0) init
      (before ++ .block finMessage ⟨[], [], 0⟩ :: closeActions 5 [.eagain] 1)
    (run (step true 0) init before).Reaches finMessage 5 ∧ closed.aborted = false ∧
      (closed.sides 5).failed = false ∧ ¬ closed.Live 5 ∧
      ((run (step true 0) init before).conn 5).passed = [1, 2, 3, 4, 5] ∧
      (closed.sides 5).accepted = [1, 2, 3] := by
  decide +kernel

end MpNet.Net.Output
