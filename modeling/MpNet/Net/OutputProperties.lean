import MpNet.Net.FdTableProperties
import MpNet.Net.Output

/-!
# What becomes of the output of a connection

The kernel has taken, and the buffer holds, exactly the data of the calls of
`net_send`, in order.
-/

set_option autoImplicit false

namespace MpNet.Net.Output

open Library

/-! ## One write -/

private theorem sendLoop_cases {total sendBytes : Nat} (bounded : sendBytes ≤ total)
    (results : List SendResult) :
    ∃ count ≤ total, sendLoop total sendBytes results = .wrote count ∨
      sendLoop total sendBytes results = .failed count := by
  induction results generalizing sendBytes with
  | nil => exact ⟨sendBytes, bounded, .inl rfl⟩
  | cons result rest ih =>
      unfold sendLoop
      split
      · cases result with
        | sent count => exact ih (by omega)
        | eintr => exact ih bounded
        | eagain => exact ⟨sendBytes, bounded, .inl rfl⟩
        | error => exact ⟨sendBytes, bounded, .inr rfl⟩
      · exact ⟨sendBytes, bounded, .inl rfl⟩

theorem safeTcpSendN_wrote {total count : Nat} {results : List SendResult}
    (sent : safeTcpSendN total results = .wrote count) : count ≤ total ∧ total < 2147483648 := by
  unfold safeTcpSendN at sent
  split at sent
  · rename_i positive
    obtain ⟨other, bounded, wrote | failed⟩ := sendLoop_cases (Nat.zero_le total) results
    · cases wrote.symm.trans sent
      exact ⟨bounded, positive.2⟩
    · cases failed.symm.trans sent
  · cases sent

/-! ## What a call of `net_send` can do -/

section Sends

variable {isParent : Bool} {limit : UInt32} {c mid : Conn} {data : List UInt8} {kernel : Kernel}

/-- The flush at the start of `net_send`. -/
inductive Flushes (c : Conn) (kernel : Kernel) : Conn → Prop
  | idle (idle : c.cb.sendlen = 0) : Flushes c kernel c
  | wrote (count : Nat) (busy : 0 < c.cb.sendlen)
      (sent : safeTcpSendN c.cb.sendlen kernel.flush = .wrote count) :
      Flushes c kernel (c.wrote count kernel.now)

/-- The number of bytes that a call of `net_send` leaves pending, when no write fails. -/
def leftover (c : Conn) (data : List UInt8) (kernel : Kernel) : Option Nat :=
  match (if 0 < c.cb.sendlen then safeTcpSendN c.cb.sendlen kernel.flush else .wrote 0) with
  | .wrote flushed =>
      if flushed < c.cb.sendlen then some (c.cb.sendlen - flushed + data.length)
      else
        match safeTcpSendN data.length kernel.direct with
        | .wrote count => some (data.length - count)
        | .failed _ | .aborted => none
  | .failed _ | .aborted => none

inductive Sends (isParent : Bool) (limit : UInt32) (c : Conn) (data : List UInt8)
    (kernel : Kernel) : Conn × Verdict → Prop
  | aborts (mid : Conn) (flushes : mid = c ∨ Flushes c kernel mid)
      (fails : leftover c data kernel = none) : Sends isParent limit c data kernel (mid, .aborted)
  | deletes (mid : Conn) (fails : leftover c data kernel = none) :
      Sends isParent limit c data kernel (mid, .deleted)
  | merges (mid : Conn) (count : Nat) (flushes : Flushes c kernel mid)
      (taken : count ≤ data.length) (direct : mid.cb.sendlen = 0 ∨ count = 0)
      (left : leftover c data kernel = some (mid.cb.sendlen + (data.length - count))) :
      Sends isParent limit c data kernel
        (mid.merge isParent limit (0 < c.cb.sendlen : Bool) data count)

@[simp] theorem wrote_sendlen (c : Conn) (count : Nat) (now : UInt32) :
    (c.wrote count now).cb.sendlen = c.cb.sendlen - count := by
  unfold Conn.wrote
  simp only
  split
  · simp [*]
  · rfl

@[simp] theorem wrote_failed (c : Conn) (count : Nat) (now : UInt32) :
    (c.wrote count now).failed = c.failed := by
  unfold Conn.wrote
  simp only
  split <;> rfl

@[simp] theorem wrote_passed (c : Conn) (count : Nat) (now : UInt32) :
    (c.wrote count now).passed = c.passed := by
  unfold Conn.wrote
  simp only
  split <;> rfl

@[simp] theorem wrote_pollout (c : Conn) (count : Nat) (now : UInt32) :
    (c.wrote count now).pollout = c.pollout := by
  unfold Conn.wrote
  simp only
  split <;> rfl

theorem Flushes.sendlen (flushes : Flushes c kernel mid) :
    mid.cb.sendlen ≤ c.cb.sendlen ∧ mid.cb.sendlen < 2147483648 := by
  cases flushes with
  | idle idle => omega
  | wrote count busy sent =>
      have bounded := safeTcpSendN_wrote sent
      rw [wrote_sendlen]
      omega

private theorem Flushes.leftover_eq (flushes : Flushes c kernel mid) (data : List UInt8) :
    leftover c data kernel =
      if 0 < mid.cb.sendlen then some (mid.cb.sendlen + data.length)
      else
        match safeTcpSendN data.length kernel.direct with
        | .wrote count => some (data.length - count)
        | .failed _ | .aborted => none := by
  unfold leftover
  cases flushes with
  | idle idle => simp [idle]
  | wrote count busy sent =>
      simp only [busy, if_true, sent, wrote_sendlen]
      exact if_congr (by omega) rfl rfl

theorem Flushes.sendDirect (flushes : Flushes c kernel mid) :
    Sends isParent limit c data kernel
      (mid.sendDirect isParent limit (0 < c.cb.sendlen : Bool) data kernel.direct) := by
  have left := flushes.leftover_eq data
  unfold Conn.sendDirect
  split
  · rename_i empty
    rw [if_neg (by omega)] at left
    cases sent : safeTcpSendN data.length kernel.direct with
    | wrote count =>
        rw [sent] at left
        exact .merges mid count flushes (safeTcpSendN_wrote sent).1 (.inl empty)
          (by simpa [empty] using left)
    | failed count =>
        rw [sent] at left
        exact .deletes _ left
    | aborted =>
        rw [sent] at left
        exact .aborts mid (.inr flushes) left
  · rename_i busy
    rw [if_pos (by omega)] at left
    exact .merges mid 0 flushes (Nat.zero_le _) (.inr rfl) (by simpa using left)

theorem netSend_sends (isParent : Bool) (limit : UInt32) (c : Conn) (data : List UInt8)
    (kernel : Kernel) :
    Sends isParent limit c data kernel (c.netSend isParent limit data kernel) := by
  have rest : ∀ mid, Flushes c kernel mid → Sends isParent limit c data kernel
      (mid.sendDirect isParent limit (0 < c.cb.sendlen : Bool) data kernel.direct) :=
    fun mid flushes => flushes.sendDirect
  unfold Conn.netSend
  split
  · rename_i busy
    rw [decide_eq_true busy] at rest
    unfold Conn.doWriteConn
    cases sent : safeTcpSendN c.cb.sendlen kernel.flush with
    | wrote count =>
        have kept : (count : Int) ≠ -1 := by omega
        simp only
        rw [if_neg kept]
        exact rest _ (.wrote count busy sent)
    | failed count => exact .deletes _ (by simp [leftover, busy, sent])
    | aborted => exact .aborts c (.inl rfl) (by simp [leftover, busy, sent])
  · rename_i idle
    rw [decide_eq_false idle] at rest
    exact rest c (.idle (by omega))

end Sends

/-! ## What a step can do -/

/-- The call of `net_send` that a step makes. -/
def Action.sends (isParent : Bool) (s : State) (action : Action) :
    Option (Int × List UInt8 × Kernel) :=
  if s.aborted then none
  else
    match action with
    | .block message kernel =>
        if isParent ∧ s.Reaches message (i32 message.mb.fd.toNat) ∧
            message.mb.type ≠ Shmq.finBlock then
          some (i32 message.mb.fd.toNat, message.data, kernel)
        else none
    | .send fd data kernel => if s.Live fd then some (fd, data, kernel) else none
    | _ => none

/-- What a step computes for a connection. -/
inductive Acts (isParent : Bool) (limit : UInt32) (s : State) (action : Action) (fd : Int) :
    Conn × Verdict → Prop
  | send (data : List UInt8) (kernel : Kernel)
      (sends : action.sends isParent s = some (fd, data, kernel)) :
      Acts isParent limit s action fd ((s.conn fd).netSend isParent limit data kernel)
  | pollout (results : List SendResult) (now : UInt32) :
      Acts isParent limit s action fd ((s.conn fd).handlePollout results now)
  | lastWrite (results : List SendResult) (now : UInt32) :
      Acts isParent limit s action fd ((s.conn fd).doWriteConn results now)

inductive Steps (isParent : Bool) (limit : UInt32) (s : State) (action : Action) : State → Prop
  | still : Steps isParent limit s action s
  | accept (fd : Int) (peer : UInt16 × UInt32) (bcElem : Option Nat) :
      Steps isParent limit s action (s.addConn fd peer bcElem)
  | fin (fd : Int) (live : s.Live fd) :
      Steps isParent limit s action { s with epi := s.epi.addToCloseQueue fd }
  | act (fd : Int) (live : s.Live fd) (result : Conn × Verdict)
      (acts : Acts isParent limit s action fd result) :
      Steps isParent limit s action (s.settle fd result)
  | delete (fd : Int) : Steps isParent limit s action (s.doDelConn fd)

section Steps

variable {isParent : Bool} {limit : UInt32} {s : State} {action : Action}

theorem step_steps (isParent : Bool) (limit : UInt32) (s : State) (action : Action) :
    Steps isParent limit s action (step isParent limit s action) := by
  unfold step
  split
  · exact .still
  rename_i running
  cases action with
  | accept fd peer bcElem =>
      simp only
      split
      · exact .accept fd peer bcElem
      · exact .still
  | block message kernel =>
      simp only [State.scheduleOutput]
      split
      · rename_i parent
        subst parent
        split
        · rename_i reaches
          split
          · exact .fin _ reaches.2.2.2.1
          · rename_i data
            have sends : (Action.block message kernel).sends true s =
                some (i32 message.mb.fd.toNat, message.data, kernel) := by
              rw [Action.sends, if_neg running]
              exact if_pos ⟨rfl, reaches, data⟩
            exact .act _ reaches.2.2.2.1 _ (.send _ _ sends)
        · exact .still
      · exact .still
  | send fd data kernel =>
      simp only
      split
      · rename_i live
        exact .act fd live _ (.send data kernel ((if_neg running).trans (if_pos live)))
      · exact .still
  | pollout fd results now =>
      simp only
      split
      · exact .act fd ‹_› _ (.pollout results now)
      · exact .still
  | lastWrite fd results now =>
      simp only
      split
      · rename_i before
        exact .act fd before.1 _ (.lastWrite results now)
      · exact .still
  | delete fd => exact .delete fd

theorem settle_conn (fd : Int) (result : Conn × Verdict) (kept : result.2 ≠ .deleted) :
    (s.settle fd result).conn fd = result.1 := by
  obtain ⟨c, verdict⟩ := result
  cases verdict with
  | deleted => exact absurd rfl kept
  | kept | aborted => simp [State.settle, State.setConn, State.conn]

theorem doDelConn_other {fd other : Int} (apart : other ≠ fd) :
    (s.doDelConn fd).epi.fds other = s.epi.fds other ∧ (s.doDelConn fd).conn other = s.conn other := by
  unfold State.doDelConn
  split
  · exact ⟨rfl, rfl⟩
  · simp [State.conn, Epi.release_other apart]

theorem doDelConn_dead (s : State) (fd : Int) : ¬ (s.doDelConn fd).Live fd := by
  unfold State.doDelConn State.Live
  split
  · simp [*]
  · simp [Epi.release_same]

theorem settle_other {fd other : Int} (result : Conn × Verdict) (apart : other ≠ fd) :
    (s.settle fd result).epi.fds other = s.epi.fds other ∧
      (s.settle fd result).conn other = s.conn other := by
  have kept : (s.setConn fd result.1).epi.fds other = s.epi.fds other ∧
      (s.setConn fd result.1).conn other = s.conn other := by
    simp [State.setConn, State.conn, Epi.modify, apart]
  obtain ⟨c, verdict⟩ := result
  cases verdict with
  | kept | aborted => exact kept
  | deleted =>
      obtain ⟨slot, conn⟩ := doDelConn_other (s := s.setConn fd c) apart
      exact ⟨slot.trans kept.1, conn.trans kept.2⟩

theorem Steps.conn {s' : State} (steps : Steps isParent limit s action s') {fd : Int}
    (live : s'.Live fd) :
    (s.Live fd ∧ s'.conn fd = s.conn fd) ∨
      (∃ sk, s'.conn fd = ⟨.zero, sk, false, [], [], false⟩) ∨
      s.Live fd ∧ ∃ result, Acts isParent limit s action fd result ∧ result.2 ≠ .deleted ∧
        s'.conn fd = result.1 := by
  cases steps with
  | still => exact .inl ⟨live, rfl⟩
  | accept newfd peer bcElem =>
      by_cases same : fd = newfd
      · subst same
        exact .inr (.inl ⟨_, by simp [State.addConn, State.conn, Epi.doAddConn, FdInfo.zero]; rfl⟩)
      · refine .inl ⟨?_, ?_⟩
        · simpa [State.addConn, State.Live, same] using live
        · simp [State.addConn, State.conn, same]
  | fin other before =>
      by_cases same : fd = other
      · subst same
        exact .inl ⟨before, by simp [State.conn, Epi.addToCloseQueue_same]⟩
      · refine .inl ⟨?_, ?_⟩
        · simpa [State.Live, Epi.addToCloseQueue_other same] using live
        · simp [State.conn, Epi.addToCloseQueue_other same]
  | act other before result acts =>
      by_cases same : fd = other
      · subst same
        have kept : result.2 ≠ .deleted := by
          intro deleted
          obtain ⟨c, verdict⟩ := result
          cases (deleted : verdict = .deleted)
          exact doDelConn_dead (s.setConn fd c) fd live
        exact .inr (.inr ⟨before, result, acts, kept, settle_conn fd result kept⟩)
      · obtain ⟨slot, conn⟩ := settle_other (s := s) result same
        exact .inl ⟨by rwa [State.Live, slot] at live, conn⟩
  | delete other =>
      by_cases same : fd = other
      · subst same
        exact absurd live (doDelConn_dead s fd)
      · obtain ⟨slot, conn⟩ := doDelConn_other (s := s) same
        exact .inl ⟨by rwa [State.Live, slot] at live, conn⟩

/-- What holds of a fresh connection and of everything that a step computes holds of every
connection that is live after the step. -/
theorem step_keeps {I : Conn → Prop} (fresh : ∀ sk, I ⟨.zero, sk, false, [], [], false⟩)
    (acts : ∀ fd result, Acts isParent limit s action fd result → result.2 ≠ .deleted →
      (step isParent limit s action).conn fd = result.1 → I (s.conn fd) → I result.1)
    (holds : ∀ fd, s.Live fd → I (s.conn fd)) (fd : Int)
    (live : (step isParent limit s action).Live fd) :
    I ((step isParent limit s action).conn fd) := by
  rcases (step_steps isParent limit s action).conn live with
    ⟨before, same⟩ | ⟨sk, same⟩ | ⟨before, result, computed, kept, same⟩
  · rw [same]
    exact holds fd before
  · rw [same]
    exact fresh sk
  · rw [same]
    exact acts fd result computed kept same (holds fd before)

end Steps

/-! ## The stream -/

def Conn.backlog (c : Conn) : Backlog UInt8 := ⟨c.accepted, output c.cb⟩

/-- The buffer is large enough, and with the bytes taken it makes up the data passed. -/
structure Flows (c : Conn) : Prop where
  sized : c.cb.sendlen ≤ c.cb.sndbufsz
  mapped : c.cb.sendptr = none → c.cb.sendlen = 0
  whole : c.backlog.passed = c.passed

theorem output_length {cb : ConnBuf} (mapped : cb.sendptr = none → cb.sendlen = 0) :
    (output cb).length = cb.sendlen := by
  unfold output
  cases buffer : cb.sendptr with
  | none => simp [mapped buffer]
  | some memory => simp

theorem backlog_wrote {c : Conn} {count : Nat} (mapped : c.cb.sendptr = none → c.cb.sendlen = 0)
    (bounded : count ≤ c.cb.sendlen) (now : UInt32) :
    (c.wrote count now).backlog = c.backlog.drain count := by
  unfold Conn.wrote
  simp only
  split
  · rename_i nothing
    rw [nothing, Backlog.drain_zero]
  · rename_i something
    cases buffer : c.cb.sendptr with
    | none =>
        have empty := mapped buffer
        omega
    | some memory =>
        simp only [Conn.backlog, Conn.accept, Backlog.drain, output, buffer, Option.map_some]
        congr 1
        by_cases partly : count < c.cb.sendlen
        · have moved := Memory.holds_write memory 0 (memory.read count (c.cb.sendlen - count))
          rw [Memory.Holds, Memory.read_length] at moved
          simp only [partly, if_true]
          rw [moved, Memory.read_drop, Int.zero_add]
        · have all : c.cb.sendlen - count = 0 := by omega
          simp only [partly, if_false, all, Memory.read_zero]
          rw [List.drop_eq_nil_of_le]
          rw [Memory.read_length]
          omega

theorem Flows.wrote {c : Conn} {count : Nat} (flows : Flows c) (bounded : count ≤ c.cb.sendlen)
    (now : UInt32) : Flows (c.wrote count now) where
  sized := by
    have sized := flows.sized
    unfold Conn.wrote
    simp only
    split
    · exact sized
    · exact (Nat.sub_le _ _).trans sized
  mapped := by
    have mapped := flows.mapped
    unfold Conn.wrote
    simp only
    split
    · exact mapped
    · intro none
      have unmapped : c.cb.sendptr = .none := by
        simp only at none
        split at none
        · exact Option.map_eq_none_iff.mp none
        · exact none
      simp [mapped unmapped]
  whole := by
    rw [backlog_wrote flows.mapped bounded, Backlog.passed_drain, flows.whole, wrote_passed]

theorem mergeBuffer_appends {cb : ConnBuf} {rest : List UInt8}
    (mapped : cb.sendptr = none → cb.sendlen = 0)
    (range : cb.sendlen + rest.length < 4294967296) :
    output (mergeBuffer cb rest) = output cb ++ rest ∧
      (mergeBuffer cb rest).sendlen = cb.sendlen + rest.length ∧
      (mergeBuffer cb rest).sendlen ≤ (mergeBuffer cb rest).sndbufsz ∧
      (mergeBuffer cb rest).sendptr ≠ none := by
  unfold mergeBuffer
  rw [Nat.mod_eq_of_lt range]
  cases buffer : cb.sendptr with
  | none =>
      have empty := mapped buffer
      refine ⟨?_, rfl, ?_, by simp⟩
      · simp only [output, buffer, Option.map_some]
        rw [Memory.read_write_append, empty, Memory.read_zero]
      · simp only
        omega
  | some memory =>
      by_cases short : cb.sndbufsz < cb.sendlen + rest.length
      · simp only [short, if_true, output, buffer, Option.map_some]
        exact ⟨Memory.read_write_append .., trivial, le_rfl, by simp⟩
      · simp only [short, if_false, output, buffer, Option.map_some]
        exact ⟨Memory.read_write_append .., trivial, by omega, by simp⟩

/-- The buffer after the merge step of `net_send`. -/
def mergedBuffer (cb : ConnBuf) (data : List UInt8) (count : Nat) : ConnBuf :=
  if count < data.length then mergeBuffer cb (data.drop count) else cb

theorem mergedBuffer_sendlen {cb : ConnBuf} {data : List UInt8} {count : Nat}
    (range : cb.sendlen + (data.length - count) < 4294967296) :
    (mergedBuffer cb data count).sendlen = cb.sendlen + (data.length - count) := by
  unfold mergedBuffer
  split
  · simp [mergeBuffer, Nat.mod_eq_of_lt range]
  · omega

theorem mergedBuffer_le (cb : ConnBuf) (data : List UInt8) (count : Nat) :
    (mergedBuffer cb data count).sendlen ≤ cb.sendlen + (data.length - count) := by
  unfold mergedBuffer
  split
  · simpa [mergeBuffer] using Nat.mod_le (cb.sendlen + (data.length - count)) 4294967296
  · omega

/-- The merge sets the mask of a connection with pending output, unless the flag or the
limit lets it keep its mask. -/
theorem merge_cases (isParent : Bool) (limit : UInt32) (c : Conn) (prevStat : Bool)
    (data : List UInt8) (count : Nat) : ∃ pollout ret,
    c.merge isParent limit prevStat data count =
      ({ c with
          passed := c.passed ++ data
          accepted := c.accepted ++ data.take count
          cb := mergedBuffer c.cb data count
          pollout := pollout }, .kept ret) ∧
      (0 < (mergedBuffer c.cb data count).sendlen → pollout = true ∨
        pollout = c.pollout ∧ (prevStat = true ∨ count < data.length ∧ 0 < limit.toNat ∧
          limit.toNat < (mergedBuffer c.cb data count).sendlen)) := by
  have merged : (if count < data.length then
      { c with
        passed := c.passed ++ data
        accepted := c.accepted ++ data.take count
        cb := mergeBuffer c.cb (data.drop count) }
      else { c with passed := c.passed ++ data, accepted := c.accepted ++ data.take count }) =
      { c with
        passed := c.passed ++ data
        accepted := c.accepted ++ data.take count
        cb := mergedBuffer c.cb data count } := by
    unfold mergedBuffer
    split <;> rfl
  unfold Conn.merge
  simp only [merged]
  split
  · rename_i exceeding
    exact ⟨c.pollout, _, rfl, fun _ => .inr ⟨rfl, .inr ⟨exceeding.1, exceeding.2.2⟩⟩⟩
  split
  · exact ⟨true, _, rfl, fun _ => .inl rfl⟩
  rename_i armed
  split
  · rename_i idle
    exact ⟨false, _, rfl, fun busy => absurd busy (by rw [idle.2]; exact lt_irrefl 0)⟩
  · refine ⟨c.pollout, _, rfl, fun busy => .inr ⟨rfl, .inl ?_⟩⟩
    by_contra fresh
    exact armed ⟨busy, fresh⟩

theorem Flows.merge {c : Conn} {data : List UInt8} {count : Nat} (flows : Flows c)
    (direct : c.cb.sendlen = 0 ∨ count = 0)
    (range : c.cb.sendlen + (data.length - count) < 4294967296) (isParent : Bool)
    (limit : UInt32) (prevStat : Bool) :
    Flows (c.merge isParent limit prevStat data count).1 := by
  obtain ⟨pollout, ret, merged, _⟩ := merge_cases isParent limit c prevStat data count
  have grown : output (mergedBuffer c.cb data count) = output c.cb ++ data.drop count ∧
      (mergedBuffer c.cb data count).sendlen ≤ (mergedBuffer c.cb data count).sndbufsz ∧
      ((mergedBuffer c.cb data count).sendptr = none →
        (mergedBuffer c.cb data count).sendlen = 0) := by
    unfold mergedBuffer
    split
    · rw [← List.length_drop] at range
      obtain ⟨content, _, sized, mapped⟩ := mergeBuffer_appends flows.mapped range
      exact ⟨content, sized, fun none => absurd none mapped⟩
    · rw [List.drop_eq_nil_of_le (by omega), List.append_nil]
      exact ⟨rfl, flows.sized, flows.mapped⟩
  rw [merged]
  refine ⟨grown.2.1, grown.2.2, ?_⟩
  have whole : c.backlog.accepted ++ c.backlog.pending = c.passed := flows.whole
  have after : (⟨c.accepted ++ data.take count, output c.cb ++ data.drop count⟩ : Backlog UInt8) =
      (c.backlog.push data).drain count := by
    rcases direct with empty | nothing
    · have idle : output c.cb = [] := by
        rw [← List.length_eq_zero_iff, output_length flows.mapped, empty]
      rw [Backlog.push_drain idle, idle, List.nil_append]
      rfl
    · rw [nothing, Backlog.drain_zero]
      simp [Conn.backlog, Backlog.push]
  simp only [Conn.backlog, grown.1]
  rw [after, Backlog.passed_drain, Backlog.passed_push, Backlog.passed, whole]

/-! ## Exact output -/

/-- The bytes passed and not yet taken stay below `2 ^ 31`. -/
def Conn.Bounded (c : Conn) : Prop := c.passed.length < c.accepted.length + 2147483648

instance (c : Conn) : Decidable c.Bounded := inferInstanceAs (Decidable (_ < _))

def Action.Bounded (isParent : Bool) (limit : UInt32) (s : State) (action : Action) : Prop :=
  ∀ sent ∈ action.sends isParent s, ((step isParent limit s action).conn sent.1).Bounded

instance (isParent : Bool) (limit : UInt32) (s : State) (action : Action) :
    Decidable (action.Bounded isParent limit s) :=
  inferInstanceAs (Decidable (∀ sent ∈ action.sends isParent s, _))

/-- As long as no write has failed, the stream is whole. -/
def Conn.Whole (c : Conn) : Prop := c.failed = false → Flows c

private theorem doWriteConn_whole {c : Conn} (whole : c.Whole) (results : List SendResult)
    (now : UInt32) : (c.doWriteConn results now).1.Whole := by
  unfold Conn.doWriteConn
  cases sent : safeTcpSendN c.cb.sendlen results with
  | wrote count =>
      intro alive
      rw [wrote_failed] at alive
      exact (whole alive).wrote (safeTcpSendN_wrote sent).1 now
  | failed count =>
      intro alive
      cases alive
  | aborted => exact whole

theorem handlePollout_keeps {I : Conn → Prop} {c : Conn} {results : List SendResult}
    {now : UInt32} (before : I c) (written : I (c.doWriteConn results now).1)
    (disarm : ∀ c : Conn, c.cb.sendlen = 0 → I c → I (c.modEvents false)) :
    I (c.handlePollout results now).1 := by
  unfold Conn.handlePollout
  split
  · generalize c.doWriteConn results now = after at written ⊢
    obtain ⟨c', verdict⟩ := after
    cases verdict with
    | kept ret =>
        simp only
        split
        · exact written
        split
        · exact disarm c' ‹_› written
        · exact written
    | deleted | aborted => exact written
  · exact disarm c (by omega) before

theorem Flushes.whole {c mid : Conn} {kernel : Kernel} (flushes : Flushes c kernel mid)
    (whole : c.Whole) : mid.Whole := by
  cases flushes with
  | idle => exact whole
  | wrote count busy sent =>
      intro alive
      rw [wrote_failed] at alive
      exact (whole alive).wrote (safeTcpSendN_wrote sent).1 kernel.now

private theorem netSend_whole {isParent : Bool} {limit : UInt32} {c : Conn} {data : List UInt8}
    {kernel : Kernel} {result : Conn × Verdict}
    (sends : Sends isParent limit c data kernel result) (kept : result.2 ≠ .deleted)
    (bounded : result.1.Bounded) (whole : c.Whole) : result.1.Whole := by
  cases sends with
  | aborts mid flushes fails =>
      rcases flushes with same | flushes
      · exact same ▸ whole
      · exact flushes.whole whole
  | deletes mid fails => exact absurd rfl kept
  | merges mid count flushes taken direct left =>
      have flows := flushes.whole whole
      obtain ⟨pollout, ret, merged, _⟩ :=
        merge_cases isParent limit mid (0 < c.cb.sendlen : Bool) data count
      intro alive
      have before : mid.failed = false := by rwa [merged] at alive
      have whole : mid.accepted ++ output mid.cb = mid.passed := (flows before).whole
      have length := output_length (flows before).mapped
      refine (flows before).merge direct ?_ isParent limit _
      rw [merged] at bounded
      simp only [Conn.Bounded, ← whole, List.length_append, List.length_take] at bounded
      omega

theorem acts_whole {isParent : Bool} {limit : UInt32} {s : State} {action : Action} {fd : Int}
    {result : Conn × Verdict} (acts : Acts isParent limit s action fd result)
    (kept : result.2 ≠ .deleted) (same : (step isParent limit s action).conn fd = result.1)
    (bounded : action.Bounded isParent limit s) (whole : (s.conn fd).Whole) :
    result.1.Whole := by
  cases acts with
  | send data kernel sends =>
      have bounded := bounded _ sends
      rw [same] at bounded
      exact netSend_whole (netSend_sends isParent limit _ data kernel) kept bounded whole
  | pollout results now =>
      exact handlePollout_keeps whole (doWriteConn_whole whole results now)
        fun c _ whole alive => ⟨(whole alive).sized, (whole alive).mapped, (whole alive).whole⟩
  | lastWrite results now => exact doWriteConn_whole whole results now

/-- Over every run of registrations, calls of `net_send` and `do_write_conn` and deletions,
whatever the kernel does with each `send`: while the bytes pending on every connection
stay below `2 ^ 31`, a live connection none of whose writes has failed has passed to the
kernel and kept in its buffer exactly the data of its calls of `net_send`. -/
theorem output_is_fifo (isParent : Bool) (limit : UInt32) (actions : List Action)
    (bounded : Along (step isParent limit) (fun s action => action.Bounded isParent limit s) init
      actions) :
    let s := run (step isParent limit) init actions
    ∀ fd, s.Live fd → (s.conn fd).failed = false →
      (s.conn fd).accepted ++ output (s.conn fd).cb = (s.conn fd).passed ∧
        (s.conn fd).cb.sendlen ≤ (s.conn fd).cb.sndbufsz := by
  intro s fd live alive
  have whole : ∀ fd, s.Live fd → (s.conn fd).Whole := by
    refine run_preserves_along (fun s => ∀ fd, s.Live fd → (s.conn fd).Whole) ?_ ?_ bounded
    · intro s action bounded whole
      refine step_keeps (fun sk _ => ⟨le_rfl, fun _ => rfl, rfl⟩) ?_ whole
      intro fd result acts kept same before
      exact acts_whole acts kept same bounded before
    · intro fd live
      simp [init, State.Live, netInit, FdInfo.zero] at live
  exact ⟨(whole fd live alive).whole, (whole fd live alive).sized⟩

/-- A short write, a flush that makes room and a direct write in one call. -/
theorem output_is_fifo_flushed :
    let actions : List Action :=
      [.accept 5 (80, 1) none,
        .send 5 [1, 2, 3] ⟨[], [.sent 1, .eagain], 0⟩,
        .send 5 [4, 5] ⟨[.eintr, .sent 2], [.sent 1, .eagain], 1⟩]
    let s := run (step true 0) init actions
    ((s.conn 5).accepted = [1, 2, 3, 4] ∧ (s.conn 5).cb.sendlen = 1) ∧
      ((s.conn 5).accepted ++ output (s.conn 5).cb = (s.conn 5).passed ∧
        (s.conn 5).cb.sendlen ≤ (s.conn 5).cb.sndbufsz) :=
  ⟨by decide +kernel,
    output_is_fifo true 0 _ (by decide +kernel) 5 (by decide +kernel) (by decide +kernel)⟩

end MpNet.Net.Output
