import MpNet.Net.OutputProperties

/-!
# The send buffer limit

A call of `net_send` that exceeds the limit returns -1 after it has stored the data.
On an empty buffer it also leaves before `EPOLLOUT` is set, and in every case the data
stays with a live connection, since no caller looks at the result.
-/

set_option autoImplicit false

namespace MpNet.Net.Output

open Library

/-- The call leaves more than the limit pending. -/
def OverLimit (limit : UInt32) (c : Conn) (data : List UInt8) (kernel : Kernel) : Prop :=
  0 < limit.toNat ∧ ∃ left ∈ leftover c data kernel, limit.toNat < left

instance (limit : UInt32) (c : Conn) (data : List UInt8) (kernel : Kernel) :
    Decidable (OverLimit limit c data kernel) := inferInstanceAs (Decidable (_ ∧ _))

/-! ## Armed output -/

def Conn.Armed (c : Conn) : Prop := 0 < c.cb.sendlen → c.pollout = true

/-- A call of `net_send` with nothing pending stays within the limit. -/
def Action.StartsWithinLimit (isParent : Bool) (limit : UInt32) (s : State) (action : Action) :
    Prop :=
  ∀ sent ∈ action.sends isParent s, (s.conn sent.1).cb.sendlen = 0 →
    ¬ OverLimit limit (s.conn sent.1) sent.2.1 sent.2.2

instance (isParent : Bool) (limit : UInt32) (s : State) (action : Action) :
    Decidable (action.StartsWithinLimit isParent limit s) :=
  inferInstanceAs (Decidable (∀ sent ∈ action.sends isParent s, _))

section Armed

variable {isParent : Bool} {limit : UInt32} {c mid : Conn} {data : List UInt8} {kernel : Kernel}

private theorem wrote_armed (armed : c.Armed) (count : Nat) (now : UInt32) :
    (c.wrote count now).Armed := by
  intro busy
  rw [wrote_sendlen] at busy
  rw [wrote_pollout]
  exact armed (by omega)

private theorem doWriteConn_armed (armed : c.Armed) (results : List SendResult) (now : UInt32) :
    (c.doWriteConn results now).1.Armed := by
  unfold Conn.doWriteConn
  split
  · exact armed
  · exact armed
  · exact wrote_armed armed _ now

theorem Flushes.armed (flushes : Flushes c kernel mid) (armed : c.Armed) :
    mid.Armed ∧ mid.pollout = c.pollout := by
  cases flushes with
  | idle => exact ⟨armed, rfl⟩
  | wrote count => exact ⟨wrote_armed armed count kernel.now, wrote_pollout c count kernel.now⟩

private theorem netSend_armed {result : Conn × Verdict}
    (sends : Sends isParent limit c data kernel result)
    (kept : result.2 ≠ .deleted)
    (within : c.cb.sendlen = 0 → ¬ OverLimit limit c data kernel) (armed : c.Armed) :
    result.1.Armed := by
  cases sends with
  | aborts mid flushes fails =>
      rcases flushes with same | flushes
      · exact same ▸ armed
      · exact (flushes.armed armed).1
  | deletes mid fails => exact absurd rfl kept
  | merges mid count flushes taken direct left =>
      obtain ⟨pollout, ret, merged, mask⟩ :=
        merge_cases isParent limit mid (0 < c.cb.sendlen : Bool) data count
      rw [merged]
      intro busy
      rcases mask busy with set | ⟨same, reason⟩
      · exact set
      have before : c.pollout = true := by
        rcases reason with pending | ⟨_, positive, exceeding⟩
        · exact armed (of_decide_eq_true pending)
        · apply armed
          by_contra idle
          have size := mergedBuffer_le mid.cb data count
          exact within (by omega) ⟨positive, _, left, by omega⟩
      exact same.trans ((flushes.armed armed).2.trans before)

/-- In every run of the parent in which no call of `net_send` leaves more than the limit
on a connection that had nothing pending, a live connection with pending output has
`EPOLLOUT` in its event mask. -/
theorem pending_output_is_armed (limit : UInt32) (actions : List Action)
    (within : Along (step true limit)
      (fun s action => action.StartsWithinLimit true limit s) init actions) :
    let s := run (step true limit) init actions
    ∀ fd, s.Live fd → 0 < (s.conn fd).cb.sendlen → (s.conn fd).pollout = true := by
  intro s
  refine run_preserves_along (fun s : State => ∀ fd, s.Live fd → (s.conn fd).Armed) ?_ ?_ within
  · intro s action within armed
    refine step_keeps (fun sk busy => absurd busy (lt_irrefl 0)) ?_ armed
    intro fd result acts kept _ before
    cases acts with
    | send data kernel sends =>
        exact netSend_armed (netSend_sends true limit _ data kernel) kept (within _ sends) before
    | pollout results now =>
        refine handlePollout_keeps before (doWriteConn_armed before results now) ?_
        intro c idle _ busy
        exact absurd busy (by simp [Conn.modEvents, idle])
    | lastWrite results now => exact doWriteConn_armed before results now
  · intro fd live
    simp [init, State.Live, netInit, FdInfo.zero] at live

end Armed

/-- A block of five bytes for the connection on descriptor 5. -/
def fiveBytes : Shmq.Message :=
  .make 1 5 Shmq.dataBlock [1, 2, 3, 4, 5] (by decide) (by decide)

/-- The kernel takes three of five bytes, then the other two after `EPOLLOUT`. -/
theorem pending_output_is_armed_partly :
    let actions : List Action :=
      [.accept 5 (80, 1) (some 0), .block fiveBytes ⟨[], [.sent 3, .eagain], 0⟩]
    (run (step true 3) init actions).Live 5 →
      0 < ((run (step true 3) init actions).conn 5).cb.sendlen →
      ((run (step true 3) init actions).conn 5).pollout = true :=
  pending_output_is_armed 3 _ (by decide +kernel) 5

/-- Five bytes that the kernel does not take, with a limit of three. -/
theorem over_limit_output_not_armed :
    let s := run (step true 3) init
      [.accept 5 (80, 1) (some 0), .block fiveBytes ⟨[], [.eagain], 0⟩]
    s.Live 5 ∧ (s.conn 5).cb.sendlen = 5 ∧ (s.conn 5).pollout = false := by
  decide +kernel

/-! ## Bounded output -/

/-- The data of a block is shorter than `2 ^ 31`, as `shmq_push` ensures. -/
def Action.Short (s : State) (action : Action) : Prop :=
  ∀ sent ∈ action.sends true s, sent.2.1.length < 2147483648

/-- After the step every live connection is within the limit, and a call that exceeds it
has left the pending bytes alone or removed the connection. -/
def StaysBounded (limit : UInt32) (s : State) (action : Action) : Prop :=
  (∀ fd, (step true limit s action).Live fd →
      ((step true limit s action).conn fd).cb.sendlen ≤ limit.toNat) ∧
    ∀ sent ∈ action.sends true s, OverLimit limit (s.conn sent.1) sent.2.1 sent.2.2 →
      output ((step true limit s action).conn sent.1).cb = output (s.conn sent.1).cb ∨
        ¬ (step true limit s action).Live sent.1

/-- No call of `net_send` leaves more than the limit. -/
def Action.WithinLimit (limit : UInt32) (s : State) (action : Action) : Prop :=
  ∀ sent ∈ action.sends true s, ¬ OverLimit limit (s.conn sent.1) sent.2.1 sent.2.2

section Bounded

variable {limit : UInt32} {s : State} {action : Action}

def Conn.WithinLimit (limit : UInt32) (c : Conn) : Prop := c.cb.sendlen ≤ limit.toNat

private theorem doWriteConn_sendlen (c : Conn) (results : List SendResult) (now : UInt32) :
    (c.doWriteConn results now).1.cb.sendlen ≤ c.cb.sendlen := by
  unfold Conn.doWriteConn
  split
  · exact le_rfl
  · exact le_rfl
  · rw [wrote_sendlen]
    exact Nat.sub_le _ _

private theorem netSend_within {c : Conn} {data : List UInt8} {kernel : Kernel}
    {result : Conn × Verdict} (positive : 0 < limit.toNat)
    (sends : Sends true limit c data kernel result) (kept : result.2 ≠ .deleted)
    (fits : ¬ OverLimit limit c data kernel) (within : c.WithinLimit limit) :
    result.1.WithinLimit limit := by
  cases sends with
  | aborts mid flushes fails =>
      rcases flushes with same | flushes
      · exact same ▸ within
      · exact flushes.sendlen.1.trans within
  | deletes mid fails => exact absurd rfl kept
  | merges mid count flushes taken direct left =>
      obtain ⟨pollout, ret, merged, _⟩ :=
        merge_cases true limit mid (0 < c.cb.sendlen : Bool) data count
      rw [merged]
      have size := mergedBuffer_le mid.cb data count
      by_contra exceeding
      exact fits ⟨positive, _, left, by simp only [Conn.WithinLimit] at exceeding; omega⟩

private theorem netSend_exceeds {c : Conn} {data : List UInt8} {kernel : Kernel}
    {result : Conn × Verdict} (sends : Sends true limit c data kernel result)
    (short : data.length < 2147483648) (exceeding : OverLimit limit c data kernel) :
    result.2 ≠ .deleted ∧ result.2 ≠ .aborted ∧ limit.toNat < result.1.cb.sendlen := by
  obtain ⟨_, left, member, above⟩ := exceeding
  cases sends with
  | aborts mid flushes fails => simp [fails] at member
  | deletes mid fails => simp [fails] at member
  | merges mid count flushes taken direct owed =>
      obtain ⟨pollout, ret, merged, _⟩ :=
        merge_cases true limit mid (0 < c.cb.sendlen : Bool) data count
      have same : mid.cb.sendlen + (data.length - count) = left :=
        Option.some.inj (owed.symm.trans member)
      have low := flushes.sendlen.2
      rw [merged]
      refine ⟨by simp, by simp, ?_⟩
      simp only
      rw [mergedBuffer_sendlen (by omega)]
      omega

private theorem step_sends {fd : Int} {data : List UInt8} {kernel : Kernel}
    (sends : action.sends true s = some (fd, data, kernel)) :
    s.Live fd ∧ step true limit s action =
      s.settle fd ((s.conn fd).netSend true limit data kernel) := by
  unfold Action.sends at sends
  split at sends
  · cases sends
  rename_i running
  unfold step
  rw [if_neg running]
  cases action with
  | block message kernel =>
      simp only at sends
      split at sends
      · rename_i passes
        obtain ⟨_, reaches, notFin⟩ := passes
        have live : s.Live (i32 message.mb.fd.toNat) := reaches.2.2.2.1
        have same := Option.some.inj sends
        simp only [Prod.mk.injEq] at same
        obtain ⟨rfl, rfl, rfl⟩ := same
        refine ⟨live, ?_⟩
        simp only [if_true, State.scheduleOutput]
        rw [if_pos reaches, if_neg notFin]
      · cases sends
  | send other data kernel =>
      simp only at sends
      split at sends
      · rename_i live
        cases sends
        exact ⟨live, if_pos live⟩
      · cases sends
  | accept | pollout | lastWrite | delete => cases sends

private theorem settle_live {fd : Int} {result : Conn × Verdict} (live : s.Live fd)
    (kept : result.2 ≠ .deleted) : (s.settle fd result).Live fd := by
  obtain ⟨c, verdict⟩ := result
  cases verdict with
  | deleted => exact absurd rfl kept
  | kept | aborted =>
      simp only [State.settle, State.setConn, State.Live, Epi.modify_same]
      exact live

private theorem staysBounded_iff (positive : 0 < limit.toNat) (short : action.Short s)
    (within : ∀ fd, s.Live fd → (s.conn fd).WithinLimit limit) :
    StaysBounded limit s action ↔ action.WithinLimit limit s := by
  constructor
  · rintro ⟨bounded, _⟩ ⟨fd, data, kernel⟩ sends exceeding
    obtain ⟨live, same⟩ := step_sends sends
    obtain ⟨kept, _, exceeds⟩ :=
      netSend_exceeds (netSend_sends true limit (s.conn fd) data kernel) (short _ sends) exceeding
    have after := bounded fd (same ▸ settle_live live kept)
    rw [same, settle_conn fd _ kept] at after
    omega
  · intro fits
    refine ⟨step_keeps (fun _ => Nat.zero_le _) ?_ within, fun sent sends exceeding =>
      absurd exceeding (fits sent sends)⟩
    intro fd result acts kept _ before
    cases acts with
    | send data kernel sends =>
        exact netSend_within positive (netSend_sends true limit _ data kernel) kept
          (fits _ sends) before
    | pollout results now =>
        exact handlePollout_keeps before ((doWriteConn_sendlen _ results now).trans before)
          fun c _ within => within
    | lastWrite results now => exact (doWriteConn_sendlen _ results now).trans before

end Bounded

/-- With a send buffer limit, in every run of the parent: each step keeps every live
connection within the limit, an exceeding call changing nothing or removing its
connection, if and only if no call of `net_send` exceeds the limit. -/
theorem send_limit_holds_iff (limit : UInt32) (positive : 0 < limit.toNat)
    (actions : List Action)
    (short : Along (step true limit) (fun s action => action.Short s) init actions) :
    Along (step true limit) (StaysBounded limit) init actions ↔
      Along (step true limit) (fun s action => action.WithinLimit limit s) init actions := by
  refine along_congr (fun s : State => ∀ fd, s.Live fd → (s.conn fd).cb.sendlen ≤ limit.toNat)
    ?_ ?_ ?_ short
  · exact fun s action _ _ bounded => bounded.1
  · exact fun s action short within => staysBounded_iff positive short within
  · intro fd live
    simp [init, State.Live, netInit, FdInfo.zero] at live

instance (s : State) (action : Action) : Decidable (action.Short s) :=
  inferInstanceAs (Decidable (∀ sent ∈ action.sends true s, _))

theorem send_limit_holds_iff_partly :
    let actions : List Action :=
      [.accept 5 (80, 1) (some 0), .block fiveBytes ⟨[], [.sent 3, .eagain], 0⟩,
        .block fiveBytes ⟨[.sent 2], [.sent 4, .eagain], 0⟩, .pollout 5 [.sent 1] 1]
    Along (step true 3) (StaysBounded 3) init actions ↔
      Along (step true 3) (fun s action => action.WithinLimit 3 s) init actions :=
  send_limit_holds_iff 3 (by decide) _ (by decide +kernel)

/-- Two blocks of five bytes that the kernel does not take, with a limit of three: the
first leaves five bytes pending on a live connection, the second ten. -/
theorem over_limit_output_kept :
    let actions : List Action :=
      [.accept 5 (80, 1) (some 0), .block fiveBytes ⟨[], [.eagain], 0⟩,
        .block fiveBytes ⟨[.eagain], [], 0⟩]
    (Along (step true 3) (fun s action => action.Short s) init actions ∧
      (run (step true 3) init actions).Live 5 ∧
      ((run (step true 3) init actions).conn 5).cb.sendlen = 10) ∧
      ¬ Along (step true 3) (StaysBounded 3) init actions := by
  refine ⟨by decide +kernel, ?_⟩
  rintro ⟨_, ⟨bounded, _⟩, _⟩
  exact absurd (bounded 5 (by decide +kernel)) (by decide +kernel)

end MpNet.Net.Output
