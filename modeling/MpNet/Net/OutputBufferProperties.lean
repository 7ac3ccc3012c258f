import MpNet.Net.OutputBuffer
import MpNet.Net.OutputProperties

/-!
# The arithmetic of the output buffer

The flush of `net_send` ends the process where `2 ^ 31` bytes are pending, so no sum of
lengths wraps and the buffer is always large enough. Nothing keeps the pending bytes
below `2 ^ 31`.
-/

set_option autoImplicit false

namespace MpNet.Net.Output

open Library

private theorem i32_pos_iff {total : Nat} (range : total < 4294967296) :
    0 < i32 total ↔ 0 < total ∧ total < 2147483648 := by
  unfold i32 Int.bmod
  simp only
  rw [Int.emod_eq_of_lt (by omega) (by omega)]
  split <;> omega

section Sends

variable {isParent : Bool} {limit : UInt32} {c mid : Conn} {data : List UInt8} {kernel : Kernel}

theorem Flushes.flows (flushes : Flushes c kernel mid) (flows : Flows c) : Flows mid := by
  cases flushes with
  | idle => exact flows
  | wrote count busy sent => exact flows.wrote (safeTcpSendN_wrote sent).1 kernel.now

private theorem merging_flushes {count : Nat} (merges : c.merging data kernel = some (mid, count)) :
    Flushes c kernel mid ∧ count ≤ data.length ∧ (mid.cb.sendlen = 0 ∨ count = 0) := by
  have direct : ∀ flushed : Conn, Flushes c kernel flushed →
      flushed.sentDirect data kernel.direct = some (mid, count) →
      Flushes c kernel mid ∧ count ≤ data.length ∧ (mid.cb.sendlen = 0 ∨ count = 0) := by
    intro flushed flushes merges
    unfold Conn.sentDirect at merges
    split at merges
    · rename_i empty
      cases sent : safeTcpSendN data.length kernel.direct with
      | wrote sentBytes =>
          rw [sent] at merges
          cases merges
          exact ⟨flushes, (safeTcpSendN_wrote sent).1, .inl empty⟩
      | failed | aborted => simp [sent] at merges
    · cases merges
      exact ⟨flushes, Nat.zero_le _, .inr rfl⟩
  unfold Conn.merging at merges
  by_cases busy : 0 < c.cb.sendlen
  · simp only [busy, if_true] at merges
    unfold Conn.doWriteConn at merges
    cases sent : safeTcpSendN c.cb.sendlen kernel.flush with
    | wrote flushed =>
        have kept : (flushed : Int) ≠ -1 := by omega
        simp only [sent, if_neg kept] at merges
        exact direct _ (.wrote flushed busy sent) merges
    | failed | aborted => simp [sent] at merges
  · simp only [busy, if_false] at merges
    exact direct c (.idle (by omega)) merges

private theorem netSend_merging {count : Nat} (merges : c.merging data kernel = some (mid, count)) :
    c.netSend isParent limit data kernel =
      mid.merge isParent limit (0 < c.cb.sendlen : Bool) data count := by
  have direct : ∀ (flushed : Conn) (prevStat : Bool),
      flushed.sentDirect data kernel.direct = some (mid, count) →
      flushed.sendDirect isParent limit prevStat data kernel.direct =
        mid.merge isParent limit prevStat data count := by
    intro flushed prevStat merges
    unfold Conn.sentDirect at merges
    unfold Conn.sendDirect
    split at merges
    · rename_i empty
      rw [if_pos empty]
      cases sent : safeTcpSendN data.length kernel.direct with
      | wrote sentBytes =>
          rw [sent] at merges
          cases merges
          rfl
      | failed | aborted => simp [sent] at merges
    · rename_i busy
      rw [if_neg busy]
      cases merges
      rfl
  unfold Conn.merging at merges
  unfold Conn.netSend
  by_cases busy : 0 < c.cb.sendlen
  · simp only [busy, if_true] at merges ⊢
    cases written : c.doWriteConn kernel.flush kernel.now with
    | mk flushed verdict =>
        cases verdict with
        | kept ret =>
            simp only [written] at merges ⊢
            by_cases minus : ret = -1
            · simp [minus] at merges
            · simp only [minus, if_false, decide_true] at merges ⊢
              exact direct flushed true merges
        | deleted | aborted => simp [written] at merges
  · simp only [busy, if_false] at merges ⊢
    rw [decide_false]
    exact direct c false merges

end Sends

/-! ## The invariant of the buffer -/

/-- The buffer holds what is pending, in a 32-bit length. -/
structure Sized (c : Conn) : Prop extends Flows c where
  range : c.cb.sendlen < 4294967296

theorem Sized.pending {c : Conn} (sized : Sized c) :
    c.passed.length = c.accepted.length + c.cb.sendlen := by
  have whole : c.accepted ++ output c.cb = c.passed := sized.whole
  rw [← whole, List.length_append, output_length sized.mapped]

theorem sized_zero (sk : RemoteInfo) : Sized ⟨.zero, sk, false, [], [], false⟩ :=
  ⟨⟨le_rfl, fun _ => rfl, rfl⟩, by simp [ConnBuf.zero]⟩

section Sized

variable {isParent : Bool} {limit : UInt32} {c : Conn} {data : List UInt8} {kernel : Kernel}

theorem Flushes.sized {mid : Conn} (flushes : Flushes c kernel mid) (sized : Sized c) :
    Sized mid :=
  ⟨flushes.flows sized.toFlows, flushes.sendlen.1.trans_lt sized.range⟩

theorem netSend_sized (sized : Sized c) (short : data.length < 2147483648)
    {result : Conn × Verdict} (sends : Sends isParent limit c data kernel result)
    (kept : result.2 ≠ .deleted) : Sized result.1 := by
  cases sends with
  | aborts mid flushes fails =>
      rcases flushes with same | flushes
      · exact same ▸ sized
      · exact flushes.sized sized
  | deletes mid fails => exact absurd rfl kept
  | merges mid count flushes taken direct left =>
      have low := flushes.sendlen.2
      have fits : mid.cb.sendlen + (data.length - count) < 4294967296 := by omega
      refine ⟨(flushes.flows sized.toFlows).merge direct fits isParent limit _, ?_⟩
      obtain ⟨pollout, ret', merged, _⟩ :=
        merge_cases isParent limit mid (0 < c.cb.sendlen : Bool) data count
      have size := mergedBuffer_le mid.cb data count
      rw [merged]
      simp only
      omega

private theorem doWriteConn_sized (sized : Sized c) {results : List SendResult} {now : UInt32}
    {written : Conn} {ret : Int} (kept : ret ≠ -1)
    (writes : c.doWriteConn results now = (written, .kept ret)) : Sized written := by
  unfold Conn.doWriteConn at writes
  cases sent : safeTcpSendN c.cb.sendlen results with
  | wrote count =>
      simp only [sent, Prod.mk.injEq, Verdict.kept.injEq] at writes
      obtain ⟨rfl, _⟩ := writes
      refine ⟨sized.toFlows.wrote (safeTcpSendN_wrote sent).1 now, ?_⟩
      have range := sized.range
      rw [wrote_sendlen]
      omega
  | failed count =>
      simp only [sent, Prod.mk.injEq, Verdict.kept.injEq] at writes
      exact absurd writes.2.symm kept
  | aborted => simp [sent] at writes

private theorem step_sized {s : Writer} {call : Call}
    (short : ∀ data kernel, call = .send data kernel → data.length < 2147483648)
    (sized : s.ended = false → Sized s.conn)
    (runs : (s.step isParent limit call).ended = false) :
    Sized (s.step isParent limit call).conn := by
  unfold Writer.step at runs ⊢
  by_cases ended : s.ended = true
  · simp [ended] at runs
  have running : s.ended = false := by simpa using ended
  simp only [running, Bool.false_eq_true, if_false] at runs ⊢
  cases call with
  | send data kernel =>
      simp only at runs ⊢
      have sends := netSend_sends isParent limit s.conn data kernel
      generalize s.conn.netSend isParent limit data kernel = result at runs sends ⊢
      obtain ⟨c, verdict⟩ := result
      cases verdict with
      | kept ret =>
          exact netSend_sized (sized running) (short data kernel rfl) sends (by simp)
      | deleted | aborted => cases runs
  | write results now =>
      simp only at runs ⊢
      split at runs
      · rename_i busy
        rw [if_pos busy]
        cases writes : s.conn.doWriteConn results now with
        | mk c verdict =>
            cases verdict with
            | kept ret =>
                simp only [writes, decide_eq_false_iff_not] at runs ⊢
                exact doWriteConn_sized (sized running) runs writes
            | deleted | aborted => simp [writes] at runs
      · rename_i idle
        rw [if_neg idle]
        exact sized running

end Sized

/-! ## Safe calls -/

/-- The data is neither empty nor as long as `2 ^ 31` bytes. -/
def Call.Admissible : Call → Prop
  | .send data _ => 0 < data.length ∧ data.length < 2147483648
  | .write _ _ => True

/-- Every length is positive as an `int`, the copy stays in the buffer, and what is pending
after the call fits in it. -/
structure SafeStep (isParent : Bool) (limit : UInt32) (s : Writer) (call : Call) : Prop where
  positive : ∀ total ∈ call.totals s.conn, 0 < i32 total
  inside : ∀ target ∈ call.memcpyTarget s.conn, target.range.Inside target.size
  /-- The target is that of the copy which `net_send` makes. -/
  copies : ∀ data kernel mid count, call = .send data kernel →
    s.conn.merging data kernel = some (mid, count) →
    s.conn.netSend isParent limit data kernel =
      mid.merge isParent limit (0 < s.conn.cb.sendlen : Bool) data count
  fits : (s.step isParent limit call).ended = false →
    (s.step isParent limit call).conn.cb.sendlen ≤ (s.step isParent limit call).conn.cb.sndbufsz

section Safe

variable {isParent : Bool} {limit : UInt32} {c : Conn} {call : Call}

private theorem totals_cases {total : Nat} (member : total ∈ call.totals c) :
    total = c.cb.sendlen ∧ 0 < c.cb.sendlen ∨
      ∃ data kernel, call = .send data kernel ∧ total = data.length := by
  cases call with
  | send data kernel =>
      unfold Call.totals Conn.sendTotals at member
      simp only at member
      by_cases busy : 0 < c.cb.sendlen
      · simp only [busy, if_true] at member
        split at member
        · split at member
          · rcases List.mem_cons.mp member with same | member
            · exact .inl ⟨same, busy⟩
            · exact .inr ⟨data, kernel, rfl, List.mem_singleton.mp member⟩
          · exact .inl ⟨List.mem_singleton.mp member, busy⟩
        · exact .inl ⟨List.mem_singleton.mp member, busy⟩
      · simp only [busy, if_false] at member
        exact .inr ⟨data, kernel, rfl, List.mem_singleton.mp member⟩
  | write results now =>
      unfold Call.totals at member
      simp only at member
      split at member
      · exact .inl ⟨List.mem_singleton.mp member, ‹_›⟩
      · cases member

private theorem sendlen_mem_totals (busy : 0 < c.cb.sendlen) : c.cb.sendlen ∈ call.totals c := by
  cases call with
  | send data kernel =>
      simp only [Call.totals, Conn.sendTotals, busy, if_true]
      split
      · split <;> simp
      · simp
  | write results now => simp [Call.totals, busy]

private theorem memcpyTarget_inside (sized : Sized c) (admissible : call.Admissible)
    {target : Target}
    (copies : target ∈ call.memcpyTarget c) : target.range.Inside target.size := by
  cases call with
  | write results now => cases copies
  | send data kernel =>
      unfold Call.memcpyTarget at copies
      simp only at copies
      cases merges : c.merging data kernel with
      | none => simp [merges] at copies
      | some merging =>
          obtain ⟨mid, count⟩ := merging
          simp only [merges] at copies
          split at copies
          · cases copies
            obtain ⟨flushes, taken, direct⟩ := merging_flushes merges
            have low := flushes.sendlen.2
            have short : data.length < 2147483648 := admissible.2
            have range : mid.cb.sendlen + (data.drop count).length < 4294967296 := by
              rw [List.length_drop]
              omega
            have grows := mergeBuffer_appends (flushes.flows sized.toFlows).mapped range
            have sum := grows.2.1
            rw [List.length_drop] at sum
            exact sum.symm.le.trans grows.2.2.1
          · cases copies

private theorem safeStep_iff {s : Writer} (sized : Sized s.conn) (admissible : call.Admissible) :
    SafeStep isParent limit s call ↔ s.conn.Bounded := by
  have pending := sized.pending
  have range := sized.range
  unfold Conn.Bounded
  constructor
  · intro safe
    by_contra long
    have positive := safe.positive _ (sendlen_mem_totals (by omega))
    rw [i32_pos_iff range] at positive
    omega
  · intro bounded
    refine ⟨fun total member => ?_, fun target => memcpyTarget_inside sized admissible,
      fun _ _ _ _ _ => netSend_merging, fun runs => ?_⟩
    · rcases totals_cases member with ⟨same, busy⟩ | ⟨data, kernel, sends, same⟩
      · rw [same, i32_pos_iff range]
        omega
      · subst sends
        have length : 0 < data.length ∧ data.length < 2147483648 := admissible
        rw [same, i32_pos_iff (by omega)]
        exact length
    · refine (step_sized ?_ (fun _ => sized) runs).sized
      rintro data kernel rfl
      exact admissible.2

private theorem safeTcpSendN_eagain {total : Nat} (positive : 0 < total)
    (short : total < 2147483648) :
    safeTcpSendN total [.eagain] = .wrote 0 := by
  unfold safeTcpSendN
  rw [if_pos ⟨positive, short⟩, sendLoop, if_pos positive]

private theorem leftover_eagain (c : Conn) (data : List UInt8) (length : 0 < data.length)
    (short : data.length < 2147483648) (pending : c.cb.sendlen < 2147483648) :
    leftover c data ⟨[.eagain], [.eagain], 0⟩ = some (c.cb.sendlen + data.length) := by
  unfold leftover
  by_cases busy : 0 < c.cb.sendlen
  · simp [busy, safeTcpSendN_eagain busy pending]
  · have idle : c.cb.sendlen = 0 := by omega
    simp [idle, safeTcpSendN_eagain length short]

private theorem netSend_leftover (isParent : Bool) (limit : UInt32) {data : List UInt8}
    {kernel : Kernel} {left : Nat} (leaves : leftover c data kernel = some left)
    (range : left < 4294967296) :
    ∃ after ret, c.netSend isParent limit data kernel = (after, .kept ret) ∧
      after.cb.sendlen = left := by
  have sends := netSend_sends isParent limit c data kernel
  generalize c.netSend isParent limit data kernel = result at sends ⊢
  cases sends with
  | aborts mid flushes fails => rw [fails] at leaves; cases leaves
  | deletes mid fails => rw [fails] at leaves; cases leaves
  | merges mid count flushes taken direct owed =>
      obtain ⟨pollout, ret, merged, _⟩ :=
        merge_cases isParent limit mid (0 < c.cb.sendlen : Bool) data count
      have same : mid.cb.sendlen + (data.length - count) = left :=
        Option.some.inj (owed.symm.trans leaves)
      refine ⟨_, ret, merged, ?_⟩
      simp only
      rw [mergedBuffer_sendlen (by omega), same]

private theorem step_send {after : Conn} {data : List UInt8} {kernel : Kernel} {ret : Int}
    (sends : c.netSend isParent limit data kernel = (after, .kept ret)) :
    Writer.step isParent limit ⟨c, false⟩ (.send data kernel) = ⟨after, false⟩ := by
  simp [Writer.step, sends]

end Safe

/-- Over all calls of `net_send` and `do_write_conn` on a connection, whatever the socket
accepts: each gives `safe_tcp_send_n` positive lengths only, copies into the allocated
buffer and keeps `sendlen` within `sndbufsz`, if and only if fewer than `2 ^ 31` bytes that
were passed have not been taken whenever a call is made. -/
theorem output_buffer_safe_iff (isParent : Bool) (limit : UInt32) (sk : RemoteInfo)
    (calls : List Call) (admissible : ∀ call ∈ calls, call.Admissible) :
    Along (Writer.step isParent limit)
        (fun s call => s.ended = false → SafeStep isParent limit s call) (.start sk) calls ↔
      Along (Writer.step isParent limit) (fun s _ => s.ended = false → s.conn.Bounded)
        (.start sk) calls := by
  have all : Along (Writer.step isParent limit) (fun _ call => call.Admissible) (.start sk) calls :=
    along_of_forall _ admissible
  refine along_congr (fun s => s.ended = false → Sized s.conn) ?_ ?_ (fun _ => sized_zero sk) all
  · intro s call admissible sized _
    refine step_sized ?_ sized
    rintro data kernel rfl
    exact admissible.2
  · intro s call admissible sized
    exact imp_congr_right fun running => safeStep_iff (sized running) admissible

theorem output_buffer_safe_iff_short_writes :
    let calls : List Call :=
      [.send [1, 2, 3] ⟨[], [.sent 1, .eagain], 0⟩, .send [4, 5] ⟨[.eintr, .eagain], [], 1⟩,
        .write [.sent 3, .eagain] 2]
    Along (Writer.step true 0) (fun s call => s.ended = false → SafeStep true 0 s call)
        (.start .zero) calls ↔
      Along (Writer.step true 0) (fun s _ => s.ended = false → s.conn.Bounded) (.start .zero)
        calls := by
  refine output_buffer_safe_iff true 0 .zero _ ?_
  simp [Call.Admissible]

/-- A socket that takes nothing, and `2 ^ 31` bytes in two calls. -/
theorem output_buffer_length_negative :
    let blocked : Kernel := ⟨[.eagain], [.eagain], 0⟩
    let calls : List Call :=
      [.send (List.replicate 2147483647 0) blocked, .send [0] blocked, .write [] 0]
    (∀ call ∈ calls, call.Admissible) ∧
      ¬ Along (Writer.step true 0) (fun s call => s.ended = false → SafeStep true 0 s call)
        (.start .zero) calls := by
  have length : (List.replicate 2147483647 (0 : UInt8)).length = 2147483647 :=
    List.length_replicate
  generalize List.replicate 2147483647 (0 : UInt8) = data at length ⊢
  intro blocked calls
  constructor
  · simp [calls, Call.Admissible, length]
  · have idle : (Writer.start .zero).conn.cb.sendlen = 0 := rfl
    have stalls := leftover_eagain (Writer.start .zero).conn data (by omega) (by omega) (by omega)
    obtain ⟨first, _, sends, pending⟩ := netSend_leftover true 0 stalls (by omega)
    have fills := leftover_eagain first [0] (by decide) (by decide) (by omega)
    obtain ⟨second, _, sends', pending'⟩ := netSend_leftover true 0 fills
      (by rw [List.length_singleton]; omega)
    rw [pending, idle, length, List.length_singleton] at pending'
    have stalled : Writer.step true 0 (.start .zero) (.send data blocked) = ⟨first, false⟩ :=
      step_send sends
    have full : Writer.step true 0 ⟨first, false⟩ (.send [0] blocked) = ⟨second, false⟩ :=
      step_send sends'
    rintro ⟨_, _, third, _⟩
    rw [stalled, full] at third
    have negative := (third rfl).positive second.cb.sendlen (by simp [Call.totals, pending'])
    rw [pending'] at negative
    exact absurd negative (by decide)

end MpNet.Net.Output
