import MpNet.Net.OutputBufferProperties

/-!
# What a call passes on to the kernel

Each call of `net_send` and each write to a connection, whatever becomes of the connection:
the kernel has taken a part of what was passed, and the receive buffer is not touched.
-/

set_option autoImplicit false

namespace MpNet.Net.Output

open Library

/-- The receiving half of the buffer is the same. -/
structure SameInput (cb cb' : ConnBuf) : Prop where
  recvlen : cb'.recvlen = cb.recvlen
  rcvprotlen : cb'.rcvprotlen = cb.rcvprotlen

section Streams

variable {c mid : Conn} {data : List UInt8} {kernel : Kernel} {results : List SendResult}
  {now limit : UInt32} {isParent : Bool}

theorem SameInput.refl (cb : ConnBuf) : SameInput cb cb := ⟨rfl, rfl⟩

theorem SameInput.trans {cb cb' cb'' : ConnBuf} (first : SameInput cb cb')
    (second : SameInput cb' cb'') : SameInput cb cb'' :=
  ⟨second.recvlen.trans first.recvlen, second.rcvprotlen.trans first.rcvprotlen⟩

private theorem wrote_input (c : Conn) (count : Nat) (now : UInt32) :
    SameInput c.cb (c.wrote count now).cb := by
  unfold Conn.wrote
  by_cases nothing : count = 0
  · simp only [if_pos nothing]
    exact .refl _
  · simp only [if_neg nothing]
    exact ⟨rfl, rfl⟩

private theorem mergedBuffer_input (cb : ConnBuf) (data : List UInt8) (count : Nat) :
    SameInput cb (mergedBuffer cb data count) := by
  unfold mergedBuffer
  split
  · unfold mergeBuffer
    cases cb.sendptr with
    | none => exact ⟨rfl, rfl⟩
    | some memory =>
        simp only
        split <;> exact ⟨rfl, rfl⟩
  · exact .refl cb

theorem Flushes.input (flushes : Flushes c kernel mid) : SameInput c.cb mid.cb := by
  cases flushes with
  | idle => exact .refl _
  | wrote count => exact wrote_input c count kernel.now

/-- The stream depends on the buffer and the histories only. -/
theorem Flows.congr {c' : Conn} (flows : Flows c) (cb : c'.cb = c.cb)
    (accepted : c'.accepted = c.accepted) (passed : c'.passed = c.passed) : Flows c' where
  sized := by
    rw [cb]
    exact flows.sized
  mapped := by
    rw [cb]
    exact flows.mapped
  whole := by
    rw [Conn.backlog, cb, accepted, passed]
    exact flows.whole

theorem Flows.taken (flows : Flows c) : c.accepted <+: c.passed :=
  ⟨output c.cb, flows.whole⟩

/-- What a call of `net_send` that keeps the connection does. -/
theorem netSend_kept (flows : Flows c) (short : data.length < 2147483648) {ret : Int}
    (kept : (c.netSend isParent limit data kernel).2 = .kept ret) :
    let sent := (c.netSend isParent limit data kernel).1
    Flows sent ∧ sent.passed = c.passed ++ data ∧ SameInput c.cb sent.cb := by
  have sends := netSend_sends isParent limit c data kernel
  generalize c.netSend isParent limit data kernel = result at sends kept
  cases sends with
  | aborts | deletes => cases kept
  | merges mid count flushes taken direct =>
      obtain ⟨pollout, ret', merged, -⟩ :=
        merge_cases isParent limit mid (0 < c.cb.sendlen : Bool) data count
      have small := flushes.sendlen.2
      have range : mid.cb.sendlen + (data.length - count) < 4294967296 := by omega
      refine ⟨(flushes.flows flows).merge direct range isParent limit _, ?_, ?_⟩
      · have same : mid.passed = c.passed := by
          cases flushes with
          | idle => rfl
          | wrote => exact wrote_passed ..
        simp only [merged, same]
      · simp only [merged]
        exact flushes.input.trans (mergedBuffer_input mid.cb data count)

theorem doWriteConn_taken (flows : Flows c) (results : List SendResult) (now : UInt32) :
    (c.doWriteConn results now).1.accepted <+: c.passed := by
  unfold Conn.doWriteConn
  cases sent : safeTcpSendN c.cb.sendlen results with
  | wrote count =>
      have after := (flows.wrote (safeTcpSendN_wrote sent).1 now).taken
      rwa [wrote_passed] at after
  | failed count =>
      have whole : c.accepted ++ output c.cb = c.passed := flows.whole
      rw [← whole]
      exact (List.prefix_append_right_inj c.accepted).mpr (List.take_prefix count _)
  | aborted => exact flows.taken

private theorem sendDirect_taken (isParent : Bool) (limit : UInt32) (flows : Flows c)
    (prevStat : Bool)
    (data : List UInt8) (results : List SendResult) :
    (c.sendDirect isParent limit prevStat data results).1.accepted <+: c.passed ++ data := by
  have merged (count : Nat) : (c.merge isParent limit prevStat data count).1.accepted =
      c.accepted ++ data.take count := by
    obtain ⟨pollout, ret, merged, -⟩ := merge_cases isParent limit c prevStat data count
    rw [merged]
  have before : c.accepted <+: c.passed ++ data := flows.taken.trans (List.prefix_append ..)
  unfold Conn.sendDirect
  split
  · rename_i idle
    have whole : c.accepted = c.passed := by
      have nothing : output c.cb = [] := by
        rw [← List.length_eq_zero_iff, output_length flows.mapped, idle]
      have all : c.accepted ++ output c.cb = c.passed := flows.whole
      rwa [nothing, List.append_nil] at all
    have part (count : Nat) : c.accepted ++ data.take count <+: c.passed ++ data := by
      rw [whole]
      exact (List.prefix_append_right_inj c.passed).mpr (List.take_prefix count data)
    cases safeTcpSendN data.length results with
    | wrote count =>
        simp only [merged]
        exact part count
    | failed count => exact part count
    | aborted => exact before
  · rw [merged, List.take_zero, List.append_nil]
    exact before

/-- Whatever becomes of the connection, the kernel has taken a part of what was passed. -/
theorem netSend_taken (flows : Flows c) (data : List UInt8) (kernel : Kernel) :
    (c.netSend isParent limit data kernel).1.accepted <+: c.passed ++ data := by
  unfold Conn.netSend
  split
  · have written := doWriteConn_taken flows kernel.flush kernel.now
    unfold Conn.doWriteConn at written ⊢
    cases sent : safeTcpSendN c.cb.sendlen kernel.flush with
    | wrote count =>
        have kept : (count : Int) ≠ -1 := by omega
        have after := flows.wrote (safeTcpSendN_wrote sent).1 kernel.now
        simp only [if_neg kept]
        have taken := sendDirect_taken isParent limit after true data kernel.direct
        rwa [wrote_passed] at taken
    | failed count =>
        simp only [sent] at written
        exact written.trans (List.prefix_append ..)
    | aborted => exact flows.taken.trans (List.prefix_append ..)
  · exact sendDirect_taken isParent limit flows false data kernel.direct

theorem handlePollout_taken (flows : Flows c) (results : List SendResult) (now : UInt32) :
    (c.handlePollout results now).1.accepted <+: c.passed :=
  handlePollout_keeps (I := fun after => after.accepted <+: c.passed) flows.taken
    (doWriteConn_taken flows results now) fun _ _ taken => taken

/-- What the handling of `EPOLLOUT` does when it keeps the connection. -/
theorem handlePollout_kept (flows : Flows c) {ret : Int}
    (kept : (c.handlePollout results now).2 = .kept ret) :
    let written := (c.handlePollout results now).1
    Flows written ∧ written.passed = c.passed ∧ SameInput c.cb written.cb := by
  unfold Conn.handlePollout at kept ⊢
  split
  · rename_i busy
    simp only [if_pos busy] at kept
    unfold Conn.doWriteConn at kept ⊢
    cases sent : safeTcpSendN c.cb.sendlen results with
    | wrote count =>
        have alive : (count : Int) ≠ -1 := by omega
        have after := flows.wrote (safeTcpSendN_wrote sent).1 now
        simp only [if_neg alive]
        split
        · exact ⟨after.congr rfl rfl rfl, wrote_passed c count now, wrote_input c count now⟩
        · exact ⟨after, wrote_passed c count now, wrote_input c count now⟩
    | failed count =>
        rw [sent] at kept
        cases kept
    | aborted =>
        rw [sent] at kept
        cases kept
  · exact ⟨flows.congr rfl rfl rfl, rfl, .refl _⟩

end Streams

end MpNet.Net.Output
