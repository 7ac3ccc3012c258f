import MpNet.Net.ReceiveProperties
import MpNet.Session.EchoSockets

/-!
# A read of the echo server

The plugin takes whatever has come as one packet, so that a call of `net_recv` leaves
nothing in the receive buffer: it pushes what `recv` returned, or the connection is given up.
-/

set_option autoImplicit false

namespace MpNet.Session

open Library Net Net.Epi

/-- Nothing is left in the receive buffer. -/
structure Drained (cb : ConnBuf) : Prop where
  recvlen : cb.recvlen = 0
  rcvprotlen : cb.rcvprotlen = 0

/-- The sending half of the buffer is the same. -/
structure SameOutput (cb cb' : ConnBuf) : Prop where
  sendptr : cb'.sendptr = cb.sendptr
  sendlen : cb'.sendlen = cb.sendlen
  sndbufsz : cb'.sndbufsz = cb.sndbufsz

section Reading

variable {sizes : Sizes} {e : Epi} {fd : Int} {accepted : Bool}

private theorem mapBuffer_drained (drained : Drained (e.fds fd).cb) : ∃ memory : Memory,
    mapBuffer e fd = e.modify fd fun slot => { slot with cb := { slot.cb with recvptr := some memory } } := by
  unfold mapBuffer
  cases mapped : (e.fds fd).cb.recvptr with
  | none =>
      refine ⟨fun _ => 0, ?_⟩
      simp [Epi.modify, drained.recvlen, drained.rcvprotlen]
  | some memory =>
      have same : { (e.fds fd).cb with recvptr := some memory } = (e.fds fd).cb := by rw [← mapped]
      refine ⟨memory, ?_⟩
      rw [Option.isNone_some, if_neg Bool.false_ne_true]
      simp [Epi.modify, same]

/-- The buffer is a packet. -/
theorem parseAgain_whole (accepted : Bool) (positive : 0 < sizes.max) (small : sizes.max < 2147483648)
    {memory : Memory} {cb : ConnBuf} {shown : List UInt8} (unknown : cb.rcvprotlen = 0)
    (holds : memory.read 0 cb.recvlen = shown) (fits : shown.length ≤ sizes.max) :
    let parsed := parseAgain sizes (toWorker accepted) memory cb 0 0 []
    parsed.2.2 = .failed ∨ ∃ packets cnt, 0 ≤ cnt ∧
      parsed = ({ cb with recvlen := 0, rcvprotlen := 0 }, packets, .through 0 cnt) ∧
      (packets = [] ∧ shown = [] ∨ accepted = true ∧ packets = [shown]) := by
  have length : cb.recvlen = shown.length := by rw [← holds, Memory.read_length]
  have range : (u32 ((toWorker accepted).getPkgLen shown)).toNat = shown.length := by
    show (u32 (shown.length : Int)).toNat = shown.length
    rw [u32_of_range (by omega) (by omega)]
    omega
  have reads : memory.read ((0 : Nat) : Int) cb.recvlen = shown := holds
  unfold parseAgain
  simp only [unknown, if_true, reads, range]
  rw [if_neg (by omega)]
  by_cases empty : shown = []
  · subst empty
    have none : cb.recvlen = 0 := length
    have room : ¬ cb.recvlen = sizes.max := by omega
    simp only [List.length_nil, if_true, if_neg room]
    exact .inr ⟨[], 0, le_rfl, by rw [none], .inl ⟨rfl, trivial⟩⟩
  · have some : shown.length ≠ 0 := fun none => empty (List.length_eq_zero_iff.mp none)
    have packet : memory.read ((0 : Nat) : Int) shown.length = shown := by rw [← length]; exact holds
    simp only [if_neg some, length, le_refl, if_true, packet]
    cases accepted with
    | false => exact .inl rfl
    | true =>
        refine .inr ⟨[shown], 1, by omega, ?_, .inr ⟨rfl, rfl⟩⟩
        simp [toWorker]

/-- What a read comes to: the connection is given up, or what has come is pushed. -/
def Handed (accepted : Bool) (cb : ConnBuf) (fd : Int) (chunk : List UInt8)
    (read : Epi × List (List UInt8) × Outcome) : Prop :=
  read.2.2 = .ret (-1) ∨ ∃ cnt, read.2.2 = .ret cnt ∧ cnt ≠ -1 ∧
    (read.2.1 = [] ∧ chunk = [] ∨ accepted = true ∧ read.2.1 = [chunk]) ∧
    Drained (read.1.fds fd).cb ∧ SameOutput cb (read.1.fds fd).cb

variable {result : RecvResult} {now : UInt32}

/-- After `do_read_conn` has returned. -/
theorem netRecv_parsed (fits : sizes.max ≤ sizes.pageSize) (positive : 0 < sizes.max)
    (small : sizes.max < 2147483648) (notPipe : (e.fds fd).type ≠ .pipe) {e' : Epi}
    {memory : Memory} {status : Int} (reads : doReadConn sizes e fd result now = (e', status))
    (alive : status ≠ -1) (mapped : (e'.fds fd).cb.recvptr = some memory)
    (unknown : (e'.fds fd).cb.rcvprotlen = 0)
    (holds : memory.read 0 (e'.fds fd).cb.recvlen = result.chunk)
    (bound : result.chunk.length ≤ sizes.max) (same : SameOutput (e.fds fd).cb (e'.fds fd).cb) :
    Handed accepted (e.fds fd).cb fd result.chunk
      (netRecv sizes (toWorker accepted) e fd result now []) := by
  have loop := parseAgain_whole accepted positive small unknown holds bound
  simp only [netRecv, if_neg (Nat.not_lt.mpr fits), if_neg notPipe, reads, if_neg alive, mapped,
    Option.getD_some]
  generalize parseAgain sizes (toWorker accepted) memory (e'.fds fd).cb 0 0 [] = parsed at loop ⊢
  obtain ⟨cb, packets, stop⟩ := parsed
  rcases loop with failed | ⟨packets', cnt, counted, whole, pushed⟩
  · simp only at failed
    subst failed
    exact .inl rfl
  · cases whole
    refine .inr ⟨cnt, rfl, by omega, pushed, ?_, ?_⟩
    · simp only [Epi.modify_same]
      exact ⟨rfl, rfl⟩
    · simp only [Epi.modify_same]
      exact ⟨same.sendptr, same.sendlen, same.sndbufsz⟩

theorem netRecv_handed (accepted : Bool) (fits : sizes.max ≤ sizes.pageSize)
    (positive : 0 < sizes.max) (small : sizes.max < 2147483648)
    (remote : (e.fds fd).type = .remote) (drained : Drained (e.fds fd).cb)
    (possible : result.Possible sizes.max) (now : UInt32) :
    Handed accepted (e.fds fd).cb fd result.chunk
      (netRecv sizes (toWorker accepted) e fd result now []) := by
  obtain ⟨memory, maps⟩ := mapBuffer_drained drained
  have notPipe : (e.fds fd).type ≠ .pipe := by simp [remote]
  have empty := drained.recvlen
  have unknown := drained.rcvprotlen
  have room : ¬ sizes.pageSize = 0 := by omega
  cases result with
  | closed =>
      left
      simp only [netRecv, if_neg (Nat.not_lt.mpr fits), if_neg notPipe, doReadConn, maps,
        Epi.modify_same, empty, if_neg room, if_true]
  | error =>
      have reads : doReadConn sizes e fd .error now = (queueIfFull sizes (e.modify fd fun slot =>
          { slot with cb := { slot.cb with recvptr := some memory } }) fd, 0) := by
        simp only [doReadConn, maps, Epi.modify_same, empty, if_neg room]
      obtain ⟨needPollin, slot⟩ := queueIfFull_same sizes (e.modify fd fun slot =>
        { slot with cb := { slot.cb with recvptr := some memory } }) fd
      rw [Epi.modify_same] at slot
      refine netRecv_parsed fits positive small notPipe reads (by decide)
        (by rw [slot]) (by rw [slot]; exact unknown) ?_ (Nat.zero_le _) (by rw [slot]; exact ⟨rfl, rfl, rfl⟩)
      rw [slot]
      simp only [empty]
      rfl
  | bytes chunk =>
      have reads : doReadConn sizes e fd (.bytes chunk) now =
          (queueIfFull sizes (e.modify fd fun slot =>
            { slot with
              cb := { slot.cb with recvptr := some (memory.write 0 chunk), recvlen := chunk.length }
              sk := { slot.sk with lastTm := now } }) fd, (chunk.length : Int)) := by
        simp only [doReadConn, maps, Epi.modify_same, empty, if_neg room]
        simp [Epi.modify, empty]
      obtain ⟨needPollin, slot⟩ := queueIfFull_same sizes (e.modify fd fun slot =>
        { slot with
          cb := { slot.cb with recvptr := some (memory.write 0 chunk), recvlen := chunk.length }
          sk := { slot.sk with lastTm := now } }) fd
      rw [Epi.modify_same] at slot
      refine netRecv_parsed fits positive small notPipe reads (by omega)
        (by rw [slot]) (by rw [slot]; exact unknown) ?_ possible.2 (by rw [slot]; exact ⟨rfl, rfl, rfl⟩)
      rw [slot]
      exact Memory.holds_write memory 0 chunk

end Reading

end MpNet.Session
