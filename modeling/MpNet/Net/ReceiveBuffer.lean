import MpNet.Net.ReceiveProperties

/-!
# Where `net_recv` reads and writes in its buffer

The packet loop one round at a time, with the ranges that a round hands out, and
the `memcpy` at the end of a call.
-/

set_option autoImplicit false

namespace MpNet.Net

open Library

/-- The variables of the loop of `net_recv` at `parse_again`. -/
structure Loop (World : Type*) where
  cb : ConnBuf
  tmp : Nat
  cnt : Int
  world : World

section Rounds

variable {World : Type*} (sizes : Sizes) (receiver : Receiver World) (memory : Memory)

/-- One round from `parse_again`: the variables of the next one, or how the loop ends. -/
def parseRound (s : Loop World) : Loop World ⊕ ConnBuf × World × Stop :=
  let rcvprotlen := packetLength receiver memory s.cb s.tmp
  let cb' := { s.cb with rcvprotlen := rcvprotlen }
  if sizes.max < rcvprotlen then .inr (cb', s.world, .failed)
  else if rcvprotlen = 0 then
    if s.cb.recvlen = sizes.max then .inr (cb', s.world, .exited)
    else .inr (cb', s.world, .through s.tmp s.cnt)
  else if rcvprotlen ≤ s.cb.recvlen then
    match receiver.deliver s.world (memory.read s.tmp rcvprotlen) with
    | (world, .closed) => .inr (cb', world, .closed s.cnt)
    | (world, .refused) => .inr (cb', world, .failed)
    | (world, .exited) => .inr (cb', world, .exited)
    | (world, .taken) =>
        let tmp := if s.cb.recvlen > rcvprotlen then s.tmp + rcvprotlen else s.tmp
        let cb' := { s.cb with recvlen := s.cb.recvlen - rcvprotlen, rcvprotlen := 0 }
        if cb'.recvlen > 0 then .inl ⟨cb', tmp, s.cnt + 1, world⟩
        else .inr (cb', world, .through tmp (s.cnt + 1))
  else .inr (cb', s.world, .through s.tmp s.cnt)

/-- The variables after a number of rounds, unless the loop has ended. -/
def parseRounds : Nat → Loop World → Option (Loop World)
  | 0, s => some s
  | rounds + 1, s =>
      match parseRound sizes receiver memory s with
      | .inl next => parseRounds rounds next
      | .inr _ => none

def Loop.asks (s : Loop World) : Option ByteRange :=
  if s.cb.rcvprotlen = 0 then some ⟨s.tmp, s.cb.recvlen⟩ else none

/-- What a round gives to `proc_pkg_from_serv` or `shmq_push`. -/
def Loop.hands (s : Loop World) : Option ByteRange :=
  let rcvprotlen := packetLength receiver memory s.cb s.tmp
  if rcvprotlen ≤ sizes.max ∧ rcvprotlen ≠ 0 ∧ rcvprotlen ≤ s.cb.recvlen then
    some ⟨s.tmp, rcvprotlen⟩
  else none

end Rounds

/-! ## A call -/

section Call

variable {World : Type*} (sizes : Sizes) (receiver : Receiver World)

/-- The loop as a call enters it after the read. -/
def loopStart (e : Epi) (fd : Int) (result : RecvResult) (now : UInt32) (world : World) :
    Loop World :=
  ⟨((doReadConn sizes e fd result now).1.fds fd).cb, 0, 0, world⟩

def loopMemory (e : Epi) (fd : Int) (result : RecvResult) (now : UInt32) : Memory :=
  ((doReadConn sizes e fd result now).1.fds fd).cb.recvptr.getD fun _ => 0

/-- The source of the `memcpy` to the front of the buffer, if a call comes to it. -/
def memcpySource (e : Epi) (fd : Int) (result : RecvResult) (now : UInt32) (world : World) :
    Option ByteRange :=
  if sizes.pageSize < sizes.max then none
  else if (e.fds fd).type = .pipe then none
  else if (doReadConn sizes e fd result now).2 = -1 then none
  else
    match parseAgain sizes receiver (loopMemory sizes e fd result now)
        (loopStart sizes e fd result now world).cb 0 0 world with
    | (cb, _, .through tmp _) =>
        if tmp ≠ 0 ∧ cb.recvlen ≠ 0 then some ⟨tmp, cb.recvlen⟩ else none
    | _ => none

end Call

end MpNet.Net
