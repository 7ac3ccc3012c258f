import MpNet.Library.Framing
import MpNet.Net.ReceiveProperties

/-!
# Framing does not depend on how the stream is cut

A worker's `net_recv` called again and again on one connection computes the
reference parse of the bytes received so far, wherever the reads are cut.
-/

set_option autoImplicit false

namespace MpNet.Net

open Library

/-- A plugin that parses with a framer and takes every packet. -/
def framed (framer : Framer UInt8) : Receiver (List (List UInt8)) where
  getPkgLen := framer.lengthOf
  deliver := fun delivered packet => (delivered ++ [packet], .taken)

/-- `get_pkg_len` returns an `int`. -/
def IsInt (framer : Framer UInt8) : Prop :=
  ∀ shown, -2147483648 ≤ framer.lengthOf shown ∧ framer.lengthOf shown < 2147483648

def Cached (framer : Framer UInt8) (cb : ConnBuf) (shown : List UInt8) : Prop :=
  cb.rcvprotlen = 0 ∨ (cb.rcvprotlen : Int) = framer.lengthOf shown

variable {World : Type*} {receiver : Receiver World} {framer : Framer UInt8} {sizes : Sizes}

inductive Takes (receiver : Receiver World) : World → List (List UInt8) → World → Prop where
  | nil (world : World) : Takes receiver world [] world
  | cons {world middle after : World} {packet : List UInt8} {packets : List (List UInt8)}
      (delivers : receiver.deliver world packet = (middle, .taken))
      (rest : Takes receiver middle packets after) :
      Takes receiver world (packet :: packets) after

inductive Delivery.Stops : Delivery → Stop → Prop where
  | closed (cnt : Int) : Stops .closed (.closed cnt)
  | refused : Stops .refused .failed
  | exited : Stops .exited .exited

/-- The outcome of the packet loop: packets of the reference parse are taken, up to one that
is not or to the end that the parse comes to. -/
def Cut (framer : Framer UInt8) (receiver : Receiver World) (max : Nat) (memory : Memory)
    (shown : List UInt8) (before : World) (result : ConnBuf × World × Stop) : Prop :=
  ∃ packets middle, Takes receiver before packets middle ∧
    ((∃ packet rest delivery, framer.Consumes max shown (packets ++ [packet]) rest ∧
        receiver.deliver middle packet = (result.2.1, delivery) ∧ delivery.Stops result.2.2) ∨
      result.2.1 = middle ∧
        match result.2.2 with
        | .through tmp cnt =>
            let rest := memory.read tmp result.1.recvlen
            0 ≤ cnt ∧ framer.Consumes max shown packets rest ∧ framer.Waiting max rest ∧
              Cached framer result.1 rest
        | .closed _ => False
        | .failed => framer.Ends max shown packets .malformed
        | .exited => framer.Ends max shown packets .stuck)

theorem Cut.through {memory : Memory} {before : World} {max tmp : Nat} {cnt : Int}
    {cb : ConnBuf} {shown : List UInt8} (shows : memory.read tmp cb.recvlen = shown)
    (counted : 0 ≤ cnt) (waiting : framer.Waiting max shown) (cached : Cached framer cb shown) :
    Cut framer receiver max memory shown before (cb, before, .through tmp cnt) := by
  subst shows
  exact ⟨[], before, .nil before, .inr ⟨rfl, counted, framer.consumes_refl max _, waiting, cached⟩⟩

theorem Cut.cons {memory : Memory} {shown rest packet : List UInt8} {before middle : World}
    {result : ConnBuf × World × Stop} {max : Nat}
    (first : framer.Consumes max shown [packet] rest)
    (delivers : receiver.deliver before packet = (middle, .taken))
    (cut : Cut framer receiver max memory rest middle result) :
    Cut framer receiver max memory shown before result := by
  obtain ⟨packets, last, takes, ending⟩ := cut
  refine ⟨packet :: packets, last, .cons delivers takes, ?_⟩
  rcases ending with ⟨refused, rest, delivery, consumes, stops⟩ | ⟨same, ending⟩
  · exact .inl ⟨refused, rest, delivery, first.trans consumes, stops⟩
  · refine .inr ⟨same, ?_⟩
    cases stop : result.2.2 with
    | through tmp cnt =>
        simp only [stop] at ending ⊢
        exact ⟨ending.1, first.trans ending.2.1, ending.2.2⟩
    | closed cnt => simp only [stop] at ending
    | failed =>
        simp only [stop] at ending ⊢
        exact first.ends ending
    | exited =>
        simp only [stop] at ending ⊢
        exact first.ends ending

private theorem packetLength_eq {memory : Memory} {cb : ConnBuf} {tmp : Nat}
    (asks : receiver.getPkgLen = framer.lengthOf) (isInt : IsInt framer)
    (cached : Cached framer cb (memory.read tmp cb.recvlen)) :
    packetLength receiver memory cb tmp =
      (u32 (framer.lengthOf (memory.read tmp cb.recvlen))).toNat := by
  have range := isInt (memory.read tmp cb.recvlen)
  unfold packetLength
  split
  · rw [asks]
  · rename_i known
    have same := cached.resolve_left known
    rw [u32_of_range (by omega) (by omega)]
    omega

/-- The unsigned length is above `max` exactly when the signed one is out of bounds. -/
theorem length_cases {max : Nat} (small : max < 2147483648) (isInt : IsInt framer)
    (shown : List UInt8) :
    let length := framer.lengthOf shown
    ((length < 0 ∨ max < length) ∧ max < (u32 length).toNat) ∨
      (0 ≤ length ∧ length ≤ max ∧ ((u32 length).toNat : Int) = length) := by
  intro length
  have range : -2147483648 ≤ length ∧ length < 2147483648 := isInt shown
  unfold u32
  omega

private theorem consumes_read {memory : Memory} {cb : ConnBuf} {tmp length : Nat}
    (asks : receiver.getPkgLen = framer.lengthOf) (small : sizes.max < 2147483648)
    (isInt : IsInt framer) (cached : Cached framer cb (memory.read tmp cb.recvlen))
    (known : packetLength receiver memory cb tmp = length) (positive : 0 < length)
    (bounded : cb.recvlen ≤ sizes.max) (whole : length ≤ cb.recvlen) :
    framer.Consumes sizes.max (memory.read tmp cb.recvlen) [memory.read tmp length]
      (memory.read (tmp + length) (cb.recvlen - length)) := by
  rw [packetLength_eq asks isInt cached] at known
  have same := length_cases small isInt (memory.read tmp cb.recvlen)
  have exact : framer.lengthOf (memory.read tmp cb.recvlen) = length := by omega
  have count : (framer.lengthOf (memory.read tmp cb.recvlen)).toNat = length := by omega
  have first : framer.Consumes sizes.max (memory.read tmp cb.recvlen) [_] _ :=
    Framer.consumes_packet (by rwa [Memory.read_length]) (by omega)
      (by rw [exact, Memory.read_length]; omega)
  rwa [count, Memory.read_take whole, Memory.read_drop] at first

private theorem Parses.cuts {memory : Memory} {cb : ConnBuf} {tmp : Nat} {cnt : Int}
    {before : World}
    {result : ConnBuf × World × Stop}
    (parses : Parses sizes receiver memory cb tmp cnt before result)
    (asks : receiver.getPkgLen = framer.lengthOf) (small : sizes.max < 2147483648)
    (isInt : IsInt framer) (counted : 0 ≤ cnt) (bounded : cb.recvlen ≤ sizes.max)
    (cached : Cached framer cb (memory.read tmp cb.recvlen)) :
    Cut framer receiver sizes.max memory (memory.read tmp cb.recvlen) before result := by
  induction parses with
  | @long cb tmp cnt before length known above =>
      rw [packetLength_eq asks isInt cached] at known
      have length := length_cases small isInt (memory.read tmp cb.recvlen)
      refine ⟨[], before, .nil before, .inr ⟨rfl, fun _ => Framer.parse_malformed ?_ (by omega)⟩⟩
      rwa [Memory.read_length]
  | @big cb tmp cnt before unknown full =>
      rw [packetLength_eq asks isInt cached] at unknown
      have length := length_cases small isInt (memory.read tmp cb.recvlen)
      refine ⟨[], before, .nil before, .inr ⟨rfl, fun _ => Framer.parse_stuck ?_ (by omega)⟩⟩
      rwa [Memory.read_length]
  | @unknown cb tmp cnt before unknown room =>
      rw [packetLength_eq asks isInt cached] at unknown
      have length := length_cases small isInt (memory.read tmp cb.recvlen)
      refine .through rfl counted ⟨?_, .inl (by omega)⟩ (.inl rfl)
      rw [Memory.read_length]
      omega
  | @partly cb tmp cnt before length known fits missing =>
      rw [packetLength_eq asks isInt cached] at known
      have same := length_cases small isInt (memory.read tmp cb.recvlen)
      refine .through rfl counted ⟨?_, .inr ?_⟩ (.inr ?_)
      · rw [Memory.read_length]
        omega
      · rw [Memory.read_length]
        omega
      · simp only
        omega
  | @ended cb tmp cnt before after length delivery stop known positive fits whole delivers ends =>
      have first := consumes_read asks small isInt cached known positive bounded whole
      refine ⟨[], before, .nil before, .inl ⟨_, _, delivery, first, delivers, ?_⟩⟩
      rcases ends with ⟨rfl, rfl⟩ | ⟨rfl, rfl⟩ | ⟨rfl, rfl⟩
      · exact .closed cnt
      · exact .refused
      · exact .exited
  | @last cb tmp cnt before after known positive fits delivers =>
      have first := consumes_read asks small isInt cached known positive bounded le_rfl
      rw [Nat.sub_self, Memory.read_zero] at first
      refine .cons first delivers (.through (Memory.read_zero ..) (by omega)
        ⟨?_, .inl framer.empty⟩ (.inl rfl))
      simp only [List.length_nil]
      omega
  | @next cb tmp cnt before after length result known positive fits more delivers rest ih =>
      refine .cons (consumes_read asks small isInt cached known positive bounded more.le) delivers ?_
      rw [← Nat.cast_add]
      exact ih (by omega) (by simp only; omega) (.inl rfl)

/-! ## One call of `net_recv` -/

def RecvResult.Within (room : Nat) : RecvResult → Prop
  | .bytes chunk => chunk ≠ [] ∧ chunk.length ≤ room
  | .closed => False
  | .error => True

instance (room : Nat) : (result : RecvResult) → Decidable (result.Within room)
  | .bytes _ => inferInstanceAs (Decidable (_ ∧ _))
  | .closed => .isFalse id
  | .error => .isTrue trivial

/-- The connection waits with the unparsed bytes `rest` in its buffer. -/
structure Buffered (framer : Framer UInt8) (sizes : Sizes) (slot : FdInfo) (rest : List UInt8) :
    Prop where
  content : slot.cb.content = rest
  recvlen : slot.cb.recvlen = rest.length
  waiting : framer.Waiting sizes.max rest
  cached : Cached framer slot.cb rest
  notPipe : slot.type ≠ .pipe

theorem Cached.append {cb : ConnBuf} {shown : List UInt8} (cached : Cached framer cb shown)
    (more : List UInt8) : Cached framer cb (shown ++ more) := by
  by_cases unknown : cb.rcvprotlen = 0
  · exact .inl unknown
  · have same := cached.resolve_left unknown
    refine .inr (same.trans (framer.stable shown more ?_).symm)
    omega

theorem doAddConn_buffered (positive : 0 < sizes.max) (e : Epi) (fd : Int)
    (peer : Option (UInt16 × UInt32)) (bcElem : Option Nat) :
    Buffered framer sizes ((e.doAddConn fd .remote peer bcElem).fds fd) [] where
  content := by simp [Epi.doAddConn, FdInfo.zero, ConnBuf.zero, ConnBuf.content]
  recvlen := by simp [Epi.doAddConn, FdInfo.zero, ConnBuf.zero]
  waiting := ⟨positive, .inl framer.empty⟩
  cached := .inl (by simp [Epi.doAddConn, FdInfo.zero, ConnBuf.zero])
  notPipe := by simp [Epi.doAddConn]

theorem Buffered.readable {slot : FdInfo} {rest : List UInt8}
    (buffered : Buffered framer sizes slot rest) : Readable sizes.max slot where
  notPipe := buffered.notPipe
  room := by rw [buffered.content]; exact buffered.waiting.1

theorem Buffered.kept {slot : FdInfo} {rest : List UInt8} {cb : ConnBuf}
    (buffered : Buffered framer sizes slot rest) (same : cb.rcvprotlen = slot.cb.cached) :
    Cached framer cb rest := by
  unfold Cached
  rw [same, ConnBuf.cached]
  split
  · exact .inl rfl
  · exact buffered.cached

theorem RecvResult.Within.possible {room : Nat} {result : RecvResult}
    (within : result.Within room) : result.Possible room ∧ result ≠ .closed := by
  cases result with
  | bytes chunk => exact ⟨within, by simp⟩
  | closed => exact within.elim
  | error => exact ⟨trivial, by simp⟩

private theorem compact_content {cb : ConnBuf} {memory : Memory} (tmp : Nat)
    (mapped : cb.recvptr = some memory) :
    ∃ memory', (compact cb tmp).recvptr = some memory' ∧
      memory'.read 0 cb.recvlen = memory.read tmp cb.recvlen ∧
      (compact cb tmp).recvlen = cb.recvlen ∧ (compact cb tmp).rcvprotlen = cb.rcvprotlen := by
  unfold compact
  split
  · refine ⟨memory.write 0 (memory.read tmp cb.recvlen), by rw [mapped]; rfl, ?_, rfl, rfl⟩
    have moved := Memory.holds_write memory 0 (memory.read tmp cb.recvlen)
    rwa [Memory.Holds, Memory.read_length] at moved
  · rename_i still
    refine ⟨memory, mapped, ?_, rfl, rfl⟩
    by_cases start : tmp = 0
    · rw [start]
      rfl
    · have none : cb.recvlen = 0 := by
        by_contra some
        exact still ⟨start, some⟩
      rw [none]
      rfl

inductive Delivery.Returns : Delivery → Outcome → Prop where
  | closed (cnt : Int) : Returns .closed (.ret cnt)
  | refused : Returns .refused (.ret (-1))
  | exited : Returns .exited .exited

/-- What a call of `net_recv` comes to when its buffer showed `shown`. -/
def Received (framer : Framer UInt8) (receiver : Receiver World) (sizes : Sizes) (slot : FdInfo)
    (fd : Int) (shown : List UInt8) (before : World) (result : Epi × World × Outcome) : Prop :=
  ∃ packets middle, Takes receiver before packets middle ∧
    ((∃ packet rest delivery, framer.Consumes sizes.max shown (packets ++ [packet]) rest ∧
        receiver.deliver middle packet = (result.2.1, delivery) ∧ delivery.Returns result.2.2) ∨
      result.2.1 = middle ∧
        match result.2.2 with
        | .ret cnt =>
            (0 ≤ cnt ∧ ∃ rest, framer.Consumes sizes.max shown packets rest ∧
              Buffered framer sizes (result.1.fds fd) rest ∧
              (result.1.fds fd).id = slot.id) ∨
            (cnt = -1 ∧ framer.Ends sizes.max shown packets .malformed)
        | .exited => framer.Ends sizes.max shown packets .stuck)

theorem netRecv_received {e : Epi} {fd : Int} {rest : List UInt8} {result : RecvResult}
    (asks : receiver.getPkgLen = framer.lengthOf)
    (sized : sizes.max ≤ sizes.pageSize) (small : sizes.max < 2147483648)
    (isInt : IsInt framer) (buffered : Buffered framer sizes (e.fds fd) rest)
    (within : result.Within (sizes.max - rest.length)) (now : UInt32) (before : World) :
    Received framer receiver sizes (e.fds fd) fd (rest ++ result.chunk) before
      (netRecv sizes receiver e fd result now before) := by
  obtain ⟨possible, alive⟩ := within.possible
  rw [← buffered.content] at possible
  obtain ⟨cb, sk, memory, filled, reads⟩ :=
    netRecv_cases receiver sized buffered.readable result now before
  obtain ⟨_, after, parses, reads⟩ := reads.resolve_left fun closed => alive closed.1
  have bounded := filled.bounded buffered.readable possible
  rw [buffered.content] at filled
  have cached : Cached framer cb (rest ++ result.chunk) := (buffered.kept filled.cached).append _
  rw [← filled.content] at cached
  have cut := parses.cuts asks small isInt le_rfl bounded cached
  rw [Nat.cast_zero, filled.content] at cut
  have mapped := parses.recvptr
  rw [reads]
  obtain ⟨cb', world, stop⟩ := after
  obtain ⟨packets, middle, takes, ending⟩ := cut
  refine ⟨packets, middle, takes, ?_⟩
  rcases ending with ⟨packet, left, delivery, consumes, delivers, stops⟩ | ⟨same, ending⟩
  · refine .inl ⟨packet, left, delivery, consumes, ?_⟩
    cases stops with
    | closed cnt => exact ⟨delivers, .closed cnt⟩
    | refused => exact ⟨delivers, .refused⟩
    | exited => exact ⟨delivers, .exited⟩
  · right
    cases stop with
    | through tmp cnt =>
        obtain ⟨counted, consumes, waiting, cached⟩ := ending
        obtain ⟨memory', moved, content, recvlen, rcvprotlen⟩ :=
          compact_content tmp (mapped.trans filled.mapped)
        refine ⟨same, .inl ⟨counted, _, consumes, ?_⟩⟩
        obtain ⟨needPollin, slot⟩ := queueIfFull_same sizes
          (e.modify fd ({ · with cb := cb, sk := sk })) fd
        simp only [settle, slot, Epi.modify_same, and_true]
        constructor
        · simp only [ConnBuf.content, moved, recvlen]
          exact content
        · simp only [recvlen, Memory.read_length]
        · exact waiting
        · simpa only [Cached, rcvprotlen] using cached
        · exact buffered.notPipe
    | closed => exact ending.elim
    | failed => exact ⟨same, .inr ⟨rfl, ending⟩⟩
    | exited => exact ⟨same, ending⟩

theorem Takes.framed {before after packets : List (List UInt8)}
    (takes : Takes (framed framer) before packets after) : after = before ++ packets := by
  induction takes with
  | nil => simp
  | cons delivers _ ih =>
      cases delivers
      simpa using ih

/-- What a call of `net_recv` reaches when its buffer showed `shown`. -/
def Reached (framer : Framer UInt8) (sizes : Sizes) (fd : Int) (shown : List UInt8)
    (before : List (List UInt8)) (result : Epi × List (List UInt8) × Outcome) : Prop :=
  ∃ packets, result.2.1 = before ++ packets ∧
    match result.2.2 with
    | .ret cnt =>
        (0 ≤ cnt ∧ ∃ rest, framer.Consumes sizes.max shown packets rest ∧
          Buffered framer sizes (result.1.fds fd) rest) ∨
        (cnt = -1 ∧ framer.Ends sizes.max shown packets .malformed)
    | .exited => framer.Ends sizes.max shown packets .stuck

private theorem netRecv_reached {e : Epi} {fd : Int} {rest : List UInt8} {result : RecvResult}
    (sized : sizes.max ≤ sizes.pageSize) (small : sizes.max < 2147483648)
    (isInt : IsInt framer) (buffered : Buffered framer sizes (e.fds fd) rest)
    (within : result.Within (sizes.max - rest.length)) (now : UInt32)
    (before : List (List UInt8)) :
    Reached framer sizes fd (rest ++ result.chunk) before
      (netRecv sizes (framed framer) e fd result now before) := by
  have asks : (framed framer).getPkgLen = framer.lengthOf := rfl
  obtain ⟨packets, middle, takes, ending⟩ :=
    netRecv_received asks sized small isInt buffered within now before
  generalize netRecv sizes (framed framer) e fd result now before = after at ending ⊢
  rcases ending with ⟨packet, _, delivery, _, delivers, returns⟩ | ⟨same, ending⟩
  · -- a framed receiver takes every packet
    simp only [framed, Prod.mk.injEq] at delivers
    obtain ⟨_, rfl⟩ := delivers
    cases returns
  · refine ⟨packets, same.trans takes.framed, ?_⟩
    cases outcome : after.2.2 with
    | ret cnt =>
        simp only [outcome] at ending ⊢
        rcases ending with ⟨counted, rest', consumes, kept, _⟩ | ends
        · exact .inl ⟨counted, rest', consumes, kept⟩
        · exact .inr ends
    | exited => simpa only [outcome] using ending

/-! ## A whole stream -/

/-- A worker's connection with the history of its reads. -/
structure Reading where
  epi : Epi
  delivered : List (List UInt8)
  received : List UInt8
  /-- `net_recv` has returned -1 or ended the process. -/
  ended : Option Outcome

def Reading.start (e : Epi) (fd : Int) (peer : Option (UInt16 × UInt32)) : Reading :=
  ⟨e.doAddConn fd .remote peer none, [], [], none⟩

/-- The next `recv` of the connection; -1 from `net_recv` deletes it. -/
def readStep (framer : Framer UInt8) (sizes : Sizes) (fd : Int) (s : Reading)
    (arrival : RecvResult × UInt32) : Reading :=
  let received := s.received ++ arrival.1.chunk
  match s.ended with
  | some _ => { s with received := received }
  | none =>
      let (e, delivered, outcome) :=
        netRecv sizes (framed framer) s.epi fd arrival.1 arrival.2 s.delivered
      match outcome with
      | .ret (-1) => ⟨e.release fd, delivered, received, some outcome⟩
      | .ret _ => ⟨e, delivered, received, none⟩
      | .exited => ⟨e, delivered, received, some outcome⟩

/-- A `recv` on a live connection reports at most `max - recvlen` bytes. -/
def Admissible (sizes : Sizes) (fd : Int) (s : Reading) (arrival : RecvResult × UInt32) : Prop :=
  s.ended = none → arrival.1.Within (sizes.max - (s.epi.fds fd).cb.recvlen)

instance (sizes : Sizes) (fd : Int) (s : Reading) (arrival : RecvResult × UInt32) :
    Decidable (Admissible sizes fd s arrival) :=
  inferInstanceAs (Decidable (s.ended = none → _))

def stream (arrivals : List (RecvResult × UInt32)) : List UInt8 :=
  arrivals.flatMap fun arrival => arrival.1.chunk

def EndsAs (fd : Int) (s : Reading) : Ending UInt8 → Prop
  | .leftover rest => s.ended = none ∧ (s.epi.fds fd).cb.recvlen = rest.length ∧
      (s.epi.fds fd).cb.content = rest
  | .malformed => s.ended = some (.ret (-1))
  | .stuck => s.ended = some .exited

/-- The packets delivered so far and the buffer are the parse of the bytes received so far. -/
def ReadingInv (framer : Framer UInt8) (sizes : Sizes) (fd : Int) (s : Reading) : Prop :=
  match s.ended with
  | none => ∃ rest, framer.Consumes sizes.max s.received s.delivered rest ∧
      Buffered framer sizes (s.epi.fds fd) rest
  | some (.ret cnt) => cnt = -1 ∧ framer.Ends sizes.max s.received s.delivered .malformed
  | some .exited => framer.Ends sizes.max s.received s.delivered .stuck

section Runs

variable {fd : Int} {s : Reading}

theorem start_inv (positive : 0 < sizes.max) (e : Epi) (fd : Int)
    (peer : Option (UInt16 × UInt32)) :
    ReadingInv framer sizes fd (.start e fd peer) :=
  ⟨[], framer.consumes_refl sizes.max _, doAddConn_buffered positive e fd peer none⟩

private theorem readStep_inv (sized : sizes.max ≤ sizes.pageSize) (small : sizes.max < 2147483648)
    (isInt : IsInt framer) (arrival : RecvResult × UInt32)
    (admissible : Admissible sizes fd s arrival) (inv : ReadingInv framer sizes fd s) :
    ReadingInv framer sizes fd (readStep framer sizes fd s arrival) := by
  unfold ReadingInv at inv
  unfold readStep
  cases ended : s.ended with
  | some outcome =>
      simp only [ended] at inv
      cases outcome with
      | ret cnt =>
          simp only [ReadingInv]
          exact ⟨inv.1, inv.2.append _⟩
      | exited =>
          simp only [ReadingInv]
          exact inv.append _
  | none =>
      simp only [ended] at inv
      obtain ⟨rest, consumes, buffered⟩ := inv
      have within := admissible ended
      rw [buffered.recvlen] at within
      have reached := netRecv_reached sized small isInt buffered within arrival.2 s.delivered
      have more := consumes.append arrival.1.chunk
      simp only
      generalize netRecv sizes (framed framer) s.epi fd arrival.1 arrival.2 s.delivered = result
        at reached ⊢
      obtain ⟨e, delivered, outcome⟩ := result
      obtain ⟨packets, log, ending⟩ := reached
      simp only at log ending
      subst log
      cases outcome with
      | ret cnt =>
          rcases ending with ⟨counted, rest', next, kept⟩ | ⟨rfl, next⟩
          · have alive : cnt ≠ -1 := by omega
            simp only [ReadingInv]
            exact ⟨rest', more.trans next, kept⟩
          · exact ⟨rfl, more.ends next⟩
      | exited => exact more.ends ending

private theorem readStep_received (arrival : RecvResult × UInt32) :
    (readStep framer sizes fd s arrival).received = s.received ++ arrival.1.chunk := by
  unfold readStep
  cases s.ended with
  | some => rfl
  | none =>
      simp only
      split <;> rfl

theorem run_received (arrivals : List (RecvResult × UInt32)) :
    (run (readStep framer sizes fd) s arrivals).received = s.received ++ stream arrivals := by
  induction arrivals generalizing s with
  | nil => simp [stream]
  | cons arrival rest ih => simp [ih, readStep_received, stream]

theorem ReadingInv.parsed (inv : ReadingInv framer sizes fd s) :
    s.delivered = (framer.parse sizes.max s.received).1 ∧
      EndsAs fd s (framer.parse sizes.max s.received).2 := by
  unfold ReadingInv at inv
  split at inv
  · rename_i ended
    obtain ⟨rest, consumes, buffered⟩ := inv
    have whole := consumes []
    simp only [List.append_nil, buffered.waiting.parse] at whole
    rw [whole]
    exact ⟨rfl, ended, buffered.recvlen, buffered.content⟩
  · rename_i cnt ended
    obtain ⟨rfl, ends⟩ := inv
    have whole := ends []
    rw [List.append_nil] at whole
    rw [whole]
    exact ⟨rfl, ended⟩
  · rename_i ended
    have whole := inv []
    rw [List.append_nil] at whole
    rw [whole]
    exact ⟨rfl, ended⟩

private theorem run_parsed (sized : sizes.max ≤ sizes.pageSize) (small : sizes.max < 2147483648)
    (isInt : IsInt framer) (positive : 0 < sizes.max) (e : Epi) (fd : Int)
    (peer : Option (UInt16 × UInt32)) (arrivals : List (RecvResult × UInt32))
    (admissible : Along (readStep framer sizes fd) (Admissible sizes fd) (.start e fd peer)
      arrivals) :
    let s := run (readStep framer sizes fd) (.start e fd peer) arrivals
    s.delivered = (framer.parse sizes.max (stream arrivals)).1 ∧
      EndsAs fd s (framer.parse sizes.max (stream arrivals)).2 := by
  intro s
  have inv : ReadingInv framer sizes fd s :=
    run_preserves_along (ReadingInv framer sizes fd)
      (fun _ arrival => readStep_inv sized small isInt arrival) (start_inv positive e fd peer)
      admissible
  have received : s.received = stream arrivals := run_received arrivals
  exact received ▸ inv.parsed

end Runs

/-! ## Main results -/

/-- Two ways of cutting one stream into reads, on a connection just registered,
deliver the packets of the reference parse and end as it does. -/
theorem netRecv_cut_independent (framer : Framer UInt8) (isInt : IsInt framer) (sizes : Sizes)
    (positive : 0 < sizes.max) (sized : sizes.max ≤ sizes.pageSize)
    (small : sizes.max < 2147483648) (e : Epi) (fd : Int) (peer : Option (UInt16 × UInt32))
    (first second : List (RecvResult × UInt32))
    (firstCut : Along (readStep framer sizes fd) (Admissible sizes fd) (.start e fd peer) first)
    (secondCut : Along (readStep framer sizes fd) (Admissible sizes fd) (.start e fd peer) second)
    (same : stream first = stream second) :
    let s := run (readStep framer sizes fd) (.start e fd peer) first
    let s' := run (readStep framer sizes fd) (.start e fd peer) second
    let reference := framer.parse sizes.max (stream first)
    s.delivered = reference.1 ∧ s'.delivered = reference.1 ∧
      EndsAs fd s reference.2 ∧ EndsAs fd s' reference.2 := by
  intro s s' reference
  have left := run_parsed sized small isInt positive e fd peer first firstCut
  have right := run_parsed sized small isInt positive e fd peer second secondCut
  rw [← same] at right
  exact ⟨left.1, right.1, left.2, right.2⟩

def pairs : Framer UInt8 where
  lengthOf := fun shown => if shown.isEmpty then 0 else 2
  empty := rfl
  stable := by
    intro shown more known
    cases shown <;> simp_all

/-- Three bytes read at once, and byte by byte with a read that would block. -/
theorem netRecv_cut_independent_pairs :
    let s := run (readStep pairs ⟨4, 4⟩ 5) (.start netInit 5 none) [(.bytes [1, 2, 3], 0)]
    let s' := run (readStep pairs ⟨4, 4⟩ 5) (.start netInit 5 none)
      [(.bytes [1], 0), (.error, 0), (.bytes [2], 1), (.bytes [3], 1)]
    s.delivered = (pairs.parse 4 [1, 2, 3]).1 ∧ s'.delivered = (pairs.parse 4 [1, 2, 3]).1 ∧
      EndsAs 5 s (pairs.parse 4 [1, 2, 3]).2 ∧ EndsAs 5 s' (pairs.parse 4 [1, 2, 3]).2 :=
  netRecv_cut_independent pairs (by intro shown; simp only [pairs]; split <;> decide) ⟨4, 4⟩
    (by decide) (by decide) (by decide) netInit 5 none _ _ (by decide +kernel) (by decide +kernel)
    rfl

end MpNet.Net
