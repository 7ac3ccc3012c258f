import MpNet.Net.ReceiveBuffer

/-!
# The receive buffer over all calls

The packet loop works on a window of the received bytes that only shrinks, from the
front. Between calls the buffer has room, and what a call moves to the front may
overlap its target: `memcpy` is called where the rest of the bytes is longer than
the packets before it.
-/

set_option autoImplicit false

namespace MpNet.Net

open Library

section Rounds

variable {World : Type*} {sizes : Sizes} {receiver : Receiver World} {memory : Memory}

private theorem parseAgain_round (s : Loop World) :
    parseAgain sizes receiver memory s.cb s.tmp s.cnt s.world =
      match parseRound sizes receiver memory s with
      | .inl next => parseAgain sizes receiver memory next.cb next.tmp next.cnt next.world
      | .inr result => result := by
  rw [parseAgain]
  unfold parseRound packetLength
  simp only
  generalize (if s.cb.rcvprotlen = 0 then _ else _) = length
  split
  · rfl
  split
  · split <;> rfl
  split
  · cases receiver.deliver s.world (memory.read s.tmp length) with
    | mk world delivery =>
        cases delivery with
        | taken =>
            simp only
            by_cases more : s.cb.recvlen - length > 0
            · simp only [if_pos more]
            · simp only [if_neg more]
        | _ => rfl
  · rfl

private theorem parseAgain_rounds {rounds : Nat} {s next : Loop World}
    (runs : parseRounds sizes receiver memory rounds s = some next) :
    parseAgain sizes receiver memory s.cb s.tmp s.cnt s.world =
      parseAgain sizes receiver memory next.cb next.tmp next.cnt next.world := by
  induction rounds generalizing s with
  | zero =>
      cases runs
      rfl
  | succ rounds ih =>
      unfold parseRounds at runs
      rw [parseAgain_round]
      cases turned : parseRound sizes receiver memory s with
      | inl later =>
          simp only [turned] at runs ⊢
          exact ih runs
      | inr result => simp [turned] at runs

private theorem parseRound_next {s next : Loop World}
    (turned : parseRound sizes receiver memory s = .inl next) :
    ∃ range, s.hands sizes receiver memory = some range ∧ 0 < range.count ∧
      range.count < s.cb.recvlen ∧ next.tmp = s.tmp + range.count ∧
      next.cb.recvlen = s.cb.recvlen - range.count := by
  unfold parseRound at turned
  unfold Loop.hands
  simp only at turned ⊢
  generalize packetLength receiver memory s.cb s.tmp = length at turned ⊢
  split at turned
  · cases turned
  split at turned
  · split at turned <;> cases turned
  split at turned
  · rename_i fits known whole
    split at turned
    · cases turned
    · cases turned
    · cases turned
    · split at turned
      · rename_i more
        cases turned
        exact ⟨⟨s.tmp, length⟩, if_pos ⟨by omega, known, whole⟩, Nat.pos_of_ne_zero known,
          by simp only at more ⊢; omega, if_pos (by omega), rfl⟩
      · cases turned
  · cases turned

private theorem parseRounds_window {rounds received : Nat} {s last : Loop World}
    (runs : parseRounds sizes receiver memory rounds s = some last)
    (window : s.tmp + s.cb.recvlen = received) :
    last.tmp + last.cb.recvlen = received ∧ rounds + last.cb.recvlen ≤ s.cb.recvlen := by
  induction rounds generalizing s with
  | zero =>
      cases runs
      exact ⟨window, by omega⟩
  | succ rounds ih =>
      unfold parseRounds at runs
      cases turned : parseRound sizes receiver memory s with
      | inl next =>
          simp only [turned] at runs
          obtain ⟨range, _, positive, shorter, moved, shrunk⟩ := parseRound_next turned
          have later := ih runs (by omega)
          exact ⟨later.1, by omega⟩
      | inr result => simp [turned] at runs

/-- A round reads received bytes only, and what it takes off is there. -/
structure SafeRound (sizes : Sizes) (receiver : Receiver World) (memory : Memory)
    (received : Nat) (s : Loop World) : Prop where
  asked : ∀ range ∈ s.asks, range.Inside received
  handed : ∀ range ∈ s.hands sizes receiver memory,
    range.Inside received ∧ range.count ≤ s.cb.recvlen

private theorem safeRound_of_window {received : Nat} {s : Loop World}
    (window : s.tmp + s.cb.recvlen = received) :
    SafeRound sizes receiver memory received s where
  asked := by
    intro range asked
    unfold Loop.asks at asked
    split at asked
    · cases asked
      exact window.le
    · cases asked
  handed := by
    intro range handed
    unfold Loop.hands at handed
    simp only at handed
    split at handed
    · rename_i whole
      cases handed
      exact ⟨by unfold ByteRange.Inside; simp only; omega, whole.2.2⟩
    · cases handed

end Rounds

/-! ## Between calls -/

/-- There is room, also for the rest of the packet whose length is known. -/
structure ConnBuf.Bounded (max : Nat) (cb : ConnBuf) : Prop where
  room : cb.recvlen < max
  partly : cb.rcvprotlen = 0 ∨ cb.recvlen < cb.rcvprotlen ∧ cb.rcvprotlen ≤ max

section Call

variable {World : Type*} {sizes : Sizes} {receiver : Receiver World}

/-- What the loop leaves for the next call; a plugin that closes does so at a packet. -/
theorem Parses.leaves {memory : Memory} {cb : ConnBuf} {tmp : Nat} {cnt : Int}
    {world : World} {result : ConnBuf × World × Stop}
    (parses : Parses sizes receiver memory cb tmp cnt world result) (positive : 0 < sizes.max)
    (bounded : cb.recvlen ≤ sizes.max) :
    match result.2.2 with
    | .through _ _ => result.1.Bounded sizes.max
    | .closed _ => 0 < result.1.rcvprotlen ∧ result.1.rcvprotlen ≤ sizes.max
    | .failed | .exited => True := by
  induction parses with
  | long | big => trivial
  | unknown _ room => exact ⟨by simp only; omega, .inl rfl⟩
  | partly _ fits missing => exact ⟨by simp only; omega, .inr ⟨missing, fits⟩⟩
  | ended _ positive fits _ _ ends =>
      rcases ends with ⟨_, rfl⟩ | ⟨_, rfl⟩ | ⟨_, rfl⟩
      · exact ⟨positive, fits⟩
      · trivial
      · trivial
  | last => exact ⟨positive, .inl rfl⟩
  | next _ _ _ _ _ _ ih => exact ih (by simp only; omega)

theorem ConnBuf.Bounded.compact {max : Nat} {cb : ConnBuf} (bounded : cb.Bounded max)
    (tmp : Nat) : (compact cb tmp).Bounded max := by
  unfold Net.compact
  split
  · exact ⟨bounded.room, bounded.partly⟩
  · exact bounded

/-- A call that does not ask for the connection to be deleted leaves room in the buffer. -/
theorem netRecv_bounded {e : Epi} {fd : Int} (sized : sizes.max ≤ sizes.pageSize)
    (readable : Readable sizes.max (e.fds fd)) {result : RecvResult}
    (possible : result.Possible (sizes.max - (e.fds fd).cb.content.length)) (now : UInt32)
    (world : World) {cnt : Int}
    (returned : (netRecv sizes receiver e fd result now world).2.2 = .ret cnt)
    (kept : cnt ≠ -1) :
    ((netRecv sizes receiver e fd result now world).1.fds fd).cb.Bounded sizes.max := by
  have positive : 0 < sizes.max := by have := readable.room; omega
  obtain ⟨cb, sk, memory, filled, reads⟩ :=
    netRecv_cases receiver sized readable result now world
  rcases reads with ⟨_, reads⟩ | ⟨_, parsed, parses, reads⟩
  · rw [reads] at returned
    cases returned
    exact absurd rfl kept
  · have leaves := parses.leaves positive (filled.bounded readable possible)
    rw [reads] at returned ⊢
    obtain ⟨cb', world', stop⟩ := parsed
    cases stop with
    | through tmp cnt' =>
        simp only [settle, Epi.modify_same]
        exact ConnBuf.Bounded.compact leaves tmp
    | closed cnt' =>
        simp only [settle, Epi.release_same]
        exact ⟨by simpa [freeCb] using positive, .inr (by simpa [freeCb] using leaves)⟩
    | failed =>
        cases returned
        exact absurd rfl kept
    | exited => cases returned

/-- The read finds room, and every round of the loop stays within the bytes at hand. The
call ends as the loop does from each of its rounds. -/
structure SafeCall (sizes : Sizes) (receiver : Receiver World) (e : Epi) (fd : Int)
    (result : RecvResult) (now : UInt32) (world : World) : Prop where
  /-- `do_read_conn` does not find the buffer full. -/
  notFull : ((mapBuffer e fd).fds fd).cb.recvlen ≠ sizes.pageSize
  recvSize : 0 < (sizes.max : Int) - ((mapBuffer e fd).fds fd).cb.recvlen
  received : ((mapBuffer e fd).fds fd).cb.recvlen + result.chunk.length ≤ sizes.max
  rounds : result ≠ .closed → ∀ rounds s,
    parseRounds sizes receiver (loopMemory sizes e fd result now) rounds
      (loopStart sizes e fd result now world) = some s →
    SafeRound sizes receiver (loopMemory sizes e fd result now)
      (((mapBuffer e fd).fds fd).cb.recvlen + result.chunk.length) s
  terminates : result ≠ .closed → ∃ rounds,
    parseRounds sizes receiver (loopMemory sizes e fd result now) rounds
      (loopStart sizes e fd result now world) = none
  loop : result ≠ .closed → ∀ rounds s,
    parseRounds sizes receiver (loopMemory sizes e fd result now) rounds
      (loopStart sizes e fd result now world) = some s →
    netRecv sizes receiver e fd result now world =
      settle (doReadConn sizes e fd result now).1 fd
        (parseAgain sizes receiver (loopMemory sizes e fd result now) s.cb s.tmp s.cnt s.world)

private theorem mapBuffer_recvlen (e : Epi) (fd : Int) :
    ((mapBuffer e fd).fds fd).cb.recvlen = (e.fds fd).cb.content.length := by
  obtain ⟨cb, memory, maps, filled⟩ := mapBuffer_filled e fd
  rw [maps, Epi.modify_same]
  exact filled.recvlen

/-- The read, and the buffer that the loop starts on after it. -/
theorem loopStart_filled {e : Epi} {fd : Int}
    (room : (e.fds fd).cb.content.length < sizes.pageSize) (result : RecvResult)
    (now : UInt32) (world : World) :
    result = .closed ∧ (doReadConn sizes e fd result now).2 = -1 ∨
      result ≠ .closed ∧ (doReadConn sizes e fd result now).2 = result.chunk.length ∧
        Filled (loopStart sizes e fd result now world).cb
          ((e.fds fd).cb.content ++ result.chunk) (e.fds fd).cb.cached
          (loopMemory sizes e fd result now) := by
  obtain ⟨cb, sk, memory, filled, reads⟩ := doReadConn_filled e fd room result now
  rcases reads with ⟨closed, reads⟩ | ⟨alive, reads⟩
  · exact .inl ⟨closed, by rw [reads]⟩
  · obtain ⟨needPollin, slot⟩ := queueIfFull_same sizes
      (e.modify fd ({ · with cb := cb, sk := sk })) fd
    refine .inr ⟨alive, by rw [reads], ?_⟩
    simpa only [loopStart, loopMemory, reads, slot, Epi.modify_same, filled.mapped,
      Option.getD_some] using filled

private theorem loopStart_recvlen {e : Epi} {fd : Int}
    (room : (e.fds fd).cb.content.length < sizes.pageSize) {result : RecvResult}
    (alive : result ≠ .closed) (now : UInt32) (world : World) :
    (loopStart sizes e fd result now world).cb.recvlen =
      (e.fds fd).cb.content.length + result.chunk.length := by
  rcases loopStart_filled room result now world with ⟨closed, _⟩ | ⟨_, _, filled⟩
  · exact absurd closed alive
  · rw [filled.recvlen, List.length_append]

/-- What a call does after the read. -/
theorem netRecv_loop {e : Epi} {fd : Int} (sized : sizes.max ≤ sizes.pageSize)
    (readable : Readable sizes.max (e.fds fd)) {result : RecvResult} (alive : result ≠ .closed)
    (now : UInt32) (world : World) :
    netRecv sizes receiver e fd result now world =
      settle (doReadConn sizes e fd result now).1 fd
        (parseAgain sizes receiver (loopMemory sizes e fd result now)
          (loopStart sizes e fd result now world).cb 0 0 world) := by
  have reads := loopStart_filled (readable.room.trans_le sized) result now world
  obtain ⟨_, count, _⟩ := reads.resolve_left fun closed => alive closed.1
  unfold netRecv loopStart loopMemory
  rw [if_neg (by omega), if_neg readable.notPipe]
  generalize doReadConn sizes e fd result now = read at count ⊢
  obtain ⟨e', status⟩ := read
  simp only at count ⊢
  rw [if_neg (by omega)]
  generalize parseAgain sizes receiver _ _ 0 0 world = parsed
  obtain ⟨cb, world', stop⟩ := parsed
  cases stop <;> rfl

private theorem safeCall {e : Epi} {fd : Int} (sized : sizes.max ≤ sizes.pageSize)
    (readable : Readable sizes.max (e.fds fd)) {result : RecvResult}
    (possible : result.Possible (sizes.max - (e.fds fd).cb.content.length)) (now : UInt32)
    (world : World) : SafeCall sizes receiver e fd result now world := by
  have room := readable.room
  have mapped := mapBuffer_recvlen e fd
  have length := possible.length_le
  have window : result ≠ .closed → (loopStart sizes e fd result now world).tmp +
      (loopStart sizes e fd result now world).cb.recvlen =
        ((mapBuffer e fd).fds fd).cb.recvlen + result.chunk.length := by
    intro alive
    have start := loopStart_recvlen (room.trans_le sized) alive now world
    rw [mapped, start]
    exact Nat.zero_add _
  constructor
  · omega
  · omega
  · omega
  · intro alive rounds s runs
    exact safeRound_of_window (parseRounds_window runs (window alive)).1
  · intro alive
    -- a round that is not the last takes at least one byte off
    refine ⟨(loopStart sizes e fd result now world).cb.recvlen + 1, ?_⟩
    cases runs : parseRounds sizes receiver (loopMemory sizes e fd result now)
        ((loopStart sizes e fd result now world).cb.recvlen + 1)
        (loopStart sizes e fd result now world) with
    | none => rfl
    | some s =>
        have shrunk := (parseRounds_window runs (window alive)).2
        omega
  · intro alive rounds s runs
    rw [netRecv_loop sized readable alive, ← parseAgain_rounds runs]
    rfl

end Call

/-! ## All calls on one connection -/

section Runs

variable {World : Type*} (sizes : Sizes) (fd : Int)

/-- The call is safe, and unless it ends the connection the buffer is bounded after it. -/
def NetRead.Bounded (s : ReadConn) (read : NetRead World) : Prop :=
  s.ended = none →
    SafeCall sizes read.receiver s.epi fd read.result read.now read.world ∧
      ((connStep sizes fd s read).ended = none →
        ((connStep sizes fd s read).epi.fds fd).cb.Bounded sizes.max)

variable {sizes fd}

private theorem read_bounded (sized : sizes.max ≤ sizes.pageSize) {s : ReadConn}
    {read : NetRead World} (admissible : read.Admissible sizes fd s)
    (readable : s.ended = none → Readable sizes.max (s.epi.fds fd)) :
    read.Bounded sizes fd s := by
  intro alive
  refine ⟨safeCall sized (readable alive) (admissible alive) read.now read.world, ?_⟩
  have bounded : ∀ cnt, (read.outcome sizes fd s).2.2 = .ret cnt → cnt ≠ -1 →
      ((read.outcome sizes fd s).1.fds fd).cb.Bounded sizes.max := fun cnt =>
    netRecv_bounded sized (readable alive) (admissible alive) read.now read.world
  unfold connStep
  simp only [alive]
  generalize read.outcome sizes fd s = after at bounded
  obtain ⟨e, world, outcome⟩ := after
  simp only at bounded ⊢
  split
  · exact fun ended => by cases ended
  · rename_i cnt kept
    exact fun _ => bounded cnt rfl fun minus => kept (by rw [minus])
  · exact fun ended => by cases ended

private theorem start_readable {max : Nat} {e : Epi} {peer : Option (UInt16 × UInt32)}
    {bcElem : Option Nat} (positive : 0 < max) : (ReadConn.start e fd peer bcElem).ended = none →
      Readable max ((ReadConn.start e fd peer bcElem).epi.fds fd) := by
  intro _
  refine ⟨by simp [ReadConn.start, Epi.doAddConn], ?_⟩
  simpa [ReadConn.start, Epi.doAddConn, FdInfo.zero, ConnBuf.zero, ConnBuf.content]
    using positive

end Runs

/-- Whatever the plugin answers and `recv` reports, as long as the calls of `net_recv`
return a count: each reads into free space, its loop ends and stays within the bytes
received, and after it the buffer has room for the packet that has begun. -/
theorem net_recv_bounded {World : Type*} (pageSize : Nat) (positive : 0 < pageSize) (e : Epi)
    (fd : Int) (peer : Option (UInt16 × UInt32)) (bcElem : Option Nat)
    (reads : List (NetRead World))
    (admissible : Along (connStep ⟨pageSize, pageSize⟩ fd)
      (fun s read => read.Admissible ⟨pageSize, pageSize⟩ fd s)
      (.start e fd peer bcElem) reads) :
    Along (connStep ⟨pageSize, pageSize⟩ fd)
      (fun s read => read.Bounded ⟨pageSize, pageSize⟩ fd s)
      (.start e fd peer bcElem) reads := by
  refine along_of_along (fun s => s.ended = none → Readable pageSize (s.epi.fds fd)) ?_ ?_
    (start_readable positive) admissible
  · intro s read admissible readable
    exact connStep_readable le_rfl s read admissible readable
  · intro s read admissible readable
    exact read_bounded le_rfl admissible readable

theorem net_recv_bounded_line :
    let reads : List (NetRead Unit) :=
      [⟨lines, (), .bytes [104, 105], 0⟩, ⟨lines, (), .bytes [10, 104, 10, 105], 0⟩,
        ⟨lines, (), .closed, 1⟩]
    Along (connStep ⟨64, 64⟩ 5) (fun s read => read.Bounded ⟨64, 64⟩ 5 s)
      (.start netInit 5 none none) reads :=
  net_recv_bounded 64 (by decide) netInit 5 none none _ (by decide +kernel)

/-! ## The copy to the front -/

def consumed (max : Nat) (getPkgLen : List UInt8 → Int) (cached : Nat) (shown : List UInt8) :
    Nat :=
  (cut max getPkgLen cached shown).flatten.length

section Copy

variable {World : Type*} {sizes : Sizes} {receiver : Receiver World}

/-- A loop that leaves a rest has moved past the packets before it. -/
theorem Parses.consumed {memory : Memory} {cb : ConnBuf} {tmp : Nat} {cnt : Int}
    {world : World} {result : ConnBuf × World × Stop}
    (parses : Parses sizes receiver memory cb tmp cnt world result) {rest : Nat} {total : Int}
    (through : result.2.2 = .through rest total) :
    result.1.recvlen + Net.consumed sizes.max receiver.getPkgLen cb.rcvprotlen
        (memory.read tmp cb.recvlen) = cb.recvlen ∧
      (result.1.recvlen ≠ 0 → rest = tmp + Net.consumed sizes.max receiver.getPkgLen
        cb.rcvprotlen (memory.read tmp cb.recvlen)) := by
  unfold Net.consumed
  induction parses with
  | long | big => cases through
  | unknown unknown room =>
      cases through
      rw [cut_nil unknown (.inr (.inl rfl))]
      exact ⟨rfl, fun _ => rfl⟩
  | partly known fits missing =>
      cases through
      rw [cut_nil known (.inr (.inr (by rwa [Memory.read_length])))]
      exact ⟨rfl, fun _ => rfl⟩
  | ended known positive fits whole delivers ends =>
      rcases ends with ⟨_, rfl⟩ | ⟨_, rfl⟩ | ⟨_, rfl⟩ <;> cases through
  | last known positive fits delivers =>
      cases through
      rw [cut_cons known fits positive (by rw [Memory.read_length]), Memory.read_drop,
        Nat.sub_self, Memory.read_zero, cut_empty]
      simp
  | next known positive fits more delivers rest ih =>
      rw [cut_cons known fits positive (by rw [Memory.read_length]; exact more.le),
        Memory.read_take more.le, Memory.read_drop]
      have later := ih through
      simp only [Nat.cast_add] at later
      simp only [List.flatten_cons, List.length_append, Memory.read_length]
      exact ⟨by omega, fun left => by have moved := later.2 left; omega⟩

/-- With room in the buffer, or with a packet in it, a loop that takes every packet leaves
the connection to be read again. -/
theorem Parses.through {memory : Memory} {cb : ConnBuf} {tmp : Nat} {cnt : Int}
    {world : World} {result : ConnBuf × World × Stop}
    (parses : Parses sizes receiver memory cb tmp cnt world result)
    (bounded : cb.recvlen ≤ sizes.max)
    (taken : Net.survives sizes.max receiver world cb.rcvprotlen
      (memory.read tmp cb.recvlen) = true)
    (begun : cb.recvlen < sizes.max ∨
      cut sizes.max receiver.getPkgLen cb.rcvprotlen (memory.read tmp cb.recvlen) ≠ []) :
    ∃ rest total, result.2.2 = .through rest total := by
  induction parses with
  | long known above => rw [survives_eq known, if_pos above] at taken; cases taken
  | big unknown full =>
      rcases begun with room | begun
      · omega
      · exact absurd (cut_nil unknown (.inr (.inl rfl))) begun
  | unknown | partly | last => exact ⟨_, _, rfl⟩
  | ended known positive fits whole delivers ends =>
      rw [survives_eq known, Memory.read_length, if_neg (by omega), if_neg (by omega),
        Memory.read_take whole, delivers] at taken
      rcases ends with ⟨rfl, _⟩ | ⟨rfl, _⟩ | ⟨rfl, _⟩ <;> cases taken
  | next known positive fits more delivers rest ih =>
      rw [survives_eq known, Memory.read_length, if_neg (by omega), if_neg (by omega),
        Memory.read_take more.le, delivers, Memory.read_drop] at taken
      refine ih (by simp only; omega) ?_ (.inl (by simp only; omega))
      simpa [more.ne'] using taken

/-- A call comes to `memcpy` when it has taken packets and a rest follows them. -/
theorem memcpySource_eq {e : Epi} {fd : Int} (sized : sizes.max ≤ sizes.pageSize)
    (readable : Readable sizes.max (e.fds fd)) {result : RecvResult}
    (possible : result.Possible (sizes.max - (e.fds fd).cb.content.length)) (now : UInt32)
    (world : World) {shown : List UInt8} (all : (e.fds fd).cb.content ++ result.chunk = shown)
    {packets : Nat}
    (sum : consumed sizes.max receiver.getPkgLen (e.fds fd).cb.cached shown = packets) :
    memcpySource sizes receiver e fd result now world =
      if result ≠ .closed ∧
          survives sizes.max receiver world (e.fds fd).cb.cached shown = true ∧
          0 < packets ∧ packets < shown.length then
        some ⟨packets, shown.length - packets⟩
      else none := by
  unfold memcpySource
  rw [if_neg (by omega), if_neg readable.notPipe]
  rcases loopStart_filled (readable.room.trans_le sized) result now world with
    ⟨closed, failed⟩ | ⟨alive, counted, filled⟩
  · rw [if_pos failed, if_neg (fun copies => copies.1 closed)]
  · rw [if_neg (by omega)]
    have bounded := filled.bounded readable possible
    have length := filled.recvlen
    rw [all] at length
    generalize (loopStart sizes e fd result now world).cb = cb at bounded length filled ⊢
    generalize loopMemory sizes e fd result now = memory at filled ⊢
    have parses : Parses sizes receiver memory cb 0 0 world
        (parseAgain sizes receiver memory cb 0 0 world) := parseAgain_parses memory cb 0 0 world
    generalize parseAgain sizes receiver memory cb 0 0 world = parsed at parses ⊢
    have moves := fun rest total (through : parsed.2.2 = .through rest total) =>
      parses.consumed through
    have stays := parses.through bounded
    have took := fun rest total (through : parsed.2.2 = .through rest total) =>
      parses.survives through
    have content : memory.read 0 cb.recvlen = shown := by rw [filled.content, all]
    simp only [Nat.cast_zero, content, filled.cached, sum, Nat.zero_add] at moves took stays
    obtain ⟨cb', world', stop⟩ := parsed
    cases stop with
    | through tmp cnt =>
        have left := moves tmp cnt rfl
        simp only at left
        by_cases copies : cb'.recvlen ≠ 0 ∧ packets ≠ 0
        · have moved := left.2 copies.1
          have rest : cb'.recvlen = shown.length - packets := by omega
          rw [if_pos ⟨alive, took tmp cnt rfl, by omega, by omega⟩]
          simp only [moved, rest]
          exact if_pos ⟨copies.2, by omega⟩
        · rw [if_neg (fun ⟨_, _, begun, more⟩ => copies ⟨by omega, by omega⟩)]
          refine if_neg fun ⟨moved, rest⟩ => ?_
          have place := left.2 rest
          exact copies ⟨rest, by omega⟩
    | _ =>
        refine (if_neg fun ⟨_, taken, begun, more⟩ => ?_).symm
        have packet : cut sizes.max receiver.getPkgLen (e.fds fd).cb.cached shown ≠ [] := by
          intro empty
          rw [consumed, empty] at sum
          simp only [List.flatten_nil, List.length_nil] at sum
          omega
        obtain ⟨_, _, through⟩ := stays taken (.inr packet)
        cases through

def CopyApart (sizes : Sizes) (receiver : Receiver World) (e : Epi) (fd : Int)
    (result : RecvResult) (now : UInt32) (world : World) : Prop :=
  ∀ source ∈ memcpySource sizes receiver e fd result now world,
    Disjoint source.offsets (ByteRange.offsets ⟨0, source.count⟩)

/-- Where all packets at hand are taken, they are none or make up half of the bytes. -/
def RestFits (max : Nat) (receiver : Receiver World) (world : World) (cb : ConnBuf)
    (result : RecvResult) : Prop :=
  result ≠ .closed →
    survives max receiver world cb.cached (cb.content ++ result.chunk) = true →
    consumed max receiver.getPkgLen cb.cached (cb.content ++ result.chunk) ≠ 0 →
    (cb.content ++ result.chunk).length ≤
      2 * consumed max receiver.getPkgLen cb.cached (cb.content ++ result.chunk)

private theorem copyApart_iff {e : Epi} {fd : Int} (sized : sizes.max ≤ sizes.pageSize)
    (readable : Readable sizes.max (e.fds fd)) {result : RecvResult}
    (possible : result.Possible (sizes.max - (e.fds fd).cb.content.length)) (now : UInt32)
    (world : World) :
    CopyApart sizes receiver e fd result now world ↔
      RestFits sizes.max receiver world (e.fds fd).cb result := by
  unfold CopyApart RestFits
  rw [memcpySource_eq sized readable possible now world rfl rfl]
  generalize (e.fds fd).cb.content ++ result.chunk = shown
  generalize consumed sizes.max receiver.getPkgLen (e.fds fd).cb.cached shown = packets
  split
  · rename_i copies
    obtain ⟨alive, taken, begun, more⟩ := copies
    simp only [Option.mem_some_iff, forall_eq']
    rw [ByteRange.offsets_disjoint_iff]
    exact ⟨fun _ _ _ _ => by omega, fun fits => by have half := fits alive taken begun.ne'; omega⟩
  · rename_i idle
    refine iff_of_true (fun _ source => by cases source) fun alive taken begun => ?_
    by_contra less
    exact idle ⟨alive, taken, by omega, by omega⟩

end Copy

section Runs

variable {World : Type*} (sizes : Sizes) (fd : Int)

def NetRead.CopyApart (s : ReadConn) (read : NetRead World) : Prop :=
  s.ended = none →
    Net.CopyApart sizes read.receiver s.epi fd read.result read.now read.world

def NetRead.RestFits (s : ReadConn) (read : NetRead World) : Prop :=
  s.ended = none →
    Net.RestFits sizes.max read.receiver read.world (s.epi.fds fd).cb read.result

instance (s : ReadConn) (read : NetRead World) : Decidable (read.CopyApart sizes fd s) :=
  inferInstanceAs (Decidable (s.ended = none → ∀ source ∈ memcpySource sizes read.receiver s.epi
    fd read.result read.now read.world,
      Disjoint source.offsets (ByteRange.offsets ⟨0, source.count⟩)))

end Runs

/-- Over all calls on a connection, `memcpy` never copies a range onto a part of itself if
and only if no call leaves a rest longer than the packets it has taken. -/
theorem net_recv_copies_apart_iff {World : Type*} (sizes : Sizes) (positive : 0 < sizes.max)
    (sized : sizes.max ≤ sizes.pageSize) (e : Epi) (fd : Int) (peer : Option (UInt16 × UInt32))
    (bcElem : Option Nat) (reads : List (NetRead World))
    (admissible : Along (connStep sizes fd) (fun s read => read.Admissible sizes fd s)
      (.start e fd peer bcElem) reads) :
    Along (connStep sizes fd) (fun s read => read.CopyApart sizes fd s)
        (.start e fd peer bcElem) reads ↔
      Along (connStep sizes fd) (fun s read => read.RestFits sizes fd s)
        (.start e fd peer bcElem) reads := by
  refine along_congr (fun s => s.ended = none → Readable sizes.max (s.epi.fds fd)) ?_ ?_
    (start_readable positive) admissible
  · exact fun s read admissible readable _ => connStep_readable sized s read admissible readable
  · intro s read admissible readable
    exact imp_congr_right fun alive =>
      copyApart_iff sized (readable alive) (admissible alive) read.now read.world

/-- A plugin whose packets begin with their length. -/
def prefixed : Receiver Unit where
  getPkgLen := fun shown => match shown with
    | [] => 0
    | first :: _ => first.toNat
  deliver := fun world _ => (world, .taken)

theorem net_recv_copies_apart_iff_prefixed :
    let reads : List (NetRead Unit) :=
      [⟨prefixed, (), .bytes [2, 7, 2, 7, 3], 0⟩, ⟨prefixed, (), .bytes [7, 7], 0⟩]
    Along (connStep ⟨8, 8⟩ 5) (fun s read => read.CopyApart ⟨8, 8⟩ 5 s)
        (.start netInit 5 none none) reads ↔
      Along (connStep ⟨8, 8⟩ 5) (fun s read => read.RestFits ⟨8, 8⟩ 5 s)
        (.start netInit 5 none none) reads :=
  net_recv_copies_apart_iff ⟨8, 8⟩ (by decide) (by decide) netInit 5 none none _
    (by decide +kernel)

/-- A packet of two bytes before three bytes of the next. -/
theorem net_recv_copies_overlap :
    let reads : List (NetRead Unit) := [⟨prefixed, (), .bytes [2, 7, 6, 7, 7], 0⟩]
    Along (connStep ⟨8, 8⟩ 5) (fun s read => read.Admissible ⟨8, 8⟩ 5 s)
        (.start netInit 5 none none) reads ∧
      ¬ Along (connStep ⟨8, 8⟩ 5) (fun s read => read.CopyApart ⟨8, 8⟩ 5 s)
        (.start netInit 5 none none) reads := by
  decide +kernel

end MpNet.Net
