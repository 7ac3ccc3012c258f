import MpNet.Library.Run
import MpNet.Net.FdTableProperties
import MpNet.Net.Receive

/-!
# What a call of `net_recv` can do

The read appends to the buffer and queues the connection when the buffer is full;
the packet loop cuts what is buffered. A call ends the process in two situations
only: a full buffer whose length the plugin does not know, and a push that exits.
-/

set_option autoImplicit false

namespace MpNet.Net

open Library

/-! ## The read -/

def RecvResult.chunk : RecvResult → List UInt8
  | .bytes chunk => chunk
  | _ => []

/-- A `recv` reports at least one byte and at most `room`. -/
def RecvResult.Possible (room : Nat) : RecvResult → Prop
  | .bytes chunk => chunk ≠ [] ∧ chunk.length ≤ room
  | .closed | .error => True

instance (room : Nat) : (result : RecvResult) → Decidable (result.Possible room)
  | .bytes _ => inferInstanceAs (Decidable (_ ∧ _))
  | .closed | .error => .isTrue trivial

def ConnBuf.content (cb : ConnBuf) : List UInt8 :=
  match cb.recvptr with
  | some memory => memory.read 0 cb.recvlen
  | none => []

/-- The packet length that is still known from an earlier read. -/
def ConnBuf.cached (cb : ConnBuf) : Nat := if cb.recvptr.isNone then 0 else cb.rcvprotlen

/-- The buffer is mapped and holds `shown`. -/
structure Filled (cb : ConnBuf) (shown : List UInt8) (cached : Nat) (memory : Memory) : Prop where
  mapped : cb.recvptr = some memory
  content : memory.read 0 cb.recvlen = shown
  cached : cb.rcvprotlen = cached

theorem Filled.recvlen {cb : ConnBuf} {shown : List UInt8} {cached : Nat} {memory : Memory}
    (filled : Filled cb shown cached memory) : cb.recvlen = shown.length := by
  rw [← filled.content, Memory.read_length]

section Read

variable {sizes : Sizes} {e : Epi} {fd : Int}

theorem mapBuffer_filled (e : Epi) (fd : Int) : ∃ cb memory,
    mapBuffer e fd = e.modify fd ({ · with cb := cb }) ∧
      Filled cb (e.fds fd).cb.content (e.fds fd).cb.cached memory := by
  unfold mapBuffer ConnBuf.content ConnBuf.cached
  cases mapped : (e.fds fd).cb.recvptr with
  | none =>
      refine ⟨_, fun _ => 0, rfl, rfl, rfl, rfl⟩
  | some memory =>
      refine ⟨(e.fds fd).cb, memory, ?_, mapped, rfl, rfl⟩
      simp [Epi.modify]

theorem Filled.append {cb : ConnBuf} {shown : List UInt8} {cached : Nat} {memory : Memory}
    (filled : Filled cb shown cached memory) (chunk : List UInt8) :
    Filled
      { cb with
        recvptr := cb.recvptr.map (·.write cb.recvlen chunk)
        recvlen := cb.recvlen + chunk.length }
      (shown ++ chunk) cached (memory.write cb.recvlen chunk) where
  mapped := by rw [filled.mapped]; rfl
  content := by rw [Memory.read_write_append, filled.content]
  cached := filled.cached

/-- A read that finds room either sees the end of the stream or appends to the buffer
and queues the connection by its fill level. -/
theorem doReadConn_filled (e : Epi) (fd : Int)
    (room : (e.fds fd).cb.content.length < sizes.pageSize) (result : RecvResult)
    (now : UInt32) :
    ∃ cb sk memory,
      Filled cb ((e.fds fd).cb.content ++ result.chunk) (e.fds fd).cb.cached memory ∧
      (result = .closed ∧ doReadConn sizes e fd result now =
          (e.modify fd ({ · with cb := cb, sk := sk }), -1) ∨
        result ≠ .closed ∧ doReadConn sizes e fd result now =
          (queueIfFull sizes (e.modify fd ({ · with cb := cb, sk := sk })) fd,
            (result.chunk.length : Int))) := by
  obtain ⟨cb, memory, maps, filled⟩ := mapBuffer_filled e fd
  have length := filled.recvlen
  unfold doReadConn
  simp only [maps, Epi.modify_same]
  rw [if_neg (by omega)]
  cases result with
  | bytes chunk =>
      refine ⟨_, { (e.fds fd).sk with lastTm := now }, _, filled.append chunk, .inr ⟨by simp, ?_⟩⟩
      simp [Epi.modify, RecvResult.chunk]
  | closed =>
      refine ⟨cb, (e.fds fd).sk, memory, ?_, .inl ⟨rfl, rfl⟩⟩
      simpa [RecvResult.chunk] using filled
  | error =>
      refine ⟨cb, (e.fds fd).sk, memory, ?_, .inr ⟨by simp, rfl⟩⟩
      simpa [RecvResult.chunk] using filled

end Read

/-! ## The packet loop -/

section Parse

variable {World : Type*} {sizes : Sizes} {receiver : Receiver World}

/-- The length that the loop works with at `tmp`. -/
def packetLength (receiver : Receiver World) (memory : Memory) (cb : ConnBuf) (tmp : Nat) : Nat :=
  if cb.rcvprotlen = 0 then (u32 (receiver.getPkgLen (memory.read tmp cb.recvlen))).toNat
  else cb.rcvprotlen

inductive Parses (sizes : Sizes) (receiver : Receiver World) (memory : Memory) :
    ConnBuf → Nat → Int → World → ConnBuf × World × Stop → Prop
  | long {cb : ConnBuf} {tmp : Nat} {cnt : Int} {world : World} {length : Nat}
      (known : packetLength receiver memory cb tmp = length) (above : sizes.max < length) :
      Parses sizes receiver memory cb tmp cnt world
        ({ cb with rcvprotlen := length }, world, .failed)
  | big {cb : ConnBuf} {tmp : Nat} {cnt : Int} {world : World}
      (unknown : packetLength receiver memory cb tmp = 0) (full : cb.recvlen = sizes.max) :
      Parses sizes receiver memory cb tmp cnt world
        ({ cb with rcvprotlen := 0 }, world, .exited)
  | unknown {cb : ConnBuf} {tmp : Nat} {cnt : Int} {world : World}
      (unknown : packetLength receiver memory cb tmp = 0) (room : cb.recvlen ≠ sizes.max) :
      Parses sizes receiver memory cb tmp cnt world
        ({ cb with rcvprotlen := 0 }, world, .through tmp cnt)
  | partly {cb : ConnBuf} {tmp : Nat} {cnt : Int} {world : World} {length : Nat}
      (known : packetLength receiver memory cb tmp = length) (fits : length ≤ sizes.max)
      (missing : cb.recvlen < length) :
      Parses sizes receiver memory cb tmp cnt world
        ({ cb with rcvprotlen := length }, world, .through tmp cnt)
  | ended {cb : ConnBuf} {tmp : Nat} {cnt : Int} {world after : World} {length : Nat}
      {delivery : Delivery} {stop : Stop}
      (known : packetLength receiver memory cb tmp = length) (positive : 0 < length)
      (fits : length ≤ sizes.max) (whole : length ≤ cb.recvlen)
      (delivers : receiver.deliver world (memory.read tmp length) = (after, delivery))
      (ends : delivery = .closed ∧ stop = .closed cnt ∨ delivery = .refused ∧ stop = .failed ∨
        delivery = .exited ∧ stop = .exited) :
      Parses sizes receiver memory cb tmp cnt world
        ({ cb with rcvprotlen := length }, after, stop)
  | last {cb : ConnBuf} {tmp : Nat} {cnt : Int} {world after : World}
      (known : packetLength receiver memory cb tmp = cb.recvlen) (positive : 0 < cb.recvlen)
      (fits : cb.recvlen ≤ sizes.max)
      (delivers : receiver.deliver world (memory.read tmp cb.recvlen) = (after, .taken)) :
      Parses sizes receiver memory cb tmp cnt world
        ({ cb with recvlen := 0, rcvprotlen := 0 }, after, .through tmp (cnt + 1))
  | next {cb : ConnBuf} {tmp : Nat} {cnt : Int} {world after : World} {length : Nat}
      {result : ConnBuf × World × Stop}
      (known : packetLength receiver memory cb tmp = length) (positive : 0 < length)
      (fits : length ≤ sizes.max) (more : length < cb.recvlen)
      (delivers : receiver.deliver world (memory.read tmp length) = (after, .taken))
      (rest : Parses sizes receiver memory
        { cb with recvlen := cb.recvlen - length, rcvprotlen := 0 } (tmp + length) (cnt + 1) after
        result) :
      Parses sizes receiver memory cb tmp cnt world result

theorem parseAgain_parses (memory : Memory) (cb : ConnBuf) (tmp : Nat) (cnt : Int)
    (world : World) : Parses sizes receiver memory cb tmp cnt world
      (parseAgain sizes receiver memory cb tmp cnt world) := by
  induction size : cb.recvlen using Nat.strongRecOn generalizing cb tmp cnt world with
  | ind size' ih =>
      subst size
      unfold parseAgain
      simp only
      obtain ⟨length, known⟩ : ∃ length, packetLength receiver memory cb tmp = length := ⟨_, rfl⟩
      have same := known
      unfold packetLength at same
      simp only [same]
      split
      · exact .long known ‹_›
      split
      · rename_i fits unknown
        subst unknown
        split
        · exact .big known ‹_›
        · exact .unknown known ‹_›
      split
      · rename_i fits positive whole
        cases delivers : receiver.deliver world (memory.read tmp length) with
        | mk after delivery =>
            cases delivery with
            | closed => exact .ended known (by omega) (by omega) whole delivers (.inl ⟨rfl, rfl⟩)
            | refused =>
                exact .ended known (by omega) (by omega) whole delivers (.inr (.inl ⟨rfl, rfl⟩))
            | exited =>
                exact .ended known (by omega) (by omega) whole delivers (.inr (.inr ⟨rfl, rfl⟩))
            | taken =>
                simp only
                by_cases more : length < cb.recvlen
                · rw [if_pos (by omega), if_pos (by omega)]
                  exact .next known (by omega) (by omega) more delivers
                    (ih _ (by simp only; omega) _ _ _ _ rfl)
                · have all : length = cb.recvlen := by omega
                  subst all
                  rw [if_neg (by omega), if_neg (by omega), Nat.sub_self]
                  exact .last known (by omega) (by omega) delivers
      · exact .partly known (by omega) (by omega)

namespace Parses

variable {memory : Memory} {cb : ConnBuf} {tmp : Nat} {cnt : Int} {world : World}
  {result : ConnBuf × World × Stop}

theorem recvptr (parses : Parses sizes receiver memory cb tmp cnt world result) :
    result.1.recvptr = cb.recvptr := by
  induction parses with
  | next _ _ _ _ _ _ ih => exact ih
  | _ => rfl

theorem returns (parses : Parses sizes receiver memory cb tmp cnt world result)
    (positive : 0 < sizes.max) (counted : 0 ≤ cnt) (bounded : cb.recvlen ≤ sizes.max) :
    match result.2.2 with
    | .through _ cnt => 0 ≤ cnt ∧ result.1.recvlen < sizes.max
    | .closed cnt => 0 ≤ cnt
    | .failed | .exited => True := by
  induction parses with
  | long | big => trivial
  | unknown _ room => exact ⟨counted, by simp only; omega⟩
  | partly _ fits missing => exact ⟨counted, by simp only; omega⟩
  | ended _ _ _ _ _ ends =>
      rcases ends with ⟨_, rfl⟩ | ⟨_, rfl⟩ | ⟨_, rfl⟩
      · exact counted
      · trivial
      · trivial
  | last => exact ⟨by omega, positive⟩
  | next _ _ _ _ _ _ ih => exact ih (by omega) (by simp only; omega)

end Parses

/-! ## When a call ends the process -/

/-- The packets that the loop hands over while all of them are taken. -/
def cut (max : Nat) (getPkgLen : List UInt8 → Int) (cached : Nat) (shown : List UInt8) :
    List (List UInt8) :=
  let length := if cached = 0 then (u32 (getPkgLen shown)).toNat else cached
  if max < length ∨ length = 0 ∨ shown.length < length then []
  else shown.take length :: cut max getPkgLen 0 (shown.drop length)
termination_by shown.length
decreasing_by
  simp only [List.length_drop]
  omega

def PushesReturn (receiver : Receiver World) : World → List (List UInt8) → Prop
  | _, [] => True
  | world, packet :: rest =>
      match receiver.deliver world packet with
      | (_, .exited) => False
      | (world, .taken) => PushesReturn receiver world rest
      | _ => True

/-- A full buffer of which the plugin still asks for more. -/
def BigProtocol (max : Nat) (getPkgLen : List UInt8 → Int) (cached : Nat) (shown : List UInt8) :
    Prop :=
  cached = 0 ∧ shown.length = max ∧ u32 (getPkgLen shown) = 0

theorem cut_nil {max : Nat} {getPkgLen : List UInt8 → Int} {cached length : Nat}
    {shown : List UInt8}
    (known : (if cached = 0 then (u32 (getPkgLen shown)).toNat else cached) = length)
    (none : max < length ∨ length = 0 ∨ shown.length < length) :
    cut max getPkgLen cached shown = [] := by
  rw [cut, known]
  exact if_pos none

theorem cut_cons {max : Nat} {getPkgLen : List UInt8 → Int} {cached length : Nat}
    {shown : List UInt8}
    (known : (if cached = 0 then (u32 (getPkgLen shown)).toNat else cached) = length)
    (fits : length ≤ max) (positive : 0 < length) (whole : length ≤ shown.length) :
    cut max getPkgLen cached shown =
      shown.take length :: cut max getPkgLen 0 (shown.drop length) := by
  rw [cut, known]
  exact if_neg (by omega)

theorem cut_empty (max : Nat) (getPkgLen : List UInt8 → Int) :
    cut max getPkgLen 0 [] = [] := by
  refine cut_nil rfl (.inr ?_)
  simp only [List.length_nil]
  omega

private theorem not_bigProtocol {memory : Memory} {cb : ConnBuf} {tmp length : Nat}
    (known : packetLength receiver memory cb tmp = length) (positive : 0 < length) :
    ¬ BigProtocol sizes.max receiver.getPkgLen cb.rcvprotlen (memory.read tmp cb.recvlen) := by
  rintro ⟨uncached, _, zero⟩
  unfold packetLength at known
  rw [if_pos uncached, zero] at known
  exact absurd known positive.ne

private theorem Parses.exited_iff {memory : Memory} {cb : ConnBuf} {tmp : Nat} {cnt : Int}
    {world : World} {result : ConnBuf × World × Stop}
    (parses : Parses sizes receiver memory cb tmp cnt world result)
    (bounded : cb.recvlen ≤ sizes.max) :
    result.2.2 = .exited ↔
      BigProtocol sizes.max receiver.getPkgLen cb.rcvprotlen (memory.read tmp cb.recvlen) ∨
        ¬ PushesReturn receiver world
          (cut sizes.max receiver.getPkgLen cb.rcvprotlen (memory.read tmp cb.recvlen)) := by
  induction parses with
  | long known above =>
      rw [cut_nil known (.inl above)]
      simp [not_bigProtocol known (by omega), PushesReturn]
  | @big cb tmp cnt world unknown full =>
      have length : (memory.read tmp cb.recvlen).length = sizes.max := by rw [Memory.read_length, full]
      have zero : cb.rcvprotlen = 0 ∧ u32 (receiver.getPkgLen (memory.read tmp cb.recvlen)) = 0 := by
        unfold packetLength at unknown
        split at unknown
        · rename_i uncached
          have low : 0 ≤ u32 (receiver.getPkgLen (memory.read tmp cb.recvlen)) :=
            Int.emod_nonneg _ (by decide)
          exact ⟨uncached, by omega⟩
        · omega
      exact iff_of_true rfl (.inl ⟨zero.1, length, zero.2⟩)
  | unknown unknown room =>
      rw [cut_nil unknown (.inr (.inl rfl))]
      simp [BigProtocol, PushesReturn, room]
  | partly known fits missing =>
      rw [cut_nil known (.inr (.inr (by rwa [Memory.read_length])))]
      simp [not_bigProtocol known (by omega), PushesReturn]
  | ended known positive fits whole delivers ends =>
      rw [cut_cons known fits positive (by rwa [Memory.read_length]), Memory.read_take whole,
        PushesReturn, delivers]
      rcases ends with ⟨rfl, rfl⟩ | ⟨rfl, rfl⟩ | ⟨rfl, rfl⟩ <;>
        simp [not_bigProtocol known positive]
  | last known positive fits delivers =>
      rw [cut_cons known fits positive (by rw [Memory.read_length]), Memory.read_take le_rfl,
        PushesReturn, delivers, Memory.read_drop, Nat.sub_self, Memory.read_zero, cut_empty]
      simp [not_bigProtocol known positive, PushesReturn]
  | next known positive fits more delivers rest ih =>
      rw [cut_cons known fits positive (by rw [Memory.read_length]; exact more.le),
        Memory.read_take more.le, PushesReturn, delivers, Memory.read_drop]
      have later := ih (by simp only; omega)
      simp only [Nat.cast_add] at later
      rw [later, or_iff_right, or_iff_right (not_bigProtocol known positive)]
      rintro ⟨_, full, _⟩
      rw [Memory.read_length] at full
      omega

/-- The packets in the buffer are all taken, and the length of none of them is above `max`. -/
def survives (max : Nat) (receiver : Receiver World) (world : World) (cached : Nat)
    (shown : List UInt8) : Bool :=
  let length := if cached = 0 then (u32 (receiver.getPkgLen shown)).toNat else cached
  if max < length then false
  else if length = 0 ∨ shown.length < length then true
  else
    match receiver.deliver world (shown.take length) with
    | (world, .taken) =>
        shown.length = length || survives max receiver world 0 (shown.drop length)
    | _ => false
termination_by shown.length
decreasing_by
  simp only [List.length_drop]
  omega

theorem survives_eq {max : Nat} {receiver : Receiver World} {cached length : Nat}
    {shown : List UInt8}
    (known : (if cached = 0 then (u32 (receiver.getPkgLen shown)).toNat else cached) = length)
    (world : World) :
    survives max receiver world cached shown =
      if max < length then false
      else if length = 0 ∨ shown.length < length then true
      else
        match receiver.deliver world (shown.take length) with
        | (world, .taken) =>
            shown.length = length || survives max receiver world 0 (shown.drop length)
        | _ => false := by
  rw [survives, known]

/-- A loop that leaves a connection to be read again has taken its packets. -/
theorem Parses.survives {memory : Memory} {cb : ConnBuf} {tmp : Nat} {cnt : Int}
    {world : World} {result : ConnBuf × World × Stop}
    (parses : Parses sizes receiver memory cb tmp cnt world result) {rest : Nat} {total : Int}
    (through : result.2.2 = .through rest total) :
    Net.survives sizes.max receiver world cb.rcvprotlen (memory.read tmp cb.recvlen) = true := by
  induction parses with
  | long | big => cases through
  | unknown unknown room =>
      rw [survives_eq unknown, if_neg (Nat.not_lt_zero _), if_pos (.inl rfl)]
  | partly known fits missing =>
      rw [survives_eq known, if_neg (by omega), if_pos (.inr (by rwa [Memory.read_length]))]
  | ended known positive fits whole delivers ends =>
      rcases ends with ⟨_, rfl⟩ | ⟨_, rfl⟩ | ⟨_, rfl⟩ <;> cases through
  | last known positive fits delivers =>
      rw [survives_eq known, Memory.read_length, if_neg (by omega), if_neg (by omega),
        Memory.read_take le_rfl, delivers]
      simp
  | next known positive fits more delivers rest ih =>
      have later := ih through
      simp only [Nat.cast_add] at later
      rw [survives_eq known, Memory.read_length, if_neg (by omega), if_neg (by omega),
        Memory.read_take more.le, delivers, Memory.read_drop]
      simp [later]

/-! ## A whole call -/

def settle (e : Epi) (fd : Int) : ConnBuf × World × Stop → Epi × World × Outcome
  | (cb, world, .through tmp cnt) =>
      (e.modify fd ({ · with cb := compact cb tmp }), world, .ret cnt)
  | (cb, world, .closed cnt) => ((e.modify fd ({ · with cb := cb })).release fd, world, .ret cnt)
  | (cb, world, .failed) => (e.modify fd ({ · with cb := cb }), world, .ret (-1))
  | (cb, world, .exited) => (e.modify fd ({ · with cb := cb }), world, .exited)

/-- A connection that `net_recv` reads from: not a pipe, and with room in its buffer. -/
structure Readable (max : Nat) (slot : FdInfo) : Prop where
  notPipe : slot.type ≠ .pipe
  room : slot.cb.content.length < max

theorem queueIfFull_same (sizes : Sizes) (e : Epi) (fd : Int) : ∃ needPollin,
    (queueIfFull sizes e fd).fds fd = { e.fds fd with needPollin := needPollin } := by
  unfold queueIfFull
  split
  · exact Epi.addToEtinQueue_same e fd
  · exact ⟨false, Epi.delFromEtinQueue_same⟩

/-- The queue holds the connection exactly when its buffer is full and it is not closing. -/
theorem queueIfFull_etinHead (sizes : Sizes) {e : Epi} (linked : e.Linked) (fd other : Int) :
    other ∈ (queueIfFull sizes e fd).etinHead ↔
      other ∈ e.etinHead ∧ (other = fd → (e.fds fd).cb.recvlen = sizes.max) ∨
        other = fd ∧ (e.fds fd).cb.recvlen = sizes.max ∧ (e.fds fd).needClose = false := by
  unfold queueIfFull
  split
  · rename_i full
    simp [Epi.addToEtinQueue_etinHead linked, full]
  · rename_i room
    simp [Epi.delFromEtinQueue_etinHead linked, room]

/-- A call sees the end of the stream, or it appends what it reads, queues the
connection by its fill level and runs the packet loop on the buffer. -/
theorem netRecv_cases (receiver : Receiver World) {e : Epi} {fd : Int}
    (sized : sizes.max ≤ sizes.pageSize) (readable : Readable sizes.max (e.fds fd))
    (result : RecvResult) (now : UInt32) (world : World) :
    ∃ cb sk memory,
      Filled cb ((e.fds fd).cb.content ++ result.chunk) (e.fds fd).cb.cached memory ∧
      (result = .closed ∧ netRecv sizes receiver e fd result now world =
          (e.modify fd ({ · with cb := cb, sk := sk }), world, .ret (-1)) ∨
        result ≠ .closed ∧ ∃ parsed, Parses sizes receiver memory cb 0 0 world parsed ∧
          netRecv sizes receiver e fd result now world =
            settle (queueIfFull sizes (e.modify fd ({ · with cb := cb, sk := sk })) fd) fd
              parsed) := by
  obtain ⟨cb, sk, memory, filled, reads⟩ := doReadConn_filled e fd
    (readable.room.trans_le sized) result now
  refine ⟨cb, sk, memory, filled, ?_⟩
  unfold netRecv
  rw [if_neg (by omega), if_neg readable.notPipe]
  rcases reads with ⟨closed, reads⟩ | ⟨alive, reads⟩
  · left
    rw [reads]
    exact ⟨closed, if_pos rfl⟩
  · right
    refine ⟨alive, _, parseAgain_parses memory cb 0 0 world, ?_⟩
    rw [reads]
    obtain ⟨needPollin, slot⟩ := queueIfFull_same sizes
      (e.modify fd ({ · with cb := cb, sk := sk })) fd
    simp only [slot, Epi.modify_same, filled.mapped, Option.getD_some]
    rw [if_neg (by omega)]
    generalize parseAgain sizes receiver memory cb 0 0 world = parsed
    obtain ⟨cb', world', stop⟩ := parsed
    cases stop <;> rfl

private theorem Parses.preserves {memory : Memory} {cb : ConnBuf} {tmp : Nat} {cnt : Int}
    {world : World}
    {result : ConnBuf × World × Stop}
    (parses : Parses sizes receiver memory cb tmp cnt world result) {invariant : World → Prop}
    (preserved : ∀ {world packet after delivery},
      receiver.deliver world packet = (after, delivery) → invariant world → invariant after)
    (before : invariant world) : invariant result.2.1 := by
  induction parses with
  | long | big | unknown | partly => exact before
  | ended _ _ _ _ delivers _ => exact preserved delivers before
  | last _ _ _ delivers => exact preserved delivers before
  | next _ _ _ _ delivers _ ih => exact ih (preserved delivers before)

theorem netRecv_preserves (sizes : Sizes) (receiver : Receiver World) (invariant : World → Prop)
    (preserved : ∀ {world packet after delivery},
      receiver.deliver world packet = (after, delivery) → invariant world → invariant after)
    (e : Epi) (fd : Int) (result : RecvResult) (now : UInt32) {world : World}
    (before : invariant world) :
    invariant (netRecv sizes receiver e fd result now world).2.1 := by
  unfold netRecv
  split
  · exact before
  · split
    · exact before
    · simp only
      split
      · exact before
      · generalize parsed : parseAgain sizes receiver _ _ 0 0 world = after
        have kept : invariant after.2.1 :=
          (parsed ▸ parseAgain_parses _ _ 0 0 world).preserves preserved before
        obtain ⟨cb, world', stop⟩ := after
        cases stop <;> exact kept

theorem RecvResult.Possible.length_le {room : Nat} {result : RecvResult}
    (possible : result.Possible room) : result.chunk.length ≤ room := by
  cases result with
  | bytes chunk => exact possible.2
  | closed | error => exact Nat.zero_le room

theorem Filled.bounded {e : Epi} {fd : Int} {cb : ConnBuf} {result : RecvResult} {max cached : Nat}
    {memory : Memory} (filled : Filled cb ((e.fds fd).cb.content ++ result.chunk) cached memory)
    (readable : Readable max (e.fds fd))
    (possible : result.Possible (max - (e.fds fd).cb.content.length)) : cb.recvlen ≤ max := by
  have room := readable.room
  have length := possible.length_le
  rw [filled.recvlen, List.length_append]
  omega

def Outcome.Returns : Outcome → Prop
  | .ret cnt => -1 ≤ cnt
  | .exited => False

instance : (outcome : Outcome) → Decidable outcome.Returns
  | .ret _ => inferInstanceAs (Decidable (_ ≤ _))
  | .exited => .isFalse id

private theorem settle_returns_iff (e : Epi) (fd : Int) {memory : Memory} {cb : ConnBuf}
    {world : World}
    {parsed : ConnBuf × World × Stop} (parses : Parses sizes receiver memory cb 0 0 world parsed)
    (positive : 0 < sizes.max) (bounded : cb.recvlen ≤ sizes.max) :
    (settle e fd parsed).2.2.Returns ↔ parsed.2.2 ≠ .exited := by
  have returns := parses.returns positive le_rfl bounded
  obtain ⟨cb', world', stop⟩ := parsed
  cases stop with
  | through tmp cnt => exact iff_of_true (le_trans (by decide) returns.1) (by simp)
  | closed cnt => exact iff_of_true (le_trans (by decide) returns) (by simp)
  | failed => exact iff_of_true le_rfl (by simp)
  | exited => exact iff_of_false id (by simp)

/-- What spares the process: the end of the stream, or a buffer that is not full with an
unknown length and of which every push returns. -/
def Spared (max : Nat) (receiver : Receiver World) (world : World) (cb : ConnBuf)
    (result : RecvResult) : Prop :=
  result = .closed ∨
    ¬ BigProtocol max receiver.getPkgLen cb.cached (cb.content ++ result.chunk) ∧
      PushesReturn receiver world
        (cut max receiver.getPkgLen cb.cached (cb.content ++ result.chunk))

private theorem netRecv_returns_iff {e : Epi} {fd : Int} (sized : sizes.max ≤ sizes.pageSize)
    (readable : Readable sizes.max (e.fds fd)) {result : RecvResult}
    (possible : result.Possible (sizes.max - (e.fds fd).cb.content.length)) (now : UInt32)
    (world : World) :
    (netRecv sizes receiver e fd result now world).2.2.Returns ↔
      Spared sizes.max receiver world (e.fds fd).cb result := by
  obtain ⟨cb, sk, memory, filled, reads⟩ :=
    netRecv_cases receiver sized readable result now world
  rcases reads with ⟨closed, reads⟩ | ⟨alive, parsed, parses, reads⟩
  · rw [reads]
    exact iff_of_true le_rfl (.inl closed)
  · have bounded := filled.bounded readable possible
    have exits := parses.exited_iff bounded
    rw [Nat.cast_zero, filled.content, filled.cached] at exits
    rw [reads, settle_returns_iff _ _ parses (by have := readable.room; omega) bounded, ne_eq,
      exits, Spared, or_iff_right alive, not_or, not_not]

private theorem content_length_le (cb : ConnBuf) : cb.content.length ≤ cb.recvlen := by
  unfold ConnBuf.content
  split
  · rw [Memory.read_length]
  · exact Nat.zero_le _

private theorem compact_recvlen (cb : ConnBuf) (tmp : Nat) :
    (compact cb tmp).recvlen = cb.recvlen := by
  unfold compact
  split <;> rfl

/-- After a call that does not ask for the connection to be deleted there is room again. -/
theorem netRecv_readable {e : Epi} {fd : Int} (sized : sizes.max ≤ sizes.pageSize)
    (readable : Readable sizes.max (e.fds fd)) {result : RecvResult}
    (possible : result.Possible (sizes.max - (e.fds fd).cb.content.length)) (now : UInt32)
    (world : World) {cnt : Int}
    (returned : (netRecv sizes receiver e fd result now world).2.2 = .ret cnt)
    (kept : cnt ≠ -1) :
    Readable sizes.max ((netRecv sizes receiver e fd result now world).1.fds fd) := by
  have positive : 0 < sizes.max := by have := readable.room; omega
  obtain ⟨cb, sk, memory, filled, reads⟩ :=
    netRecv_cases receiver sized readable result now world
  rcases reads with ⟨closed, reads⟩ | ⟨alive, parsed, parses, reads⟩
  · rw [reads] at returned
    cases returned
    exact absurd rfl kept
  · have returns := parses.returns positive le_rfl (filled.bounded readable possible)
    rw [reads] at returned ⊢
    obtain ⟨cb', world', stop⟩ := parsed
    cases stop with
    | through tmp cnt' =>
        have room := returns.2
        have length := content_length_le (compact cb' tmp)
        rw [compact_recvlen] at length
        obtain ⟨needPollin, slot⟩ := queueIfFull_same sizes
          (e.modify fd ({ · with cb := cb, sk := sk })) fd
        simp only [settle, Epi.modify_same, slot]
        exact ⟨readable.notPipe, length.trans_lt room⟩
    | closed cnt' =>
        simp only [settle, Epi.release_same]
        exact ⟨by simp, by simpa [freeCb, ConnBuf.content] using positive⟩
    | failed =>
        cases returned
        exact absurd rfl kept
    | exited => cases returned

end Parse

/-! ## All reads of one connection -/

/-- One call of `net_recv`, with the plugin, the receiver of the packets and the result of
`recv` that it meets. Within a call the plugin sees each prefix length once, so a plugin
with a state of its own is one receiver a call. -/
structure NetRead (World : Type*) where
  receiver : Receiver World
  world : World
  result : RecvResult
  now : UInt32

structure ReadConn where
  epi : Epi
  /-- `net_recv` has returned -1 or ended the process. -/
  ended : Option Outcome

section Runs

variable {World : Type*} (sizes : Sizes) (fd : Int)

def NetRead.outcome (s : ReadConn) (read : NetRead World) : Epi × World × Outcome :=
  netRecv sizes read.receiver s.epi fd read.result read.now read.world

/-- The next read of the connection; -1 from `net_recv` deletes it. -/
def connStep (s : ReadConn) (read : NetRead World) : ReadConn :=
  match s.ended with
  | some _ => s
  | none =>
      let (e, _, outcome) := read.outcome sizes fd s
      match outcome with
      | .ret (-1) => ⟨e.release fd, some outcome⟩
      | .ret _ => ⟨e, none⟩
      | .exited => ⟨e, some outcome⟩

/-- A `recv` on a live connection reports at most the room in the buffer. -/
def NetRead.Admissible (s : ReadConn) (read : NetRead World) : Prop :=
  s.ended = none → read.result.Possible (sizes.max - (s.epi.fds fd).cb.content.length)

instance (s : ReadConn) (read : NetRead World) : Decidable (read.Admissible sizes fd s) :=
  inferInstanceAs (Decidable (s.ended = none → _))

def NetRead.Returns (s : ReadConn) (read : NetRead World) : Prop :=
  s.ended = none → (read.outcome sizes fd s).2.2.Returns

instance (s : ReadConn) (read : NetRead World) : Decidable (read.Returns sizes fd s) :=
  inferInstanceAs (Decidable (s.ended = none → _))

def NetRead.Spared (s : ReadConn) (read : NetRead World) : Prop :=
  s.ended = none → Net.Spared sizes.max read.receiver read.world (s.epi.fds fd).cb read.result

variable {sizes fd}

theorem connStep_readable (sized : sizes.max ≤ sizes.pageSize) (s : ReadConn)
    (read : NetRead World) (admissible : read.Admissible sizes fd s)
    (readable : s.ended = none → Readable sizes.max (s.epi.fds fd))
    (alive : (connStep sizes fd s read).ended = none) :
    Readable sizes.max ((connStep sizes fd s read).epi.fds fd) := by
  unfold connStep at alive ⊢
  cases ended : s.ended with
  | some outcome => simp [ended] at alive
  | none =>
      have room : ∀ cnt, (read.outcome sizes fd s).2.2 = .ret cnt → cnt ≠ -1 →
          Readable sizes.max ((read.outcome sizes fd s).1.fds fd) := fun cnt =>
        netRecv_readable sized (readable ended) (admissible ended) read.now read.world
      simp only [ended] at alive ⊢
      generalize read.outcome sizes fd s = after at alive room ⊢
      obtain ⟨e, world, outcome⟩ := after
      simp only at alive room ⊢
      split at alive
      · cases alive
      · rename_i cnt kept
        exact room cnt rfl fun minus => kept (by rw [minus])
      · cases alive

private theorem read_returns_iff (sized : sizes.max ≤ sizes.pageSize) {s : ReadConn}
    {read : NetRead World} (admissible : read.Admissible sizes fd s)
    (readable : s.ended = none → Readable sizes.max (s.epi.fds fd)) :
    read.Returns sizes fd s ↔ read.Spared sizes fd s :=
  imp_congr_right fun alive =>
    netRecv_returns_iff sized (readable alive) (admissible alive) read.now read.world

end Runs

def ReadConn.start (e : Epi) (fd : Int) (peer : Option (UInt16 × UInt32))
    (bcElem : Option Nat) : ReadConn :=
  ⟨e.doAddConn fd .remote peer bcElem, none⟩

/-- Whatever the client sends and however it arrives: every `net_recv` on the
connection returns if and only if every read is spared. -/
theorem net_recv_returns_iff {World : Type*} (sizes : Sizes) (positive : 0 < sizes.max)
    (sized : sizes.max ≤ sizes.pageSize) (e : Epi) (fd : Int) (peer : Option (UInt16 × UInt32))
    (bcElem : Option Nat) (reads : List (NetRead World))
    (admissible : Along (connStep sizes fd) (fun s read => read.Admissible sizes fd s)
      (.start e fd peer bcElem) reads) :
    Along (connStep sizes fd) (fun s read => read.Returns sizes fd s)
        (.start e fd peer bcElem) reads ↔
      Along (connStep sizes fd) (fun s read => read.Spared sizes fd s)
        (.start e fd peer bcElem) reads := by
  refine along_congr (fun s => s.ended = none → Readable sizes.max (s.epi.fds fd)) ?_ ?_ ?_
    admissible
  · exact fun s read admissible readable _ => connStep_readable sized s read admissible readable
  · exact fun s read => read_returns_iff sized
  · intro _
    refine ⟨by simp [ReadConn.start, Epi.doAddConn], ?_⟩
    simpa [ReadConn.start, Epi.doAddConn, FdInfo.zero, ConnBuf.zero, ConnBuf.content]
      using positive

def lines : Receiver Unit where
  getPkgLen := fun shown => if 10 ∈ shown then shown.idxOf 10 + 1 else 0
  deliver := fun world _ => (world, .taken)

theorem net_recv_returns_iff_line :
    let reads : List (NetRead Unit) :=
      [⟨lines, (), .bytes [104, 105], 0⟩, ⟨lines, (), .bytes [10, 104], 0⟩,
        ⟨lines, (), .bytes [10, 111, 107, 10, 104], 0⟩, ⟨lines, (), .closed, 1⟩]
    Along (connStep ⟨64, 64⟩ 5) (fun s read => read.Returns ⟨64, 64⟩ 5 s)
        (.start netInit 5 none none) reads ↔
      Along (connStep ⟨64, 64⟩ 5) (fun s read => read.Spared ⟨64, 64⟩ 5 s)
        (.start netInit 5 none none) reads :=
  net_recv_returns_iff ⟨64, 64⟩ (by decide) (by decide) netInit 5 none none _ (by decide +kernel)

/-- Four bytes without a line end, in two reads of a buffer of four. -/
theorem net_recv_exits_big :
    let reads : List (NetRead Unit) :=
      [⟨lines, (), .bytes [104, 105], 0⟩, ⟨lines, (), .bytes [104, 105], 0⟩]
    Along (connStep ⟨4, 4⟩ 5) (fun s read => read.Admissible ⟨4, 4⟩ 5 s)
        (.start netInit 5 none none) reads ∧
      ¬ Along (connStep ⟨4, 4⟩ 5) (fun s read => read.Returns ⟨4, 4⟩ 5 s)
        (.start netInit 5 none none) reads ∧
      (run (connStep ⟨4, 4⟩ 5) (.start netInit 5 none none) reads).ended = some .exited := by
  decide +kernel

end MpNet.Net
