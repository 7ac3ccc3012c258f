import MpNet.Net.Delivery
import MpNet.Shmq.PushCallProperties

/-!
# Packets that are too long for a block

`net_recv` accepts packets of up to `page_size` bytes and `shmq_push` blocks of up to
`page_size` bytes, header included. With free space in the queue a packet is refused
exactly when it leaves no room for the header.
-/

set_option autoImplicit false

namespace MpNet.Net.Delivery

open Library Shmq

variable {c : Config} {schedule : Schedule} {framer : Framer UInt8} {id : UInt32} {fd : Int}

/-- The parent is between two calls of `shmq_push` on a queue that began empty. -/
def Ready (c : Config) (w : Channel) : Prop :=
  (∃ actions, w.recvq = run (Shmq.step c) Shmq.init actions) ∧ w.recvq.producer.isBetween = true

def Fits (c : Config) (packet : List UInt8) : Prop := (packet.length + 13 : Int) ≤ c.pageSize

/-! ## One call of `shmq_push` -/

/-- The call accepts what fits a page when three pages are free. -/
theorem roomy_accepting (small : c.length < 2147483648) {s : Shmq.State}
    {actions : List Shmq.Action} (reached : s = run (Shmq.step c) Shmq.init actions) (roomy : s.Roomy c)
    (between : s.producer.isBetween = true) {message : Message} (fits : message.size ≤ c.pageSize)
    {rest : List Shmq.Action} (noPush : ∀ action ∈ rest, action.NoPush) :
    Accepting c message s.published (run (Shmq.step c) (callPush s message) rest) := by
  have size := message.size_ge
  have none : 0 ≤ total s.pending := total_nonneg _
  have sized : c.Fits := by
    unfold Shmq.State.Roomy sizeofShmHead at roomy
    exact ⟨by omega, by omega, small⟩
  obtain ⟨inv, snug⟩ := snug_run sized actions
  rw [← reached] at inv snug
  have called : Accepting c message s.published (callPush s message) := by
    cases pc : s.producer <;> simp [pc, PushPc.isBetween] at between
    all_goals
      simp only [callPush, pc]
      exact ⟨rfl, rfl, roomy⟩
  exact run_accepting sized (inv_step sized inv (.push message))
    (snug_step sized inv snug (.push message)) fits called noPush

private theorem during_noPush (schedule : Schedule) (call : Nat) :
    ∀ action ∈ schedule.during call ++ List.replicate 53 .produce, action.NoPush := by
  intro action member
  rcases List.mem_append.mp member with inside | added
  · exact schedule.noPush call action (List.mem_append_right _ inside)
  · rw [List.eq_of_mem_replicate added]
    trivial

private theorem during_ends (schedule : Schedule) (call : Nat) :
    53 ≤ (schedule.during call ++ List.replicate 53 Action.produce).countP Action.isProduce := by
  have last : (List.replicate 53 Action.produce).countP Action.isProduce = 53 := rfl
  rw [List.countP_append, last]
  omega

private theorem push_reached {w : Channel} {actions : List Shmq.Action}
    (reached : w.recvq = run (Shmq.step c) Shmq.init actions) (message : Message) :
    ∃ later, (push c schedule w message).recvq = run (Shmq.step c) Shmq.init later := by
  refine ⟨actions ++ schedule.before w.pushes ++ .push message ::
    (schedule.during w.pushes ++ List.replicate 53 .produce), ?_⟩
  rw [run_append, run_append, ← reached, run_cons]
  rfl

private theorem push_pushed (small : c.length < 2147483648) (page : 0 < c.pageSize)
    (short : c.pageSize < 2147483648) {w : Channel} (ready : Ready c w) (message : Message)
    (free : (push c schedule w message).crowded = false) :
    let w' := push c schedule w message
    w.crowded = false ∧
      (w'.recvq.producer = .ret 0 ∧ message.size ≤ c.pageSize ∧
          w'.recvq.published = w.recvq.published ++ [message] ∧ Ready c w' ∨
        w'.recvq.producer = .ret (-1) ∧ c.pageSize < message.size) := by
  intro w'
  obtain ⟨⟨actions, reached⟩, between⟩ := ready
  have before : ∀ action ∈ schedule.before w.pushes, action.NoPush := fun action member =>
    schedule.noPush w.pushes action (List.mem_append_left _ member)
  obtain ⟨idle, published⟩ := run_between c between before
  rw [← idle] at between
  obtain ⟨clear, roomy⟩ : w.crowded = false ∧
      (run (Shmq.step c) w.recvq (schedule.before w.pushes)).Roomy c := by
    simpa [push] using free
  have pushed : Pushed c message _ w'.recvq :=
    run_pushed between (during_noPush schedule w.pushes) (during_ends schedule w.pushes)
  rw [published] at pushed
  have page32 : u32 c.pageSize = c.pageSize := u32_of_range page.le (by omega)
  refine ⟨clear, ?_⟩
  by_cases fits : message.size ≤ c.pageSize
  · left
    have called : run (Shmq.step c) w.recvq (schedule.before w.pushes) =
        run (Shmq.step c) Shmq.init (actions ++ schedule.before w.pushes) := by
      rw [run_append, ← reached]
    have accepting : Accepting c message _ w'.recvq :=
      roomy_accepting small called roomy between fits (during_noPush schedule w.pushes)
    cases pushed with
    | accepted returned _ added =>
        exact ⟨returned, fits, added, push_reached reached message, by rw [returned]; rfl⟩
    | refused returned _ =>
        simp only [Accepting, returned] at accepting
        exact absurd accepting.1 (by decide)
    | exited exits _ => simp only [Accepting, exits] at accepting
  · right
    cases pushed with
    | accepted _ page _ => omega
    | refused returned _ => exact ⟨returned, by omega⟩
    | exited _ page => omega

/-! ## The packets of one read -/

private theorem carry_nil : Carry id fd [] [] := ⟨rfl, by simp⟩

theorem Carry.append {first second : List (List UInt8)} {blocks more : List Message}
    (carry : Carry id fd first blocks) (next : Carry id fd second more) :
    Carry id fd (first ++ second) (blocks ++ more) := by
  refine ⟨by rw [List.map_append, carry.1, next.1], fun m member => ?_⟩
  exact (List.mem_append.mp member).elim (carry.2 m) (next.2 m)

/-- The parameters of the server are `int`s. -/
structure Bounded (c : Config) : Prop where
  length : c.length < 2147483648
  page : 0 < c.pageSize
  small : c.pageSize < 2147483648

private theorem deliver_push {w w' : Channel} {packet : List UInt8} {delivery : Delivery}
    (delivers : deliver c schedule id fd w packet = (w', delivery)) :
    (∃ short, w' = push c schedule w (block id fd packet short) ∧
      ∀ result, w'.recvq.producer = .ret result →
        delivery = if result = 0 then .taken else .refused) ∨
      4294967296 ≤ sizeofShmBlock + packet.length ∧ w' = w ∧ delivery = .refused := by
  unfold deliver at delivers
  split at delivers
  · rename_i short
    refine .inl ⟨short, ?_⟩
    simp only at delivers
    split at delivers
    · rename_i result returned
      cases delivers
      refine ⟨rfl, fun other same => ?_⟩
      cases returned.symm.trans same
      rfl
    · rename_i unreturned
      cases delivers
      exact ⟨rfl, fun result returned => (unreturned result returned).elim⟩
  · cases delivers
    exact .inr ⟨by omega, rfl, rfl⟩

private theorem deliver_crowded {w w' : Channel} {packet : List UInt8} {delivery : Delivery}
    (delivers : deliver c schedule id fd w packet = (w', delivery)) (free : w'.crowded = false) :
    w.crowded = false := by
  rcases deliver_push delivers with ⟨short, rfl, _⟩ | ⟨_, rfl, _⟩
  · simp only [push, Bool.or_eq_false_iff] at free
    exact free.1
  · exact free

private theorem deliver_stays {w w' : Channel} {packet : List UInt8} {delivery : Delivery}
    (delivers : deliver c schedule id fd w packet = (w', delivery)) (crowded : w.crowded = true) :
    w'.crowded = true := by
  by_contra free
  have clear := deliver_crowded delivers (Bool.eq_false_of_not_eq_true free)
  exact Bool.false_ne_true (clear.symm.trans crowded)

private theorem deliver_cases (bounded : Bounded c) {w w' : Channel} {packet : List UInt8}
    {delivery : Delivery} (delivers : deliver c schedule id fd w packet = (w', delivery))
    (ready : Ready c w) (free : w'.crowded = false) :
    (delivery = .taken ∧ Fits c packet ∧ Ready c w' ∧
        ∃ m, w'.recvq.published = w.recvq.published ++ [m] ∧ Carry id fd [packet] [m]) ∨
      delivery = .refused ∧ ¬ Fits c packet := by
  obtain ⟨length, page, small⟩ := bounded
  unfold Fits
  rcases deliver_push delivers with ⟨short, rfl, result⟩ | ⟨long, rfl, rfl⟩
  · have size : (packet.length : Int) = (block id fd packet short).size - 13 :=
      (block id fd packet short).data_length
    obtain ⟨_, ⟨returned, fits, published, ready'⟩ | ⟨returned, above⟩⟩ :=
      push_pushed length page small ready (block id fd packet short) free
    · refine .inl ⟨by simpa using result 0 returned, by omega, ready', _, published, rfl, ?_⟩
      simp [block, Message.make]
    · exact .inr ⟨by simpa using result (-1) returned, by omega⟩
  · refine .inr ⟨rfl, ?_⟩
    unfold sizeofShmBlock at long
    omega

private theorem takes_crowded {w w' : Channel} {packets : List (List UInt8)}
    (takes : Takes (receiver c schedule framer id fd) w packets w')
    (free : w'.crowded = false) : w.crowded = false := by
  induction takes with
  | nil => exact free
  | cons delivers _ ih => exact deliver_crowded delivers (ih free)

private theorem takes_carry (bounded : Bounded c) {w w' : Channel} {packets : List (List UInt8)}
    (takes : Takes (receiver c schedule framer id fd) w packets w')
    (free : w'.crowded = false) (ready : Ready c w) :
    Ready c w' ∧ (∀ packet ∈ packets, Fits c packet) ∧
      ∃ blocks, w'.recvq.published = w.recvq.published ++ blocks ∧ Carry id fd packets blocks := by
  induction takes with
  | nil => exact ⟨ready, by simp, [], by simp, carry_nil⟩
  | cons delivers rest ih =>
      obtain ⟨_, fits, ready, m, published, carry⟩ | ⟨refused, _⟩ :=
        deliver_cases bounded delivers ready (takes_crowded rest free)
      · obtain ⟨ready', others, blocks, published', carry'⟩ := ih free ready
        refine ⟨ready', List.forall_mem_cons.mpr ⟨fits, others⟩, m :: blocks, ?_, carry.append carry'⟩
        rw [published', published, List.append_assoc]
        rfl
      · cases refused

/-! ## The reads of a connection -/

/-- What the reads have come to as long as the queue had free space. -/
def Inv (c : Config) (framer : Framer UInt8) (id : UInt32) (fd : Int) (base : List Message)
    (s : State) : Prop :=
  match s.ended with
  | none =>
      Ready c s.channel ∧ (s.epi.fds fd).id = id ∧
        ∃ packets rest, framer.Consumes (sizes c).max s.received packets rest ∧
          Buffered framer (sizes c) (s.epi.fds fd) rest ∧ (∀ packet ∈ packets, Fits c packet) ∧
          ∃ blocks, s.channel.recvq.published = base ++ blocks ∧ Carry id fd packets blocks
  | some outcome =>
      (∃ packets packet rest, framer.Consumes (sizes c).max s.received (packets ++ [packet]) rest ∧
          ¬ Fits c packet) ∨
        ∃ packets ending, framer.Ends (sizes c).max s.received packets ending ∧
          (outcome = .exited ∧ ending = .stuck ∨ outcome = .ret (-1) ∧ ending = .malformed)

theorem start_inv (bounded : Bounded c) (e : Epi) (fd : Int) (peer : Option (UInt16 × UInt32))
    (bcElem : Option Nat) {recvq : Shmq.State} (ready : Ready c ⟨recvq, 0, false⟩) :
    Inv c framer ((e.doAddConn fd .remote peer bcElem).fds fd).id fd recvq.published
      (start e fd peer bcElem recvq) := by
  have page := bounded.page
  have positive : 0 < (sizes c).max := by
    simp only [sizes]
    omega
  exact ⟨ready, rfl, [], [], framer.consumes_refl _ _, doAddConn_buffered positive e fd peer bcElem,
    by simp, [], by simp [start], carry_nil⟩

@[simp] theorem settle_channel (received : List UInt8) (result : Epi × Channel × Outcome) :
    (settle fd received result).channel = result.2.1 := by
  obtain ⟨e, channel, outcome⟩ := result
  cases outcome with
  | exited => rfl
  | ret cnt =>
      simp only [settle]
      split <;> rfl

private theorem settle_inv (bounded : Bounded c) {base : List Message} {shown received : List UInt8}
    {earlier : List (List UInt8)} {blocks : List Message} {w : Channel} {slot : FdInfo}
    {result : Epi × Channel × Outcome}
    (reached : Received framer (receiver c schedule framer slot.id fd) (sizes c) slot fd shown w
      result)
    (ready : Ready c w) (consumes : framer.Consumes (sizes c).max received earlier shown)
    (fits : ∀ packet ∈ earlier, Fits c packet) (published : w.recvq.published = base ++ blocks)
    (carry : Carry slot.id fd earlier blocks) (free : result.2.1.crowded = false) :
    Inv c framer slot.id fd base (settle fd received result) := by
  obtain ⟨e, channel, outcome⟩ := result
  obtain ⟨packets, middle, takes, ending⟩ := reached
  simp only at free ending
  rcases ending with ⟨packet, rest, delivery, next, delivers, returns⟩ | ⟨rfl, ending⟩
  · have clear := deliver_crowded delivers free
    obtain ⟨ready', _⟩ := takes_carry bounded takes clear ready
    rcases deliver_cases bounded delivers ready' free with ⟨rfl, _⟩ | ⟨rfl, long⟩
    · cases returns
    · cases returns
      have all := consumes.trans next
      rw [← List.append_assoc] at all
      exact .inl ⟨earlier ++ packets, packet, rest, all, long⟩
  · obtain ⟨ready', others, more, published', carry'⟩ := takes_carry bounded takes free ready
    cases outcome with
    | exited => exact .inr ⟨_, .stuck, consumes.ends ending, .inl ⟨rfl, rfl⟩⟩
    | ret cnt =>
        rcases ending with ⟨counted, rest, next, buffered, same⟩ | ⟨rfl, malformed⟩
        · have kept : settle fd received (e, channel, .ret cnt) = ⟨e, channel, received, none⟩ :=
            if_neg (by omega)
          rw [kept]
          refine ⟨ready', same, earlier ++ packets, rest, consumes.trans next, buffered, ?_,
            blocks ++ more, ?_, carry.append carry'⟩
          · exact List.forall_mem_append.mpr ⟨fits, others⟩
          · rw [published', published, List.append_assoc]
        · exact .inr ⟨_, .malformed, consumes.ends malformed, .inr ⟨rfl, rfl⟩⟩

private theorem step_inv (bounded : Bounded c) (isInt : IsInt framer) {base : List Message}
    {s : State}
    (arrival : RecvResult × UInt32) (admissible : Admissible c fd s arrival)
    (inv : s.channel.crowded = false → Inv c framer id fd base s)
    (free : (step c schedule framer fd s arrival).channel.crowded = false) :
    Inv c framer id fd base (step c schedule framer fd s arrival) := by
  have small := bounded.small
  unfold step at free ⊢
  cases ended : s.ended with
  | some outcome =>
      simp only [ended] at free
      have before := inv free
      simp only [Inv, ended] at before ⊢
      rcases before with ⟨packets, packet, rest, consumes, long⟩ | ⟨packets, ending, ends, as⟩
      · exact .inl ⟨packets, packet, _, consumes.append _, long⟩
      · exact .inr ⟨packets, ending, ends.append _, as⟩
  | none =>
      simp only [ended, settle_channel] at free ⊢
      have kept : s.channel.crowded = false := by
        by_contra crowded
        have later := netRecv_preserves (sizes c) (receiver c schedule framer (s.epi.fds fd).id fd)
          (fun w => w.crowded = true) deliver_stays s.epi fd arrival.1 arrival.2
          (Bool.eq_true_of_not_eq_false crowded)
        exact Bool.false_ne_true (free.symm.trans later)
      have before := inv kept
      simp only [Inv, ended] at before
      obtain ⟨ready, rfl, packets, rest, consumes, buffered, fits, blocks, published, carry⟩ :=
        before
      have within := admissible ended
      rw [buffered.recvlen] at within
      have asks : (receiver c schedule framer (s.epi.fds fd).id fd).getPkgLen = framer.lengthOf := rfl
      exact settle_inv bounded (netRecv_received asks le_rfl (by simp only [sizes]; omega) isInt
        buffered within arrival.2 s.channel) ready (consumes.append _) fits published carry free

private theorem step_received (s : State) (arrival : RecvResult × UInt32) :
    (step c schedule framer fd s arrival).received = s.received ++ arrival.1.chunk := by
  unfold step
  cases s.ended with
  | some outcome => rfl
  | none =>
      simp only
      generalize netRecv (sizes c) _ s.epi fd arrival.1 arrival.2 s.channel = result
      obtain ⟨e, channel, outcome⟩ := result
      cases outcome with
      | exited => rfl
      | ret cnt =>
          simp only [settle]
          split <;> rfl

theorem run_received (s : State) (arrivals : List (RecvResult × UInt32)) :
    (run (step c schedule framer fd) s arrivals).received = s.received ++ stream arrivals := by
  induction arrivals generalizing s with
  | nil => simp [stream]
  | cons arrival rest ih => simp [ih, step_received, stream]

/-- A stream of whole packets and the beginning of another is delivered as far as it has
come if and only if its packets leave room for the header. -/
theorem Inv.delivered_iff {base : List Message} {s : State} (inv : Inv c framer id fd base s)
    {rest : List UInt8}
    (whole : (framer.parse (sizes c).max s.received).2 = .leftover rest) :
    Delivered id fd base (framer.parse (sizes c).max s.received).1 s ↔
      ∀ packet ∈ (framer.parse (sizes c).max s.received).1, Fits c packet := by
  unfold Inv at inv
  split at inv
  · rename_i ended
    obtain ⟨_, _, packets, shown, consumes, buffered, fits, blocks, published, carry⟩ := inv
    have parsed := consumes []
    simp only [List.append_nil, buffered.waiting.parse] at parsed
    rw [parsed]
    exact ⟨fun _ => fits, fun _ => ⟨ended, blocks, published, carry⟩⟩
  · rename_i outcome ended
    have dropped : ¬ Delivered id fd base (framer.parse (sizes c).max s.received).1 s := fun kept =>
      by simp [kept.1] at ended
    refine iff_of_false dropped fun fits => ?_
    rcases inv with ⟨packets, packet, shown, consumes, long⟩ | ⟨packets, ending, ends, as⟩
    · have parsed := consumes []
      rw [List.append_nil] at parsed
      exact long (fits packet (by simp [parsed]))
    · have parsed := ends []
      rw [List.append_nil] at parsed
      rw [parsed] at whole
      simp only at whole
      subst whole
      simp at as

/-! ## Main result -/

/-- A client stream of packets that pass the length test of `net_recv`, cut in any way, with
any steps of the worker, on a queue that began empty and has three free pages at each
call: every packet goes into the queue as one DATA_BLOCK, in order, and the connection is
kept, if and only if every packet is at most a page without the header. -/
theorem net_recv_delivers_iff (c : Config) (bounded : Bounded c) (schedule : Schedule)
    (framer : Framer UInt8) (isInt : IsInt framer) (e : Epi) (fd : Int)
    (peer : Option (UInt16 × UInt32)) (bcElem : Option Nat) (earlier : List Shmq.Action)
    (between : (run (Shmq.step c) Shmq.init earlier).producer.isBetween = true)
    (arrivals : List (RecvResult × UInt32)) (rest : List UInt8) :
    let recvq := run (Shmq.step c) Shmq.init earlier
    let first := start e fd peer bcElem recvq
    let s := run (step c schedule framer fd) first arrivals
    let parsed := framer.parse c.pageSize.toNat (stream arrivals)
    Along (step c schedule framer fd) (Admissible c fd) first arrivals →
      s.channel.crowded = false → parsed.2 = .leftover rest →
      (Delivered (first.epi.fds fd).id fd recvq.published parsed.1 s ↔
        ∀ packet ∈ parsed.1, (packet.length + 13 : Int) ≤ c.pageSize) := by
  intro recvq first s parsed admissible free whole
  have received : s.received = stream arrivals := run_received first arrivals
  have ready : Ready c ⟨recvq, 0, false⟩ := ⟨⟨earlier, rfl⟩, between⟩
  have inv : s.channel.crowded = false →
      Inv c framer (first.epi.fds fd).id fd recvq.published s :=
    run_preserves_along (fun s => s.channel.crowded = false →
        Inv c framer (first.epi.fds fd).id fd recvq.published s)
      (fun s arrival admissible inv => step_inv bounded isInt arrival admissible inv)
      (fun _ => start_inv bounded e fd peer bcElem ready) admissible
  have parses : (framer.parse (sizes c).max s.received).2 = .leftover rest := by
    rw [received]
    exact whole
  have delivered := (inv free).delivered_iff parses
  rw [received] at delivered
  exact delivered

def lengthFirst : Framer UInt8 where
  lengthOf
    | [] => 0
    | length :: _ => length.toNat
  empty := rfl
  stable shown more known := by
    cases shown with
    | nil => exact absurd rfl known
    | cons length shown => rfl

private theorem lengthFirst_isInt : IsInt lengthFirst := by
  intro shown
  cases shown with
  | nil => decide
  | cons length rest =>
      have small := length.toNat_lt
      simp only [lengthFirst]
      omega

def popping : Schedule where
  before _ := .pop :: List.replicate 11 .consume
  during _ := []
  noPush _ action member := by
    rcases List.mem_cons.mp (List.append_nil _ ▸ member) with rfl | inside
    · trivial
    · rw [List.eq_of_mem_replicate inside]
      trivial

/-- Two packets cut in the middle of the second. -/
theorem net_recv_delivers_two :
    let first := start netInit 5 none (some 0) Shmq.init
    let arrivals := [(RecvResult.bytes [3, 7, 8, 2], 0), (.bytes [9], 1)]
    let s := run (step ⟨200, 16⟩ popping lengthFirst 5) first arrivals
    Delivered (first.epi.fds 5).id 5 [] (lengthFirst.parse 16 [3, 7, 8, 2, 9]).1 s ↔
      ∀ packet ∈ (lengthFirst.parse 16 [3, 7, 8, 2, 9]).1, (packet.length + 13 : Int) ≤ 16 :=
  net_recv_delivers_iff ⟨200, 16⟩ ⟨by decide, by decide, by decide⟩ popping lengthFirst
    lengthFirst_isInt netInit 5 none (some 0) [] rfl _ [] (by decide +kernel) (by decide +kernel)
    (by simp [stream, RecvResult.chunk, Framer.parse, lengthFirst])

/-- A packet of `page_size` bytes passes the length test and is refused by `shmq_push`. -/
theorem net_recv_drops_page :
    let packet : List UInt8 := [16, 1, 2, 3, 4, 5, 6, 7, 8, 9, 10, 11, 12, 13, 14, 15]
    let first := start netInit 5 none (some 0) Shmq.init
    let s := run (step ⟨200, 16⟩ popping lengthFirst 5) first [(.bytes packet, 0)]
    (lengthFirst.parse 16 packet).1 = [packet] ∧ s.channel.crowded = false ∧
      s.ended = some (.ret (-1)) ∧ s.channel.recvq.published.length = 0 := by
  decide +kernel

end MpNet.Net.Delivery
