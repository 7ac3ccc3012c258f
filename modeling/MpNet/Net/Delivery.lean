import MpNet.Net.FramingProperties
import MpNet.Shmq.CapacityProperties

/-!
# From `net_recv` in the parent to the queue of the worker

`net_loop (-1, page_size, 1)` reads a connection again and again, and `net_recv` hands each
packet to `shmq_push`. The worker pops while a call runs and between the calls.
-/

set_option autoImplicit false

namespace MpNet.Net.Delivery

open Library Shmq

/-- The steps of both sides of `recvq`, by the number of the call. -/
structure Schedule where
  before : Nat → List Shmq.Action
  /-- While the call runs, which goes on to its end after that. -/
  during : Nat → List Shmq.Action
  noPush : ∀ call, ∀ action ∈ before call ++ during call, action.NoPush

structure Channel where
  recvq : Shmq.State
  pushes : Nat
  /-- History: a call found less than three pages free. -/
  crowded : Bool

instance (c : Config) (s : Shmq.State) : Decidable (s.Roomy c) := inferInstanceAs (Decidable (_ ≤ _))

def block (id : UInt32) (fd : Int) (packet : List UInt8)
    (short : sizeofShmBlock + packet.length < 4294967296) : Message :=
  .make id (UInt32.ofNat (u32 fd).toNat) dataBlock packet short dataBlock_ne_padBlock

def push (c : Config) (schedule : Schedule) (w : Channel) (message : Message) : Channel :=
  let recvq := run (Shmq.step c) w.recvq (schedule.before w.pushes)
  { recvq := run (Shmq.step c) (callPush recvq message)
      (schedule.during w.pushes ++ List.replicate 53 .produce)
    pushes := w.pushes + 1
    crowded := w.crowded || !decide (recvq.Roomy c) }

/-- The call of `shmq_push` in `net_recv`. -/
def deliver (c : Config) (schedule : Schedule) (id : UInt32) (fd : Int) (w : Channel)
    (packet : List UInt8) : Channel × Delivery :=
  if short : sizeofShmBlock + packet.length < 4294967296 then
    let w := push c schedule w (block id fd packet short)
    match w.recvq.producer with
    | .ret result => (w, if result = 0 then .taken else .refused)
    | _ => (w, .exited)
  -- longer than any page
  else (w, .refused)

def receiver (c : Config) (schedule : Schedule) (framer : Framer UInt8) (id : UInt32) (fd : Int) :
    Receiver Channel where
  getPkgLen := framer.lengthOf
  deliver := deliver c schedule id fd

/-- `max` is `page_size`. -/
def sizes (c : Config) : Sizes := ⟨c.pageSize.toNat, c.pageSize.toNat⟩

structure State where
  epi : Epi
  channel : Channel
  /-- History: the bytes of the stream so far. -/
  received : List UInt8
  /-- `net_recv` has returned -1 or ended the process. -/
  ended : Option Outcome

def start (e : Epi) (fd : Int) (peer : Option (UInt16 × UInt32)) (bcElem : Option Nat)
    (recvq : Shmq.State) : State :=
  ⟨e.doAddConn fd .remote peer bcElem, ⟨recvq, 0, false⟩, [], none⟩

/-- The connection after a call of `net_recv`, which drops it by returning -1. -/
def settle (fd : Int) (received : List UInt8) : Epi × Channel × Outcome → State
  | (e, channel, .ret cnt) =>
      if cnt = -1 then ⟨e.release fd, channel, received, some (.ret cnt)⟩
      else ⟨e, channel, received, none⟩
  | (e, channel, .exited) => ⟨e, channel, received, some .exited⟩

section Step

variable (c : Config) (schedule : Schedule) (framer : Framer UInt8) (fd : Int)

def step (s : State) (arrival : RecvResult × UInt32) : State :=
  let received := s.received ++ arrival.1.chunk
  match s.ended with
  | some _ => { s with received := received }
  | none =>
      settle fd received
        (netRecv (sizes c) (receiver c schedule framer (s.epi.fds fd).id fd) s.epi fd arrival.1
          arrival.2 s.channel)

/-- A `recv` on a live connection reports at most `max - recvlen` bytes. -/
def Admissible (s : State) (arrival : RecvResult × UInt32) : Prop :=
  s.ended = none → arrival.1.Within ((sizes c).max - (s.epi.fds fd).cb.recvlen)

instance (s : State) (arrival : RecvResult × UInt32) : Decidable (Admissible c fd s arrival) :=
  inferInstanceAs (Decidable (s.ended = none → _))

end Step

/-- One DATA_BLOCK of the connection for each packet. -/
def Carry (id : UInt32) (fd : Int) (packets : List (List UInt8)) (blocks : List Message) : Prop :=
  blocks.map Message.data = packets ∧
    ∀ m ∈ blocks, m.mb.id = id ∧ m.mb.fd = UInt32.ofNat (u32 fd).toNat ∧ m.mb.type = dataBlock

/-- The connection is kept, and the queue has got the packets. -/
def Delivered (id : UInt32) (fd : Int) (base : List Message) (packets : List (List UInt8))
    (s : State) : Prop :=
  s.ended = none ∧ ∃ blocks, s.channel.recvq.published = base ++ blocks ∧ Carry id fd packets blocks

end MpNet.Net.Delivery
