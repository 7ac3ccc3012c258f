import MpNet.Net.Output
import MpNet.Shmq.Interleaving

/-!
# Sending a package to a client

`send_pkg_to_client` cuts a package into blocks and pushes them to the queue from its
worker to the parent, whose `shmq_pop` runs at any point in between. A step of the worker
is a test of the loop or a step of `shmq_push`.
-/

set_option autoImplicit false

namespace MpNet.Net.SendPackage

open Library Shmq

/-- The arguments of `send_pkg_to_client`: the session, and the bytes that `pkglen` counts. -/
structure Package where
  id : UInt32
  fd : UInt32
  pkg : List UInt8
  /-- An `int`. -/
  pkglen : Int
  low : -2147483648 ≤ pkglen
  high : pkglen < 2147483648
  length_eq : pkg.length = pkglen.toNat

/-- `cur_len`, of which the sum and the difference are a `size_t`. -/
def curLen (pageSize pkglen sendBytes : Int) : Int :=
  if u64 (pkglen - sendBytes) > u64 (u64 pageSize - sizeofShmBlock) then
    i32 (u64 (u64 pageSize - sizeofShmBlock))
  else pkglen - sendBytes

namespace Package

private theorem take_short (p : Package) (sendBytes count : Nat) :
    sizeofShmBlock + ((p.pkg.drop sendBytes).take count).length < 4294967296 := by
  have high := p.high
  rw [List.length_take, List.length_drop, p.length_eq]
  unfold sizeofShmBlock
  omega

def block (p : Package) (sendBytes count : Nat) : Message :=
  .make p.id p.fd dataBlock ((p.pkg.drop sendBytes).take count) (p.take_short sendBytes count)
    dataBlock_ne_padBlock

end Package

inductive Pc where
  | loop (sendBytes : Nat)
  | pushing (sendBytes curLen : Nat)
  | ret (result : Int)
  deriving DecidableEq

structure State where
  queue : Shmq.State
  pc : Pc

inductive Action where
  -- the worker
  | work
  -- the parent
  | pop
  | consume

def work (c : Config) (p : Package) (s : State) : State :=
  match s.pc with
  | .loop sendBytes =>
      if sendBytes < p.pkglen then
        let count := (curLen c.pageSize p.pkglen sendBytes).toNat
        ⟨callPush s.queue (p.block sendBytes count), .pushing sendBytes count⟩
      else { s with pc := .ret 0 }
  | .pushing sendBytes count =>
      match s.queue.producer with
      | .ret result =>
          if result = -1 then { s with pc := .ret (-1) }
          else { s with pc := .loop (sendBytes + count) }
      | _ => { s with queue := produce c s.queue }
  | .ret _ => s

def step (c : Config) (p : Package) (s : State) : Action → State
  | .work => work c p s
  | .pop => { s with queue := callPop s.queue }
  | .consume => { s with queue := consume c s.queue }

def start (queue : Shmq.State) : State := ⟨queue, .loop 0⟩

/-- The call has returned, or `shmq_push` has ended the process. -/
def State.Ended (s : State) : Prop := (∃ result, s.pc = .ret result) ∨ s.queue.producer = .exited

def Action.isWork : Action → Bool
  | .work => true
  | _ => false

/-! ## In the parent -/

/-- The `data_len` of `schedule_output`. -/
def dataLen (mb : ShmBlock) : Int := i32 (u64 (mb.length.toNat - sizeofShmBlock))

/-- What `schedule_output` gives to `net_send`. -/
def payload (message : Message) : List UInt8 := message.data.take (dataLen message.mb).toNat

end MpNet.Net.SendPackage
