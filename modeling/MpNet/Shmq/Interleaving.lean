import MpNet.Library.CInt
import MpNet.Library.Run
import MpNet.Shmq.Block

/-!
# One producer and one consumer of a shared memory queue

`shmq_push` with `align_queue_head` and `shmq_pop` with `align_queue_tail`, cut
into their accesses to shared memory: each read or write of `head` or `tail`,
the write of a PAD header and each `memcpy` is one step. A program counter
carries the local variables. An action lets one side call or take one step, so
an arbitrary list of actions is an arbitrary interleaving.
-/

set_option autoImplicit false

namespace MpNet.Shmq

open Library

/-- `q->length` and the `page_size` both processes inherit. -/
structure Config where
  length : Int
  pageSize : Int

inductive PushPc where
  | idle
  | checkLength (message : Message)
  -- `align_queue_head`
  | readTailPos (message : Message)
  | readHeadPos (message : Message) (tailPos : Int)
  | compareTail (message : Message) (headPos surplus : Int)
  | resetTail (message : Message)
  | resetHead (message : Message)
  | padHead (message : Message) (surplus : Int)
  | padWrite (message : Message) (surplus pad : Int)
  | wrapHead (message : Message)
  | waitTail (message : Message) (cnt : Nat)
  | waitHead (message : Message) (cnt : Nat) (tail : Int)
  | gapTail (message : Message) (cnt : Nat)
  | gapHead (message : Message) (cnt : Nat) (tail : Int)
  | headMb (message : Message)
  | copyHeader (message : Message) (nextMb : Int)
  | copyData (message : Message) (nextMb : Int)
  | loadHead (message : Message)
  | storeHead (message : Message) (head : Int)
  | writePipe (message : Message)
  | ret (result : Int)
  | exited

inductive PopPc where
  | idle
  | emptyTail
  | emptyHead (tail : Int)
  -- `align_queue_tail`
  | alignHead
  | alignTail (head : Int)
  | padTail
  | roomTail (pad : Int)
  | padType (pad : Int)
  | wrapTail
  -- the second test and the removal
  | againTail
  | againHead (tail : Int)
  | tailMb
  | headPos (curMb : Int)
  | loadTail (curMb : Int)
  | storeTail (curMb tail : Int)
  | finish (curMb : Int)
  /-- `some` address for the result 0, `none` for the result -1. -/
  | ret (mb : Option Int)

structure State where
  memory : Memory
  head : Int
  tail : Int
  producer : PushPc
  consumer : PopPc
  /-- History: the messages whose head update has happened. -/
  published : List Message
  /-- History: how many blocks the tail update has released. -/
  popped : Nat
  /-- History: the bytes of the blocks returned by `shmq_pop`, as they stood then. -/
  returned : List (List UInt8)
  /-- History: how many times the pipe has been written. -/
  rings : Nat

inductive Action where
  | push (message : Message)
  | produce
  | pop
  | consume

/-- `do_shmq_create`. -/
def init : State where
  memory := fun _ => 0
  head := sizeofShmHead
  tail := sizeofShmHead
  producer := .idle
  consumer := .idle
  published := []
  popped := 0
  returned := []
  rings := 0

/-- `pad->type = PAD_BLOCK; pad->length = surplus; pad->id = 0`. -/
def writePad (memory : Memory) (pad surplus : Int) : Memory :=
  ((memory.write (pad + 12) [padBlock]).write (pad + 8)
    (wordBytes (UInt32.ofNat (u32 surplus).toNat))).write pad (wordBytes 0)

def callPush (s : State) (message : Message) : State :=
  match s.producer with
  | .idle | .ret _ => { s with producer := .checkLength message }
  | _ => s

def produce (c : Config) (s : State) : State :=
  match s.producer with
  | .idle | .ret _ | .exited => s
  | .checkLength m =>
      if u32 c.pageSize < m.size then { s with producer := .ret (-1) }
      else { s with producer := .readTailPos m }
  | .readTailPos m => { s with producer := .readHeadPos m s.tail }
  | .readHeadPos m tailPos =>
      let surplus := u32 (c.length - s.head)
      if surplus < m.size then
        if tailPos = sizeofShmHead then { s with producer := .exited }
        else { s with producer := .compareTail m s.head surplus }
      else { s with producer := .waitTail m 0 }
  | .compareTail m headPos surplus =>
      if s.tail > headPos then { s with producer := .resetTail m }
      else if surplus < sizeofShmBlock then { s with producer := .wrapHead m }
      else { s with producer := .padHead m surplus }
  | .resetTail m => { s with tail := sizeofShmHead, producer := .resetHead m }
  | .resetHead m => { s with head := sizeofShmHead, producer := .waitTail m 0 }
  | .padHead m surplus => { s with producer := .padWrite m surplus s.head }
  | .padWrite m surplus pad =>
      { s with memory := writePad s.memory pad surplus, producer := .wrapHead m }
  | .wrapHead m => { s with head := sizeofShmHead, producer := .waitTail m 0 }
  | .waitTail m cnt => { s with producer := .waitHead m cnt s.tail }
  | .waitHead m cnt tail =>
      if tail > s.head then { s with producer := .gapTail m cnt }
      else { s with producer := .headMb m }
  | .gapTail m cnt => { s with producer := .gapHead m cnt s.tail }
  | .gapHead m cnt tail =>
      if u32 tail < u32 (s.head + m.size + c.pageSize) then
        -- ten refusals end the loop with `cnt == 10`
        if cnt + 1 = 10 then { s with producer := .ret (-1) }
        else { s with producer := .waitTail m (cnt + 1) }
      else { s with producer := .headMb m }
  | .headMb m => { s with producer := .copyHeader m s.head }
  | .copyHeader m nextMb =>
      { s with
        memory := s.memory.write nextMb m.mb.header
        producer := if (sizeofShmBlock : Int) < m.size then .copyData m nextMb else .loadHead m }
  | .copyData m nextMb =>
      { s with
        memory := s.memory.write (nextMb + sizeofShmBlock) m.data
        producer := .loadHead m }
  | .loadHead m => { s with producer := .storeHead m s.head }
  | .storeHead m head =>
      { s with
        head := i32 (head + m.size)
        published := s.published ++ [m]
        producer := .writePipe m }
  | .writePipe _ => { s with rings := s.rings + 1, producer := .ret 0 }

def callPop (s : State) : State :=
  match s.consumer with
  | .idle | .ret _ => { s with consumer := .emptyTail }
  | _ => s

def consume (c : Config) (s : State) : State :=
  match s.consumer with
  | .idle | .ret _ => s
  | .emptyTail => { s with consumer := .emptyHead s.tail }
  | .emptyHead tail =>
      if tail = s.head then { s with consumer := .ret none } else { s with consumer := .alignHead }
  | .alignHead => { s with consumer := .alignTail s.head }
  | .alignTail head =>
      if head ≥ s.tail then { s with consumer := .againTail } else { s with consumer := .padTail }
  | .padTail => { s with consumer := .roomTail s.tail }
  | .roomTail pad =>
      if u32 (c.length - s.tail) < sizeofShmBlock then { s with consumer := .wrapTail }
      else { s with consumer := .padType pad }
  | .padType pad =>
      if blockType s.memory pad = padBlock then { s with consumer := .wrapTail }
      else { s with consumer := .againTail }
  | .wrapTail => { s with tail := sizeofShmHead, consumer := .againTail }
  | .againTail => { s with consumer := .againHead s.tail }
  | .againHead tail =>
      if tail = s.head then { s with consumer := .ret none } else { s with consumer := .tailMb }
  | .tailMb => { s with consumer := .headPos s.tail }
  -- `head_pos` is only logged, and so is a length above `page_size`
  | .headPos curMb => { s with consumer := .loadTail curMb }
  | .loadTail curMb => { s with consumer := .storeTail curMb s.tail }
  | .storeTail curMb tail =>
      { s with
        tail := i32 (tail + blockLength s.memory curMb)
        popped := s.popped + 1
        consumer := .finish curMb }
  | .finish curMb =>
      { s with
        returned := s.returned ++ [blockBytes s.memory curMb]
        consumer := .ret (some curMb) }

def step (c : Config) (s : State) : Action → State
  | .push message => callPush s message
  | .produce => produce c s
  | .pop => callPop s
  | .consume => consume c s

/-- The blocks published and not yet released. -/
def State.pending (s : State) : List Message := s.published.drop s.popped

/-- The bytes that the next step of the producer writes, as an address and a length. -/
def produceWrites (s : State) : Option (Int × Int) :=
  match s.producer with
  | .padWrite _ _ pad => some (pad, sizeofShmBlock)
  | .copyHeader _ nextMb => some (nextMb, sizeofShmBlock)
  | .copyData m nextMb => some (nextMb + sizeofShmBlock, m.data.length)
  | _ => none

/-- The bytes of a block or PAD header that the next step of the consumer reads. -/
def consumeReads (s : State) : Option (Int × Int) :=
  match s.consumer with
  | .padType pad => some (pad, sizeofShmBlock)
  | .headPos curMb | .storeTail curMb _ => some (curMb, sizeofShmBlock)
  | .finish curMb => some (curMb, blockLength s.memory curMb)
  | _ => none

end MpNet.Shmq
