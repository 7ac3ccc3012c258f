import MpNet.Library.Memory

/-!
# Blocks of the shared memory queue

The packed header `shm_block_t`, the messages that callers of `shmq_push`
build from it, and the header fields as the consumer reads them in place.
-/

set_option autoImplicit false

namespace MpNet.Shmq

open Library

/-- `sizeof (shm_head_t)`: the packed pair `head`, `tail`. -/
def sizeofShmHead : Int := 8

/-- `sizeof (shm_block_t)`: `id`, `fd`, `length` and `type`, packed. -/
def sizeofShmBlock : Nat := 13

def dataBlock : UInt8 := 0
def padBlock : UInt8 := 1
def finBlock : UInt8 := 2
def openBlock : UInt8 := 3
def closeBlock : UInt8 := 4

theorem dataBlock_ne_padBlock : dataBlock ≠ padBlock := by decide

theorem finBlock_ne_padBlock : finBlock ≠ padBlock := by decide

theorem closeBlock_ne_padBlock : closeBlock ≠ padBlock := by decide

structure ShmBlock where
  id : UInt32
  fd : UInt32
  /-- Counts the header and the data. -/
  length : UInt32
  type : UInt8
  deriving DecidableEq, Repr

def ShmBlock.header (mb : ShmBlock) : List UInt8 :=
  wordBytes mb.id ++ wordBytes mb.fd ++ wordBytes mb.length ++ [mb.type]

@[simp] theorem ShmBlock.header_length (mb : ShmBlock) : mb.header.length = sizeofShmBlock := by
  simp [header, sizeofShmBlock]

/-- The arguments of one `shmq_push`: the header and the bytes behind `data`.
The length counts both, which is the assertion of `shmq_push`, and no caller
pushes a padding block. -/
structure Message where
  mb : ShmBlock
  data : List UInt8
  length_eq : mb.length.toNat = sizeofShmBlock + data.length
  not_pad : mb.type ≠ padBlock

namespace Message

def size (message : Message) : Int := message.mb.length.toNat

def bytes (message : Message) : List UInt8 := message.mb.header ++ message.data

def make (id fd : UInt32) (type : UInt8) (data : List UInt8)
    (short : sizeofShmBlock + data.length < 4294967296) (notPad : type ≠ padBlock) : Message where
  mb := ⟨id, fd, UInt32.ofNat (sizeofShmBlock + data.length), type⟩
  data := data
  length_eq := by rw [UInt32.toNat_ofNat', Nat.mod_eq_of_lt short]
  not_pad := notPad

def control (id fd : UInt32) (type : UInt8) (notPad : type ≠ padBlock) : Message :=
  make id fd type [] (by decide) notPad

theorem bytes_length (message : Message) : (message.bytes.length : Int) = message.size := by
  simp [bytes, size, message.length_eq]

theorem bytes_type (message : Message) : message.bytes[12]? ≠ some padBlock := by
  have type : message.bytes[12]? = some message.mb.type := by
    simp [bytes, ShmBlock.header, wordBytes]
  rw [type]
  exact fun same => message.not_pad (Option.some.inj same)

theorem size_ge (message : Message) : 13 ≤ message.size := by
  have length := message.length_eq
  unfold size sizeofShmBlock at *
  omega

theorem data_length (message : Message) : (message.data.length : Int) = message.size - 13 := by
  have length := message.length_eq
  unfold size sizeofShmBlock at *
  omega

end Message

/-! ## Header fields read in place -/

def blockLength (memory : Memory) (address : Int) : Int := (memory.readWord (address + 8)).toNat

def blockType (memory : Memory) (address : Int) : UInt8 := memory (address + 12)

def blockBytes (memory : Memory) (address : Int) : List UInt8 :=
  memory.read address (blockLength memory address).toNat

section Fields

variable {memory : Memory} {address : Int}

private theorem header_fields {mb : ShmBlock} (holds : memory.Holds address mb.header) :
    memory.readWord (address + 8) = mb.length ∧ memory (address + 12) = mb.type := by
  unfold ShmBlock.header at holds
  obtain ⟨front, type⟩ := Memory.holds_append.mp holds
  obtain ⟨_, length⟩ := Memory.holds_append.mp front
  have cell := Memory.holds_iff.mp type 0 (by simp)
  simp only [List.length_append, wordBytes_length] at length cell
  exact ⟨length.readWord, by simpa using cell⟩

variable {message : Message}

theorem blockLength_of_holds (holds : memory.Holds address message.bytes) :
    blockLength memory address = message.size := by
  unfold blockLength Message.size
  rw [(header_fields (Memory.holds_append.mp holds).1).1]

theorem blockType_of_holds (holds : memory.Holds address message.bytes) :
    blockType memory address = message.mb.type :=
  (header_fields (Memory.holds_append.mp holds).1).2

theorem blockBytes_of_holds (holds : memory.Holds address message.bytes) :
    blockBytes memory address = message.bytes := by
  have length : (blockLength memory address).toNat = message.bytes.length := by
    rw [blockLength_of_holds holds, ← message.bytes_length, Int.toNat_natCast]
  unfold blockBytes
  rw [length]
  exact holds

end Fields

end MpNet.Shmq
