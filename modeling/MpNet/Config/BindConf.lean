import Mathlib.Logic.Function.Basic
import MpNet.Config.StrSplit
import MpNet.Library.CString

/-!
# Loading the bind file

`load_bind_file` on the bytes of a file. An access outside of the mapping, and so one through
the address 1 that `NULL + 1` is, is a fault.
-/

set_option autoImplicit false

namespace MpNet.Config

open Library

def maxListenFds : Nat := 500

def bindConfMaxFieldNum : Nat := 4

/-- The fields of `bind_config_info_t` that the file fills. -/
structure BindConfigInfo where
  serverId : Int
  serverName : List UInt8
  bindIp : List UInt8
  bindPort : Int

/-- An entry of the table before anything is stored in it. -/
def BindConfigInfo.zeroed : BindConfigInfo where
  serverId := 0
  serverName := List.replicate 16 0
  bindIp := List.replicate 16 0
  bindPort := 0

/-- The most that Linux transfers in one `read`. -/
def maxRwCount : Nat := 0x7ffff000

/-- `mmap_config_file`: the mapping of `len + 1` bytes. `mmap` refuses a length that is not
positive as an `int`: it is 0 or near 2^64. -/
def mmapConfigFile (file : List UInt8) : Option (List UInt8) :=
  let len := i32 file.length
  if i32 (len + 1) ≤ 0 then none
  else
    let buf := List.replicate (len.toNat + 1) 0
    let bytes := file.take (min len.toNat maxRwCount)
    some ((bytes ++ buf.drop bytes.length).set len.toNat 0)

structure Load where
  buffer : List UInt8
  /-- The offset of `start`; `none` is the address 1. -/
  start : Option Nat
  /-- `bindconf.bind_num` and `bindconf.configs`, with the memory after the array. -/
  bindNum : Nat
  configs : Nat → BindConfigInfo
  /-- The indices that entries have been stored at. -/
  stored : List Nat
  /-- The messages of the bound test. -/
  warnings : Nat

namespace Load

/-- The buffer with the line terminated, and `end + 1`. -/
def cutLine (buffer : List UInt8) (start : Nat) : Option (List UInt8 × Option Nat) := do
  let stop ← (Cursor.ofOffset buffer start).forward fun byte => byte ≠ 10 && byte ≠ 0
  if (← stop.read) = 10 then
    let line ← stop.store 0
    some (line.bytes, some (stop.pos + 1))
  else some (buffer, none)

def storeFields (load : Load) : List (List UInt8) → Load
  | [id, name, ip, port] =>
      let bc := load.configs load.bindNum
      let bc := {
        serverId := u32 (atoi id)
        serverName := strncpy bc.serverName name 15
        bindIp := strncpy bc.bindIp ip 15
        bindPort := u32 (atoi port) }
      { load with
        configs := Function.update load.configs load.bindNum bc
        stored := load.stored ++ [load.bindNum]
        bindNum := load.bindNum + 1 }
  | _ => load

def parseLine (load : Load) (start : Nat) : Option Load := do
  if (← load.buffer[start]?) = 35 then some load
  else
    let (buffer, field) ← strSplit none (Cursor.ofOffset load.buffer start) bindConfMaxFieldNum
    -- The strings that `atoi` and `strncpy` read end inside the buffer.
    if ∀ offset ∈ field, 0 ∈ buffer.drop offset then
      some ({ load with buffer }.storeFields (field.map (stringAt buffer)))
    else none

/-- The test after the store, which writes a message and goes on. -/
def checkNum (load : Load) : Load :=
  if maxListenFds < load.bindNum then { load with warnings := load.warnings + 1 } else load

def round (load : Load) : Option Load := do
  let start ← load.start
  let (buffer, next) ← cutLine load.buffer start
  let load ← { load with buffer }.parseLine start
  some { load with start := next }.checkNum

end Load

inductive Outcome where
  | ended (retCode : Int) (load : Load)
  | fault (load : Load)
  | running (load : Load)

def Outcome.load : Outcome → Load
  | .ended _ load => load
  | .fault load => load
  | .running load => load

/-- The loop; the address 1 is below `buf + len`. -/
def Load.scan (len : Nat) : Nat → Load → Outcome
  | 0, load => .running load
  | rounds + 1, load =>
      if load.start.all (· < len) then
        match load.round with
        | none => .fault load
        | some load => scan len rounds load
      else .ended 0 load

/-- Before the loop; `bindconf` is zero. -/
def Load.initial (buffer : List UInt8) : Load where
  buffer := buffer
  start := some 0
  bindNum := 0
  configs := fun _ => .zeroed
  stored := []
  warnings := 0

/-- The loop on a mapping. Each round but the last takes a byte of the text. -/
def loadMapping (buf : List UInt8) : Outcome :=
  match Cursor.distance 0 buf with
  | none => .fault (.initial buf)
  | some len => (Load.initial buf).scan len (len + 1)

def loadBindFile (file : List UInt8) : Outcome :=
  (mmapConfigFile file).elim (.ended (-1) (.initial [])) loadMapping

end MpNet.Config
