import MpNet.Config.IniParser

/-!
# Writing a dictionary as a configuration file

`iniparser_dump_ini` with the functions that list the sections and the keys of a section.
What is printed is the list of its bytes.
-/

set_option autoImplicit false

namespace MpNet.Config

open Library

/-- `strchr(key, ':') == NULL`, for a slot that is in use. -/
def Slot.isSection (slot : Slot) : Bool := slot.key.any fun key => decide (58 ∉ key)

def iniparserGetnsec (d : Dictionary) : Nat := d.slots.countP Slot.isSection

/-- The loop of `iniparser_getsecname`; `n` sections are still passed over. -/
def secnameFrom : List Slot → Nat → Option (List UInt8)
  | [], _ => none
  | slot :: slots, n =>
      if slot.isSection then
        match n with
        | 0 => slot.key
        | n + 1 => secnameFrom slots n
      else secnameFrom slots n

def iniparserGetsecname (d : Dictionary) (n : Nat) : Option (List UInt8) := secnameFrom d.slots n

/-- `!strncmp(key, keym, seclen + 1)`. -/
def Slot.inSection (slot : Slot) (s : List UInt8) : Bool :=
  slot.key.any fun key => (s ++ [58]).isPrefixOf key

/-- `keym` holds the section, a colon and the terminator. -/
def iniparserGetsecnkeys (d : Dictionary) (s : List UInt8) : Option Nat :=
  if iniparserFindEntry d s then
    if s.length + 1 ≤ asciiLineSz then some (d.slots.countP (·.inSection s)) else none
  else some 0

/-- `"%-30s = %s\n"`. -/
def keyLine (key val : List UInt8) : List UInt8 :=
  key ++ List.replicate (30 - key.length) 32 ++ literal " = " ++ val

def dumpSlot (s : List UInt8) (slot : Slot) : List UInt8 :=
  if slot.inSection s then
    keyLine ((slot.key.getD []).drop (s.length + 1)) (slot.val.getD []) ++ [10]
  else []

/-- `keym` is as long here. -/
def iniparserDumpsectionIni (d : Dictionary) (s : List UInt8) : Option (List UInt8) :=
  if iniparserFindEntry d s then
    if s.length + 1 ≤ asciiLineSz then
      some ([10] ++ (91 :: s ++ [93]) ++ [10] ++ d.slots.flatMap (dumpSlot s) ++ [10])
    else none
  else some []

/-- `"%s = %s\n"`, which prints a null pointer as `(null)`. -/
def dumpPlain (slot : Slot) : List UInt8 :=
  match slot.key with
  | none => []
  | some key => key ++ literal " = " ++ slot.val.getD (literal "(null)") ++ [10]

def iniparserDumpIni (d : Dictionary) : Option (List UInt8) :=
  let nsec := iniparserGetnsec d
  if nsec < 1 then some (d.slots.flatMap dumpPlain)
  else do
    let sections ← (List.range nsec).foldlM (fun out i => do
      let section_ ← (iniparserGetsecname d i).elim (some []) (iniparserDumpsectionIni d)
      some (out ++ section_)) []
    some (sections ++ [10])

end MpNet.Config
