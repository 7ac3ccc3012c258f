import MpNet.Config.Dictionary
import MpNet.Library.Scanf

/-!
# Reading the configuration file

`iniparser_line` and `iniparser_load` on the bytes of a file. A read or a write beside a
buffer of `ASCIILINESZ + 1` bytes has no result in a function and ends the load as a fault.
-/

set_option autoImplicit false

namespace MpNet.Config

open Library

def asciiLineSz : Nat := 1024

def strlwc (s : List UInt8) : List UInt8 := lowercase (s.take asciiLineSz)

/-- The copy without the leading blanks must fit in the buffer. -/
def strstrip (s : List UInt8) : Option (List UInt8) :=
  if (s.dropWhile isspace).length ≤ asciiLineSz then some (strip s) else none

/-! ## One line -/

inductive LineStatus where
  | error
  | empty
  | comment
  | section (name : List UInt8)
  | value (key val : List UInt8)
  deriving DecidableEq

-- "[%[^]]"
def sectionFormat : List Directive := [.char 91, .scanset (· ≠ 93)]

-- "%[^=] = \"%[^\"]\""
def doubleQuoted : List Directive :=
  [.scanset (· ≠ 61), .space, .char 61, .space, .char 34, .scanset (· ≠ 34), .char 34]

-- "%[^=] = '%[^\']'"
def singleQuoted : List Directive :=
  [.scanset (· ≠ 61), .space, .char 61, .space, .char 39, .scanset (· ≠ 39), .char 39]

-- "%[^=] = %[^;#]"
def plainValue : List Directive :=
  [.scanset (· ≠ 61), .space, .char 61, .space, .scanset fun byte => byte ≠ 59 && byte ≠ 35]

-- "%[^=] = %[;#]"
def commentOnly : List Directive :=
  [.scanset (· ≠ 61), .space, .char 61, .space, .scanset fun byte => byte = 59 || byte = 35]

-- "%[^=] %[=]"
def equalOnly : List Directive := [.scanset (· ≠ 61), .space, .scanset (· = 61)]

/-- `sscanf(line, format, key, value) == 2`. -/
def scanPair (format : List Directive) (line : List UInt8) : Option (List UInt8 × List UInt8) :=
  match sscanf format line with
  | [key, value] => some (key, value)
  | _ => none

/-- `sect` is what `section` holds before; `"[]"` leaves it as it is. -/
def iniparserLine (sect input : List UInt8) : Option LineStatus := do
  let line ← strstrip input
  if line = [] then some .empty
  else if line.head? = some 35 ∨ line.head? = some 59 then some .comment
  else if line.head? = some 91 ∧ line.getLast? = some 93 then
    let sect ← strstrip ((sscanf sectionFormat line).headD sect)
    some (.section (strlwc sect))
  else
    match scanPair doubleQuoted line <|> scanPair singleQuoted line <|> scanPair plainValue line with
    | some (key, value) =>
        let key ← strstrip key
        let value ← strstrip value
        let value := if value = [34, 34] ∨ value = [39, 39] then [] else value
        some (.value (strlwc key) value)
    | none =>
        match scanPair commentOnly line <|> scanPair equalOnly line with
        | some (key, _) =>
            let key ← strstrip key
            some (.value (strlwc key) [])
        | none => some .error

/-! ## The file -/

/-- `fgets(line, size, in)`: what is read and what is left. -/
def fgets (size : Nat) (file : List UInt8) : List UInt8 × List UInt8 :=
  let room := file.take (size - 1)
  let line := room.take ((room.takeWhile (· ≠ 10)).length + 1)
  (line, file.drop line.length)

structure IniLoad where
  file : List UInt8
  /-- `line[0 .. last)`. -/
  last : List UInt8
  sect : List UInt8
  dict : Dictionary
  errs : Int

inductive IniOutcome where
  | loaded (dict : Dictionary)
  | null
  | fault
  | running
  deriving DecidableEq

inductive IniRound where
  | next (load : IniLoad)
  | ended (outcome : IniOutcome)

namespace IniLoad

def start (file : List UInt8) : IniLoad := ⟨file, [], [], dictionaryNew 0, 0⟩

/-- What follows the loop. -/
def finish (load : IniLoad) : IniOutcome := if load.errs ≠ 0 then .null else .loaded load.dict

/-- `errs = dictionary_set(dict, key, val)`. -/
def assign (load : IniLoad) (key : List UInt8) (val : Option (List UInt8)) : Option IniLoad :=
  (dictionarySet load.dict (some key) val).map fun (dict, errs) => { load with dict, errs }

/-- The `switch`; `tmp` holds the section, a colon and the key. -/
def applyStatus (load : IniLoad) : LineStatus → Option IniLoad
  | .empty | .comment => some load
  | .section name => { load with sect := name }.assign name none
  | .value key val =>
      let tmp := load.sect ++ 58 :: key
      if tmp.length ≤ asciiLineSz then load.assign tmp (some val) else none
  | .error => some { load with errs := load.errs + 1 }

def parseLine (load : IniLoad) (line : List UInt8) : Option IniLoad :=
  (iniparserLine load.sect line).bind load.applyStatus

/-- The loop from `strlen(line)` on. -/
def takeLine (load : IniLoad) (line : List UInt8) : IniRound :=
  match line.getLast? with
  -- `line[-1]`
  | none => .ended .fault
  | some final =>
      if line.length = 1 then .next load
      else if final ≠ 10 then .ended .null
      else
        let line := line.rdropWhile fun byte => byte = 10 || isspace byte
        match line.getLast? with
        -- `line[-1]`
        | none => .ended .fault
        | some final =>
            if final = 92 then .next { load with last := line.dropLast }
            else
              match { load with last := [] }.parseLine line with
              | none => .ended .fault
              | some load => if load.errs < 0 then .ended load.finish else .next load

def round (load : IniLoad) : IniRound :=
  let (chunk, file) := fgets (asciiLineSz - load.last.length) load.file
  if chunk = [] then .ended load.finish
  else { load with file }.takeLine (cstring (load.last ++ chunk))

def scan : Nat → IniLoad → IniOutcome
  | 0, _ => .running
  | rounds + 1, load =>
      match load.round with
      | .next load => scan rounds load
      | .ended outcome => outcome

end IniLoad

/-- `iniparser_load` on the bytes of the file. Each round takes a byte of it. -/
def iniparserLoad (file : List UInt8) : IniOutcome :=
  (IniLoad.start file).scan (file.length + 1)

/-! ## Looking up a key -/

/-- A dictionary that could not be loaded is a null pointer. -/
def iniparserGetstring (d : Option Dictionary) (key : List UInt8) (default : CharPtr) : CharPtr :=
  match d with
  | none => default
  | some d => dictionaryGet d (strlwc key) default

def iniparserFindEntry (d : Dictionary) (entry : List UInt8) : Bool :=
  iniparserGetstring (some d) entry .invalidKey ≠ .invalidKey

end MpNet.Config
