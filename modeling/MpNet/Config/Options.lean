import MpNet.Config.IniParser

/-!
# The options of the server

What `main`, `rlimit_reset`, `daemon_start`, `shmq_create`, `handle_init` and
`run_worker_process` read from the configuration.
-/

set_option autoImplicit false

namespace MpNet.Config

open Library

/-- `strtol` has no result on a null pointer, which is the value of a section. -/
def iniparserGetint (d : Option Dictionary) (key : List UInt8) (notfound : Int) : Option Int :=
  match iniparserGetstring d key .invalidKey with
  | .invalidKey => some notfound
  | .null => none
  | .string str => some (i32 (strtolAnyBase str))

def defPageSize : Int := 8192

structure Options where
  maxFdNum : Int
  /-- The test of `run_mode` in `daemon_start`. -/
  background : Bool
  bindConf : CharPtr
  socketTimeout : Int
  pageSize : Int
  sendBufLimitSize : Int
  dllFile : CharPtr
  /-- `sendq.length` and `recvq.length`. -/
  shmqLength : Int
  idleTimeout : Int
  /-- The timeout of a worker's `net_loop`. -/
  timeout : Int

/-- `!style || !strcasecmp("background", style)`. -/
def runsInBackground : CharPtr → Bool
  | .string style => lowercase style = literal "background"
  | _ => true

def readOptions (ini : Option Dictionary) : Option Options := do
  let maxFdNum ← iniparserGetint ini (literal "max_open_fd") 20000
  let style := iniparserGetstring ini (literal "run_mode") .null
  let bindConf := iniparserGetstring ini (literal "server:bind_conf") .null
  let socketTimeout ← iniparserGetint ini (literal "server:cli_socket_timeout") 0
  let pageSize ← iniparserGetint ini (literal "server:incoming_packet_max_size") (-1)
  let limit ← iniparserGetint ini (literal "server:send_buf_limit_size") 0
  let dllFile := iniparserGetstring ini (literal "server:dll_file") .null
  let length ← iniparserGetint ini (literal "shmq_length") (2 ^ 26)
  let idleTimeout ← iniparserGetint ini (literal "idle_timeout") 10
  let timeout ← iniparserGetint ini (literal "net_loop_interval") 100
  some {
    maxFdNum
    background := runsInBackground style
    bindConf
    socketTimeout
    pageSize := if pageSize ≤ 0 then defPageSize else pageSize
    sendBufLimitSize := u32 limit
    dllFile
    shmqLength := u32 length
    idleTimeout
    timeout := if timeout < 0 ∨ timeout > 1000 then 100 else timeout }

/-- `iniparser_load`, and what is read from its result. -/
def loadOptions (file : List UInt8) : Option Options :=
  match iniparserLoad file with
  | .loaded dict => readOptions (some dict)
  | .null => readOptions none
  | .fault | .running => none

end MpNet.Config
