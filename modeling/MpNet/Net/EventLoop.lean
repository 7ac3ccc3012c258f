import MpNet.Library.Run
import MpNet.Net.FdTable

/-!
# The event loop

`net_loop` and the descriptor table, in the parent and in a worker. From `epoll_wait`
to the end of the batch each step is one step of the source; between two batches the
queues, the timeouts and `handle_recv_queue` may do anything to the table. What the
kernel, the send queues and the plugin decide is part of the action, and an action
that is not possible leaves the state alone.
-/

set_option autoImplicit false

namespace MpNet.Net.EventLoop

open Library

/-- An entry of `epi.evs`. -/
structure EpollEvent where
  fd : Int
  pollin : Bool
  pollout : Bool
  pollhup : Bool
  deriving DecidableEq

/-- Where `net_loop` stands with one event. -/
inductive Stage where
  | pipe
  -- the callback in `handle_asyn_connect`
  | callback
  | pollin
  -- `while (do_open_conn(fd, is_parent) > 0)`
  | accepting
  -- the loops over `recv` and `recvfrom`
  | datagrams
  | receiving
  | pollout
  | pollhup
  | done
  deriving DecidableEq

inductive Phase where
  | idle
  | sendQueue (evs : List EpollEvent)
  -- the head of the loop over the events
  | next (evs : List EpollEvent)
  | event (ev : EpollEvent) (stage : Stage) (evs : List EpollEvent)
  -- `net_loop` has returned -1
  | stopped
  deriving DecidableEq

structure State where
  epi : Epi
  phase : Phase
  /-- The calls of `do_del_conn(fd, 0)` in which `dll.on_fd_closed` runs, the innermost first. -/
  closing : List Int
  restartCnt : Nat → Nat
  /-- History: the identifiers in the table when `epoll_wait` returned. -/
  reported : Int → UInt32
  /-- History: the descriptors deleted since then. -/
  deleted : Int → Bool

def init : State := ⟨netInit, .idle, [], fun _ => 0, fun _ => 0, fun _ => false⟩

/-- How `net_send` or `do_write_conn` ends: with the buffer it leaves, or with -1. -/
inductive Written where
  | done (cb : ConnBuf) (now : UInt32)
  | failed

inductive AcceptError where
  -- `EMFILE` or `ENFILE`
  | tooMany
  -- `EAGAIN` or `EWOULDBLOCK`
  | again
  | other
  deriving DecidableEq

inductive LoopAction where
  -- `do_add_conn`, `do_del_conn` and a read or a write, outside the batch
  | register (fd : Int) (type : FdType) (peer : Option (UInt16 × UInt32)) (bcElem : Option Nat)
  | delete (fd : Int) (isParent : Nat)
  | transfer (fd : Int) (cb : ConnBuf) (now : UInt32) (full : Bool)
  | epollWait (evs : List EpollEvent)
  /-- `schedule_output` of a block that `shmq_pop` returned. -/
  | output (id : UInt32) (fd : Int) (fin : Bool) (written : Written)
  /-- The filters; `connected` is for `handle_asyn_connect`. -/
  | take (connected : Bool)
  | readPipe
  /-- A worker has crashed; `newfd` is the pipe of its successor, unless `fork` fails. -/
  | crash (newfd : Option Int)
  | accept (newfd : Int) (peer : UInt16 × UInt32) (now : UInt32) (pushed : Bool)
  | acceptFailed (error : AcceptError)
  | read (cb : ConnBuf) (now : UInt32) (full : Bool)
  /-- `net_recv` returns. -/
  | received (failed : Bool)
  | write (written : Written)
  /-- The code goes on to its next part. -/
  | advance

inductive PluginCall where
  | connectToSvr (newfd : Int) (peer : UInt16 × UInt32)
  | closeSvr (fd : Int)
  | netSend (fd : Int) (written : Written)

inductive Action where
  | loop (action : LoopAction)
  | plugin (call : PluginCall)
  /-- `dll.on_fd_closed` returns. -/
  | fdClosed

namespace State

/-! ## The table -/

def addConn (s : State) (fd : Int) (type : FdType) (peer : Option (UInt16 × UInt32))
    (bcElem : Option Nat) : State :=
  { s with epi := s.epi.doAddConn fd type peer bcElem }

def release (s : State) (fd : Int) : State :=
  { s with epi := s.epi.release fd, deleted := Function.update s.deleted fd true }

/-- The CLOSE_BLOCK that the parent pushes touches no descriptor. -/
def doDelConn (s : State) (fd : Int) (isParent : Nat) : State :=
  if (s.epi.fds fd).type = .unused then s
  else if isParent = 0 then { s with closing := fd :: s.closing }
  else s.release fd

/-- `newfd` is a number that the kernel may hand out. -/
def Free (s : State) (newfd : Int) : Prop := (s.epi.fds newfd).type = .unused ∧ 0 ≤ newfd

instance (s : State) (newfd : Int) : Decidable (s.Free newfd) :=
  inferInstanceAs (Decidable (_ ∧ _))

def setBuf (s : State) (fd : Int) (cb : ConnBuf) (now : UInt32) : State :=
  { s with
    epi := s.epi.modify fd fun slot => { slot with cb := cb, sk := { slot.sk with lastTm := now } } }

/-- `do_read_conn`, whose buffer is `full` or not afterwards. -/
def doReadConn (s : State) (fd : Int) (cb : ConnBuf) (now : UInt32) (full : Bool) : State :=
  let s := s.setBuf fd cb now
  { s with epi := if full then s.epi.addToEtinQueue fd else s.epi.delFromEtinQueue fd }

/-- `net_send`, or `do_write_conn` with the `do_del_conn` that follows it. -/
def netSend (isParent : Nat) (s : State) (fd : Int) : Written → State
  | .done cb now => s.setBuf fd cb now
  | .failed => s.doDelConn fd isParent

def scheduleOutput (isParent : Nat) (s : State) (id : UInt32) (fd : Int) (fin : Bool)
    (written : Written) : State :=
  if fd > s.epi.maxfd ∨ fd < 0 then s
  else if (s.epi.fds fd).type ≠ .remote ∨ id ≠ (s.epi.fds fd).id then s
  else if fin then { s with epi := s.epi.addToCloseQueue fd }
  else s.netSend isParent fd written

/-- `do_open_conn` when `accept` returns `newfd`. -/
def doOpenConn (isParent : Nat) (s : State) (fd newfd : Int) (peer : UInt16 × UInt32)
    (now : UInt32) (pushed : Bool) : State :=
  let s := s.addConn newfd .remote (some peer) (s.epi.fds fd).bcElem
  let s := { s with
    epi := s.epi.modify newfd fun slot => { slot with sk := { slot.sk with lastTm := now } } }
  if isParent ≠ 0 ∧ ¬ pushed then s.doDelConn newfd 2 else s

/-- `do_open_conn` when `accept` returns -1. -/
def acceptError (s : State) (fd : Int) : AcceptError → State
  | .tooMany => { s with epi := s.epi.addToEtinQueue fd }
  | .again => { s with epi := s.epi.delFromEtinQueue fd }
  | .other => s

/-- `handle_asyn_connect` up to the callback. -/
def handleAsynConnect (s : State) (fd : Int) (connected : Bool) : State :=
  if connected then { s with epi := s.epi.modify fd fun slot => { slot with type := .remote } }
  else s.doDelConn fd 2

/-! ## A crashed worker -/

/-- One round of the loop over the descriptors in `handle_pipe_event`; `maxfd` only
sinks, so the rounds after its end do nothing. -/
def sweepOne (isParent : Nat) (worker : Nat) (s : State) (i : Int) : State :=
  if i ≤ s.epi.maxfd ∧ (s.epi.fds i).bcElem = some worker ∧ (s.epi.fds i).type ≠ .listen then
    s.doDelConn i isParent
  else s

def sweep (isParent : Nat) (worker : Nat) (s : State) : State :=
  run (sweepOne isParent worker) s ((List.range (s.epi.maxfd + 1).toNat).map Int.ofNat)

/-- `restart_child_process`; `pipefd` is the old pipe. -/
def restartChildProcess (s : State) (worker : Nat) (pipefd : Int) (newfd : Option Int) : State :=
  let s := s.doDelConn pipefd 2
  match newfd with
  | some newfd => if s.Free newfd then s.addConn newfd .pipe none (some worker) else s
  | none => s

/-- `handle_pipe_event` in the parent on `EPOLLHUP`. -/
def childCrashed (isParent : Nat) (s : State) (pipefd : Int) (worker : Nat)
    (newfd : Option Int) : State :=
  let swept := s.sweep isParent worker
  let counted :=
    { swept with restartCnt := Function.update swept.restartCnt worker (swept.restartCnt worker + 1) }
  if swept.restartCnt worker < 20 then counted.restartChildProcess worker pipefd newfd else counted

/-! ## The loop -/

/-- The filters at the head of the loop. -/
def Skips (s : State) (ev : EpollEvent) : Prop :=
  ev.fd > s.epi.maxfd ∨ (s.epi.fds ev.fd).sockfd ≠ ev.fd ∨ (s.epi.fds ev.fd).type = .unused

instance (s : State) (ev : EpollEvent) : Decidable (s.Skips ev) :=
  inferInstanceAs (Decidable (_ ∨ _ ∨ _))

def take (s : State) (connected : Bool) : State :=
  match s.phase with
  | .next (ev :: evs) =>
      if s.Skips ev then { s with phase := .next evs }
      else
        match (s.epi.fds ev.fd).type with
        | .pipe => { s with phase := .event ev .pipe evs }
        | .asynConnect =>
            handleAsynConnect { s with phase := .event ev .callback evs } ev.fd connected
        | _ => { s with phase := .event ev .pollin evs }
  | _ => s

/-- The `switch` over the type. -/
def pollinStage (ev : EpollEvent) (type : FdType) : Stage :=
  if ev.pollin then
    match type with
    | .listen => .accepting
    | .mcast | .udp => .datagrams
    | _ => .receiving
  else .pollout

def advance (isParent : Nat) (s : State) : State :=
  match s.phase with
  | .sendQueue evs => { s with phase := .next evs }
  | .next [] => { s with phase := .idle }
  | .event ev .callback evs => { s with phase := .event ev .pollin evs }
  | .event ev .pollin evs =>
      { s with phase := .event ev (pollinStage ev (s.epi.fds ev.fd).type) evs }
  | .event ev .datagrams evs => { s with phase := .event ev .pollout evs }
  | .event ev .pollhup evs =>
      let s := { s with phase := .event ev .done evs }
      if ev.pollhup then s.doDelConn ev.fd isParent else s
  | .event _ .done evs => { s with phase := .next evs }
  | _ => s

def epollWait (isParent : Nat) (s : State) (evs : List EpollEvent) : State :=
  { s with
    phase := if isParent ≠ 0 then .sendQueue evs else .next evs
    reported := fun fd => (s.epi.fds fd).id
    deleted := fun _ => false }

def loopStep (isParent : Nat) (s : State) (action : LoopAction) : State :=
  match action, s.phase with
  | .register fd type peer bcElem, .idle =>
      if s.Free fd ∧ type ≠ .unused then s.addConn fd type peer bcElem else s
  | .delete fd isParent, .idle => s.doDelConn fd isParent
  | .transfer fd cb now full, .idle => s.doReadConn fd cb now full
  | .epollWait evs, .idle => s.epollWait isParent evs
  | .output id fd fin written, .sendQueue _ => s.scheduleOutput isParent id fd fin written
  | .take connected, .next _ => s.take connected
  | .readPipe, .event ev .pipe evs =>
      if ¬ ev.pollhup then { s with phase := .next evs }
      else if isParent = 0 then { s with phase := .stopped }
      else s
  | .crash newfd, .event ev .pipe evs =>
      match (s.epi.fds ev.fd).bcElem with
      | some worker =>
          if ev.pollhup ∧ isParent ≠ 0 then
            { s.childCrashed isParent ev.fd worker newfd with phase := .next evs }
          else s
      | none => s
  | .accept newfd peer now pushed, .event ev .accepting evs =>
      if (s.epi.fds ev.fd).type = .listen ∧ s.Free newfd then
        let opened := s.doOpenConn isParent ev.fd newfd peer now pushed
        if newfd > 0 then opened else { opened with phase := .event ev .pollout evs }
      else s
  | .acceptFailed error, .event ev .accepting evs =>
      { s.acceptError ev.fd error with phase := .event ev .pollout evs }
  | .read cb now full, .event ev .receiving _ => s.doReadConn ev.fd cb now full
  | .received failed, .event ev .receiving evs =>
      let s := { s with phase := .event ev .pollout evs }
      if failed then s.doDelConn ev.fd isParent else s
  | .write written, .event ev .pollout evs =>
      let s := { s with phase := .event ev .pollhup evs }
      if ev.pollout ∧ (s.epi.fds ev.fd).cb.sendlen > 0 then s.netSend isParent ev.fd written
      else s
  | .advance, _ => s.advance isParent
  | _, _ => s

def pluginRuns (s : State) : Bool :=
  !s.closing.isEmpty ||
    match s.phase with
    | .idle | .event _ .callback _ | .event _ .datagrams _ | .event _ .receiving _ => true
    | _ => false

def pluginStep (isParent : Nat) (s : State) : PluginCall → State
  | .connectToSvr newfd peer =>
      if s.Free newfd then s.addConn newfd .remote (some peer) none else s
  | .closeSvr fd => s.doDelConn fd 2
  | .netSend fd written => s.netSend isParent fd written

end State

/-- One step; the loop waits while `dll.on_fd_closed` runs. -/
def step (isParent : Nat) (s : State) : Action → State
  | .loop action => if s.closing = [] then s.loopStep isParent action else s
  | .plugin call => if s.pluginRuns then s.pluginStep isParent call else s
  | .fdClosed =>
      match s.closing with
      | fd :: rest => { s with closing := rest }.release fd
      | [] => s

end MpNet.Net.EventLoop
