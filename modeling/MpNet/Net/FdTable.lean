import MpNet.Library.Memory
import Mathlib.Logic.Function.Basic

/-!
# The descriptor table `epi`

Connections are registered by `do_add_conn` and released by `do_del_conn`. The
close queue and the edge-triggered input queue are the sequences of their linked
slots. `do_del_conn` first notifies the other side or the plugin; `release` is
what it does after that.
-/

set_option autoImplicit false

namespace MpNet.Net

open Library

inductive FdType where
  | unused
  | listen
  | pipe
  | remote
  | mcast
  | addrMcast
  | udp
  | asynConnect
  deriving DecidableEq, Repr

structure ConnBuf where
  rcvprotlen : Nat
  recvlen : Nat
  sendlen : Nat
  sndbufsz : Nat
  recvptr : Option Memory
  sendptr : Option Memory

structure RemoteInfo where
  remotePort : UInt16
  remoteIp : UInt32
  lastTm : UInt32
  deriving DecidableEq, Repr

structure FdInfo where
  id : UInt32
  sockfd : Int
  type : FdType
  /-- `flag & CN_NEED_CLOSE`. -/
  needClose : Bool
  /-- `flag & CN_NEED_POLLIN`. -/
  needPollin : Bool
  cb : ConnBuf
  sk : RemoteInfo
  /-- The index of the worker's entry in `bindconf.configs`. -/
  bcElem : Option Nat

structure Epi where
  fds : Int → FdInfo
  closeHead : List Int
  etinHead : List Int
  maxfd : Int
  count : Int
  /-- The static counter of `do_add_conn`. -/
  seq : UInt32

def ConnBuf.zero : ConnBuf := ⟨0, 0, 0, 0, none, none⟩

def RemoteInfo.zero : RemoteInfo := ⟨0, 0, 0⟩

/-- A slot after `calloc` or `memset`. -/
def FdInfo.zero : FdInfo := ⟨0, 0, .unused, false, false, .zero, .zero, none⟩

def netInit : Epi := ⟨fun _ => .zero, [], [], 0, 0, 0⟩

def freeCb (cb : ConnBuf) : ConnBuf :=
  { cb with sendptr := none, recvptr := none, recvlen := 0, sendlen := 0 }

namespace Epi

def modify (e : Epi) (fd : Int) (change : FdInfo → FdInfo) : Epi :=
  { e with fds := Function.update e.fds fd (change (e.fds fd)) }

def delFromCloseQueue (e : Epi) (fd : Int) : Epi :=
  if (e.fds fd).needClose then
    { e.modify fd ({ · with needClose := false }) with closeHead := e.closeHead.filter (· ≠ fd) }
  else e

def delFromEtinQueue (e : Epi) (fd : Int) : Epi :=
  if (e.fds fd).needPollin then
    { e.modify fd ({ · with needPollin := false }) with etinHead := e.etinHead.filter (· ≠ fd) }
  else e

def addToEtinQueue (e : Epi) (fd : Int) : Epi :=
  if ¬ (e.fds fd).needClose ∧ ¬ (e.fds fd).needPollin then
    { e.modify fd ({ · with needPollin := true }) with etinHead := e.etinHead ++ [fd] }
  else e

def addToCloseQueue (e : Epi) (fd : Int) : Epi :=
  let e := e.delFromEtinQueue fd
  if ¬ (e.fds fd).needClose then
    { e.modify fd ({ · with needClose := true }) with closeHead := e.closeHead ++ [fd] }
  else e

/-- The identifier of the next registration; 0 is skipped when the counter wraps. -/
def nextId (seq : UInt32) : UInt32 := if seq + 1 = 0 then seq + 1 + 1 else seq + 1

/-- `do_add_conn`; `epoll_ctl` either succeeds or ends the process. -/
def doAddConn (e : Epi) (fd : Int) (type : FdType) (peer : Option (UInt16 × UInt32))
    (bcElem : Option Nat) : Epi :=
  { e with
    fds := Function.update e.fds fd
      { FdInfo.zero with
        sockfd := fd
        type := type
        id := nextId e.seq
        sk := match peer with
          | some (port, ip) => { RemoteInfo.zero with remotePort := port, remoteIp := ip }
          | none => .zero
        bcElem := bcElem }
    seq := nextId e.seq
    maxfd := if e.maxfd > fd then e.maxfd else fd
    count := e.count + 1 }

/-- The downward search of `do_del_conn`, over the slots below `bound`. -/
def usedBelow (fds : Int → FdInfo) : Nat → Int
  | 0 => -1
  | bound + 1 => if (fds bound).type ≠ .unused then bound else usedBelow fds bound

/-- The part of `do_del_conn` after the notification. -/
def release (e : Epi) (fd : Int) : Epi :=
  let e := (e.delFromEtinQueue fd).delFromCloseQueue fd
  let e := e.modify fd fun slot => { slot with cb := freeCb slot.cb, type := .unused }
  let e := { e with count := e.count - 1 }
  if e.maxfd = fd then { e with maxfd := usedBelow e.fds fd.toNat } else e

end Epi

/-! ## What the operations change -/

namespace Epi

variable {e : Epi} {fd other : Int}

@[simp] theorem modify_same (change : FdInfo → FdInfo) :
    (e.modify fd change).fds fd = change (e.fds fd) := by simp [modify]

theorem modify_other (change : FdInfo → FdInfo) (apart : other ≠ fd) :
    (e.modify fd change).fds other = e.fds other := by simp [modify, apart]

theorem addToEtinQueue_same (e : Epi) (fd : Int) : ∃ needPollin,
    (e.addToEtinQueue fd).fds fd = { e.fds fd with needPollin := needPollin } := by
  unfold addToEtinQueue
  split
  · exact ⟨true, by simp [modify]⟩
  · exact ⟨(e.fds fd).needPollin, rfl⟩

theorem addToEtinQueue_other (apart : other ≠ fd) :
    (e.addToEtinQueue fd).fds other = e.fds other := by
  unfold addToEtinQueue modify
  split
  · simp [apart]
  · rfl

theorem delFromEtinQueue_other (apart : other ≠ fd) :
    (e.delFromEtinQueue fd).fds other = e.fds other := by
  unfold delFromEtinQueue modify
  split
  · simp [apart]
  · rfl

theorem delFromCloseQueue_other (apart : other ≠ fd) :
    (e.delFromCloseQueue fd).fds other = e.fds other := by
  unfold delFromCloseQueue modify
  split
  · simp [apart]
  · rfl

@[simp] theorem delFromEtinQueue_closeHead : (e.delFromEtinQueue fd).closeHead = e.closeHead := by
  unfold delFromEtinQueue modify
  split <;> rfl

theorem delFromEtinQueue_same : (e.delFromEtinQueue fd).fds fd =
    { e.fds fd with needPollin := false } := by
  unfold delFromEtinQueue modify
  split
  · simp
  · rename_i clear
    have clear : (e.fds fd).needPollin = false := by simpa using clear
    simp [← clear]

theorem delFromCloseQueue_same : (e.delFromCloseQueue fd).fds fd =
    { e.fds fd with needClose := false } := by
  unfold delFromCloseQueue modify
  split
  · simp
  · rename_i clear
    have clear : (e.fds fd).needClose = false := by simpa using clear
    simp [← clear]

end Epi

end MpNet.Net
