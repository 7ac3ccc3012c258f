import MpNet.Library.CInt
import MpNet.Net.FdTable

/-!
# Reading a connection

`do_read_conn` and `net_recv` on one connection. Where a packet goes is a
parameter: `dll.proc_pkg_from_serv` in a worker, `shmq_push` to the worker's queue
in the parent. Both leave the receive buffer alone unless they delete the
connection.
-/

set_option autoImplicit false

namespace MpNet.Net

open Library

/-- What `safe_tcp_recv` reports. -/
inductive RecvResult where
  | bytes (chunk : List UInt8)
  | closed
  | error
  deriving DecidableEq

inductive Delivery where
  | taken
  -- `proc_pkg_from_serv` closed the connection
  | closed
  | refused
  -- `shmq_push` ended the process
  | exited

inductive Outcome where
  | ret (cnt : Int)
  | exited
  deriving DecidableEq

structure Receiver (World : Type*) where
  /-- `dll.get_pkg_len` on the available bytes. -/
  getPkgLen : List UInt8 → Int
  deliver : World → List UInt8 → World × Delivery

/-- `page_size` and the `max_len` of `net_loop`. -/
structure Sizes where
  pageSize : Nat
  max : Nat

/-- The first step of `do_read_conn`: map the buffer. -/
def mapBuffer (e : Epi) (fd : Int) : Epi :=
  if (e.fds fd).cb.recvptr.isNone then
    e.modify fd fun slot =>
      { slot with
        cb := { slot.cb with rcvprotlen := 0, recvlen := 0, recvptr := some fun _ => 0 } }
  else e

/-- The last step of `do_read_conn`: a full buffer is read again without an edge. -/
def queueIfFull (sizes : Sizes) (e : Epi) (fd : Int) : Epi :=
  if (e.fds fd).cb.recvlen = sizes.max then e.addToEtinQueue fd else e.delFromEtinQueue fd

/-- A call of `do_read_conn`; `now` is the second of `get_now_tv`. -/
def doReadConn (sizes : Sizes) (e : Epi) (fd : Int) (result : RecvResult) (now : UInt32) :
    Epi × Int :=
  let e := mapBuffer e fd
  if sizes.pageSize = (e.fds fd).cb.recvlen then (e, 0)
  else
    match result with
    | .closed => (e, -1)
    | .error => (queueIfFull sizes e fd, 0)
    | .bytes chunk =>
        let e := e.modify fd fun slot =>
          { slot with
            cb := { slot.cb with
              recvptr := slot.cb.recvptr.map (·.write slot.cb.recvlen chunk)
              recvlen := slot.cb.recvlen + chunk.length }
            sk := { slot.sk with lastTm := now } }
        (queueIfFull sizes e fd, chunk.length)

/-- How the loop of `net_recv` over the packets ends. -/
inductive Stop where
  -- the bytes from `tmp_recvptr` on stay in the buffer
  | through (tmp : Nat) (cnt : Int)
  | closed (cnt : Int)
  | failed
  | exited

section Parse

variable {World : Type*} (sizes : Sizes) (receiver : Receiver World)

/-- The loop from `parse_again`; `tmp` is the offset of `tmp_recvptr` in the buffer. -/
def parseAgain (memory : Memory) (cb : ConnBuf) (tmp : Nat) (cnt : Int) (world : World) :
    ConnBuf × World × Stop :=
  let rcvprotlen :=
    if cb.rcvprotlen = 0 then (u32 (receiver.getPkgLen (memory.read tmp cb.recvlen))).toNat
    else cb.rcvprotlen
  let cb' := { cb with rcvprotlen := rcvprotlen }
  if sizes.max < rcvprotlen then (cb', world, .failed)
  else if rcvprotlen = 0 then
    if cb.recvlen = sizes.max then (cb', world, .exited) else (cb', world, .through tmp cnt)
  else if rcvprotlen ≤ cb.recvlen then
    match receiver.deliver world (memory.read tmp rcvprotlen) with
    | (world, .closed) => (cb', world, .closed cnt)
    | (world, .refused) => (cb', world, .failed)
    | (world, .exited) => (cb', world, .exited)
    | (world, .taken) =>
        let tmp := if cb.recvlen > rcvprotlen then tmp + rcvprotlen else tmp
        let cb' := { cb with recvlen := cb.recvlen - rcvprotlen, rcvprotlen := 0 }
        if cb'.recvlen > 0 then parseAgain memory cb' tmp (cnt + 1) world
        else (cb', world, .through tmp (cnt + 1))
  else (cb', world, .through tmp cnt)
termination_by cb.recvlen
decreasing_by omega

/-- Move what is left to the front of the buffer. -/
def compact (cb : ConnBuf) (tmp : Nat) : ConnBuf :=
  if tmp ≠ 0 ∧ cb.recvlen ≠ 0 then
    { cb with recvptr := cb.recvptr.map fun memory => memory.write 0 (memory.read tmp cb.recvlen) }
  else cb

def netRecv (e : Epi) (fd : Int) (result : RecvResult) (now : UInt32) (world : World) :
    Epi × World × Outcome :=
  -- `assert(max <= page_size)`
  if sizes.pageSize < sizes.max then (e, world, .exited)
  else if (e.fds fd).type = .pipe then (e, world, .ret 0)
  else
    let (e, status) := doReadConn sizes e fd result now
    if status = -1 then (e, world, .ret (-1))
    else
      let cb := (e.fds fd).cb
      let (cb, world, stop) := parseAgain sizes receiver (cb.recvptr.getD fun _ => 0) cb 0 0 world
      let keep := fun cb => e.modify fd ({ · with cb := cb })
      match stop with
      | .through tmp cnt => (keep (compact cb tmp), world, .ret cnt)
      | .closed cnt => ((keep cb).release fd, world, .ret cnt)
      | .failed => (keep cb, world, .ret (-1))
      | .exited => (keep cb, world, .exited)

end Parse

end MpNet.Net
