import MpNet.Net.Output

/-!
# The output buffer of one connection

The calls of `net_send` and `do_write_conn` on a connection, with the lengths that they
pass to `safe_tcp_send_n` and the target of the `memcpy` into the buffer. The size of
the buffer is the last one given to `malloc` or `realloc`, which is `sndbufsz`.
-/

set_option autoImplicit false

namespace MpNet.Net.Output

open Library

inductive Call where
  | send (data : List UInt8) (kernel : Kernel)
  -- from `net_loop` or `iterate_close_queue`
  | write (results : List SendResult) (now : UInt32)

/-- A connection until its first failed write. -/
structure Writer where
  conn : Conn
  ended : Bool

namespace Conn

/-- The `safe_tcp_send_n` of `net_send`, when nothing is pending. -/
def sentDirect (c : Conn) (data : List UInt8) (results : List SendResult) : Option (Conn × Nat) :=
  if c.cb.sendlen = 0 then
    match safeTcpSendN data.length results with
    | .wrote count => some (c, count)
    | _ => none
  else some (c, 0)

/-- `net_send` up to the merge: the connection after the flush, and the number of bytes of
the data that the kernel has taken. -/
def merging (c : Conn) (data : List UInt8) (kernel : Kernel) : Option (Conn × Nat) :=
  let flushed :=
    if 0 < c.cb.sendlen then
      match c.doWriteConn kernel.flush kernel.now with
      | (mid, .kept ret) => if ret = -1 then none else some mid
      | _ => none
    else some c
  match flushed with
  | none => none
  | some mid => mid.sentDirect data kernel.direct

/-- The lengths that `net_send` gives to `safe_tcp_send_n`. -/
def sendTotals (c : Conn) (data : List UInt8) (kernel : Kernel) : List Nat :=
  if 0 < c.cb.sendlen then
    match c.doWriteConn kernel.flush kernel.now with
    | (mid, .kept ret) =>
        if ret ≠ -1 ∧ mid.cb.sendlen = 0 then [c.cb.sendlen, data.length] else [c.cb.sendlen]
    | _ => [c.cb.sendlen]
  else [data.length]

end Conn

/-- The target of a `memcpy` into the output buffer. -/
structure Target where
  range : ByteRange
  /-- The size of the allocated buffer. -/
  size : Nat

namespace Call

def totals (c : Conn) : Call → List Nat
  | .send data kernel => c.sendTotals data kernel
  | .write _ _ => if 0 < c.cb.sendlen then [c.cb.sendlen] else []

def memcpyTarget (c : Conn) : Call → Option Target
  | .send data kernel =>
      match c.merging data kernel with
      | some (mid, count) =>
          if count < data.length then
            some ⟨⟨mid.cb.sendlen, data.length - count⟩,
              (mergeBuffer mid.cb (data.drop count)).sndbufsz⟩
          else none
      | none => none
  | .write _ _ => none

end Call

/-- The next call on the connection; a failed write deletes it, and a failed assertion
ends the process. -/
def Writer.step (isParent : Bool) (limit : UInt32) (s : Writer) (call : Call) : Writer :=
  if s.ended then s
  else
    match call with
    | .send data kernel =>
        match s.conn.netSend isParent limit data kernel with
        | (c, .kept _) => ⟨c, false⟩
        | (c, _) => ⟨c, true⟩
    | .write results now =>
        -- every caller of `do_write_conn` looks at `sendlen` first
        if 0 < s.conn.cb.sendlen then
          match s.conn.doWriteConn results now with
          | (c, .kept ret) => ⟨c, ret = -1⟩
          | (c, _) => ⟨c, true⟩
        else s

/-- A connection as `do_add_conn` registers it. -/
def Writer.start (sk : RemoteInfo) : Writer := ⟨⟨.zero, sk, false, [], [], false⟩, false⟩

end MpNet.Net.Output
