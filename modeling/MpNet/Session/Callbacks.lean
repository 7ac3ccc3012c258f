import MpNet.Session.System

/-!
# Callbacks that close and send

`handle_close` calls `on_client_conn_closed` before it removes the session, and the plugin
may send and close in that callback. So a call of `handle_close` takes two steps here, up to
the callback and after it, and the calls whose callbacks run are a stack. The parent and the
other workers go on meanwhile.
-/

set_option autoImplicit false

namespace MpNet.Session.Callbacks

open Library Net

/-- A call of `handle_close` in its callback. -/
structure Call where
  fd : Int
  /-- History: what `get_fdsess` found. -/
  session : Option FdSess
  /-- The FIN_BLOCK that `close_client_conn` pushes after the call. -/
  fin : Option Block

structure State where
  server : Session.State
  /-- The calls in each worker, the innermost first. -/
  calls : Nat → List Call

def init : State := ⟨Session.init, fun _ => []⟩

inductive Action where
  /-- A step of the parent, or one block of `send_pkg_to_client`. -/
  | plain (action : Session.Action)
  /-- One block of the loop in `handle_recv_queue`. -/
  | recv (worker : Nat) (finAccepted : Bool)
  /-- `close_client_conn`, from any callback or handler of the plugin. -/
  | close (worker : Nat) (fd : Int)
  /-- `on_client_conn_closed` returns. -/
  | ret (worker : Nat) (finAccepted : Bool)

/-- `handle_close` up to the callback. -/
def callClosed (w : Worker) (fd : Int) : Worker :=
  { w with log := w.log ++ [.closed fd (w.getFdsess fd)] }

/-- What follows the callback in `handle_close`, and in the function that called it. -/
def finishClose (w : Worker) (call : Call) (finAccepted : Bool) : Worker :=
  match call.fin with
  | some mb => (w.removeFdsess call.fd).pushSendq mb finAccepted
  | none => w.removeFdsess call.fd

namespace State

def setCalls (s : State) (worker : Nat) (w : Worker) (calls : List Call) : State where
  server := s.server.setWorker worker w
  calls := Function.update s.calls worker calls

/-- The worker `w` calls `handle_close`. -/
def handleClose (s : State) (worker : Nat) (w : Worker) (fd : Int) (fin : Option Block) : State :=
  s.setCalls worker (callClosed w fd) (⟨fd, w.getFdsess fd, fin⟩ :: s.calls worker)

/-- The loop goes on when the callbacks have returned. -/
def handleRecvQueue (s : State) (worker : Nat) (finAccepted : Bool) : State :=
  match s.calls worker, (s.server.worker worker).recvq with
  | [], mb :: rest =>
      if mb.type = .closeBlock then
        s.handleClose worker { s.server.worker worker with recvq := rest } mb.fd none
      else { s with server := Session.step s.server (.recv worker finAccepted) }
  | _, _ => s

def closeClientConn (s : State) (worker : Nat) (fd : Int) : State :=
  match (s.server.worker worker).getFdsess fd with
  | some session =>
      s.handleClose worker (s.server.worker worker) fd
        (some ⟨session.id, fd, .finBlock, [], session.origin⟩)
  | none => s

def ret (s : State) (worker : Nat) (finAccepted : Bool) : State :=
  match s.calls worker with
  | call :: rest =>
      s.setCalls worker (finishClose (s.server.worker worker) call finAccepted) rest
  | [] => s

end State

def step (s : State) : Action → State
  | .plain (.recv _ _) | .plain (.close _ _ _) => s
  | .plain action => { s with server := Session.step s.server action }
  | .recv worker finAccepted => s.handleRecvQueue worker finAccepted
  | .close worker fd => s.closeClientConn worker fd
  | .ret worker finAccepted => s.ret worker finAccepted

/-! ## Callbacks that do nothing -/

theorem handleClose_eq (w : Worker) (fd : Int) :
    w.handleClose fd = finishClose (callClosed w fd) ⟨fd, w.getFdsess fd, none⟩ false := rfl

private theorem setCalls_ret (s : State) (worker : Nat) (w : Worker) (call : Call)
    (finAccepted : Bool) :
    (s.setCalls worker w (call :: s.calls worker)).ret worker finAccepted =
      { s with server := s.server.setWorker worker (finishClose w call finAccepted) } := by
  simp [State.ret, State.setCalls, State.setWorker, Session.State.setWorker]

/-- A call of `close_client_conn` whose callback makes no call is one step of the worker. -/
theorem close_ret (s : State) (worker : Nat) (fd : Int) (finAccepted : Bool)
    (found : ((s.server.worker worker).getFdsess fd).isSome) :
    run step s [.close worker fd, .ret worker finAccepted] =
      { s with server := Session.step s.server (.close worker fd finAccepted) } := by
  obtain ⟨session, found⟩ := Option.isSome_iff_exists.mp found
  have closes : s.closeClientConn worker fd = s.handleClose worker (s.server.worker worker) fd
      (some ⟨session.id, fd, .finBlock, [], session.origin⟩) := by
    simp only [State.closeClientConn, found]
  show (s.closeClientConn worker fd).ret worker finAccepted = _
  rw [closes, State.handleClose, setCalls_ret]
  simp only [Session.step, Worker.closeClientConn, found]
  rfl

/-- So is a CLOSE_BLOCK. -/
theorem recv_ret (s : State) (worker : Nat) (finAccepted : Bool) (idle : s.calls worker = [])
    {mb : Block} {rest : List Block} (front : (s.server.worker worker).recvq = mb :: rest)
    (type : mb.type = .closeBlock) :
    run step s [.recv worker finAccepted, .ret worker finAccepted] =
      { s with server := Session.step s.server (.recv worker finAccepted) } := by
  have closes : s.handleRecvQueue worker finAccepted =
      s.handleClose worker { s.server.worker worker with recvq := rest } mb.fd none := by
    simp only [State.handleRecvQueue, idle, front, if_pos type]
  show (s.handleRecvQueue worker finAccepted).ret worker finAccepted = _
  rw [closes, State.handleClose, setCalls_ret]
  simp only [Session.step, Worker.handleRecvQueue, front, type]
  rfl

end MpNet.Session.Callbacks
