import MpNet.Net.OutputStreamProperties
import MpNet.Session.BufferProperties
import MpNet.Session.EchoProperties
import MpNet.Session.EchoReadProperties

/-!
# The echo server echoes byte for byte

What `send` takes for a client is a prefix of what `recv` returned from it, and every other
byte can be found: in the output buffer, in the two queues, or nowhere only where the server
has given the connection up.
-/

set_option autoImplicit false

namespace MpNet.Session

open Library Net Net.Epi

/-! ## Blocks on the way to the parent -/

/-- A block that a worker pushes. -/
structure Fitting (room : Nat) (mb : Block) : Prop where
  length : mb.data.length ≤ room
  type : mb.type = .dataBlock ∨ mb.type = .finBlock

def Short (room : Nat) (s : State) : Prop :=
  ∀ worker, ∀ mb ∈ (s.worker worker).sendq, Fitting room mb

section Answers

variable {s : State} {room : Nat}

private theorem pieces_length (fuel : Nat) (pkg piece : List UInt8)
    (member : piece ∈ pieces room fuel pkg) :
    piece.length ≤ room := by
  induction fuel generalizing pkg with
  | zero => cases member
  | succ fuel ih =>
      rw [pieces] at member
      split at member
      · cases member
      · rcases List.mem_cons.mp member with rfl | later
        · exact List.length_take_le ..
        · exact ih _ later

theorem Short.setWorker (short : Short room s) {worker : Nat} {w : Worker}
    (sendq : ∀ mb ∈ w.sendq, mb ∈ (s.worker worker).sendq ∨ Fitting room mb) :
    Short room (s.setWorker worker w) := by
  intro other mb member
  by_cases here : other = worker
  · subst here
    rw [State.setWorker_same] at member
    exact (sendq mb member).elim (short other mb) id
  · rw [State.setWorker_other _ _ here] at member
    exact short other mb member

theorem Short.same {s' : State} (short : Short room s)
    (same : ∀ worker, (s'.worker worker).sendq = (s.worker worker).sendq) : Short room s' := by
  intro worker mb member
  exact short worker mb (same worker ▸ member)

private theorem pushSendq_short {w : Worker} {mb : Block} (accepted : Bool)
    (fits : Fitting room mb) :
    ∀ other ∈ (w.pushSendq mb accepted).sendq, other ∈ w.sendq ∨ Fitting room other := by
  intro other member
  rcases Worker.mem_pushSendq member with old | rfl
  · exact .inl old
  · exact .inr fits

theorem Short.step (short : Short room s) {action : Action}
    (fits : ∀ worker fd data accepted, action = .send worker fd data accepted → data.length ≤ room) :
    Short room (step s action) := by
  cases action with
  | register newfd type owner =>
      refine short.same fun worker => ?_
      simp only [Session.step]
      split <;> rfl
  | accept listener newfd peer now accepted =>
      refine short.same fun worker => ?_
      simp only [Session.step]
      split
      · exact openConn_sendq ..
      · rfl
  | packet client data accepted closeAccepted =>
      refine short.same fun worker => ?_
      simp only [Session.step]
      split
      · split
        · exact pushBlock_sendq
        · exact (dropConn_sendq ..).trans pushBlock_sendq
      · rfl
  | transfer client cb now =>
      refine short.same fun worker => ?_
      simp only [Session.step]
      split <;> rfl
  | drop client closeAccepted =>
      refine short.same fun worker => ?_
      simp only [Session.step]
      split
      · exact dropConn_sendq ..
      · rfl
  | output owner outcome =>
      simp only [Session.step]
      cases queue : (s.worker owner).sendq with
      | nil =>
          unfold State.handleSendQueue
          rw [queue]
          exact short
      | cons mb rest =>
          have popped : Short room (s.setWorker owner { s.worker owner with sendq := rest }) :=
            short.setWorker fun other member => .inl (queue ▸ List.mem_cons_of_mem mb member)
          rw [State.handleSendQueue_front queue]
          simp only
          split
          · exact popped.same fun worker => applyBlock_sendq ..
          · exact popped
  | closeQueue =>
      refine short.same fun worker => ?_
      simp only [Session.step]
      split <;> rfl
  | recv owner finAccepted =>
      refine short.setWorker ?_
      have received := Worker.handleRecvQueue_received (s.worker owner) finAccepted
      generalize (s.worker owner).handleRecvQueue finAccepted = w' at received
      cases received with
      | rejected mb rest first type => exact pushSendq_short finAccepted ⟨Nat.zero_le room, .inr rfl⟩
      | idle | ignored | process | opened | closed => exact fun _ => .inl
  | send owner client data accepted =>
      refine short.setWorker ?_
      unfold Worker.sendPkgToClient
      split
      · exact pushSendq_short accepted ⟨fits owner client data accepted rfl, .inl rfl⟩
      · exact fun _ => .inl
  | close owner client finAccepted =>
      refine short.setWorker ?_
      unfold Worker.closeClientConn
      split
      · exact pushSendq_short finAccepted ⟨Nat.zero_le room, .inr rfl⟩
      · exact fun _ => .inl

/-- The pieces of an answer are those of `send_pkg_to_client`. -/
theorem Short.echoStep (short : Short room s) (action : EchoAction) :
    Short room (echoStep room s action) := by
  have fits : ∀ part ∈ echoParts room s action, ∀ worker fd data accepted,
      part = .send worker fd data accepted → data.length ≤ room := by
    intro part member worker fd data accepted same
    subst same
    cases action with
    | parent other =>
        rw [echoParts] at member
        split at member
        · rename_i own
          rw [← List.mem_singleton.mp member] at own
          cases own
        · cases member
    | worker owner finAccepted taken closeAccepted =>
        rcases List.mem_cons.mp member with same | later
        · cases same
        · cases front : (s.worker owner).echoed with
          | none =>
              rw [front] at later
              cases later
          | some mb =>
              rw [front] at later
              rcases List.mem_append.mp later with sent | closed
              · obtain ⟨piece, part, same⟩ := List.mem_map.mp sent
                cases same
                exact pieces_length _ _ _ (List.mem_of_mem_take part)
              · split at closed
                · cases List.mem_singleton.mp closed
                · cases closed
  have along : Along Session.step (fun _ part => ∀ worker fd data accepted,
      part = .send worker fd data accepted → data.length ≤ room) s (echoParts room s action) :=
    along_of_forall s fits
  exact run_preserves_along (Short room) (fun _ _ fits short => short.step fits) short along

end Answers

/-! ## What a step adds to the traces -/

section Traces

variable {s : State} {fd : Int} {worker origin room : Nat}

private theorem trace_nil {out : State → Action → List (List UInt8)} {parts : List Action}
    (silent : ∀ part ∈ parts, ∀ s, out s part = []) : trace step out s parts = [] := by
  induction parts generalizing s with
  | nil => rfl
  | cons part rest ih =>
      rw [trace, silent part List.mem_cons_self s, List.nil_append]
      exact ih fun other member => silent other (List.mem_cons_of_mem part member)

private theorem arrival_worker {part : Action} (own : part.ofParent = false) :
    arrival worker fd origin s part = [] := by
  cases part with
  | recv | send | close => rfl
  | _ => cases own

private theorem applied_worker {part : Action} (own : part.ofParent = false) :
    applied worker fd origin s part = [] := by
  cases part with
  | recv | send | close => rfl
  | _ => cases own

private theorem trace_parent {out : State → Action → List (List UInt8)}
    (silent : ∀ part, part.ofParent = false → out s part = []) (part : Action) :
    trace step out s (echoParts room s (.parent part)) = out s part := by
  rw [echoParts]
  split
  · exact List.append_nil _
  · rename_i other
    exact (silent part (Bool.not_eq_true _ ▸ other)).symm

/-- The round of a worker has no step of the parent. -/
theorem worker_parts {room : Nat} {s : State} {worker accepted : Nat}
    {finAccepted closeAccepted : Bool} {part : Action}
    (member : part ∈ echoParts room s (.worker worker finAccepted accepted closeAccepted)) :
    part.ofParent = false := by
  rcases List.mem_cons.mp member with rfl | later
  · rfl
  · cases front : (s.worker worker).echoed with
    | none =>
        rw [front] at later
        cases later
    | some mb =>
        rw [front] at later
        rcases List.mem_append.mp later with sent | closed
        · obtain ⟨piece, -, rfl⟩ := List.mem_map.mp sent
          rfl
        · split at closed
          · rw [List.mem_singleton.mp closed]
            rfl
          · cases closed

theorem Clients.echoStep (clients : Clients s) (action : EchoAction) :
    Clients (echoStep room s action) :=
  run_preserves Clients (fun _ action clients => clients.step action) clients _

private theorem echoStep_buffer (action : EchoAction)
    (away : ∀ part, action = .parent part → part.fills s ≠ some fd) :
    BufferStep s (echoStep room s action) fd := by
  cases action with
  | parent part =>
      rw [echoStep, composite, echoParts]
      split
      · exact step_buffer part (away part rfl)
      · exact .refl s fd
  | worker owner finAccepted accepted closeAccepted =>
      have along : Along step (fun _ part => part.ofParent = false) s
          (echoParts room s (.worker owner finAccepted accepted closeAccepted)) :=
        along_of_forall s fun _ => worker_parts
      have kept := run_preserves_along (fun later : State => later.epi = s.epi ∧ later.gen = s.gen)
        (fun later part own same => by
          cases part with
          | recv | send | close => exact same
          | _ => cases own) ⟨rfl, rfl⟩ along
      exact .of_slot (congrFun kept.2 fd) (congrArg (fun epi : Epi => epi.fds fd) kept.1)

/-- Nothing has arrived for a registration that is still to come. -/
theorem arrival_future (flow : List Action) (worker : Nat) (fd : Int) {origin : Nat}
    (future : (run step init flow).regs < origin) :
    trace step (arrival worker fd origin) init flow = [] := by
  have kept := run_trace_preserves step (arrival worker fd origin) (fun _ _ => True)
    (fun s arrived => Inv s ∧ (s.regs < origin → arrived = []))
    (fun s action before _ ⟨inv, nothing⟩ => ⟨inv.step action, fun future => by
      have earlier := (regs_le s action).trans_lt future
      rw [nothing earlier, List.nil_append]
      cases action with
      | packet client data accepted closeAccepted =>
          cases accepted with
          | false => rfl
          | true =>
              refine if_neg ?_
              rintro ⟨-, -, rfl, rfl, -⟩
              have past := inv.gen_le client
              omega
      | _ => rfl⟩)
    init [] ⟨inv_init, fun _ => rfl⟩
    (@along_of_forall State Action step (fun _ => True) init flow fun _ _ => trivial)
  exact kept.2 future

private theorem partsOf_concat (start : State) (actions : List EchoAction) (action : EchoAction) :
    partsOf step (echoParts room) start (actions ++ [action]) =
      partsOf step (echoParts room) start actions ++
        echoParts room (run (echoStep room) start actions) action := by
  rw [partsOf, trace_append]
  exact congrArg _ (List.append_nil _)

end Traces

/-! ## Steps that one connection does not see -/

/-- A step that moves bytes of a connection. -/
def Action.carries : Action → Bool
  | .packet .. | .transfer .. | .output _ (.sent _ _) => true
  | _ => false

/-- The step has nothing to do with what a descriptor sends and is sent. -/
structure Quiet (room : Nat) (s : State) (action : EchoAction) (fd : Int) : Prop where
  away : ∀ part, action = .parent part → part.fills s ≠ some fd
  arrives : ∀ worker origin,
    trace step (arrival worker fd origin) s (echoParts room s action) = []
  goes : ∀ worker origin,
    trace step (applied worker fd origin) s (echoParts room s action) = []

section Quietness

variable {s : State} {fd client : Int} {worker room : Nat}

private theorem Quiet.of_part {part : Action} (away : part.fills s ≠ some fd)
    (arrives : ∀ worker origin, arrival worker fd origin s part = [])
    (goes : ∀ worker origin, applied worker fd origin s part = []) :
    Quiet room s (.parent part) fd where
  away := by
    rintro other same
    obtain rfl := EchoAction.parent.inj same
    exact away
  arrives worker origin := by
    rw [trace_parent (fun _ => arrival_worker) part]
    exact arrives worker origin
  goes worker origin := by
    rw [trace_parent (fun _ => applied_worker) part]
    exact goes worker origin

private theorem Quiet.of_silent {part : Action} (silent : part.carries = false) :
    Quiet room s (.parent part) fd := by
  cases part with
  | packet | transfer => cases silent
  | output owner outcome =>
      cases outcome with
      | sent => cases silent
      | failed => exact .of_part (fun fills => by cases fills) (fun _ _ => rfl) fun _ _ => rfl
  | _ => exact .of_part (fun fills => by cases fills) (fun _ _ => rfl) fun _ _ => rfl

private theorem quiet_transfer (apart : fd ≠ client) (cb : ConnBuf) (now : UInt32) :
    Quiet room s (.parent (.transfer client cb now)) fd :=
  .of_part (fun fills => apart (Option.some.inj fills).symm) (fun _ _ => rfl) fun _ _ => rfl

private theorem quiet_packet (apart : fd ≠ client) (data : List UInt8)
    (accepted closeAccepted : Bool) :
    Quiet room s (.parent (.packet client data accepted closeAccepted)) fd := by
  refine .of_part (fun fills => by cases fills) (fun _ _ => ?_) fun _ _ => rfl
  cases accepted with
  | false => rfl
  | true => exact if_neg fun here => apart here.2.2.1.symm

private theorem quiet_sent {mb : Block} {rest : List Block}
    (front : (s.worker worker).sendq = mb :: rest) (apart : fd ≠ mb.fd) (cb : ConnBuf)
    (now : UInt32) : Quiet room s (.parent (.output worker (.sent cb now))) fd := by
  refine .of_part ?_ (fun _ _ => rfl) fun owner origin => ?_
  · intro fills
    rw [Action.fills, front] at fills
    exact apart (Option.some.inj fills).symm
  · unfold applied
    cases queue : (s.worker owner).sendq with
    | nil => rfl
    | cons first others =>
        refine ite_eq_right_iff.mpr ?_
        rintro ⟨rfl, -⟩
        rw [front] at queue
        obtain ⟨rfl, -⟩ := List.cons.inj queue
        have other : ¬ (mb.type = .dataBlock ∧ mb.fd = fd ∧ mb.origin = origin) :=
          fun here => apart here.2.1.symm
        rw [Block.answer, if_neg other]
        rfl

private theorem quiet_round (finAccepted : Bool) (accepted : Nat) (closeAccepted : Bool) :
    Quiet room s (.worker worker finAccepted accepted closeAccepted) fd where
  away := fun _ same => by cases same
  arrives _ _ := trace_nil fun _ member _ => arrival_worker (worker_parts member)
  goes _ _ := trace_nil fun _ member _ => applied_worker (worker_parts member)

end Quietness

/-! ## Histories -/

namespace Sockets

/-- What the parent has pushed to the worker for the last connection of a descriptor. -/
def arrived (s : Sockets) (worker : Nat) (fd : Int) : List UInt8 :=
  (trace step (arrival worker fd (s.server.gen fd)) Session.init s.flow).flatten

/-- What the parent has handed to `net_send` for it. -/
def handed (s : Sockets) (worker : Nat) (fd : Int) : List UInt8 :=
  (trace step (applied worker fd (s.server.gen fd)) Session.init s.flow).flatten

/-- The identifiers have not come round. -/
def Near (s : Sockets) : Prop := s.server.regs < 4294967295

structure Core (c : EchoConfig) (s : Sockets) : Prop where
  history : ∃ actions, s.flow = partsOf step (echoParts c.room) Session.init actions ∧
    s.server = run (echoStep c.room) Session.init actions
  near : s.Near
  short : Short c.room s.server
  clients : Clients s.server
  echoed : ∀ fd, (s.side fd).accepted <+: s.received fd

section Histories

variable {c : EchoConfig} {s : Sockets} {fd other : Int} {worker : Nat} {action : EchoAction}
  {chunk : List UInt8} {conn : Output.Conn}

private theorem Core.run_flow (core : Core c s) : run step Session.init s.flow = s.server := by
  obtain ⟨actions, flow, server⟩ := core.history
  rw [flow, server, run_partsOf]
  rfl

theorem Core.inv (core : Core c s) : Inv s.server :=
  core.run_flow ▸ (historic_run s.flow).inv

private theorem core_init (c : EchoConfig) : Core c init where
  history := ⟨[], rfl, rfl⟩
  near := by
    show 0 < 4294967295
    decide
  short := fun worker mb member => by cases member
  clients := fun fd set => by cases set
  echoed := fun _ => List.nil_prefix

/-- A step that registers nothing. -/
theorem Core.near_parent (core : Core c s) {part : Action}
    (same : (step s.server part).regs = s.server.regs) : (s.parent c.room part).Near := by
  have after : (s.parent c.room part).server.regs = s.server.regs := by
    show (run step s.server (echoParts c.room s.server (.parent part))).regs = s.server.regs
    rw [echoParts]
    split
    · exact same
    · rfl
  exact after.trans_lt core.near

private theorem act_flow (s : Sockets) (room : Nat) (action : EchoAction) :
    (s.act room action).flow = s.flow ++ echoParts room s.server action := rfl

private theorem act_side {room : Nat} (same : (s.act room action).server.gen fd = s.server.gen fd) :
    (s.act room action).side fd = s.side fd := if_pos same

private theorem act_received {room : Nat}
    (same : (s.act room action).server.gen fd = s.server.gen fd) :
    (s.act room action).received fd = s.received fd := if_pos same

private theorem hear_same :
    (s.hear fd chunk).received fd = s.received fd ++ chunk := Function.update_self ..

private theorem hear_other (apart : other ≠ fd) :
    (s.hear fd chunk).received other = s.received other :=
  Function.update_of_ne apart ..

private theorem setSide_same : (s.setSide fd conn).side fd =
    ⟨conn.pollout, conn.passed, conn.accepted, conn.failed⟩ := Function.update_self ..

private theorem setSide_other (apart : other ≠ fd) :
    (s.setSide fd conn).side other = s.side other :=
  Function.update_of_ne apart ..

theorem Core.act (core : Core c s) {action : EchoAction} (near : (s.act c.room action).Near) :
    Core c (s.act c.room action) where
  history := by
    obtain ⟨actions, flow, server⟩ := core.history
    refine ⟨actions ++ [action], ?_, ?_⟩
    · rw [partsOf_concat, ← flow, ← server]
      rfl
    · rw [run_concat, ← server]
      rfl
  near := near
  short := core.short.echoStep action
  clients := core.clients.echoStep action
  echoed := by
    intro fd
    by_cases same : (s.act c.room action).server.gen fd = s.server.gen fd
    · rw [act_side same, act_received same]
      exact core.echoed fd
    · have fresh : (s.act c.room action).side fd = ⟨false, [], [], false⟩ := if_neg same
      rw [fresh]
      exact List.nil_prefix

theorem Core.hear (core : Core c s) (fd : Int) (chunk : List UInt8) : Core c (s.hear fd chunk) where
  history := core.history
  near := core.near
  short := core.short
  clients := core.clients
  echoed := by
    intro other
    have before := core.echoed other
    by_cases here : other = fd
    · subst here
      rw [hear_same]
      exact before.trans (List.prefix_append ..)
    · rw [hear_other here]
      exact before

theorem Core.setSide (core : Core c s) (taken : conn.accepted <+: s.received fd) :
    Core c (s.setSide fd conn) where
  history := core.history
  near := core.near
  short := core.short
  clients := core.clients
  echoed := by
    intro other
    by_cases here : other = fd
    · subst here
      rw [setSide_same]
      exact taken
    · rw [setSide_other here]
      exact core.echoed other

theorem Core.stop (core : Core c s) : Core c { s with ended := true } :=
  ⟨core.history, core.near, core.short, core.clients, core.echoed⟩

private theorem Core.handed_arrived (core : Core c s) (pos : 0 < c.room) (worker : Nat) (fd : Int) :
    s.handed worker fd <+: s.arrived worker fd := by
  obtain ⟨actions, flow, server⟩ := core.history
  have near : s.server.regs - s.server.gen fd < 4294967295 := (Nat.sub_le ..).trans_lt core.near
  rw [handed, arrived, flow]
  exact handed_le_arrived pos actions worker fd _ (server ▸ near)

private theorem arrived_act (core : Core c s)
    (same : (s.act c.room action).server.gen fd = s.server.gen fd) :
    (s.act c.room action).arrived worker fd = s.arrived worker fd ++
      (trace step (arrival worker fd (s.server.gen fd)) s.server
        (echoParts c.room s.server action)).flatten := by
  rw [arrived, same, act_flow, trace_append, core.run_flow, List.flatten_append]
  rfl

private theorem handed_act (core : Core c s)
    (same : (s.act c.room action).server.gen fd = s.server.gen fd) :
    (s.act c.room action).handed worker fd = s.handed worker fd ++
      (trace step (applied worker fd (s.server.gen fd)) s.server
        (echoParts c.room s.server action)).flatten := by
  rw [handed, same, act_flow, trace_append, core.run_flow, List.flatten_append]
  rfl

end Histories

/-! ## Connections -/

/-- The histories of a connection, where `heard` has not been pushed yet and `due` is not
counted as handed over. -/
structure Books (s : Sockets) (fd : Int) (heard due : List UInt8) : Prop where
  came : ∀ worker, (s.server.epi.fds fd).bcElem = some worker →
    s.received fd = s.arrived worker fd ++ heard
  went : ∀ worker, (s.server.epi.fds fd).bcElem = some worker →
    (s.side fd).passed = s.handed worker fd ++ due
  unserved : (s.server.epi.fds fd).bcElem = none → (s.side fd).passed = []

structure Intact (s : Sockets) (fd : Int) : Prop where
  drained : Drained (s.server.epi.fds fd).cb
  flows : Output.Flows (s.conn fd)
  books : Books s fd [] []

/-- Every connection but the one that a function is about. -/
def Others (s : Sockets) (fd : Int) : Prop :=
  ∀ other, other ≠ fd → (s.server.epi.fds other).type = .remote → Intact s other

section Connections

variable {c : EchoConfig} {s : Sockets} {fd other : Int} {worker : Nat} {action : EchoAction}
  {heard due chunk : List UInt8} {conn : Output.Conn}

theorem Books.act (core : Core c s) (books : Books s fd heard due)
    (gen : (s.act c.room action).server.gen fd = s.server.gen fd)
    (bcElem : ((s.act c.room action).server.epi.fds fd).bcElem = (s.server.epi.fds fd).bcElem)
    (arrives : ∀ worker, (s.server.epi.fds fd).bcElem = some worker →
      (trace step (arrival worker fd (s.server.gen fd)) s.server
        (echoParts c.room s.server action)).flatten = heard)
    (goes : ∀ worker, (s.server.epi.fds fd).bcElem = some worker →
      (trace step (applied worker fd (s.server.gen fd)) s.server
        (echoParts c.room s.server action)).flatten = due) :
    Books (s.act c.room action) fd [] [] where
  came worker serves := by
    rw [bcElem] at serves
    rw [act_received gen, arrived_act core gen, arrives worker serves, List.append_nil]
    exact books.came worker serves
  went worker serves := by
    rw [bcElem] at serves
    rw [act_side gen, handed_act core gen, goes worker serves, List.append_nil]
    exact books.went worker serves
  unserved none := by
    rw [bcElem] at none
    rw [act_side gen]
    exact books.unserved none

theorem Intact.act (pos : 0 < c.room) (core : Core c s) (near : (s.act c.room action).Near)
    (quiet : Quiet c.room s.server action fd)
    (intact : (s.server.epi.fds fd).type = .remote → Intact s fd)
    (remote : ((s.act c.room action).server.epi.fds fd).type = .remote) :
    Intact (s.act c.room action) fd := by
  have buffer : BufferStep s.server (s.act c.room action).server fd :=
    echoStep_buffer action quiet.away
  cases buffer with
  | kept gen type bcElem cb =>
      obtain ⟨drained, flows, books⟩ := intact (type ▸ remote)
      have side := act_side gen
      refine ⟨?_, flows.congr cb ?_ ?_, books.act core gen bcElem ?_ ?_⟩
      · exact cb ▸ drained
      · exact congrArg Output.Side.accepted side
      · exact congrArg Output.Side.passed side
      · intro worker _
        rw [quiet.arrives]
        rfl
      · intro worker _
        rw [quiet.goes]
        rfl
  | closed away => exact absurd remote away
  | opened gen cb =>
      have past := core.inv.gen_le fd
      have fresh : (s.act c.room action).server.gen fd ≠ s.server.gen fd := fun same => by
        have gen : (s.act c.room action).server.gen fd = s.server.regs + 1 := gen
        omega
      have side : (s.act c.room action).side fd = ⟨false, [], [], false⟩ := if_neg fresh
      have received : (s.act c.room action).received fd = [] := if_neg fresh
      have arrived (worker : Nat) : (s.act c.room action).arrived worker fd = [] := by
        have future : (run step Session.init s.flow).regs < (s.act c.room action).server.gen fd := by
          rw [core.run_flow]
          exact gen ▸ Nat.lt_succ_self _
        rw [Sockets.arrived, act_flow, trace_append, core.run_flow, quiet.arrives,
          arrival_future s.flow worker fd future]
        rfl
      have handed (worker : Nat) : (s.act c.room action).handed worker fd = [] := by
        have before := (core.act near).handed_arrived pos worker fd
        rw [arrived] at before
        exact List.prefix_nil.mp before
      have cb : ((s.act c.room action).server.epi.fds fd).cb = .zero := cb
      refine ⟨?_, ?_, ?_, ?_, ?_⟩
      · rw [cb]
        exact ⟨rfl, rfl⟩
      · refine ⟨?_, ?_, ?_⟩ <;> simp [conn, cb, side, ConnBuf.zero, Output.Conn.backlog,
          Output.output, Backlog.passed]
      · intro worker _
        rw [received, arrived]
        rfl
      · intro worker _
        rw [side, handed]
        rfl
      · intro _
        rw [side]

end Connections

end Sockets

theorem Drained.same {cb cb' : ConnBuf} (drained : Drained cb) (input : Output.SameInput cb cb') :
    Drained cb' :=
  ⟨input.recvlen.trans drained.recvlen, input.rcvprotlen.trans drained.rcvprotlen⟩

/-- The sizes of a configuration. -/
structure EchoConfig.Fits (c : EchoConfig) : Prop where
  pos : 0 < c.room
  room : c.room < 2147483648
  positive : 0 < c.sizes.max
  small : c.sizes.max < 2147483648
  paged : c.sizes.max ≤ c.sizes.pageSize

namespace Sockets

structure Sound (c : EchoConfig) (s : Sockets) : Prop where
  core : Core c s
  intact : s.ended = false → ∀ fd, (s.server.epi.fds fd).type = .remote → Intact s fd

section Steps

variable {c : EchoConfig} {s : Sockets} {fd other : Int} {worker : Nat} {action : EchoAction}
  {heard due chunk : List UInt8} {conn : Output.Conn} {now : UInt32}

private theorem Sound.of_others (core : Core c s) (others : Others s fd)
    (here : (s.server.epi.fds fd).type = .remote → Intact s fd) : Sound c s where
  core := core
  intact _ other remote := by
    by_cases apart : other = fd
    · subst apart
      exact here remote
    · exact others other apart remote

theorem Sound.others (sound : Sound c s) (alive : s.ended = false) (fd : Int) : Others s fd :=
  fun other _ => sound.intact alive other

theorem Sound.stop (core : Core c s) : Sound c { s with ended := true } :=
  ⟨core.stop, fun alive => by cases alive⟩

theorem Sound.act (pos : 0 < c.room) (sound : Sound c s) (near : (s.act c.room action).Near)
    (quiet : ∀ fd, Quiet c.room s.server action fd) : Sound c (s.act c.room action) where
  core := sound.core.act near
  intact alive fd := Intact.act pos sound.core near (quiet fd) (sound.intact alive fd)

theorem Others.act (pos : 0 < c.room) (core : Core c s) (near : (s.act c.room action).Near)
    (others : Others s fd) (quiet : ∀ other, other ≠ fd → Quiet c.room s.server action other) :
    Others (s.act c.room action) fd :=
  fun other apart => Intact.act pos core near (quiet other apart) (others other apart)

theorem Intact.hear (intact : Intact s other) (apart : other ≠ fd) : Intact (s.hear fd chunk) other where
  drained := intact.drained
  flows := intact.flows
  books :=
    { came := fun worker serves => (hear_other apart).trans (intact.books.came worker serves)
      went := intact.books.went
      unserved := intact.books.unserved }

theorem Intact.setSide (intact : Intact s other) (apart : other ≠ fd) :
    Intact (s.setSide fd conn) other where
  drained := intact.drained
  flows := intact.flows.congr rfl (congrArg Output.Side.accepted (setSide_other apart))
    (congrArg Output.Side.passed (setSide_other apart))
  books :=
    { came := intact.books.came
      went := fun worker serves => by
        rw [setSide_other apart]
        exact intact.books.went worker serves
      unserved := fun none => by
        rw [setSide_other apart]
        exact intact.books.unserved none }

theorem Sound.setSide (sound : Sound c s) (alive : s.ended = false)
    (taken : conn.accepted <+: s.received fd) :
    Core c (s.setSide fd conn) ∧ Others (s.setSide fd conn) fd :=
  ⟨sound.core.setSide taken, fun other apart remote => (sound.intact alive other remote).setSide apart⟩

theorem Books.hear (books : Books s fd [] []) (chunk : List UInt8) :
    Books (s.hear fd chunk) fd chunk [] where
  came worker serves := by
    rw [hear_same, books.came worker serves, List.append_nil]
    rfl
  went := books.went
  unserved := books.unserved

theorem Books.setSide (books : Books s fd [] []) (passed : conn.passed = (s.side fd).passed ++ due)
    (served : (s.server.epi.fds fd).bcElem = none → due = []) :
    Books (s.setSide fd conn) fd [] due where
  came := books.came
  went worker serves := by
    rw [setSide_same, passed, books.went worker serves, List.append_nil]
    rfl
  unserved none := by
    rw [setSide_same, passed, books.unserved none, served none]
    rfl

private theorem Books.passed_le (pos : 0 < c.room) (core : Core c s) (books : Books s fd [] []) :
    (s.side fd).passed <+: s.received fd := by
  cases serves : (s.server.epi.fds fd).bcElem with
  | none =>
      rw [books.unserved serves]
      exact List.nil_prefix
  | some worker =>
      rw [books.went worker serves, books.came worker serves, List.append_nil, List.append_nil]
      exact core.handed_arrived pos worker fd

/-- A step that puts a new buffer into the slot, beside the histories that go with it. -/
theorem Intact.fill (core : Core c s) (books : Books s fd heard due) (flows : Output.Flows conn)
    (drained : Drained conn.cb) (accepted : (s.side fd).accepted = conn.accepted)
    (passed : (s.side fd).passed = conn.passed)
    (gen : (s.act c.room action).server.gen fd = s.server.gen fd)
    (slot : (s.act c.room action).server.epi.fds fd =
      filled (s.server.epi.fds fd) conn.cb now)
    (arrives : ∀ worker, (s.server.epi.fds fd).bcElem = some worker →
      (trace step (arrival worker fd (s.server.gen fd)) s.server
        (echoParts c.room s.server action)).flatten = heard)
    (goes : ∀ worker, (s.server.epi.fds fd).bcElem = some worker →
      (trace step (applied worker fd (s.server.gen fd)) s.server
        (echoParts c.room s.server action)).flatten = due) :
    Intact (s.act c.room action) fd where
  drained := by
    rw [slot]
    exact drained
  flows := by
    have side := act_side gen
    refine flows.congr (congrArg FdInfo.cb slot) ?_ ?_
    · exact (congrArg Output.Side.accepted side).trans accepted
    · exact (congrArg Output.Side.passed side).trans passed
  books := books.act core gen (slot ▸ rfl) arrives goes

private theorem parent_server {room : Nat} {part : Action} (own : part.ofParent = true) :
    (s.parent room part).server = step s.server part := by
  show run step s.server (echoParts room s.server (.parent part)) = step s.server part
  rw [echoParts, if_pos own]
  rfl

private theorem transfer_sound (pos : 0 < c.room) (core : Core c s) (others : Others s fd)
    (remote : (s.server.epi.fds fd).type = .remote) (books : Books s fd [] [])
    (flows : Output.Flows conn) (drained : Drained conn.cb)
    (accepted : (s.side fd).accepted = conn.accepted) (passed : (s.side fd).passed = conn.passed)
    (now : UInt32) : Sound c (s.parent c.room (.transfer fd conn.cb now)) := by
  have near : (s.parent c.room (.transfer fd conn.cb now)).Near :=
    core.near_parent (by rw [step, if_pos remote]; rfl)
  have server : (s.parent c.room (.transfer fd conn.cb now)).server = step s.server _ :=
    parent_server rfl
  have gen : (s.parent c.room (.transfer fd conn.cb now)).server.gen fd = s.server.gen fd := by
    rw [server, step, if_pos remote]
    rfl
  have slot : (s.parent c.room (.transfer fd conn.cb now)).server.epi.fds fd =
      filled (s.server.epi.fds fd) conn.cb now := by
    rw [server]
    exact transfer_slot remote
  refine .of_others (core.act near)
    (others.act pos core near fun other apart => quiet_transfer apart conn.cb now) fun _ =>
    .fill core books flows drained accepted passed gen slot ?_ ?_
  · intro worker _
    rw [trace_parent (fun _ => arrival_worker)]
    rfl
  · intro worker _
    rw [trace_parent (fun _ => applied_worker)]
    rfl

private theorem drop_away (s : State) (fd : Int) (closeAccepted : Bool) :
    ((step s (.drop fd closeAccepted)).epi.fds fd).type ≠ .remote := by
  simp only [step]
  split
  · rename_i remote
    simp [State.dropConn, State.delConn, remote, release_same]
  · assumption

/-- A step that deletes the connection. -/
theorem delete_sound (pos : 0 < c.room) (core : Core c s) (others : Others s fd) {part : Action}
    (own : part.ofParent = true) (silent : part.carries = false)
    (regs : (step s.server part).regs = s.server.regs)
    (away : ((step s.server part).epi.fds fd).type ≠ .remote) : Sound c (s.parent c.room part) := by
  have near := core.near_parent regs
  refine .of_others (core.act near) (others.act pos core near fun _ _ => .of_silent silent)
    fun remote => ?_
  rw [← @parent_server s c.room part own] at away
  exact absurd remote away

private theorem drop_sound (pos : 0 < c.room) (core : Core c s) (others : Others s fd)
    (closeAccepted : Bool) : Sound c (s.parent c.room (.drop fd closeAccepted)) := by
  refine delete_sound pos core others rfl rfl ?_ (drop_away s.server fd closeAccepted)
  simp only [step]
  split
  · exact dropConn_regs fd closeAccepted
  · rfl

/-! ### `net_recv` -/

private theorem packets_others (pos : 0 < c.room) (packets : List (List UInt8)) (core : Core c s)
    (others : Others s fd) :
    let pushed := packets.foldl (fun s data => s.parent c.room (.packet fd data true true)) s
    Core c pushed ∧ Others pushed fd := by
  induction packets generalizing s with
  | nil => exact ⟨core, others⟩
  | cons data rest ih =>
      have near : (s.parent c.room (.packet fd data true true)).Near := core.near_parent (by
        simp only [step]
        split
        · exact pushBlock_regs ..
        · rfl)
      exact ih (core.act near)
        (others.act pos core near fun other apart => quiet_packet apart data true true)

private theorem packet_same (room : Nat) (remote : (s.server.epi.fds fd).type = .remote) :
    (s.parent room (.packet fd chunk true true)).server.gen fd = s.server.gen fd ∧
      (s.parent room (.packet fd chunk true true)).server.epi.fds fd = s.server.epi.fds fd := by
  have server : (s.parent room (.packet fd chunk true true)).server =
      s.server.pushBlock fd .dataBlock chunk true := by
    rw [parent_server rfl]
    simp [step, remote]
  rw [server, pushBlock_gen, Agrees.pushBlock_epi]
  exact ⟨rfl, rfl⟩

/-- The packet goes to the worker that serves the connection. -/
theorem packet_books (core : Core c s) (remote : (s.server.epi.fds fd).type = .remote)
    (books : Books s fd chunk []) :
    Books (s.parent c.room (.packet fd chunk true true)) fd [] [] := by
  obtain ⟨gen, slot⟩ := @packet_same s fd chunk c.room remote
  refine books.act core gen (congrArg FdInfo.bcElem slot) ?_ ?_
  · intro worker serves
    rw [trace_parent (fun _ => arrival_worker)]
    by_cases empty : chunk = [] <;> simp [arrival, remote, serves, empty]
  · intro worker _
    rw [trace_parent (fun _ => applied_worker)]
    rfl

/-- What has come has been pushed, and the buffer is transferred. -/
theorem read_transfer (pos : 0 < c.room) (core : Core c s) (others : Others s fd)
    (remote : (s.server.epi.fds fd).type = .remote) (books : Books s fd [] [])
    (flows : Output.Flows (s.conn fd)) {cb : ConnBuf} (drained : Drained cb)
    (same : SameOutput (s.server.epi.fds fd).cb cb) (now : UInt32) :
    Sound c (s.parent c.room (.transfer fd cb now)) := by
  have flows : Output.Flows { s.conn fd with cb := cb } := by
    have sent : Output.output cb = Output.output (s.server.epi.fds fd).cb := by
      unfold Output.output
      rw [same.sendptr, same.sendlen]
    refine ⟨?_, ?_, ?_⟩
    · show cb.sendlen ≤ cb.sndbufsz
      rw [same.sendlen, same.sndbufsz]
      exact flows.sized
    · show cb.sendptr = none → cb.sendlen = 0
      rw [same.sendlen, same.sendptr]
      exact flows.mapped
    · show (s.side fd).accepted ++ Output.output cb = (s.side fd).passed
      rw [sent]
      exact flows.whole
  exact transfer_sound pos core others remote books flows drained rfl rfl now

theorem Sound.read (fits : c.Fits) (sound : Sound c s) (alive : s.ended = false)
    (remote : (s.server.epi.fds fd).type = .remote) {result : RecvResult}
    (possible : result.Possible (c.sizes.max - (s.server.epi.fds fd).cb.recvlen)) (now : UInt32)
    (accepted closeAccepted : Bool) : Sound c (s.read c fd result now accepted closeAccepted) := by
  obtain ⟨drained, flows, books⟩ := sound.intact alive fd remote
  rw [drained.recvlen, Nat.sub_zero] at possible
  have handed := netRecv_handed accepted fits.paged fits.positive fits.small remote drained possible now
  unfold Sockets.read
  generalize netRecv c.sizes (toWorker accepted) s.server.epi fd result now [] = outcome at handed ⊢
  obtain ⟨epi, packets, outcome⟩ := outcome
  have core := sound.core.hear fd result.chunk
  have others : Others (s.hear fd result.chunk) fd :=
    fun other apart remote => (sound.intact alive other remote).hear apart
  rcases handed with failed | ⟨cnt, kept, good, pushed, drained, same⟩
  · simp only at failed
    subst failed
    simp only [if_true]
    split
    · obtain ⟨core, others⟩ := packets_others fits.pos packets core others
      exact drop_sound fits.pos core others closeAccepted
    · exact drop_sound fits.pos core others closeAccepted
  · simp only at kept pushed drained same
    subst kept
    simp only [if_neg good]
    have heard := books.hear result.chunk
    rcases pushed with ⟨rfl, none⟩ | ⟨rfl, rfl⟩
    · rw [none] at core others heard ⊢
      simp only [List.foldl_nil, ite_self]
      exact read_transfer fits.pos core others remote heard flows drained same _
    · simp only [if_true, List.foldl_cons, List.foldl_nil]
      obtain ⟨gen, slot⟩ := @packet_same (s.hear fd result.chunk) fd result.chunk c.room remote
      have side := act_side gen
      obtain ⟨core, others⟩ := packets_others fits.pos [result.chunk] core others
      have books := packet_books (sound.core.hear fd result.chunk) remote heard
      refine read_transfer fits.pos core others (slot ▸ remote) books ?_ drained ?_ _
      · exact flows.congr (congrArg FdInfo.cb slot) (congrArg Output.Side.accepted side)
          (congrArg Output.Side.passed side)
      · rw [List.foldl_cons, List.foldl_nil, slot]
        exact same

/-! ### `net_send` -/

section Front

variable {mb : Block} {rest : List Block}

theorem Core.front (core : Core c s) (queue : (s.server.worker worker).sendq = mb :: rest)
    (passes : s.server.Passes mb) :
    s.server.gen mb.fd = mb.origin ∧ (s.server.epi.fds mb.fd).bcElem = some worker := by
  have member : mb ∈ (s.server.worker worker).sendq := queue ▸ List.mem_cons_self
  have known := (core.inv.workers worker).sendq mb member
  have current := core.inv.passes_origin known passes ((Nat.sub_le ..).trans_lt core.near)
  exact ⟨current, known.owner current⟩

private theorem Core.front_data (core : Core c s)
    (queue : (s.server.worker worker).sendq = mb :: rest)
    (type : mb.type ≠ .finBlock) : mb.type = .dataBlock ∧ mb.data.length ≤ c.room := by
  have fits := core.short worker mb (queue ▸ List.mem_cons_self)
  exact ⟨fits.type.resolve_right type, fits.length⟩

private theorem passes_remote {s : State} (passes : s.Passes mb) :
    (s.epi.fds mb.fd).type = .remote :=
  not_not.mp (not_or.mp passes.2).1

/-- What `net_send` keeps is handed over. -/
theorem sent_parts (core : Core c s) (queue : (s.server.worker worker).sendq = mb :: rest)
    (passes : s.server.Passes mb) (type : mb.type ≠ .finBlock) (cb : ConnBuf) (now : UInt32)
    {owner : Nat} (serves : (s.server.epi.fds mb.fd).bcElem = some owner) :
    (trace step (arrival owner mb.fd (s.server.gen mb.fd)) s.server
        (echoParts c.room s.server (.parent (.output worker (.sent cb now))))).flatten = [] ∧
      (trace step (applied owner mb.fd (s.server.gen mb.fd)) s.server
        (echoParts c.room s.server (.parent (.output worker (.sent cb now))))).flatten = mb.data := by
  obtain ⟨current, own⟩ := core.front queue passes
  obtain rfl := Option.some.inj (own.symm.trans serves)
  have data := (core.front_data queue type).1
  rw [trace_parent (fun _ => arrival_worker), trace_parent (fun _ => applied_worker)]
  refine ⟨rfl, ?_⟩
  simp [applied, queue, passes, Block.answer, data, current]

private theorem sent_server {room : Nat} (queue : (s.server.worker worker).sendq = mb :: rest)
    (passes : s.server.Passes mb) (type : mb.type ≠ .finBlock) (cb : ConnBuf) (now : UInt32) :
    let sent := (s.parent room (.output worker (.sent cb now))).server
    sent.regs = s.server.regs ∧ sent.gen = s.server.gen ∧
      sent.epi.fds mb.fd = filled (s.server.epi.fds mb.fd) cb now := by
  intro sent
  have server : sent = step s.server (.output worker (.sent cb now)) := parent_server rfl
  have kept : sent.regs = s.server.regs ∧ sent.gen = s.server.gen := by
    rw [server]
    simp only [step, State.handleSendQueue_front queue, if_pos passes, State.applyBlock, if_neg type]
    exact ⟨rfl, rfl⟩
  refine ⟨kept.1, kept.2, ?_⟩
  rw [server]
  exact output_slot queue passes type

/-- What `net_send` is given has been received. -/
theorem Books.passed_data (pos : 0 < c.room) (core : Core c s) (books : Books s mb.fd [] [])
    (queue : (s.server.worker worker).sendq = mb :: rest) (passes : s.server.Passes mb)
    (type : mb.type ≠ .finBlock) : (s.side mb.fd).passed ++ mb.data <+: s.received mb.fd := by
  obtain ⟨regs, gen, -⟩ := @sent_server s worker mb rest c.room queue passes type .zero 0
  have near : (s.parent c.room (.output worker (.sent .zero 0))).Near := regs.trans_lt core.near
  have own := (core.front queue passes).2
  obtain ⟨came, went⟩ := sent_parts core queue passes type .zero 0 own
  have after := (core.act near).handed_arrived pos worker mb.fd
  rw [handed_act core (congrFun gen mb.fd), arrived_act core (congrFun gen mb.fd), came, went,
    List.append_nil] at after
  rw [books.went worker own, books.came worker own, List.append_nil, List.append_nil]
  exact after

private theorem sent_sound (pos : 0 < c.room) (core : Core c s) (others : Others s mb.fd)
    (queue : (s.server.worker worker).sendq = mb :: rest) (passes : s.server.Passes mb)
    (type : mb.type ≠ .finBlock) (books : Books s mb.fd [] mb.data) (flows : Output.Flows conn)
    (drained : Drained conn.cb) (accepted : (s.side mb.fd).accepted = conn.accepted)
    (passed : (s.side mb.fd).passed = conn.passed) (now : UInt32) :
    Sound c (s.parent c.room (.output worker (.sent conn.cb now))) := by
  obtain ⟨regs, gen, slot⟩ := @sent_server s worker mb rest c.room queue passes type conn.cb now
  have near := regs.trans_lt core.near
  refine .of_others (core.act near)
    (others.act pos core near fun other apart => quiet_sent queue apart conn.cb now) fun _ =>
    .fill core books flows drained accepted passed (congrFun gen mb.fd) slot ?_ ?_
  · exact fun owner serves => (sent_parts core queue passes type conn.cb now serves).1
  · exact fun owner serves => (sent_parts core queue passes type conn.cb now serves).2

private theorem failed_sound (pos : 0 < c.room) (core : Core c s) (others : Others s mb.fd)
    (queue : (s.server.worker worker).sendq = mb :: rest) (passes : s.server.Passes mb)
    (type : mb.type ≠ .finBlock) (closeAccepted : Bool) :
    Sound c (s.parent c.room (.output worker (.failed closeAccepted))) := by
  have remote := passes_remote passes
  refine delete_sound pos core others rfl rfl ?_ ?_
  · simp only [step, State.handleSendQueue_front queue, if_pos passes, applyBlock_regs]
    rfl
  · simp only [step, State.handleSendQueue_front queue, if_pos passes, State.applyBlock, if_neg type]
    simp [State.dropConn, State.delConn, remote, release_same, State.setWorker]

end Front

theorem Sound.output (fits : c.Fits) (sound : Sound c s) (alive : s.ended = false) (worker : Nat)
    (kernel : Output.Kernel) (closeAccepted : Bool) :
    Sound c (s.output c worker kernel closeAccepted) := by
  unfold Sockets.output
  cases queue : (s.server.worker worker).sendq with
  | nil => exact sound
  | cons mb rest =>
      simp only
      by_cases taken : s.server.Passes mb ∧ mb.type ≠ .finBlock
      · obtain ⟨passes, type⟩ := taken
        obtain ⟨drained, flows, books⟩ := sound.intact alive mb.fd (passes_remote passes)
        have received := books.passed_data fits.pos sound.core queue passes type
        have short := (sound.core.front_data queue type).2.trans_lt fits.room
        have own := (sound.core.front queue passes).2
        have sent := @Output.netSend_kept (s.conn mb.fd) mb.data kernel c.limit true flows short
        have part := (@Output.netSend_taken (s.conn mb.fd) c.limit true flows mb.data kernel).trans received
        rw [if_pos ⟨passes, type⟩]
        generalize (s.conn mb.fd).netSend true c.limit mb.data kernel = result at sent part ⊢
        obtain ⟨conn, verdict⟩ := result
        obtain ⟨core, others⟩ := sound.setSide alive part
        cases verdict with
        | aborted => exact .stop core
        | deleted => exact failed_sound fits.pos core others queue passes type closeAccepted
        | kept ret =>
            obtain ⟨flows, passed, input⟩ := sent rfl
            have books := books.setSide passed fun none => by
              rw [own] at none
              cases none
            refine sent_sound fits.pos core others queue passes type books flows ?_ ?_ ?_ _
            · exact drained.same input
            · rw [setSide_same]
            · rw [setSide_same]
      · rw [if_neg taken]
        refine sound.act fits.pos ?_ fun fd => .of_silent rfl
        refine sound.core.near_parent ?_
        simp only [step, State.handleSendQueue_front queue]
        split
        · rw [applyBlock_regs]
          rfl
        · rfl

/-! ### `EPOLLOUT` and the close queue -/

theorem Sound.pollout (fits : c.Fits) (sound : Sound c s) (alive : s.ended = false)
    (remote : (s.server.epi.fds fd).type = .remote) (results : List Output.SendResult) (now : UInt32)
    (closeAccepted : Bool) : Sound c (s.pollout c fd results now closeAccepted) := by
  obtain ⟨drained, flows, books⟩ := sound.intact alive fd remote
  have part := (Output.handlePollout_taken flows results now).trans (books.passed_le fits.pos sound.core)
  have written := @Output.handlePollout_kept (s.conn fd) results now flows
  unfold Sockets.pollout
  generalize (s.conn fd).handlePollout results now = result at written part ⊢
  obtain ⟨conn, verdict⟩ := result
  obtain ⟨core, others⟩ := sound.setSide alive part
  cases verdict with
  | aborted => exact .stop core
  | deleted => exact drop_sound fits.pos core others closeAccepted
  | kept ret =>
      obtain ⟨flows, passed, input⟩ := written rfl
      have books : Books (s.setSide fd conn) fd [] [] :=
        books.setSide (passed.trans (List.append_nil _).symm) fun _ => rfl
      refine transfer_sound fits.pos core others remote books flows ?_ ?_ ?_ _
      · exact drained.same input
      · rw [setSide_same]
      · rw [setSide_same]

private theorem closeQueue_sound (pos : 0 < c.room) {rest : List Int}
    (queue : s.server.epi.closeHead = fd :: rest) (core : Core c s) (others : Others s fd) :
    Sound c (s.parent c.room .closeQueue) := by
  refine delete_sound pos core others rfl rfl ?_ ?_
  · simp only [step, queue]
    rfl
  · simp only [step, queue]
    simp [State.delConn, release_same]

theorem Sound.closeQueue (fits : c.Fits) (sound : Sound c s) (alive : s.ended = false)
    (results : List Output.SendResult) (now : UInt32) : Sound c (s.closeQueue c results now) := by
  unfold Sockets.closeQueue
  cases queue : s.server.epi.closeHead with
  | nil => exact sound
  | cons fd rest =>
      have member : fd ∈ s.server.epi.closeHead := queue ▸ List.mem_cons_self
      have remote := sound.core.clients fd ((sound.core.inv.tidy.closing fd).mp member)
      obtain ⟨-, flows, books⟩ := sound.intact alive fd remote
      have part := (Output.doWriteConn_taken flows results now).trans
        (books.passed_le fits.pos sound.core)
      simp only
      generalize (s.conn fd).doWriteConn results now = result at part ⊢
      obtain ⟨conn, verdict⟩ := result
      obtain ⟨core, others⟩ := sound.setSide alive part
      split
      · split
        · exact .stop core
        · exact closeQueue_sound fits.pos queue core others
      · exact closeQueue_sound fits.pos queue sound.core (sound.others alive fd)

/-! ### Runs -/

private theorem regs_le_act (s : Sockets) (room : Nat) (action : EchoAction) :
    s.server.regs ≤ (s.act room action).server.regs := run_regs_le ..

private theorem regs_le_packets (s : Sockets) (room : Nat) (fd : Int)
    (packets : List (List UInt8)) :
    s.server.regs ≤
      (packets.foldl (fun s data => s.parent room (.packet fd data true true)) s).server.regs := by
  induction packets generalizing s with
  | nil => exact le_rfl
  | cons data rest ih => exact (regs_le_act ..).trans (ih _)

private theorem regs_le_read (s : Sockets) (c : EchoConfig) (fd : Int) (result : RecvResult)
    (now : UInt32)
    (accepted closeAccepted : Bool) :
    s.server.regs ≤ (s.read c fd result now accepted closeAccepted).server.regs := by
  unfold Sockets.read
  generalize netRecv c.sizes (toWorker accepted) s.server.epi fd result now [] = outcome
  obtain ⟨epi, packets, outcome⟩ := outcome
  have pushed : s.server.regs ≤ (if accepted then
      packets.foldl (fun s data => s.parent c.room (.packet fd data true true)) (s.hear fd result.chunk)
      else s.hear fd result.chunk).server.regs := by
    split
    · exact regs_le_packets (s.hear fd result.chunk) c.room fd packets
    · exact le_rfl
  cases outcome with
  | ret cnt =>
      simp only
      split <;> exact pushed.trans (regs_le_act ..)
  | exited => exact pushed

private theorem regs_le_output (s : Sockets) (c : EchoConfig) (worker : Nat)
    (kernel : Output.Kernel)
    (closeAccepted : Bool) : s.server.regs ≤ (s.output c worker kernel closeAccepted).server.regs := by
  unfold Sockets.output
  split
  · exact le_rfl
  · rename_i mb rest queue
    split
    · generalize (s.conn mb.fd).netSend true c.limit mb.data kernel = result
      obtain ⟨conn, verdict⟩ := result
      cases verdict with
      | aborted => exact le_rfl
      | kept | deleted => exact regs_le_act (s.setSide mb.fd conn) c.room _
    · exact regs_le_act ..

private theorem regs_le_pollout (s : Sockets) (c : EchoConfig) (fd : Int)
    (results : List Output.SendResult)
    (now : UInt32) (closeAccepted : Bool) :
    s.server.regs ≤ (s.pollout c fd results now closeAccepted).server.regs := by
  unfold Sockets.pollout
  generalize (s.conn fd).handlePollout results now = result
  obtain ⟨conn, verdict⟩ := result
  cases verdict with
  | aborted => exact le_rfl
  | kept | deleted => exact regs_le_act (s.setSide fd conn) c.room _

private theorem regs_le_closeQueue (s : Sockets) (c : EchoConfig) (results : List Output.SendResult)
    (now : UInt32) : s.server.regs ≤ (s.closeQueue c results now).server.regs := by
  unfold Sockets.closeQueue
  split
  · exact le_rfl
  · rename_i fd rest queue
    split
    · generalize (s.conn fd).doWriteConn results now = result
      obtain ⟨conn, verdict⟩ := result
      simp only
      split
      · exact le_rfl
      · exact regs_le_act (s.setSide fd conn) c.room _
    · exact regs_le_act ..

private theorem regs_le_step (c : EchoConfig) (s : Sockets) (action : SocketAction) :
    s.server.regs ≤ (socketStep c s action).server.regs := by
  unfold socketStep
  split
  · exact le_rfl
  · cases action with
    | register | accept | drop | round => exact regs_le_act ..
    | read =>
        simp only
        split
        · exact regs_le_read ..
        · exact le_rfl
    | output => exact regs_le_output ..
    | pollout =>
        simp only
        split
        · exact regs_le_pollout ..
        · exact le_rfl
    | closeQueue => exact regs_le_closeQueue ..

theorem Sound.step (fits : c.Fits) (sound : Sound c s) {action : SocketAction}
    (near : (socketStep c s action).Near) : Sound c (socketStep c s action) := by
  unfold socketStep at near ⊢
  split
  · exact sound
  · rename_i going
    have alive : s.ended = false := Bool.not_eq_true _ ▸ going
    rw [if_neg going] at near
    cases action with
    | register fd type worker | accept fd newfd peer now accepted =>
        exact sound.act fits.pos near fun fd => .of_silent rfl
    | drop fd closeAccepted =>
        exact drop_sound fits.pos sound.core (sound.others alive fd) closeAccepted
    | read fd result now accepted closeAccepted =>
        simp only
        split
        · rename_i ready
          exact sound.read fits alive ready.1 ready.2 now accepted closeAccepted
        · exact sound
    | output worker kernel closeAccepted => exact sound.output fits alive worker kernel closeAccepted
    | pollout fd results now closeAccepted =>
        simp only
        split
        · rename_i remote
          exact sound.pollout fits alive remote results now closeAccepted
        · exact sound
    | closeQueue results now => exact sound.closeQueue fits alive results now
    | round worker finAccepted accepted closeAccepted =>
        exact sound.act fits.pos near fun fd => quiet_round finAccepted accepted closeAccepted

theorem sound_init (c : EchoConfig) : Sound c init where
  core := core_init c
  intact _ fd remote := by cases remote

theorem run_sound (fits : c.Fits) (actions : List SocketAction)
    (near : (run (socketStep c) init actions).Near) : Sound c (run (socketStep c) init actions) :=
  run_preserves (fun later : Sockets => later.Near → Sound c later)
    (fun later action sound near =>
      (sound ((regs_le_step c later action).trans_lt near)).step fits near)
    (fun _ => sound_init c) actions near

/-- While a connection is there, every byte received is in one of four places. -/
theorem Sound.accounted (pos : 0 < c.room) (sound : Sound c s) (alive : s.ended = false)
    (remote : (s.server.epi.fds fd).type = .remote)
    (serves : (s.server.epi.fds fd).bcElem = some worker)
    (harmless : Along Session.step Harmless Session.init s.flow)
    (leaves : ∀ closeAccepted, .close worker fd closeAccepted ∉ s.flow) :
    s.received fd = (s.side fd).accepted ++ Output.output (s.server.epi.fds fd).cb ++
      ((s.server.worker worker).queued fd (s.server.gen fd)).flatten ++
      ((s.server.worker worker).waiting fd (s.server.gen fd)).flatten := by
  obtain ⟨-, flows, books⟩ := sound.intact alive fd remote
  obtain ⟨actions, flow, server⟩ := sound.core.history
  have near : (run (echoStep c.room) Session.init actions).regs - s.server.gen fd < 4294967295 := by
    rw [← server]
    exact (Nat.sub_le ..).trans_lt sound.core.near
  have state : run Session.step Session.init
      (partsOf Session.step (echoParts c.room) Session.init actions) = s.server :=
    flow ▸ sound.core.run_flow
  have whole := arrived_whole pos actions worker fd (s.server.gen fd) near (flow ▸ harmless)
    (flow ▸ leaves) (state ▸ remote) (state ▸ rfl)
  rw [← flow, sound.core.run_flow] at whole
  have came := books.came worker serves
  have went := books.went worker serves
  have sent : (s.side fd).accepted ++ Output.output (s.server.epi.fds fd).cb = (s.side fd).passed :=
    flows.whole
  rw [List.append_nil] at came went
  rw [came, sent, went]
  exact whole

end Steps

end Sockets

/-- In every run of the echo server on its sockets, what the kernel has taken for a
descriptor's last connection is a prefix of what `recv` has returned for it, whatever fails
or is refused. While the connection is there, and unless a CLOSE_BLOCK was lost or an answer
cut, the rest is in the output buffer and in the two queues. -/
theorem sockets_echo (c : EchoConfig) (actions : List SocketAction) (fd : Int) (fits : c.Fits)
    (near : (run (socketStep c) Sockets.init actions).server.regs < 4294967295) :
    let s := run (socketStep c) Sockets.init actions
    (s.side fd).accepted <+: s.received fd ∧
      ∀ worker, s.ended = false → (s.server.epi.fds fd).type = .remote →
        (s.server.epi.fds fd).bcElem = some worker → Along step Harmless init s.flow →
        (∀ closeAccepted, .close worker fd closeAccepted ∉ s.flow) →
        s.received fd = (s.side fd).accepted ++ Output.output (s.server.epi.fds fd).cb ++
          ((s.server.worker worker).queued fd (s.server.gen fd)).flatten ++
          ((s.server.worker worker).waiting fd (s.server.gen fd)).flatten := by
  intro s
  have sound := Sockets.run_sound fits actions near
  exact ⟨sound.core.echoed fd, fun worker alive remote serves harmless leaves =>
    sound.accounted fits.pos alive remote serves harmless leaves⟩

/-- Three bytes come and are echoed. The kernel takes one of them, then another, and a fourth
byte comes. -/
def echoedByteForByte : List SocketAction :=
  [.register 3 .listen (some 0), .accept 3 5 (80, 16777343) 7 true, .round 0 true 0 true,
    .read 5 (.bytes [1, 2, 3]) 8 true true, .round 0 true 2 true,
    .output 0 ⟨[], [.sent 1, .eagain], 9⟩ true, .output 0 ⟨[.eagain], [], 9⟩ true,
    .pollout 5 [.sent 1, .eagain] 10 true, .read 5 (.bytes [4]) 11 true true]

theorem sockets_echo_three :
    let c : EchoConfig := ⟨⟨4096, 2048⟩, 2, 100⟩
    let s := run (socketStep c) Sockets.init echoedByteForByte
    (s.side 5).accepted <+: s.received 5 ∧
      ∀ worker, s.ended = false → (s.server.epi.fds 5).type = .remote →
        (s.server.epi.fds 5).bcElem = some worker → Along step Harmless init s.flow →
        (∀ closeAccepted, .close worker 5 closeAccepted ∉ s.flow) →
        s.received 5 = (s.side 5).accepted ++ Output.output (s.server.epi.fds 5).cb ++
          ((s.server.worker worker).queued 5 (s.server.gen 5)).flatten ++
          ((s.server.worker worker).waiting 5 (s.server.gen 5)).flatten :=
  sockets_echo ⟨⟨4096, 2048⟩, 2, 100⟩ echoedByteForByte 5
    ⟨by decide, by decide, by decide, by decide, by decide⟩ (by decide +kernel)

example : (fun s : Sockets => (s.ended, (s.side 5).accepted, Output.output (s.server.epi.fds 5).cb,
    (s.server.worker 0).queued 5 2, (s.server.worker 0).waiting 5 2))
    (run (socketStep ⟨⟨4096, 2048⟩, 2, 100⟩) Sockets.init echoedByteForByte) =
      (false, [1, 2], [3], [], [[4]]) := by decide +kernel

end MpNet.Session
