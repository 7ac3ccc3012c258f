import MpNet.Session.Traffic

/-!
# The packets of a client are processed in order

The packets that the parent queues for one connection are processed by its worker in the
order in which they came, each at most once, and none is passed over while the plugin leaves
the connection open. Any push may be refused.
-/

set_option autoImplicit false

namespace MpNet.Session

open Library Net Net.Epi

def Event.payload (fd : Int) (origin : Nat) : Event → Option (List UInt8)
  | .process _ mb => mb.payload fd origin
  | _ => none

namespace Worker

/-- The packets of a connection that the plugin has got. -/
def processed (w : Worker) (fd : Int) (origin : Nat) : List (List UInt8) :=
  w.log.filterMap (Event.payload fd origin)

/-- The packets of a connection that are still queued. -/
def waiting (w : Worker) (fd : Int) (origin : Nat) : List (List UInt8) :=
  w.recvq.filterMap (Block.payload fd origin)

end Worker

/-! ## The order in a receive queue -/

/-- The block comes after what there is of the connection, and an OPEN_BLOCK is about a later
one. -/
def Follows (fd : Int) (origin : Nat) (mb : Block) : Prop :=
  mb.fd = fd → origin ≤ mb.origin ∧ (mb.type = .openBlock → origin < mb.origin)

structure InOrder (w : Worker) : Prop where
  queue : w.recvq.Pairwise fun before mb => Follows before.fd before.origin mb
  sessions : ∀ fd session, w.getFdsess fd = some session → ∀ mb ∈ w.recvq,
    Follows fd session.origin mb
  whole : ∀ mb ∈ w.recvq, mb.type = .openBlock → mb.data.length = sizeofRemoteInfo

namespace InOrder

variable {w w' : Worker} {mb : Block} {rest : List Block}

theorem init : InOrder .init where
  queue := by simp [Worker.init]
  sessions := by simp [Worker.init]
  whole := by simp [Worker.init]

theorem push (order : InOrder w) (recvq : w'.recvq = w.recvq ++ [mb])
    (kept : ∀ fd session, w'.getFdsess fd = some session → w.getFdsess fd = some session)
    (queue : ∀ before ∈ w.recvq, Follows before.fd before.origin mb)
    (sessions : ∀ fd session, w.getFdsess fd = some session → Follows fd session.origin mb)
    (whole : mb.type = .openBlock → mb.data.length = sizeofRemoteInfo) : InOrder w' where
  queue := by
    rw [recvq, List.pairwise_append]
    refine ⟨order.queue, List.pairwise_singleton _ mb, fun before member last same => ?_⟩
    rw [List.mem_singleton.mp same]
    exact queue before member
  sessions := by
    intro fd session found other member
    rw [recvq] at member
    rcases List.mem_append.mp member with old | new
    · exact order.sessions fd session (kept fd session found) other old
    · rw [List.mem_singleton.mp new]
      exact sessions fd session (kept fd session found)
  whole := by
    intro other member
    rw [recvq] at member
    rcases List.mem_append.mp member with old | new
    · exact order.whole other old
    · rw [List.mem_singleton.mp new]
      exact whole

theorem keep (order : InOrder w) (recvq : w'.recvq = w.recvq)
    (sessions : ∀ fd session, w'.getFdsess fd = some session → w.getFdsess fd = some session) :
    InOrder w' where
  queue := recvq ▸ order.queue
  sessions := fun fd session found => recvq ▸ order.sessions fd session (sessions fd session found)
  whole := recvq ▸ order.whole

theorem pop (order : InOrder w) (first : w.recvq = mb :: rest) :
    InOrder { w with recvq := rest } where
  queue := (List.pairwise_cons.mp (first ▸ order.queue)).2
  sessions := fun fd session found other member =>
    order.sessions fd session found other (first ▸ List.mem_cons_of_mem mb member)
  whole := fun other member => order.whole other (first ▸ List.mem_cons_of_mem mb member)

theorem received {accepted : Bool} (order : InOrder w) (received : Worker.Received accepted w w') :
    InOrder w' := by
  cases received with
  | idle => exact order
  | ignored mb rest first => exact order.pop first
  | process mb rest session first => exact (order.pop first).keep rfl fun _ _ found => found
  | opened mb rest first type =>
      have behind := (List.pairwise_cons.mp (first ▸ order.queue)).1
      refine ⟨(order.pop first).queue, ?_, (order.pop first).whole⟩
      intro fd session found other member
      rw [Worker.getFdsess_addFdsess] at found
      split at found
      · rename_i here
        cases found
        rw [here]
        exact behind other member
      · exact (order.pop first).sessions fd session found other member
  | rejected mb rest first =>
      exact (order.pop first).keep rfl fun _ _ found => found
  | closed mb rest first =>
      refine (order.pop first).keep rfl fun fd session found => ?_
      rw [Worker.getFdsess_handleClose] at found
      split at found
      · cases found
      · exact found

variable {s : State} {action : Action} {worker : Nat}

theorem step_sessions (away : ∀ finAccepted, action ≠ .recv worker finAccepted) (fd : Int)
    (session : FdSess) (found : ((Session.step s action).worker worker).getFdsess fd = some session) :
    (s.worker worker).getFdsess fd = some session := by
  have own := step_own s action worker
  generalize (Session.step s action).worker worker = w' at own found
  cases own with
  | parent _ cn =>
      rw [Worker.getFdsess, cn] at found
      exact found
  | received finAccepted here => exact absurd here (away finAccepted)
  | closed closing finAccepted here =>
      unfold Worker.closeClientConn at found
      split at found
      · have found : ((s.worker worker).handleClose closing).getFdsess fd = some session := found
        rw [Worker.getFdsess_handleClose] at found
        split at found
        · cases found
        · exact found
      · exact found

theorem step (inv : Inv s) (order : InOrder (s.worker worker)) (action : Action) :
    InOrder ((step s action).worker worker) := by
  have known := inv.workers worker
  by_cases receives : ∃ finAccepted, action = .recv worker finAccepted
  · obtain ⟨finAccepted, rfl⟩ := receives
    rw [Session.step, State.setWorker_same]
    exact order.received (Worker.handleRecvQueue_received ..)
  · have queue := (step_queue s action worker 0 0).resolve_left receives
    have kept := @step_sessions s action worker fun finAccepted same => receives ⟨finAccepted, same⟩
    generalize arrival worker 0 0 s action = arrived at queue
    cases queue with
    | quiet recvq => exact order.keep recvq kept
    | opened mb recvq type about length =>
        refine order.push recvq kept ?_ ?_ fun _ => length
        · intro before member _
          have past := (known.recvq before member).known.past
          have bound := inv.gen_le before.fd
          simp only [State.table] at past
          omega
        · intro fd session found _
          have past := (known.sessions fd session found).known.past
          have bound := inv.gen_le fd
          simp only [State.table] at past
          omega
    | closed mb recvq type about =>
        refine order.push recvq kept ?_ ?_ (by simp [type])
        · intro before member here
          have past := (known.recvq before member).known.past
          exact ⟨by rw [about, here]; exact past, by simp [type]⟩
        · intro fd session found here
          have past := (known.sessions fd session found).known.past
          exact ⟨by rw [about, here]; exact past, by simp [type]⟩
    | data mb recvq type about =>
        refine order.push recvq kept ?_ ?_ (by simp [type])
        · intro before member here
          have past := (known.recvq before member).known.past
          exact ⟨by rw [about, here]; exact past, by simp [type]⟩
        · intro fd session found here
          have past := (known.sessions fd session found).known.past
          exact ⟨by rw [about, here]; exact past, by simp [type]⟩

end InOrder

/-! ## Every packet is accounted for -/

/-- No OPEN_BLOCK about the connection is queued, nor will be. -/
structure Spent (regs : Nat) (w : Worker) (fd : Int) (origin : Nat) : Prop where
  past : origin ≤ regs
  queue : ∀ mb ∈ w.recvq, mb.type = .openBlock → mb.fd = fd → origin < mb.origin

/-- No packet of the connection will be processed any more. -/
structure Stopped (regs : Nat) (w : Worker) (fd : Int) (origin : Nat) : Prop
    extends Spent regs w fd origin where
  session : ∀ session, w.getFdsess fd = some session → origin < session.origin

/-- What arrived was processed, then lost, and the rest is queued. -/
def Accounted (regs : Nat) (w : Worker) (fd : Int) (origin : Nat) (arrived : List (List UInt8)) :
    Prop :=
  ∃ lost, arrived = w.processed fd origin ++ lost ++ w.waiting fd origin ∧
    (lost = [] ∨ Stopped regs w fd origin)

section Accounts

variable {w w' : Worker} {mb : Block} {rest : List Block} {fd : Int} {origin regs : Nat}
  {arrived : List (List UInt8)}

theorem payload_some {data : List UInt8} (carries : mb.payload fd origin = some data) :
    mb.type = .dataBlock ∧ mb.fd = fd ∧ mb.origin = origin ∧ mb.data ≠ [] := by
  unfold Block.payload at carries
  split at carries
  · assumption
  · cases carries

private theorem payload_none (type : mb.type ≠ .dataBlock) : mb.payload fd origin = none :=
  if_neg fun carries => type carries.1

private theorem waiting_cons (first : w.recvq = mb :: rest) (fd : Int) (origin : Nat) :
    w.waiting fd origin =
      (mb.payload fd origin).toList ++ Worker.waiting { w with recvq := rest } fd origin := by
  unfold Worker.waiting
  rw [first]
  cases carries : mb.payload fd origin <;> simp [carries]

private theorem waiting_push (recvq : w'.recvq = w.recvq ++ [mb]) (fd : Int) (origin : Nat) :
    w'.waiting fd origin = w.waiting fd origin ++ (mb.payload fd origin).toList := by
  unfold Worker.waiting
  rw [recvq, List.filterMap_append]
  cases carries : mb.payload fd origin <;> simp [carries]

theorem processed_log (w w' : Worker) (event : Event) (log : w'.log = w.log ++ [event]) (fd : Int)
    (origin : Nat) :
    w'.processed fd origin = w.processed fd origin ++ (event.payload fd origin).toList := by
  unfold Worker.processed
  rw [log, List.filterMap_append]
  cases carries : event.payload fd origin <;> simp [carries]

/-- A packet that is popped is processed if there is a session, and lost otherwise. -/
theorem received_payload {accepted : Bool} (received : Worker.Received accepted w w') (fd : Int)
    (origin : Nat) :
    w'.processed fd origin = w.processed fd origin ∧ w'.waiting fd origin = w.waiting fd origin ∨
    ∃ mb rest data, w.recvq = mb :: rest ∧ mb.payload fd origin = some data ∧
      w.waiting fd origin = data :: w'.waiting fd origin ∧
      ((∃ session, w.getFdsess fd = some session ∧
          w'.processed fd origin = w.processed fd origin ++ [data]) ∨
        w.getFdsess fd = none ∧ w'.processed fd origin = w.processed fd origin) := by
  cases received with
  | idle => exact .inl ⟨rfl, rfl⟩
  | ignored mb rest first dull =>
      cases carries : mb.payload fd origin with
      | none =>
          refine .inl ⟨rfl, ?_⟩
          rw [waiting_cons first, carries]
          rfl
      | some data =>
          obtain ⟨type, rfl, rfl, some_data⟩ := payload_some carries
          have absent : w.getFdsess mb.fd = none := by
            rcases dull with fin | ⟨-, empty | absent⟩
            · rw [type] at fin
              cases fin
            · exact absurd empty some_data
            · exact absent
          refine .inr ⟨mb, rest, data, first, carries, ?_, .inr ⟨absent, rfl⟩⟩
          rw [waiting_cons first, carries]
          rfl
  | process mb rest session first type found =>
      have log := processed_log w { w with recvq := rest, log := w.log ++ [.process session mb] }
        (.process session mb) rfl fd origin
      rw [Event.payload] at log
      cases carries : mb.payload fd origin with
      | none =>
          rw [carries] at log
          refine .inl ⟨log.trans (List.append_nil _), ?_⟩
          rw [waiting_cons first, carries]
          rfl
      | some data =>
          rw [carries] at log
          obtain ⟨-, rfl, -, -⟩ := payload_some carries
          refine .inr ⟨mb, rest, data, first, carries, ?_, .inl ⟨session, found, log⟩⟩
          rw [waiting_cons first, carries]
          rfl
  | opened mb rest first type =>
      have log := processed_log w (Worker.addFdsess { w with recvq := rest } (Worker.sessionOf mb))
        (.opened (Worker.sessionOf mb)) rfl fd origin
      refine .inl ⟨log.trans (List.append_nil _), ?_⟩
      rw [waiting_cons first, payload_none (by simp [type])]
      rfl
  | rejected mb rest first type =>
      have log := processed_log w
        (Worker.pushSendq { w with recvq := rest, log := w.log ++ [.rejected mb] }
          { mb with type := .finBlock, data := [] } accepted) (.rejected mb) rfl fd origin
      refine .inl ⟨log.trans (List.append_nil _), ?_⟩
      rw [waiting_cons first, payload_none (by simp [type])]
      rfl
  | closed mb rest first type =>
      have log := processed_log w (Worker.handleClose { w with recvq := rest } mb.fd)
        (.closed mb.fd (w.getFdsess mb.fd)) rfl fd origin
      refine .inl ⟨log.trans (List.append_nil _), ?_⟩
      rw [waiting_cons first, payload_none (by simp [type])]
      rfl

/-- Where a session after `handle_recv_queue` comes from. -/
theorem received_session {accepted : Bool} (received : Worker.Received accepted w w')
    {session : FdSess} (found : w'.getFdsess fd = some session) :
    w.getFdsess fd = some session ∨
      ∃ mb ∈ w.recvq, mb.type = .openBlock ∧ mb.fd = fd ∧ mb.origin = session.origin := by
  cases received with
  | idle | ignored | process | rejected => exact .inl found
  | opened mb rest first type =>
      rw [Worker.getFdsess_addFdsess] at found
      split at found
      · rename_i here
        cases found
        exact .inr ⟨mb, first ▸ List.mem_cons_self, type, here.symm, rfl⟩
      · exact .inl found
  | closed mb rest first =>
      rw [Worker.getFdsess_handleClose] at found
      split at found
      · cases found
      · exact .inl found

theorem received_recvq {accepted : Bool} (received : Worker.Received accepted w w') :
    w'.recvq ⊆ w.recvq := by
  cases received with
  | idle => exact List.Subset.refl _
  | ignored mb rest first | process mb rest session first | opened mb rest first
  | rejected mb rest first | closed mb rest first =>
      rw [first]
      exact List.subset_cons_self mb rest

theorem Spent.received {accepted : Bool} (spent : Spent regs w fd origin)
    (received : Worker.Received accepted w w') : Spent regs w' fd origin :=
  ⟨spent.past, fun mb member => spent.queue mb (received_recvq received member)⟩

/-- What follows a block of the connection is not its OPEN_BLOCK. -/
theorem InOrder.spent (order : InOrder w) (first : w.recvq = mb :: rest) (past : mb.origin ≤ regs)
    (other : mb.type ≠ .openBlock) : Spent regs w mb.fd mb.origin := by
  refine ⟨past, fun later member type here => ?_⟩
  rw [first] at member
  rcases List.mem_cons.mp member with rfl | behind
  · exact absurd type other
  · exact ((List.pairwise_cons.mp (first ▸ order.queue)).1 later behind here).2 type

theorem Stopped.received {accepted : Bool} (stopped : Stopped regs w fd origin)
    (received : Worker.Received accepted w w') : Stopped regs w' fd origin where
  toSpent := stopped.toSpent.received received
  session := by
    intro session found
    rcases received_session received found with before | ⟨mb, member, type, here, same⟩
    · exact stopped.session session before
    · exact same ▸ stopped.queue mb member type here

theorem Accounted.received {accepted : Bool} (accounted : Accounted regs w fd origin arrived)
    (order : InOrder w) (past : ∀ mb ∈ w.recvq, mb.origin ≤ regs)
    (received : Worker.Received accepted w w') : Accounted regs w' fd origin arrived := by
  obtain ⟨lost, arrived, stopped⟩ := accounted
  rcases received_payload received fd origin with
    ⟨processed, waiting⟩ | ⟨mb, rest, data, first, carries, waiting, kept⟩
  · exact ⟨lost, by rw [arrived, processed, waiting], stopped.imp_right (·.received received)⟩
  · obtain ⟨-, rfl, rfl, -⟩ := payload_some carries
    have member : mb ∈ w.recvq := first ▸ List.mem_cons_self
    rcases kept with ⟨session, found, processed⟩ | ⟨absent, processed⟩
    · have behind := order.sessions mb.fd session found mb member rfl
      rcases stopped with rfl | stopped
      · refine ⟨[], ?_, .inl rfl⟩
        rw [arrived, processed, waiting]
        simp
      · have later := stopped.session session found
        omega
    · have type := (payload_some carries).1
      have spent := order.spent first (past mb member) (by simp [type])
      refine ⟨lost ++ [data], ?_, .inr (Stopped.received ⟨spent, fun session found => ?_⟩ received)⟩
      · rw [arrived, processed, waiting]
        simp
      · rw [absent] at found
        cases found

end Accounts

section Steps

variable {s : State} {action : Action} {worker : Nat} {fd : Int} {origin : Nat}
  {arrived : List (List UInt8)}

theorem step_processed (away : ∀ finAccepted, action ≠ .recv worker finAccepted) (fd : Int)
    (origin : Nat) : ((step s action).worker worker).processed fd origin =
      (s.worker worker).processed fd origin := by
  have own := step_own s action worker
  generalize (step s action).worker worker = w' at own
  cases own with
  | parent _ _ log => rw [Worker.processed, log, Worker.processed]
  | received finAccepted here => exact absurd here (away finAccepted)
  | closed closing finAccepted here =>
      unfold Worker.closeClientConn
      split
      · rename_i session found
        refine (processed_log (s.worker worker) _
          (.closed closing ((s.worker worker).getFdsess closing)) rfl fd origin).trans ?_
        simp [Event.payload]
      · rfl

/-- Packets that wait at the end of the queue. -/
theorem step_waiting (queue : QueueStep s (step s action) worker fd origin arrived) :
    ((step s action).worker worker).waiting fd origin =
      (s.worker worker).waiting fd origin ++ arrived := by
  cases queue with
  | quiet recvq => simp [Worker.waiting, recvq]
  | opened mb recvq type =>
      rw [waiting_push recvq, payload_none (by simp [type])]
      rfl
  | closed mb recvq type =>
      rw [waiting_push recvq, payload_none (by simp [type])]
      rfl
  | data mb recvq => exact waiting_push recvq fd origin

theorem Spent.step (spent : Spent s.regs (s.worker worker) fd origin) (action : Action) :
    Spent (step s action).regs ((step s action).worker worker) fd origin := by
  refine ⟨spent.past.trans (regs_le s action), fun mb member type here => ?_⟩
  by_cases receives : ∃ finAccepted, action = .recv worker finAccepted
  · obtain ⟨finAccepted, rfl⟩ := receives
    rw [Session.step, State.setWorker_same] at member
    have received := Worker.handleRecvQueue_received (s.worker worker) finAccepted
    exact spent.queue mb (received_recvq received member) type here
  · have queue := (step_queue s action worker fd origin).resolve_left receives
    have old := spent.queue
    have ahead := spent.past
    generalize arrival worker fd origin s action = arrived at queue
    cases queue with
    | quiet recvq => exact old mb (recvq ▸ member) type here
    | opened pushed recvq _ about =>
        rw [recvq] at member
        rcases List.mem_append.mp member with before | last
        · exact old mb before type here
        · rw [List.mem_singleton.mp last, about]
          omega
    | closed pushed recvq other | data pushed recvq other =>
        rw [recvq] at member
        rcases List.mem_append.mp member with before | last
        · exact old mb before type here
        · rw [List.mem_singleton.mp last, other] at type
          cases type

theorem Accounted.step (inv : Inv s) (order : InOrder (s.worker worker))
    (accounted : Accounted s.regs (s.worker worker) fd origin arrived) (action : Action) :
    Accounted (step s action).regs ((step s action).worker worker) fd origin
      (arrived ++ arrival worker fd origin s action) := by
  have known := inv.workers worker
  have past : ∀ mb ∈ (s.worker worker).recvq, mb.origin ≤ s.regs := fun mb member =>
    (known.recvq mb member).known.past.trans (inv.gen_le mb.fd)
  by_cases receives : ∃ finAccepted, action = .recv worker finAccepted
  · obtain ⟨finAccepted, rfl⟩ := receives
    have none_arrives : arrival worker fd origin s (.recv worker finAccepted) = [] := rfl
    rw [Session.step, State.setWorker_same, none_arrives, List.append_nil]
    exact accounted.received order past (Worker.handleRecvQueue_received ..)
  · have away : ∀ finAccepted, action ≠ .recv worker finAccepted :=
      fun finAccepted same => receives ⟨finAccepted, same⟩
    have queue := (step_queue s action worker fd origin).resolve_left receives
    obtain ⟨lost, rfl, stopped⟩ := accounted
    refine ⟨lost, ?_, stopped.imp_right fun stopped => ⟨stopped.toSpent.step action, ?_⟩⟩
    · rw [step_processed away, step_waiting queue]
      simp
    · exact fun session found => stopped.session session (InOrder.step_sessions away fd session found)

end Steps

/-! ## While the plugin leaves the connection open -/

/-- An OPEN_BLOCK of the connection has been handled. -/
def Event.greets (fd : Int) (origin : Nat) : Event → Bool
  | .opened session => session.fd = fd ∧ session.origin = origin
  | .rejected mb => mb.fd = fd ∧ mb.origin = origin
  | _ => false

def Worker.greeted (w : Worker) (fd : Int) (origin : Nat) : Bool := w.log.any (Event.greets fd origin)

/-- The plugin does not close the connection: once its OPEN_BLOCK has been handled, not the
session of `fd`, unless that is the session of a later connection. -/
def LeavesOpen (worker : Nat) (fd : Int) (origin : Nat) (s : State) : Action → Prop
  | .close closing client _ => closing = worker → client = fd →
      ∀ session ∈ (s.worker worker).getFdsess fd, session.origin ≤ origin →
        (s.worker worker).greeted fd origin = false
  | _ => True

instance (worker : Nat) (fd : Int) (origin : Nat) (s : State) :
    DecidablePred (LeavesOpen worker fd origin s)
  | .close closing client _ => inferInstanceAs (Decidable (closing = worker → client = fd →
      ∀ session ∈ (s.worker worker).getFdsess fd, session.origin ≤ origin →
        (s.worker worker).greeted fd origin = false))
  | .register .. | .accept .. | .packet .. | .transfer .. | .drop .. | .output .. | .closeQueue
  | .recv .. | .send .. => .isTrue trivial

/-- Whether the packets of the connection find a session after the worker has handled a
block. -/
def attend (fd : Int) (origin : Nat) (served : Bool) (mb : Block) : Bool :=
  if mb.fd = fd then
    match mb.type with
    | .openBlock => served || mb.origin = origin
    | .closeBlock => false
    | _ => served
  else served

def Worker.served (w : Worker) (fd : Int) (origin : Nat) : Bool :=
  (w.getFdsess fd).isSome && w.greeted fd origin

/-- Every packet of the connection on the way finds a session, and so will those to come. -/
structure Attended (s : State) (worker : Nat) (fd : Int) (origin : Nat) : Prop where
  found : Along (attend fd origin)
    (fun served mb => mb.fd = fd → mb.origin = origin → mb.type = .dataBlock → served = true)
    ((s.worker worker).served fd origin) (s.worker worker).recvq
  serving : Serves s worker fd → s.gen fd = origin →
    run (attend fd origin) ((s.worker worker).served fd origin) (s.worker worker).recvq = true

section Attending

variable {w w' : Worker} {mb : Block} {rest : List Block} {s s' : State} {action : Action}
  {worker : Nat} {fd : Int} {origin : Nat} {arrived : List (List UInt8)}

private theorem attend_mono {less more : Bool} (better : less = true → more = true) (mb : Block) :
    attend fd origin less mb = true → attend fd origin more mb = true := by
  unfold attend
  split
  · split
    · simp only [Bool.or_eq_true]
      exact Or.imp_left better
    · exact id
    · exact better
  · exact better

/-- A better start is no worse. -/
theorem found_mono {less more : Bool} (better : less = true → more = true) {queue : List Block}
    (found : Along (attend fd origin)
      (fun served mb => mb.fd = fd → mb.origin = origin → mb.type = .dataBlock → served = true)
      less queue) :
    Along (attend fd origin)
      (fun served mb => mb.fd = fd → mb.origin = origin → mb.type = .dataBlock → served = true)
      more queue := by
  induction queue generalizing less more with
  | nil => trivial
  | cons mb rest ih =>
      refine ⟨fun here own type => ?_, ih (attend_mono better mb) found.2⟩
      exact better (found.1 here own type)

private theorem run_attend_mono {less more : Bool} (better : less = true → more = true)
    (queue : List Block) (serving : run (attend fd origin) less queue = true) :
    run (attend fd origin) more queue = true := by
  induction queue generalizing less more with
  | nil => exact better serving
  | cons mb rest ih => exact ih (attend_mono better mb) serving

private theorem served_iff : w.served fd origin = true ↔
    (w.getFdsess fd).isSome = true ∧ w.greeted fd origin = true := by
  rw [Worker.served, Bool.and_eq_true]

private theorem greeted_log (event : Event) (log : w'.log = w.log ++ [event]) :
    w'.greeted fd origin = true ↔
      w.greeted fd origin = true ∨ event.greets fd origin = true := by
  simp [Worker.greeted, log]

/-- What handling a block makes of the session is no worse than the queue foretells. -/
theorem served_received {accepted : Bool} (order : InOrder w) (first : w.recvq = mb :: rest)
    (received : Worker.Received accepted w w') (fd : Int) (origin : Nat) :
    w'.recvq = rest ∧
      (attend fd origin (w.served fd origin) mb = true → w'.served fd origin = true) := by
  cases received with
  | idle empty =>
      rw [empty] at first
      cases first
  | ignored other rest' same dull =>
      obtain ⟨rfl, rfl⟩ := List.cons.inj (same.symm.trans first)
      refine ⟨rfl, ?_⟩
      have type : other.type = .finBlock ∨ other.type = .dataBlock := dull.imp_right And.left
      rcases type with type | type <;> simp [attend, type, Worker.served, Worker.greeted]
  | process other rest' session same type =>
      obtain ⟨rfl, rfl⟩ := List.cons.inj (same.symm.trans first)
      refine ⟨rfl, ?_⟩
      simp [attend, type, Worker.served, Worker.greeted, Worker.getFdsess, Event.greets]
  | opened other rest' same type absent =>
      obtain ⟨rfl, rfl⟩ := List.cons.inj (same.symm.trans first)
      refine ⟨rfl, ?_⟩
      rw [served_iff, greeted_log (w := w) (.opened (Worker.sessionOf other)) rfl,
        Worker.getFdsess_addFdsess]
      by_cases here : other.fd = fd
      · subst here
        simp only [attend, if_pos, type, Bool.or_eq_true, decide_eq_true_eq]
        rintro (served | own)
        · rw [served_iff, absent] at served
          cases served.1
        · exact ⟨by simp [Worker.sessionOf], .inr (by simp [Event.greets, Worker.sessionOf, own])⟩
      · have apart : fd ≠ (Worker.sessionOf other).fd := fun same => here same.symm
        simp only [attend, if_neg here, if_neg apart]
        exact fun served => (served_iff.mp served).imp_right .inl
  | rejected other rest' same type refused =>
      obtain ⟨rfl, rfl⟩ := List.cons.inj (same.symm.trans first)
      have kept : (w.getFdsess other.fd).isSome = true := by
        refine refused.resolve_right fun short => short ?_
        exact order.whole other (first ▸ List.mem_cons_self) type
      refine ⟨rfl, ?_⟩
      rw [served_iff, greeted_log (w := w) (.rejected other) rfl]
      show _ → (w.getFdsess fd).isSome = true ∧ _
      by_cases here : other.fd = fd
      · subst here
        simp only [attend, if_pos, type, Bool.or_eq_true, decide_eq_true_eq]
        rintro (served | own)
        · exact (served_iff.mp served).imp_right .inl
        · exact ⟨kept, .inr (by simp [Event.greets, own])⟩
      · simp only [attend, if_neg here]
        exact fun served => (served_iff.mp served).imp_right .inl
  | closed other rest' same type =>
      obtain ⟨rfl, rfl⟩ := List.cons.inj (same.symm.trans first)
      refine ⟨rfl, ?_⟩
      rw [served_iff, greeted_log (w := w) (.closed other.fd (w.getFdsess other.fd)) rfl,
        Worker.getFdsess_handleClose]
      by_cases here : other.fd = fd
      · simp [attend, here, type]
      · have apart : fd ≠ other.fd := fun same => here same.symm
        simp only [attend, if_neg here, if_neg apart]
        exact fun served => (served_iff.mp served).imp_right .inl

/-- Where no packet of the connection is queued, there is nothing to find. -/
theorem found_nothing {queue : List Block}
    (nothing : ∀ mb ∈ queue, mb.fd = fd → mb.type = .dataBlock → mb.origin ≠ origin)
    (served : Bool) :
    Along (attend fd origin)
      (fun served mb => mb.fd = fd → mb.origin = origin → mb.type = .dataBlock → served = true)
      served queue := by
  induction queue generalizing served with
  | nil => trivial
  | cons mb rest ih =>
      obtain ⟨first, later⟩ := List.forall_mem_cons.mp nothing
      exact ⟨fun here own type => absurd own (first here type), ih later _⟩

/-- A step of another kind changes the session only when the plugin closes it. -/
theorem step_served (away : ∀ finAccepted, action ≠ .recv worker finAccepted) (fd : Int)
    (origin : Nat) :
    ((step s action).worker worker).served fd origin = (s.worker worker).served fd origin ∨
      ∃ finAccepted session, action = .close worker fd finAccepted ∧
        (s.worker worker).getFdsess fd = some session ∧
        ((step s action).worker worker).served fd origin = false := by
  have own := step_own s action worker
  generalize (step s action).worker worker = w' at own
  cases own with
  | parent _ cn log =>
      left
      rw [Worker.served, Worker.getFdsess, cn, Worker.greeted, log, Worker.served, Worker.getFdsess,
        Worker.greeted]
  | received finAccepted here => exact absurd here (away finAccepted)
  | closed closing finAccepted here =>
      unfold Worker.closeClientConn
      split
      · rename_i session found
        have after (mb : Block) (accepted : Bool) :
            (((s.worker worker).handleClose closing).pushSendq mb accepted).served fd origin =
              ((s.worker worker).handleClose closing).served fd origin := rfl
        rw [after]
        have greeted : ((s.worker worker).handleClose closing).greeted fd origin =
            (s.worker worker).greeted fd origin := by
          simp [Worker.greeted, Worker.handleClose, Worker.removeFdsess, Event.greets]
        rw [Worker.served, Worker.getFdsess_handleClose, greeted]
        by_cases same : fd = closing
        · subst same
          exact .inr ⟨finAccepted, session, here, found, by simp⟩
        · rw [if_neg same]
          exact .inl rfl
      · exact .inl rfl

theorem Attended.received {finAccepted : Bool} (attended : Attended s worker fd origin)
    (order : InOrder (s.worker worker)) :
    Attended (step s (.recv worker finAccepted)) worker fd origin := by
  have received := Worker.handleRecvQueue_received (s.worker worker) finAccepted
  have slot : Serves (step s (.recv worker finAccepted)) worker fd → Serves s worker fd := id
  have gen : (step s (.recv worker finAccepted)).gen fd = s.gen fd := rfl
  have worked : (step s (.recv worker finAccepted)).worker worker =
      (s.worker worker).handleRecvQueue finAccepted := State.setWorker_same ..
  cases queue : (s.worker worker).recvq with
  | nil =>
      have idle : (s.worker worker).handleRecvQueue finAccepted = s.worker worker := by
        unfold Worker.handleRecvQueue
        rw [queue]
      rw [idle] at worked
      exact ⟨worked ▸ attended.found,
        fun serves current => worked ▸ attended.serving (slot serves) (gen ▸ current)⟩
  | cons mb rest =>
      obtain ⟨recvq, better⟩ := served_received order queue received fd origin
      obtain ⟨found, serving⟩ := attended
      rw [queue] at found serving
      constructor
      · rw [worked, recvq]
        exact found_mono better found.2
      · intro serves current
        rw [worked, recvq]
        exact run_attend_mono better rest (serving (slot serves) (gen ▸ current))

/-- The plugin closes the session of another connection. -/
theorem Attended.closed {finAccepted : Bool} (attended : Attended s worker fd origin)
    (inv : Inv s) (order : InOrder (s.worker worker))
    (leaves : LeavesOpen worker fd origin s (.close worker fd finAccepted)) {session : FdSess}
    (found : (s.worker worker).getFdsess fd = some session)
    (gone : ((step s (.close worker fd finAccepted)).worker worker).served fd origin = false) :
    Attended (step s (.close worker fd finAccepted)) worker fd origin := by
  have recvq : ((step s (.close worker fd finAccepted)).worker worker).recvq =
      (s.worker worker).recvq := by
    simp only [step, State.setWorker_same, Worker.closeClientConn]
    split <;> rfl
  by_cases later : session.origin ≤ origin
  · have before : (s.worker worker).served fd origin = false := by
      rw [Worker.served, leaves rfl rfl session found later, Bool.and_false]
    obtain ⟨found, serving⟩ := attended
    rw [before] at found serving
    exact ⟨by rw [gone, recvq]; exact found, by rw [gone, recvq]; exact serving⟩
  · constructor
    · rw [recvq]
      refine found_nothing (fun mb member here type own => later ?_) _
      exact own ▸ (order.sessions fd session found mb member here).1
    · intro _ current
      have past : session.origin ≤ s.gen fd :=
        ((inv.workers worker).sessions fd session found).known.past
      have current : s.gen fd = origin := current
      exact absurd (current ▸ past) later

theorem Attended.step (attended : Attended s worker fd origin) (inv : Inv s)
    (order : InOrder (s.worker worker)) {action : Action}
    (leaves : LeavesOpen worker fd origin s action) :
    Attended (step s action) worker fd origin := by
  by_cases receives : ∃ finAccepted, action = .recv worker finAccepted
  · obtain ⟨finAccepted, rfl⟩ := receives
    exact attended.received order
  have away : ∀ finAccepted, action ≠ .recv worker finAccepted :=
    fun finAccepted same => receives ⟨finAccepted, same⟩
  rcases step_served away fd origin with present | ⟨finAccepted, session, rfl, found, gone⟩
  · have queue := (step_queue s action worker fd 0).resolve_left receives
    have slot := step_slot s action fd
    generalize arrival worker fd 0 s action = arrived at queue
    have serving : Serves (Session.step s action) worker fd →
        (Session.step s action).gen fd = origin → (Serves s worker fd ∧ s.gen fd = origin) ∨
        (s.regs + 1 = origin ∧ ∃ mb, mb.type = .openBlock ∧ mb.fd = fd ∧
          ((Session.step s action).worker worker).recvq = (s.worker worker).recvq ++ [mb]) := by
      rintro ⟨remote, owner⟩ current
      cases slot with
      | kept type bcElem gen =>
          exact .inl ⟨⟨type.symm.trans remote, bcElem.symm.trans owner⟩, gen.symm.trans current⟩
      | freed type =>
          rw [type] at remote
          cases remote
      | registered gen announced =>
          exact .inr ⟨gen.symm.trans current, announced worker ⟨remote, owner⟩⟩
    generalize Session.step s action = s' at present queue serving
    have pushed (mb : Block) (recvq : (s'.worker worker).recvq = (s.worker worker).recvq ++ [mb])
        (heard : mb.type = .dataBlock → mb.origin = s.gen mb.fd ∧ Serves s worker mb.fd)
        (stays : mb.type = .closeBlock → Serves s' worker fd → mb.fd ≠ fd)
        (opens : mb.type = .openBlock → mb.origin = s.regs + 1) :
        Attended s' worker fd origin := by
      constructor
      · rw [recvq, present, along_append]
        refine ⟨attended.found, fun here own type => ?_, trivial⟩
        obtain ⟨about, serves⟩ := heard type
        exact attended.serving (here ▸ serves) (by rw [← here, ← about, own])
      · intro serves current
        rw [recvq, present, run_concat]
        rcases serving serves current with ⟨before, same⟩ | ⟨fresh, opening, type, here, same⟩
        · rw [attended.serving before same]
          unfold attend
          split
          · rename_i here
            split
            · rfl
            · rename_i type
              exact absurd here (stays type serves)
            · rfl
          · rfl
        · rw [recvq] at same
          obtain rfl : mb = opening := by simpa using same
          simp [attend, here, type, opens type, fresh]
    cases queue with
    | quiet recvq =>
        constructor
        · rw [recvq, present]
          exact attended.found
        · intro serves current
          rw [recvq, present]
          rcases serving serves current with ⟨before, same⟩ | ⟨_, opening, -, -, same⟩
          · exact attended.serving before same
          · rw [recvq] at same
            simp at same
    | opened mb recvq type about => exact pushed mb recvq (by simp [type]) (by simp [type]) fun _ => about
    | closed mb recvq type _ freed =>
        refine pushed mb recvq (by simp [type]) (fun _ serves here => ?_) (by simp [type])
        have remote := serves.1
        rw [← here, freed] at remote
        cases remote
    | data mb recvq type about serves =>
        exact pushed mb recvq (fun _ => ⟨about, serves⟩) (by simp [type]) (by simp [type])
  · exact attended.closed inv order leaves found gone

/-- What arrived was processed, and the rest is queued. -/
theorem processed_all (attended : Attended s worker fd origin)
    (accounted : arrived = (s.worker worker).processed fd origin ++
      (s.worker worker).waiting fd origin) (action : Action) :
    arrived ++ arrival worker fd origin s action =
      ((step s action).worker worker).processed fd origin ++
        ((step s action).worker worker).waiting fd origin := by
  by_cases receives : ∃ finAccepted, action = .recv worker finAccepted
  · obtain ⟨finAccepted, rfl⟩ := receives
    have none_arrives : arrival worker fd origin s (.recv worker finAccepted) = [] := rfl
    have received := Worker.handleRecvQueue_received (s.worker worker) finAccepted
    rw [none_arrives, List.append_nil, Session.step, State.setWorker_same, accounted]
    rcases received_payload received fd origin with
      ⟨processed, waiting⟩ | ⟨mb, rest, data, first, carries, waiting, kept⟩
    · rw [processed, waiting]
    · rcases kept with ⟨session, found, processed⟩ | ⟨absent, -⟩
      · rw [processed, waiting]
        simp
      · obtain ⟨type, here, own, -⟩ := payload_some carries
        have found := attended.found
        rw [first] at found
        have present := (served_iff.mp (found.1 here own type)).1
        rw [absent] at present
        cases present
  · have queue := (step_queue s action worker fd origin).resolve_left receives
    rw [step_processed (fun finAccepted same => receives ⟨finAccepted, same⟩), step_waiting queue,
      accounted, List.append_assoc]

end Attending

theorem run_accounted (actions : List Action) (worker : Nat) (fd : Int) (origin : Nat) :
    Accounted (run step init actions).regs ((run step init actions).worker worker) fd origin
      (trace step (arrival worker fd origin) init actions) := by
  have kept := run_trace_preserves step (arrival worker fd origin) (fun _ _ => True)
    (fun s arrived => Historic s ∧ InOrder (s.worker worker) ∧
      Accounted s.regs (s.worker worker) fd origin arrived)
    (fun s action before _ ⟨historic, order, accounted⟩ => ⟨historic.step action,
      order.step historic.inv action, accounted.step historic.inv order action⟩)
    init [] ⟨historic_init, .init, [], rfl, .inl rfl⟩
    (along_of_forall init fun (_ : Action) (_ : _ ∈ actions) => trivial)
  exact kept.2.2

theorem run_processed (actions : List Action) (worker : Nat) (fd : Int) (origin : Nat)
    (leaves : Along step (LeavesOpen worker fd origin) init actions) :
    trace step (arrival worker fd origin) init actions =
      ((run step init actions).worker worker).processed fd origin ++
        ((run step init actions).worker worker).waiting fd origin := by
  have kept := run_trace_preserves step (arrival worker fd origin) (LeavesOpen worker fd origin)
    (fun s arrived => Historic s ∧ InOrder (s.worker worker) ∧ Attended s worker fd origin ∧
      arrived = (s.worker worker).processed fd origin ++ (s.worker worker).waiting fd origin)
    (fun s action before leaves ⟨historic, order, attended, accounted⟩ =>
      ⟨historic.step action, order.step historic.inv action,
        attended.step historic.inv order leaves, processed_all attended accounted action⟩)
    init [] ⟨historic_init, .init, ⟨trivial, fun serves => by cases serves.1⟩, rfl⟩ leaves
  exact kept.2.2.2

theorem leavesOpen_of_never {actions : List Action} {worker : Nat} {fd : Int}
    (never : ∀ finAccepted, .close worker fd finAccepted ∉ actions) (origin : Nat) (start : State) :
    Along step (LeavesOpen worker fd origin) start actions := by
  have along : Along step (fun _ action => ∀ finAccepted, action ≠ .close worker fd finAccepted)
      start actions :=
    along_of_forall start fun action member finAccepted same => never finAccepted (same ▸ member)
  refine along_of_along (fun _ => True) (fun _ _ _ _ => trivial) ?_ trivial along
  intro s action away _
  cases action with
  | close closing client finAccepted =>
      rintro rfl rfl
      exact absurd rfl (away finAccepted)
  | _ => trivial

/-- In every run, with pushes refused anywhere, the packets of a connection that the parent
queued are processed in the order in which they came, each at most once; and all that are not
queued any more have been processed, unless the plugin closed the connection. -/
theorem requests_in_order (actions : List Action) (worker : Nat) (fd : Int) (origin : Nat) :
    let arrived := trace step (arrival worker fd origin) init actions
    let w := (run step init actions).worker worker
    (∃ lost, arrived = w.processed fd origin ++ lost ++ w.waiting fd origin) ∧
      (Along step (LeavesOpen worker fd origin) init actions →
        arrived = w.processed fd origin ++ w.waiting fd origin) := by
  intro arrived w
  obtain ⟨lost, whole, -⟩ := run_accounted actions worker fd origin
  exact ⟨⟨lost, whole⟩, run_processed actions worker fd origin⟩

/-- The plugin closes the first connection on a descriptor and the third, and not the second. -/
def reusedTwice : List Action :=
  [.register 3 .listen (some 0), .accept 3 5 (80, 16777343) 7 true, .recv 0 true, .close 0 5 true,
    .output 0 (.failed true), .closeQueue, .accept 3 5 (81, 16777343) 8 true,
    .packet 5 [1] true true, .recv 0 true, .recv 0 true, .packet 5 [2] true true, .drop 5 true,
    .accept 3 5 (82, 16777343) 9 true, .recv 0 true, .recv 0 true, .packet 5 [3] true true,
    .recv 0 true, .close 0 5 true, .recv 0 true]

theorem requests_in_order_reused :
    trace step (arrival 0 5 3) init reusedTwice =
        ((run step init reusedTwice).worker 0).processed 5 3 ++
          ((run step init reusedTwice).worker 0).waiting 5 3 ∧
      ((run step init reusedTwice).worker 0).processed 5 3 = [[1], [2]] ∧
      ((run step init reusedTwice).worker 0).processed 5 4 = [] :=
  ⟨(requests_in_order reusedTwice 0 5 3).2 (by decide +kernel), by decide +kernel, by decide +kernel⟩

end MpNet.Session
