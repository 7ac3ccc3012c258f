import MpNet.Session.Callbacks
import MpNet.Session.History

/-!
# Closing a session exactly once

`on_client_conn_closed` is called once for each session that has ended, and `count` is the
size of the table, exactly in the runs in which every CLOSE_BLOCK that the worker handles
finds a session and no callback closes the descriptor that it is about: `handle_close` logs
a missing session and goes on, and it removes the session after the callback only.
-/

set_option autoImplicit false

namespace MpNet.Session.Callbacks

open Library Net

/-- Each session opened has been closed once if it has ended, that is, if it is not in the
table or its callback has been called, and never if it has not; nothing else was closed;
`fds.count` is the number of entries. -/
structure ExactlyOnce (w : Worker) (calls : List Call) : Prop where
  found : ∀ fd, .closed fd none ∉ w.log
  opened : ∀ fd session, .closed fd (some session) ∈ w.log →
    session.fd = fd ∧ .opened session ∈ w.log
  closes : ∀ session, .opened session ∈ w.log →
    w.log.count (.closed session.fd (some session)) =
      if w.getFdsess session.fd = some session ∧ session.fd ∉ calls.map Call.fd then 0 else 1
  count : w.count = w.cn.keys.length

/-- A CLOSE_BLOCK that the worker handles finds a session on its descriptor, and no callback
closes the descriptor of a call that has not returned while it has a session. -/
def ClosesOnce (worker : Nat) (s : State) : Action → Prop
  | .recv owner _ => owner = worker → s.calls worker = [] →
      ∀ mb rest, (s.server.worker worker).recvq = mb :: rest → mb.type = .closeBlock →
        ((s.server.worker worker).getFdsess mb.fd).isSome
  | .close owner fd => owner = worker → ((s.server.worker worker).getFdsess fd).isSome →
      fd ∉ (s.calls worker).map Call.fd
  | _ => True

variable {s : State} {worker : Nat} {w w' : Worker} {call : Call} {calls calls' : List Call}

/-! ## Steps as one worker sees them -/

inductive Turned (s : State) (action : Action) (worker : Nat) : Worker → List Call → Prop
  | served (w' : Worker)
      (served : Served s.server.regs (step s action).server.regs (s.server.worker worker) w') :
      Turned s action worker w' (s.calls worker)
  | sent (fd : Int) (data : List UInt8) (accepted : Bool) :
      Turned s action worker ((s.server.worker worker).sendPkgToClient fd data accepted)
        (s.calls worker)
  | received (finAccepted : Bool) (idle : s.calls worker = [])
      (other : ∀ mb rest, (s.server.worker worker).recvq = mb :: rest → mb.type ≠ .closeBlock) :
      Turned s action worker ((s.server.worker worker).handleRecvQueue finAccepted)
        (s.calls worker)
  | taken (finAccepted : Bool) (here : action = .recv worker finAccepted)
      (idle : s.calls worker = []) (mb : Block) (rest : List Block)
      (front : (s.server.worker worker).recvq = mb :: rest) (type : mb.type = .closeBlock) :
      Turned s action worker (callClosed { s.server.worker worker with recvq := rest } mb.fd)
        (⟨mb.fd, (s.server.worker worker).getFdsess mb.fd, none⟩ :: s.calls worker)
  | closing (fd : Int) (here : action = .close worker fd) (session : FdSess)
      (found : (s.server.worker worker).getFdsess fd = some session) (fin : Option Block) :
      Turned s action worker (callClosed (s.server.worker worker) fd)
        (⟨fd, (s.server.worker worker).getFdsess fd, fin⟩ :: s.calls worker)
  | returned (finAccepted : Bool) (call : Call) (rest : List Call)
      (front : s.calls worker = call :: rest) :
      Turned s action worker (finishClose (s.server.worker worker) call finAccepted) rest

private theorem turned_idle (action : Action) (worker : Nat) {s' : State}
    (same : s'.server.worker worker = s.server.worker worker ∧ s'.calls worker = s.calls worker) :
    Turned s action worker (s'.server.worker worker) (s'.calls worker) := by
  rw [same.1, same.2]
  exact .served _ (.refl ..)

private theorem setCalls_same (w : Worker) (calls : List Call) :
    (s.setCalls worker w calls).server.worker worker = w ∧
      (s.setCalls worker w calls).calls worker = calls := by
  simp [State.setCalls]

private theorem setCalls_other {other : Nat} (apart : worker ≠ other) (w : Worker)
    (calls : List Call) :
    (s.setCalls other w calls).server.worker worker = s.server.worker worker ∧
      (s.setCalls other w calls).calls worker = s.calls worker := by
  simp [State.setCalls, Session.State.setWorker_other _ _ apart, apart]

private theorem plain_turned {action : Session.Action} (worker : Nat)
    (plain : step s (.plain action) = { s with server := Session.step s.server action })
    (recv : ∀ finAccepted, action ≠ .recv worker finAccepted)
    (close : ∀ fd finAccepted, action ≠ .close worker fd finAccepted) :
    Turned s (.plain action) worker ((step s (.plain action)).server.worker worker)
      ((step s (.plain action)).calls worker) := by
  have changed := step_changed s.server action worker
  have grows : (step s (.plain action)).server.regs = (Session.step s.server action).regs := by
    rw [plain]
  rw [plain]
  show Turned s _ worker ((Session.step s.server action).worker worker) (s.calls worker)
  generalize (Session.step s.server action).worker worker = w' at changed
  cases changed with
  | parent _ served => exact .served _ (grows ▸ served)
  | received finAccepted here => exact absurd here (recv finAccepted)
  | sent fd data accepted => exact .sent fd data accepted
  | closed fd accepted here => exact absurd here (close fd accepted)

private theorem handleRecvQueue_turned (s : State) (owner worker : Nat) (finAccepted : Bool) :
    Turned s (.recv owner finAccepted) worker
      ((s.handleRecvQueue owner finAccepted).server.worker worker)
      ((s.handleRecvQueue owner finAccepted).calls worker) := by
  unfold State.handleRecvQueue
  split
  · rename_i mb rest idle front
    split
    · rename_i type
      by_cases here : worker = owner
      · subst here
        rw [State.handleClose, (setCalls_same ..).1, (setCalls_same ..).2]
        exact .taken finAccepted rfl idle mb rest front type
      · exact turned_idle _ worker (setCalls_other here ..)
    · rename_i type
      by_cases here : worker = owner
      · subst here
        have own : (Session.step s.server (.recv worker finAccepted)).worker worker =
            (s.server.worker worker).handleRecvQueue finAccepted := by
          simp [Session.step]
        rw [own]
        refine .received finAccepted idle ?_
        rintro other tail first
        rw [front] at first
        rwa [← (List.cons.inj first).1]
      · exact turned_idle _ worker ⟨Session.State.setWorker_other _ _ here, rfl⟩
  · exact turned_idle _ worker ⟨rfl, rfl⟩

private theorem closeClientConn_turned (s : State) (owner worker : Nat) (fd : Int) :
    Turned s (.close owner fd) worker
      ((s.closeClientConn owner fd).server.worker worker)
      ((s.closeClientConn owner fd).calls worker) := by
  unfold State.closeClientConn
  split
  · rename_i session found
    by_cases here : worker = owner
    · subst here
      rw [State.handleClose, (setCalls_same ..).1, (setCalls_same ..).2]
      exact .closing fd rfl session found _
    · exact turned_idle _ worker (setCalls_other here ..)
  · exact turned_idle _ worker ⟨rfl, rfl⟩

private theorem ret_turned (s : State) (owner worker : Nat) (finAccepted : Bool) :
    Turned s (.ret owner finAccepted) worker ((s.ret owner finAccepted).server.worker worker)
      ((s.ret owner finAccepted).calls worker) := by
  unfold State.ret
  split
  · rename_i call rest front
    by_cases here : worker = owner
    · subst here
      rw [(setCalls_same ..).1, (setCalls_same ..).2]
      exact .returned finAccepted call rest front
    · exact turned_idle _ worker (setCalls_other here ..)
  · exact turned_idle _ worker ⟨rfl, rfl⟩

private theorem step_turned (s : State) (action : Action) (worker : Nat) :
    Turned s action worker ((step s action).server.worker worker)
      ((step s action).calls worker) := by
  cases action with
  | plain action =>
      cases action with
      | recv | close => exact turned_idle _ worker ⟨rfl, rfl⟩
      | _ => exact plain_turned worker rfl (by simp) (by simp)
  | recv owner finAccepted => exact handleRecvQueue_turned s owner worker finAccepted
  | close owner fd => exact closeClientConn_turned s owner worker fd
  | ret owner finAccepted => exact ret_turned s owner worker finAccepted

private theorem step_regs (s : State) (action : Action) :
    s.server.regs ≤ (step s action).server.regs := by
  cases action with
  | plain action =>
      cases action with
      | recv | close => exact le_rfl
      | _ => exact regs_le s.server _
  | recv worker finAccepted =>
      simp only [step, State.handleRecvQueue]
      split
      · split <;> exact le_rfl
      · exact le_rfl
  | close worker fd =>
      simp only [step, State.closeClientConn]
      split <;> exact le_rfl
  | ret worker finAccepted =>
      simp only [step, State.ret]
      split <;> exact le_rfl

/-! ## The two halves of `handle_close` -/

@[simp] theorem getFdsess_callClosed (closed fd : Int) :
    (callClosed w closed).getFdsess fd = w.getFdsess fd := rfl

private theorem callClosed_log {fd : Int} {session : FdSess}
    (found : w.getFdsess fd = some session) :
    (callClosed w fd).log = w.log ++ [.closed fd (some session)] := by
  rw [callClosed, found]

private theorem opens_callClosed (fd : Int) : (callClosed w fd).opens = w.opens := by
  simp [Worker.opens, callClosed, Event.openedOrigin]

/-- The FIN_BLOCK is for the send queue only. -/
theorem finishClose_same (w : Worker) (call : Call) (finAccepted : Bool) :
    (finishClose w call finAccepted).cn = w.cn.erase call.fd ∧
      (finishClose w call finAccepted).count = w.count - 1 ∧
      (finishClose w call finAccepted).log = w.log ∧
      (finishClose w call finAccepted).recvq = w.recvq := by
  unfold finishClose
  split <;> exact ⟨rfl, rfl, rfl, rfl⟩

private theorem getFdsess_finishClose (call : Call) (finAccepted : Bool) (fd : Int) :
    (finishClose w call finAccepted).getFdsess fd =
      if fd = call.fd then none else w.getFdsess fd := by
  rw [Worker.getFdsess, (finishClose_same w call finAccepted).1]
  split
  · rename_i same
    rw [same]
    exact AList.lookup_erase ..
  · rename_i apart
    exact AList.lookup_erase_ne apart

private theorem opens_finishClose (call : Call) (finAccepted : Bool) :
    (finishClose w call finAccepted).opens = w.opens := by
  obtain ⟨_, _, log, recvq⟩ := finishClose_same w call finAccepted
  rw [Worker.opens, log, recvq, Worker.opens]

/-! ## What every run keeps -/

/-- The sessions of the table were opened, and no OPEN_BLOCK of the queue was. -/
structure Own (regs : Nat) (w : Worker) : Prop where
  sessions : ∀ fd session, w.getFdsess fd = some session →
    session.fd = fd ∧ .opened session ∈ w.log
  ordered : w.Ordered regs

namespace Own

variable {regs later : Nat}

theorem mono (own : Own regs w) (grows : regs ≤ later) (log : w.log ⊆ w'.log)
    (opens : w'.opens.Sublist w.opens)
    (kept : ∀ fd session, w'.getFdsess fd = some session → w.getFdsess fd = some session) :
    Own later w' where
  sessions := fun fd session found =>
    (own.sessions fd session (kept fd session found)).imp_right fun member => log member
  ordered := own.ordered.sublist opens grows

theorem served (own : Own regs w) (served : Served regs later w w') (grows : regs ≤ later) :
    Own later w' where
  sessions := by
    intro fd session found
    rw [served.own.2.2]
    exact own.sessions fd session (by simpa [Worker.getFdsess, served.own.1] using found)
  ordered := own.ordered.served served grows

theorem received (own : Own regs w) (grows : regs ≤ later) {accepted : Bool}
    (received : Worker.Received accepted w w') : Own later w' where
  sessions := by
    intro fd session found
    have grown := received.log_grows.subset
    cases received with
    | idle | ignored | process | rejected =>
        exact (own.sessions fd session found).imp_right fun member => grown member
    | opened mb rest first =>
        rw [Worker.getFdsess_addFdsess] at found
        split at found
        · rename_i same
          obtain rfl := Option.some.inj found
          exact ⟨same.symm, List.mem_append_right _ (List.mem_singleton.mpr rfl)⟩
        · exact (own.sessions fd session found).imp_right fun member => grown member
    | closed mb rest first =>
        rw [Worker.getFdsess_handleClose] at found
        split at found
        · cases found
        · exact (own.sessions fd session found).imp_right fun member => grown member
  ordered := own.ordered.sublist received.opens_sublist grows

end Own

private theorem sendPkgToClient_same (fd : Int) (data : List UInt8) (accepted : Bool) :
    (w.sendPkgToClient fd data accepted).cn = w.cn ∧
      (w.sendPkgToClient fd data accepted).count = w.count ∧
      (w.sendPkgToClient fd data accepted).log = w.log := by
  unfold Worker.sendPkgToClient
  split <;> exact ⟨rfl, rfl, rfl⟩

/-! ## Exactly once -/

private theorem exactlyOnce_init : ExactlyOnce .init [] where
  found := by simp [Worker.init]
  opened := by simp [Worker.init]
  closes := by simp [Worker.init]
  count := by simp [Worker.init]

namespace ExactlyOnce

theorem own (once : ExactlyOnce w calls)
    (same : w'.cn = w.cn ∧ w'.count = w.count ∧ w'.log = w.log) : ExactlyOnce w' calls := by
  obtain ⟨recvq, sendq, cn, count, log⟩ := w'
  obtain ⟨rfl, rfl, rfl⟩ : cn = w.cn ∧ count = w.count ∧ log = w.log := same
  exact ⟨once.found, once.opened, once.closes, once.count⟩

theorem log (once : ExactlyOnce w calls) {event : Event}
    (opens : ∀ session, event ≠ .opened session)
    (closes : ∀ fd session, event ≠ .closed fd session) :
    ExactlyOnce { w with log := w.log ++ [event] } calls where
  found := by
    intro fd member
    rcases List.mem_append.mp member with old | new
    · exact once.found fd old
    · exact closes fd none (List.mem_singleton.mp new).symm
  opened := by
    intro fd session member
    rcases List.mem_append.mp member with old | new
    · exact (once.opened fd session old).imp_right (List.mem_append_left _)
    · exact absurd (List.mem_singleton.mp new).symm (closes fd (some session))
  closes := by
    intro session member
    have old : .opened session ∈ w.log := by
      rcases List.mem_append.mp member with old | new
      · exact old
      · exact absurd (List.mem_singleton.mp new).symm (opens session)
    rw [List.count_append, List.count_singleton, if_neg (by simpa using closes _ _)]
    exact once.closes session old
  count := once.count

theorem addFdsess (once : ExactlyOnce w []) {session : FdSess}
    (absent : w.getFdsess session.fd = none) (fresh : .opened session ∉ w.log) :
    ExactlyOnce (w.addFdsess session) [] where
  found := by
    intro fd member
    rcases List.mem_append.mp member with old | new
    · exact once.found fd old
    · cases List.mem_singleton.mp new
  opened := by
    intro fd other member
    rcases List.mem_append.mp member with old | new
    · exact (once.opened fd other old).imp_right (List.mem_append_left _)
    · cases List.mem_singleton.mp new
  closes := by
    intro other member
    have same : (w.addFdsess session).log.count (.closed other.fd (some other)) =
        w.log.count (.closed other.fd (some other)) := by
      simp [Worker.addFdsess]
    rw [same, Worker.getFdsess_addFdsess]
    by_cases new : other = session
    · subst new
      have never : .closed other.fd (some other) ∉ w.log :=
        fun member => fresh (once.opened _ _ member).2
      rw [List.count_eq_zero_of_not_mem never]
      simp
    · have old : .opened other ∈ w.log := by
        rcases List.mem_append.mp member with old | last
        · exact old
        · exact absurd (Event.opened.inj (List.mem_singleton.mp last)) new
      rw [once.closes other old]
      by_cases here : other.fd = session.fd
      · rw [here, absent, if_pos rfl]
        simp [Ne.symm new]
      · rw [if_neg here]
  count := by
    have outside : session.fd ∉ w.cn.keys := by
      rw [← AList.mem_keys]
      exact AList.lookup_eq_none.mp absent
    simp [Worker.addFdsess, AList.keys_insert, List.erase_of_not_mem outside, once.count]

/-- Up to the callback, which is the first for the session. -/
theorem callClosed (once : ExactlyOnce w calls) {fd : Int} {session : FdSess}
    (found : w.getFdsess fd = some session) (key : session.fd = fd)
    (recorded : .opened session ∈ w.log) (first : fd ∉ calls.map Call.fd) (fin : Option Block) :
    ExactlyOnce (callClosed w fd) (⟨fd, w.getFdsess fd, fin⟩ :: calls) where
  found := by
    intro other member
    rw [callClosed_log found] at member
    rcases List.mem_append.mp member with old | new
    · exact once.found other old
    · cases List.mem_singleton.mp new
  opened := by
    intro other closed member
    rw [callClosed_log found] at member ⊢
    rcases List.mem_append.mp member with old | new
    · exact (once.opened other closed old).imp_right (List.mem_append_left _)
    · obtain ⟨rfl, same⟩ := Event.closed.inj (List.mem_singleton.mp new)
      obtain rfl := Option.some.inj same
      exact ⟨key, List.mem_append_left _ recorded⟩
  closes := by
    intro other member
    rw [callClosed_log found] at member ⊢
    have old : .opened other ∈ w.log := by
      rcases List.mem_append.mp member with old | new
      · exact old
      · cases List.mem_singleton.mp new
    have before := once.closes other old
    rw [List.count_append, before, getFdsess_callClosed, List.map_cons]
    by_cases same : other = session
    · subst same
      simp [key, found, first]
    · have apart : Event.closed fd (some session) ≠ .closed other.fd (some other) :=
        fun equal => same (Option.some.inj (Event.closed.inj equal).2).symm
      rw [List.count_singleton, beq_eq_false_iff_ne.mpr apart, if_neg Bool.false_ne_true]
      by_cases here : other.fd = fd
      · simp [here, found, Ne.symm same]
      · simp [here]
  count := once.count

/-- From the callback on. -/
theorem finishClose {call : Call} (once : ExactlyOnce w (call :: calls))
    (present : (w.getFdsess call.fd).isSome) (finAccepted : Bool) :
    ExactlyOnce (finishClose w call finAccepted) calls where
  found := by
    rw [(finishClose_same w call finAccepted).2.2.1]
    exact once.found
  opened := by
    rw [(finishClose_same w call finAccepted).2.2.1]
    exact once.opened
  closes := by
    rw [(finishClose_same w call finAccepted).2.2.1]
    intro session member
    rw [once.closes session member, getFdsess_finishClose, List.map_cons]
    by_cases here : session.fd = call.fd
    · simp [here]
    · simp [here]
  count := by
    have inside : call.fd ∈ w.cn.keys := by
      rw [← AList.mem_keys]
      exact AList.lookup_isSome.mp present
    have length := List.length_pos_of_mem inside
    obtain ⟨cn, count, _⟩ := finishClose_same w call finAccepted
    rw [cn, count, once.count, AList.keys_erase, List.length_erase_of_mem inside]
    omega

theorem received {regs : Nat} {accepted : Bool} (once : ExactlyOnce w []) (ordered : w.Ordered regs)
    (other : ∀ mb rest, w.recvq = mb :: rest → mb.type ≠ .closeBlock)
    (received : Worker.Received accepted w w') : ExactlyOnce w' [] := by
  have popped : ∀ rest, ExactlyOnce { w with recvq := rest } [] :=
    fun _ => once.own ⟨rfl, rfl, rfl⟩
  cases received with
  | idle => exact once
  | ignored mb rest => exact popped rest
  | process mb rest session => exact (popped rest).log (by simp) (by simp)
  | opened mb rest first type absent =>
      have queued : mb ∈ w.recvq := first ▸ List.mem_cons_self
      refine (popped rest).addFdsess absent fun recorded => ?_
      exact (ordered.session_lt recorded queued type).false
  | rejected mb rest =>
      have logged : ExactlyOnce { w with recvq := rest, log := w.log ++ [.rejected mb] } [] :=
        (popped rest).log (by simp) (by simp)
      exact logged.own ⟨rfl, rfl, rfl⟩
  | closed mb rest first type => exact absurd type (other mb rest first)

end ExactlyOnce

/-! ## While the condition holds -/

/-- The calls are about different descriptors, which still have their sessions. -/
structure Nested (w : Worker) (calls : List Call) : Prop where
  nodup : (calls.map Call.fd).Nodup
  present : ∀ call ∈ calls, (w.getFdsess call.fd).isSome

structure Kept (regs : Nat) (w : Worker) (calls : List Call) : Prop where
  own : Own regs w
  once : ExactlyOnce w calls
  nested : Nested w calls

theorem Nested.mono (nested : Nested w calls)
    (kept : ∀ fd, (w.getFdsess fd).isSome → (w'.getFdsess fd).isSome) : Nested w' calls :=
  ⟨nested.nodup, fun call member => kept _ (nested.present call member)⟩

private theorem nested_nil (w : Worker) : Nested w [] := ⟨List.nodup_nil, by simp⟩

private theorem kept_init : Kept 0 .init [] where
  own := ⟨by simp [Worker.init, Worker.getFdsess],
    ⟨List.Pairwise.nil, by simp [Worker.init, Worker.opens]⟩⟩
  once := exactlyOnce_init
  nested := nested_nil _

namespace Kept

variable {regs later : Nat}

theorem popRecvq (kept : Kept regs w calls) {mb : Block} {rest : List Block}
    (front : w.recvq = mb :: rest) : Kept regs { w with recvq := rest } calls where
  own := by
    have queue : rest.Sublist w.recvq := front ▸ List.sublist_cons_self mb rest
    exact kept.own.mono le_rfl (List.Subset.refl _)
      ((queue.filterMap Block.openOrigin).append_left _) fun _ _ found => found
  once := kept.once.own ⟨rfl, rfl, rfl⟩
  nested := kept.nested.mono fun _ present => present

theorem callClosed (kept : Kept regs w calls) (grows : regs ≤ later) {fd : Int}
    (present : (w.getFdsess fd).isSome) (first : fd ∉ calls.map Call.fd) (fin : Option Block) :
    Kept later (callClosed w fd) (⟨fd, w.getFdsess fd, fin⟩ :: calls) where
  own := kept.own.mono grows (List.subset_append_left ..)
    (by rw [opens_callClosed]) fun _ _ found => found
  once := by
    obtain ⟨session, found⟩ := Option.isSome_iff_exists.mp present
    obtain ⟨key, recorded⟩ := kept.own.sessions fd session found
    exact kept.once.callClosed found key recorded first fin
  nested := by
    refine ⟨List.nodup_cons.mpr ⟨first, kept.nested.nodup⟩, ?_⟩
    exact List.forall_mem_cons.mpr ⟨present, kept.nested.present⟩

theorem finishClose {call : Call} (kept : Kept regs w (call :: calls)) (grows : regs ≤ later)
    (finAccepted : Bool) : Kept later (finishClose w call finAccepted) calls := by
  obtain ⟨last, nodup⟩ := List.nodup_cons.mp kept.nested.nodup
  obtain ⟨present, others⟩ := List.forall_mem_cons.mp kept.nested.present
  refine ⟨kept.own.mono grows ?_ ?_ ?_, kept.once.finishClose present finAccepted, nodup, ?_⟩
  · rw [(finishClose_same w call finAccepted).2.2.1]
    exact List.Subset.refl _
  · rw [opens_finishClose]
  · intro fd session found
    rw [getFdsess_finishClose] at found
    split at found
    · cases found
    · exact found
  · intro other member
    have apart : other.fd ≠ call.fd := fun same => last (same ▸ List.mem_map_of_mem member)
    rw [getFdsess_finishClose, if_neg apart]
    exact others other member

theorem step {s : State} (kept : Kept s.server.regs (s.server.worker worker) (s.calls worker))
    (action : Action) (closes : ClosesOnce worker s action) :
    Kept (step s action).server.regs ((step s action).server.worker worker)
      ((step s action).calls worker) := by
  have grows := step_regs s action
  have turned := step_turned s action worker
  generalize (Callbacks.step s action).server.worker worker = w',
    (Callbacks.step s action).calls worker = calls' at turned
  cases turned with
  | served _ served =>
      refine ⟨kept.own.served served grows, kept.once.own served.own, kept.nested.mono ?_⟩
      intro fd present
      rwa [Worker.getFdsess, served.own.1]
  | sent fd data accepted =>
      have same := sendPkgToClient_same (w := s.server.worker worker) fd data accepted
      have table : ∀ other, ((s.server.worker worker).sendPkgToClient fd data accepted).getFdsess
          other = (s.server.worker worker).getFdsess other := by
        intro other
        rw [Worker.getFdsess, same.1, Worker.getFdsess]
      refine ⟨kept.own.mono grows ?_ ?_ ?_, kept.once.own same, kept.nested.mono ?_⟩
      · rw [same.2.2]
        exact List.Subset.refl _
      · rw [Worker.opens_sendPkgToClient]
      · exact fun other session found => table other ▸ found
      · exact fun other present => (table other).symm ▸ present
  | received finAccepted idle other =>
      have received := Worker.handleRecvQueue_received (s.server.worker worker) finAccepted
      have once := kept.once
      rw [idle] at once ⊢
      exact ⟨kept.own.received grows received, once.received kept.own.ordered other received,
        nested_nil _⟩
  | taken finAccepted here idle mb rest front type =>
      subst here
      have present := closes rfl idle mb rest front type
      exact (kept.popRecvq front).callClosed grows present (by simp [idle]) none
  | closing fd here session found fin =>
      subst here
      have present : ((s.server.worker worker).getFdsess fd).isSome := by simp [found]
      exact kept.callClosed grows present (closes rfl present) fin
  | returned finAccepted call rest front =>
      exact (front ▸ kept).finishClose grows finAccepted

end Kept

/-! ## What a step that violates it leaves behind -/

/-- No callback without a session, and none twice for one. -/
def Intact (w : Worker) : Prop :=
  (∀ fd, .closed fd none ∉ w.log) ∧ ∀ fd session, w.log.count (.closed fd (some session)) ≤ 1

theorem ExactlyOnce.intact (once : ExactlyOnce w calls) : Intact w := by
  refine ⟨once.found, fun fd session => ?_⟩
  by_cases member : .closed fd (some session) ∈ w.log
  · obtain ⟨rfl, opened⟩ := once.opened fd session member
    rw [once.closes session opened]
    split <;> omega
  · rw [List.count_eq_zero_of_not_mem member]
    exact Nat.zero_le 1

private theorem Intact.of_prefix (intact : Intact w') (grows : w.log <+: w'.log) : Intact w :=
  ⟨fun fd member => intact.1 fd (grows.subset member),
    fun fd session => (grows.sublist.count_le _).trans (intact.2 fd session)⟩

private theorem step_log_grows (s : State) (action : Action) (worker : Nat) :
    (s.server.worker worker).log <+: ((step s action).server.worker worker).log := by
  have turned := step_turned s action worker
  generalize (step s action).server.worker worker = w', (step s action).calls worker = calls'
    at turned
  cases turned with
  | served _ served => exact served.own.2.2 ▸ List.prefix_rfl
  | sent fd data accepted => exact (sendPkgToClient_same fd data accepted).2.2 ▸ List.prefix_rfl
  | received finAccepted => exact (Worker.handleRecvQueue_received ..).log_grows
  | taken | closing => exact List.prefix_append ..
  | returned finAccepted call rest =>
      exact (finishClose_same _ call finAccepted).2.2.1 ▸ List.prefix_rfl

private theorem setCalls_log (w : Worker) (calls : List Call) :
    ((s.setCalls worker w calls).server.worker worker).log = w.log := by
  rw [(setCalls_same w calls).1]

theorem damages {regs : Nat}
    (kept : Kept regs (s.server.worker worker) (s.calls worker)) {action : Action}
    (violated : ¬ ClosesOnce worker s action) :
    ¬ Intact ((step s action).server.worker worker) := by
  cases action with
  | plain | ret => exact absurd trivial violated
  | recv owner finAccepted =>
      simp only [ClosesOnce, not_forall] at violated
      obtain ⟨rfl, idle, mb, rest, front, type, absent⟩ := violated
      have absent : (s.server.worker owner).getFdsess mb.fd = none := by simpa using absent
      intro intact
      refine intact.1 mb.fd ?_
      simp [step, State.handleRecvQueue, idle, front, type, State.handleClose, setCalls_log,
        callClosed, absent]
  | close owner fd =>
      simp only [ClosesOnce, not_forall, not_not] at violated
      obtain ⟨rfl, present, under⟩ := violated
      obtain ⟨session, found⟩ := Option.isSome_iff_exists.mp present
      obtain ⟨key, recorded⟩ := kept.own.sessions fd session found
      -- the call that has not returned has run the callback already
      have once := kept.once.closes session recorded
      rw [key, if_neg fun never => never.2 under] at once
      intro intact
      have twice := intact.2 fd session
      simp [step, State.closeClientConn, found, State.handleClose, setCalls_log, callClosed,
        once] at twice

/-! ## Main results -/

/-- In every run, the worker has closed its sessions exactly once if and only if every
CLOSE_BLOCK it handled found a session and no callback closed a session again. -/
theorem closes_exactly_once (actions : List Action) (worker : Nat) :
    ExactlyOnce ((run step init actions).server.worker worker)
        ((run step init actions).calls worker) ↔
      Along step (ClosesOnce worker) init actions := by
  let invariant (s : State) : Prop :=
    Kept s.server.regs (s.server.worker worker) (s.calls worker)
  have preserved : ∀ s action, ClosesOnce worker s action → invariant s →
      invariant (step s action) :=
    fun _ action closes kept => kept.step action closes
  have initial : invariant init := kept_init
  constructor
  · intro once
    refine (along_iff_intact invariant (fun s => Intact (s.server.worker worker)) preserved
      (fun _ kept => kept.once.intact) (fun _ _ kept => damages kept) ?_ initial actions).mpr
      once.intact
    exact fun s action damaged intact => damaged (intact.of_prefix (step_log_grows s action worker))
  · exact fun along => (run_preserves_along invariant preserved initial along).once

/-- The peer hangs up while the plugin closes the connection. -/
def crossing : List Action :=
  [.plain (.register 3 .listen (some 0)), .plain (.accept 3 5 (80, 16777343) 7 true), .recv 0 true,
    .plain (.drop 5 true), .close 0 5, .ret 0 true, .recv 0 true, .ret 0 true]

/-- The callback for a CLOSE_BLOCK closes the connection itself. -/
def nested : List Action :=
  [.plain (.register 3 .listen (some 0)), .plain (.accept 3 5 (80, 16777343) 7 true), .recv 0 true,
    .plain (.drop 5 true), .recv 0 true, .close 0 5, .ret 0 true, .ret 0 true]

theorem closes_twice :
    ¬ ExactlyOnce ((run step init crossing).server.worker 0) ((run step init crossing).calls 0) ∧
    ¬ ExactlyOnce ((run step init nested).server.worker 0) ((run step init nested).calls 0) := by
  have crossed : ((run step init crossing).server.worker 0).count = -1 := by decide +kernel
  have nests : ((run step init nested).server.worker 0).count = -1 := by decide +kernel
  constructor
  · intro once
    have count := once.count
    rw [crossed] at count
    omega
  · intro once
    have count := once.count
    rw [nests] at count
    omega

end MpNet.Session.Callbacks
