import MpNet.Session.Traffic

/-!
# The answers to a client are sent in order

What a worker queues for one connection is handed to `net_send` in the order in which it was
queued, each block at most once, and none is passed over while the connection is there.
-/

set_option autoImplicit false

namespace MpNet.Session

open Library Net Net.Epi

def Block.answer (fd : Int) (origin : Nat) (mb : Block) : Option (List UInt8) :=
  if mb.type = .dataBlock ∧ mb.fd = fd ∧ mb.origin = origin then some mb.data else none

/-- The answers for a connection that are still queued. -/
def Worker.queued (w : Worker) (fd : Int) (origin : Nat) : List (List UInt8) :=
  w.sendq.filterMap (Block.answer fd origin)

/-- The answer that a step puts in the send queue of the worker for a connection. -/
def dispatched (worker : Nat) (fd : Int) (origin : Nat) (s : State) : Action → List (List UInt8)
  | .send owner client data true =>
      if owner = worker ∧ client = fd ∧ (s.worker worker).now fd = some origin then [data] else []
  | _ => []

/-- The answer that a step hands to `net_send`. -/
def applied (worker : Nat) (fd : Int) (origin : Nat) (s : State) : Action → List (List UInt8)
  | .output owner (.sent _ _) =>
      match (s.worker worker).sendq with
      | mb :: _ => if owner = worker ∧ s.Passes mb then (mb.answer fd origin).toList else []
      | [] => []
  | _ => []

/-- The connection is past. -/
structure Gone (s : State) (fd : Int) (origin : Nat) : Prop where
  past : origin ≤ s.regs
  closed : ¬ ((s.epi.fds fd).type = .remote ∧ s.gen fd = origin)

theorem Gone.step {s : State} {fd : Int} {origin : Nat} (gone : Gone s fd origin)
    (action : Action) : Gone (step s action) fd origin := by
  have slot := step_slot s action fd
  refine ⟨gone.past.trans (regs_le s action), ?_⟩
  rintro ⟨remote, current⟩
  cases slot with
  | kept type _ gen => exact gone.closed ⟨type.symm.trans remote, gen.symm.trans current⟩
  | freed type =>
      rw [type] at remote
      cases remote
  | registered gen =>
      have past := gone.past
      omega

/-! ## Send queues -/

section Queues

variable {s : State} {worker : Nat} {fd : Int} {origin : Nat} {w w' : Worker} {mb : Block}
  {rest : List Block}

theorem answer_some {data : List UInt8} (carries : mb.answer fd origin = some data) :
    mb.type = .dataBlock ∧ mb.fd = fd ∧ mb.origin = origin := by
  unfold Block.answer at carries
  split at carries
  · assumption
  · cases carries

private theorem queued_cons (first : w.sendq = mb :: rest) (left : w'.sendq = rest) (fd : Int)
    (origin : Nat) : w.queued fd origin = (mb.answer fd origin).toList ++ w'.queued fd origin := by
  unfold Worker.queued
  rw [first, left]
  cases carries : mb.answer fd origin <;> simp [carries]

private theorem queued_pushSendq (accepted : Bool) (fd : Int) (origin : Nat) :
    (w.pushSendq mb accepted).queued fd origin = w.queued fd origin ++
      if accepted then (mb.answer fd origin).toList else [] := by
  unfold Worker.queued
  cases accepted with
  | false => simp [Worker.pushSendq]
  | true => cases carries : mb.answer fd origin <;> simp [Worker.pushSendq, carries]

theorem dropConn_sendq (client : Int) (closeAccepted : Bool) :
    ((s.dropConn client closeAccepted).worker worker).sendq = (s.worker worker).sendq := by
  unfold State.dropConn
  split
  · rfl
  · exact pushBlock_sendq

theorem openConn_sendq (listener newfd : Int) (peer : UInt16 × UInt32) (now : UInt32)
    (accepted : Bool) :
    ((s.openConn listener newfd peer now accepted).worker worker).sendq =
      (s.worker worker).sendq := by
  unfold State.openConn
  cases accepted <;> exact pushBlock_sendq

theorem applyBlock_sendq (mb : Block) (outcome : SendOutcome) :
    ((s.applyBlock mb outcome).worker worker).sendq = (s.worker worker).sendq := by
  unfold State.applyBlock
  split
  · rfl
  · split
    · rfl
    · exact dropConn_sendq ..

/-- A step as it is seen from one send queue. -/
inductive AnswerStep (s s' : State) (worker : Nat) (fd : Int) (origin : Nat) :
    List (List UInt8) → List (List UInt8) → Prop
  | queued (more : List (List UInt8))
      (grows : (s'.worker worker).queued fd origin = (s.worker worker).queued fd origin ++ more) :
      AnswerStep s s' worker fd origin more []
  | applied (mb : Block) (member : mb ∈ (s.worker worker).sendq) (passes : s.Passes mb)
      (popped : (s.worker worker).queued fd origin =
        (mb.answer fd origin).toList ++ (s'.worker worker).queued fd origin) :
      AnswerStep s s' worker fd origin [] (mb.answer fd origin).toList
  | lost (mb : Block) (member : mb ∈ (s.worker worker).sendq)
      (popped : (s.worker worker).queued fd origin =
        (mb.answer fd origin).toList ++ (s'.worker worker).queued fd origin)
      (reason : mb.answer fd origin = none ∨ ¬ s.Passes mb ∨
        (s'.epi.fds mb.fd).type = .unused) :
      AnswerStep s s' worker fd origin [] []

private theorem answerStep_quiet {s' : State}
    (same : (s'.worker worker).sendq = (s.worker worker).sendq) :
    AnswerStep s s' worker fd origin [] [] :=
  .queued [] (by simp [Worker.queued, same])

private theorem answerStep_output (worker : Nat) (outcome : SendOutcome) (fd : Int) (origin : Nat) :
    AnswerStep s (s.handleSendQueue worker outcome) worker fd origin []
      (applied worker fd origin s (.output worker outcome)) := by
  cases queue : (s.worker worker).sendq with
  | nil =>
      have idle : s.handleSendQueue worker outcome = s := by
        unfold State.handleSendQueue
        rw [queue]
      have none_applied : applied worker fd origin s (.output worker outcome) = [] := by
        unfold applied
        cases outcome <;> simp [queue]
      rw [idle, none_applied]
      exact answerStep_quiet rfl
  | cons mb rest =>
      have member : mb ∈ (s.worker worker).sendq := queue ▸ List.mem_cons_self
      rw [State.handleSendQueue_front queue]
      simp only
      split
      · rename_i passes
        have left : (((s.setWorker worker { s.worker worker with sendq := rest }).applyBlock mb
            outcome).worker worker).sendq = rest := by
          rw [applyBlock_sendq, State.setWorker_same]
        have popped := queued_cons queue left fd origin
        cases outcome with
        | sent cb now =>
            have handed : applied worker fd origin s (.output worker (.sent cb now)) =
                (mb.answer fd origin).toList := by
              simp [applied, queue, passes]
            rw [handed]
            exact .applied mb member passes popped
        | failed closeAccepted =>
            refine .lost mb member popped ?_
            by_cases fin : mb.type = .finBlock
            · exact .inl (if_neg fun data => by simp [fin] at data)
            · have used : ((s.setWorker worker { s.worker worker with sendq := rest }).epi.fds
                  mb.fd).type ≠ .unused := by
                have filters := passes.2
                simp only [not_or, ne_eq, not_not] at filters
                show (s.epi.fds mb.fd).type ≠ .unused
                simp [filters.1]
              refine .inr (.inr ?_)
              simp only [State.applyBlock, if_neg fin, State.dropConn, if_neg used]
              simp [State.delConn, release_same]
      · rename_i blocked
        have left : ((s.setWorker worker { s.worker worker with sendq := rest }).worker
            worker).sendq = rest := by rw [State.setWorker_same]
        have popped := queued_cons queue left fd origin
        have none_applied : applied worker fd origin s (.output worker outcome) = [] := by
          unfold applied
          cases outcome <;> simp [queue, blocked]
        rw [none_applied]
        exact .lost mb member popped (.inr (.inl blocked))

/-- An answer is queued for the connection of the session. -/
theorem dispatched_send (inv : Inv s) (worker : Nat) (client : Int) (data : List UInt8)
    (accepted : Bool) (fd : Int) (origin : Nat) :
    ((s.worker worker).sendPkgToClient client data accepted).queued fd origin =
      (s.worker worker).queued fd origin ++
        dispatched worker fd origin s (.send worker client data accepted) := by
  unfold Worker.sendPkgToClient
  cases found : (s.worker worker).getFdsess client with
  | none =>
      have none_sent : dispatched worker fd origin s (.send worker client data accepted) = [] := by
        unfold dispatched
        cases accepted with
        | false => rfl
        | true =>
            refine if_neg ?_
            rintro ⟨-, rfl, serves⟩
            rw [Worker.now, found] at serves
            cases serves
      rw [none_sent, List.append_nil]
  | some session =>
      have key := ((inv.workers worker).sessions client session found).key
      have now : (s.worker worker).now client = some session.origin := by
        rw [Worker.now, found]
        rfl
      simp only [queued_pushSendq]
      cases accepted with
      | false => rfl
      | true =>
          unfold dispatched
          by_cases here : client = fd
          · subst here
            by_cases current : session.origin = origin <;>
              simp [Block.answer, key, now, current]
          · simp [Block.answer, key, here]

private theorem step_answers (inv : Inv s) (action : Action) (worker : Nat) (fd : Int)
    (origin : Nat) :
    AnswerStep s (step s action) worker fd origin (dispatched worker fd origin s action)
      (applied worker fd origin s action) := by
  cases action with
  | register newfd type owner =>
      refine answerStep_quiet ?_
      simp only [step]
      split <;> rfl
  | accept listener newfd peer now accepted =>
      refine answerStep_quiet ?_
      simp only [step]
      split
      · exact openConn_sendq ..
      · rfl
  | packet client data accepted closeAccepted =>
      refine answerStep_quiet ?_
      simp only [step]
      split
      · split
        · exact pushBlock_sendq
        · exact (dropConn_sendq ..).trans pushBlock_sendq
      · rfl
  | transfer client cb now =>
      refine answerStep_quiet ?_
      simp only [step]
      split <;> rfl
  | drop client closeAccepted =>
      refine answerStep_quiet ?_
      simp only [step]
      split
      · exact dropConn_sendq ..
      · rfl
  | output owner outcome =>
      by_cases here : owner = worker
      · subst here
        exact answerStep_output owner outcome fd origin
      · have none_applied : applied worker fd origin s (.output owner outcome) = [] := by
          unfold applied
          cases outcome with
          | sent cb now => cases (s.worker worker).sendq <;> simp [here]
          | failed closeAccepted => rfl
        rw [none_applied]
        refine answerStep_quiet ?_
        have apart : worker ≠ owner := fun same => here same.symm
        simp only [step]
        cases queue : (s.worker owner).sendq with
        | nil =>
            unfold State.handleSendQueue
            rw [queue]
        | cons mb rest =>
            rw [State.handleSendQueue_front queue]
            simp only
            split
            · rw [applyBlock_sendq, State.setWorker_other _ _ apart]
            · rw [State.setWorker_other _ _ apart]
  | closeQueue =>
      refine answerStep_quiet ?_
      simp only [step]
      split <;> rfl
  | recv owner finAccepted =>
      by_cases here : worker = owner
      · subst here
        have received := Worker.handleRecvQueue_received (s.worker worker) finAccepted
        have same : ((s.worker worker).handleRecvQueue finAccepted).queued fd origin =
            (s.worker worker).queued fd origin := by
          generalize (s.worker worker).handleRecvQueue finAccepted = w' at received
          cases received with
          | rejected mb rest first type =>
              rw [queued_pushSendq]
              simp [Block.answer, Worker.queued]
          | idle | ignored | process | opened | closed => rfl
        refine .queued [] ?_
        rw [List.append_nil, step, State.setWorker_same, same]
      · refine answerStep_quiet ?_
        simp only [step]
        rw [State.setWorker_other _ _ here]
  | send owner client data accepted =>
      by_cases here : worker = owner
      · subst here
        refine .queued _ ?_
        rw [step, State.setWorker_same]
        exact dispatched_send inv worker client data accepted fd origin
      · have none_sent : dispatched worker fd origin s (.send owner client data accepted) = [] := by
          unfold dispatched
          cases accepted with
          | false => rfl
          | true => exact if_neg fun sent => here sent.1.symm
        rw [none_sent]
        refine answerStep_quiet ?_
        simp only [step]
        rw [State.setWorker_other _ _ here]
  | close owner client finAccepted =>
      by_cases here : worker = owner
      · subst here
        refine .queued [] ?_
        simp only [step, State.setWorker_same]
        unfold Worker.closeClientConn
        split
        · rw [queued_pushSendq]
          simp [Block.answer, Worker.queued, Worker.handleClose, Worker.removeFdsess]
        · simp
      · refine answerStep_quiet ?_
        simp only [step]
        rw [State.setWorker_other _ _ here]

end Queues

/-! ## Main result -/

/-- What was queued for a connection was handed over, then lost, and the rest is queued. -/
def Answered (worker : Nat) (fd : Int) (origin : Nat) (s : State)
    (sent handed : List (List UInt8)) : Prop :=
  ∃ lost, sent = handed ++ lost ++ (s.worker worker).queued fd origin ∧
    (lost = [] ∨ Gone s fd origin)

section Runs

variable {s : State} {worker : Nat} {fd : Int} {origin : Nat} {sent handed : List (List UInt8)}

/-- A block that the filters keep back is about a connection that is past. -/
theorem gone_of_blocked (inv : Inv s) {mb : Block} (member : mb ∈ (s.worker worker).sendq)
    (blocked : ¬ s.Passes mb) : Gone s mb.fd mb.origin := by
  have known := (inv.workers worker).sendq mb member
  refine ⟨known.past.trans (inv.gen_le mb.fd), fun ⟨remote, current⟩ => blocked ?_⟩
  exact AllHeard.passes_of_live inv member ⟨remote, known.owner current, current⟩

theorem Answered.step (inv : Inv s) (answered : Answered worker fd origin s sent handed)
    (near : s.regs - origin < 4294967295) (action : Action) :
    Answered worker fd origin (step s action) (sent ++ dispatched worker fd origin s action)
      (handed ++ applied worker fd origin s action) := by
  obtain ⟨lost, rfl, reason⟩ := answered
  have moved := step_answers inv action worker fd origin
  generalize dispatched worker fd origin s action = more at moved
  generalize applied worker fd origin s action = further at moved
  cases moved with
  | queued more grows =>
      refine ⟨lost, ?_, reason.imp_right (·.step action)⟩
      rw [grows]
      simp
  | applied mb member passes popped =>
      cases carries : mb.answer fd origin with
      | none =>
          refine ⟨lost, ?_, reason.imp_right (·.step action)⟩
          rw [popped, carries]
          simp
      | some data =>
          obtain ⟨-, rfl, rfl⟩ := answer_some carries
          have known := (inv.workers worker).sendq mb member
          have current := inv.passes_origin known passes near
          have filters := passes.2
          simp only [not_or, ne_eq, not_not] at filters
          obtain rfl : lost = [] := by
            refine reason.resolve_right fun gone => gone.closed ⟨filters.1, current⟩
          refine ⟨[], ?_, .inl rfl⟩
          rw [popped, carries]
          simp
  | lost mb member popped why =>
      cases carries : mb.answer fd origin with
      | none =>
          refine ⟨lost, ?_, reason.imp_right (·.step action)⟩
          rw [popped, carries]
          simp
      | some data =>
          obtain ⟨-, rfl, rfl⟩ := answer_some carries
          refine ⟨lost ++ [data], ?_, .inr ?_⟩
          · rw [popped, carries]
            simp
          · have past := ((inv.workers worker).sendq mb member).past.trans (inv.gen_le mb.fd)
            rcases why with none_here | blocked | freed
            · rw [carries] at none_here
              cases none_here
            · exact (gone_of_blocked inv member blocked).step action
            · refine ⟨past.trans (regs_le s action), fun ⟨remote, _⟩ => ?_⟩
              rw [freed] at remote
              cases remote

end Runs

theorem answered_run (worker : Nat) (fd : Int) (origin : Nat) {s : State}
    (sent handed : List (List UInt8)) (historic : Historic s) (actions : List Action)
    (near : (run step s actions).regs - origin < 4294967295)
    (answered : s.regs - origin < 4294967295 → Answered worker fd origin s sent handed) :
    Answered worker fd origin (run step s actions)
      (sent ++ trace step (dispatched worker fd origin) s actions)
      (handed ++ trace step (applied worker fd origin) s actions) := by
  have kept := run_traces_preserve step (dispatched worker fd origin) (applied worker fd origin)
    (fun s sent handed => Historic s ∧
      (s.regs - origin < 4294967295 → Answered worker fd origin s sent handed))
    (fun s action sent handed ⟨historic, answered⟩ => ⟨historic.step action, fun near => by
      have before : s.regs - origin < 4294967295 :=
        (Nat.sub_le_sub_right (regs_le s action) origin).trans_lt near
      exact (answered before).step historic.inv before action⟩)
    s sent handed ⟨historic, answered⟩ actions
  exact kept.2 near

/-- In every run, with pushes refused anywhere, the answers that a worker queued for a
connection are handed to `net_send` in the order in which they were queued, each at most
once; and while the connection is there, all that are not queued any more have been. -/
theorem answers_in_order (actions : List Action) (worker : Nat) (fd : Int) (origin : Nat)
    (near : (run step init actions).regs - origin < 4294967295) :
    let s := run step init actions
    ∃ lost, trace step (dispatched worker fd origin) init actions =
        trace step (applied worker fd origin) init actions ++ lost ++
          (s.worker worker).queued fd origin ∧
      ((s.epi.fds fd).type = .remote → s.gen fd = origin → lost = []) := by
  intro s
  obtain ⟨lost, whole, reason⟩ := answered_run worker fd origin [] [] historic_init actions near
    fun _ => ⟨[], rfl, .inl rfl⟩
  refine ⟨lost, whole, fun remote current => ?_⟩
  exact reason.resolve_right fun gone => gone.closed ⟨remote, current⟩

/-- Two answers, the second of which is still queued. -/
def answeredTwice : List Action :=
  [.register 3 .listen (some 0), .accept 3 5 (80, 16777343) 7 true, .recv 0 true,
    .send 0 5 [1] true, .send 0 5 [2] true, .output 0 (.sent .zero 8)]

theorem answers_in_order_twice :
    ∃ lost, trace step (dispatched 0 5 2) init answeredTwice =
        trace step (applied 0 5 2) init answeredTwice ++ lost ++
          ((run step init answeredTwice).worker 0).queued 5 2 ∧
      (((run step init answeredTwice).epi.fds 5).type = .remote →
        (run step init answeredTwice).gen 5 = 2 → lost = []) :=
  answers_in_order answeredTwice 0 5 2 (by decide +kernel)

end MpNet.Session
