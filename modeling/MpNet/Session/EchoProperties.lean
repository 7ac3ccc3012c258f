import MpNet.Session.Echo

/-!
# The echo server sends back what it received

What is handed to `net_send` for a client is a prefix of what arrived from it, whatever is
refused and however descriptors and identifiers are used again. While nothing is refused to
the connection, the rest is in the two queues.
-/

set_option autoImplicit false

namespace MpNet.Session

open Library Net Net.Epi

variable {s s' : State} {worker owner : Nat} {fd client : Int} {origin room : Nat}

/-! ## What the steps of the plugin leave alone -/

private theorem now_some : (s.worker worker).now fd = some origin ↔
    ∃ session, (s.worker worker).getFdsess fd = some session ∧ session.origin = origin :=
  Option.map_eq_some_iff

private theorem send_now (piece : List UInt8) :
    ((step s (.send owner client piece true)).worker worker).now fd = (s.worker worker).now fd := by
  have own := step_own s (.send owner client piece true) worker
  generalize (step s (.send owner client piece true)).worker worker = w' at own
  cases own with
  | parent _ cn => rw [Worker.now, Worker.getFdsess, cn, Worker.now, Worker.getFdsess]
  | received finAccepted here => cases here
  | closed closing finAccepted here => cases here

private theorem run_processed_away {actions : List Action}
    (away : ∀ action ∈ actions, ∀ finAccepted, action ≠ .recv worker finAccepted) :
    ((run step s actions).worker worker).processed fd origin =
      (s.worker worker).processed fd origin := by
  have along : Along step (fun _ action => ∀ finAccepted, action ≠ .recv worker finAccepted) s
      actions := along_of_forall s away
  exact run_preserves_along
    (fun later => (later.worker worker).processed fd origin = (s.worker worker).processed fd origin)
    (fun _ _ away same => (step_processed away fd origin).trans same) rfl along

private theorem applied_gone (inv : Inv s) (gone : Gone s fd origin)
    (near : s.regs - origin < 4294967295)
    (action : Action) : applied worker fd origin s action = [] := by
  unfold applied
  split
  · rename_i popping cb now
    split
    · rename_i mb rest queue
      split
      · rename_i passes
        cases carries : mb.answer fd origin with
        | none => rfl
        | some data =>
            obtain ⟨-, rfl, rfl⟩ := answer_some carries
            have member : mb ∈ (s.worker worker).sendq := queue ▸ List.mem_cons_self
            have known := (inv.workers worker).sendq mb member
            have current := inv.passes_origin known passes.2 near
            have filters := passes.2.2
            simp only [not_or, ne_eq, not_not] at filters
            exact absurd ⟨filters.1, current⟩ gone.closed
      · rfl
    · rfl
  · rfl

theorem run_regs_le (s : State) (actions : List Action) : s.regs ≤ (run step s actions).regs :=
  run_preserves (fun later => s.regs ≤ later.regs)
    (fun later action before => before.trans (regs_le later action)) le_rfl actions

private theorem trace_applied_gone (historic : Historic s) (gone : Gone s fd origin)
    (actions : List Action)
    (near : (run step s actions).regs - origin < 4294967295) :
    trace step (applied worker fd origin) s actions = [] := by
  induction actions generalizing s with
  | nil => rfl
  | cons action rest ih =>
      have grows := run_regs_le s (action :: rest)
      have here := (Nat.sub_le_sub_right grows origin).trans_lt near
      rw [trace, applied_gone historic.inv gone here,
        ih (historic.step action) (gone.step action) near]
      rfl

/-! ## No session for the connection -/

/-- The worker has no session for the connection, nor will it have one. -/
structure Mute (s : State) (worker : Nat) (fd : Int) (origin : Nat) : Prop
    extends Spent s.regs (s.worker worker) fd origin where
  apart : (s.worker worker).now fd ≠ some origin

theorem Mute.step (mute : Mute s worker fd origin) (action : Action) :
    Mute (step s action) worker fd origin where
  toSpent := mute.toSpent.step action
  apart := by
    rw [Ne, now_some]
    rintro ⟨session, found, same⟩
    by_cases receives : ∃ finAccepted, action = .recv worker finAccepted
    · obtain ⟨finAccepted, rfl⟩ := receives
      rw [Session.step, State.setWorker_same] at found
      have received := Worker.handleRecvQueue_received (s.worker worker) finAccepted
      rcases received_session received found with before | ⟨mb, member, type, here, about⟩
      · exact mute.apart (now_some.mpr ⟨session, before, same⟩)
      · have later := mute.queue mb member type here
        omega
    · have before := InOrder.step_sessions (fun finAccepted same => receives ⟨finAccepted, same⟩)
        fd session found
      exact mute.apart (now_some.mpr ⟨session, before, same⟩)

/-! ## What a round does for one connection -/

private theorem procPkg_away (data : List UInt8) (accepted : Nat) (closeAccepted : Bool) :
    ∀ action ∈ procPkgFromClient room owner client data accepted closeAccepted,
      ∀ finAccepted, action ≠ .recv worker finAccepted := by
  intro action member finAccepted
  rcases List.mem_append.mp member with sent | closed
  · obtain ⟨piece, -, rfl⟩ := List.mem_map.mp sent
    exact Action.noConfusion
  · split at closed
    · rw [List.mem_singleton.mp closed]
      exact Action.noConfusion
    · cases closed

private theorem trace_sends (answer : List (List UInt8)) :
    trace step (dispatched worker fd origin) s
        (answer.map fun piece => .send owner client piece true) =
      if owner = worker ∧ client = fd ∧ (s.worker worker).now fd = some origin then answer
      else [] := by
  induction answer generalizing s with
  | nil => simp [trace]
  | cons piece rest ih =>
      rw [List.map_cons, trace, ih, send_now]
      simp only [dispatched]
      split <;> rfl

private theorem trace_procPkg (data : List UInt8) (accepted : Nat) (closeAccepted : Bool) :
    trace step (dispatched worker fd origin) s
        (procPkgFromClient room owner client data accepted closeAccepted) =
      if owner = worker ∧ client = fd ∧ (s.worker worker).now fd = some origin then
        (pieces room data.length data).take accepted
      else [] := by
  have closing (s : State) : trace step (dispatched worker fd origin) s
      (if accepted < (pieces room data.length data).length then
        [.close owner client closeAccepted] else []) = [] := by
    split <;> rfl
  rw [procPkgFromClient, trace_append, trace_sends, closing, List.append_nil]

/-- The packet at the head of the queue meets the session of another connection. -/
def Stray (s : State) (worker : Nat) (fd : Int) : Prop :=
  ∃ mb ∈ (s.worker worker).recvq.head?, mb.type = .dataBlock ∧ mb.fd = fd ∧
    ∃ session, (s.worker worker).getFdsess fd = some session ∧ session.origin ≠ mb.origin

/-- A step of the server as it is seen from one connection. -/
inductive EchoStep (s s' : State) (worker : Nat) (fd : Int) (origin : Nat) (closes : Prop) :
    List (List UInt8) → Prop
  | quiet (same : (s'.worker worker).processed fd origin = (s.worker worker).processed fd origin) :
      EchoStep s s' worker fd origin closes []
  | answered (data : List UInt8) (sent : List (List UInt8))
      (serving : (s.worker worker).now fd = some origin) (whole : sent.flatten = data)
      (grows : (s'.worker worker).processed fd origin =
        (s.worker worker).processed fd origin ++ [data]) :
      EchoStep s s' worker fd origin closes sent
  | refused (data : List UInt8) (sent : List (List UInt8))
      (serving : (s.worker worker).now fd = some origin) (part : sent.flatten <+: data)
      (grows : (s'.worker worker).processed fd origin =
        (s.worker worker).processed fd origin ++ [data])
      (mute : Mute s' worker fd origin) (closed : closes) :
      EchoStep s s' worker fd origin closes sent
  | unanswered (data : List UInt8) (stray : Stray s worker fd)
      (grows : (s'.worker worker).processed fd origin =
        (s.worker worker).processed fd origin ++ [data])
      (mute : Mute s' worker fd origin) : EchoStep s s' worker fd origin closes []
  | late (sent : List (List UInt8)) (stray : Stray s worker fd) (gone : Gone s fd origin)
      (same : (s'.worker worker).processed fd origin = (s.worker worker).processed fd origin) :
      EchoStep s s' worker fd origin closes sent

/-- What an echoed packet does to the queue and to the log. -/
theorem echoed_received {w : Worker} {mb : Block} (front : w.echoed = some mb)
    (finAccepted : Bool) : ∃ rest session, w.recvq = mb :: rest ∧ mb.type = .dataBlock ∧
      mb.data ≠ [] ∧ w.getFdsess mb.fd = some session ∧
      w.handleRecvQueue finAccepted =
        { w with recvq := rest, log := w.log ++ [.process session mb] } := by
  unfold Worker.echoed at front
  split at front
  · rename_i other rest queue
    split at front
    · rename_i data
      obtain ⟨type, nonempty, present⟩ := data
      obtain rfl := Option.some.inj front
      obtain ⟨session, found⟩ := Option.isSome_iff_exists.mp present
      refine ⟨rest, session, queue, type, nonempty, found, ?_⟩
      simp only [Worker.handleRecvQueue, queue, type, if_pos nonempty, Worker.handleProcess,
        Worker.getFdsess_popRecvq, found]
    · cases front
  · cases front

/-- Without an echo, nothing is processed. -/
theorem not_echoed {w : Worker} (idle : w.echoed = none) (finAccepted : Bool) :
    (w.handleRecvQueue finAccepted).processed fd origin = w.processed fd origin := by
  have received := Worker.handleRecvQueue_received w finAccepted
  rcases received_payload received fd origin with ⟨same, -⟩ | ⟨mb, rest, data, first, carries, -, kept⟩
  · exact same
  · rcases kept with ⟨session, found, -⟩ | ⟨-, same⟩
    · obtain ⟨type, rfl, -, nonempty⟩ := payload_some carries
      have echoed : w.echoed = some mb := by simp [Worker.echoed, first, type, nonempty, found]
      rw [echoed] at idle
      cases idle
    · exact same

private theorem closeClientConn_now (w : Worker) (fd : Int) (finAccepted : Bool) :
    (w.closeClientConn fd finAccepted).now fd = none := by
  unfold Worker.closeClientConn
  split
  · show ((w.handleClose fd).getFdsess fd).map FdSess.origin = none
    rw [Worker.getFdsess_handleClose, if_pos rfl]
    rfl
  · rename_i absent
    rw [Worker.now, absent]
    rfl

private theorem procPkg_closed (s : State) (owner : Nat) (fd : Int) (data : List UInt8)
    (accepted : Nat)
    (closeAccepted : Bool) (short : accepted < (pieces room data.length data).length) :
    .close owner fd closeAccepted ∈ procPkgFromClient room owner fd data accepted closeAccepted ∧
      ((run step s (procPkgFromClient room owner fd data accepted closeAccepted)).worker
        owner).now fd = none := by
  unfold procPkgFromClient
  simp only [if_pos short]
  refine ⟨List.mem_append_right _ (List.mem_singleton.mpr rfl), ?_⟩
  rw [run_concat, step, State.setWorker_same]
  exact closeClientConn_now ..

/-- A round that hands `mb` to the plugin, with the session that it finds. -/
structure Round (s s' : State) (worker : Nat) (mb : Block) (session : FdSess) : Prop where
  front : (s.worker worker).recvq.head? = some mb
  type : mb.type = .dataBlock
  nonempty : mb.data ≠ []
  found : (s.worker worker).getFdsess mb.fd = some session
  behind : session.origin ≤ mb.origin
  past : mb.origin ≤ s.gen mb.fd
  spent : Spent s.regs (s.worker worker) mb.fd mb.origin
  logged : ∀ fd origin, (s'.worker worker).processed fd origin =
    (s.worker worker).processed fd origin ++ (mb.payload fd origin).toList

namespace Round

variable {mb : Block} {session : FdSess} {closes : Prop}

theorem serving (round : Round s s' worker mb session) :
    (s.worker worker).now mb.fd = some session.origin := by
  rw [Worker.now, round.found]
  rfl

theorem grows (round : Round s s' worker mb session) :
    (s'.worker worker).processed mb.fd mb.origin =
      (s.worker worker).processed mb.fd mb.origin ++ [mb.data] := by
  have carries : mb.payload mb.fd mb.origin = some mb.data :=
    if_pos ⟨round.type, rfl, rfl, round.nonempty⟩
  rw [round.logged, carries]
  rfl

theorem same (round : Round s s' worker mb session) (fd : Int) (origin : Nat)
    (other : ¬ (mb.fd = fd ∧ mb.origin = origin)) :
    (s'.worker worker).processed fd origin = (s.worker worker).processed fd origin := by
  have carries : mb.payload fd origin = none :=
    if_neg fun about => other ⟨about.2.1, about.2.2.1⟩
  rw [round.logged, carries]
  exact List.append_nil _

/-- The session of another connection gets the packet. -/
theorem stray (round : Round s s' worker mb session) (apart : session.origin ≠ mb.origin)
    (mutes : Mute s worker mb.fd mb.origin → Mute s' worker mb.fd mb.origin) (origin : Nat)
    (answer : List (List UInt8)) :
    EchoStep s s' worker mb.fd origin closes
      (if (s.worker worker).now mb.fd = some origin then answer else []) := by
  have stray : Stray s worker mb.fd :=
    ⟨mb, round.front, round.type, rfl, session, round.found, apart⟩
  have behind := round.behind
  have past := round.past
  rw [round.serving]
  by_cases about : mb.origin = origin
  · subst about
    have other : some session.origin ≠ some mb.origin := fun same => apart (Option.some.inj same)
    rw [if_neg other]
    exact .unanswered mb.data stray round.grows (mutes ⟨round.spent, round.serving ▸ other⟩)
  · have same := round.same mb.fd origin fun both => about both.2
    by_cases serves : session.origin = origin
    · refine .late _ stray ⟨?_, fun ⟨_, current⟩ => ?_⟩ same
      · exact serves ▸ behind.trans round.spent.past
      · omega
    · rw [if_neg fun same => serves (Option.some.inj same)]
      exact .quiet same

/-- The packet meets its own session, which has `accepted` pieces of it queued. -/
theorem own (round : Round s s' worker mb session) (same : session.origin = mb.origin)
    (answer : List (List UInt8)) (whole : answer.flatten = mb.data) (accepted : Nat)
    (ends : accepted < answer.length → closes ∧ (s'.worker worker).now mb.fd = none)
    (spends : Spent s'.regs (s'.worker worker) mb.fd mb.origin) (origin : Nat) :
    EchoStep s s' worker mb.fd origin closes
      (if (s.worker worker).now mb.fd = some origin then answer.take accepted else []) := by
  have serving := round.serving
  rw [same] at serving
  rw [serving]
  by_cases about : mb.origin = origin
  · subst about
    rw [if_pos rfl]
    by_cases short : accepted < answer.length
    · obtain ⟨closed, ended⟩ := ends short
      have part := (List.take_prefix accepted answer).flatten
      rw [whole] at part
      refine .refused mb.data _ serving part round.grows ⟨spends, ?_⟩ closed
      rw [ended]
      exact (Option.some_ne_none _).symm
    · rw [List.take_of_length_le (Nat.not_lt.mp short)]
      exact .answered mb.data _ serving whole round.grows
  · rw [if_neg fun same => about (Option.some.inj same)]
    exact .quiet (round.same _ _ fun both => about both.2)

end Round

private theorem echo_round (pos : 0 < room) (historic : Historic s)
    (order : InOrder (s.worker worker))
    (finAccepted : Bool) (accepted : Nat) (closeAccepted : Bool) :
    let action := EchoAction.worker worker finAccepted accepted closeAccepted
    EchoStep s (echoStep room s action) worker fd origin
      (∃ closeAccepted, .close worker fd closeAccepted ∈ echoParts room s action)
      (trace step (dispatched worker fd origin) s (echoParts room s action)) := by
  intro action
  have popped (w : Worker) (same : (s.worker worker).handleRecvQueue finAccepted = w) :
      (step s (.recv worker finAccepted)).worker worker = w := by
    rw [step, State.setWorker_same, same]
  cases front : (s.worker worker).echoed with
  | none =>
      have parts : echoParts room s action = [.recv worker finAccepted] := by
        simp only [action, echoParts, front]
      rw [parts]
      refine .quiet ?_
      rw [echoStep, composite, parts, run_cons, run_nil, popped _ rfl]
      exact not_echoed front finAccepted
  | some mb =>
      obtain ⟨rest, session, first, type, nonempty, found, worked⟩ :=
        echoed_received front finAccepted
      have parts : echoParts room s action = .recv worker finAccepted ::
          procPkgFromClient room worker mb.fd mb.data accepted closeAccepted := by
        simp only [action, echoParts, front]
      have ends : echoStep room s action = run step (step s (.recv worker finAccepted))
          (procPkgFromClient room worker mb.fd mb.data accepted closeAccepted) := by
        rw [echoStep, composite, parts, run_cons]
      have now : ((step s (.recv worker finAccepted)).worker worker).now fd =
          (s.worker worker).now fd := by
        rw [popped _ worked]
        rfl
      have member : mb ∈ (s.worker worker).recvq := first ▸ List.mem_cons_self
      have known := ((historic.inv.workers worker).recvq mb member).known
      have round : Round s (echoStep room s action) worker mb session :=
        { front := by rw [first]; rfl
          type := type
          nonempty := nonempty
          found := found
          behind := (order.sessions mb.fd session found mb member rfl).1
          past := known.past
          spent := order.spent first (known.past.trans (historic.inv.gen_le mb.fd)) (by simp [type])
          logged := fun fd origin => by
            rw [ends, run_processed_away (procPkg_away mb.data accepted closeAccepted),
              popped _ worked]
            exact processed_log (s.worker worker) _ (.process session mb) rfl fd origin }
      rw [parts, trace, trace_procPkg, now]
      by_cases here : mb.fd = fd
      · subst here
        simp only [true_and]
        by_cases same : session.origin = mb.origin
        · refine round.own same _ (pieces_flatten pos mb.data.length mb.data le_rfl) accepted ?_ ?_
            origin
          · intro short
            obtain ⟨closes, ended⟩ := procPkg_closed (step s (.recv worker finAccepted)) worker mb.fd
              mb.data accepted closeAccepted short
            exact ⟨⟨closeAccepted, List.mem_cons_of_mem _ closes⟩, ends ▸ ended⟩
          · exact run_preserves
              (fun later : State => Spent later.regs (later.worker worker) mb.fd mb.origin)
              (fun _ action spent => spent.step action) round.spent (echoParts room s action)
        · refine round.stray same (fun mute => ?_) origin _
          exact run_preserves (fun later : State => Mute later worker mb.fd mb.origin)
            (fun _ action mute => mute.step action) mute (echoParts room s action)
      · rw [if_neg fun sends => here sends.2.1]
        exact .quiet (round.same _ _ fun both => here both.1)

private theorem echo_step (fd : Int) (origin : Nat) (pos : 0 < room) (historic : Historic s)
    (order : InOrder (s.worker worker)) (action : EchoAction) :
    EchoStep s (echoStep room s action) worker fd origin
      (∃ closeAccepted, .close worker fd closeAccepted ∈ echoParts room s action)
      (trace step (dispatched worker fd origin) s (echoParts room s action)) := by
  cases action with
  | parent action =>
      rw [echoStep, composite, echoParts]
      split
      · rename_i own
        have away : ∀ part ∈ [action], ∀ finAccepted, part ≠ .recv worker finAccepted := by
          intro part member finAccepted same
          rw [List.mem_singleton.mp member] at same
          rw [same] at own
          cases own
        have none_sent : trace step (dispatched worker fd origin) s [action] = [] := by
          cases action with
          | send => cases own
          | register | accept | packet | transfer | drop | output | closeQueue | recv | close => rfl
        rw [none_sent]
        exact .quiet (run_processed_away away)
      · exact .quiet rfl
  | worker owner finAccepted accepted closeAccepted =>
      by_cases here : owner = worker
      · subst here
        exact echo_round pos historic order finAccepted accepted closeAccepted
      · have apart : ∀ finAccepted', Action.recv owner finAccepted ≠ .recv worker finAccepted' := by
          intro _ same
          cases same
          exact here rfl
        have none_sent : trace step (dispatched worker fd origin) s
            (echoParts room s (.worker owner finAccepted accepted closeAccepted)) = [] := by
          rw [echoParts, trace]
          cases (s.worker owner).echoed with
          | none => rfl
          | some mb =>
              simp only [trace_procPkg, here, false_and, if_false]
              rfl
        rw [none_sent]
        refine .quiet (run_processed_away fun part member => ?_)
        rw [echoParts] at member
        rcases List.mem_cons.mp member with rfl | later
        · exact apart
        · cases front : (s.worker owner).echoed with
          | none =>
              rw [front] at later
              cases later
          | some mb =>
              rw [front] at later
              exact procPkg_away mb.data accepted closeAccepted part later

/-! ## Runs -/

/-- What was handed over is a prefix of what was processed, and so is what was queued as
long as it can still be handed over. -/
def Echoes (worker : Nat) (fd : Int) (origin : Nat) (s : State) (sent handed : List (List UInt8)) :
    Prop :=
  let received := ((s.worker worker).processed fd origin).flatten
  handed.flatten <+: received ∧
    (Gone s fd origin ∨ sent.flatten = received ∨
      sent.flatten <+: received ∧ Mute s worker fd origin)

section Echoing

variable {closes : Prop} {sent handed more further : List (List UInt8)}

theorem EchoStep.grows (echo : EchoStep s s' worker fd origin closes more) :
    ((s.worker worker).processed fd origin).flatten <+:
      ((s'.worker worker).processed fd origin).flatten := by
  cases echo with
  | quiet same | late _ _ _ same => rw [same]
  | answered data _ _ _ grows | refused data _ _ _ grows | unanswered data _ grows =>
      rw [grows]
      exact (List.prefix_append _ [data]).flatten

theorem Echoes.step (echoes : Echoes worker fd origin s sent handed)
    (echo : EchoStep s s' worker fd origin closes more)
    (goes : Gone s fd origin → Gone s' fd origin ∧ further = [])
    (mutes : Mute s worker fd origin → Mute s' worker fd origin)
    (order : handed ++ further <+: sent ++ more) :
    Echoes worker fd origin s' (sent ++ more) (handed ++ further) := by
  obtain ⟨before, rest⟩ := echoes
  have grows := echo.grows
  have past (gone : Gone s fd origin) :
      Echoes worker fd origin s' (sent ++ more) (handed ++ further) := by
    obtain ⟨gone, rfl⟩ := goes gone
    refine ⟨?_, .inl gone⟩
    rw [List.append_nil]
    exact before.trans grows
  -- While the connection can be there, nothing is handed over that was not queued.
  have current (part : (sent ++ more).flatten <+: ((s'.worker worker).processed fd origin).flatten)
      (rest : (sent ++ more).flatten = ((s'.worker worker).processed fd origin).flatten ∨
        Mute s' worker fd origin) :
      Echoes worker fd origin s' (sent ++ more) (handed ++ further) :=
    ⟨order.flatten.trans part, .inr (rest.imp_right fun mute => ⟨part, mute⟩)⟩
  rcases rest with gone | same | ⟨part, mute⟩
  · exact past gone
  · cases echo with
    | quiet kept =>
        have whole : (sent ++ []).flatten = ((s'.worker worker).processed fd origin).flatten := by
          rw [List.append_nil, same, kept]
        exact current (whole ▸ List.prefix_rfl) (.inl whole)
    | answered data _ _ whole grows =>
        have whole : (sent ++ more).flatten = ((s'.worker worker).processed fd origin).flatten := by
          rw [grows, List.flatten_append, List.flatten_append, same, whole]
          simp
        exact current (whole ▸ List.prefix_rfl) (.inl whole)
    | refused data _ _ cut grows mute =>
        refine current ?_ (.inr mute)
        rw [grows, List.flatten_append, List.flatten_append, same]
        simpa using cut
    | unanswered data _ grown mute =>
        refine current ?_ (.inr mute)
        rw [List.append_nil, same]
        exact grows
    | late _ _ gone => exact past gone
  · cases echo with
    | quiet kept =>
        refine current ?_ (.inr (mutes mute))
        rw [List.append_nil]
        exact part.trans grows
    | answered data _ serving | refused data _ serving => exact absurd serving mute.apart
    | unanswered data _ grown later =>
        refine current ?_ (.inr later)
        rw [List.append_nil]
        exact part.trans grows
    | late _ _ gone => exact past gone

end Echoing

private theorem ordered_parts (historic : Historic s) (order : InOrder (s.worker worker))
    (actions : List Action) :
    Historic (run step s actions) ∧ InOrder ((run step s actions).worker worker) :=
  run_preserves (fun later : State => Historic later ∧ InOrder (later.worker worker))
    (fun _ action ⟨historic, order⟩ => ⟨historic.step action, order.step historic.inv action⟩)
    ⟨historic, order⟩ actions

private theorem echoes_parts (pos : 0 < room) (historic : Historic s)
    (order : InOrder (s.worker worker))
    {sent handed : List (List UInt8)} (answered : Answered worker fd origin s sent handed)
    (echoes : Echoes worker fd origin s sent handed) (action : EchoAction)
    (near : (echoStep room s action).regs - origin < 4294967295) :
    let sent := sent ++ trace step (dispatched worker fd origin) s (echoParts room s action)
    let handed := handed ++ trace step (applied worker fd origin) s (echoParts room s action)
    Answered worker fd origin (echoStep room s action) sent handed ∧
      Echoes worker fd origin (echoStep room s action) sent handed := by
  have later := answered_run worker fd origin sent handed historic (echoParts room s action) near
    fun _ => answered
  refine ⟨later, echoes.step (echo_step fd origin pos historic order action) ?_ ?_ ?_⟩
  · intro gone
    exact ⟨run_preserves (fun later : State => Gone later fd origin)
      (fun _ action gone => gone.step action) gone _, trace_applied_gone historic gone _ near⟩
  · intro mute
    exact run_preserves (fun later : State => Mute later worker fd origin)
      (fun _ action mute => mute.step action) mute _
  · obtain ⟨lost, same, -⟩ := later
    rw [same, List.append_assoc]
    exact List.prefix_append ..

private theorem run_echoes (pos : 0 < room) (actions : List EchoAction) (worker : Nat) (fd : Int)
    (origin : Nat) (near : (run (echoStep room) init actions).regs - origin < 4294967295) :
    let flow := partsOf step (echoParts room) init actions
    Echoes worker fd origin (run step init flow)
      (trace step (dispatched worker fd origin) init flow)
      (trace step (applied worker fd origin) init flow) := by
  intro flow
  have kept := run_traces_preserve (echoStep room)
    (fun s action => trace step (dispatched worker fd origin) s (echoParts room s action))
    (fun s action => trace step (applied worker fd origin) s (echoParts room s action))
    (fun s sent handed => (Historic s ∧ InOrder (s.worker worker)) ∧
      (s.regs - origin < 4294967295 → Answered worker fd origin s sent handed ∧
        Echoes worker fd origin s sent handed))
    (fun s action sent handed ⟨⟨historic, order⟩, holds⟩ =>
      ⟨ordered_parts historic order _, fun near => by
        have before : s.regs - origin < 4294967295 :=
          (Nat.sub_le_sub_right (run_regs_le s _) origin).trans_lt near
        obtain ⟨answered, echoes⟩ := holds before
        exact echoes_parts pos historic order answered echoes action near⟩)
    init [] []
    ⟨⟨historic_init, .init⟩, fun _ => ⟨⟨[], rfl, .inl rfl⟩, List.prefix_rfl, .inr (.inl rfl)⟩⟩ actions
  rw [run_partsOf, trace_partsOf, trace_partsOf]
  exact (kept.2 near).2

private theorem Orderly.not_stray (orderly : Orderly s) : ¬ Stray s worker fd := by
  rintro ⟨mb, front, type, here, session, found, apart⟩
  have settled := orderly.agrees.settled worker fd
  unfold Worker.Settled at settled
  cases queue : (s.worker worker).recvq with
  | nil =>
      rw [queue] at front
      cases front
  | cons first rest =>
      rw [queue] at front settled
      obtain rfl : first = mb := by simpa using front
      have suits := settled.1 here
      rw [type, Worker.now, found] at suits
      simp [apart] at suits

/-- Where every packet meets its own session and no answer is cut, each step answers what it
takes. -/
theorem reply_step (pos : 0 < room) (orderly : Orderly s) (order : InOrder (s.worker worker))
    (action : EchoAction) (leaves : ∀ part ∈ echoParts room s action, ∀ closeAccepted,
      part ≠ .close worker fd closeAccepted)
    {sent : List (List UInt8)}
    (same : sent.flatten = ((s.worker worker).processed fd origin).flatten) :
    (sent ++ trace step (dispatched worker fd origin) s (echoParts room s action)).flatten =
      (((echoStep room s action).worker worker).processed fd origin).flatten := by
  have echo := echo_step fd origin pos orderly.historic order action
  generalize trace step (dispatched worker fd origin) s (echoParts room s action) = more at echo
  cases echo with
  | quiet kept => rw [List.append_nil, same, kept]
  | answered data _ _ whole grows =>
      rw [grows, List.flatten_append, List.flatten_append, same, whole]
      simp
  | refused _ _ _ _ _ _ closed =>
      obtain ⟨closeAccepted, member⟩ := closed
      exact absurd rfl (leaves _ member closeAccepted)
  | unanswered _ stray | late _ stray => exact absurd stray orderly.not_stray

private theorem run_replies (pos : 0 < room) (actions : List EchoAction) (worker : Nat) (fd : Int)
    (origin : Nat) (harmless : Along step Harmless init (partsOf step (echoParts room) init actions))
    (leaves : ∀ closeAccepted,
      .close worker fd closeAccepted ∉ partsOf step (echoParts room) init actions) :
    let flow := partsOf step (echoParts room) init actions
    (trace step (dispatched worker fd origin) init flow).flatten =
      (((run step init flow).worker worker).processed fd origin).flatten := by
  intro flow
  have uncut : Along step (fun _ part => ∀ closeAccepted, part ≠ .close worker fd closeAccepted)
      init flow := along_of_forall init fun part member closeAccepted same =>
    leaves closeAccepted (same ▸ member)
  have along := along_and.mpr ⟨(along_partsOf ..).mp harmless, (along_partsOf ..).mp uncut⟩
  have kept := run_trace_preserves _
    (fun s action => trace step (dispatched worker fd origin) s (echoParts room s action)) _
    (fun s sent => (Orderly s ∧ InOrder (s.worker worker)) ∧
      sent.flatten = ((s.worker worker).processed fd origin).flatten)
    (fun s action sent ⟨harmless, leaves⟩ ⟨⟨orderly, order⟩, same⟩ =>
      ⟨⟨run_preserves_along Orderly (fun _ part harmless orderly => orderly.step part harmless)
          orderly harmless, (ordered_parts orderly.historic order _).2⟩,
        reply_step pos orderly order action (forall_of_along leaves) same⟩)
    init [] ⟨⟨orderly_init, .init⟩, rfl⟩ along
  rw [run_partsOf, trace_partsOf]
  exact kept.2

theorem handed_le_arrived (pos : 0 < room) (actions : List EchoAction) (worker : Nat) (fd : Int)
    (origin : Nat) (near : (run (echoStep room) init actions).regs - origin < 4294967295) :
    let flow := partsOf step (echoParts room) init actions
    (trace step (applied worker fd origin) init flow).flatten <+:
      (trace step (arrival worker fd origin) init flow).flatten := by
  intro flow
  have echoes := run_echoes pos actions worker fd origin near
  obtain ⟨lost, whole, -⟩ := run_accounted flow worker fd origin
  refine echoes.1.trans ?_
  rw [whole, List.append_assoc]
  exact (List.prefix_append ..).flatten

theorem arrived_whole (pos : 0 < room) (actions : List EchoAction) (worker : Nat) (fd : Int)
    (origin : Nat) (near : (run (echoStep room) init actions).regs - origin < 4294967295) :
    let flow := partsOf step (echoParts room) init actions
    let s := run step init flow
    Along step Harmless init flow → (∀ closeAccepted, .close worker fd closeAccepted ∉ flow) →
      (s.epi.fds fd).type = .remote → s.gen fd = origin →
      (trace step (arrival worker fd origin) init flow).flatten =
        (trace step (applied worker fd origin) init flow).flatten ++
          ((s.worker worker).queued fd origin).flatten ++
          ((s.worker worker).waiting fd origin).flatten := by
  intro flow s harmless leaves remote current
  have near : (run step init flow).regs - origin < 4294967295 := by
    rw [run_partsOf]
    exact near
  obtain ⟨lost, whole, reason⟩ := answered_run worker fd origin [] [] historic_init flow near
    fun _ => ⟨[], rfl, .inl rfl⟩
  obtain rfl : lost = [] := reason.resolve_right fun gone => gone.closed ⟨remote, current⟩
  have replies := run_replies pos actions worker fd origin harmless leaves
  rw [run_processed flow worker fd origin (leavesOpen_of_never leaves origin init),
    List.flatten_append, ← replies]
  simp only [List.nil_append, List.append_nil] at whole
  rw [whole, List.flatten_append]

/-- In every run of the echo server, with pushes refused anywhere, what is handed to
`net_send` for a connection is a prefix of what arrived from it. While the connection is
there, and unless a CLOSE_BLOCK was lost or an answer cut, the rest is in the two queues. -/
theorem echo_in_order (room : Nat) (actions : List EchoAction) (worker : Nat) (fd : Int)
    (origin : Nat) (pos : 0 < room)
    (near : (run (echoStep room) init actions).regs - origin < 4294967295) :
    let flow := partsOf step (echoParts room) init actions
    let s := run step init flow
    let arrived := (trace step (arrival worker fd origin) init flow).flatten
    let handed := (trace step (applied worker fd origin) init flow).flatten
    handed <+: arrived ∧
      (Along step Harmless init flow → (∀ closeAccepted, .close worker fd closeAccepted ∉ flow) →
        (s.epi.fds fd).type = .remote → s.gen fd = origin →
        arrived = handed ++ ((s.worker worker).queued fd origin).flatten ++
          ((s.worker worker).waiting fd origin).flatten) := by
  intro flow s arrived handed
  exact ⟨handed_le_arrived pos actions worker fd origin near,
    arrived_whole pos actions worker fd origin near⟩

/-- A packet of three bytes is echoed in blocks of two, and the parent has taken the first. -/
def echoedInTwo : List EchoAction :=
  [.parent (.register 3 .listen (some 0)), .parent (.accept 3 5 (80, 16777343) 7 true),
    .worker 0 true 0 true, .parent (.packet 5 [1, 2, 3] true true), .worker 0 true 2 true,
    .parent (.output 0 (.sent .zero 8)), .parent (.packet 5 [4] true true)]

theorem echo_in_order_two :
    let flow := partsOf step (echoParts 2) init echoedInTwo
    let s := run step init flow
    let arrived := (trace step (arrival 0 5 2) init flow).flatten
    let handed := (trace step (applied 0 5 2) init flow).flatten
    handed <+: arrived ∧
      (Along step Harmless init flow → (∀ closeAccepted, .close 0 5 closeAccepted ∉ flow) →
        (s.epi.fds 5).type = .remote → s.gen 5 = 2 →
        arrived = handed ++ ((s.worker 0).queued 5 2).flatten ++
          ((s.worker 0).waiting 5 2).flatten) :=
  echo_in_order 2 echoedInTwo 0 5 2 (by decide) (by decide +kernel)

example : (fun flow : List Action =>
    (trace step (arrival 0 5 2) init flow, trace step (applied 0 5 2) init flow,
      ((run step init flow).worker 0).queued 5 2, ((run step init flow).worker 0).waiting 5 2))
    (partsOf step (echoParts 2) init echoedInTwo) =
      ([[1, 2, 3], [4]], [[1, 2]], [[3]], [[4]]) := by decide +kernel

end MpNet.Session
