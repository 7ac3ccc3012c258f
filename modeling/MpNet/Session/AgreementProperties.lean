import MpNet.Session.Agreement

/-!
# Sessions follow their connections

While no refused CLOSE_BLOCK leaves a session behind, a worker serves each client
under its own session. While nothing is refused, parent and worker also agree on
which connections there are, whenever nothing is on the way between them.
-/

set_option autoImplicit false

namespace MpNet.Session

open Library Net Net.Epi

/-! ## Each client under its own session -/

/-- No DATA_BLOCK was handed to another connection's session, and no OPEN_BLOCK was
rejected. -/
structure ServesRightly (w : Worker) : Prop where
  process : ∀ session mb, .process session mb ∈ w.log → session.id = mb.id
  rejected : ∀ mb, .rejected mb ∉ w.log

variable {s : State}

theorem ServesRightly.step {worker : Nat} (rightly : ServesRightly (s.worker worker))
    (inv : Inv s) (agrees : Agrees s) (action : Action) :
    ServesRightly ((step s action).worker worker) := by
  have known := inv.workers worker
  have changed := step_changed s action worker
  generalize (Session.step s action).worker worker = w' at changed
  cases changed with
  | parent _ served => exact ⟨served.own.2.2 ▸ rightly.process, served.own.2.2 ▸ rightly.rejected⟩
  | received finAccepted =>
      obtain ⟨_, _, rejected, process⟩ := Worker.Settled.received (agrees.settled worker)
        (Worker.handleRecvQueue_received (s.worker worker) finAccepted)
      refine ⟨?_, fun mb member => rightly.rejected mb (rejected mb member)⟩
      intro session mb member
      rcases process session mb member with old | ⟨queued, found, same⟩
      · exact rightly.process session mb old
      · rw [(known.sessions mb.fd session found).known.id, same]
        exact (known.recvq mb queued).known.id.symm
  | sent fd data accepted =>
      have log := Worker.sendPkgToClient_log (w := s.worker worker) fd data accepted
      exact ⟨log ▸ rightly.process, log ▸ rightly.rejected⟩
  | closed fd accepted =>
      unfold Worker.closeClientConn
      split
      · refine ⟨?_, ?_⟩
        · intro session mb member
          rcases List.mem_append.mp member with old | new
          · exact rightly.process session mb old
          · cases List.mem_singleton.mp new
        · intro mb member
          rcases List.mem_append.mp member with old | new
          · exact rightly.rejected mb old
          · cases List.mem_singleton.mp new
      · exact rightly

structure Orderly (s : State) : Prop where
  historic : Historic s
  agrees : Agrees s
  rightly : ∀ worker, ServesRightly (s.worker worker)

theorem orderly_init : Orderly init :=
  ⟨historic_init, agrees_init, fun _ => ⟨by simp [init, Worker.init], by simp [init, Worker.init]⟩⟩

theorem Orderly.step (orderly : Orderly s) (action : Action) (harmless : Harmless s action) :
    Orderly (step s action) where
  historic := orderly.historic.step action
  agrees := orderly.agrees.step orderly.historic action harmless
  rightly := fun worker =>
    (orderly.rightly worker).step orderly.historic.inv orderly.agrees action

/-- In a run that refuses no CLOSE_BLOCK which leaves a session behind, every
DATA_BLOCK is handed to the session of its own connection and no OPEN_BLOCK is
rejected, whatever else is refused. -/
theorem refusals_keep_sessions_apart (actions : List Action)
    (harmless : Along step Harmless init actions) (worker : Nat) :
    ServesRightly ((run step init actions).worker worker) := by
  have orderly : Orderly (run step init actions) :=
    run_preserves_along Orderly (fun _ action harmless orderly => orderly.step action harmless)
      orderly_init harmless
  exact orderly.rightly worker

/-- A refused DATA_BLOCK drops the connection, and the next one on the descriptor is served. -/
def refusedData : List Action :=
  [.register 3 .listen (some 0), .accept 3 5 (80, 16777343) 7 true, .packet 5 [1] false true,
    .accept 3 5 (81, 16777343) 8 true, .packet 5 [2] true true, .recv 0 true, .recv 0 true,
    .recv 0 true, .recv 0 true]

theorem refusals_keep_sessions_apart_reuse : ∃ session mb,
    .process session mb ∈ ((run step init refusedData).worker 0).log ∧ session.id = mb.id :=
  have member : .process ⟨5, 3, 81, 16777343, 3⟩ ⟨3, 5, .dataBlock, [2], 3⟩ ∈
      ((run step init refusedData).worker 0).log := by decide +kernel
  have harmless : Along step Harmless init refusedData :=
    ⟨trivial, trivial, trivial, trivial, trivial, trivial, trivial, trivial, trivial, trivial⟩
  ⟨_, _, member, (refusals_keep_sessions_apart refusedData harmless 0).process _ _ member⟩

/-- The CLOSE_BLOCK of the first client is refused; the second client gets its descriptor. -/
def refusedClose : List Action :=
  [.register 3 .listen (some 0), .accept 3 5 (80, 16777343) 7 true, .recv 0 true,
    .drop 5 false, .accept 3 5 (81, 16777343) 8 true, .packet 5 [9] true true, .recv 0 true,
    .recv 0 true]

theorem refused_close_mixes_sessions : ¬ ∀ (actions : List Action) (worker : Nat),
    ServesRightly ((run step init actions).worker worker) := by
  intro always
  have rightly := always refusedClose 0
  have member : .process ⟨5, 2, 80, 16777343, 2⟩ ⟨3, 5, .dataBlock, [9], 3⟩ ∈
      ((run step init refusedClose).worker 0).log := by decide +kernel
  exact absurd (rightly.process _ _ member) (by decide)

end MpNet.Session
