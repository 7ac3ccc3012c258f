import MpNet.Net.EtinWalk
import MpNet.Net.QueuesProperties

/-!
# What a walk visits

As long as no step deletes the connection whose node is saved, the saved node begins what
is left of the queue. A plugin that deletes it leaves the walk on a node that points to
itself.
-/

set_option autoImplicit false

namespace MpNet.Net.EtinWalk

open Library

variable {queue : List Int} {q : Queues} {s : State} {n : Node} {fd : Int}

/-! ## The rest of the queue -/

/-- The node begins the rest of the sequence, and what had its turn comes before that. -/
def Ahead (queue visited : List Int) (q : Queues) (n : Node) : Prop :=
  ∃ before rest, q.epi.etinHead = before ++ rest ∧ n = (rest.map .list).headD .etinHead ∧
    (visited ++ rest).Sublist queue

section Ahead

variable {visited : List Int}

private theorem Ahead.remove {q' : Queues} (ahead : Ahead queue visited q n) (apart : n ≠ .list fd)
    (removed : q'.epi.etinHead = q.epi.etinHead.filter (· ≠ fd)) : Ahead queue visited q' n := by
  obtain ⟨before, rest, same, rfl, sublist⟩ := ahead
  refine ⟨before.filter (· ≠ fd), rest.filter (· ≠ fd), ?_, ?_, ?_⟩
  · rw [removed, same, List.filter_append]
  · cases rest with
    | nil => rfl
    | cons next later =>
        have other : next ≠ fd := fun same => apart (congrArg Node.list same)
        rw [List.filter_cons_of_pos (by simpa using other)]
        rfl
  · exact (List.Sublist.append_left List.filter_sublist visited).trans sublist

private theorem Ahead.not_visited (ahead : Ahead queue visited q n) (distinct : queue.Nodup)
    (member : fd ∈ visited) : n ≠ .list fd := by
  obtain ⟨before, rest, _, rfl, sublist⟩ := ahead
  have apart := (List.nodup_append.mp (distinct.sublist sublist)).2.2 fd member
  cases rest with
  | nil => simp
  | cons next later =>
      intro same
      have eq : next = fd := by simpa using same
      exact apart next List.mem_cons_self eq.symm

end Ahead

/-! ## One turn -/

def Walking (queue : List Int) (s : State) : Prop :=
  s.queues.Agrees ∧
    match s.pc with
    | .test pos n =>
        Ahead queue s.visited s.queues pos ∧ n = s.queues.links.next pos ∧ s.closing = [] ∧
          s.tests = s.visited.length
    | .recv fd n | .accept fd n =>
        Ahead queue s.visited s.queues n ∧ fd ∈ s.visited ∧ fd ∈ s.queues.epi.etinHead ∧
          s.closing = [] ∧ s.tests = s.visited.length
    | .packets fd n =>
        Ahead queue s.visited s.queues n ∧ fd ∈ s.visited ∧ s.tests = s.visited.length
    | .leave n => Ahead queue s.visited s.queues n ∧ s.tests = s.visited.length
    | .done => s.visited.Sublist queue ∧ s.closing = [] ∧ s.tests = s.visited.length + 1
    | .crashed => False

private theorem start_walking (agrees : q.Agrees) : Walking q.epi.etinHead (start q) := by
  have ahead : Ahead q.epi.etinHead [] q (q.links.next .etinHead) :=
    ⟨[], q.epi.etinHead, rfl, agrees.etin.next_head, List.Sublist.refl _⟩
  exact ⟨agrees, ahead, rfl, rfl, rfl⟩

private theorem test_walking (walking : Walking queue s) : Walking queue s.test := by
  unfold State.test
  split
  · rename_i pos n pc
    obtain ⟨agrees, phase⟩ := walking
    simp only [pc] at phase
    obtain ⟨⟨before, rest, same, rfl, sublist⟩, rfl, closing, tests⟩ := phase
    cases rest with
    | nil => exact ⟨agrees, by simpa using sublist, closing, congrArg (· + 1) tests⟩
    | cons fd rest =>
        have member : fd ∈ s.queues.epi.etinHead := by simp [same]
        have successor : s.queues.links.next (.list fd) = (rest.map .list).headD .etinHead := by
          have etin := agrees.etin
          rw [same, List.map_append, List.map_cons] at etin
          exact etin.next_eq
        have ahead : Ahead queue (s.visited ++ [fd]) s.queues (s.queues.links.next (.list fd)) :=
          ⟨before ++ [fd], rest, by simp [same], successor, by simpa using sublist⟩
        have counted : s.tests + 1 = (s.visited ++ [fd]).length := by simp [tests]
        simp only [List.map_cons, List.headD_cons]
        split
        · exact ⟨agrees, ahead, by simp, member, closing, counted⟩
        · exact ⟨agrees, ahead, by simp, member, closing, counted⟩
  · exact walking

/-- What the plugin does in its turn leaves the walk where it is. -/
theorem Walking.change {s' : State} (walking : Walking queue s) (runs : s.inPlugin = true)
    (pc : s'.pc = s.pc) (visited : s'.visited = s.visited) (tests : s'.tests = s.tests)
    (agrees : s'.queues.Agrees)
    (ahead : ∀ n, s.saved = some n → Ahead queue s.visited s.queues n →
      Ahead queue s.visited s'.queues n) : Walking queue s' := by
  obtain ⟨_, phase⟩ := walking
  refine ⟨agrees, ?_⟩
  rw [pc, visited, tests]
  cases here : s.pc <;> simp only [here] at phase <;> simp only [State.inPlugin, here] at runs
  case test => simp [phase.2.2.1] at runs
  case recv | accept => simp [phase.2.2.2.1] at runs
  case packets => exact ⟨ahead _ (by simp [State.saved, here]) phase.1, phase.2⟩
  case leave => exact ⟨ahead _ (by simp [State.saved, here]) phase.1, phase.2⟩
  case done => simp [phase.2.1] at runs

private theorem doDelConn_walking (walking : Walking queue s) (runs : s.inPlugin = true) :
    Walking queue (s.doDelConn fd) := by
  unfold State.doDelConn
  split
  · exact walking
  · exact walking.change runs rfl rfl rfl walking.1 fun _ _ ahead => ahead

private theorem release_walking (walking : Walking queue s) (runs : s.inPlugin = true)
    (spares : s.saved ≠ some (.list fd)) (closing : List Int) :
    Walking queue { s with queues := s.queues.release fd, closing := closing } := by
  refine walking.change runs rfl rfl rfl walking.1.release fun n saved ahead => ?_
  exact ahead.remove (fun same => spares (saved.trans (congrArg some same)))
    walking.1.release_etinHead

private theorem closeSvr_walking (walking : Walking queue s) (runs : s.inPlugin = true)
    (spares : Spares s (.closeSvr fd)) : Walking queue (s.closeSvr fd) := by
  unfold State.closeSvr
  split
  · exact walking
  · rename_i used
    exact release_walking walking runs (spares fd (by simp [State.deletes, runs, used])) s.closing

private theorem onFdClosed_walking (walking : Walking queue s) (spares : Spares s .onFdClosed) :
    Walking queue s.onFdClosed := by
  unfold State.onFdClosed
  split
  · exact walking
  · rename_i fd rest closing
    have runs : s.inPlugin = true := by
      unfold State.inPlugin
      split <;> simp [closing]
    exact release_walking walking runs (spares fd (by simp [State.deletes, closing])) rest

/-- The body may end with `do_del_conn(fd, 0)`. -/
theorem leave_walking (agrees : s.queues.Agrees) (ahead : Ahead queue s.visited s.queues n)
    (tests : s.tests = s.visited.length) :
    Walking queue (State.doDelConn { s with pc := .leave n } fd) := by
  unfold State.doDelConn
  split <;> exact ⟨agrees, ahead, tests⟩

theorem Ahead.delFromEtinQueue {visited : List Int} (ahead : Ahead queue visited q n)
    (agrees : q.Agrees) (distinct : queue.Nodup) (member : fd ∈ visited) :
    Ahead queue visited (q.delFromEtinQueue fd) n := by
  refine ahead.remove (ahead.not_visited distinct member) ?_
  rw [Queues.delFromEtinQueue_epi]
  exact agrees.flagged.etinHead_eq

private theorem doReadConn_walking (distinct : queue.Nodup) (walking : Walking queue s)
    (read : Read) :
    Walking queue (s.doReadConn read) := by
  unfold State.doReadConn
  split
  · rename_i fd n pc
    obtain ⟨agrees, phase⟩ := walking
    simp only [pc] at phase
    obtain ⟨ahead, visited, member, closing, tests⟩ := phase
    split
    · exact ⟨agrees, ahead, tests⟩
    · cases read with
      | skipped => exact ⟨agrees, ahead, visited, tests⟩
      | filled =>
          simp only [agrees.addToEtinQueue_member member]
          exact ⟨agrees, ahead, visited, tests⟩
      | drained =>
          exact ⟨agrees.delFromEtinQueue fd, ahead.delFromEtinQueue agrees distinct visited,
            visited, tests⟩
      | closed => exact leave_walking agrees ahead tests
  · exact walking

private theorem received_walking (walking : Walking queue s) (failed : Bool) :
    Walking queue (s.received failed) := by
  unfold State.received
  split
  · rename_i fd n pc
    have phase := walking.2
    simp only [pc] at phase
    obtain ⟨ahead, visited, tests⟩ := phase
    split
    · split
      · exact leave_walking walking.1 ahead tests
      · exact ⟨walking.1, ahead, tests⟩
    · exact walking
  · exact walking

private theorem accepted_walking (walking : Walking queue s) (newfd : Int) (peer : UInt16 × UInt32)
    (now : UInt32) : Walking queue (s.accepted newfd peer now) := by
  unfold State.accepted
  split
  · rename_i fd n pc
    have phase := walking.2
    simp only [pc] at phase
    obtain ⟨ahead, visited, member, closing, tests⟩ := phase
    split
    · rename_i free
      have added := walking.1.addRemote fd free.1 peer now
      split
      · exact ⟨added, ahead, visited, member, closing, tests⟩
      · exact ⟨added, ahead, tests⟩
    · exact walking
  · exact walking

private theorem acceptFailed_walking (distinct : queue.Nodup) (walking : Walking queue s)
    (error : EventLoop.AcceptError) : Walking queue (s.acceptFailed error) := by
  unfold State.acceptFailed
  split
  · rename_i fd n pc
    obtain ⟨agrees, phase⟩ := walking
    simp only [pc] at phase
    obtain ⟨ahead, visited, member, closing, tests⟩ := phase
    cases error with
    | tooMany =>
        simp only [agrees.addToEtinQueue_member member]
        exact ⟨agrees, ahead, tests⟩
    | again =>
        exact ⟨agrees.delFromEtinQueue fd, ahead.delFromEtinQueue agrees distinct visited, tests⟩
    | other => exact ⟨agrees, ahead, tests⟩
  · exact walking

private theorem advance_walking (walking : Walking queue s) : Walking queue s.advance := by
  unfold State.advance
  split
  · rename_i n pc
    have phase := walking.2
    simp only [pc] at phase
    split
    · exact ⟨walking.1, phase.1, rfl, ‹_›, phase.2⟩
    · exact walking
  · exact walking

private theorem step_walking (distinct : queue.Nodup) (action : Action) (spares : Spares s action)
    (walking : Walking queue s) : Walking queue (step s action) := by
  cases action with
  | test => exact test_walking walking
  | doReadConn read => exact doReadConn_walking distinct walking read
  | closeSvr svrfd =>
      simp only [step]
      split
      · exact closeSvr_walking walking ‹_› spares
      · exact walking
  | netSend fd =>
      simp only [step]
      split
      · exact doDelConn_walking walking ‹_›
      · exact walking
  | onFdClosed => exact onFdClosed_walking walking spares
  | received failed => exact received_walking walking failed
  | accepted newfd peer now => exact accepted_walking walking newfd peer now
  | acceptFailed error => exact acceptFailed_walking distinct walking error
  | advance => exact advance_walking walking

/-! ## The whole walk -/

theorem Walking.visited (walking : Walking queue s) : s.visited.Sublist queue ∧
    s.tests ≤ s.visited.length + 1 := by
  obtain ⟨_, phase⟩ := walking
  have ahead : ∀ {n : Node}, Ahead queue s.visited s.queues n → s.visited.Sublist queue :=
    fun ⟨_, _, _, _, sublist⟩ => (List.sublist_append_left _ _).trans sublist
  cases pc : s.pc <;> simp only [pc] at phase
  case test => exact ⟨ahead phase.1, by omega⟩
  case recv | accept => exact ⟨ahead phase.1, by omega⟩
  case packets => exact ⟨ahead phase.1, by omega⟩
  case leave => exact ⟨ahead phase.1, by omega⟩
  case done => exact ⟨phase.1, by omega⟩

theorem Walking.registered (walking : Walking queue s) (turn : s.pc = .test (.list fd) n) :
    (s.slot fd).type ≠ .unused := by
  obtain ⟨agrees, phase⟩ := walking
  simp only [turn] at phase
  obtain ⟨⟨before, rest, same, first, _⟩, _⟩ := phase
  have member : fd ∈ s.queues.epi.etinHead := by
    cases rest with
    | nil => simp at first
    | cons next later => simp [same, show fd = next by simpa using first]
  exact agrees.flagged.used fd (.inr ((agrees.flagged.polling fd).mp member))

/-- In every run in which no callback deletes the connection whose node is saved, each
descriptor that gets a turn is registered then, the turns go through the queue in order
and at most once over each descriptor, and the loop tests its condition once more at most. -/
theorem iterate_etin_queue_visits (q : Queues) (agrees : q.Agrees) (actions : List Action)
    (spares : Along step Spares (start q) actions) :
    let s := run step (start q) actions
    (∀ fd n, s.pc = .test (.list fd) n → (s.slot fd).type ≠ .unused) ∧
      s.visited.Sublist q.epi.etinHead ∧ s.visited.Nodup ∧
      s.tests ≤ q.epi.etinHead.length + 1 ∧ s.pc ≠ .crashed := by
  intro s
  have walking : Walking q.epi.etinHead s :=
    run_preserves_along (Walking q.epi.etinHead)
      (fun _ action spared walking => step_walking agrees.nodup action spared walking)
      (start_walking agrees) spares
  obtain ⟨sublist, tests⟩ := walking.visited
  have length := sublist.length_le
  refine ⟨fun fd n turn => walking.registered turn, sublist, agrees.nodup.sublist sublist,
    by omega, fun crashed => ?_⟩
  have phase := walking.2
  simp only [crashed] at phase

def twoQueued : Queues :=
  let q := (Queues.init.doAddConn 4 .remote none none).doAddConn 5 .remote none none
  (q.addToEtinQueue 4).addToEtinQueue 5

private theorem twoQueued_agrees : twoQueued.Agrees := by
  have first : (Queues.init.doAddConn 4 .remote none none).Agrees :=
    Queues.agrees_init.doAddConn rfl
  have second : ((Queues.init.doAddConn 4 .remote none none).doAddConn 5 .remote none none).Agrees :=
    first.doAddConn rfl
  exact (second.addToEtinQueue (by decide)).addToEtinQueue (by decide)

/-- The connection at its turn closes itself, and the end of the other's stream deletes it. -/
def selfClosing : List Action :=
  [.test, .doReadConn .drained, .closeSvr 4, .received false, .advance,
    .test, .doReadConn .closed, .onFdClosed, .advance, .test]

theorem iterate_etin_queue_visits_two :
    let s := run step (start twoQueued) selfClosing
    (∀ fd n, s.pc = .test (.list fd) n → (s.slot fd).type ≠ .unused) ∧
      s.visited.Sublist twoQueued.epi.etinHead ∧ s.visited.Nodup ∧
      s.tests ≤ twoQueued.epi.etinHead.length + 1 ∧ s.pc ≠ .crashed :=
  iterate_etin_queue_visits twoQueued twoQueued_agrees selfClosing (by decide)

/-! ## A deleted successor -/

/-- The walk stands on an unregistered node that points to itself. -/
def Circling (fd : Int) (s : State) : Prop :=
  s.pc = .test (.list fd) (.list fd) ∧ s.closing = [] ∧ (s.slot fd).type = .unused ∧
    (s.slot fd).needPollin = false ∧ s.queues.links.next (.list fd) = .list fd

def circle : List Action := [.test, .doReadConn .drained, .received false, .advance]

private theorem circle_circles (circling : Circling fd s) :
    Circling fd (run step s circle) ∧ (run step s circle).visited = s.visited ++ [fd] := by
  obtain ⟨pc, closing, unused, clear, self⟩ := circling
  have ran : run step s circle =
      { s with visited := s.visited ++ [fd], tests := s.tests + 1 } := by
    have kept : s.queues.delFromEtinQueue fd = s.queues := by
      rw [Queues.delFromEtinQueue, if_neg (by simpa [State.slot] using clear)]
    simp only [State.slot] at unused
    simp [circle, step, State.test, State.doReadConn, State.received, State.advance, State.slot, pc,
      unused, kept, closing, self]
  rw [ran]
  exact ⟨⟨pc, closing, unused, clear, self⟩, rfl⟩

/-- The connection at its turn closes the next one. -/
def closesSuccessor : List Action :=
  [.test, .doReadConn .drained, .closeSvr 5, .received false, .advance]

theorem iterate_etin_queue_circles :
    twoQueued.epi.etinHead = [4, 5] ∧ ∀ turns : Nat, ∃ actions,
      let s := run step (start twoQueued) actions
      s.visited = 4 :: List.replicate turns 5 ∧ s.pc = .test (.list 5) (.list 5) ∧
        (s.slot 5).type = .unused := by
  have circles : ∀ turns : Nat, ∃ actions, let s := run step (start twoQueued) actions
      s.visited = 4 :: List.replicate turns 5 ∧ Circling 5 s := by
    intro turns
    induction turns with
    | zero =>
        exact ⟨closesSuccessor, by decide, by decide, by decide, by decide, by decide, by decide⟩
    | succ turns ih =>
        obtain ⟨actions, visited, circling⟩ := ih
        obtain ⟨again, once⟩ := circle_circles circling
        refine ⟨actions ++ circle, ?_, ?_⟩
        · rw [run_append, once, visited, List.replicate_succ']
          rfl
        · rw [run_append]
          exact again
  refine ⟨by decide, fun turns => ?_⟩
  obtain ⟨actions, visited, pc, _, unused, _⟩ := circles turns
  exact ⟨actions, visited, pc, unused⟩

end MpNet.Net.EtinWalk
