import MpNet.Process.PipeEnds

/-!
# The pipe ends that each process holds

The parent's table and a worker's are determined, as far as pipes go, by the entries of
`bindconf`: which entries have pipes, which are given up, and which is about to fork.
-/

set_option autoImplicit false

namespace MpNet.Process.PipeEnds

open Library Net

/-! ## What the entries determine -/

/-- The entry's worker runs, or will be restarted. -/
def State.Active (s : State) (worker : Nat) : Prop := (s.configs worker).restartCnt ≤ 20

instance (s : State) (worker : Nat) : Decidable (s.Active worker) :=
  inferInstanceAs (Decidable (_ ≤ _))

/-- The ends that the parent holds for an entry with pipes. -/
def State.Keeps (s : State) (worker : Nat) : Queue → Side → Prop
  | .recvq, .writer => True
  | .sendq, .reader => s.Active worker
  | _, _ => s.forking = some worker

def Own : Queue → Side → Prop
  | .recvq, .reader | .sendq, .writer => True
  | _, _ => False

/-- The table holds exactly these ends of pipes. -/
def HoldsPipes (s : State) (table : Descriptors Resource) (kept : Nat → Queue → Side → Prop) :
    Prop :=
  ∀ number worker incarnation queue side,
    table.get number = some (.pipe worker incarnation queue side) ↔
      (number, .pipe worker incarnation queue side) = s.stored worker queue side ∧
        kept worker queue side

/-- A registered number holds what it was registered for: the reading end of a `sendq`
pipe, or a socket. -/
structure Registered (s : State) (fd : Nat) (slot : Slot) : Prop where
  held : s.parent.get fd = some slot.resource
  kind : slot.type = .pipe ∧ slot.resource = (s.stored slot.bcElem .sendq .reader).2 ∨
    slot.type ≠ .pipe ∧ ∃ stamp, slot.resource = .socket stamp

structure Runs (created : Nat → Prop) (s : State) (worker : Nat) (table : Descriptors Resource) :
    Prop where
  created : created worker
  forked : s.forking ≠ some worker
  active : s.Active worker
  pipes : HoldsPipes s table fun other queue side => other = worker ∧ Own queue side

/-- The processes hold the ends that the entries in `created` determine. -/
structure Holding (created : Nat → Prop) (s : State) : Prop where
  parent : HoldsPipes s s.parent fun worker queue side => created worker ∧ s.Keeps worker queue side
  workers : ∀ worker table, s.workers worker = some table → Runs created s worker table
  slots : ∀ fd slot, s.fds fd = some slot → Registered s fd slot
  piped : ∀ worker, created worker → s.forking ≠ some worker → s.Active worker →
    ∃ slot, s.fds (s.stored worker .sendq .reader).1 = some slot ∧ slot.type = .pipe ∧
      slot.bcElem = worker
  honest : s.misclosed = false

def State.Created (s : State) (worker : Nat) : Prop :=
  worker < s.started ∨ s.forking = some worker

structure Sound (bindNum : Nat) (s : State) : Prop where
  holding : Holding s.Created s
  started : s.started ≤ bindNum
  forking : ∀ worker, s.forking = some worker →
    worker < bindNum ∧ s.Active worker ∧ (worker = s.started ∨ s.started = bindNum)
  fresh : ∀ worker, s.started ≤ worker → s.Active worker

theorem sound_init (bindNum : Nat) {parent : Descriptors Resource}
    (others : ∀ number, ∀ resource ∈ parent.get number, resource = .other) :
    Sound bindNum (init parent) where
  holding :=
    { parent := by
        intro number worker incarnation queue side
        refine iff_of_false (fun held => ?_) ?_
        · cases others number _ held
        · simp [init, State.Created]
      workers := by simp [init]
      slots := by simp [init]
      piped := by simp [init, State.Created]
      honest := rfl }
  started := Nat.zero_le _
  forking := by simp [init]
  fresh := by simp [init, State.Active]

section Entries

variable {s s' : State} {worker : Nat}

private theorem active_same (config : s'.configs worker = s.configs worker) :
    s'.Active worker ↔ s.Active worker := by
  unfold State.Active
  rw [config]

private theorem stored_same (config : s'.configs worker = s.configs worker) (queue : Queue)
    (side : Side) :
    s'.stored worker queue side = s.stored worker queue side := by
  unfold State.stored
  rw [config]

private theorem keeps_same (config : s'.configs worker = s.configs worker)
    (forking : s'.forking = some worker ↔ s.forking = some worker) (queue : Queue) (side : Side) :
    s'.Keeps worker queue side ↔ s.Keeps worker queue side := by
  cases queue with
  | sendq =>
      cases side with
      | reader => exact active_same config
      | writer => exact forking
  | recvq =>
      cases side with
      | reader => exact forking
      | writer => exact Iff.rfl

end Entries

/-! ## Closing -/

variable {created : Nat → Prop} {bindNum : Nat} {s : State}

theorem closes_eq {closings : List (Nat × Resource)}
    (fits : ∀ closing ∈ closings, s.parent.Fits closing) :
    s.closes closings = { s with parent := s.parent.closeEach (closings.map Prod.fst) } := by
  unfold State.closes
  simp only [Descriptors.closeAll_table, Descriptors.closeAll_fits fits, Bool.or_false]

private theorem doDelConn_eq {fd : Nat} {slot : Slot} (registered : s.fds fd = some slot)
    (held : s.parent.get fd = some slot.resource) :
    s.doDelConn fd slot.resource =
      { s with parent := s.parent.close fd, fds := Function.update s.fds fd none } := by
  have fits : ∀ closing ∈ [(fd, slot.resource)], s.parent.Fits closing := by
    intro closing member
    obtain rfl := List.mem_singleton.mp member
    exact Descriptors.fits_of_held held
  unfold State.doDelConn
  rw [registered]
  simp only [closes_eq fits]
  rfl

/-- The registered descriptors that a crash of the worker deletes. -/
def State.Swept (s : State) (worker fd : Nat) : Prop :=
  ∃ slot ∈ s.fds fd, slot.bcElem = worker ∧ slot.type ≠ .listen

instance (worker fd : Nat) : Decidable (s.Swept worker fd) :=
  inferInstanceAs (Decidable (∃ slot ∈ s.fds fd, _))

/-- The table and the registrations after the numbers in `closed` are gone. -/
structure Without (closed : Nat → Prop) (s s' : State) : Prop where
  same : s' = { s with parent := s'.parent, fds := s'.fds }
  parent : ∀ number resource,
    s'.parent.get number = some resource ↔ s.parent.get number = some resource ∧ ¬ closed number
  fds : ∀ fd slot, s'.fds fd = some slot ↔ s.fds fd = some slot ∧ ¬ closed fd

theorem Without.trans {first second : Nat → Prop} {s' s'' : State} (one : Without first s s')
    (two : Without second s' s'') : Without (fun number => first number ∨ second number) s s'' where
  same := by
    have same := two.same
    rw [one.same] at same
    exact same
  parent := fun number resource => by rw [two.parent, one.parent, and_assoc, not_or]
  fds := fun fd slot => by rw [two.fds, one.fds, and_assoc, not_or]

theorem Without.congr {first second : Nat → Prop} {s' : State} (without : Without first s s')
    (same : ∀ number, first number ↔ second number) : Without second s s' :=
  (funext fun number => propext (same number) : first = second) ▸ without

theorem Without.swept {closed : Nat → Prop} {s' : State} (without : Without closed s s')
    (worker fd : Nat) : s'.Swept worker fd ↔ s.Swept worker fd ∧ ¬ closed fd := by
  constructor
  · rintro ⟨slot, used, swept⟩
    obtain ⟨used, kept⟩ := (without.fds fd slot).mp used
    exact ⟨⟨slot, used, swept⟩, kept⟩
  · rintro ⟨⟨slot, used, swept⟩, kept⟩
    exact ⟨slot, (without.fds fd slot).mpr ⟨used, kept⟩, swept⟩

private theorem sweepOne_without (worker fd : Nat)
    (registered : ∀ slot, s.fds fd = some slot → s.parent.get fd = some slot.resource) :
    Without (fun number => number = fd ∧ s.Swept worker fd) s (s.sweepOne worker fd) := by
  unfold State.sweepOne
  cases used : s.fds fd with
  | none => exact ⟨rfl, by simp [State.Swept, used], by simp [State.Swept, used]⟩
  | some slot =>
      simp only
      split
      · rename_i swept
        have meets : s.Swept worker fd := ⟨slot, used, swept⟩
        rw [doDelConn_eq used (registered slot used)]
        refine ⟨rfl, fun number resource => ?_, fun other slot' => ?_⟩
        · rw [Descriptors.close_holds]
          simp [meets]
        · by_cases here : other = fd <;> simp [here, meets]
      · rename_i kept
        have misses : ¬ s.Swept worker fd := by
          rintro ⟨slot', used', swept⟩
          rw [used] at used'
          cases used'
          exact kept swept
        exact ⟨rfl, by simp [misses], by simp [misses]⟩

private theorem run_sweepOne_without (worker : Nat) (fds : List Nat)
    (registered : ∀ fd slot, s.fds fd = some slot → s.parent.get fd = some slot.resource) :
    Without (fun number => number ∈ fds ∧ s.Swept worker number) s
      (run (State.sweepOne worker) s fds) := by
  induction fds generalizing s with
  | nil => exact ⟨rfl, by simp, by simp⟩
  | cons fd rest ih =>
      have first := sweepOne_without worker fd (registered fd)
      have later := ih (s := s.sweepOne worker fd) fun fd' slot used => by
        obtain ⟨used, kept⟩ := (first.fds fd' slot).mp used
        exact (first.parent fd' slot.resource).mpr ⟨registered fd' slot used, kept⟩
      rw [run_cons]
      refine (first.trans later).congr fun number => ?_
      rw [first.swept, List.mem_cons]
      by_cases here : number = fd
      · subst here
        by_cases swept : s.Swept worker number <;> simp [swept]
      · simp [here]

private theorem sweep_without (worker : Nat)
    (registered : ∀ fd slot, s.fds fd = some slot → s.parent.get fd = some slot.resource) :
    Without (s.Swept worker) s (s.sweep worker) := by
  refine (run_sweepOne_without worker (List.range s.parent.size) registered).congr fun number => ?_
  rw [List.mem_range, and_iff_right_iff_imp]
  rintro ⟨slot, used, _⟩
  exact Descriptors.lt_size (registered number slot used)

/-! ## Creating -/

private theorem pipeCreate_holds (parent : Descriptors Resource) (end_ : Side → Resource)
    (number : Nat) (resource : Resource) :
    let made := State.pipeCreate parent end_
    made.1.get number = some resource ↔
      (∃ side, number = made.2.handle side ∧ resource = end_ side) ∨
        parent.get number = some resource := by
  unfold State.pipeCreate
  simp only [Descriptors.allocate_holds, ← or_assoc]
  refine or_congr_left ⟨?_, ?_⟩
  · rintro (⟨rfl, rfl⟩ | ⟨rfl, rfl⟩)
    · exact ⟨.writer, rfl, rfl⟩
    · exact ⟨.reader, rfl, rfl⟩
  · rintro ⟨side, rfl, rfl⟩
    cases side with
    | reader => exact .inr ⟨rfl, rfl⟩
    | writer => exact .inl ⟨rfl, rfl⟩

private theorem shmqCreate_holds (s : State) (worker : Nat) :
    ∃ parent bc, s.shmqCreate worker =
        { s with
          parent := parent, configs := Function.update s.configs worker bc,
          forking := some worker } ∧
      bc.restartCnt = (s.configs worker).restartCnt ∧
      ∀ number resource, parent.get number = some resource ↔
        (∃ queue side, number = bc.handle queue side ∧
          resource = .pipe worker bc.incarnation queue side) ∨
            s.parent.get number = some resource := by
  refine ⟨_, _, rfl, rfl, fun number resource => ?_⟩
  refine (pipeCreate_holds _ _ number resource).trans
    ((or_congr_right (pipeCreate_holds _ _ number resource)).trans ?_)
  rw [← or_assoc]
  refine or_congr_left ⟨?_, ?_⟩
  · rintro (⟨side, same⟩ | ⟨side, same⟩)
    · exact ⟨.recvq, side, same⟩
    · exact ⟨.sendq, side, same⟩
  · rintro ⟨queue, side, same⟩
    cases queue with
    | sendq => exact .inr ⟨side, same⟩
    | recvq => exact .inl ⟨side, same⟩

/-! ## Steps that leave the pipes alone -/

def SamePipes (table table' : Descriptors Resource) : Prop :=
  ∀ number worker incarnation queue side,
    table'.get number = some (.pipe worker incarnation queue side) ↔
      table.get number = some (.pipe worker incarnation queue side)

theorem samePipes_allocate (table : Descriptors Resource) {resource : Resource}
    (notPipe : ∀ worker incarnation queue side, resource ≠ .pipe worker incarnation queue side) :
    SamePipes table (table.allocate resource) := by
  intro number worker incarnation queue side
  rw [Descriptors.allocate_holds, or_iff_right_iff_imp]
  exact fun ⟨_, same⟩ => absurd same.symm (notPipe _ _ _ _)

private theorem samePipes_close {table : Descriptors Resource} {number : Nat} {resource : Resource}
    (held : table.get number = some resource)
    (notPipe : ∀ worker incarnation queue side, resource ≠ .pipe worker incarnation queue side) :
    SamePipes table (table.close number) := by
  intro other worker incarnation queue side
  rw [Descriptors.close_holds, and_iff_left_iff_imp]
  rintro pipe rfl
  exact notPipe _ _ _ _ (Option.some.inj (held.symm.trans pipe))

theorem HoldsPipes.same {s' : State} {table table' : Descriptors Resource}
    {kept kept' : Nat → Queue → Side → Prop} (pipes : HoldsPipes s table kept)
    (tables : SamePipes table table')
    (iff : ∀ worker queue side, kept' worker queue side ↔ kept worker queue side)
    (stored : ∀ worker queue side, kept worker queue side →
      s'.stored worker queue side = s.stored worker queue side) :
    HoldsPipes s' table' kept' := by
  intro number worker incarnation queue side
  rw [tables, pipes, iff]
  exact and_congr_left fun holds => by rw [stored worker queue side holds]

theorem SamePipes.refl (table : Descriptors Resource) : SamePipes table table :=
  fun _ _ _ _ _ => Iff.rfl

theorem Runs.same {created' : Nat → Prop} {s' : State} {worker : Nat}
    {table table' : Descriptors Resource} (runs : Runs created s worker table)
    (tables : SamePipes table table') (created : created' worker)
    (forked : s'.forking ≠ some worker) (config : s'.configs worker = s.configs worker) :
    Runs created' s' worker table' where
  created := created
  forked := forked
  active := (active_same config).mpr runs.active
  pipes := runs.pipes.same tables (fun _ _ _ => Iff.rfl) fun other queue side own => by
    obtain ⟨rfl, _⟩ := own
    exact stored_same config queue side

theorem Registered.same {s' : State} {fd : Nat} {slot : Slot} (registered : Registered s fd slot)
    (held : s'.parent.get fd = some slot.resource)
    (config : slot.type = .pipe →
      (s'.configs slot.bcElem).incarnation = (s.configs slot.bcElem).incarnation) :
    Registered s' fd slot where
  held := held
  kind := registered.kind.imp_left fun ⟨pipe, same⟩ => ⟨pipe, by
    rw [same]
    unfold State.stored
    rw [config pipe]⟩

theorem Registered.pipe {fd : Nat} {slot : Slot} (registered : Registered s fd slot)
    {worker incarnation : Nat} {queue : Queue} {side : Side}
    (held : s.parent.get fd = some (.pipe worker incarnation queue side)) :
    slot.bcElem = worker ∧ queue = .sendq ∧ side = .reader := by
  have same := Option.some.inj (held.symm.trans registered.held)
  rcases registered.kind with ⟨_, resource⟩ | ⟨_, stamp, resource⟩
  · cases same.trans resource
    exact ⟨rfl, rfl, rfl⟩
  · cases same.trans resource

theorem Holding.quiet (holding : Holding created s) {s' : State} (configs : s'.configs = s.configs)
    (forking : s'.forking = s.forking) (misclosed : s'.misclosed = s.misclosed)
    (parent : SamePipes s.parent s'.parent)
    (workers : ∀ worker table', s'.workers worker = some table' →
      ∃ table, s.workers worker = some table ∧ SamePipes table table')
    (slots : ∀ fd slot, s'.fds fd = some slot → Registered s' fd slot)
    (piped : ∀ fd slot, s.fds fd = some slot → slot.type = .pipe → s'.fds fd = some slot) :
    Holding created s' where
  parent := by
    refine holding.parent.same parent (fun worker queue side => ?_) fun worker queue side _ => ?_
    · exact and_congr_right' (keeps_same (congrFun configs worker) (by rw [forking]) queue side)
    · exact stored_same (congrFun configs worker) queue side
  workers := by
    intro worker table' runs'
    obtain ⟨table, runs, same⟩ := workers worker table' runs'
    have runs := holding.workers worker table runs
    exact runs.same same runs.created (forking ▸ runs.forked) (by rw [configs])
  slots := slots
  piped := by
    intro worker made forked active
    rw [forking] at forked
    have active := (active_same (congrFun configs worker)).mp active
    obtain ⟨slot, used, pipe, elem⟩ := holding.piped worker made forked active
    refine ⟨slot, ?_, pipe, elem⟩
    rw [stored_same (congrFun configs worker)]
    exact piped _ slot used pipe
  honest := misclosed.trans holding.honest

namespace Sound

theorem same (sound : Sound bindNum s) {s' : State} (holding : Holding s.Created s')
    (configs : s'.configs = s.configs) (forking : s'.forking = s.forking)
    (started : s'.started = s.started) : Sound bindNum s' := by
  have active : s'.Active = s.Active :=
    funext fun worker => propext (active_same (congrFun configs worker))
  have made : s'.Created = s.Created := by
    unfold State.Created
    rw [started, forking]
  refine ⟨made ▸ holding, started ▸ sound.started, ?_, ?_⟩
  · rw [forking, started, active]
    exact sound.forking
  · rw [started, active]
    exact sound.fresh

theorem crash (sound : Sound bindNum s) (worker : Nat) :
    Sound bindNum { s with workers := Function.update s.workers worker none } := by
  refine sound.same (sound.holding.quiet rfl rfl rfl (.refl _) ?_ ?_ ?_) rfl rfl rfl
  · intro other table runs
    by_cases here : other = worker
    · simp [here] at runs
    · exact ⟨table, by simpa [here] using runs, .refl table⟩
  · exact fun fd slot used => (sound.holding.slots fd slot used).same
      (sound.holding.slots fd slot used).held fun _ => rfl
  · exact fun fd slot used _ => used

theorem openSocket (sound : Sound bindNum s) {type : FdType} (notPipe : type ≠ .pipe)
    (bcElem : Nat) : Sound bindNum (s.openSocket type bcElem) := by
  refine sound.same (sound.holding.quiet rfl rfl rfl (samePipes_allocate _ (by simp))
    (fun worker table runs => ⟨table, runs, .refl table⟩) ?_ ?_) rfl rfl rfl
  · intro fd slot used
    by_cases here : fd = s.parent.lowest
    · subst here
      simp only [State.openSocket, State.doAddConn, Function.update_self, Option.some.injEq] at used
      subst used
      exact ⟨Descriptors.allocate_holds.mpr (.inl ⟨rfl, rfl⟩), .inr ⟨notPipe, _, rfl⟩⟩
    · have used : s.fds fd = some slot := by
        simpa [State.openSocket, State.doAddConn, here] using used
      have registered := sound.holding.slots fd slot used
      exact registered.same (Descriptors.allocate_holds.mpr (.inr registered.held)) fun _ => rfl
  · intro fd slot used _
    have apart : fd ≠ s.parent.lowest := by
      rintro rfl
      cases (s.parent.lowest_free).symm.trans (sound.holding.slots _ slot used).held
    simpa [State.openSocket, State.doAddConn, apart] using used

theorem doDelConn (sound : Sound bindNum s) {fd : Nat} {slot : Slot} (used : s.fds fd = some slot)
    (notPipe : slot.type ≠ .pipe) : Sound bindNum (s.doDelConn fd slot.resource) := by
  have registered := sound.holding.slots fd slot used
  obtain ⟨_, stamp, socket⟩ := registered.kind.resolve_left fun pipe => notPipe pipe.1
  rw [doDelConn_eq used registered.held]
  refine sound.same (sound.holding.quiet rfl rfl rfl
    (samePipes_close registered.held (by simp [socket]))
    (fun worker table runs => ⟨table, runs, .refl table⟩) ?_ ?_) rfl rfl rfl
  · intro other slot' used'
    by_cases here : other = fd
    · simp [here] at used'
    · have used' : s.fds other = some slot' := by simpa [here] using used'
      have before := sound.holding.slots other slot' used'
      exact before.same (Descriptors.close_holds.mpr ⟨before.held, here⟩) fun _ => rfl
  · intro other slot' used' pipe
    have apart : other ≠ fd := by
      rintro rfl
      rw [used] at used'
      cases used'
      exact notPipe pipe
    simpa [apart] using used'

theorem samePipes_closeOther (table : Descriptors Resource) (number : Nat) :
    SamePipes table (State.closeOther table number) := by
  unfold State.closeOther
  split
  · exact samePipes_close ‹_› (by simp)
  · exact .refl table

/-- What a process opens and closes for itself is no pipe and no socket. -/
theorem change (sound : Sound bindNum s) (owner : Option Nat)
    {change : Descriptors Resource → Descriptors Resource}
    (pipes : ∀ table, SamePipes table (change table))
    (sockets : ∀ table number stamp, table.get number = some (.socket stamp) →
      (change table).get number = some (.socket stamp)) :
    Sound bindNum (s.change owner change) := by
  cases owner with
  | none =>
      refine sound.same (sound.holding.quiet rfl rfl rfl (pipes s.parent)
        (fun worker table runs => ⟨table, runs, .refl table⟩) ?_ fun _ _ used _ => used) rfl rfl rfl
      intro fd slot used
      have registered := sound.holding.slots fd slot used
      refine registered.same ?_ fun _ => rfl
      have held := registered.held
      rcases registered.kind with ⟨_, same⟩ | ⟨_, stamp, same⟩
      · rw [same] at held ⊢
        exact (pipes s.parent _ _ _ _ _).mpr held
      · rw [same] at held ⊢
        exact sockets s.parent fd stamp held
  | some owner =>
      refine sound.same (sound.holding.quiet rfl rfl rfl (.refl _) ?_ ?_ fun _ _ used _ => used)
        rfl rfl rfl
      · intro worker table runs
        by_cases here : worker = owner
        · subst here
          simp only [State.change, Function.update_self, Option.map_eq_some_iff] at runs
          obtain ⟨before, runs, rfl⟩ := runs
          exact ⟨before, runs, pipes before⟩
        · exact ⟨table, by simpa [State.change, here] using runs, .refl table⟩
      · exact fun fd slot used => (sound.holding.slots fd slot used).same
          (sound.holding.slots fd slot used).held fun _ => rfl

end Sound

/-! ## `shmq_create` -/

theorem Holding.registered_pipe (holding : Holding created s) {fd : Nat} {slot : Slot}
    (used : s.fds fd = some slot) (pipe : slot.type = .pipe) :
    created slot.bcElem ∧ s.Active slot.bcElem ∧
      (fd, slot.resource) = s.stored slot.bcElem .sendq .reader := by
  have registered := holding.slots fd slot used
  obtain ⟨_, resource⟩ := registered.kind.resolve_right fun socket => socket.1 pipe
  have held := registered.held
  rw [resource] at held
  obtain ⟨stored, made, keeps⟩ := (holding.parent _ _ _ _ _).mp held
  refine ⟨made, keeps, ?_⟩
  rw [resource]
  exact stored

theorem Holding.shmqCreate {worker : Nat} (holding : Holding created s) (idle : s.forking = none)
    (absent : ¬ created worker) (active : s.Active worker) :
    Holding (fun other => created other ∨ other = worker) (s.shmqCreate worker) := by
  obtain ⟨parent, bc, shape, restarts, holds⟩ := shmqCreate_holds s worker
  rw [shape]
  have config : ∀ other, other ≠ worker →
      Function.update s.configs worker bc other = s.configs other := fun other apart =>
    Function.update_of_ne apart ..
  have apart : ∀ {other}, created other → other ≠ worker := by
    rintro other made rfl
    exact absent made
  constructor
  · intro number other incarnation queue side
    simp only [holds, holding.parent number other]
    by_cases here : other = worker
    · subst here
      have keeps : State.Keeps
          { s with
            parent := parent, configs := Function.update s.configs other bc,
            forking := some other } other queue side := by
        cases queue <;> cases side <;> simp [State.Keeps, State.Active, restarts]
        exact active
      simp [State.stored, absent, keeps]
    · have turn : some worker = some other ↔ s.forking = some other := by
        simp [idle, Ne.symm here]
      rw [or_iff_right fun ⟨_, _, _, same⟩ => here (Resource.pipe.inj same).1]
      exact and_congr (Eq.congr_right (stored_same (config other here) queue side).symm)
        (and_congr (or_iff_left here).symm (keeps_same (config other here) turn queue side).symm)
  · intro other table runs
    have runs := holding.workers other table runs
    have apart := apart runs.created
    exact runs.same (.refl table) (.inl runs.created) (by simpa using Ne.symm apart)
      (config other apart)
  · intro fd slot used
    have registered := holding.slots fd slot used
    refine registered.same ((holds _ _).mpr (.inr registered.held)) fun pipe => ?_
    have made := (holding.registered_pipe used pipe).1
    exact congrArg BindConfigInfo.incarnation (config _ (apart made))
  · intro other made forked active
    have apart : other ≠ worker := fun same => forked (by rw [same])
    have made := made.resolve_right apart
    have active := (active_same (config other apart)).mp active
    obtain ⟨slot, used, found⟩ := holding.piped other made (by simp [idle]) active
    refine ⟨slot, ?_, found⟩
    rw [stored_same (config other apart)]
    exact used
  · exact holding.honest

private theorem sound_shmqCreate {worker : Nat} (holding : Holding created s)
    (idle : s.forking = none)
    (absent : ¬ created worker) (active : s.Active worker) (below : worker < bindNum)
    (started : s.started ≤ bindNum) (turn : worker = s.started ∨ s.started = bindNum)
    (fresh : ∀ other, s.started ≤ other → s.Active other)
    (made : ∀ other, created other ∨ other = worker ↔ other < s.started ∨ worker = other) :
    Sound bindNum (s.shmqCreate worker) := by
  have holding := holding.shmqCreate idle absent active
  obtain ⟨parent, bc, shape, restarts, _⟩ := shmqCreate_holds s worker
  rw [shape] at holding ⊢
  have still : ∀ other, s.Active other → State.Active
      { s with
        parent := parent, configs := Function.update s.configs worker bc,
        forking := some worker } other := by
    intro other active
    by_cases here : other = worker
    · subst here
      simpa [State.Active, restarts] using active
    · simpa [State.Active, here] using active
  refine ⟨?_, started, ?_, fun other above => still other (fresh other above)⟩
  · convert holding using 1
    funext other
    simpa [State.Created] using (made other).symm
  · intro other forking
    cases forking
    exact ⟨below, still worker active, turn⟩

theorem Sound.shmqCreate (sound : Sound bindNum s) (below : s.started < bindNum)
    (idle : s.forking = none) : Sound bindNum (s.shmqCreate s.started) := by
  refine sound_shmqCreate sound.holding idle ?_ (sound.fresh _ le_rfl) below sound.started
    (.inl rfl) sound.fresh fun other => ?_
  · simp [State.Created, idle]
  · simp [State.Created, idle, eq_comm]

/-! ## A crash -/

private theorem Holding.swept_iff (holding : Holding created s) (idle : s.forking = none)
    {worker other number incarnation : Nat} {queue : Queue} {side : Side}
    (held : s.parent.get number = some (.pipe other incarnation queue side)) :
    s.Swept worker number ↔ other = worker ∧ queue = .sendq ∧ side = .reader := by
  obtain ⟨stored, made, keeps⟩ := (holding.parent _ _ _ _ _).mp held
  constructor
  · rintro ⟨slot, used, elem, _⟩
    obtain ⟨owner, ends⟩ := (holding.slots number slot used).pipe held
    exact ⟨owner.symm.trans elem, ends⟩
  · rintro ⟨rfl, rfl, rfl⟩
    obtain ⟨slot, used, pipe, elem⟩ := holding.piped other made (by simp [idle]) keeps
    have here : number = (s.stored other .sendq .reader).1 := congrArg Prod.fst stored
    exact ⟨slot, here ▸ used, elem, by simp [pipe]⟩

private theorem Holding.giveUp (holding : Holding created s) {worker : Nat} {s' : State}
    {closed created' : Nat → Prop} (without : Without closed s s')
    (stopped : s.workers worker = none) (bc : BindConfigInfo)
    (handles : bc.handle = (s.configs worker).handle)
    (incarnation : bc.incarnation = (s.configs worker).incarnation)
    (others : ∀ other, other ≠ worker → (created' other ↔ created other))
    (foreign : ∀ number other incarnation queue side, other ≠ worker →
      s.parent.get number = some (.pipe other incarnation queue side) → ¬ closed number)
    (own : ∀ number incarnation queue side,
      s.parent.get number = some (.pipe worker incarnation queue side) ∧ ¬ closed number ↔
        (number, .pipe worker incarnation queue side) = s.stored worker queue side ∧
          created' worker ∧ queue = .recvq ∧ side = .writer)
    (idle : s.forking = none) (ended : created' worker → 20 < bc.restartCnt) :
    Holding created' { s' with configs := Function.update s.configs worker bc } := by
  have config : ∀ other, other ≠ worker →
      Function.update s.configs worker bc other = s.configs other := fun other apart =>
    Function.update_of_ne apart ..
  rw [without.same]
  constructor
  · intro number other number' queue side
    rw [without.parent]
    by_cases here : other = worker
    · subst here
      have keeps : created' other → (State.Keeps
          { s with
            parent := s'.parent, fds := s'.fds,
            configs := Function.update s.configs other bc } other queue side ↔
              queue = .recvq ∧ side = .writer) := by
        intro made
        have above := ended made
        cases queue <;> cases side <;> simp [State.Keeps, State.Active, idle]
        omega
      refine (own _ _ _ _).trans (and_congr ?_ (and_congr_right fun made => (keeps made).symm))
      simp [State.stored, handles, incarnation]
    · rw [and_iff_left_of_imp (foreign number other number' queue side here)]
      refine (holding.parent ..).trans (and_congr ?_ (and_congr (others other here).symm ?_))
      · exact Eq.congr_right (stored_same (config other here) queue side).symm
      · refine Iff.symm (keeps_same (config other here) ?_ queue side)
        exact Iff.rfl
  · intro other table runs
    have apart : other ≠ worker := by
      rintro rfl
      rw [stopped] at runs
      cases runs
    have runs := holding.workers other table runs
    exact runs.same (.refl table) ((others other apart).mpr runs.created) runs.forked
      (config other apart)
  · intro fd slot used
    obtain ⟨used, kept⟩ := (without.fds fd slot).mp used
    have registered := holding.slots fd slot used
    refine registered.same ((without.parent _ _).mpr ⟨registered.held, kept⟩) fun _ => ?_
    by_cases here : slot.bcElem = worker
    · simp [here, incarnation]
    · exact congrArg BindConfigInfo.incarnation (config _ here)
  · intro other made forked active
    have apart : other ≠ worker := by
      rintro rfl
      have above := ended made
      simp only [State.Active, Function.update_self] at active
      omega
    have active := (active_same (config other apart)).mp active
    have made := (others other apart).mp made
    obtain ⟨slot, used, found⟩ := holding.piped other made (by simp [idle]) active
    have held := (holding.parent _ _ _ _ _).mpr
      ⟨(rfl : (_, _) = s.stored other .sendq .reader), made, active⟩
    refine ⟨slot, ?_, found⟩
    rw [stored_same (config other apart)]
    exact (without.fds _ slot).mpr ⟨used, foreign _ other _ _ _ apart held⟩
  · exact holding.honest

section Crash

variable {worker : Nat}

theorem keeps_cases {queue : Queue} {side : Side} (keeps : s.Keeps worker queue side) :
    queue = .sendq ∧ side = .reader ∨ queue = .recvq ∧ side = .writer ∨
      s.forking = some worker ∧ Own queue side := by
  cases queue with
  | sendq =>
      cases side with
      | reader => exact .inl ⟨rfl, rfl⟩
      | writer => exact .inr (.inr ⟨keeps, trivial⟩)
  | recvq =>
      cases side with
      | reader => exact .inr (.inr ⟨keeps, trivial⟩)
      | writer => exact .inr (.inl ⟨rfl, rfl⟩)

private theorem keeps_idle (idle : s.forking = none) {queue : Queue} {side : Side}
    (keeps : s.Keeps worker queue side) :
    queue = .sendq ∧ side = .reader ∨ queue = .recvq ∧ side = .writer :=
  (keeps_cases keeps).imp_right fun rest => rest.resolve_right fun ⟨forking, _⟩ => by
    rw [idle] at forking
    cases forking

theorem Sound.stored_held (sound : Sound bindNum s) (queue : Queue) (side : Side)
    (made : s.Created worker) (keeps : s.Keeps worker queue side) :
    s.parent.get (s.stored worker queue side).1 = some (s.stored worker queue side).2 :=
  (sound.holding.parent _ _ _ _ _).mpr ⟨rfl, made, keeps⟩

theorem Sound.swept (sound : Sound bindNum s) (worker : Nat) :
    Without (s.Swept worker) s (s.sweep worker) :=
  sweep_without worker fun fd slot used => (sound.holding.slots fd slot used).held

private theorem Sound.abandon (sound : Sound bindNum s) (idle : s.forking = none)
    (made : s.Created worker) (stopped : s.workers worker = none)
    (last : 20 ≤ (s.configs worker).restartCnt) :
    Holding s.Created { s.sweep worker with
      configs := Function.update s.configs worker
        { s.configs worker with restartCnt := (s.configs worker).restartCnt + 1 } } := by
  refine sound.holding.giveUp (sound.swept worker) stopped _ rfl rfl (fun _ _ => Iff.rfl) ?_ ?_ idle
    fun _ => by simp only; omega
  · intro number other incarnation queue side apart held swept
    exact apart ((sound.holding.swept_iff idle held).mp swept).1
  · intro number incarnation queue side
    constructor
    · rintro ⟨held, kept⟩
      obtain ⟨stored, _, keeps⟩ := (sound.holding.parent _ _ _ _ _).mp held
      rcases keeps_idle idle keeps with ⟨rfl, rfl⟩ | ⟨rfl, rfl⟩
      · exact absurd ((sound.holding.swept_iff idle held).mpr ⟨rfl, rfl, rfl⟩) kept
      · exact ⟨stored, made, rfl, rfl⟩
    · rintro ⟨stored, _, rfl, rfl⟩
      have held := (sound.holding.parent number worker incarnation .recvq .writer).mpr
        ⟨stored, made, trivial⟩
      refine ⟨held, fun swept => ?_⟩
      cases ((sound.holding.swept_iff idle held).mp swept).2.1

/-- `restart_child_process` closes the writing end of `recvq`; the sweep has closed the
other end that the parent had. -/
theorem Sound.restart (sound : Sound bindNum s) (idle : s.forking = none)
    (made : s.Created worker) (active : s.Active worker) (stopped : s.workers worker = none)
    (bc : BindConfigInfo) (handles : bc.handle = (s.configs worker).handle)
    (incarnation : bc.incarnation = (s.configs worker).incarnation) :
    ∃ base, State.restartChildProcess
        { s.sweep worker with configs := Function.update s.configs worker bc } worker =
          base.shmqCreate worker ∧
      base.configs = Function.update s.configs worker bc ∧ base.started = s.started ∧
      base.forking = none ∧ Holding (fun other => s.Created other ∧ other ≠ worker) base := by
  have swept := sound.swept worker
  have writer := sound.stored_held .recvq .writer made trivial
  have names : ∀ queue side, State.stored
      { s.sweep worker with configs := Function.update s.configs worker bc } worker queue side =
        s.stored worker queue side := by
    intro queue side
    simp [State.stored, handles, incarnation]
  have fits : ∀ closing ∈ [s.stored worker .recvq .writer], (s.sweep worker).parent.Fits closing := by
    intro closing member resource held
    obtain rfl := List.mem_singleton.mp member
    have before := ((swept.parent _ resource).mp held).1
    exact Option.some.inj (before.symm.trans writer)
  have gone : (s.sweep worker).fds (s.stored worker .sendq .reader).1 = none := by
    refine Option.eq_none_iff_forall_ne_some.mpr fun slot used => ?_
    obtain ⟨used, kept⟩ := (swept.fds _ slot).mp used
    have reader := sound.stored_held .sendq .reader made active
    exact kept ((sound.holding.swept_iff idle reader).mpr ⟨rfl, rfl, rfl⟩)
  refine ⟨{ s.sweep worker with
    parent := (s.sweep worker).parent.close (s.stored worker .recvq .writer).1
    configs := Function.update s.configs worker bc }, ?_, rfl, ?_, ?_, ?_⟩
  · unfold State.restartChildProcess
    simp only [names]
    rw [closes_eq (s := { s.sweep worker with configs := Function.update s.configs worker bc }) fits]
    unfold State.doDelConn
    simp only [gone]
    rfl
  · rw [swept.same]
  · rw [swept.same]
    exact idle
  · have closing : Without (fun number => number = (s.stored worker .recvq .writer).1) (s.sweep worker)
        { s.sweep worker with
          parent := (s.sweep worker).parent.close (s.stored worker .recvq .writer).1 } := by
      refine ⟨rfl, fun _ _ => Descriptors.close_holds, fun fd slot => ?_⟩
      refine (and_iff_left_of_imp fun used here => ?_).symm
      subst here
      have registered := sound.holding.slots _ slot ((swept.fds _ slot).mp used).1
      cases (registered.pipe writer).2.1
    refine sound.holding.giveUp (swept.trans closing) stopped bc handles incarnation
      (fun other apart => by simp [apart]) ?_ ?_ idle (by simp)
    · rintro number other number' queue side apart held (gone | here)
      · exact apart ((sound.holding.swept_iff idle held).mp gone).1
      · subst here
        cases writer.symm.trans held
        exact apart rfl
    · intro number number' queue side
      refine iff_of_false ?_ (by simp)
      rintro ⟨held, kept⟩
      obtain ⟨stored, _, keeps⟩ := (sound.holding.parent _ _ _ _ _).mp held
      rcases keeps_idle idle keeps with ⟨rfl, rfl⟩ | ⟨rfl, rfl⟩
      · exact kept (.inl ((sound.holding.swept_iff idle held).mpr ⟨rfl, rfl, rfl⟩))
      · exact kept (.inr (congrArg Prod.fst stored))

theorem Sound.childCrashed (sound : Sound bindNum s) (looping : s.Looping bindNum)
    (made : s.Created worker) (active : s.Active worker) (stopped : s.workers worker = none) :
    Sound bindNum (s.childCrashed worker) := by
  obtain ⟨started, idle⟩ := looping
  have swept := sound.swept worker
  have configs : (s.sweep worker).configs = s.configs := by rw [swept.same]
  have below : worker < bindNum := by
    rcases made with below | forking
    · omega
    · rw [idle] at forking
      cases forking
  unfold State.childCrashed
  simp only [configs]
  split
  · rename_i again
    obtain ⟨base, shape, entries, starts, rests, holding⟩ := sound.restart idle made active stopped
      { s.configs worker with restartCnt := (s.configs worker).restartCnt + 1 } rfl rfl
    rw [shape]
    have still : ∀ other, other ≠ worker → s.Active other → base.Active other := by
      intro other apart active
      unfold State.Active
      rwa [entries, Function.update_of_ne apart]
    refine sound_shmqCreate holding rests (by simp) ?_ below (by omega) (.inr (by omega)) ?_ ?_
    · unfold State.Active
      rw [entries, Function.update_self]
      simp only
      omega
    · intro other above
      exact still other (by omega) (sound.fresh other (by omega))
    · intro other
      have made : s.Created other ↔ other < s.started := by simp [State.Created, idle]
      rw [made, starts]
      omega
  · rename_i last
    have starts : (s.sweep worker).started = s.started := by rw [swept.same]
    have rests : (s.sweep worker).forking = none := by
      rw [swept.same]
      exact idle
    refine ⟨?_, starts ▸ sound.started, fun other forking => ?_, fun other above => ?_⟩
    · convert sound.abandon idle made stopped (by omega) using 1
      funext other
      simp [State.Created, starts, rests, idle]
    · cases rests.symm.trans forking
    · simp only [starts] at above
      have apart : other ≠ worker := by omega
      simpa [State.Active, apart] using sound.fresh other above

end Crash

end MpNet.Process.PipeEnds
