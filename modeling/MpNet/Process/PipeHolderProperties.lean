import MpNet.Process.PipeEndsProperties

/-!
# Forks, and who holds the pipe ends after them

A new worker closes what the entries of `bindconf` name. That leaves it with the ends of
its own entry as long as no entry names a number that stands for something else.
-/

set_option autoImplicit false

namespace MpNet.Process.PipeEnds

open Library Net

variable {bindNum : Nat} {s : State}

/-! ## A fork -/

section Fork

variable {worker : Nat}

/-- A new worker closes this number of the entry. -/
def State.Names (s : State) (worker : Nat) (closing : Nat × Resource) : Prop :=
  closing = s.stored worker .recvq .writer ∨ closing = s.stored worker .sendq .reader

instance (worker : Nat) (closing : Nat × Resource) : Decidable (s.Names worker closing) :=
  inferInstanceAs (Decidable (closing = _ ∨ closing = _))

/-- An entry that has been given up names a number that is free, or that a new worker
has closed by then for what it stands for. -/
def State.StaleFree (s : State) (n : Nat) : Prop :=
  ∀ other < n, ¬ s.Active other → ∀ resource ∈ s.parent.get (s.stored other .sendq .reader).1,
    ∃ earlier ≤ other, s.Names earlier ((s.stored other .sendq .reader).1, resource)

instance (n : Nat) : Decidable (s.StaleFree n) :=
  inferInstanceAs (Decidable (∀ other < n, _ → _))

private theorem own_keeps (forking : s.forking = some worker) {queue : Queue} {side : Side}
    (own : Own queue side) : s.Keeps worker queue side := by
  cases queue with
  | sendq =>
      cases side with
      | reader => exact own.elim
      | writer => exact forking
  | recvq =>
      cases side with
      | reader => exact forking
      | writer => exact own.elim

private theorem mem_closeShmqPipe {n : Nat} {closing : Nat × Resource} :
    closing ∈ s.closeShmqPipe n true ↔ ∃ worker < n, s.Names worker closing := by
  simp [State.closeShmqPipe, State.Names]

/-- What a new worker closes for an entry is free, or named by it or an entry before it. -/
theorem Sound.inherited (sound : Sound bindNum s) {n : Nat} (stale : s.StaleFree n) {i : Nat}
    (below : i < n) (made : s.Created i) {closing : Nat × Resource} (names : s.Names i closing)
    {resource : Resource} (held : s.parent.get closing.1 = some resource) :
    ∃ earlier ≤ i, s.Names earlier (closing.1, resource) := by
  rcases names with rfl | rfl
  · have same := Option.some.inj (held.symm.trans (sound.stored_held .recvq .writer made trivial))
    exact ⟨i, le_rfl, .inl (Prod.ext rfl same)⟩
  · by_cases active : s.Active i
    · have same := Option.some.inj (held.symm.trans (sound.stored_held .sendq .reader made active))
      exact ⟨i, le_rfl, .inr (Prod.ext rfl same)⟩
    · exact stale i below active resource held

private theorem Sound.closings_fit (sound : Sound bindNum s) {n : Nat}
    (created : ∀ other < n, s.Created other) (stale : s.StaleFree n) :
    (s.parent.closeAll (s.closeShmqPipe n true)).2 = false := by
  induction n with
  | zero => rfl
  | succ n ih =>
      have before := ih (fun other below => created other (by omega))
        fun other below => stale other (by omega)
      have shape : s.closeShmqPipe (n + 1) true = s.closeShmqPipe n true ++
          [s.stored n .recvq .writer] ++ [s.stored n .sendq .reader] := by
        simp [State.closeShmqPipe, List.range_succ]
      have made := created n (Nat.lt_succ_self n)
      rw [shape]
      refine Descriptors.closeAll_concat_fits (Descriptors.closeAll_concat_fits before ?_) ?_
      · intro resource held
        have same := Option.some.inj
          (held.symm.trans (sound.stored_held .recvq .writer made trivial))
        simp [same]
      · intro resource held
        rw [← shape]
        obtain ⟨earlier, le, names⟩ :=
          sound.inherited stale (Nat.lt_succ_self n) made (.inr rfl) held
        exact mem_closeShmqPipe.mpr ⟨earlier, Nat.lt_succ_of_le le, names⟩

theorem Sound.runWorkerProcess (sound : Sound bindNum s) (forking : s.forking = some worker)
    {n : Nat} (created : ∀ other, s.Created other ↔ other < n) (stale : s.StaleFree n) :
    (s.runWorkerProcess n).2 = false ∧
      HoldsPipes s (s.runWorkerProcess n).1 fun other queue side =>
        other = worker ∧ Own queue side := by
  refine ⟨sound.closings_fit (fun other below => (created other).mpr below) stale, ?_⟩
  intro number other incarnation queue side
  unfold State.runWorkerProcess State.netExit
  simp only [Descriptors.closeEach_holds, Descriptors.closeAll_table]
  constructor
  · rintro ⟨⟨held, unclosed⟩, _⟩
    obtain ⟨stored, made, keeps⟩ := (sound.holding.parent _ _ _ _ _).mp held
    have below := (created other).mp made
    have number_eq := congrArg Prod.fst stored
    rcases keeps_cases keeps with ⟨rfl, rfl⟩ | ⟨rfl, rfl⟩ | ⟨here, own⟩
    · exact absurd (List.mem_map.mpr ⟨_, mem_closeShmqPipe.mpr ⟨other, below, .inr rfl⟩,
        number_eq.symm⟩) unclosed
    · exact absurd (List.mem_map.mpr ⟨_, mem_closeShmqPipe.mpr ⟨other, below, .inl rfl⟩,
        number_eq.symm⟩) unclosed
    · exact ⟨stored, Option.some.inj (here.symm.trans forking), own⟩
  · rintro ⟨stored, rfl, own⟩
    have held := (sound.holding.parent number other incarnation queue side).mpr
      ⟨stored, .inr forking, own_keeps forking own⟩
    refine ⟨⟨held, fun member => ?_⟩, fun member => ?_⟩
    · obtain ⟨closing, listed, rfl⟩ := List.mem_map.mp member
      obtain ⟨i, below, names⟩ := mem_closeShmqPipe.mp listed
      obtain ⟨earlier, _, named | named⟩ :=
        sound.inherited stale below ((created i).mpr below) names held
      · cases congrArg Prod.snd named
        exact own
      · cases congrArg Prod.snd named
        exact own
    · obtain ⟨_, used⟩ := List.mem_filter.mp member
      obtain ⟨slot, used⟩ := Option.isSome_iff_exists.mp used
      obtain ⟨_, rfl, rfl⟩ := (sound.holding.slots number slot used).pipe held
      exact own

def State.forked (s : State) (worker : Nat) (child : Descriptors Resource) : State :=
  { s with
    parent := s.parent.closeEach
      [(s.stored worker .recvq .reader).1, (s.stored worker .sendq .writer).1]
    fds := Function.update s.fds (s.stored worker .sendq .reader).1
      (some ⟨.pipe, worker, (s.stored worker .sendq .reader).2⟩)
    workers := Function.update s.workers worker (some child)
    forking := none }

private theorem Sound.fork_eq (sound : Sound bindNum s) (forking : s.forking = some worker)
    {child : Descriptors Resource}
    (runs : s.runWorkerProcess (s.nInitedBc bindNum worker) = (child, false)) (listening : Bool) :
    s.fork bindNum worker listening =
      if worker = s.started then
        if listening then
          State.openSocket { s.forked worker child with started := s.started + 1 } .listen worker
        else { s.forked worker child with started := s.started + 1 }
      else s.forked worker child := by
  have fits : ∀ closing ∈ s.closeShmqPipe worker false, s.parent.Fits closing := by
    intro closing member
    rcases List.mem_pair.mp member with rfl | rfl
    · exact Descriptors.fits_of_held (sound.stored_held .recvq .reader (.inr forking) forking)
    · exact Descriptors.fits_of_held (sound.stored_held .sendq .writer (.inr forking) forking)
  unfold State.fork
  simp only [runs, closes_eq fits]
  simp [State.doAddConn, State.forked, State.closeShmqPipe]

private theorem Sound.closed_iff (sound : Sound bindNum s) (forking : s.forking = some worker)
    {number other incarnation : Nat} {queue : Queue} {side : Side}
    (held : s.parent.get number = some (.pipe other incarnation queue side)) :
    number ∈ [(s.stored worker .recvq .reader).1, (s.stored worker .sendq .writer).1] ↔
      other = worker ∧ Own queue side := by
  have owned : ∀ queue side, Own queue side →
      s.parent.get (s.stored worker queue side).1 = some (s.stored worker queue side).2 :=
    fun queue side own => sound.stored_held queue side (.inr forking) (own_keeps forking own)
  constructor
  · intro member
    rcases List.mem_pair.mp member with rfl | rfl
    · cases held.symm.trans (owned .recvq .reader trivial)
      exact ⟨rfl, trivial⟩
    · cases held.symm.trans (owned .sendq .writer trivial)
      exact ⟨rfl, trivial⟩
  · rintro ⟨rfl, own⟩
    obtain ⟨stored, _⟩ := (sound.holding.parent _ _ _ _ _).mp held
    have here : number = (s.stored other queue side).1 := congrArg Prod.fst stored
    cases queue with
    | sendq =>
        cases side with
        | reader => exact own.elim
        | writer => simp [here]
    | recvq =>
        cases side with
        | reader => simp [here]
        | writer => exact own.elim

private theorem keeps_forked (forking : s.forking = some worker) (child : Descriptors Resource)
    (other : Nat) (queue : Queue) (side : Side) :
    (s.forked worker child).Keeps other queue side ↔
      s.Keeps other queue side ∧ ¬ (other = worker ∧ Own queue side) := by
  cases queue <;> cases side <;>
    simp [State.Keeps, State.Active, State.forked, Own, forking, eq_comm]

theorem Sound.forked (sound : Sound bindNum s) (forking : s.forking = some worker)
    {child : Descriptors Resource}
    (pipes : HoldsPipes s child fun other queue side => other = worker ∧ Own queue side) :
    Holding s.Created (s.forked worker child) := by
  have active := (sound.forking worker forking).2.1
  have made : s.Created worker := .inr forking
  have reader := sound.stored_held .sendq .reader made active
  have unclosed : ¬ (s.stored worker .sendq .reader).1 ∈
      [(s.stored worker .recvq .reader).1, (s.stored worker .sendq .writer).1] :=
    fun member => ((sound.closed_iff forking reader).mp member).2
  constructor
  · intro number other incarnation queue side
    have kept : (s.forked worker child).parent.get number =
        some (.pipe other incarnation queue side) ↔ _ := Descriptors.closeEach_holds
    refine kept.trans ((and_congr_right fun held => not_congr (sound.closed_iff forking held)).trans ?_)
    simp only [sound.holding.parent number other, keeps_forked forking, and_assoc]
    rfl
  · intro other table runs
    by_cases here : other = worker
    · subst here
      simp only [State.forked, Function.update_self, Option.some.injEq] at runs
      subst runs
      exact ⟨made, by simp [State.forked], active, pipes⟩
    · have runs : s.workers other = some table := by simpa [State.forked, here] using runs
      have runs := sound.holding.workers other table runs
      exact runs.same (.refl table) runs.created (by simp [State.forked]) rfl
  · intro fd slot used
    by_cases here : fd = (s.stored worker .sendq .reader).1
    · subst here
      simp only [State.forked, Function.update_self, Option.some.injEq] at used
      subst used
      exact ⟨Descriptors.closeEach_holds.mpr ⟨reader, unclosed⟩, .inl ⟨rfl, rfl⟩⟩
    · have used : s.fds fd = some slot := by simpa [State.forked, here] using used
      have registered := sound.holding.slots fd slot used
      refine registered.same (Descriptors.closeEach_holds.mpr ⟨registered.held, ?_⟩) fun _ => rfl
      intro member
      rcases List.mem_pair.mp member with rfl | rfl
      · cases (registered.pipe (sound.stored_held .recvq .reader made forking)).2.1
      · cases (registered.pipe (sound.stored_held .sendq .writer made forking)).2.2
  · intro other made' _ active'
    by_cases here : other = worker
    · subst here
      exact ⟨_, Function.update_self .., rfl, rfl⟩
    · obtain ⟨slot, used, found⟩ := sound.holding.piped other made'
        (by simp [forking, Ne.symm here]) active'
      have held := sound.stored_held .sendq .reader made' active'
      have apart : (s.stored other .sendq .reader).1 ≠ (s.stored worker .sendq .reader).1 := by
        intro same
        rw [same, reader] at held
        cases held
        exact here rfl
      refine ⟨slot, ?_, found⟩
      have same : (s.forked worker child).stored other .sendq .reader =
        s.stored other .sendq .reader := rfl
      rw [same]
      simpa [State.forked, apart] using used
  · exact sound.holding.honest

theorem Sound.nInitedBc (sound : Sound bindNum s) (forking : s.forking = some worker) (other : Nat) :
    s.Created other ↔ other < s.nInitedBc bindNum worker := by
  obtain ⟨below, _, turn⟩ := sound.forking worker forking
  have started := sound.started
  simp only [State.Created, State.nInitedBc, forking, Option.some.injEq]
  split
  · omega
  · omega

theorem Sound.fork (sound : Sound bindNum s) (forking : s.forking = some worker)
    (stale : s.StaleFree (s.nInitedBc bindNum worker)) (listening : Bool) :
    Sound bindNum (s.fork bindNum worker listening) := by
  obtain ⟨below, _, turn⟩ := sound.forking worker forking
  obtain ⟨right, pipes⟩ := sound.runWorkerProcess forking (sound.nInitedBc forking) stale
  have runs : s.runWorkerProcess (s.nInitedBc bindNum worker) =
      ((s.runWorkerProcess (s.nInitedBc bindNum worker)).1, false) := Prod.ext rfl right
  have holding := sound.forked forking pipes
  rw [sound.fork_eq forking runs]
  generalize (s.runWorkerProcess (s.nInitedBc bindNum worker)).1 = child at holding ⊢
  split
  · rename_i first
    have moved : Sound bindNum { s.forked worker child with started := s.started + 1 } := by
      refine ⟨?_, by simp only; omega, by simp [State.forked], fun other above => ?_⟩
      · have same : Holding s.Created { s.forked worker child with started := s.started + 1 } :=
          holding.quiet rfl rfl rfl (.refl _) (fun _ table runs => ⟨table, runs, .refl table⟩)
            (fun fd slot used => (holding.slots fd slot used).same
              (holding.slots fd slot used).held fun _ => rfl) fun _ _ used _ => used
        convert same using 1
        funext other
        simp only [State.Created, State.forked, forking, eq_iff_iff, Option.some.injEq,
          reduceCtorEq, or_false]
        omega
      · exact sound.fresh other (Nat.le_of_succ_le above)
    split
    · exact moved.openSocket (by decide) worker
    · exact moved
  · rename_i again
    refine ⟨?_, sound.started, by simp [State.forked], sound.fresh⟩
    convert holding using 1
    funext other
    simp only [State.Created, State.forked, forking, eq_iff_iff, Option.some.injEq,
      reduceCtorEq, or_false]
    have whole := turn.resolve_left again
    omega

end Fork

/-! ## Runs -/

/-- A new worker closes no number that something else has been given meanwhile. -/
def Action.ForksFresh (bindNum : Nat) (s : State) : Action → Prop
  | .fork _ => ∀ worker ∈ s.forking, s.StaleFree (s.nInitedBc bindNum worker)
  | _ => True

instance (action : Action) : Decidable (action.ForksFresh bindNum s) :=
  match action with
  | .fork _ => inferInstanceAs (Decidable (∀ worker ∈ s.forking, _))
  | .shmqCreate | .crash _ | .accept _ | .delete _ | .hangup _ | .openOther _
  | .closeOther _ _ => .isTrue trivial

private theorem Sound.hungUp (sound : Sound bindNum s) {fd : Nat} {slot : Slot}
    (used : s.fds fd = some slot) (pipe : slot.type = .pipe) (hungUp : s.HungUp bindNum fd)
    (idle : s.forking = none) (started : s.started = bindNum) : s.workers slot.bcElem = none := by
  obtain ⟨made, _, stored⟩ := sound.holding.registered_pipe used pipe
  have registered := sound.holding.slots fd slot used
  obtain ⟨writer, other, free⟩ := hungUp
  have resource : slot.resource = (s.stored slot.bcElem .sendq .reader).2 :=
    congrArg Prod.snd stored
  rw [registered.held, resource] at other
  cases other
  refine Option.eq_none_iff_forall_ne_some.mpr fun table runs => free (.inr ?_)
  have below : slot.bcElem < bindNum := by simpa [State.Created, idle, started] using made
  have own := (sound.holding.workers _ table runs).pipes
  exact ⟨slot.bcElem, below, table, runs, Descriptors.holds_iff.mpr
    ⟨_, (own _ _ _ .sendq .writer).mpr ⟨rfl, rfl, trivial⟩⟩⟩

theorem Sound.step (sound : Sound bindNum s) {action : Action}
    (fresh : action.ForksFresh bindNum s) : Sound bindNum (step bindNum s action) := by
  cases action with
  | shmqCreate =>
      simp only [PipeEnds.step]
      split
      · rename_i ready
        exact sound.shmqCreate ready.1 ready.2
      · exact sound
  | fork listening =>
      simp only [PipeEnds.step]
      split
      · rename_i worker forking
        exact sound.fork forking (fresh worker forking) listening
      · exact sound
  | crash worker => exact sound.crash worker
  | accept fd =>
      simp only [PipeEnds.step]
      split
      · split
        · exact sound.openSocket (by decide) _
        · exact sound
      · exact sound
  | delete fd =>
      simp only [PipeEnds.step]
      split
      · rename_i slot used
        split
        · rename_i remote
          exact sound.doDelConn used (by simp [remote.2])
        · exact sound
      · exact sound
  | hangup fd =>
      simp only [PipeEnds.step]
      split
      · rename_i slot used
        split
        · rename_i enabled
          obtain ⟨looping, pipe, hungUp⟩ := enabled
          obtain ⟨made, active, _⟩ := sound.holding.registered_pipe used pipe
          exact sound.childCrashed looping made active
            (sound.hungUp used pipe hungUp looping.2 looping.1)
        · exact sound
      · exact sound
  | openOther owner =>
      refine sound.change owner (fun table => samePipes_allocate table (by simp)) ?_
      exact fun table number stamp held => Descriptors.allocate_holds.mpr (.inr held)
  | closeOther owner number =>
      refine sound.change owner (fun table => Sound.samePipes_closeOther table number) ?_
      intro table fd stamp held
      unfold State.closeOther
      split
      · rename_i other
        refine Descriptors.close_holds.mpr ⟨held, ?_⟩
        rintro rfl
        cases held.symm.trans other
      · exact held

end MpNet.Process.PipeEnds
