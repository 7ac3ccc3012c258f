import MpNet.Net.TableInvariant
import MpNet.Net.TableOperations

/-!
# The table invariant along every sequence

Each operation keeps the invariant, and the body of a walk unlinks at most the node that
has its turn, so that every walk reaches the head of its queue.
-/

set_option autoImplicit false

namespace MpNet.Net.TableOperations

open Library

/-- A queue stays as it is or loses one descriptor. -/
def Loses (fd : Int) (before after : List Int) : Prop :=
  after = before ∨ after = before.filter (· ≠ fd)

variable {fd : Int} {before middle after : List Int}

theorem Loses.trans (first : Loses fd before middle) (second : Loses fd middle after) :
    Loses fd before after := by
  rcases first with rfl | rfl
  · exact second
  · rcases second with rfl | rfl
    · exact .inr rfl
    · exact .inr (by simp [List.filter_filter])

theorem Loses.absent (loses : Loses fd before after) (absent : fd ∉ before) : after = before := by
  rcases loses with same | filtered
  · exact same
  · rw [filtered]
    refine List.filter_eq_self.mpr fun other member => ?_
    simpa using ne_of_mem_of_not_mem member absent

/-! ## Reading -/

section Recv

variable {World : Type*} {sizes : Sizes} {receiver : Receiver World} {e : Epi}
  {result : RecvResult} {now : UInt32} {world : World}

/-- What `do_read_conn` does before it queues the connection, what it does then, and what
the loop over the packets adds. -/
theorem netRecv_keeps (Before After Result : Epi → Prop) (start : Before e)
    (buffered : ∀ e cb sk, Before e →
      Before (e.modify fd fun slot => { slot with cb := cb, sk := sk }))
    (queued : ∀ e, Before e → After (queueIfFull sizes e fd))
    (unqueued : ∀ e, Before e → After e)
    (parsed : ∀ e cb, After e → After (e.modify fd fun slot => { slot with cb := cb }))
    (kept : ∀ e, After e → Result e) (released : ∀ e, After e → Result (e.release fd)) :
    Result (netRecv sizes receiver e fd result now world).1 := by
  have mapped : Before (mapBuffer e fd) := by
    unfold mapBuffer
    split
    · exact buffered e _ _ start
    · exact start
  have read : After (doReadConn sizes e fd result now).1 := by
    unfold doReadConn
    simp only
    split
    · exact unqueued _ mapped
    · cases result with
      | closed => exact unqueued _ mapped
      | error => exact queued _ mapped
      | bytes chunk => exact queued _ (buffered _ _ _ mapped)
  unfold netRecv
  split
  · exact kept e (unqueued e start)
  split
  · exact kept e (unqueued e start)
  generalize doReadConn sizes e fd result now = reading at read
  obtain ⟨e, status⟩ := reading
  simp only at read ⊢
  split
  · exact kept e read
  generalize parseAgain sizes receiver _ _ 0 0 world = parsing
  obtain ⟨cb, world', stop⟩ := parsing
  cases stop with
  | through tmp cnt => exact kept _ (parsed e _ read)
  | closed cnt => exact released _ (parsed e cb read)
  | failed => exact kept _ (parsed e cb read)
  | exited => exact kept _ (parsed e cb read)

private theorem queueIfFull_sound (sound : e.Sound) (member : fd ∈ e.used) :
    (queueIfFull sizes e fd).Sound ∧ fd ∈ (queueIfFull sizes e fd).used ∧
      (fd ∈ e.etinHead → Loses fd e.etinHead (queueIfFull sizes e fd).etinHead) := by
  unfold queueIfFull
  split
  · refine ⟨sound.addToEtinQueue member, Epi.alters_addToEtinQueue.mem_used member, ?_⟩
    intro queued
    have flagged := (sound.flagged.polling fd).mp queued
    rw [Epi.addToEtinQueue, if_neg fun clear => clear.2 flagged]
    exact .inl rfl
  · refine ⟨sound.delFromEtinQueue member, Epi.alters_delFromEtinQueue.mem_used member, ?_⟩
    exact fun _ => .inr sound.flagged.etinHead_eq

private theorem netRecv_sound (sound : e.Sound) (member : fd ∈ e.used) :
    (netRecv sizes receiver e fd result now world).1.Sound ∧
      (fd ∈ e.etinHead →
        Loses fd e.etinHead (netRecv sizes receiver e fd result now world).1.etinHead) := by
  refine netRecv_keeps
    (fun reached => reached.Sound ∧ fd ∈ reached.used ∧ reached.etinHead = e.etinHead)
    (fun reached => reached.Sound ∧ fd ∈ reached.used ∧
      (fd ∈ e.etinHead → Loses fd e.etinHead reached.etinHead))
    (fun reached => reached.Sound ∧
      (fd ∈ e.etinHead → Loses fd e.etinHead reached.etinHead))
    ⟨sound, member, rfl⟩ ?_ ?_ ?_ ?_ ?_ ?_
  · rintro reached cb sk ⟨sound, member, same⟩
    exact ⟨sound.modify member cb sk, (Epi.alters_buffers cb sk).mem_used member, same⟩
  · rintro reached ⟨sound, member, same⟩
    exact same ▸ queueIfFull_sound sound member
  · rintro reached ⟨sound, member, same⟩
    exact ⟨sound, member, fun _ => .inl same⟩
  · rintro reached cb ⟨sound, member, loses⟩
    exact ⟨sound.modify member cb (reached.fds fd).sk,
      (Epi.alters_buffers cb (reached.fds fd).sk).mem_used member, loses⟩
  · rintro reached ⟨sound, _, loses⟩
    exact ⟨sound, loses⟩
  · rintro reached ⟨sound, member, loses⟩
    exact ⟨sound.release member, fun queued =>
      (loses queued).trans (.inr sound.release_etinHead_eq)⟩

end Recv

/-! ## Operations on a connection -/

variable {s : State}

private theorem doDelConn_sound (sound : s.epi.Sound) (isParent : Nat) (push : Push) :
    (s.doDelConn fd isParent push).epi.Sound := by
  unfold State.doDelConn
  split
  · exact sound
  · rename_i member
    split
    · exact sound
    · exact sound.release member

theorem doDelConn_other {other : Int} (apart : other ≠ fd) (isParent : Nat) (push : Push) :
    (s.doDelConn fd isParent push).epi.fds other = s.epi.fds other := by
  unfold State.doDelConn
  split
  · rfl
  · split
    · rfl
    · exact Epi.release_other apart

private theorem doDelConn_loses (sound : s.epi.Sound) (isParent : Nat) (push : Push) :
    Loses fd s.epi.closeHead (s.doDelConn fd isParent push).epi.closeHead ∧
      Loses fd s.epi.etinHead (s.doDelConn fd isParent push).epi.etinHead := by
  unfold State.doDelConn
  split
  · exact ⟨.inl rfl, .inl rfl⟩
  · split
    · exact ⟨.inl rfl, .inl rfl⟩
    · exact ⟨.inr sound.release_closeHead_eq, .inr sound.release_etinHead_eq⟩

/-- The deletion of a descriptor outside the queue leaves the others as they were. -/
theorem doDelConn_keeps {other : Int} (sound : s.epi.Sound) (apart : other ≠ fd)
    (present : other ∈ s.epi.used) (absent : fd ∉ s.epi.etinHead) (isParent : Nat) (push : Push) :
    (s.doDelConn fd isParent push).epi.Sound ∧ other ∈ (s.doDelConn fd isParent push).epi.used ∧
      (s.doDelConn fd isParent push).epi.etinHead = s.epi.etinHead := by
  refine ⟨doDelConn_sound sound isParent push, ?_, ?_⟩
  · rw [Epi.mem_used, doDelConn_other apart]
    exact present
  · exact (doDelConn_loses sound isParent push).2.absent absent

private theorem settle_sound (sound : s.epi.Sound) (member : fd ∈ s.epi.used) (isParent : Bool)
    (push : Push) (result : Output.Conn × Output.Verdict) :
    (s.settle fd isParent push result).epi.Sound := by
  obtain ⟨c, verdict⟩ := result
  have written : (s.setConn fd c).epi.Sound := sound.modify member c.cb c.sk
  cases verdict with
  | kept ret => exact written
  | deleted => exact doDelConn_sound written _ _
  | aborted => exact written

/-- `do_write_conn` leaves the queues to its caller. -/
theorem doWriteConn_closeHead (results : List Output.SendResult) (now : UInt32) :
    (s.doWriteConn fd results now).epi.closeHead = s.epi.closeHead := by
  have kept : ((s.conn fd).doWriteConn results now).2 ≠ .deleted := by
    unfold Output.Conn.doWriteConn
    split <;> simp
  unfold State.doWriteConn
  generalize (s.conn fd).doWriteConn results now = result at kept
  obtain ⟨c, verdict⟩ := result
  cases verdict with
  | kept ret => rfl
  | deleted => exact absurd rfl kept
  | aborted => rfl

section Open

variable (process : Process)

private theorem addRemote_sound {e : Epi} {newfd : Int} (sound : e.Sound) (member : fd ∈ e.used)
    (unused : (e.fds newfd).type = .unused) (nonneg : 0 ≤ newfd) (peer : UInt16 × UInt32)
    (bcElem : Option Nat) (now : UInt32) {added : Epi}
    (adds : added = (e.doAddConn newfd .remote (some peer) bcElem).modify newfd fun slot =>
      { slot with sk := { slot.sk with lastTm := now } }) :
    added.Sound ∧ fd ∈ added.used ∧ added.etinHead = e.etinHead := by
  have registered : (e.doAddConn newfd .remote (some peer) bcElem).used = insert newfd e.used :=
    Epi.used_doAddConn (by simp)
  have fresh : newfd ∈ (e.doAddConn newfd .remote (some peer) bcElem).used :=
    registered ▸ Set.mem_insert newfd e.used
  have old : fd ∈ (e.doAddConn newfd .remote (some peer) bcElem).used :=
    registered ▸ Set.mem_insert_of_mem newfd member
  rw [adds]
  exact ⟨(sound.doAddConn unused nonneg (by simp) (some peer) bcElem).modify fresh _ _,
    (Epi.alters_buffers _ _).mem_used old, rfl⟩

private theorem doOpenConn_sound (sound : s.epi.Sound) (member : fd ∈ s.epi.used)
    (accept : Accept) :
    (s.doOpenConn process fd accept).1.epi.Sound ∧
      ((s.doOpenConn process fd accept).2 ≠ -1 →
        fd ∈ (s.doOpenConn process fd accept).1.epi.used ∧
          (s.doOpenConn process fd accept).1.epi.etinHead = s.epi.etinHead) ∧
      (fd ∈ s.epi.etinHead →
        Loses fd s.epi.etinHead (s.doOpenConn process fd accept).1.epi.etinHead) := by
  cases accept with
  | newfd newfd peer now push =>
      unfold State.doOpenConn
      simp only
      split
      · rename_i free
        obtain ⟨unused, nonneg⟩ := free
        have apart : fd ≠ newfd := fun same => member (same ▸ unused)
        have absent : newfd ∉ s.epi.etinHead := fun queued =>
          sound.flagged.used newfd (.inr ((sound.flagged.polling newfd).mp queued)) unused
        generalize adds : (s.epi.doAddConn newfd .remote (some peer) _).modify newfd _ = added
        obtain ⟨added_sound, present, etinHead⟩ :=
          addRemote_sound sound member unused nonneg peer _ now adds.symm
        have stays : added.Sound ∧ (newfd ≠ -1 → fd ∈ added.used ∧
            added.etinHead = s.epi.etinHead) ∧
            (fd ∈ s.epi.etinHead → Loses fd s.epi.etinHead added.etinHead) :=
          ⟨added_sound, fun _ => ⟨present, etinHead⟩, fun _ => .inl etinHead⟩
        split
        · cases push with
          | taken => exact stays
          | exited => exact stays
          | refused =>
              let registered : State := ⟨added, s.exited⟩
              obtain ⟨deleted, remains, same⟩ :=
                doDelConn_keeps (s := registered) added_sound apart present (etinHead ▸ absent) 2 .refused
              exact ⟨deleted, fun _ => ⟨remains, same.trans etinHead⟩,
                fun _ => .inl (same.trans etinHead)⟩
        · exact stays
      · exact ⟨sound, by simp, fun _ => .inl rfl⟩
  | failed error =>
      cases error with
      | tooMany =>
          refine ⟨sound.addToEtinQueue member, by simp [State.doOpenConn], fun queued => ?_⟩
          have flagged := (sound.flagged.polling fd).mp queued
          refine .inl ?_
          simp [State.doOpenConn, Epi.addToEtinQueue, flagged]
      | again =>
          exact ⟨sound.delFromEtinQueue member, by simp [State.doOpenConn], fun _ =>
            .inr sound.flagged.etinHead_eq⟩
      | other => exact ⟨sound, by simp [State.doOpenConn], fun _ => .inl rfl⟩

private theorem openAll_sound (sound : s.epi.Sound) (member : fd ∈ s.epi.used)
    (accepts : List Accept) :
    (s.openAll process fd accepts).epi.Sound ∧
      (fd ∈ s.epi.etinHead →
        Loses fd s.epi.etinHead (s.openAll process fd accepts).epi.etinHead) := by
  induction accepts generalizing s with
  | nil => exact ⟨sound, fun _ => .inl rfl⟩
  | cons accept rest ih =>
      obtain ⟨opened, goes, loses⟩ := doOpenConn_sound process sound member accept
      unfold State.openAll
      simp only
      split
      · exact ⟨opened, loses⟩
      split
      · obtain ⟨present, same⟩ := goes (by omega)
        exact same ▸ ih opened present
      · exact ⟨opened, loses⟩

/-! ## The walks -/

/-- What the body of a walk does to its queue. -/
structure Turn (queue : Epi → List Int) (fd : Int) (s s' : State) : Prop where
  sound : s'.epi.Sound
  loses : Loses fd (queue s.epi) (queue s'.epi)

private theorem closeBody_turn (writes : Int → List Output.SendResult × UInt32)
    (sound : s.epi.Sound)
    (queued : fd ∈ s.epi.closeHead) : Turn (·.closeHead) fd s (closeBody process writes s fd) := by
  have member : fd ∈ s.epi.used :=
    sound.flagged.used fd (.inl ((sound.flagged.closing fd).mp queued))
  unfold closeBody
  simp only [sound.valid.sockfd fd member]
  generalize write : (if 0 < (s.epi.fds fd).cb.sendlen then
    s.doWriteConn fd (writes fd).1 (writes fd).2 else s) = written
  have kept : written.epi.Sound ∧ written.epi.closeHead = s.epi.closeHead := by
    rw [← write]
    split
    · exact ⟨settle_sound sound member _ _ _, doWriteConn_closeHead _ _⟩
    · exact ⟨sound, rfl⟩
  split
  · exact ⟨kept.1, .inl kept.2⟩
  · exact ⟨doDelConn_sound kept.1 _ _, kept.2 ▸ (doDelConn_loses kept.1 _ _).1⟩

section Etin

variable {World : Type*}

private theorem netRecv_epi (s : State) (fd : Int) (read : Read World) :
    (s.netRecv process fd read).1.epi =
    (Net.netRecv process.sizes read.receiver s.epi fd read.result read.now read.world).1 := by
  unfold State.netRecv
  generalize Net.netRecv process.sizes read.receiver s.epi fd read.result read.now read.world =
    result
  obtain ⟨e, world, outcome⟩ := result
  cases outcome <;> rfl

private theorem etinBody_turn (reads : Int → Read World) (accepts : Int → List Accept)
    (push : Int → Push)
    (sound : s.epi.Sound) (queued : fd ∈ s.epi.etinHead) :
    Turn (·.etinHead) fd s (etinBody process reads accepts push s fd) := by
  have member : fd ∈ s.epi.used :=
    sound.flagged.used fd (.inr ((sound.flagged.polling fd).mp queued))
  unfold etinBody
  simp only [sound.valid.sockfd fd member]
  split
  · obtain ⟨opened, loses⟩ := openAll_sound process sound member (accepts fd)
    exact ⟨opened, loses queued⟩
  · have received := netRecv_epi process s fd (reads fd)
    obtain ⟨read_sound, loses⟩ := received ▸ netRecv_sound sound member
    split
    · rename_i reached result
      rw [result] at read_sound loses
      exact ⟨doDelConn_sound read_sound _ _, (loses queued).trans (doDelConn_loses read_sound _ _).2⟩
    · rename_i reached result
      rw [result] at read_sound loses
      exact ⟨read_sound, loses queued⟩

end Etin

end Open

theorem next_eq {kept rest : List Int} (distinct : (kept ++ fd :: rest).Nodup) :
    next (kept ++ fd :: rest) fd = rest.head? := by
  have outside : ∀ other ∈ kept, other ≠ fd := fun other member =>
    (List.nodup_append.mp distinct).2.2 other member fd List.mem_cons_self
  have dropped : (kept ++ fd :: rest).dropWhile (· ≠ fd) = fd :: rest := by
    rw [List.dropWhile_append_of_pos fun other member => by simpa using outside other member]
    simp
  rw [next, dropped]
  rfl

section Walk

variable {queue : Epi → List Int} {body : State → Int → State}

/-- The queue holds the nodes that the walk left behind and those still to come. -/
theorem forEachSafe_sound (distinct : ∀ e : Epi, e.Sound → (queue e).Nodup)
    (turn : ∀ (s : State) fd, s.epi.Sound → fd ∈ queue s.epi → Turn queue fd s (body s fd))
    (kept rest : List Int) (sound : s.epi.Sound) (queued : queue s.epi = kept ++ rest)
    (rounds : Nat) (enough : rest.length ≤ rounds) :
    (forEachSafe queue body rounds rest.head? s).1.epi.Sound ∧
      ((forEachSafe queue body rounds rest.head? s).2 = none ∨
        (forEachSafe queue body rounds rest.head? s).1.exited = true) := by
  induction rest generalizing kept s rounds with
  | nil => cases rounds <;> exact ⟨sound, .inl rfl⟩
  | cons fd rest ih =>
      obtain ⟨rounds, rfl⟩ : ∃ fewer, rounds = fewer + 1 := ⟨rounds - 1, by simp at enough; omega⟩
      have enough : rest.length ≤ rounds := by simpa using enough
      simp only [List.head?_cons, forEachSafe]
      split
      · rename_i exited
        exact ⟨sound, .inr exited⟩
      have whole : (kept ++ fd :: rest).Nodup := queued ▸ distinct s.epi sound
      rw [queued, next_eq whole]
      obtain ⟨body_sound, loses⟩ := turn s fd sound (by simp [queued])
      rw [queued] at loses
      rcases loses with stays | gone
      · exact ih (kept ++ [fd]) body_sound (by simpa using stays) rounds enough
      · rw [filter_ne_middle whole] at gone
        exact ih kept body_sound gone rounds enough

private theorem walk_sound (distinct : ∀ e : Epi, e.Sound → (queue e).Nodup)
    (turn : ∀ (s : State) fd, s.epi.Sound → fd ∈ queue s.epi → Turn queue fd s (body s fd))
    (sound : s.epi.Sound) :
    (walk queue body s).1.epi.Sound ∧
      ((walk queue body s).2 = none ∨ (walk queue body s).1.exited = true) :=
  forEachSafe_sound distinct turn [] (queue s.epi) sound rfl _ le_rfl

end Walk

/-! ## Every sequence -/

section Run

variable {World : Type*} (process : Process)

private theorem iterateCloseQueue_sound (writes : Int → List Output.SendResult × UInt32)
    (sound : s.epi.Sound) :
    (walk (·.closeHead) (closeBody process writes) s).1.epi.Sound ∧
      ((walk (·.closeHead) (closeBody process writes) s).2 = none ∨
        (walk (·.closeHead) (closeBody process writes) s).1.exited = true) :=
  walk_sound (fun _ sound => sound.closing)
    (fun _ _ sound queued => closeBody_turn process writes sound queued) sound

private theorem iterateEtinQueue_sound (reads : Int → Read World) (accepts : Int → List Accept)
    (push : Int → Push) (sound : s.epi.Sound) :
    (walk (·.etinHead) (etinBody process reads accepts push) s).1.epi.Sound ∧
      ((walk (·.etinHead) (etinBody process reads accepts push) s).2 = none ∨
        (walk (·.etinHead) (etinBody process reads accepts push) s).1.exited = true) :=
  walk_sound (fun _ sound => sound.etin)
    (fun _ _ sound queued => etinBody_turn process reads accepts push sound queued) sound

theorem used_iff : s.used fd = true ↔ fd ∈ s.epi.used := by simp [State.used, Epi.mem_used]

private theorem sound_used {s' : State} (sound : s.epi.Sound)
    (changed : fd ∈ s.epi.used → s'.epi.Sound) : (if s.used fd then s' else s).epi.Sound := by
  split
  · rename_i member
    exact changed (used_iff.mp member)
  · exact sound

private theorem step_sound (s : State) (action : Action World) (sound : s.epi.Sound) :
    (step process s action).epi.Sound := by
  unfold step
  split
  · exact sound
  cases action with
  | doAddConn fd type peer bcElem =>
      simp only
      split
      · rename_i free
        exact sound.doAddConn free.1.1 free.1.2 free.2 peer bcElem
      · exact sound
  | doDelConn fd isParent push => exact doDelConn_sound sound isParent push
  | netRecv fd read =>
      refine sound_used sound fun member => ?_
      rw [netRecv_epi]
      exact (netRecv_sound sound member).1
  | netSend fd data kernel push =>
      exact sound_used sound fun member => settle_sound sound member _ _ _
  | doWriteConn fd results now =>
      exact sound_used sound fun member => settle_sound sound member _ _ _
  | doOpenConn fd accept =>
      exact sound_used sound fun member => (doOpenConn_sound process sound member accept).1
  | addToCloseQueue fd => exact sound_used sound fun member => sound.addToCloseQueue member
  | iterateCloseQueue writes => exact (iterateCloseQueue_sound process writes sound).1
  | iterateEtinQueue reads accepts push =>
      exact (iterateEtinQueue_sound process reads accepts push sound).1

theorem table_sound (actions : List (Action World)) :
    (run (step process) init actions).epi.Sound :=
  run_preserves (fun s : State => s.epi.Sound) (step_sound process) Epi.sound_netInit actions

/-- After any sequence of operations `count`, `maxfd` and the slots agree. -/
theorem table_valid (actions : List (Action World)) :
    (run (step process) init actions).epi.Valid :=
  (table_sound process actions).valid

/-- No walk stops before the head of its queue while the process lives. -/
theorem walks_end (actions : List (Action World))
    (writes : Int → List Output.SendResult × UInt32) (reads : Int → Read World)
    (accepts : Int → List Accept) (push : Int → Push) :
    let s := run (step process) init actions
    let closing := walk (·.closeHead) (closeBody process writes) s
    let etin := walk (·.etinHead) (etinBody process reads accepts push) s
    (closing.2 = none ∨ closing.1.exited = true) ∧ (etin.2 = none ∨ etin.1.exited = true) := by
  have sound := table_sound process actions
  exact ⟨(iterateCloseQueue_sound process writes sound).2,
    (iterateEtinQueue_sound process reads accepts push sound).2⟩

end Run

end MpNet.Net.TableOperations
