import MpNet.Net.EdgeTriggered

/-!
# What edge-triggered reading leaves behind

One call of `net_recv` reads once. A connection whose buffer it fills goes to the
queue; one whose buffer has room is taken to be read to its end.
-/

set_option autoImplicit false

namespace MpNet.Net.EdgeTriggered

open Library

/-! ## Operations on one slot -/

/-- Only the slot of `fd` and its place in the queue have changed. -/
structure Touches (fd : Int) (e e' : Epi) : Prop where
  linked : e'.Linked
  others : ∀ other, other ≠ fd → e'.fds other = e.fds other
  head : ∀ other, other ≠ fd → (other ∈ e'.etinHead ↔ other ∈ e.etinHead)

namespace Touches

variable {fd : Int} {e e' e'' : Epi}

theorem refl (fd : Int) (linked : e.Linked) : Touches fd e e :=
  ⟨linked, fun _ _ => rfl, fun _ _ => Iff.rfl⟩

theorem trans (first : Touches fd e e') (second : Touches fd e' e'') : Touches fd e e'' where
  linked := second.linked
  others := fun other apart => (second.others other apart).trans (first.others other apart)
  head := fun other apart => (second.head other apart).trans (first.head other apart)

theorem modify (linked : e.Linked) (change : FdInfo → FdInfo)
    (same : ∀ slot, (change slot).type = slot.type ∧ (change slot).needClose = slot.needClose ∧
      (change slot).needPollin = slot.needPollin ∧ (change slot).sockfd = slot.sockfd) :
    Touches fd e (e.modify fd change) where
  linked := linked.modify same
  others := fun _ apart => Epi.modify_other _ apart
  head := fun _ _ => Iff.rfl

theorem release (linked : e.Linked) : Touches fd e (e.release fd) where
  linked := linked.release
  others := fun _ apart => Epi.release_other apart
  head := fun other apart => by rw [Epi.release_etinHead linked, and_iff_left apart]

theorem addToEtinQueue (linked : e.Linked)
    (kind : (e.fds fd).type = .remote ∨ (e.fds fd).type = .listen) :
    Touches fd e (e.addToEtinQueue fd) where
  linked := linked.addToEtinQueue kind
  others := fun _ apart => Epi.addToEtinQueue_other apart
  head := fun other apart => by simp [Epi.addToEtinQueue_etinHead linked, apart]

theorem delFromEtinQueue (linked : e.Linked) : Touches fd e (e.delFromEtinQueue fd) where
  linked := linked.delFromEtinQueue
  others := fun _ apart => Epi.delFromEtinQueue_other apart
  head := fun other apart => by simp [Epi.delFromEtinQueue_etinHead linked, apart]

theorem addToCloseQueue (linked : e.Linked) (used : (e.fds fd).type ≠ .unused) :
    Touches fd e (e.addToCloseQueue fd) where
  linked := linked.addToCloseQueue used
  others := fun _ apart => Epi.addToCloseQueue_other apart
  head := fun other apart => by simp [Epi.addToCloseQueue_etinHead linked, apart]

theorem doAddConn (linked : e.Linked) (unused : (e.fds fd).type = .unused) (nonneg : 0 ≤ fd)
    (type : FdType) (peer : Option (UInt16 × UInt32)) (bcElem : Option Nat) :
    Touches fd e (e.doAddConn fd type peer bcElem) where
  linked := linked.doAddConn unused nonneg
  others := fun _ apart => Epi.doAddConn_other apart
  head := fun _ _ => Iff.rfl

theorem queueIfFull (sizes : Sizes) (linked : e.Linked)
    (kind : (e.fds fd).type = .remote ∨ (e.fds fd).type = .listen) :
    Touches fd e (queueIfFull sizes e fd) := by
  unfold Net.queueIfFull
  split
  · exact addToEtinQueue linked kind
  · exact delFromEtinQueue linked

end Touches

/-! ## One call of `net_recv` -/

section Recv

variable {World : Type*} {pageSize : Nat}

/-- The read fills the buffer. -/
def Fills (pageSize : Nat) (s : State) (fd : Int) (read : NetRead World) : Prop :=
  read.result.chunk.length = s.room pageSize fd

instance (s : State) (fd : Int) (read : NetRead World) : Decidable (Fills pageSize s fd read) :=
  inferInstanceAs (Decidable (_ = _))

/-- The end of the stream is not read, and the packets in the buffer are all taken. -/
def Survives (pageSize : Nat) (s : State) (fd : Int) (read : NetRead World) : Prop :=
  read.result ≠ .closed ∧
    survives pageSize read.receiver read.world (s.epi.fds fd).cb.cached
      ((s.epi.fds fd).cb.content ++ read.result.chunk) = true

instance (s : State) (fd : Int) (read : NetRead World) :
    Decidable (Survives pageSize s fd read) := inferInstanceAs (Decidable (_ ∧ _))

/-- The connection is still there after a call. -/
structure Stays (pageSize : Nat) (s : State) (fd : Int) (read : NetRead World) (e : Epi) :
    Prop where
  remote : (e.fds fd).type = .remote
  readable : Readable pageSize (e.fds fd)
  survives : Survives pageSize s fd read
  queued : Fills pageSize s fd read → (s.epi.fds fd).needClose = false → fd ∈ e.etinHead
  unqueued : fd ∈ e.etinHead → Fills pageSize s fd read

theorem Answers.possible {socket : EdgeSocket UInt8} {room : Nat} {result : RecvResult}
    (answers : Answers socket room result) : result.Possible room := by
  cases result with
  | bytes chunk => exact ⟨answers.1, answers.2.1⟩
  | closed | error => trivial

private theorem netRecv_left {s : State} {fd : Int} (linked : s.epi.Linked)
    (remote : (s.epi.fds fd).type = .remote) (readable : Readable pageSize (s.epi.fds fd))
    (read : NetRead World) (possible : read.result.Possible (s.room pageSize fd))
    {e : Epi} {world : World} {ret : Int}
    (returned : netRecv ⟨pageSize, pageSize⟩ read.receiver s.epi fd read.result read.now
      read.world = (e, world, .ret ret)) :
    Touches fd s.epi e ∧
      (ret ≠ -1 → (e.fds fd).type = .unused ∨ Stays pageSize s fd read e) := by
  have room := readable.room
  have sized : (Sizes.mk pageSize pageSize).max ≤ (Sizes.mk pageSize pageSize).pageSize := le_rfl
  have again := netRecv_readable sized readable possible read.now read.world (by rw [returned])
  rw [returned] at again
  obtain ⟨cb, sk, memory, filled, reads⟩ :=
    netRecv_cases read.receiver sized readable read.result read.now read.world
  have bounded : cb.recvlen ≤ pageSize := filled.bounded readable possible
  have stored : Touches fd s.epi (s.epi.modify fd ({ · with cb := cb, sk := sk })) :=
    .modify linked _ fun _ => ⟨rfl, rfl, rfl, rfl⟩
  rcases reads with ⟨closed, reads⟩ | ⟨alive, parsed, parses, reads⟩
  · rw [reads] at returned
    cases returned
    exact ⟨stored, fun kept => absurd rfl kept⟩
  · have full : cb.recvlen = pageSize ↔ Fills pageSize s fd read := by
      have length := filled.recvlen
      rw [List.length_append] at length
      unfold Fills State.room
      omega
    have head := queueIfFull_etinHead ⟨pageSize, pageSize⟩ stored.linked fd fd
    simp only [Epi.modify_same, full, true_implies, true_and] at head
    obtain ⟨needPollin, slot⟩ := queueIfFull_same ⟨pageSize, pageSize⟩
      (s.epi.modify fd ({ · with cb := cb, sk := sk })) fd
    have kept : ∀ cb', Touches fd s.epi ((queueIfFull ⟨pageSize, pageSize⟩
        (s.epi.modify fd ({ · with cb := cb, sk := sk })) fd).modify fd ({ · with cb := cb' })) := by
      intro cb'
      have queued := stored.trans (.queueIfFull ⟨pageSize, pageSize⟩ stored.linked (.inl (by simpa using remote)))
      exact queued.trans (.modify queued.linked _ fun _ => ⟨rfl, rfl, rfl, rfl⟩)
    have returns := parses.returns (by simp only; omega) le_rfl bounded
    rw [reads] at returned
    obtain ⟨cb', world', stop⟩ := parsed
    cases stop with
    | through tmp cnt =>
        cases returned
        have counted : 0 ≤ ret := returns.1
        have survives := parses.survives rfl
        rw [Nat.cast_zero, filled.content, filled.cached] at survives
        refine ⟨kept _, fun _ => .inr ⟨?_, again (by omega), ⟨alive, survives⟩, ?_, ?_⟩⟩
        · simp only [Epi.modify_same, slot]
          exact remote
        · intro fills closing
          exact head.mpr (.inr ⟨fills, closing⟩)
        · intro member
          rcases head.mp member with ⟨_, fills⟩ | ⟨fills, _⟩
          · exact fills
          · exact fills
    | closed cnt =>
        cases returned
        exact ⟨(kept _).trans (.release (kept _).linked), fun _ => .inl (by rw [Epi.release_same])⟩
    | failed =>
        cases returned
        exact ⟨kept _, fun kept => absurd rfl kept⟩
    | exited => cases returned

end Recv

/-! ## The parent -/

namespace State

/-- The events that are not handled yet. -/
def evs (s : State) : List Int :=
  match s.phase with
  | .sendQueue evs | .events evs => evs
  | _ => []

theorem current_mem {s : State} {fd : Int} (current : s.current = some fd) :
    (∃ rest, s.phase = .reread (fd :: rest)) ∨
      (∃ evs, s.phase = .events (fd :: evs)) ∧ ¬ s.Skips fd ∧ (s.epi.fds fd).type ≠ .pipe := by
  unfold State.current at current
  split at current
  · rename_i head rest phase
    cases current
    exact .inl ⟨rest, phase⟩
  · rename_i head evs phase
    split at current
    · cases current
    · rename_i handled
      cases current
      exact .inr ⟨⟨evs, phase⟩, not_or.mp handled⟩
  · cases current

@[simp] theorem doDelConn_phase (s : State) (fd : Int) : (s.doDelConn fd).phase = s.phase := by
  unfold doDelConn
  split <;> rfl

@[simp] theorem doDelConn_sockets (s : State) (fd : Int) :
    (s.doDelConn fd).sockets = s.sockets := by
  unfold doDelConn
  split <;> rfl

private theorem doDelConn_unused (s : State) (fd : Int) :
    ((s.doDelConn fd).epi.fds fd).type = .unused := by
  unfold doDelConn
  split
  · assumption
  · rw [Epi.release_same]

private theorem doDelConn_touches {s : State} (linked : s.epi.Linked) (fd : Int) :
    Touches fd s.epi (s.doDelConn fd).epi := by
  unfold doDelConn
  split
  · exact .refl fd linked
  · exact .release linked

end State

variable {World : Type*} {pageSize : Nat} {s s' : State} {fd : Int}

/-- The table is linked, its connections can be read, and the walk of the queue has only
queued descriptors before it. -/
structure Sound (pageSize : Nat) (s : State) : Prop where
  linked : s.epi.Linked
  kind : ∀ fd, (s.epi.fds fd).type ∈ [.unused, .listen, .pipe, .remote]
  readable : ∀ fd, (s.epi.fds fd).type = .remote → Readable pageSize (s.epi.fds fd)
  walk : ∀ rest, s.phase = .reread rest → rest.Nodup ∧ ∀ fd ∈ rest, fd ∈ s.epi.etinHead

theorem sound_init (pageSize : Nat) : Sound pageSize init where
  linked := Epi.linked_netInit
  kind := by simp [init, netInit, FdInfo.zero]
  readable := by simp [init, netInit, FdInfo.zero]
  walk := by simp [init]

namespace Sound

/-- Only the slot of `fd` changes, to one that can be read if it is a connection. -/
theorem touch (sound : Sound pageSize s) (touches : Touches fd s.epi s'.epi)
    (kind : (s'.epi.fds fd).type ∈ [.unused, .listen, .pipe, .remote])
    (readable : (s'.epi.fds fd).type = .remote → Readable pageSize (s'.epi.fds fd))
    (walk : ∀ rest, s'.phase = .reread rest →
      rest.Nodup ∧ ∀ fd ∈ rest, fd ∈ s'.epi.etinHead) : Sound pageSize s' where
  linked := touches.linked
  kind := by
    intro other
    by_cases here : other = fd
    · exact here ▸ kind
    · rw [touches.others other here]
      exact sound.kind other
  readable := by
    intro other
    by_cases here : other = fd
    · exact here ▸ readable
    · rw [touches.others other here]
      exact sound.readable other
  walk := walk

theorem goTo (sound : Sound pageSize s) (epi : s'.epi = s.epi)
    (walk : ∀ rest, s'.phase = .reread rest →
      rest.Nodup ∧ ∀ fd ∈ rest, fd ∈ s.epi.etinHead) : Sound pageSize s' :=
  ⟨epi ▸ sound.linked, epi ▸ sound.kind, epi ▸ sound.readable, epi ▸ walk⟩

theorem doDelConn (sound : Sound pageSize s) (fd : Int)
    (away : ∀ rest, s.phase ≠ .reread rest) : Sound pageSize (s.doDelConn fd) := by
  have unused := s.doDelConn_unused fd
  refine sound.touch (State.doDelConn_touches sound.linked fd) (by simp [unused]) (by simp [unused])
    fun rest phase => ?_
  rw [State.doDelConn_phase] at phase
  exact absurd phase (away rest)

private theorem current_kind (sound : Sound pageSize s) (current : s.current = some fd) :
    (s.epi.fds fd).type = .remote ∨ (s.epi.fds fd).type = .listen := by
  rcases State.current_mem current with ⟨rest, phase⟩ | ⟨_, handled, notPipe⟩
  · have queued := (sound.walk _ phase).2 fd (by simp)
    exact sound.linked.kind fd ((sound.linked.queued fd).mp queued)
  · have used : (s.epi.fds fd).type ≠ .unused := fun unused => handled (.inr (.inr unused))
    have kind := sound.kind fd
    simp only [List.mem_cons, List.not_mem_nil, or_false, used, notPipe, false_or] at kind
    exact kind.symm

/-- The walk goes on to queued descriptors when the queue changes at the current one only. -/
theorem walk_next (sound : Sound pageSize s) (current : s.current = some fd) {e : Epi}
    (head : ∀ other, other ≠ fd → (other ∈ e.etinHead ↔ other ∈ s.epi.etinHead)) :
    ∀ rest, s.phase.next = .reread rest → rest.Nodup ∧ ∀ other ∈ rest, other ∈ e.etinHead := by
  intro rest next
  rcases State.current_mem current with ⟨walk, phase⟩ | ⟨⟨evs, phase⟩, _⟩
  · rw [phase] at next
    cases next
    obtain ⟨unique, queued⟩ := sound.walk _ phase
    obtain ⟨absent, unique⟩ := List.nodup_cons.mp unique
    refine ⟨unique, fun other member => ?_⟩
    have apart : other ≠ fd := fun same => absent (same ▸ member)
    exact (head other apart).mpr (queued other (List.mem_cons_of_mem _ member))
  · rw [phase] at next
    cases next

end Sound

/-- A call of `net_recv` ends the process, or it takes what it read and goes on. -/
theorem recv_cases (sound : Sound pageSize s) (remote : (s.epi.fds fd).type = .remote)
    (read : NetRead World)
    (answers : Answers (s.sockets fd) (s.room pageSize fd) read.result) :
    let s' := s.recv pageSize fd read
    s'.phase = .exited ∨
      s'.phase = s.phase.next ∧
        s'.sockets =
          Function.update s.sockets fd ((s.sockets fd).take read.result.chunk.length) ∧
        Touches fd s.epi s'.epi ∧
        ((s'.epi.fds fd).type = .unused ∨ Stays pageSize s fd read s'.epi) := by
  intro s'
  have left := @netRecv_left World pageSize s fd sound.linked remote (sound.readable fd remote) read
    answers.possible
  subst s'
  unfold State.recv
  simp only
  split
  · rename_i e world ret returned
    obtain ⟨touches, fate⟩ := left returned
    right
    split
    · refine ⟨by simp [State.pop, State.setSocket], by simp [State.pop, State.setSocket], ?_, .inl ?_⟩
      · exact touches.trans
          (State.doDelConn_touches (s := { s.setSocket fd _ with epi := e }) touches.linked fd)
      · exact State.doDelConn_unused _ fd
    · exact ⟨rfl, rfl, touches, fate ‹_›⟩
  · exact .inl rfl

/-- Everything that a connection of the table holds is announced: by a report that is
pending or in the batch, or in the queue. -/
def Announced (s : State) : Prop :=
  ∀ fd, (s.epi.fds fd).type = .remote →
    (s.sockets fd).Announced (fd ∈ s.evs ∨ fd ∈ s.epi.etinHead)

theorem Announced.touch (announced : Announced s) (touches : Touches fd s.epi s'.epi)
    (sockets : ∀ other, other ≠ fd → s'.sockets other = s.sockets other)
    (evs : ∀ other, other ≠ fd → other ∈ s.evs → other ∈ s'.evs)
    (here : (s'.epi.fds fd).type = .remote →
      (s'.sockets fd).Announced (fd ∈ s'.evs ∨ fd ∈ s'.epi.etinHead)) : Announced s' := by
  intro other remote
  by_cases same : other = fd
  · subst same
    exact here remote
  · rw [touches.others other same] at remote
    rw [sockets other same]
    exact (announced other remote).mono
      (Or.imp (evs other same) (touches.head other same).mpr)

theorem Announced.doDelConn (announced : Announced s) (linked : s.epi.Linked) (fd : Int) :
    Announced (s.doDelConn fd) := by
  refine announced.touch (State.doDelConn_touches linked fd) (by simp)
    (by simp [State.evs]) fun remote => ?_
  rw [State.doDelConn_unused] at remote
  cases remote

/-! ## The calls of `accept` -/

/-- The calls of `do_open_conn` that return a connection, and the last one. -/
theorem acceptAll_cases (motive : State → Prop) {fd : Int} {error : EventLoop.AcceptError}
    (opened : ∀ s conn, motive s → s.Free conn.newfd → motive (s.doOpenConn fd conn))
    {accepted : List Accepted} {s : State} (initial : motive s) :
    ∃ s', motive s' ∧ (s.acceptAll fd error accepted = s'.acceptError fd error ∨
      s.acceptAll fd error accepted = s' ∧ ∃ conn ∈ accepted, conn.newfd ≤ 0) := by
  induction accepted generalizing s with
  | nil => exact ⟨s, initial, .inl rfl⟩
  | cons conn rest ih =>
      have later : ∀ {s : State}, motive s → ∃ s', motive s' ∧
          (s.acceptAll fd error rest = s'.acceptError fd error ∨
            s.acceptAll fd error rest = s' ∧ ∃ last ∈ conn :: rest, last.newfd ≤ 0) := by
        intro s holds
        obtain ⟨s', holds', ends⟩ := ih holds
        refine ⟨s', holds', ends.imp_right fun ⟨same, stop, member, last⟩ => ?_⟩
        exact ⟨same, stop, List.mem_cons_of_mem _ member, last⟩
      unfold State.acceptAll
      split
      · rename_i free
        split
        · exact later (opened s conn initial free)
        · rename_i last
          exact ⟨_, opened s conn initial free, .inr ⟨rfl, conn, by simp, by omega⟩⟩
      · exact later initial

theorem doOpenConn_slot (fd : Int) (linked : s.epi.Linked) {conn : Accepted} (free : s.Free conn.newfd)
    (positive : 0 < pageSize) :
    let s' := s.doOpenConn fd conn
    Touches conn.newfd s.epi s'.epi ∧
      ((s'.epi.fds conn.newfd).type = .unused ∨ (s'.epi.fds conn.newfd).type = .remote ∧
        Readable pageSize (s'.epi.fds conn.newfd)) ∧
      conn.newfd ∉ s'.epi.etinHead ∧ s'.phase = s.phase ∧
      s'.sockets = Function.update s.sockets conn.newfd (.register conn.unread conn.fin) := by
  intro s'
  have added : Touches conn.newfd s.epi (s.addRemote fd conn).epi := by
    have registered := Touches.doAddConn linked free.1 free.2 .remote (some conn.peer)
      (s.epi.fds fd).bcElem
    exact registered.trans (.modify registered.linked
      (fun slot => { slot with sk := { slot.sk with lastTm := conn.now } })
      fun _ => ⟨rfl, rfl, rfl, rfl⟩)
  subst s'
  unfold State.doOpenConn
  split
  · refine ⟨added, .inr ⟨?_, ?_, ?_⟩, linked.absent free.1, rfl, rfl⟩
    · simp [State.addRemote, State.setSocket, Epi.doAddConn]
    · simp [State.addRemote, State.setSocket, Epi.doAddConn]
    · simpa [State.addRemote, State.setSocket, Epi.doAddConn, FdInfo.zero, ConnBuf.zero,
        ConnBuf.content] using positive
  · have deleted := State.doDelConn_touches added.linked conn.newfd
    have unused := (s.addRemote fd conn).doDelConn_unused conn.newfd
    refine ⟨added.trans deleted, .inl unused, deleted.linked.absent unused, ?_, ?_⟩
    · rw [State.doDelConn_phase]
      rfl
    · rw [State.doDelConn_sockets]
      rfl

/-- The parent between two calls of `accept` on the listening socket `fd`. -/
structure Opened (pageSize : Nat) (fd : Int) (before s : State) : Prop where
  sound : Sound pageSize s
  phase : s.phase = before.phase
  listens : (s.epi.fds fd).type = .listen
  head : ∀ other, other ∈ s.epi.etinHead ↔ other ∈ before.epi.etinHead
  announced : Announced before → Announced s

theorem Opened.doOpenConn {before : State} (positive : 0 < pageSize)
    (opened : Opened pageSize fd before s) {conn : Accepted} (free : s.Free conn.newfd) :
    Opened pageSize fd before (s.doOpenConn fd conn) := by
  obtain ⟨sound, phase, listens, head, announced⟩ := opened
  obtain ⟨touches, slot, absent, kept, sockets⟩ :=
    doOpenConn_slot fd sound.linked free positive
  have queue : ∀ other, other ∈ (s.doOpenConn fd conn).epi.etinHead ↔ other ∈ s.epi.etinHead := by
    intro other
    by_cases here : other = conn.newfd
    · subst here
      exact iff_of_false absent (sound.linked.absent free.1)
    · exact touches.head other here
  have apart : fd ≠ conn.newfd := by
    rintro rfl
    rw [free.1] at listens
    cases listens
  constructor
  · refine sound.touch touches ?_ ?_ ?_
    · rcases slot with unused | ⟨remote, _⟩
      · simp [unused]
      · simp [remote]
    · rcases slot with unused | ⟨_, readable⟩
      · simp [unused]
      · exact fun _ => readable
    · intro rest walk
      obtain ⟨unique, queued⟩ := sound.walk rest (kept ▸ walk)
      exact ⟨unique, fun other member => (queue other).mpr (queued other member)⟩
  · exact kept.trans phase
  · rw [touches.others fd apart]
    exact listens
  · exact fun other => (queue other).trans (head other)
  · intro before
    refine (announced before).touch touches ?_ ?_ ?_
    · intro other far
      rw [sockets, Function.update_of_ne far]
    · intro other _ member
      unfold State.evs at member ⊢
      rwa [kept]
    · intro _
      rw [sockets, Function.update_self]
      exact EdgeSocket.announced_register _ _ _

theorem accept_opened (positive : 0 < pageSize) (sound : Sound pageSize s)
    (listens : (s.epi.fds fd).type = .listen) (error : EventLoop.AcceptError)
    (accepted : List Accepted) :
    ∃ mid, Opened pageSize fd s mid ∧
      (s.acceptAll fd error accepted = mid.acceptError fd error ∨
        s.acceptAll fd error accepted = mid ∧ ∃ conn ∈ accepted, conn.newfd ≤ 0) :=
  acceptAll_cases (Opened pageSize fd s) (fun _ _ opened free => opened.doOpenConn positive free)
    ⟨sound, rfl, listens, fun _ => Iff.rfl, id⟩

theorem acceptError_keeps (linked : s.epi.Linked) (listens : (s.epi.fds fd).type = .listen)
    (error : EventLoop.AcceptError) :
    let s' := s.acceptError fd error
    Touches fd s.epi s'.epi ∧ (s'.epi.fds fd).type = .listen ∧ s'.phase = s.phase ∧
      s'.sockets = s.sockets := by
  cases error with
  | tooMany =>
      obtain ⟨needPollin, slot⟩ := s.epi.addToEtinQueue_same fd
      refine ⟨.addToEtinQueue linked (.inr listens), ?_, rfl, rfl⟩
      simp only [State.acceptError, slot]
      exact listens
  | again =>
      refine ⟨.delFromEtinQueue linked, ?_, rfl, rfl⟩
      simp only [State.acceptError, Epi.delFromEtinQueue_same]
      exact listens
  | other => exact ⟨.refl fd linked, listens, rfl, rfl⟩

/-! ## The steps -/

/-- What a step does. -/
inductive Steps (pageSize : Nat) (s : State) : Action World → State → Prop
  | none (action : Action World) : Steps pageSize s action s
  | peer (action : Action World) (fd : Int) {socket : EdgeSocket UInt8}
      (report : socket.report = true) : Steps pageSize s action (s.setSocket fd socket)
  | register {fd : Int} {type : FdType} (worker : Nat) (free : s.Free fd)
      (kind : type = .listen ∨ type = .pipe) (active : s.phase = .idle ∨ s.handles) :
      Steps pageSize s (.register fd type worker)
        { s with epi := s.epi.doAddConn fd type none (some worker) }
  | delete (fd : Int) (active : s.handles) : Steps pageSize s (.delete fd) (s.doDelConn fd)
  | fin {id : UInt32} {fd : Int} {evs : List Int} (phase : s.phase = .sendQueue evs)
      (remote : (s.epi.fds fd).type = .remote) (same : id = (s.epi.fds fd).id) :
      Steps pageSize s (.finBlock id fd) { s with epi := s.epi.addToCloseQueue fd }
  | wait {evs : List Int} (phase : s.phase = .waiting) :
      Steps pageSize s (.epollWait evs) (s.epollWait evs)
  | recv {fd : Int} {read : NetRead World} (current : s.current = some fd)
      (remote : (s.epi.fds fd).type = .remote)
      (answers : Answers (s.sockets fd) (s.room pageSize fd) read.result) :
      Steps pageSize s (.recv read) (s.recv pageSize fd (NetRead.pushed pageSize read))
  | accept {fd : Int} (accepted : List Accepted) (error : EventLoop.AcceptError)
      (current : s.current = some fd) (listens : (s.epi.fds fd).type = .listen) :
      Steps pageSize s (.accept accepted error) (s.acceptAll fd error accepted).pop
  | close (phase : s.phase = .idle) :
      Steps pageSize s .advance
        { s.iterateCloseQueue with phase := .reread s.iterateCloseQueue.epi.etinHead }
  | sleep (phase : s.phase = .reread []) : Steps pageSize s .advance { s with phase := .waiting }
  | handle {evs : List Int} (phase : s.phase = .sendQueue evs) :
      Steps pageSize s .advance { s with phase := .events evs }
  | finished (phase : s.phase = .events []) :
      Steps pageSize s .advance { s with phase := .idle }
  | skip {fd : Int} {evs : List Int} (phase : s.phase = .events (fd :: evs))
      (skipped : s.Skips fd ∨ (s.epi.fds fd).type = .pipe) :
      Steps pageSize s .advance { s with phase := .events evs }

private theorem advance_steps : Steps pageSize s (.advance : Action World) s.advance := by
  unfold State.advance
  split
  · exact .close ‹_›
  · exact .sleep ‹_›
  · exact .handle ‹_›
  · exact .finished ‹_›
  · rename_i fd evs phase
    split
    · rename_i passed
      have pops : s.pop = { s with phase := .events evs } := by
        unfold State.pop
        rw [phase]
        rfl
      rw [pops]
      refine .skip phase ?_
      unfold State.current at passed
      rw [phase] at passed
      by_contra handled
      simp [handled] at passed
    · exact .none _
  · exact .none _

theorem step_steps (sound : Sound pageSize s) (action : Action World) :
    Steps pageSize s action (step pageSize s action) := by
  cases action with
  | arrive fd bytes =>
      simp only [step]
      split
      · exact .peer _ fd rfl
      · exact .none _
  | finish fd =>
      simp only [step]
      split
      · exact .peer _ fd rfl
      · exact .none _
  | register fd type worker =>
      simp only [step]
      split
      · rename_i possible
        exact .register worker possible.2.1 possible.2.2 possible.1
      · exact .none _
  | delete fd =>
      simp only [step]
      split
      · exact .delete fd ‹_›
      · exact .none _
  | finBlock id fd =>
      simp only [step, State.scheduleFin]
      split
      · split
        · exact .none _
        · split
          · exact .none _
          · rename_i matching
            simp only [not_or, not_not] at matching
            exact .fin ‹_› matching.1 matching.2
      · exact .none _
  | epollWait evs =>
      simp only [step]
      split
      · rename_i possible
        exact .wait possible.1
      · exact .none _
  | recv read =>
      simp only [step]
      split
      · rename_i fd current
        split
        · rename_i possible
          exact .recv current ((sound.current_kind current).resolve_right possible.1) possible.2
        · exact .none _
      · exact .none _
  | accept accepted error =>
      simp only [step]
      split
      · rename_i fd current
        split
        · exact .accept accepted error current ‹_›
        · exact .none _
      · exact .none _
  | advance => exact advance_steps

/-! ## Soundness -/

namespace Sound

theorem iterateCloseQueue (sound : Sound pageSize s) (phase : s.phase = .idle) :
    Sound pageSize s.iterateCloseQueue ∧ s.iterateCloseQueue.phase = .idle ∧
      (Announced s → Announced s.iterateCloseQueue) := by
  refine run_preserves (fun s' => Sound pageSize s' ∧ s'.phase = .idle ∧
    (Announced s → Announced s')) ?_ ⟨sound, phase, id⟩ s.epi.closeHead
  rintro s' fd ⟨sound, phase, announced⟩
  refine ⟨sound.doDelConn fd (by simp [phase]), by rw [State.doDelConn_phase, phase], ?_⟩
  exact fun before => (announced before).doDelConn sound.linked fd

theorem visit (sound : Sound pageSize s) (current : s.current = some fd) {mid : State}
    (before : Sound pageSize mid) (same : ∀ other, other ∈ mid.epi.etinHead ↔ other ∈ s.epi.etinHead)
    (touches : Touches fd mid.epi s'.epi) (phase : s'.phase = s.phase.next)
    (kind : (s'.epi.fds fd).type ∈ [.unused, .listen, .pipe, .remote])
    (readable : (s'.epi.fds fd).type = .remote → Readable pageSize (s'.epi.fds fd)) :
    Sound pageSize s' := by
  refine before.touch touches kind readable fun rest walk => ?_
  exact sound.walk_next current (fun other apart => (touches.head other apart).trans (same other))
    rest (phase ▸ walk)

theorem handles_away (active : s.phase = .idle ∨ s.handles) (rest : List Int) :
    s.phase ≠ .reread rest := by
  intro phase
  simp [State.handles, phase] at active

theorem step (positive : 0 < pageSize) (sound : Sound pageSize s) (action : Action World)
    (live : (step pageSize s action).phase ≠ .exited) :
    Sound pageSize (step pageSize s action) := by
  have steps := step_steps sound action
  generalize EdgeTriggered.step pageSize s action = s' at steps live ⊢
  cases steps with
  | none => exact sound
  | peer => exact sound.goTo rfl sound.walk
  | @register fd type worker free kind active =>
      have touches := Touches.doAddConn sound.linked free.1 free.2 type none (some worker)
      have slot : ((s.epi.doAddConn fd type none (some worker)).fds fd).type = type := by
        simp [Epi.doAddConn]
      refine sound.touch touches ?_ ?_ fun rest walk => absurd walk (handles_away active rest)
      · rcases kind with rfl | rfl
        · simp [slot]
        · simp [slot]
      · rcases kind with rfl | rfl
        · simp [slot]
        · simp [slot]
  | delete fd active => exact sound.doDelConn fd (handles_away (.inr active))
  | @fin _ fd _ phase remote _ =>
      have used : (s.epi.fds fd).type ≠ .unused := by simp [remote]
      have touches := Touches.addToCloseQueue sound.linked used
      have readable := sound.readable fd remote
      refine sound.touch touches ?_ ?_ (by simp [phase])
      · simp [Epi.addToCloseQueue_same, remote]
      · rw [Epi.addToCloseQueue_same]
        exact fun _ => ⟨readable.notPipe, readable.room⟩
  | wait phase => exact sound.goTo rfl (by simp [State.epollWait])
  | @recv fd read current remote answers =>
      rcases recv_cases sound remote (NetRead.pushed pageSize read) answers with
        exited | ⟨phase, _, touches, fate⟩
      · exact absurd exited live
      refine sound.visit current sound (fun _ => Iff.rfl) touches phase ?_ ?_
      · rcases fate with unused | stays
        · simp [unused]
        · simp [stays.remote]
      · rcases fate with unused | stays
        · simp [unused]
        · exact fun _ => stays.readable
  | @accept fd accepted error current listens =>
      obtain ⟨mid, opened, ends⟩ := accept_opened positive sound listens error accepted
      obtain ⟨touches, kind, phase, _⟩ := acceptError_keeps opened.sound.linked opened.listens error
      rcases ends with same | ⟨same, _⟩
      · rw [same]
        refine sound.visit current opened.sound opened.head touches ?_ ?_ ?_
        · exact congrArg Phase.next (phase.trans opened.phase)
        · simp [State.pop, kind]
        · simp [State.pop, kind]
      · rw [same]
        refine sound.visit current opened.sound opened.head (.refl fd opened.sound.linked) ?_ ?_ ?_
        · exact congrArg Phase.next opened.phase
        · simp [State.pop, opened.listens]
        · simp [State.pop, opened.listens]
  | close phase =>
      obtain ⟨closed, idle, _⟩ := sound.iterateCloseQueue phase
      refine closed.goTo rfl fun rest walk => ?_
      cases walk
      exact ⟨closed.linked.unique, fun _ member => member⟩
  | sleep | handle | finished | skip => exact sound.goTo rfl (by simp)

end Sound

end MpNet.Net.EdgeTriggered
