import MpNet.Net.FdTable

/-!
# What the table operations preserve

Each operation changes one slot. `maxfd` bounds the used slots, and the close queue
holds the used slots whose `CN_NEED_CLOSE` bit is set.
-/

set_option autoImplicit false

namespace MpNet.Net.Epi

open Library

variable {e : Epi} {fd other : Int}

/-! ## One slot -/

@[simp] theorem doAddConn_other {type : FdType} {peer : Option (UInt16 × UInt32)}
    {bcElem : Option Nat} (apart : other ≠ fd) :
    (e.doAddConn fd type peer bcElem).fds other = e.fds other := by simp [doAddConn, apart]

theorem release_same :
    (e.release fd).fds fd =
      { e.fds fd with
        needPollin := false
        needClose := false
        cb := freeCb (e.fds fd).cb
        type := .unused } := by
  unfold release
  simp only
  split <;> simp [delFromCloseQueue_same, delFromEtinQueue_same, modify]

theorem release_other (apart : other ≠ fd) : (e.release fd).fds other = e.fds other := by
  unfold release
  simp only
  split <;>
    simp [modify, apart, delFromCloseQueue_other apart, delFromEtinQueue_other apart]

theorem addToCloseQueue_same :
    (e.addToCloseQueue fd).fds fd = { e.fds fd with needPollin := false, needClose := true } := by
  unfold addToCloseQueue
  simp only [delFromEtinQueue_same]
  split
  · simp [modify, delFromEtinQueue_same]
  · rename_i queued
    have queued : (e.fds fd).needClose = true := by simpa using queued
    rw [delFromEtinQueue_same, ← queued]

theorem addToCloseQueue_other (apart : other ≠ fd) :
    (e.addToCloseQueue fd).fds other = e.fds other := by
  unfold addToCloseQueue
  simp only
  split <;> simp [modify, apart, delFromEtinQueue_other apart]

/-! ## The table -/

structure Tidy (e : Epi) : Prop where
  bounded : ∀ fd, (e.fds fd).type ≠ .unused → 0 ≤ fd ∧ fd ≤ e.maxfd
  closing : ∀ fd, fd ∈ e.closeHead ↔ (e.fds fd).needClose = true
  used : ∀ fd, (e.fds fd).needClose = true → (e.fds fd).type ≠ .unused

theorem tidy_netInit : netInit.Tidy where
  bounded := by simp [netInit, FdInfo.zero]
  closing := by simp [netInit, FdInfo.zero]
  used := by simp [netInit, FdInfo.zero]

theorem Tidy.modify (tidy : e.Tidy) {change : FdInfo → FdInfo}
    (type : (change (e.fds fd)).type = (e.fds fd).type)
    (needClose : (change (e.fds fd)).needClose = (e.fds fd).needClose) :
    (e.modify fd change).Tidy := by
  have same : ∀ other, ((e.modify fd change).fds other).type = (e.fds other).type ∧
      ((e.modify fd change).fds other).needClose = (e.fds other).needClose := by
    intro other
    by_cases here : other = fd
    · subst here
      simp [type, needClose]
    · simp [modify_other _ here]
  constructor
  · intro other used
    exact tidy.bounded other ((same other).1 ▸ used)
  · intro other
    rw [(same other).2]
    exact tidy.closing other
  · intro other closing
    rw [(same other).1]
    exact tidy.used other ((same other).2 ▸ closing)

theorem Tidy.doAddConn (tidy : e.Tidy) (unused : (e.fds fd).type = .unused) (nonneg : 0 ≤ fd)
    {type : FdType} {peer : Option (UInt16 × UInt32)} {bcElem : Option Nat} :
    (e.doAddConn fd type peer bcElem).Tidy := by
  have absent : fd ∉ e.closeHead := fun member =>
    tidy.used fd ((tidy.closing fd).mp member) unused
  constructor
  · intro other used
    by_cases here : other = fd
    · subst here
      simp only [Epi.doAddConn]
      split <;> omega
    · rw [doAddConn_other here] at used
      have bound := tidy.bounded other used
      simp only [Epi.doAddConn]
      split <;> omega
  · intro other
    by_cases here : other = fd
    · subst here
      simp [Epi.doAddConn, FdInfo.zero, absent]
    · rw [doAddConn_other here]
      exact tidy.closing other
  · intro other closing
    by_cases here : other = fd
    · subst here
      simp [Epi.doAddConn, FdInfo.zero] at closing
    · rw [doAddConn_other here] at closing ⊢
      exact tidy.used other closing

@[simp] theorem release_seq : (e.release fd).seq = e.seq := by
  unfold release delFromCloseQueue delFromEtinQueue Epi.modify
  simp only
  split <;> split <;> split <;> rfl

@[simp] theorem addToCloseQueue_seq : (e.addToCloseQueue fd).seq = e.seq := by
  unfold addToCloseQueue delFromEtinQueue Epi.modify
  simp only
  split <;> split <;> rfl

theorem addToCloseQueue_maxfd : (e.addToCloseQueue fd).maxfd = e.maxfd := by
  unfold addToCloseQueue delFromEtinQueue Epi.modify
  simp only
  split <;> split <;> rfl

private theorem addToCloseQueue_closeHead (tidy : e.Tidy) :
    other ∈ (e.addToCloseQueue fd).closeHead ↔ other ∈ e.closeHead ∨ other = fd := by
  unfold addToCloseQueue
  simp only [delFromEtinQueue_same]
  split
  · simp
  · rename_i queued
    have member : fd ∈ e.closeHead := (tidy.closing fd).mpr (by simpa using queued)
    simp only [delFromEtinQueue_closeHead]
    constructor
    · exact .inl
    · rintro (old | rfl)
      · exact old
      · exact member

theorem Tidy.addToCloseQueue (tidy : e.Tidy) (used : (e.fds fd).type ≠ .unused) :
    (e.addToCloseQueue fd).Tidy := by
  constructor
  · intro other other_used
    rw [addToCloseQueue_maxfd]
    by_cases here : other = fd
    · subst here
      exact tidy.bounded other used
    · rw [addToCloseQueue_other here] at other_used
      exact tidy.bounded other other_used
  · intro other
    rw [addToCloseQueue_closeHead tidy]
    by_cases here : other = fd
    · subst here
      simp [addToCloseQueue_same]
    · simpa [addToCloseQueue_other here, here] using tidy.closing other
  · intro other closing
    by_cases here : other = fd
    · subst here
      simpa [addToCloseQueue_same] using used
    · rw [addToCloseQueue_other here] at closing ⊢
      exact tidy.used other closing

theorem le_usedBelow {fds : Int → FdInfo} {bound : Nat} (nonneg : 0 ≤ other)
    (below : other < bound) (used : (fds other).type ≠ .unused) : other ≤ usedBelow fds bound := by
  induction bound with
  | zero => omega
  | succ bound ih =>
      unfold usedBelow
      split
      · omega
      · rename_i free
        have apart : other ≠ bound := fun same => used (by rw [same]; simpa using free)
        exact ih (by omega)

theorem release_maxfd_bound (bounded : 0 ≤ other ∧ other ≤ e.maxfd) (apart : other ≠ fd)
    (used : (e.fds other).type ≠ .unused) : other ≤ (e.release fd).maxfd := by
  have kept : ((e.delFromEtinQueue fd).delFromCloseQueue fd).maxfd = e.maxfd := by
    unfold delFromCloseQueue delFromEtinQueue Epi.modify
    split <;> split <;> rfl
  unfold release
  simp only
  split
  · rename_i top
    have top : e.maxfd = fd := kept ▸ top
    refine le_usedBelow bounded.1 (by omega) ?_
    simpa [modify_other _ apart, delFromCloseQueue_other apart, delFromEtinQueue_other apart]
      using used
  · change other ≤ ((e.delFromEtinQueue fd).delFromCloseQueue fd).maxfd
    rw [kept]
    exact bounded.2

private theorem release_closeHead (tidy : e.Tidy) :
    other ∈ (e.release fd).closeHead ↔ other ∈ e.closeHead ∧ other ≠ fd := by
  have kept : (e.release fd).closeHead =
      ((e.delFromEtinQueue fd).delFromCloseQueue fd).closeHead := by
    unfold release Epi.modify
    simp only
    split <;> rfl
  rw [kept]
  unfold delFromCloseQueue
  rw [delFromEtinQueue_same]
  split
  · simp
  · rename_i free
    have absent : fd ∉ e.closeHead := fun member => free ((tidy.closing fd).mp member)
    rw [delFromEtinQueue_closeHead]
    exact ⟨fun member => ⟨member, fun same => absent (same ▸ member)⟩, And.left⟩

theorem Tidy.release (tidy : e.Tidy) : (e.release fd).Tidy := by
  constructor
  · intro other used
    by_cases here : other = fd
    · subst here
      simp [release_same] at used
    · rw [release_other here] at used
      have bound := tidy.bounded other used
      exact ⟨bound.1, release_maxfd_bound bound here used⟩
  · intro other
    rw [release_closeHead tidy]
    by_cases here : other = fd
    · subst here
      simp [release_same]
    · simpa [release_other here, here] using tidy.closing other
  · intro other closing
    by_cases here : other = fd
    · subst here
      simp [release_same] at closing
    · rw [release_other here] at closing ⊢
      exact tidy.used other closing

/-! ## The etin queue -/

/-- The queue holds the slots whose `CN_NEED_POLLIN` bit is set, and only sockets that are
read until they are empty. -/
structure Linked (e : Epi) : Prop where
  tidy : e.Tidy
  sockfd : ∀ fd, (e.fds fd).type ≠ .unused → (e.fds fd).sockfd = fd
  unique : e.etinHead.Nodup
  queued : ∀ fd, fd ∈ e.etinHead ↔ (e.fds fd).needPollin = true
  kind : ∀ fd, (e.fds fd).needPollin = true → (e.fds fd).type = .remote ∨ (e.fds fd).type = .listen

theorem linked_netInit : netInit.Linked where
  tidy := tidy_netInit
  sockfd := by simp [netInit, FdInfo.zero]
  unique := by simp [netInit]
  queued := by simp [netInit, FdInfo.zero]
  kind := by simp [netInit, FdInfo.zero]

theorem Linked.absent (linked : e.Linked) (unused : (e.fds fd).type = .unused) :
    fd ∉ e.etinHead := by
  intro member
  have kind := linked.kind fd ((linked.queued fd).mp member)
  simp [unused] at kind

private theorem addToEtinQueue_slot (e : Epi) (fd : Int) :
    (e.addToEtinQueue fd).fds fd =
      { e.fds fd with needPollin := (e.fds fd).needPollin || !(e.fds fd).needClose } := by
  unfold addToEtinQueue
  split
  · rename_i clear
    simp [Epi.modify, clear.1, clear.2]
  · rename_i shut
    have same : ((e.fds fd).needPollin || !(e.fds fd).needClose) = (e.fds fd).needPollin := by
      revert shut
      cases (e.fds fd).needPollin <;> simp
    rw [same]

theorem delFromEtinQueue_etinHead (linked : e.Linked) :
    other ∈ (e.delFromEtinQueue fd).etinHead ↔ other ∈ e.etinHead ∧ other ≠ fd := by
  unfold delFromEtinQueue
  split
  · simp
  · rename_i clear
    have absent : fd ∉ e.etinHead := fun member => clear ((linked.queued fd).mp member)
    exact ⟨fun member => ⟨member, fun same => absent (same ▸ member)⟩, And.left⟩

theorem addToEtinQueue_etinHead (linked : e.Linked) :
    other ∈ (e.addToEtinQueue fd).etinHead ↔
      other ∈ e.etinHead ∨ other = fd ∧ (e.fds fd).needClose = false := by
  unfold addToEtinQueue
  split
  · rename_i clear
    simp [clear.1]
  · rename_i shut
    constructor
    · exact .inl
    · rintro (old | ⟨rfl, closing⟩)
      · exact old
      · exact (linked.queued other).mpr (by simpa [closing] using shut)

theorem release_etinHead_eq (e : Epi) (fd : Int) :
    (e.release fd).etinHead = (e.delFromEtinQueue fd).etinHead := by
  unfold release delFromCloseQueue Epi.modify
  simp only
  split <;> split <;> rfl

theorem addToCloseQueue_etinHead_eq (e : Epi) (fd : Int) :
    (e.addToCloseQueue fd).etinHead = (e.delFromEtinQueue fd).etinHead := by
  unfold addToCloseQueue Epi.modify
  simp only
  split <;> rfl

theorem release_etinHead (linked : e.Linked) :
    other ∈ (e.release fd).etinHead ↔ other ∈ e.etinHead ∧ other ≠ fd := by
  rw [release_etinHead_eq]
  exact delFromEtinQueue_etinHead linked

theorem addToCloseQueue_etinHead (linked : e.Linked) :
    other ∈ (e.addToCloseQueue fd).etinHead ↔ other ∈ e.etinHead ∧ other ≠ fd := by
  rw [addToCloseQueue_etinHead_eq]
  exact delFromEtinQueue_etinHead linked

private theorem delFromEtinQueue_unique (unique : e.etinHead.Nodup) :
    (e.delFromEtinQueue fd).etinHead.Nodup := by
  unfold delFromEtinQueue
  split
  · exact unique.filter _
  · exact unique

private theorem addToEtinQueue_unique (linked : e.Linked) :
    (e.addToEtinQueue fd).etinHead.Nodup := by
  unfold addToEtinQueue
  split
  · rename_i clear
    have absent : fd ∉ e.etinHead := fun member => clear.2 ((linked.queued fd).mp member)
    refine List.nodup_append.mpr ⟨linked.unique, by simp, ?_⟩
    intro other member added last same
    exact absent (List.mem_singleton.mp last ▸ same ▸ member)
  · exact linked.unique

/-- An operation on one slot keeps the queue linked. -/
theorem Linked.slot (linked : e.Linked) {e' : Epi} (fd : Int) (tidy : e'.Tidy)
    (others : ∀ other, other ≠ fd → e'.fds other = e.fds other)
    (sockfd : (e'.fds fd).type ≠ .unused → (e'.fds fd).sockfd = fd)
    (unique : e'.etinHead.Nodup)
    (head : ∀ other, other ≠ fd → (other ∈ e'.etinHead ↔ other ∈ e.etinHead))
    (queued : fd ∈ e'.etinHead ↔ (e'.fds fd).needPollin = true)
    (kind : (e'.fds fd).needPollin = true →
      (e'.fds fd).type = .remote ∨ (e'.fds fd).type = .listen) : e'.Linked where
  tidy := tidy
  sockfd := by
    intro other used
    by_cases here : other = fd
    · subst here
      exact sockfd used
    · rw [others other here] at used ⊢
      exact linked.sockfd other used
  unique := unique
  queued := by
    intro other
    by_cases here : other = fd
    · subst here
      exact queued
    · rw [others other here, head other here]
      exact linked.queued other
  kind := by
    intro other flagged
    by_cases here : other = fd
    · subst here
      exact kind flagged
    · rw [others other here] at flagged ⊢
      exact linked.kind other flagged

theorem Linked.modify (linked : e.Linked) {change : FdInfo → FdInfo}
    (same : ∀ slot, (change slot).type = slot.type ∧ (change slot).needClose = slot.needClose ∧
      (change slot).needPollin = slot.needPollin ∧ (change slot).sockfd = slot.sockfd) :
    (e.modify fd change).Linked := by
  obtain ⟨type, needClose, needPollin, sockfd⟩ := same (e.fds fd)
  refine linked.slot fd (linked.tidy.modify type needClose)
    (fun other apart => modify_other _ apart) ?_ linked.unique (fun other _ => Iff.rfl) ?_ ?_
  · rw [modify_same, type, sockfd]
    exact linked.sockfd fd
  · rw [modify_same, needPollin]
    exact linked.queued fd
  · rw [modify_same, needPollin, type]
    exact linked.kind fd

theorem Tidy.addToEtinQueue (tidy : e.Tidy) : (e.addToEtinQueue fd).Tidy := by
  have flagged : (e.modify fd ({ · with needPollin := true })).Tidy := tidy.modify rfl rfl
  unfold Epi.addToEtinQueue
  split
  · exact ⟨flagged.bounded, flagged.closing, flagged.used⟩
  · exact tidy

theorem Tidy.delFromEtinQueue (tidy : e.Tidy) : (e.delFromEtinQueue fd).Tidy := by
  have cleared : (e.modify fd ({ · with needPollin := false })).Tidy := tidy.modify rfl rfl
  unfold Epi.delFromEtinQueue
  split
  · exact ⟨cleared.bounded, cleared.closing, cleared.used⟩
  · exact tidy

theorem Linked.addToEtinQueue (linked : e.Linked)
    (kind : (e.fds fd).type = .remote ∨ (e.fds fd).type = .listen) :
    (e.addToEtinQueue fd).Linked := by
  refine linked.slot fd linked.tidy.addToEtinQueue
    (fun other apart => addToEtinQueue_other apart) ?_ (addToEtinQueue_unique linked) ?_ ?_ ?_
  · rw [addToEtinQueue_slot]
    exact linked.sockfd fd
  · intro other apart
    simp [addToEtinQueue_etinHead linked, apart]
  · simp [addToEtinQueue_etinHead linked, addToEtinQueue_slot, linked.queued]
  · rw [addToEtinQueue_slot]
    exact fun _ => kind

theorem Linked.delFromEtinQueue (linked : e.Linked) : (e.delFromEtinQueue fd).Linked := by
  refine linked.slot fd linked.tidy.delFromEtinQueue
    (fun other apart => delFromEtinQueue_other apart) ?_ (delFromEtinQueue_unique linked.unique)
    ?_ ?_ ?_
  · rw [delFromEtinQueue_same]
    exact linked.sockfd fd
  · intro other apart
    simp [delFromEtinQueue_etinHead linked, apart]
  · simp [delFromEtinQueue_etinHead linked, delFromEtinQueue_same]
  · simp [delFromEtinQueue_same]

theorem Linked.release (linked : e.Linked) : (e.release fd).Linked := by
  have unique : (e.release fd).etinHead.Nodup :=
    release_etinHead_eq e fd ▸ delFromEtinQueue_unique linked.unique
  refine linked.slot fd linked.tidy.release (fun other apart => release_other apart) ?_ unique
    ?_ ?_ ?_
  · simp [release_same]
  · intro other apart
    simp [release_etinHead linked, apart]
  · simp [release_etinHead linked, release_same]
  · simp [release_same]

theorem Linked.addToCloseQueue (linked : e.Linked) (used : (e.fds fd).type ≠ .unused) :
    (e.addToCloseQueue fd).Linked := by
  have unique : (e.addToCloseQueue fd).etinHead.Nodup :=
    addToCloseQueue_etinHead_eq e fd ▸ delFromEtinQueue_unique linked.unique
  refine linked.slot fd (linked.tidy.addToCloseQueue used)
    (fun other apart => addToCloseQueue_other apart) ?_ unique ?_ ?_ ?_
  · rw [addToCloseQueue_same]
    exact linked.sockfd fd
  · intro other apart
    simp [addToCloseQueue_etinHead linked, apart]
  · simp [addToCloseQueue_etinHead linked, addToCloseQueue_same]
  · simp [addToCloseQueue_same]

theorem Linked.doAddConn (linked : e.Linked) (unused : (e.fds fd).type = .unused)
    (nonneg : 0 ≤ fd) {type : FdType} {peer : Option (UInt16 × UInt32)} {bcElem : Option Nat} :
    (e.doAddConn fd type peer bcElem).Linked := by
  have absent := linked.absent unused
  refine linked.slot fd (linked.tidy.doAddConn unused nonneg)
    (fun other apart => doAddConn_other apart) ?_ linked.unique (fun other _ => Iff.rfl) ?_ ?_
  · simp [Epi.doAddConn]
  · simpa [Epi.doAddConn, FdInfo.zero] using absent
  · simp [Epi.doAddConn, FdInfo.zero]

/-! ## Identifiers -/

/-- The identifier of the n-th registration. -/
def idOf : Nat → UInt32
  | 0 => 0
  | registrations + 1 => nextId (idOf registrations)

theorem nextId_toNat (seq : UInt32) :
    (nextId seq).toNat = if seq.toNat = 4294967295 then 1 else seq.toNat + 1 := by
  have bound := seq.toNat_lt
  have sum : (seq + 1).toNat = (seq.toNat + 1) % 4294967296 := by
    rw [UInt32.toNat_add]
    rfl
  unfold nextId
  by_cases last : seq.toNat = 4294967295
  · have zero : seq + 1 = 0 := by
      apply UInt32.toNat_inj.mp
      rw [sum, last]
      rfl
    rw [if_pos zero, if_pos last, zero]
    rfl
  · have some : seq + 1 ≠ 0 := by
      intro zero
      rw [zero] at sum
      have : (0 : UInt32).toNat = 0 := rfl
      omega
    rw [if_neg some, if_neg last, sum]
    omega

private theorem idOf_toNat (earlier : Nat) :
    (idOf (earlier + 1)).toNat = earlier % 4294967295 + 1 := by
  induction earlier with
  | zero => rfl
  | succ earlier ih =>
      rw [idOf, nextId_toNat, ih]
      split <;> omega

/-- Fewer than 2^32 - 1 registrations apart, equal identifiers are the same one. -/
theorem idOf_inj {first second : Nat} (positive : 0 < first) (ordered : first ≤ second)
    (near : second - first < 4294967295) (same : idOf first = idOf second) : first = second := by
  obtain ⟨first, rfl⟩ := Nat.exists_eq_add_of_lt positive
  obtain ⟨second, rfl⟩ := Nat.exists_eq_add_of_lt (positive.trans_le ordered)
  have values := congrArg UInt32.toNat same
  simp only [Nat.zero_add, idOf_toNat] at values
  omega

end MpNet.Net.Epi
