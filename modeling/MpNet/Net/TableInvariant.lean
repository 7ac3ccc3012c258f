import Mathlib.Data.Set.Card
import MpNet.Net.QueuesProperties

/-!
# The table invariant

`count` counts the used slots, `maxfd` is the highest of them, a used slot knows its
descriptor, and an unused one holds neither buffers nor flags.
-/

set_option autoImplicit false

namespace MpNet.Net

open Library

namespace Epi

variable {e e' : Epi} {fd other : Int}

def used (e : Epi) : Set Int := {fd | (e.fds fd).type ≠ .unused}

/-- A slot that `do_del_conn` has left, or that was never registered. -/
structure Blank (slot : FdInfo) : Prop where
  needClose : slot.needClose = false
  needPollin : slot.needPollin = false
  recvptr : slot.cb.recvptr = none
  sendptr : slot.cb.sendptr = none
  recvlen : slot.cb.recvlen = 0
  sendlen : slot.cb.sendlen = 0

structure Valid (e : Epi) : Prop where
  finite : e.used.Finite
  count : e.count = e.used.ncard
  bounded : ∀ fd ∈ e.used, 0 ≤ fd ∧ fd ≤ e.maxfd
  top : e.used.Nonempty → e.maxfd ∈ e.used
  sockfd : ∀ fd ∈ e.used, (e.fds fd).sockfd = fd
  id : ∀ fd ∈ e.used, (e.fds fd).id ≠ 0
  blank : ∀ fd, fd ∉ e.used → Blank (e.fds fd)

/-- The invariant with what carries it: the flags name the members of the queues. -/
structure Sound (e : Epi) : Prop where
  valid : e.Valid
  /-- The next registration is the highest. -/
  low : e.used = ∅ → e.maxfd ≤ 0
  flagged : e.Flagged
  closing : e.closeHead.Nodup
  etin : e.etinHead.Nodup

theorem mem_used : fd ∈ e.used ↔ (e.fds fd).type ≠ .unused := Iff.rfl

theorem sound_netInit : netInit.Sound where
  valid := by
    have empty : netInit.used = ∅ := by simp [used, netInit, FdInfo.zero]
    constructor
    · simp [empty]
    · rw [empty, Set.ncard_empty]
      rfl
    · simp [empty]
    · simp [empty]
    · simp [empty]
    · simp [empty]
    · exact fun fd _ => ⟨rfl, rfl, rfl, rfl, rfl, rfl⟩
  low _ := le_rfl
  flagged := flagged_netInit
  closing := List.nodup_nil
  etin := List.nodup_nil

/-! ## Changes of one used slot -/

/-- One used slot changes and stays registered. -/
structure Alters (fd : Int) (e e' : Epi) : Prop where
  others : ∀ other, other ≠ fd → e'.fds other = e.fds other
  type : (e'.fds fd).type = (e.fds fd).type
  sockfd : (e'.fds fd).sockfd = (e.fds fd).sockfd
  id : (e'.fds fd).id = (e.fds fd).id
  maxfd : e'.maxfd = e.maxfd
  count : e'.count = e.count

private theorem Alters.used_eq (alters : Alters fd e e') : e'.used = e.used := by
  ext other
  by_cases here : other = fd
  · rw [here, mem_used, mem_used, alters.type]
  · rw [mem_used, mem_used, alters.others other here]

theorem Alters.mem_used (alters : Alters fd e e') (member : other ∈ e.used) : other ∈ e'.used :=
  alters.used_eq.symm ▸ member

theorem Valid.alters (valid : e.Valid) (alters : Alters fd e e') (member : fd ∈ e.used) :
    e'.Valid := by
  have same := alters.used_eq
  constructor
  · exact same ▸ valid.finite
  · rw [same, alters.count, valid.count]
  · rw [same, alters.maxfd]
    exact valid.bounded
  · rw [same, alters.maxfd]
    exact valid.top
  · intro other present
    rw [same] at present
    by_cases here : other = fd
    · rw [here, alters.sockfd, valid.sockfd fd member]
    · rw [alters.others other here, valid.sockfd other present]
  · intro other present
    rw [same] at present
    by_cases here : other = fd
    · rw [here, alters.id]
      exact valid.id fd member
    · rw [alters.others other here]
      exact valid.id other present
  · intro other absent
    rw [same] at absent
    have apart : other ≠ fd := fun here => absent (here ▸ member)
    rw [alters.others other apart]
    exact valid.blank other absent

theorem alters_addToEtinQueue : Alters fd e (e.addToEtinQueue fd) := by
  obtain ⟨needPollin, slot⟩ := addToEtinQueue_same e fd
  have rest : (e.addToEtinQueue fd).maxfd = e.maxfd ∧ (e.addToEtinQueue fd).count = e.count := by
    unfold addToEtinQueue
    split <;> exact ⟨rfl, rfl⟩
  exact ⟨fun other apart => addToEtinQueue_other apart, by rw [slot], by rw [slot], by rw [slot],
    rest.1, rest.2⟩

theorem alters_delFromEtinQueue : Alters fd e (e.delFromEtinQueue fd) := by
  have slot := @delFromEtinQueue_same e fd
  have rest : (e.delFromEtinQueue fd).maxfd = e.maxfd ∧
      (e.delFromEtinQueue fd).count = e.count := by
    unfold delFromEtinQueue
    split <;> exact ⟨rfl, rfl⟩
  exact ⟨fun other apart => delFromEtinQueue_other apart, by rw [slot], by rw [slot], by rw [slot],
    rest.1, rest.2⟩

private theorem alters_addToCloseQueue : Alters fd e (e.addToCloseQueue fd) := by
  have slot := @addToCloseQueue_same e fd
  have count : (e.addToCloseQueue fd).count = e.count := by
    unfold addToCloseQueue delFromEtinQueue
    simp only
    split <;> split <;> rfl
  exact ⟨fun other apart => addToCloseQueue_other apart, by rw [slot], by rw [slot], by rw [slot],
    addToCloseQueue_maxfd, count⟩

private theorem alters_modify {change : FdInfo → FdInfo}
    (type : (change (e.fds fd)).type = (e.fds fd).type)
    (sockfd : (change (e.fds fd)).sockfd = (e.fds fd).sockfd)
    (id : (change (e.fds fd)).id = (e.fds fd).id) : Alters fd e (e.modify fd change) where
  others _ apart := modify_other _ apart
  type := by rw [modify_same, type]
  sockfd := by rw [modify_same, sockfd]
  id := by rw [modify_same, id]
  maxfd := rfl
  count := rfl

/-! ## Registration and release -/

private theorem nextId_ne_zero (seq : UInt32) : nextId seq ≠ 0 := by
  intro zero
  have value := nextId_toNat seq
  rw [zero] at value
  split at value <;> simp at value

theorem used_doAddConn {type : FdType} {peer : Option (UInt16 × UInt32)} {bcElem : Option Nat}
    (kind : type ≠ .unused) : (e.doAddConn fd type peer bcElem).used = insert fd e.used := by
  ext other
  by_cases here : other = fd
  · subst here
    simp [mem_used, Epi.doAddConn, kind]
  · simp [mem_used, here]

private theorem Valid.doAddConn_top (valid : e.Valid) (low : e.used = ∅ → e.maxfd ≤ 0)
    (nonneg : 0 ≤ fd)
    {type : FdType} (kind : type ≠ .unused) (peer : Option (UInt16 × UInt32))
    (bcElem : Option Nat) :
    (e.doAddConn fd type peer bcElem).maxfd ∈ (e.doAddConn fd type peer bcElem).used := by
  have maxfd : (e.doAddConn fd type peer bcElem).maxfd = if e.maxfd > fd then e.maxfd else fd := rfl
  rw [used_doAddConn kind, maxfd]
  split
  · rename_i above
    have some : e.used.Nonempty := by
      by_contra none
      have bound := low (Set.not_nonempty_iff_eq_empty.mp none)
      omega
    exact Set.mem_insert_of_mem _ (valid.top some)
  · exact Set.mem_insert _ _

theorem Valid.doAddConn (valid : e.Valid) (low : e.used = ∅ → e.maxfd ≤ 0)
    (unused : (e.fds fd).type = .unused) (nonneg : 0 ≤ fd) {type : FdType}
    (kind : type ≠ .unused) (peer : Option (UInt16 × UInt32)) (bcElem : Option Nat) :
    (e.doAddConn fd type peer bcElem).Valid := by
  have absent : fd ∉ e.used := fun member => member unused
  have maxfd : (e.doAddConn fd type peer bcElem).maxfd = if e.maxfd > fd then e.maxfd else fd := rfl
  have same : (e.doAddConn fd type peer bcElem).used = insert fd e.used := used_doAddConn kind
  constructor
  · rw [same]
    exact valid.finite.insert fd
  · rw [same, Set.ncard_insert_of_notMem absent valid.finite, Nat.cast_succ, ← valid.count]
    rfl
  · rw [same, maxfd]
    rintro other (rfl | member)
    · split <;> omega
    · have bound := valid.bounded other member
      split <;> omega
  · exact fun _ => valid.doAddConn_top low nonneg kind peer bcElem
  · rw [same]
    rintro other (rfl | member)
    · simp [Epi.doAddConn]
    · rw [doAddConn_other (ne_of_mem_of_not_mem member absent)]
      exact valid.sockfd other member
  · rw [same]
    rintro other (rfl | member)
    · simpa [Epi.doAddConn] using nextId_ne_zero e.seq
    · rw [doAddConn_other (ne_of_mem_of_not_mem member absent)]
      exact valid.id other member
  · rw [same]
    intro other outside
    obtain ⟨apart, free⟩ : other ≠ fd ∧ other ∉ e.used := by simpa using outside
    rw [doAddConn_other apart]
    exact valid.blank other free

private theorem used_release : (e.release fd).used = e.used \ {fd} := by
  ext other
  by_cases here : other = fd
  · subst here
    simp [mem_used, release_same]
  · simp [mem_used, release_other here, here]

theorem release_count : (e.release fd).count = e.count - 1 := by
  have kept : ((e.delFromEtinQueue fd).delFromCloseQueue fd).count = e.count := by
    unfold delFromCloseQueue delFromEtinQueue Epi.modify
    split <;> split <;> rfl
  unfold release
  simp only
  split <;> exact congrArg (· - 1) kept

theorem release_maxfd : (e.release fd).maxfd =
    if e.maxfd = fd then usedBelow (e.release fd).fds fd.toNat else e.maxfd := by
  have kept : ((e.delFromEtinQueue fd).delFromCloseQueue fd).maxfd = e.maxfd := by
    unfold delFromCloseQueue delFromEtinQueue Epi.modify
    split <;> split <;> rfl
  unfold release
  simp only [Epi.modify, kept]
  split <;> rfl

theorem usedBelow_lt (fds : Int → FdInfo) (bound : Nat) : usedBelow fds bound < bound := by
  induction bound with
  | zero => exact neg_one_lt_zero
  | succ bound ih =>
      unfold usedBelow
      split <;> omega

private theorem usedBelow_used {fds : Int → FdInfo} {bound : Nat}
    (found : 0 ≤ usedBelow fds bound) :
    (fds (usedBelow fds bound)).type ≠ .unused := by
  induction bound with
  | zero => cases found
  | succ bound ih =>
      unfold usedBelow at found ⊢
      split
      · assumption
      · rename_i free
        rw [if_neg free] at found
        exact ih found

/-- Where `maxfd` was deleted, the search finds the highest slot that is left. -/
theorem Valid.release_top (valid : e.Valid) (some : (e.release fd).used.Nonempty) :
    (e.release fd).maxfd ∈ (e.release fd).used := by
  obtain ⟨other, present⟩ := some
  rw [used_release] at present
  obtain ⟨present, apart⟩ := present
  have bound := valid.bounded other present
  rw [release_maxfd]
  split
  · rename_i highest
    have below : other < fd := lt_of_le_of_ne (highest ▸ bound.2) apart
    have above : other ≤ usedBelow (e.release fd).fds fd.toNat :=
      le_usedBelow bound.1 (by omega) (by rwa [release_other apart])
    exact usedBelow_used (by omega)
  · rw [used_release]
    exact ⟨valid.top ⟨other, present⟩, by assumption⟩

theorem Valid.release (valid : e.Valid) (member : fd ∈ e.used) : (e.release fd).Valid := by
  have same : (e.release fd).used = e.used \ {fd} := used_release
  constructor
  · rw [same]
    exact valid.finite.sdiff
  · rw [same, release_count, Set.ncard_sdiff_singleton_of_mem member, valid.count]
    have positive : 0 < e.used.ncard := (Set.ncard_pos valid.finite).mpr ⟨fd, member⟩
    omega
  · rw [same]
    rintro other ⟨present, apart⟩
    have bound := valid.bounded other present
    exact ⟨bound.1, release_maxfd_bound bound apart present⟩
  · exact valid.release_top
  · rw [same]
    rintro other ⟨present, apart⟩
    rw [release_other apart]
    exact valid.sockfd other present
  · rw [same]
    rintro other ⟨present, apart⟩
    rw [release_other apart]
    exact valid.id other present
  · rw [same]
    intro other outside
    by_cases here : other = fd
    · subst here
      rw [release_same]
      exact ⟨rfl, rfl, rfl, rfl, rfl, rfl⟩
    · rw [release_other here]
      exact valid.blank other fun present => outside ⟨present, here⟩

/-- The search for the new `maxfd` ends below every slot when the table is empty. -/
theorem Valid.release_low (valid : e.Valid) (member : fd ∈ e.used)
    (empty : (e.release fd).used = ∅) : (e.release fd).maxfd ≤ 0 := by
  have only : e.used ⊆ {fd} := Set.sdiff_eq_empty.mp (used_release ▸ empty)
  have highest : e.maxfd = fd := only (valid.top ⟨fd, member⟩)
  rw [release_maxfd, if_pos highest]
  by_contra above
  have some := @usedBelow_used (e.release fd).fds fd.toNat (by omega)
  exact Set.notMem_empty _ (empty ▸ mem_used.mpr some)

/-! ## Soundness -/

theorem Sound.alters (sound : e.Sound) (alters : Alters fd e e') (member : fd ∈ e.used)
    (flagged : e'.Flagged) (closing : e'.closeHead.Nodup) (etin : e'.etinHead.Nodup) :
    e'.Sound where
  valid := sound.valid.alters alters member
  low empty := by
    rw [alters.maxfd]
    exact sound.low (alters.used_eq ▸ empty)
  flagged := flagged
  closing := closing
  etin := etin

theorem alters_buffers (cb : ConnBuf) (sk : RemoteInfo) :
    Alters fd e (e.modify fd fun slot => { slot with cb := cb, sk := sk }) :=
  alters_modify rfl rfl rfl

theorem Sound.modify (sound : e.Sound) (member : fd ∈ e.used) (cb : ConnBuf) (sk : RemoteInfo) :
    (e.modify fd fun slot => { slot with cb := cb, sk := sk }).Sound := by
  refine sound.alters (alters_buffers cb sk) member ?_ sound.closing sound.etin
  refine sound.flagged.slot fd (fun other apart => modify_other _ apart) (fun _ _ => Iff.rfl)
    (fun _ _ => Iff.rfl) ?_ ?_ ?_ ?_ <;> rw [modify_same]
  · exact sound.flagged.closing fd
  · exact sound.flagged.polling fd
  · exact sound.flagged.apart fd
  · exact sound.flagged.used fd

theorem Sound.addToEtinQueue (sound : e.Sound) (member : fd ∈ e.used) :
    (e.addToEtinQueue fd).Sound := by
  have queues : (e.addToEtinQueue fd).closeHead.Nodup ∧ (e.addToEtinQueue fd).etinHead.Nodup := by
    unfold Epi.addToEtinQueue
    split
    · rename_i clear
      have absent : fd ∉ e.etinHead := fun queued =>
        clear.2 ((sound.flagged.polling fd).mp queued)
      exact ⟨sound.closing, List.concat_eq_append ▸ sound.etin.concat absent⟩
    · exact ⟨sound.closing, sound.etin⟩
  exact sound.alters alters_addToEtinQueue member (sound.flagged.addToEtinQueue member) queues.1
    queues.2

theorem Sound.delFromEtinQueue (sound : e.Sound) (member : fd ∈ e.used) :
    (e.delFromEtinQueue fd).Sound := by
  refine sound.alters alters_delFromEtinQueue member sound.flagged.delFromEtinQueue ?_ ?_
  · rw [delFromEtinQueue_closeHead]
    exact sound.closing
  · rw [sound.flagged.etinHead_eq]
    exact sound.etin.filter _

theorem Sound.addToCloseQueue (sound : e.Sound) (member : fd ∈ e.used) :
    (e.addToCloseQueue fd).Sound := by
  refine sound.alters alters_addToCloseQueue member (sound.flagged.addToCloseQueue member) ?_ ?_
  · unfold Epi.addToCloseQueue
    simp only [delFromEtinQueue_same]
    split
    · rename_i clear
      have absent : fd ∉ e.closeHead := fun queued => clear ((sound.flagged.closing fd).mp queued)
      rw [delFromEtinQueue_closeHead, ← List.concat_eq_append]
      exact sound.closing.concat absent
    · rw [delFromEtinQueue_closeHead]
      exact sound.closing
  · rw [addToCloseQueue_etinHead_eq, sound.flagged.etinHead_eq]
    exact sound.etin.filter _

theorem Sound.doAddConn (sound : e.Sound) (unused : (e.fds fd).type = .unused) (nonneg : 0 ≤ fd)
    {type : FdType} (kind : type ≠ .unused) (peer : Option (UInt16 × UInt32))
    (bcElem : Option Nat) : (e.doAddConn fd type peer bcElem).Sound where
  valid := sound.valid.doAddConn sound.low unused nonneg kind peer bcElem
  low empty := by
    rw [used_doAddConn kind] at empty
    exact absurd empty (Set.insert_nonempty _ _).ne_empty
  flagged := sound.flagged.doAddConn unused
  closing := sound.closing
  etin := sound.etin

theorem Sound.release_closeHead_eq (sound : e.Sound) :
    (e.release fd).closeHead = e.closeHead.filter (· ≠ fd) := by
  rw [Epi.release_closeHead_eq, sound.flagged.delFromEtinQueue.closeHead_eq,
    delFromEtinQueue_closeHead]

theorem Sound.release_etinHead_eq (sound : e.Sound) :
    (e.release fd).etinHead = e.etinHead.filter (· ≠ fd) := by
  rw [Epi.release_etinHead_eq, sound.flagged.etinHead_eq]

theorem Sound.release (sound : e.Sound) (member : fd ∈ e.used) : (e.release fd).Sound where
  valid := sound.valid.release member
  low := sound.valid.release_low member
  flagged := sound.flagged.release
  closing := by
    rw [sound.release_closeHead_eq]
    exact sound.closing.filter _
  etin := by
    rw [sound.release_etinHead_eq]
    exact sound.etin.filter _

end Epi

end MpNet.Net
