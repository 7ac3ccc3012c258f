import MpNet.Net.FdTableProperties
import MpNet.Net.Queues

/-!
# Links and sequences agree

Each operation on the links does what the operation on the sequences says.
-/

set_option autoImplicit false

namespace MpNet.Net

open Library

/-! ## Flags -/

namespace Epi

variable {e : Epi} {fd : Int}

theorem flagged_netInit : netInit.Flagged := by
  constructor <;> simp [netInit, FdInfo.zero]

theorem Flagged.slot (flagged : e.Flagged) {e' : Epi} (fd : Int)
    (others : ∀ other, other ≠ fd → e'.fds other = e.fds other)
    (closeHead : ∀ other, other ≠ fd → (other ∈ e'.closeHead ↔ other ∈ e.closeHead))
    (etinHead : ∀ other, other ≠ fd → (other ∈ e'.etinHead ↔ other ∈ e.etinHead))
    (closing : fd ∈ e'.closeHead ↔ (e'.fds fd).needClose = true)
    (polling : fd ∈ e'.etinHead ↔ (e'.fds fd).needPollin = true)
    (apart : (e'.fds fd).needClose = true → (e'.fds fd).needPollin = false)
    (used : (e'.fds fd).needClose = true ∨ (e'.fds fd).needPollin = true →
      (e'.fds fd).type ≠ .unused) : e'.Flagged := by
  constructor <;> intro other <;> by_cases here : other = fd
  all_goals first
    | subst here
      assumption
    | rw [others other here]
  · rw [closeHead other here]
    exact flagged.closing other
  · rw [etinHead other here]
    exact flagged.polling other
  · exact flagged.apart other
  · exact flagged.used other

theorem Flagged.etinHead_eq (flagged : e.Flagged) :
    (e.delFromEtinQueue fd).etinHead = e.etinHead.filter (· ≠ fd) := by
  unfold Epi.delFromEtinQueue
  split
  · rfl
  · rename_i clear
    refine (List.filter_eq_self.mpr fun other member => ?_).symm
    simpa using fun same : other = fd => clear ((flagged.polling fd).mp (same ▸ member))

theorem Flagged.closeHead_eq (flagged : e.Flagged) :
    (e.delFromCloseQueue fd).closeHead = e.closeHead.filter (· ≠ fd) := by
  unfold Epi.delFromCloseQueue
  split
  · rfl
  · rename_i clear
    refine (List.filter_eq_self.mpr fun other member => ?_).symm
    simpa using fun same : other = fd => clear ((flagged.closing fd).mp (same ▸ member))

theorem release_closeHead_eq (e : Epi) (fd : Int) :
    (e.release fd).closeHead = ((e.delFromEtinQueue fd).delFromCloseQueue fd).closeHead := by
  unfold release
  simp only
  split <;> rfl

theorem Flagged.delFromEtinQueue (flagged : e.Flagged) : (e.delFromEtinQueue fd).Flagged := by
  refine flagged.slot fd (fun other apart => delFromEtinQueue_other apart) ?_ ?_ ?_ ?_ ?_ ?_
  · simp
  · intro other apart
    simp [flagged.etinHead_eq, apart]
  · simpa [delFromEtinQueue_same] using flagged.closing fd
  · simp [flagged.etinHead_eq, delFromEtinQueue_same]
  · simp [delFromEtinQueue_same]
  · rw [delFromEtinQueue_same]
    exact fun queued => flagged.used fd (.inl (by simpa using queued))

theorem Flagged.addToEtinQueue (flagged : e.Flagged) (used : (e.fds fd).type ≠ .unused) :
    (e.addToEtinQueue fd).Flagged := by
  unfold Epi.addToEtinQueue
  split
  · rename_i clear
    refine flagged.slot fd (fun other apart => by simp [modify, apart]) (fun other _ => Iff.rfl)
      (fun other apart => by simp [apart]) ?_ ?_ ?_ ?_
    · simpa [modify] using flagged.closing fd
    · simp
    · simp [clear.1]
    · simpa using used
  · exact flagged

private theorem delFromCloseQueue_etinHead : (e.delFromCloseQueue fd).etinHead = e.etinHead := by
  unfold Epi.delFromCloseQueue
  split <;> rfl

theorem Flagged.delFromCloseQueue (flagged : e.Flagged) : (e.delFromCloseQueue fd).Flagged := by
  refine flagged.slot fd (fun other apart => delFromCloseQueue_other apart) ?_ ?_ ?_ ?_ ?_ ?_
  · intro other apart
    simp [flagged.closeHead_eq, apart]
  · simp [delFromCloseQueue_etinHead]
  · simp [flagged.closeHead_eq, delFromCloseQueue_same]
  · simpa [delFromCloseQueue_etinHead, delFromCloseQueue_same] using flagged.polling fd
  · simp [delFromCloseQueue_same]
  · rw [delFromCloseQueue_same]
    exact fun queued => flagged.used fd (.inr (by simpa using queued))

theorem Flagged.addToCloseQueue (flagged : e.Flagged) (used : (e.fds fd).type ≠ .unused) :
    (e.addToCloseQueue fd).Flagged := by
  have member : fd ∈ (e.addToCloseQueue fd).closeHead ∧ ∀ other, other ≠ fd →
      (other ∈ (e.addToCloseQueue fd).closeHead ↔ other ∈ e.closeHead) := by
    unfold Epi.addToCloseQueue
    simp only [delFromEtinQueue_same]
    split
    · simp only [delFromEtinQueue_closeHead]
      exact ⟨by simp, fun other apart => by simp [apart]⟩
    · rename_i queued
      simp only [delFromEtinQueue_closeHead, implies_true, and_true]
      exact (flagged.closing fd).mpr (by simpa using queued)
  refine flagged.slot fd (fun other apart => addToCloseQueue_other apart) member.2 ?_ ?_ ?_ ?_ ?_
  · intro other apart
    simp [addToCloseQueue_etinHead_eq, flagged.etinHead_eq, apart]
  · simpa [addToCloseQueue_same] using member.1
  · simp [addToCloseQueue_etinHead_eq, flagged.etinHead_eq, addToCloseQueue_same]
  · simp [addToCloseQueue_same]
  · simpa [addToCloseQueue_same] using used

theorem Flagged.doAddConn (flagged : e.Flagged) (unused : (e.fds fd).type = .unused)
    {type : FdType} {peer : Option (UInt16 × UInt32)} {bcElem : Option Nat} :
    (e.doAddConn fd type peer bcElem).Flagged := by
  have clear : ¬ ((e.fds fd).needClose = true ∨ (e.fds fd).needPollin = true) :=
    fun queued => flagged.used fd queued unused
  refine flagged.slot fd (fun other apart => doAddConn_other apart) (fun other _ => Iff.rfl)
    (fun other _ => Iff.rfl) ?_ ?_ ?_ ?_
  · simpa [Epi.doAddConn, FdInfo.zero, flagged.closing fd] using fun closing => clear (.inl closing)
  · simpa [Epi.doAddConn, FdInfo.zero, flagged.polling fd] using fun polled => clear (.inr polled)
  · simp [Epi.doAddConn, FdInfo.zero]
  · simp [Epi.doAddConn, FdInfo.zero]

theorem Flagged.release (flagged : e.Flagged) : (e.release fd).Flagged := by
  refine flagged.slot fd (fun other apart => release_other apart) ?_ ?_ ?_ ?_ ?_ ?_
  · intro other apart
    simp [release_closeHead_eq, flagged.delFromEtinQueue.closeHead_eq, apart]
  · intro other apart
    simp [release_etinHead_eq, flagged.etinHead_eq, apart]
  · simp [release_closeHead_eq, flagged.delFromEtinQueue.closeHead_eq, release_same]
  · simp [release_etinHead_eq, flagged.etinHead_eq, release_same]
  · simp [release_same]
  · simp [release_same]

end Epi

/-! ## Links -/

namespace Queues

variable {q : Queues} {fd : Int}

theorem agrees_init : init.Agrees where
  flagged := Epi.flagged_netInit
  closing := ⟨by simp [Chain, init, netInit, Links.initListHead, Links.setPrev, Links.setNext],
    List.nodup_singleton _⟩
  etin := holds_initListHead _ _

private theorem Agrees.disjoint (agrees : q.Agrees) :
    ∀ node ∈ Node.closeHead :: q.epi.closeHead.map .list,
    node ∉ Node.etinHead :: q.epi.etinHead.map .list := by
  intro node member inside
  rcases List.mem_cons.mp member with rfl | member
  · simp at inside
  · obtain ⟨fd, closing, rfl⟩ := List.mem_map.mp member
    have polled : fd ∈ q.epi.etinHead := by simpa using inside
    have clear := agrees.flagged.apart fd ((agrees.flagged.closing fd).mp closing)
    rw [(agrees.flagged.polling fd).mp polled] at clear
    cases clear

theorem Agrees.nodup (agrees : q.Agrees) : q.epi.etinHead.Nodup :=
  List.Nodup.of_map _ (List.nodup_cons.mp agrees.etin.distinct).2

private theorem holds_del {links : Links Node} {head : Node} {fds : List Int}
    (holds : Holds links head (fds.map .list)) (member : fd ∈ fds) :
    Holds (links.listDelInit (.list fd)) head ((fds.filter (· ≠ fd)).map .list) := by
  have distinct : fds.Nodup := List.Nodup.of_map _ (List.nodup_cons.mp holds.distinct).2
  obtain ⟨before, after, rfl⟩ := List.append_of_mem member
  rw [filter_ne_middle distinct, List.map_append]
  rw [List.map_append, List.map_cons] at holds
  exact holds.listDelInit

theorem delFromEtinQueue_epi : (q.delFromEtinQueue fd).epi = q.epi.delFromEtinQueue fd := by
  unfold delFromEtinQueue
  split
  · rfl
  · rename_i clear
    rw [Epi.delFromEtinQueue, if_neg clear]

theorem addToEtinQueue_epi : (q.addToEtinQueue fd).epi = q.epi.addToEtinQueue fd := by
  unfold addToEtinQueue
  split
  · rfl
  · rename_i shut
    rw [Epi.addToEtinQueue, if_neg shut]

theorem delFromCloseQueue_epi : (q.delFromCloseQueue fd).epi = q.epi.delFromCloseQueue fd := by
  unfold delFromCloseQueue
  split
  · rfl
  · rename_i clear
    rw [Epi.delFromCloseQueue, if_neg clear]

theorem addToCloseQueue_epi : (q.addToCloseQueue fd).epi = q.epi.addToCloseQueue fd := by
  unfold addToCloseQueue Epi.addToCloseQueue
  simp only [delFromEtinQueue_epi]
  split
  · rfl
  · exact delFromEtinQueue_epi

theorem Agrees.release_etinHead (agrees : q.Agrees) :
    (q.release fd).epi.etinHead = q.epi.etinHead.filter (· ≠ fd) :=
  (Epi.release_etinHead_eq q.epi fd).trans agrees.flagged.etinHead_eq

theorem Agrees.addToEtinQueue_member (agrees : q.Agrees) (member : fd ∈ q.epi.etinHead) :
    q.addToEtinQueue fd = q := by
  have flagged := (agrees.flagged.polling fd).mp member
  rw [addToEtinQueue, if_neg fun clear => clear.2 flagged]

theorem Agrees.delFromEtinQueue (agrees : q.Agrees) (fd : Int) :
    (q.delFromEtinQueue fd).Agrees := by
  refine ⟨delFromEtinQueue_epi ▸ agrees.flagged.delFromEtinQueue, ?_, ?_⟩ <;>
    unfold Queues.delFromEtinQueue <;> split
  · rename_i flagged
    have member := (agrees.flagged.polling fd).mpr flagged
    rw [Epi.delFromEtinQueue_closeHead]
    exact agrees.closing.listDelInit_other agrees.etin (List.mem_map_of_mem member) agrees.disjoint
  · exact agrees.closing
  · rename_i flagged
    have member := (agrees.flagged.polling fd).mpr flagged
    rw [Epi.delFromEtinQueue, if_pos flagged]
    exact holds_del agrees.etin member
  · exact agrees.etin

theorem Agrees.addToEtinQueue (agrees : q.Agrees) (used : (q.epi.fds fd).type ≠ .unused) :
    (q.addToEtinQueue fd).Agrees := by
  refine ⟨addToEtinQueue_epi ▸ agrees.flagged.addToEtinQueue used, ?_, ?_⟩ <;>
    unfold Queues.addToEtinQueue <;> split
  · rename_i clear
    have closeHead : (q.epi.addToEtinQueue fd).closeHead = q.epi.closeHead := by
      rw [Epi.addToEtinQueue, if_pos clear]
      rfl
    rw [closeHead]
    refine agrees.closing.listPushTail_other agrees.etin ?_ agrees.disjoint
    simpa [agrees.flagged.closing fd] using clear.1
  · exact agrees.closing
  · rename_i clear
    rw [Epi.addToEtinQueue, if_pos clear]
    simp only [List.map_append]
    refine agrees.etin.listPushTail ?_
    simpa [agrees.flagged.polling fd] using clear.2
  · exact agrees.etin

theorem Agrees.delFromCloseQueue (agrees : q.Agrees) (fd : Int) :
    (q.delFromCloseQueue fd).Agrees := by
  refine ⟨delFromCloseQueue_epi ▸ agrees.flagged.delFromCloseQueue, ?_, ?_⟩ <;>
    unfold Queues.delFromCloseQueue <;> split
  · rename_i flagged
    have member := (agrees.flagged.closing fd).mpr flagged
    rw [Epi.delFromCloseQueue, if_pos flagged]
    exact holds_del agrees.closing member
  · exact agrees.closing
  · rename_i flagged
    have member := (agrees.flagged.closing fd).mpr flagged
    rw [Epi.delFromCloseQueue, if_pos flagged]
    refine agrees.etin.listDelInit_other agrees.closing (List.mem_map_of_mem member) ?_
    exact fun node inside closing => agrees.disjoint node closing inside
  · exact agrees.etin

theorem Agrees.addToCloseQueue (agrees : q.Agrees) (used : (q.epi.fds fd).type ≠ .unused) :
    (q.addToCloseQueue fd).Agrees := by
  have free := agrees.delFromEtinQueue fd
  have clear : ((q.delFromEtinQueue fd).epi.fds fd).needPollin = false := by
    simp [delFromEtinQueue_epi, Epi.delFromEtinQueue_same]
  refine ⟨addToCloseQueue_epi ▸ agrees.flagged.addToCloseQueue used, ?_, ?_⟩ <;>
    unfold Queues.addToCloseQueue <;> simp only <;> split
  · rename_i fresh
    simp only [List.map_append]
    refine free.closing.listPushTail ?_
    simpa [free.flagged.closing fd] using fresh
  · exact free.closing
  · refine free.etin.listPushTail_other free.closing ?_ fun node inside closing =>
      free.disjoint node closing inside
    simpa [free.flagged.polling fd] using clear
  · exact free.etin

theorem Agrees.release (agrees : q.Agrees) : (q.release fd).Agrees := by
  have removed := (agrees.delFromEtinQueue fd).delFromCloseQueue fd
  have closing := removed.closing
  have etin := removed.etin
  rw [delFromCloseQueue_epi, delFromEtinQueue_epi] at closing etin
  rw [Epi.delFromCloseQueue_etinHead, ← Epi.release_etinHead_eq] at etin
  rw [← Epi.release_closeHead_eq] at closing
  exact ⟨agrees.flagged.release, closing, etin⟩

/-- The `memset` of an unused slot touches no list. -/
theorem holds_wiped {links : Links Node} {head : Node} {fds : List Int}
    (holds : Holds links head (fds.map .list)) (apart : .list fd ∉ head :: fds.map .list) :
    Holds ((links.setPrev (.list fd) .null).setNext (.list fd) .null) head (fds.map .list) := by
  refine holds.congr (fun node member => ?_) fun node member => ?_ <;>
    have other : node ≠ .list fd := fun same => apart (same ▸ member)
  · simp [Links.setNext, Links.setPrev, other]
  · simp [Links.setNext, Links.setPrev, other]

theorem Agrees.doAddConn (agrees : q.Agrees) (unused : (q.epi.fds fd).type = .unused)
    {type : FdType} {peer : Option (UInt16 × UInt32)} {bcElem : Option Nat} :
    (q.doAddConn fd type peer bcElem).Agrees := by
  have notClosing : fd ∉ q.epi.closeHead := fun member =>
    agrees.flagged.used fd (.inl ((agrees.flagged.closing fd).mp member)) unused
  have notPolled : fd ∉ q.epi.etinHead := fun member =>
    agrees.flagged.used fd (.inr ((agrees.flagged.polling fd).mp member)) unused
  have closing := holds_wiped agrees.closing (by simpa using notClosing)
  have etin := holds_wiped agrees.etin (by simpa using notPolled)
  exact ⟨agrees.flagged.doAddConn unused, closing, etin⟩

theorem Agrees.modify (agrees : q.Agrees) {change : FdInfo → FdInfo}
    (same : ∀ slot, (change slot).type = slot.type ∧ (change slot).needClose = slot.needClose ∧
      (change slot).needPollin = slot.needPollin) :
    Agrees { q with epi := q.epi.modify fd change } := by
  obtain ⟨type, needClose, needPollin⟩ := same (q.epi.fds fd)
  refine ⟨agrees.flagged.slot fd (fun other apart => Epi.modify_other _ apart)
    (fun other _ => Iff.rfl) (fun other _ => Iff.rfl) ?_ ?_ ?_ ?_, agrees.closing, agrees.etin⟩
  · rw [Epi.modify_same, needClose]
    exact agrees.flagged.closing fd
  · rw [Epi.modify_same, needPollin]
    exact agrees.flagged.polling fd
  · rw [Epi.modify_same, needClose, needPollin]
    exact agrees.flagged.apart fd
  · rw [Epi.modify_same, needClose, needPollin, type]
    exact agrees.flagged.used fd

theorem Agrees.addRemote (agrees : q.Agrees) (fd : Int) {newfd : Int}
    (unused : (q.epi.fds newfd).type = .unused) (peer : UInt16 × UInt32) (now : UInt32) :
    (q.addRemote fd newfd peer now).Agrees :=
  (agrees.doAddConn unused).modify fun _ => ⟨rfl, rfl, rfl⟩

end Queues

end MpNet.Net
