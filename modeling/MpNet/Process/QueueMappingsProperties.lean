import Mathlib.Data.List.Perm.Subperm
import MpNet.Process.QueueMappings

/-!
# No queue has more than two ends

A worker that runs maps the two queues of its own entry and nothing else, no other worker
maps them, and the parent keeps two queues for each entry through all restarts. So each queue
has one process on either side.
-/

set_option autoImplicit false

namespace MpNet.Process.QueueMappings

open Library PipeEnds

/-! ## One process -/

/-- What is mapped is what the addresses say. -/
structure Sound (m : Memory) : Prop where
  nodup : m.mapped.Nodup
  mapped : ∀ segment, segment ∈ m.mapped ↔ m.addr segment.entry segment.queue = some segment
  named : ∀ entry queue segment, m.addr entry queue = some segment →
    segment.entry = entry ∧ segment.queue = queue

section Memories

variable {m : Memory} {segment : Segment} {entry other : Nat} {queue : Queue}

theorem Sound.doShmqCreate (sound : Sound m) (free : m.addr segment.entry segment.queue = none) :
    Sound (m.doShmqCreate segment) where
  nodup := by
    refine List.nodup_cons.mpr ⟨fun member => ?_, sound.nodup⟩
    rw [sound.mapped, free] at member
    cases member
  mapped := by
    intro other
    simp only [Memory.doShmqCreate, Memory.setAddr, List.mem_cons, sound.mapped]
    split
    · rename_i here
      rw [here.1, here.2, free]
      constructor
      · rintro (same | found)
        · rw [same]
        · cases found
      · exact fun same => .inl (Option.some.inj same).symm
    · rename_i apart
      have distinct : other ≠ segment := fun same => apart ⟨same ▸ rfl, same ▸ rfl⟩
      simp [distinct]
  named := by
    intro e q found stored
    simp only [Memory.doShmqCreate, Memory.setAddr] at stored
    split at stored
    · rename_i here
      obtain rfl := Option.some.inj stored
      exact ⟨here.1.symm, here.2.symm⟩
    · exact sound.named e q found stored

theorem Sound.unmap (sound : Sound m) (entry : Nat) (queue : Queue) :
    Sound (m.unmap entry queue) := by
  unfold Memory.unmap
  split
  · rename_i segment stored
    obtain ⟨rfl, rfl⟩ := sound.named entry queue segment stored
    refine ⟨sound.nodup.erase segment, fun other => ?_, fun e q found kept => ?_⟩
    · simp only [Memory.setAddr, sound.nodup.mem_erase_iff, sound.mapped]
      split
      · rename_i here
        rw [here.1, here.2, stored]
        constructor
        · exact fun ⟨apart, same⟩ => absurd (Option.some.inj same).symm apart
        · exact nofun
      · rename_i apart
        have distinct : other ≠ segment := fun same => apart ⟨same ▸ rfl, same ▸ rfl⟩
        simp [distinct]
    · simp only [Memory.setAddr] at kept
      split at kept
      · cases kept
      · exact sound.named e q found kept
  · exact sound

private theorem unmap_addr (m : Memory) (entry : Nat) (queue : Queue) :
    (m.unmap entry queue).addr = m.setAddr entry queue none := by
  unfold Memory.unmap
  split
  · rfl
  · rename_i absent
    funext e q
    unfold Memory.setAddr
    split
    · rename_i here
      rw [here.1, here.2, absent]
    · rfl

private theorem doDestroyShmq_addr (m : Memory) (entry : Nat) (e : Nat) (q : Queue) :
    (m.doDestroyShmq entry).addr e q = if e = entry then none else m.addr e q := by
  unfold Memory.doDestroyShmq
  rw [unmap_addr]
  simp only [Memory.setAddr, unmap_addr]
  by_cases here : e = entry
  · cases q <;> simp [here]
  · simp [here]

theorem Sound.doDestroyShmq (sound : Sound m) (entry : Nat) : Sound (m.doDestroyShmq entry) :=
  (sound.unmap entry .sendq).unmap entry .recvq

private theorem shmqCreate_addr (m : Memory) (entry incarnation : Nat) (e : Nat) (q : Queue) :
    (m.shmqCreate entry incarnation).addr e q =
      if e = entry then some ⟨entry, incarnation, q⟩ else m.addr e q := by
  simp only [Memory.shmqCreate, Memory.doShmqCreate, Memory.setAddr]
  by_cases here : e = entry
  · cases q <;> simp [here]
  · simp [here]

theorem Sound.shmqCreate (sound : Sound m) (free : ∀ queue, m.addr entry queue = none)
    (incarnation : Nat) : Sound (m.shmqCreate entry incarnation) := by
  refine (sound.doShmqCreate (free .sendq)).doShmqCreate ?_
  simp only [Memory.doShmqCreate, Memory.setAddr]
  rw [if_neg (by simp)]
  exact free .recvq

private theorem shmqDestroy_addr (m : Memory) (exclu : Option Nat) (maxShmqNum e : Nat)
    (q : Queue) :
    (m.shmqDestroy exclu maxShmqNum).addr e q =
      if e < maxShmqNum ∧ some e ≠ exclu then none else m.addr e q := by
  unfold Memory.shmqDestroy
  induction maxShmqNum with
  | zero => simp
  | succ i ih =>
      rw [List.range_succ, run_concat]
      generalize run (Memory.destroyOther exclu) m (List.range i) = before at ih
      unfold Memory.destroyOther
      split
      · rename_i other
        rw [doDestroyShmq_addr, ih]
        by_cases here : e = i
        · subst here
          simp [other]
        · have same : e < i ↔ e < i + 1 := by omega
          simp [here, same]
      · rename_i own
        rw [ih]
        have same : (e < i ∧ some e ≠ exclu) ↔ (e < i + 1 ∧ some e ≠ exclu) := by
          refine and_congr_left fun apart => ⟨fun less => by omega, fun less => ?_⟩
          have distinct : e ≠ i := fun here => own (here ▸ apart)
          omega
        simp only [same]

theorem Sound.shmqDestroy (sound : Sound m) (exclu : Option Nat) (maxShmqNum : Nat) :
    Sound (m.shmqDestroy exclu maxShmqNum) := by
  refine run_preserves Sound (fun m i sound => ?_) sound _
  unfold Memory.destroyOther
  split
  · exact sound.doDestroyShmq i
  · exact sound

end Memories

/-! ## All processes -/

structure Worker.Sound (incarnation : Nat → Nat) (w : Worker) : Prop where
  memory : QueueMappings.Sound w.memory
  own : ∀ queue, w.memory.addr w.entry queue = some ⟨w.entry, w.incarnation, queue⟩
  past : w.incarnation ≤ incarnation w.entry
  inherited : ∀ entry, w.nInitedBc ≤ entry → ∀ queue, w.memory.addr entry queue = none
  alone : w.running = true → ∀ entry, entry ≠ w.entry → ∀ queue, w.memory.addr entry queue = none

structure Isolated (bindNum : Nat) (s : State) : Prop where
  parent : Sound s.parent
  range : s.started ≤ bindNum
  current : ∀ entry queue segment, s.parent.addr entry queue = some segment →
    segment.incarnation = s.incarnation entry
  unmade : ∀ entry, s.started ≤ entry → s.forking ≠ some entry →
    ∀ queue, s.parent.addr entry queue = none
  forking : ∀ entry, s.forking = some entry → entry < bindNum ∧ entry ≤ s.started ∧
    (entry ≠ s.started → s.started = bindNum) ∧
    (∀ queue, s.parent.addr entry queue = some ⟨entry, s.incarnation entry, queue⟩) ∧
    ∀ pid w, s.workers pid = some w → w.entry = entry → w.incarnation < s.incarnation entry
  workers : ∀ pid w, s.workers pid = some w → w.Sound s.incarnation
  apart : ∀ pid other w w', s.workers pid = some w → s.workers other = some w' →
    w.entry = w'.entry → w.incarnation = w'.incarnation → pid = other
  stopped : s.stopped = true → s.started = bindNum ∧ s.forking = none ∧
    ∀ entry queue, s.parent.addr entry queue = none

namespace Isolated

variable {bindNum : Nat} {s : State} {entry pid : Nat} {w : Worker}

theorem init (bindNum : Nat) : Isolated bindNum init where
  parent := ⟨List.nodup_nil, by simp [QueueMappings.init], by simp [QueueMappings.init]⟩
  range := Nat.zero_le _
  current := by simp [QueueMappings.init]
  unmade := by simp [QueueMappings.init]
  forking := by simp [QueueMappings.init]
  workers := by simp [QueueMappings.init]
  apart := by simp [QueueMappings.init]
  stopped := by simp [QueueMappings.init]

private theorem shrink (isolated : Isolated bindNum s) {parent : Memory} (idle : s.forking = none)
    (sound : Sound parent)
    (fewer : ∀ entry queue segment, parent.addr entry queue = some segment →
      s.parent.addr entry queue = some segment) : Isolated bindNum { s with parent := parent } where
  parent := sound
  range := isolated.range
  current := fun entry queue segment found =>
    isolated.current entry queue segment (fewer entry queue segment found)
  unmade := by
    intro entry later apart queue
    rw [Option.eq_none_iff_forall_ne_some]
    intro segment found
    have before := fewer entry queue segment found
    rw [isolated.unmade entry later apart queue] at before
    cases before
  forking := by
    intro entry here
    rw [idle] at here
    cases here
  workers := isolated.workers
  apart := isolated.apart
  stopped := by
    intro stopped
    obtain ⟨started, -, gone⟩ := isolated.stopped stopped
    refine ⟨started, idle, fun entry queue => ?_⟩
    rw [Option.eq_none_iff_forall_ne_some]
    intro segment found
    have before := fewer entry queue segment found
    rw [gone] at before
    cases before

theorem create (isolated : Isolated bindNum s) (idle : s.forking = none) (bound : entry < bindNum)
    (reached : entry ≤ s.started) (looping : entry ≠ s.started → s.started = bindNum)
    (running : s.stopped = false) (free : ∀ queue, s.parent.addr entry queue = none) :
    Isolated bindNum (s.create entry) where
  parent := isolated.parent.shmqCreate free _
  range := isolated.range
  current := by
    intro e q segment found
    simp only [State.create, shmqCreate_addr, Function.update_apply] at found ⊢
    split at found
    · rename_i here
      rw [if_pos here, ← Option.some.inj found]
    · rename_i apart
      rw [if_neg apart]
      exact isolated.current e q segment found
  unmade := by
    intro e later apart q
    have other : e ≠ entry := fun same => apart (same ▸ rfl)
    simp only [State.create, shmqCreate_addr, if_neg other]
    exact isolated.unmade e later (by simp [idle]) q
  forking := by
    intro e here
    obtain rfl := Option.some.inj here
    refine ⟨bound, reached, looping, fun q => ?_, fun pid w found same => ?_⟩
    · simp [State.create, shmqCreate_addr]
    · have past := (isolated.workers pid w found).past
      simp only [State.create, Function.update_self]
      rw [same] at past
      omega
  workers := by
    intro pid w found
    obtain ⟨memory, own, past, inherited, alone⟩ := isolated.workers pid w found
    refine ⟨memory, own, past.trans ?_, inherited, alone⟩
    simp only [State.create, Function.update_apply]
    split
    · rename_i here
      rw [here]
      omega
    · exact le_rfl
  apart := isolated.apart
  stopped := fun stopped => absurd (running.symm.trans stopped) Bool.false_ne_true

theorem forked (isolated : Isolated bindNum s) (here : s.forking = some entry) :
    Isolated bindNum (s.forked entry) where
  parent := isolated.parent
  range := by
    obtain ⟨bound, -⟩ := isolated.forking entry here
    have range := isolated.range
    simp only [State.forked]
    split <;> omega
  current := isolated.current
  unmade := by
    intro e later _ queue
    obtain ⟨bound, -, looping, -⟩ := isolated.forking entry here
    have apart : e ≠ entry ∧ s.started ≤ e := by
      simp only [State.forked] at later
      split at later
      · omega
      · rename_i other
        have ended := looping other
        omega
    exact isolated.unmade e apart.2 (by simpa [here] using apart.1.symm) queue
  forking := nofun
  workers := isolated.workers
  apart := isolated.apart
  stopped := by
    intro stopped
    have idle := (isolated.stopped stopped).2.1
    rw [here] at idle
    cases idle

theorem setWorker (isolated : Isolated bindNum s) (pid : Nat) (worker : Option Worker)
    (fresh : ∀ entry, s.forking = some entry → ∀ w ∈ worker, w.entry = entry →
      w.incarnation < s.incarnation entry)
    (sound : ∀ w ∈ worker, w.Sound s.incarnation)
    (apart : ∀ w ∈ worker, ∀ other w', other ≠ pid → s.workers other = some w' →
      w.entry = w'.entry → w.incarnation ≠ w'.incarnation) :
    Isolated bindNum (s.setWorker pid worker) := by
  have found {other : Nat} {w : Worker} (here : (s.setWorker pid worker).workers other = some w) :
      other = pid ∧ w ∈ worker ∨ other ≠ pid ∧ s.workers other = some w := by
    simp only [State.setWorker, Function.update_apply] at here
    split at here
    · rename_i same
      exact .inl ⟨same, here⟩
    · rename_i distinct
      exact .inr ⟨distinct, here⟩
  refine { isolated with
    forking := fun entry here => ?_, workers := fun other w here => ?_, apart := ?_ }
  · obtain ⟨bound, reached, looping, made, old⟩ := isolated.forking entry here
    refine ⟨bound, reached, looping, made, fun other w stored same => ?_⟩
    rcases found stored with ⟨-, new⟩ | ⟨-, before⟩
    · exact fresh entry here w new same
    · exact old other w before same
  · rcases found here with ⟨-, new⟩ | ⟨-, before⟩
    · exact sound w new
    · exact isolated.workers other w before
  · intro first second w w' left right entry incarnation
    rcases found left with ⟨rfl, new⟩ | ⟨distinct, before⟩
    · rcases found right with ⟨rfl, -⟩ | ⟨distinct, before⟩
      · rfl
      · exact absurd incarnation (apart w new second w' distinct before entry)
    · rcases found right with ⟨rfl, new⟩ | ⟨-, later⟩
      · exact absurd incarnation.symm (apart w' new first w distinct before entry.symm)
      · exact isolated.apart first second w w' before later entry incarnation

private theorem child_sound (isolated : Isolated bindNum s) (here : s.forking = some entry) :
    (s.child bindNum entry).Sound s.incarnation := by
  obtain ⟨bound, reached, looping, made, -⟩ := isolated.forking entry here
  refine ⟨isolated.parent, made, le_rfl, fun e later queue => ?_, nofun⟩
  have past : s.started ≤ e ∧ e ≠ entry := by
    simp only [State.child] at later
    split at later
    · omega
    · rename_i other
      have ended := looping other
      omega
  exact isolated.unmade e past.1 (by simpa [here] using past.2.symm) queue

private theorem destroy_sound (sound : w.Sound s.incarnation) :
    Worker.Sound s.incarnation { w with
      memory := w.memory.shmqDestroy (some w.entry) w.nInitedBc
      running := true } where
  memory := sound.memory.shmqDestroy _ _
  own := by
    intro queue
    rw [shmqDestroy_addr, if_neg fun both => both.2 rfl]
    exact sound.own queue
  past := sound.past
  inherited := by
    intro entry later queue
    rw [shmqDestroy_addr, if_neg fun both => absurd later (Nat.not_le.mpr both.1)]
    exact sound.inherited entry later queue
  alone := by
    intro _ entry apart queue
    rw [shmqDestroy_addr]
    split
    · rfl
    · rename_i kept
      refine sound.inherited entry ?_ queue
      by_contra less
      exact kept ⟨Nat.not_le.mp less, fun same => apart (Option.some.inj same)⟩

theorem step (isolated : Isolated bindNum s) (action : Action) :
    Isolated bindNum (step bindNum s action) := by
  cases action with
  | shmqCreate =>
      simp only [QueueMappings.step]
      split
      · rename_i enabled
        obtain ⟨more, idle⟩ := enabled
        have running : s.stopped = false := by
          rw [← Bool.not_eq_true]
          intro stopped
          have ended := (isolated.stopped stopped).1
          omega
        exact isolated.create idle more le_rfl (fun other => absurd rfl other) running
          (isolated.unmade s.started le_rfl (by simp [idle]))
      · exact isolated
  | fork pid =>
      simp only [QueueMappings.step]
      split
      · rename_i entry pid here
        split
        · rename_i free
          refine (isolated.forked here).setWorker pid (some (s.child bindNum entry))
            nofun ?_ ?_
          · intro w member
            obtain rfl := Option.some.inj member
            exact isolated.child_sound here
          · intro w member other w' _ found same
            obtain rfl := Option.some.inj member
            exact ((isolated.forking entry here).2.2.2.2 other w' found same.symm).ne'
        · exact isolated
      · rename_i entry here
        exact isolated.forked here
      · exact isolated
  | restart entry =>
      simp only [QueueMappings.step]
      split
      · rename_i enabled
        obtain ⟨⟨ended, idle, running⟩, bound⟩ := enabled
        have destroyed := isolated.shrink idle (isolated.parent.doDestroyShmq entry)
          (fun e q segment found => by
            rw [doDestroyShmq_addr] at found
            split at found
            · cases found
            · exact found)
        exact destroyed.create idle bound (bound.le.trans ended.ge) (fun _ => ended) running
          fun queue => by rw [doDestroyShmq_addr, if_pos rfl]
      · exact isolated
  | destroy pid =>
      simp only [QueueMappings.step]
      split
      · rename_i w found
        split
        · exact isolated
        · refine isolated.setWorker _ _ ?_ ?_ ?_
          · intro entry here later member same
            obtain rfl := Option.some.inj member
            exact (isolated.forking entry here).2.2.2.2 pid w found same
          · intro later member
            obtain rfl := Option.some.inj member
            exact destroy_sound (isolated.workers pid w found)
          · intro later member other w' distinct stored entry incarnation
            obtain rfl := Option.some.inj member
            exact distinct (isolated.apart other pid w' w stored found entry.symm incarnation.symm)
      · exact isolated
  | quit pid => exact isolated.setWorker pid none nofun nofun nofun
  | shutdown =>
      simp only [QueueMappings.step]
      split
      · rename_i enabled
        obtain ⟨ended, idle, -⟩ := enabled
        have destroyed := isolated.shrink idle (isolated.parent.shmqDestroy none bindNum)
          (fun e q segment found => by
            rw [shmqDestroy_addr] at found
            split at found
            · cases found
            · exact found)
        refine { destroyed with stopped := fun _ => ⟨ended, idle, fun e q => ?_⟩ }
        rw [shmqDestroy_addr]
        split
        · rfl
        · rename_i kept
          refine isolated.unmade e ?_ (by simp [idle]) q
          by_contra less
          exact kept ⟨ended ▸ Nat.not_le.mp less, Option.some_ne_none e⟩
      · exact isolated

end Isolated

/-! ## Main result -/

theorem Worker.Sound.mapped {incarnation : Nat → Nat} {w : Worker} (sound : w.Sound incarnation)
    (running : w.running = true) (segment : Segment) :
    segment ∈ w.memory.mapped ↔
      segment.entry = w.entry ∧ segment.incarnation = w.incarnation := by
  rw [sound.memory.mapped]
  constructor
  · intro stored
    have own : segment.entry = w.entry := by
      by_contra apart
      rw [sound.alone running segment.entry apart] at stored
      cases stored
    rw [own, sound.own] at stored
    exact ⟨own, (congrArg Segment.incarnation (Option.some.inj stored)).symm⟩
  · rintro ⟨own, same⟩
    rw [own, sound.own, ← own, ← same]

theorem Sound.length_le {m : Memory} (sound : Sound m) {bindNum : Nat}
    (range : ∀ entry, bindNum ≤ entry → ∀ queue, m.addr entry queue = none) :
    m.mapped.length ≤ 2 * bindNum := by
  let places := (List.range bindNum).flatMap fun entry => [(entry, Queue.sendq), (entry, .recvq)]
  have distinct : (m.mapped.map fun segment => (segment.entry, segment.queue)).Nodup := by
    refine sound.nodup.map_on fun left member right other same => ?_
    obtain ⟨entry, queue⟩ := Prod.mk.inj same
    have stored := (sound.mapped left).mp member
    rw [entry, queue, (sound.mapped right).mp other] at stored
    exact (Option.some.inj stored).symm
  have inside : (m.mapped.map fun segment => (segment.entry, segment.queue)) ⊆ places := by
    intro place member
    obtain ⟨segment, mapped, rfl⟩ := List.mem_map.mp member
    have below : segment.entry < bindNum := by
      by_contra beyond
      have stored := (sound.mapped segment).mp mapped
      rw [range segment.entry (Nat.not_lt.mp beyond)] at stored
      cases stored
    refine List.mem_flatMap.mpr ⟨segment.entry, List.mem_range.mpr below, ?_⟩
    cases segment.queue <;> simp
  have bound := (distinct.subperm inside).length_le
  have size : places.length = 2 * bindNum := by
    simp [places, List.length_flatMap, Nat.mul_comm]
  rwa [List.length_map, size] at bound

/-- In every run of forks, restarts and exits, a worker that runs maps the two queues of one
run of `shmq_create` for its entry and nothing else, no two workers map the same queue, and
the parent maps no more than the current queues of the entries, and none at the end. -/
theorem queues_isolated (bindNum : Nat) (actions : List Action) :
    let s := run (step bindNum) init actions
    (∀ pid w, s.workers pid = some w → w.running = true →
      ∃ incarnation ≤ s.incarnation w.entry, ∀ segment, segment ∈ w.memory.mapped ↔
        segment.entry = w.entry ∧ segment.incarnation = incarnation) ∧
    (∀ pid other w w', pid ≠ other → s.workers pid = some w → s.workers other = some w' →
      w.running = true → w'.running = true → w.memory.mapped.Disjoint w'.memory.mapped) ∧
    (s.parent.mapped.Nodup ∧ s.parent.mapped.length ≤ 2 * bindNum ∧
      ∀ segment ∈ s.parent.mapped, s.parent.addr segment.entry segment.queue = some segment ∧
        segment.incarnation = s.incarnation segment.entry) ∧
    (s.stopped = true → s.parent.mapped = []) := by
  intro s
  have isolated : Isolated bindNum s := run_preserves (Isolated bindNum)
    (fun _ action isolated => isolated.step action) (.init bindNum) actions
  refine ⟨?_, ?_, ⟨isolated.parent.nodup, ?_, ?_⟩, ?_⟩
  · intro pid w found running
    have sound := isolated.workers pid w found
    exact ⟨w.incarnation, sound.past, sound.mapped running⟩
  · intro pid other w w' apart found stored running running' segment member shared
    obtain ⟨entry, incarnation⟩ := ((isolated.workers pid w found).mapped running segment).mp member
    obtain ⟨entry', incarnation'⟩ :=
      ((isolated.workers other w' stored).mapped running' segment).mp shared
    exact apart (isolated.apart pid other w w' found stored (entry.symm.trans entry')
      (incarnation.symm.trans incarnation'))
  · refine isolated.parent.length_le fun entry later queue => ?_
    refine isolated.unmade entry (isolated.range.trans later) (fun here => ?_) queue
    have bound := (isolated.forking entry here).1
    omega
  · intro segment member
    have stored := (isolated.parent.mapped segment).mp member
    exact ⟨stored, isolated.current _ _ segment stored⟩
  · intro stopped
    refine List.eq_nil_iff_forall_not_mem.mpr fun segment member => ?_
    have stored := (isolated.parent.mapped segment).mp member
    rw [(isolated.stopped stopped).2.2] at stored
    cases stored

/-- A worker is started again while the one before it still runs. -/
example : (fun s : State => (s.workers 7).map (·.memory.mapped) = some [⟨0, 1, .recvq⟩, ⟨0, 1, .sendq⟩] ∧
    (s.workers 9).map (·.memory.mapped) = some [⟨0, 2, .recvq⟩, ⟨0, 2, .sendq⟩] ∧
    s.parent.mapped.length = 4)
    (run (step 2) init [.shmqCreate, .fork (some 7), .shmqCreate, .destroy 7, .fork (some 8),
      .restart 0, .fork (some 9), .destroy 9]) := by decide

end MpNet.Process.QueueMappings
