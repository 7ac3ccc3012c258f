import MpNet.Net.SendPackage
import MpNet.Shmq.PushCallProperties

/-!
# What arrives of a package

The blocks of a call carry a prefix of the package, whatever the state of the queue and
the steps of the parent. A call that returns 0 has pushed all of it, one that returns -1
possibly the first pieces. The loop makes progress unless a page is exactly a header.
-/

set_option autoImplicit false

namespace MpNet.Net.SendPackage

open Library Shmq

variable {c : Config} {p : Package} {s : State} {base : List Message}

/-! ## The size of a piece -/

/-- `page_size` is a positive `int`. -/
structure PageSized (c : Config) : Prop where
  pos : 0 < c.pageSize
  small : c.pageSize < 2147483648

namespace PageSized

private theorem u32_pageSize (paged : PageSized c) : u32 c.pageSize = c.pageSize :=
  u32_of_range paged.pos.le (by have := paged.small; omega)

theorem curLen_eq (paged : PageSized c) {pkglen sendBytes : Int} (more : sendBytes < pkglen)
    (nonneg : 0 ≤ sendBytes) (high : pkglen < 2147483648) :
    curLen c.pageSize pkglen sendBytes =
      if 13 ≤ c.pageSize ∧ c.pageSize - 13 < pkglen - sendBytes then c.pageSize - 13
      else pkglen - sendBytes := by
  have pos := paged.pos
  have small := paged.small
  have left : u64 (pkglen - sendBytes) = pkglen - sendBytes := u64_of_range (by omega) (by omega)
  have page : u64 c.pageSize = c.pageSize := u64_of_range (by omega) (by omega)
  unfold curLen sizeofShmBlock
  rw [left, page]
  by_cases room : 13 ≤ c.pageSize
  · rw [u64_of_range (by omega) (by omega), i32_of_range (by omega) (by omega)]
    by_cases long : c.pageSize - 13 < pkglen - sendBytes
    · rw [if_pos (by omega), if_pos ⟨room, long⟩]
      omega
    · rw [if_neg (by omega), if_neg fun both => long both.2]
  · -- the difference of the two `size_t` wraps around
    have wraps : u64 (c.pageSize - (13 : Nat)) = c.pageSize - 13 + 18446744073709551616 := by
      unfold u64
      omega
    rw [wraps, if_neg (by omega), if_neg fun both => room both.1]

end PageSized

private theorem count_bounds (paged : PageSized c) {sendBytes : Nat}
    (more : sendBytes < p.pkg.length) :
    let count := (curLen c.pageSize p.pkglen sendBytes).toNat
    sendBytes + count ≤ p.pkg.length ∧ (c.pageSize ≠ 13 ∨ p.pkglen ≤ 0 → 0 < count) ∧
      (p.pkglen + 13 ≤ c.pageSize → sendBytes + count = p.pkg.length) := by
  intro count
  have high := p.high
  have length_eq := p.length_eq
  have eq : curLen c.pageSize p.pkglen sendBytes = _ :=
    paged.curLen_eq (by omega) (by omega) high
  have pos := paged.pos
  simp only [count, eq]
  split <;> refine ⟨?_, fun page => ?_, fun fits => ?_⟩ <;> omega

theorem block_data (p : Package) {sendBytes count : Nat} :
    (p.block sendBytes count).data = (p.pkg.drop sendBytes).take count := rfl

private theorem block_data_length {sendBytes count : Nat}
    (inside : sendBytes + count ≤ p.pkg.length) :
    (p.block sendBytes count).data.length = count := by
  rw [block_data, List.length_take, List.length_drop]
  omega

private theorem payload_eq {m : Message} (short : m.size < 2147483648) : payload m = m.data := by
  have size := m.size_ge
  have length := m.data_length
  unfold Message.size at *
  have eq : dataLen m.mb = m.data.length := by
    unfold dataLen sizeofShmBlock
    rw [u64_of_range (by omega) (by omega), i32_of_range (by omega) (by omega)]
    omega
  unfold payload
  rw [eq, Int.toNat_natCast, List.take_length]

/-! ## The blocks of one call -/

/-- The blocks that carry the first `sendBytes` bytes of the package. -/
structure Carries (c : Config) (p : Package) (sendBytes : Nat) (blocks : List Message) : Prop where
  bound : sendBytes ≤ p.pkg.length
  joined : blocks.flatMap Message.data = p.pkg.take sendBytes
  header : ∀ m ∈ blocks, m.mb.id = p.id ∧ m.mb.fd = p.fd ∧ m.mb.type = dataBlock
  sized : ∀ m ∈ blocks, m.size ≤ c.pageSize
  filled : c.pageSize ≠ 13 ∨ p.pkglen ≤ 0 → ∀ m ∈ blocks, m.data ≠ []
  whole : p.pkglen + 13 ≤ c.pageSize → blocks = [] ∨ sendBytes = p.pkg.length

private theorem carries_nil : Carries c p 0 [] where
  bound := Nat.zero_le _
  joined := rfl
  header := by simp
  sized := by simp
  filled := by simp
  whole _ := .inl rfl

theorem Carries.push {sendBytes : Nat} {blocks : List Message}
    (carries : Carries c p sendBytes blocks) (paged : PageSized c)
    (more : sendBytes < p.pkg.length)
    (fits : (p.block sendBytes (curLen c.pageSize p.pkglen sendBytes).toNat).size ≤ c.pageSize) :
    Carries c p (sendBytes + (curLen c.pageSize p.pkglen sendBytes).toNat)
      (blocks ++ [p.block sendBytes (curLen c.pageSize p.pkglen sendBytes).toNat]) := by
  obtain ⟨inside, progress, last⟩ := count_bounds paged more
  constructor
  · exact inside
  · rw [List.flatMap_append, carries.joined, List.take_add]
    simp [block_data]
  · intro m member
    rcases List.mem_append.mp member with before | added
    · exact carries.header m before
    · rw [List.mem_singleton.mp added]
      exact ⟨rfl, rfl, rfl⟩
  · intro m member
    rcases List.mem_append.mp member with before | added
    · exact carries.sized m before
    · rw [List.mem_singleton.mp added]
      exact fits
  · intro page m member
    rcases List.mem_append.mp member with before | added
    · exact carries.filled page m before
    · rw [List.mem_singleton.mp added]
      apply List.ne_nil_of_length_pos
      rw [block_data_length inside]
      exact progress page
  · exact fun short => .inr (last short)

/-! ## Steps of the worker and of the parent -/

/-- What a call has done to the queue that had published `base`. -/
def Sending (c : Config) (p : Package) (base : List Message) (s : State) : Prop :=
  match s.pc with
  | .loop sendBytes =>
      s.queue.producer.isBetween ∧
        ∃ blocks, Carries c p sendBytes blocks ∧ s.queue.published = base ++ blocks
  | .pushing sendBytes count =>
      sendBytes < p.pkg.length ∧ count = (curLen c.pageSize p.pkglen sendBytes).toNat ∧
        s.queue.producer.Counted ∧
        ∃ blocks, Carries c p sendBytes blocks ∧
          Calling c (p.block sendBytes count) (base ++ blocks) s.queue
  | .ret result =>
      ∃ sendBytes blocks, Carries c p sendBytes blocks ∧ s.queue.published = base ++ blocks ∧
        (result = 0 ∧ sendBytes = p.pkg.length ∨ result = -1 ∧ sendBytes < p.pkg.length)

private theorem start_sending {queue : Shmq.State} (between : queue.producer.isBetween) :
    Sending c p queue.published (start queue) :=
  ⟨between, [], carries_nil, (List.append_nil _).symm⟩

private theorem work_sending (paged : PageSized c) (sending : Sending c p base s) :
    Sending c p base (work c p s) := by
  cases pc : s.pc with
  | loop sendBytes =>
      simp only [Sending, pc] at sending
      obtain ⟨between, blocks, carries, same⟩ := sending
      simp only [work, pc]
      have length_eq := p.length_eq
      split
      · refine ⟨by omega, rfl, ?_, blocks, carries, ?_⟩
        · exact callPush_counted _ between
        · exact callPush_calling between same
      · have bound := carries.bound
        exact ⟨sendBytes, blocks, carries, same, .inl ⟨rfl, by omega⟩⟩
  | pushing sendBytes count =>
      simp only [Sending, pc] at sending
      obtain ⟨more, rfl, counted, blocks, carries, calling⟩ := sending
      have next : (∃ result, s.queue.producer = .ret result) ∨
          work c p s = { s with queue := produce c s.queue } := by
        unfold work
        cases s.queue.producer <;> simp [pc]
      rcases next with ⟨result, returned⟩ | moved
      · simp only [Calling, returned] at calling
        simp only [work, pc, returned]
        rcases calling with ⟨rfl, fits, same⟩ | ⟨rfl, same⟩
        · rw [if_neg (by decide)]
          rw [paged.u32_pageSize] at fits
          simp only [Sending, returned]
          exact ⟨rfl, _, carries.push paged more fits, by rw [same, List.append_assoc]⟩
        · rw [if_pos rfl]
          exact ⟨sendBytes, blocks, carries, same, .inr ⟨rfl, more⟩⟩
      · rw [moved]
        simp only [Sending, pc, true_and]
        exact ⟨more, produce_counted c counted, blocks, carries, produce_calling calling⟩
  | ret result =>
      have same : work c p s = s := by simp only [work, pc]
      rw [same]
      exact sending

private theorem sending_congr {queue : Shmq.State} (producer : queue.producer = s.queue.producer)
    (published : queue.published = s.queue.published) :
    Sending c p base { s with queue := queue } ↔ Sending c p base s := by
  unfold Sending
  simp only [producer, published, calling_congr producer published]

private theorem step_sending (paged : PageSized c) (sending : Sending c p base s)
    (action : Action) :
    Sending c p base (step c p s action) := by
  cases action with
  | work => exact work_sending paged sending
  | pop =>
      obtain ⟨producer, published⟩ := callPop_producer s.queue
      exact (sending_congr producer published).mpr sending
  | consume =>
      obtain ⟨producer, published⟩ := consume_producer c s.queue
      exact (sending_congr producer published).mpr sending

private theorem run_sending (paged : PageSized c) {queue : Shmq.State}
    (between : queue.producer.isBetween) (actions : List Action) :
    Sending c p queue.published (run (step c p) (start queue) actions) :=
  run_preserves (Sending c p queue.published) (fun _ action sending =>
    step_sending paged sending action) (start_sending between) actions

/-! ## Progress of the loop -/

def State.rank (p : Package) (s : State) : Nat :=
  match s.pc with
  | .loop sendBytes => 55 * (p.pkg.length - sendBytes) + 1
  | .pushing sendBytes count =>
      s.queue.producer.rank + 55 * (p.pkg.length - (sendBytes + count)) + 2
  | .ret _ => 0

private theorem work_rank (paged : PageSized c) (page : c.pageSize ≠ 13 ∨ p.pkglen ≤ 0)
    (sending : Sending c p base s) (going : ¬ s.Ended) : (work c p s).rank p + 1 ≤ s.rank p := by
  cases pc : s.pc with
  | loop sendBytes =>
      simp only [Sending, pc] at sending
      have length_eq := p.length_eq
      by_cases more : (sendBytes : Int) < p.pkglen
      · have inside : sendBytes < p.pkg.length := by omega
        obtain ⟨_, progress, _⟩ := count_bounds paged inside
        have step := progress page
        simp only [work, pc, if_pos more, State.rank, callPush_rank _ sending.1]
        omega
      · simp only [work, pc, if_neg more, State.rank]
        omega
  | pushing sendBytes count =>
      simp only [Sending, pc] at sending
      obtain ⟨_, _, counted, _, _, calling⟩ := sending
      rcases calling.rank_pos fun exited => going (.inr exited) with ⟨result, returned⟩ | pos
      · simp only [work, pc, returned]
        split <;> simp only [State.rank, pc, returned, PushPc.rank] <;> omega
      · have down := produce_rank (c := c) counted
        have moved : work c p s = { s with queue := produce c s.queue } := by
          unfold work
          cases producer : s.queue.producer <;> simp only [pc]
          case ret => simp [producer, PushPc.rank] at pos
        simp only [moved, State.rank, pc]
        omega
  | ret result => exact (going (.inl ⟨result, pc⟩)).elim

private theorem step_rank (paged : PageSized c) (page : c.pageSize ≠ 13 ∨ p.pkglen ≤ 0)
    (sending : Sending c p base s) (going : ¬ s.Ended) (action : Action) :
    (step c p s action).rank p + (if action.isWork then 1 else 0) ≤ s.rank p := by
  cases action with
  | work => exact work_rank paged page sending going
  | pop =>
      have same := (callPop_producer s.queue).1
      simp [step, State.rank, Action.isWork, same]
  | consume =>
      have same := (consume_producer c s.queue).1
      simp [step, State.rank, Action.isWork, same]

private theorem step_ended (ended : s.Ended) (action : Action) : (step c p s action).Ended := by
  cases action with
  | work =>
      rcases ended with ⟨result, pc⟩ | exited
      · have same : work c p s = s := by simp only [work, pc]
        exact .inl ⟨result, by simp only [step, same, pc]⟩
      · cases pc : s.pc with
        | loop sendBytes =>
            simp only [step, work, pc, callPush, exited]
            split
            · exact .inr exited
            · exact .inl ⟨0, rfl⟩
        | pushing sendBytes count =>
            simp only [step, work, pc, exited]
            exact .inr (by simp only [produce, exited])
        | ret result => exact .inl ⟨result, by simp only [step, work, pc]⟩
  | pop => exact ended.imp id (callPop_producer s.queue).1.trans
  | consume => exact ended.imp id (consume_producer c s.queue).1.trans

theorem run_rank (paged : PageSized c) (page : c.pageSize ≠ 13 ∨ p.pkglen ≤ 0)
    (sending : Sending c p base s) (actions : List Action) :
    (run (step c p) s actions).Ended ∨
      (run (step c p) s actions).rank p + actions.countP Action.isWork ≤ s.rank p := by
  induction actions generalizing s with
  | nil => exact .inr le_rfl
  | cons action rest ih =>
      by_cases ended : s.Ended
      · exact .inl (run_preserves State.Ended (fun _ action ended => step_ended ended action)
          ended (action :: rest))
      · have here := step_rank paged page sending ended action
        refine (ih (step_sending paged sending action)).imp id fun later => ?_
        rw [List.countP_cons, run_cons]
        omega

private theorem run_ends (paged : PageSized c) (page : c.pageSize ≠ 13 ∨ p.pkglen ≤ 0)
    {queue : Shmq.State}
    (between : queue.producer.isBetween) {actions : List Action}
    (enough : 55 * p.pkg.length + 2 ≤ actions.countP Action.isWork) :
    (run (step c p) (start queue) actions).Ended := by
  rcases run_rank paged page (start_sending between) actions with ended | rank
  · exact ended
  · simp only [start, State.rank] at rank
    omega

/-! ## The payloads -/

private theorem Carries.payloads {sendBytes : Nat} {blocks : List Message}
    (carries : Carries c p sendBytes blocks) (paged : PageSized c) :
    (∀ m ∈ blocks, payload m = m.data) ∧ blocks.flatMap payload = p.pkg.take sendBytes := by
  have same : ∀ m ∈ blocks, payload m = m.data := fun m member =>
    payload_eq (lt_of_le_of_lt (carries.sized m member) paged.small)
  exact ⟨same, (List.flatMap_congr same).trans carries.joined⟩

/-- In every state the published blocks carry the beginning of the package. -/
theorem Sending.carries (paged : PageSized c) (sending : Sending c p base s) :
    ∃ sendBytes blocks, Carries c p sendBytes blocks ∧ s.queue.published = base ++ blocks ∧
      (s.pc = .ret 0 → sendBytes = p.pkg.length) ∧
      (s.pc = .ret (-1) → sendBytes < p.pkg.length) := by
  cases pc : s.pc with
  | loop sendBytes =>
      simp only [Sending, pc] at sending
      obtain ⟨_, blocks, carries, same⟩ := sending
      exact ⟨sendBytes, blocks, carries, same, by simp, by simp⟩
  | pushing sendBytes count =>
      simp only [Sending, pc] at sending
      obtain ⟨more, rfl, _, blocks, carries, calling⟩ := sending
      rcases calling.published with same | ⟨fits, same⟩
      · exact ⟨sendBytes, blocks, carries, same, by simp, by simp⟩
      · rw [paged.u32_pageSize] at fits
        rw [List.append_assoc] at same
        exact ⟨_, _, carries.push paged more fits, same, by simp, by simp⟩
  | ret result =>
      simp only [Sending, pc] at sending
      obtain ⟨sendBytes, blocks, carries, same, outcome⟩ := sending
      refine ⟨sendBytes, blocks, carries, same, ?_, ?_⟩ <;> simp only [Pc.ret.injEq] <;> omega

/-! ## Splitting and rejoining -/

/-- A call on this queue ends, and what it returns 0 for is the whole package in payloads
that the parent can send. -/
structure SplitsRight (c : Config) (p : Package) (queue : Shmq.State) : Prop where
  ends : ∃ bound, ∀ actions : List Action, bound ≤ actions.countP Action.isWork →
    (run (step c p) (start queue) actions).Ended
  rejoins : ∀ actions : List Action,
    let s := run (step c p) (start queue) actions
    ∃ blocks, s.queue.published = queue.published ++ blocks ∧
      (∀ m ∈ blocks, ∀ results, Output.safeTcpSendN (payload m).length results ≠ .aborted) ∧
      (s.pc = .ret 0 → (∀ m ∈ blocks, payload m ≠ [] ∧ m.size ≤ c.pageSize) ∧
        blocks.flatMap payload = p.pkg)

private theorem sendLoop_ne_aborted (total sendBytes : Nat) (results : List Output.SendResult) :
    Output.sendLoop total sendBytes results ≠ .aborted := by
  induction results generalizing sendBytes with
  | nil => simp [Output.sendLoop]
  | cons result rest ih =>
      unfold Output.sendLoop
      split
      · cases result with
        | sent count => exact ih _
        | eintr => exact ih _
        | eagain | error => simp
      · simp

private theorem safeTcpSendN_ne_aborted {total : Nat} (pos : 0 < total) (short : total < 2147483648)
    (results : List Output.SendResult) : Output.safeTcpSendN total results ≠ .aborted := by
  rw [Output.safeTcpSendN, if_pos ⟨pos, short⟩]
  exact sendLoop_ne_aborted total 0 results

private theorem splitsRight (paged : PageSized c) (page : c.pageSize ≠ 13 ∨ p.pkglen ≤ 0)
    {queue : Shmq.State} (between : queue.producer.isBetween) : SplitsRight c p queue := by
  refine ⟨⟨_, fun _ => run_ends paged page between⟩, fun actions => ?_⟩
  obtain ⟨sendBytes, blocks, carries, same, whole, _⟩ :=
    (run_sending (p := p) paged between actions).carries paged
  obtain ⟨payloads, joined⟩ := carries.payloads paged
  refine ⟨blocks, same, fun m member => ?_, fun returned => ⟨fun m member => ?_, ?_⟩⟩
  · rw [payloads m member]
    have small := paged.small
    have sized := carries.sized m member
    have length := m.data_length
    exact safeTcpSendN_ne_aborted (List.length_pos_of_ne_nil (carries.filled page m member))
      (by omega)
  · rw [payloads m member]
    exact ⟨carries.filled page m member, carries.sized m member⟩
  · rw [joined, whole returned, List.take_length]

/-- A page of 13 bytes: `cur_len` is 0, and the block is pushed without data. -/
theorem header_page_pushes (more : 0 < p.pkglen) :
    ∃ m : Message, payload m = [] ∧
      (run (step ⟨80, 13⟩ p) (start Shmq.init) (List.replicate 10 .work)).queue.published = [m] := by
  have paged : PageSized ⟨80, 13⟩ := ⟨by decide, by decide⟩
  have none : (curLen 13 p.pkglen 0).toNat = 0 := by
    rw [paged.curLen_eq more le_rfl p.high]
    simp [more]
  have size : (p.block 0 0).size = 13 := by
    simp [Package.block, Message.make, Message.size, sizeofShmBlock]
  refine ⟨p.block 0 0, by simp [payload, block_data], ?_⟩
  simp [List.replicate, step, work, start, more, none, callPush, Shmq.init, produce, size, u32,
    sizeofShmHead, sizeofShmBlock]

private theorem header_page_aborts (more : 0 < p.pkglen) : ¬ SplitsRight ⟨80, 13⟩ p Shmq.init := by
  intro right
  obtain ⟨m, empty, pushed⟩ := header_page_pushes more
  obtain ⟨blocks, same, sends, _⟩ := right.rejoins (List.replicate 10 .work)
  have member : m ∈ blocks := by
    have eq : blocks = [m] := same.symm.trans pushed
    simp [eq]
  exact sends m member [] (by simp [empty, Output.safeTcpSendN])

/-- On every queue and with every schedule, splitting a package ends and rejoining its
blocks gives it back, if and only if `page_size` is not the size of the header or there
is nothing to send. -/
theorem send_pkg_to_client_splits_iff (pageSize : Int) (pos : 0 < pageSize)
    (small : pageSize < 2147483648) (p : Package) :
    (∀ (length : Int) (queue : Shmq.State), queue.producer.isBetween →
        SplitsRight ⟨length, pageSize⟩ p queue) ↔ pageSize ≠ 13 ∨ p.pkglen ≤ 0 := by
  constructor
  · intro right
    by_contra header
    obtain ⟨page, more⟩ := not_or.mp header
    cases not_not.mp page
    exact header_page_aborts (by omega) (right 80 Shmq.init rfl)
  · exact fun page _ _ between => splitsRight ⟨pos, small⟩ page between

def sixBytes : Package where
  id := 1
  fd := 5
  pkg := [1, 2, 3, 4, 5, 6]
  pkglen := 6
  low := by decide
  high := by decide
  length_eq := rfl

theorem send_pkg_to_client_splits_six :
    (∀ (length : Int) (queue : Shmq.State), queue.producer.isBetween →
      SplitsRight ⟨length, 16⟩ sixBytes queue) ↔ (16 : Int) ≠ 13 ∨ sixBytes.pkglen ≤ 0 :=
  send_pkg_to_client_splits_iff 16 (by decide) (by decide) sixBytes

theorem send_pkg_to_client_header_page : ¬ SplitsRight ⟨80, 13⟩ sixBytes Shmq.init :=
  header_page_aborts (by decide)

/-! ## A refused piece -/

/-- Whatever the queue holds and the parent does, the blocks of a refused package carry,
joined in order, a proper prefix of it, which is empty if one block could have held it. -/
theorem send_pkg_to_client_refused (c : Config) (paged : PageSized c) (p : Package)
    (queue : Shmq.State) (between : queue.producer.isBetween) (actions : List Action) :
    let s := run (step c p) (start queue) actions
    s.pc = .ret (-1) →
      ∃ blocks, s.queue.published = queue.published ++ blocks ∧
        (∀ m ∈ blocks, m.mb.id = p.id ∧ m.mb.fd = p.fd ∧ m.mb.type = dataBlock) ∧
        (∃ sendBytes < p.pkg.length, blocks.flatMap payload = p.pkg.take sendBytes) ∧
        (p.pkglen + 13 ≤ c.pageSize → blocks = []) := by
  intro s refused
  obtain ⟨sendBytes, blocks, carries, same, _, part⟩ :=
    (run_sending (p := p) paged between actions).carries paged
  have less := part refused
  refine ⟨blocks, same, carries.header, ⟨sendBytes, less, (carries.payloads paged).2⟩, ?_⟩
  exact fun short => (carries.whole short).resolve_right less.ne

/-- The parent has popped two of four blocks when the second piece needs the place. -/
def almostFull : Shmq.State :=
  let pushOne := .push (sixBytes.block 0 3) :: List.replicate 20 .produce
  let popOne := .pop :: List.replicate 11 .consume
  run (Shmq.step ⟨80, 16⟩) Shmq.init
    (pushOne ++ pushOne ++ pushOne ++ pushOne ++ popOne ++ popOne)

theorem send_pkg_to_client_truncated :
    let s := run (step ⟨80, 16⟩ sixBytes) (start almostFull) (List.replicate 150 .work)
    s.pc = .ret (-1) ∧
      (s.queue.published.drop almostFull.published.length).map payload = [[1, 2, 3]] := by
  decide +kernel

theorem send_pkg_to_client_refused_truncated :
    let s := run (step ⟨80, 16⟩ sixBytes) (start almostFull) (List.replicate 150 .work)
    ∃ blocks, s.queue.published = almostFull.published ++ blocks ∧
      (∀ m ∈ blocks, m.mb.id = sixBytes.id ∧ m.mb.fd = sixBytes.fd ∧ m.mb.type = dataBlock) ∧
      (∃ sendBytes < sixBytes.pkg.length,
        blocks.flatMap payload = sixBytes.pkg.take sendBytes) ∧
      (sixBytes.pkglen + 13 ≤ 16 → blocks = []) :=
  send_pkg_to_client_refused ⟨80, 16⟩ ⟨by decide, by decide⟩ sixBytes almostFull
    (by decide +kernel) (List.replicate 150 .work) (by decide +kernel)

end MpNet.Net.SendPackage
