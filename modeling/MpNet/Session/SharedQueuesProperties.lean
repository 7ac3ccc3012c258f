import MpNet.Session.SharedQueues

/-!
# The shared memory refines the queues

Whatever the interleaving of the accesses to shared memory, the processes do what the parent
and its workers do in some order of whole actions on queues of blocks.
-/

set_option autoImplicit false

namespace MpNet.Session

open Library Net

/-! ## Blocks as bytes -/

private theorem BlockType.ofByte_byte (type : BlockType) : BlockType.ofByte type.byte = type := by
  cases type <;> rfl

private theorem i32_ofInt {fd : Int} (low : -2147483648 ≤ fd) (high : fd < 2147483648) :
    i32 (UInt32.ofInt fd).toNat = fd := by
  have word : ((UInt32.ofInt fd).toNat : Int) = fd % (4294967296 : Nat) := by
    rw [UInt32.ofInt, UInt32.toNat_ofNat']
    omega
  rw [word, i32]
  exact (Int.emod_bmod fd 4294967296).trans (i32_of_range low high)

/-- The fields of a block, read from its bytes. -/
theorem Block.ofBytes_bytes (message : Shmq.Message) (origin : Nat) :
    Block.ofBytes message.bytes origin =
      ⟨message.mb.id, i32 message.mb.fd.toNat, .ofByte message.mb.type, message.data, origin⟩ := by
  have holds : (Memory.ofBytes message.bytes).Holds 0
      (wordBytes message.mb.id ++ wordBytes message.mb.fd ++ wordBytes message.mb.length ++
        [message.mb.type] ++ message.data) := Memory.holds_ofBytes message.bytes
  obtain ⟨header, -⟩ := Memory.holds_append.mp holds
  obtain ⟨words, type⟩ := Memory.holds_append.mp header
  obtain ⟨front, -⟩ := Memory.holds_append.mp words
  obtain ⟨id, fd⟩ := Memory.holds_append.mp front
  have byte := Memory.holds_iff.mp type 0 (by simp)
  have data : message.bytes.drop Shmq.sizeofShmBlock = message.data :=
    List.drop_left' message.mb.header_length
  simp only [List.length_append, wordBytes_length] at fd byte
  unfold Block.ofBytes
  rw [data]
  have word : Memory.ofBytes message.bytes 12 = message.mb.type := by simpa using byte
  rw [word]
  congr
  · exact id.readWord
  · exact fd.readWord

/-- The consumer reads the block that the producer wrote. -/
theorem Block.ofBytes_message {mb : Block} {message : Shmq.Message}
    (encoded : mb.message = some message) : Block.ofBytes message.bytes mb.origin = mb := by
  rw [Block.ofBytes_bytes]
  unfold Block.message at encoded
  split at encoded
  · rename_i fits
    cases encoded
    simp [Shmq.Message.make, i32_ofInt fits.1.1 fits.1.2, BlockType.ofByte_byte]
  · cases encoded

/-! ## What the scripts use -/

/-- The pushes and pops are those of the party. -/
def Owned (party : Party) {Result : Type} : Script Result → Prop
  | .ret _ => True
  | .push queue _ next => queue.producer = party ∧ ∀ accepted, Owned party (next accepted)
  | .pop queue next => queue.consumer = party ∧ ∀ answer, Owned party (next answer)

/-- A script of the party that a transaction can stand for. -/
structure Proper (party : Party) {Result : Type} (script : Script Result) : Prop where
  owned : Owned party script
  short : script.Short (·.consumer = party)

section Scripts

variable {s : State} {w : Worker} {fd : Int} {worker : Nat}

private theorem pushScript_pushes {type : BlockType} {data : List UInt8}
    {next : Bool → Script State}
    (owned : ∀ accepted, Owned .parent (next accepted)) (last : (next true).Ends)
    (refused : (next false).Pushes) :
    Owned .parent (s.pushScript fd type data next) ∧ (s.pushScript fd type data next).Pushes := by
  unfold State.pushScript
  split
  · exact ⟨⟨rfl, owned⟩, last, refused⟩
  · exact ⟨owned true, last.pushes⟩

private theorem dropScript_pushes (s : State) (fd : Int) :
    Owned .parent (s.dropScript fd) ∧ (s.dropScript fd).Pushes := by
  unfold State.dropScript
  split
  · exact ⟨trivial, trivial⟩
  · exact pushScript_pushes (fun _ => trivial) trivial trivial

private theorem openScript_pushes (s : State) (fd newfd : Int) (peer : UInt16 × UInt32)
    (now : UInt32) :
    Owned .parent (s.openScript fd newfd peer now) ∧ (s.openScript fd newfd peer now).Pushes :=
  pushScript_pushes (fun _ => trivial) trivial trivial

private theorem packetScript_pushes (s : State) (fd : Int) (data : List UInt8) :
    Owned .parent (s.packetScript fd data) ∧ (s.packetScript fd data).Pushes := by
  obtain ⟨owned, pushes⟩ := dropScript_pushes s fd
  refine pushScript_pushes (fun accepted => ?_) trivial pushes
  cases accepted with
  | true => exact trivial
  | false => exact owned

private theorem applyScript_pushes (s : State) (mb : Block) (outcome : SendOutcome) :
    Owned .parent (s.applyScript mb outcome) ∧ (s.applyScript mb outcome).Pushes := by
  unfold State.applyScript
  split
  · exact ⟨trivial, trivial⟩
  · cases outcome with
    | sent => exact ⟨trivial, trivial⟩
    | failed => exact dropScript_pushes s mb.fd

private theorem Proper.of_pushes {party : Party} {Result : Type} {script : Script Result}
    (facts : Owned party script ∧ script.Pushes) : Proper party script := ⟨facts.1, facts.2.short⟩

theorem Proper.ret {party : Party} {Result : Type} (result : Result) :
    Proper party (.ret result : Script Result) := ⟨trivial, trivial⟩

private theorem outputScript_proper (s : State) (worker : Nat) (outcome : SendOutcome) :
    Proper .parent (s.outputScript worker outcome) := by
  have each (mb : Block) : Owned .parent
      (if s.Passes mb then s.applyScript mb outcome else .ret s) ∧
      (if s.Passes mb then s.applyScript mb outcome else .ret s).Pushes := by
    split
    · exact applyScript_pushes s mb outcome
    · exact ⟨trivial, trivial⟩
  refine ⟨⟨rfl, fun answer => ?_⟩, rfl, trivial, fun mb => (each mb).2⟩
  cases answer with
  | none => exact trivial
  | some mb => exact (each mb).1

private theorem parentScript_proper (s : State) (action : Action) :
    Proper .parent (s.script action) := by
  cases action with
  | accept fd newfd peer now =>
      rw [State.script]
      split
      · exact .of_pushes (openScript_pushes s fd newfd peer now)
      · exact .ret s
  | packet fd data =>
      rw [State.script]
      split
      · exact .of_pushes (packetScript_pushes s fd data)
      · exact .ret s
  | drop fd =>
      rw [State.script]
      split
      · exact .of_pushes (dropScript_pushes s fd)
      · exact .ret s
  | output worker outcome => exact outputScript_proper s worker outcome
  | register | transfer | closeQueue | recv | send | close => exact .ret _

private theorem blockScript_pushes (w : Worker) (worker : Nat) (mb : Block) :
    Owned (.worker worker) (w.blockScript worker mb) ∧ (w.blockScript worker mb).Pushes := by
  unfold Worker.blockScript
  split
  · exact ⟨trivial, trivial⟩
  · split
    · exact ⟨⟨rfl, fun _ => trivial⟩, trivial, trivial⟩
    · exact ⟨trivial, trivial⟩
  · exact ⟨trivial, trivial⟩
  · exact ⟨trivial, trivial⟩

private theorem recvScript_proper (w : Worker) (worker : Nat) :
    Proper (.worker worker) (w.recvScript worker) := by
  refine ⟨⟨rfl, fun answer => ?_⟩, rfl, trivial, fun mb => (blockScript_pushes w worker mb).2⟩
  cases answer with
  | none => exact trivial
  | some mb => exact (blockScript_pushes w worker mb).1

private theorem workerScript_proper (w : Worker) (worker : Nat) (action : Action) :
    Proper (.worker worker) (w.script worker action) := by
  cases action with
  | recv => exact recvScript_proper w worker
  | send _ fd data =>
      rw [Worker.script, Worker.sendScript]
      split
      · exact .of_pushes ⟨⟨rfl, fun _ => trivial⟩, trivial, trivial⟩
      · exact .ret w
  | close _ fd =>
      rw [Worker.script, Worker.closeScript]
      split
      · exact .of_pushes ⟨⟨rfl, fun _ => trivial⟩, trivial, trivial⟩
      · exact .ret w
  | register | accept | packet | transfer | drop | output | closeQueue => exact .ret w

private theorem script_proper (party : Party) (memory : party.Memory) (action : Action) :
    Proper party (party.script memory action) := by
  cases party with
  | parent => exact parentScript_proper memory action
  | worker number => exact workerScript_proper memory number action

end Scripts

/-! ## A script is an action -/

def Worker.withQueues (w : Worker) (recvq sendq : List Block) : Worker :=
  { w with recvq := recvq, sendq := sendq }

/-- The parent and its workers with the contents of the queues. -/
def assemble (s : State) (workers : Nat → Worker) (queues : QueueName → List Block) : State :=
  { s with
    worker := fun worker => (workers worker).withQueues (queues (.recvq worker))
      (queues (.sendq worker)) }

section Assembled

variable {s : State} {workers : Nat → Worker} {queues queues' : QueueName → List Block}
  {worker : Nat} {w : Worker}

/-- One worker has changed, with its queues. -/
theorem assemble_setWorker (w : Worker)
    (apart : ∀ other ≠ worker, queues' (.recvq other) = queues (.recvq other) ∧
      queues' (.sendq other) = queues (.sendq other)) :
    assemble s (Function.update workers worker w) queues' =
      (assemble s workers queues).setWorker worker
        (w.withQueues (queues' (.recvq worker)) (queues' (.sendq worker))) := by
  unfold assemble State.setWorker
  congr
  funext other
  by_cases here : other = worker
  · subst here
    simp
  · obtain ⟨recvq, sendq⟩ := apart other here
    simp [here, recvq, sendq]

private theorem assemble_setQueues (queues queues' : QueueName → List Block)
    (apart : ∀ other ≠ worker, queues' (.recvq other) = queues (.recvq other) ∧
      queues' (.sendq other) = queues (.sendq other)) :
    assemble s workers queues' =
      (assemble s workers queues).setWorker worker
        ((workers worker).withQueues (queues' (.recvq worker)) (queues' (.sendq worker))) := by
  rw [← assemble_setWorker (workers worker) apart, Function.update_eq_self]

private theorem assemble_recvq (items : List Block) :
    assemble s workers (Function.update queues (.recvq worker) items) =
      (assemble s workers queues).setWorker worker
        ((workers worker).withQueues items (queues (.sendq worker))) := by
  rw [assemble_setQueues queues _ fun other (apart : other ≠ worker) => by simp [apart]]
  simp

private theorem assemble_sendq (items : List Block) :
    assemble s workers (Function.update queues (.sendq worker) items) =
      (assemble s workers queues).setWorker worker
        ((workers worker).withQueues (queues (.recvq worker)) items) := by
  rw [assemble_setQueues queues _ fun other (apart : other ≠ worker) => by simp [apart]]
  simp

private theorem pushScript_runs (workers : Nat → Worker) {fd : Int} {type : BlockType}
    {data : List UInt8}
    {next : Bool → Script State} {result : State}
    (runs : (s.pushScript fd type data next).Runs queues result queues') :
    ∃ accepted between, (next accepted).Runs between result queues' ∧
      assemble s workers between = (assemble s workers queues).pushBlock fd type data accepted := by
  unfold State.pushScript at runs
  unfold State.pushBlock
  split at runs
  · rename_i worker serves
    have serves' : ((assemble s workers queues).epi.fds fd).bcElem = some worker := serves
    simp only [serves']
    cases runs with
    | accept after => exact ⟨true, _, after, assemble_recvq _⟩
    | refuse after =>
        exact ⟨false, _, after, ((assemble s workers queues).setWorker_eq_self worker).symm⟩
  · rename_i serves
    have serves' : ((assemble s workers queues).epi.fds fd).bcElem = none := serves
    simp only [serves']
    exact ⟨true, queues, runs, rfl⟩

private theorem dropScript_runs (workers : Nat → Worker) {fd : Int} {result : State}
    (runs : (s.dropScript fd).Runs queues result queues') :
    ∃ accepted, assemble result workers queues' =
      (assemble s workers queues).dropConn fd accepted := by
  unfold State.dropScript at runs
  split at runs
  · rename_i unused
    cases runs
    exact ⟨true, (if_pos unused).symm⟩
  · rename_i used
    obtain ⟨accepted, between, after, pushed⟩ := pushScript_runs workers runs
    cases after
    refine ⟨accepted, ?_⟩
    exact (congrArg (·.delConn fd) pushed).trans (if_neg used).symm

private theorem openScript_runs (workers : Nat → Worker) {fd newfd : Int} {peer : UInt16 × UInt32}
    {now : UInt32} {result : State}
    (runs : (s.openScript fd newfd peer now).Runs queues result queues') :
    ∃ accepted, assemble result workers queues' =
      (assemble s workers queues).openConn fd newfd peer now accepted := by
  obtain ⟨accepted, between, after, pushed⟩ := pushScript_runs workers runs
  cases after
  refine ⟨accepted, ?_⟩
  cases accepted with
  | true => exact pushed
  | false => exact congrArg (·.delConn newfd) pushed

private theorem packetScript_runs (workers : Nat → Worker) {fd : Int} {data : List UInt8}
    {result : State}
    (runs : (s.packetScript fd data).Runs queues result queues') :
    ∃ accepted closeAccepted, assemble result workers queues' =
      let s := (assemble s workers queues).pushBlock fd .dataBlock data accepted
      if accepted then s else s.dropConn fd closeAccepted := by
  obtain ⟨accepted, between, after, pushed⟩ := pushScript_runs workers runs
  cases accepted with
  | true =>
      cases after
      exact ⟨true, true, pushed⟩
  | false =>
      obtain ⟨closeAccepted, dropped⟩ := dropScript_runs workers after
      exact ⟨false, closeAccepted, dropped.trans (congrArg (·.dropConn fd closeAccepted) pushed)⟩

private theorem applyScript_runs (workers : Nat → Worker) {mb : Block} {outcome : SendOutcome}
    {result : State} (runs : (s.applyScript mb outcome).Runs queues result queues') :
    ∃ outcome', assemble result workers queues' =
      (assemble s workers queues).applyBlock mb outcome' := by
  unfold State.applyScript at runs
  unfold State.applyBlock
  split at runs
  · rename_i fin
    cases runs
    exact ⟨outcome, (if_pos fin).symm⟩
  · rename_i other
    simp only [if_neg other]
    cases outcome with
    | sent cb now =>
        cases runs
        exact ⟨.sent cb now, rfl⟩
    | failed =>
        obtain ⟨accepted, dropped⟩ := dropScript_runs workers runs
        exact ⟨.failed accepted, dropped⟩

private theorem outputScript_runs (workers : Nat → Worker) {outcome : SendOutcome} {result : State}
    (runs : (s.outputScript worker outcome).Runs queues result queues') :
    ∃ outcome', assemble result workers queues' =
      (assemble s workers queues).handleSendQueue worker outcome' := by
  cases runs with
  | empty drained after =>
      cases after
      refine ⟨outcome, ?_⟩
      have empty : ((assemble s workers queues).worker worker).sendq = [] := drained
      simp only [State.handleSendQueue, empty]
  | take mb rest front after =>
      have first : ((assemble s workers queues).worker worker).sendq = mb :: rest := front
      have popped : assemble s workers (Function.update queues (.sendq worker) rest) =
          (assemble s workers queues).setWorker worker
            { (assemble s workers queues).worker worker with sendq := rest } := assemble_sendq rest
      simp only at after
      split at after
      · rename_i passes
        obtain ⟨outcome', applied⟩ := applyScript_runs workers after
        refine ⟨outcome', applied.trans ?_⟩
        rw [State.handleSendQueue_front first, popped]
        exact (if_pos passes).symm
      · rename_i stopped
        cases after
        refine ⟨outcome, popped.trans ?_⟩
        rw [State.handleSendQueue_front first]
        exact (if_neg stopped).symm

/-- What a script of the parent does at once is an action of the parent. -/
theorem parentScript_runs (workers : Nat → Worker) {action : Action} {result : State}
    (runs : (s.script action).Runs queues result queues') :
    assemble result workers queues' = assemble s workers queues ∨
      ∃ action, assemble result workers queues' = step (assemble s workers queues) action := by
  cases action with
  | accept fd newfd peer now =>
      rw [State.script] at runs
      split at runs
      · rename_i enabled
        obtain ⟨accepted, opened⟩ := openScript_runs workers runs
        exact .inr ⟨.accept fd newfd peer now accepted, opened.trans (if_pos enabled).symm⟩
      · cases runs
        exact .inl rfl
  | packet fd data =>
      rw [State.script] at runs
      split at runs
      · rename_i enabled
        obtain ⟨accepted, closeAccepted, pushed⟩ := packetScript_runs workers runs
        exact .inr ⟨.packet fd data accepted closeAccepted, pushed.trans (if_pos enabled).symm⟩
      · cases runs
        exact .inl rfl
  | drop fd =>
      rw [State.script] at runs
      split at runs
      · rename_i enabled
        obtain ⟨accepted, dropped⟩ := dropScript_runs workers runs
        exact .inr ⟨.drop fd accepted, dropped.trans (if_pos enabled).symm⟩
      · cases runs
        exact .inl rfl
  | output worker outcome =>
      obtain ⟨outcome', handled⟩ := outputScript_runs workers runs
      exact .inr ⟨.output worker outcome', handled⟩
  | register fd type owner =>
      cases runs
      exact .inr ⟨.register fd type owner, apply_ite (assemble · workers queues) ..⟩
  | transfer fd cb now =>
      cases runs
      exact .inr ⟨.transfer fd cb now, apply_ite (assemble · workers queues) ..⟩
  | closeQueue =>
      cases runs
      refine .inr ⟨.closeQueue, ?_⟩
      have head : (assemble s workers queues).epi.closeHead = s.epi.closeHead := rfl
      simp only [step, head]
      cases s.epi.closeHead <;> rfl
  | recv | send | close =>
      cases runs
      exact .inl rfl

/-- All queues but those of one worker are as they were. -/
def OnlyOf (worker : Nat) (queues queues' : QueueName → List Block) : Prop :=
  ∀ other ≠ worker, queues' (.recvq other) = queues (.recvq other) ∧
    queues' (.sendq other) = queues (.sendq other)

private theorem onlyOf_recvq (items : List Block) :
    OnlyOf worker queues (Function.update queues (.recvq worker) items) :=
  fun other apart => by simp [apart]

private theorem onlyOf_sendq (items : List Block) :
    OnlyOf worker queues (Function.update queues (.sendq worker) items) :=
  fun other apart => by simp [apart]

private theorem withQueues_handleProcess (w : Worker) (recvq sendq : List Block) (mb : Block) :
    (w.withQueues recvq sendq).handleProcess mb = (w.handleProcess mb).withQueues recvq sendq := by
  have same : (w.withQueues recvq sendq).getFdsess mb.fd = w.getFdsess mb.fd := rfl
  unfold Worker.handleProcess
  rw [same]
  cases w.getFdsess mb.fd <;> rfl

/-- One push of a worker to its send queue. -/
theorem pushSendq_runs {mb : Block} {next : Bool → Script Worker} {result : Worker}
    (next_eq : ∀ accepted, next accepted = .ret w)
    (runs : Code.Runs (.push (.sendq worker) mb next) queues result queues') :
    OnlyOf worker queues queues' ∧ ∃ accepted,
      result.withQueues (queues' (.recvq worker)) (queues' (.sendq worker)) =
        (w.withQueues (queues (.recvq worker)) (queues (.sendq worker))).pushSendq mb accepted := by
  cases runs with
  | accept after =>
      rw [next_eq] at after
      cases after
      exact ⟨onlyOf_sendq _, true, by simp [Worker.withQueues, Worker.pushSendq]⟩
  | refuse after =>
      rw [next_eq] at after
      cases after
      exact ⟨fun _ _ => ⟨rfl, rfl⟩, false, rfl⟩

private theorem blockScript_runs {mb : Block} {result : Worker}
    (runs : (w.blockScript worker mb).Runs queues result queues') :
    OnlyOf worker queues queues' ∧ ∃ accepted,
      result.withQueues (queues' (.recvq worker)) (queues' (.sendq worker)) =
        (w.withQueues (mb :: queues (.recvq worker))
          (queues (.sendq worker))).handleRecvQueue accepted := by
  obtain ⟨id, fd, type, data, origin⟩ := mb
  cases type with
  | dataBlock =>
      cases runs
      refine ⟨fun _ _ => ⟨rfl, rfl⟩, true, ?_⟩
      rw [apply_ite (Worker.withQueues · _ _), ← withQueues_handleProcess]
      rfl
  | openBlock =>
      by_cases refused : (w.getFdsess fd).isSome ∨ data.length ≠ sizeofRemoteInfo
      · have rejected : w.handleOpen ⟨id, fd, .openBlock, data, origin⟩ = (w, -1) := if_pos refused
        simp only [Worker.blockScript, rejected] at runs
        obtain ⟨only, accepted, pushed⟩ := pushSendq_runs (fun _ => rfl) runs
        have rejected' : (w.withQueues (queues (.recvq worker)) (queues (.sendq worker))).handleOpen
            ⟨id, fd, .openBlock, data, origin⟩ =
              (w.withQueues (queues (.recvq worker)) (queues (.sendq worker)), -1) := if_pos refused
        refine ⟨only, accepted, pushed.trans ?_⟩
        simp only [Worker.withQueues] at rejected'
        simp only [Worker.handleRecvQueue, Worker.withQueues, rejected']
      · have opened (w' : Worker) (same : w'.cn = w.cn) :
            w'.handleOpen ⟨id, fd, .openBlock, data, origin⟩ =
              (w'.addFdsess (Worker.sessionOf ⟨id, fd, .openBlock, data, origin⟩), 0) := by
          unfold Worker.getFdsess at refused
          rw [← same] at refused
          exact if_neg refused
        have opened' := opened (w.withQueues (queues (.recvq worker)) (queues (.sendq worker))) rfl
        simp only [Worker.blockScript, opened w rfl] at runs
        cases runs
        refine ⟨fun _ _ => ⟨rfl, rfl⟩, true, ?_⟩
        simp only [Worker.withQueues] at opened'
        simp only [Worker.handleRecvQueue, Worker.withQueues, opened']
        rfl
  | closeBlock =>
      cases runs
      exact ⟨fun _ _ => ⟨rfl, rfl⟩, true, rfl⟩
  | finBlock =>
      cases runs
      exact ⟨fun _ _ => ⟨rfl, rfl⟩, true, rfl⟩

private theorem recvScript_runs {result : Worker}
    (runs : (w.recvScript worker).Runs queues result queues') :
    OnlyOf worker queues queues' ∧ ∃ accepted,
      result.withQueues (queues' (.recvq worker)) (queues' (.sendq worker)) =
        (w.withQueues (queues (.recvq worker))
          (queues (.sendq worker))).handleRecvQueue accepted := by
  cases runs with
  | empty drained after =>
      cases after
      refine ⟨fun _ _ => ⟨rfl, rfl⟩, true, ?_⟩
      simp [Worker.handleRecvQueue, Worker.withQueues, drained]
  | take mb rest front after =>
      obtain ⟨only, accepted, handled⟩ := blockScript_runs after
      refine ⟨fun other apart => ?_, accepted, ?_⟩
      · rw [(only other apart).1, (only other apart).2]
        exact onlyOf_recvq rest other apart
      · rw [handled, front]
        simp

private theorem sendScript_runs {fd : Int} {data : List UInt8} {result : Worker}
    (runs : (w.sendScript worker fd data).Runs queues result queues') :
    OnlyOf worker queues queues' ∧ ∃ accepted,
      result.withQueues (queues' (.recvq worker)) (queues' (.sendq worker)) =
        (w.withQueues (queues (.recvq worker))
          (queues (.sendq worker))).sendPkgToClient fd data accepted := by
  have same : (w.withQueues (queues (.recvq worker)) (queues (.sendq worker))).getFdsess fd =
    w.getFdsess fd := rfl
  unfold Worker.sendScript at runs
  unfold Worker.sendPkgToClient
  rw [same]
  cases found : w.getFdsess fd with
  | none =>
      rw [found] at runs
      cases runs
      exact ⟨fun _ _ => ⟨rfl, rfl⟩, true, rfl⟩
  | some session =>
      rw [found] at runs
      exact pushSendq_runs (fun _ => rfl) runs

private theorem closeScript_runs {fd : Int} {result : Worker}
    (runs : (w.closeScript worker fd).Runs queues result queues') :
    OnlyOf worker queues queues' ∧ ∃ accepted,
      result.withQueues (queues' (.recvq worker)) (queues' (.sendq worker)) =
        (w.withQueues (queues (.recvq worker))
          (queues (.sendq worker))).closeClientConn fd accepted := by
  have same : (w.withQueues (queues (.recvq worker)) (queues (.sendq worker))).getFdsess fd =
    w.getFdsess fd := rfl
  unfold Worker.closeScript at runs
  unfold Worker.closeClientConn
  rw [same]
  cases found : w.getFdsess fd with
  | none =>
      rw [found] at runs
      cases runs
      exact ⟨fun _ _ => ⟨rfl, rfl⟩, true, rfl⟩
  | some session =>
      rw [found] at runs
      exact pushSendq_runs (fun _ => rfl) runs

/-- What a script of a worker does at once is an action of the worker. -/
theorem workerScript_runs (s : State) (workers : Nat → Worker) {action : Action} {result : Worker}
    (runs : ((workers worker).script worker action).Runs queues result queues') :
    assemble s (Function.update workers worker result) queues' = assemble s workers queues ∨
      ∃ action, assemble s (Function.update workers worker result) queues' =
        step (assemble s workers queues) action := by
  cases action with
  | recv =>
      obtain ⟨only, accepted, handled⟩ := recvScript_runs runs
      exact .inr ⟨.recv worker accepted, (assemble_setWorker result only).trans
        (congrArg ((assemble s workers queues).setWorker worker) handled)⟩
  | send _ fd data =>
      obtain ⟨only, accepted, sent⟩ := sendScript_runs runs
      exact .inr ⟨.send worker fd data accepted, (assemble_setWorker result only).trans
        (congrArg ((assemble s workers queues).setWorker worker) sent)⟩
  | close _ fd =>
      obtain ⟨only, accepted, closed⟩ := closeScript_runs runs
      exact .inr ⟨.close worker fd accepted, (assemble_setWorker result only).trans
        (congrArg ((assemble s workers queues).setWorker worker) closed)⟩
  | register | accept | packet | transfer | drop | output | closeQueue =>
      cases runs
      exact .inl (congrArg (assemble s · queues) (Function.update_eq_self worker workers))

end Assembled

/-- The scripts of the server. -/
def OfServer (party : Party) (memory : party.Memory) (script : Script party.Memory) : Prop :=
  ∃ action, script = party.script memory action

/-! ## One queue in shared memory -/

namespace Channel

/-- The blocks that are published and not released. -/
def content (ch : Channel) : List Block :=
  List.zipWith (fun message origin => .ofBytes message.bytes origin) ch.shm.pending ch.origins

/-- The call of `shmq_push` has published its block. -/
def published (ch : Channel) : Bool :=
  match ch.shm.producer with
  | .writePipe _ => true
  | _ => false

/-- The block that the call of `shmq_pop` has released. -/
def released (ch : Channel) : Option Block :=
  match ch.shm.consumer with
  | .finish curMb => some (.ofBytes (Shmq.blockBytes ch.shm.memory curMb) ch.origin)
  | _ => none

structure Sound (c : Shmq.Config) (ch : Channel) : Prop where
  inv : Shmq.Inv c ch.shm
  origins : ch.origins.length = ch.shm.pending.length

/-- What a step of the producer does, in a call with the block. -/
inductive Produced (mb : Block) (message : Shmq.Message) (ch ch' : Channel) : Prop
  | quiet (content : ch'.content = ch.content) (published : ch'.published = ch.published)
      (calls : ch'.shm.producer.Status (.called (.push message)))
  | publish (content : ch'.content = ch.content ++ [mb]) (before : ch.published = false)
      (after : ch'.published = true)
  | refuse (content : ch'.content = ch.content) (before : ch.published = false)
      (result : ch'.shm.producer = .ret (-1))
  | accept (content : ch'.content = ch.content) (before : ch.published = true)
      (result : ch'.shm.producer = .ret 0)

/-- What a step of the consumer does in a call. -/
inductive Consumed (ch ch' : Channel) : Prop
  | quiet (content : ch'.content = ch.content) (before : ch.released = none)
      (after : ch'.released = none) (inside : ch'.shm.consumer.isBetween = false)
  | empty (drained : ch.content = []) (content : ch'.content = ch.content)
      (before : ch.released = none) (result : ch'.shm.consumer = .ret none)
  | take (mb : Block) (content : ch.content = mb :: ch'.content) (before : ch.released = none)
      (after : ch'.released = some mb) (inside : ch'.shm.consumer.isBetween = false)
  | ret (curMb : Int) (content : ch'.content = ch.content)
      (before : ch.released =
        some (.ofBytes (Shmq.blockBytes ch'.shm.memory curMb) ch'.origin))
      (result : ch'.shm.consumer = .ret (some curMb))

variable {c : Shmq.Config} {ch : Channel} {mb : Block} {message : Shmq.Message}

theorem sound_init (fits : c.Fits) : init.Sound c := ⟨Shmq.inv_init fits, rfl⟩

private theorem published_false (calls : ch.shm.producer.Status (.called (.push message))) :
    ch.published = false := by
  unfold published
  split
  · rename_i pc
    rw [pc] at calls
    cases calls
  · rfl

private theorem produce_quiet (origin : Nat)
    (quiet : ∀ m, (Shmq.produce c ch.shm).producer ≠ .writePipe m) :
    ch.produce c origin = { ch with shm := Shmq.produce c ch.shm } := by
  cases pc : (Shmq.produce c ch.shm).producer with
  | writePipe m => exact absurd pc (quiet m)
  | _ => simp only [produce, pc]

private theorem produce_publish (origin : Nat) {m : Shmq.Message}
    (publishes : (Shmq.produce c ch.shm).producer = .writePipe m) :
    ch.produce c origin =
      { ch with shm := Shmq.produce c ch.shm, origins := ch.origins ++ [origin] } := by
  simp only [produce, publishes]

private theorem produce_moves (fits : c.Fits) (sound : ch.Sound c)
    (encoded : mb.message = some message)
    (inside : ch.shm.producer.Status (.called (.push message)) ∨ ch.published = true) :
    (ch.produce c mb.origin).Sound c ∧ Produced mb message ch (ch.produce c mb.origin) := by
  have inv := Shmq.inv_step fits sound.inv .produce
  rcases inside with calls | published
  · have before := published_false calls
    cases Shmq.produce_move (c := c) sound.inv.count with
    | silent same keeps =>
        have calls' := keeps _ calls
        rw [produce_quiet mb.origin fun m pc => by rw [pc] at calls'; cases calls']
        exact ⟨⟨inv, sound.origins.trans (congrArg _ same.symm)⟩,
          .quiet (by rw [content, same]; rfl) ((published_false calls').trans before.symm) calls'⟩
    | refuse m same called between result =>
        rw [produce_quiet mb.origin fun m pc => by rw [pc] at result; cases result]
        exact ⟨⟨inv, sound.origins.trans (congrArg _ same.symm)⟩,
          .refuse (by rw [content, same]; rfl) before result⟩
    | accept m grown called result =>
        cases called _ calls
        rw [produce_publish mb.origin result]
        refine ⟨⟨inv, ?_⟩, .publish ?_ before (by rw [Channel.published, result])⟩
        · rw [List.length_append, sound.origins, grown, List.length_append]
          rfl
        · have block := Block.ofBytes_message encoded
          rw [content, grown, List.zipWith_append sound.origins.symm]
          simp only [List.zipWith_cons_cons, List.zipWith_nil_left, block]
          rfl
    | ret same done => cases done _ calls
  · have before := published
    unfold Channel.published at published
    split at published
    · rename_i m pc
      have returns : Shmq.produce c ch.shm =
          { ch.shm with rings := ch.shm.rings + 1, producer := .ret 0 } := by
        rw [Shmq.produce, pc]
      rw [produce_quiet mb.origin fun m pc => by rw [returns] at pc; cases pc]
      refine ⟨⟨inv, ?_⟩, .accept ?_ before ?_⟩
      · rw [returns]
        exact sound.origins
      · rw [returns]
        rfl
      · rw [returns]
    · cases published

private theorem produce_shm (c : Shmq.Config) (ch : Channel) (origin : Nat) :
    (ch.produce c origin).shm = Shmq.produce c ch.shm ∧ (ch.produce c origin).origin = ch.origin := by
  cases pc : (Shmq.produce c ch.shm).producer <;> simp only [produce, pc, and_self]

/-- The block that the consumer is about to read stays. -/
theorem produce_released (fits : c.Fits) (sound : ch.Sound c) (origin : Nat) :
    (ch.produce c origin).shm.consumer = ch.shm.consumer ∧
      (ch.produce c origin).released = ch.released := by
  obtain ⟨shm, same⟩ := produce_shm c ch origin
  have effect := (Shmq.produce_effect fits sound.inv).1
  have consumer := effect.consumer.1
  refine ⟨by rw [shm, consumer], ?_⟩
  rw [released, released, shm, same, consumer]
  cases pc : ch.shm.consumer with
  | finish curMb =>
      have delivered := sound.inv.delivered
      rw [pc] at delivered
      obtain ⟨-, m, -, -, held⟩ := delivered
      simp only
      rw [Shmq.blockBytes_of_holds held.1, Shmq.blockBytes_of_holds (effect.held held).1]
  | _ => rfl

private theorem consume_quiet (quiet : ∀ curMb, (Shmq.consume c ch.shm).consumer ≠ .finish curMb) :
    ch.consume c = { ch with shm := Shmq.consume c ch.shm } := by
  cases pc : (Shmq.consume c ch.shm).consumer with
  | finish curMb => exact absurd pc (quiet curMb)
  | _ => simp only [consume, pc]

private theorem consume_release {curMb : Int}
    (releases : (Shmq.consume c ch.shm).consumer = .finish curMb) :
    ch.consume c = ⟨Shmq.consume c ch.shm, ch.origins.tail, ch.origins.headD 0⟩ := by
  simp only [consume, releases]

private theorem consume_published (c : Shmq.Config) (ch : Channel) :
    (ch.consume c).shm.producer = ch.shm.producer ∧ (ch.consume c).published = ch.published := by
  have shm : (ch.consume c).shm = Shmq.consume c ch.shm := by
    cases pc : (Shmq.consume c ch.shm).consumer <;> simp only [consume, pc]
  have producer := (Shmq.consume_producer c ch.shm).1
  unfold published
  rw [shm, producer]
  exact ⟨rfl, rfl⟩

private theorem released_none (quiet : ∀ curMb, ch.shm.consumer ≠ .finish curMb) :
    ch.released = none := by
  cases pc : ch.shm.consumer with
  | finish curMb => exact absurd pc (quiet curMb)
  | _ => simp only [released, pc]

private theorem consume_moves (fits : c.Fits) (sound : ch.Sound c)
    (inside : ch.shm.consumer.isBetween = false) :
    (ch.consume c).Sound c ∧ Consumed ch (ch.consume c) := by
  have inv := Shmq.inv_step fits sound.inv .consume
  by_cases calls : ch.shm.consumer.Calls
  · have before : ch.released = none :=
      released_none fun curMb pc => by rw [pc] at calls; exact calls
    have status := (Shmq.popStatus_iff (c := c) calls (.called .pop)).mpr rfl
    cases Shmq.consume_move fits sound.inv with
    | silent same keeps between =>
        have still := keeps _ status
        have quiet : ∀ curMb, (Shmq.consume c ch.shm).consumer ≠ .finish curMb := by
          intro curMb pc
          rw [Shmq.State.PopStatus, pc] at still
          obtain ⟨m, -, done⟩ := still
          cases done
        rw [consume_quiet quiet]
        refine ⟨⟨inv, sound.origins.trans (congrArg _ same.symm)⟩,
          .quiet (by rw [content, same]; rfl) before (released_none quiet) ?_⟩
        exact between.resolve_left (by rw [inside]; exact Bool.false_ne_true)
    | empty drained same called between result =>
        rw [consume_quiet fun curMb pc => by rw [pc] at result; cases result]
        exact ⟨⟨inv, sound.origins.trans (congrArg _ same.symm)⟩,
          .empty (by rw [content, drained]; rfl) (by rw [content, same]; rfl) before result⟩
    | take m first called curMb held result =>
        have length := sound.origins
        rw [first] at length
        obtain ⟨origin, rest, origins⟩ := List.exists_cons_of_length_eq_add_one length
        rw [consume_release result]
        refine ⟨⟨inv, ?_⟩, .take (.ofBytes m.bytes origin) ?_ before ?_ ?_⟩
        · rw [origins] at length ⊢
          exact Nat.succ.inj length
        · rw [content, content, first, origins]
          rfl
        · rw [released]
          simp only [result, origins]
          rw [Shmq.blockBytes_of_holds held.1]
          rfl
        · simp only [result]
          rfl
    | ret same curMb done => cases done _ status
  · cases pc : ch.shm.consumer with
    | finish curMb =>
        have returns : Shmq.consume c ch.shm =
            { ch.shm with
              returned := ch.shm.returned ++ [Shmq.blockBytes ch.shm.memory curMb]
              consumer := .ret (some curMb) } := by
          rw [Shmq.consume, pc]
        rw [consume_quiet fun curMb pc => by rw [returns] at pc; cases pc]
        refine ⟨⟨inv, ?_⟩, .ret curMb ?_ ?_ ?_⟩
        · rw [returns]
          exact sound.origins
        · rw [returns]
          rfl
        · simp only [released, pc, returns]
        · rw [returns]
    | idle | ret => rw [pc] at inside; cases inside
    | _ => rw [pc] at calls; exact absurd trivial calls

private theorem published_between (between : ch.shm.producer.isBetween = true) :
    ch.published = false := by
  cases pc : ch.shm.producer with
  | writePipe => rw [pc] at between; cases between
  | _ => simp only [published, pc]

private theorem released_between (between : ch.shm.consumer.isBetween = true) :
    ch.released = none :=
  released_none fun curMb pc => by rw [pc] at between; cases between

end Channel

/-! ## The processes -/

namespace Processes

/-- Once its block is published or released, a call is as good as answered. -/
def ahead (s : Processes) {Result : Type} : Script Result → Script Result
  | .push queue mb next => if (s.channel queue).published then next true else .push queue mb next
  | .pop queue next =>
      match (s.channel queue).released with
      | some mb => next (some mb)
      | none => .pop queue next
  | .ret result => .ret result

/-- The processes with whole pushes and pops. -/
def shared (s : Processes) : Shared Party QueueName Block Party.Memory where
  memory := s.memory
  code party := (s.code party).map s.ahead
  queue queue := (s.channel queue).content

private theorem shared_code (s : Processes) (party : Party) :
    s.shared.code party = (s.code party).map s.ahead := rfl

private theorem shared_queue (s : Processes) (queue : QueueName) :
    s.shared.queue queue = (s.channel queue).content := rfl

structure Sound (c : Shmq.Config) (s : Processes) : Prop where
  channels : ∀ queue, (s.channel queue).Sound c
  owned : ∀ party script, s.code party = some script → Owned party script
  pushing : ∀ queue, (s.channel queue).shm.producer.isBetween = false →
    ∃ mb next message, s.code queue.producer = some (.push queue mb next) ∧
      mb.message = some message ∧
      ((s.channel queue).shm.producer.Status (.called (.push message)) ∨
        (s.channel queue).published = true)
  popping : ∀ queue, (s.channel queue).shm.consumer.isBetween = false →
    ∃ next, s.code queue.consumer = some (.pop queue next)

/-- The queue that a script uses next. -/
def Uses (queue : QueueName) {Result : Type} : Script Result → Prop
  | .push other _ _ | .pop other _ => other = queue
  | .ret _ => False

/-- The party is in no call. -/
structure Rests (s : Processes) (party : Party) (queue : QueueName) : Prop where
  pushes : queue.producer = party → (s.channel queue).shm.producer.isBetween = true
  pops : queue.consumer = party → (s.channel queue).shm.consumer.isBetween = true

variable {c : Shmq.Config} {s : Processes} {party : Party} {queue : QueueName} {ch : Channel}

private theorem Sound.rests_idle (sound : s.Sound c) (idle : s.code party = none)
    (queue : QueueName) :
    s.Rests party queue := by
  constructor
  · rintro rfl
    by_contra inside
    obtain ⟨mb, next, message, here, -⟩ := sound.pushing queue (Bool.not_eq_true _ ▸ inside)
    rw [idle] at here
    cases here
  · rintro rfl
    by_contra inside
    obtain ⟨next, here⟩ := sound.popping queue (Bool.not_eq_true _ ▸ inside)
    rw [idle] at here
    cases here

private theorem Sound.rests_other (sound : s.Sound c) {script : Script party.Memory}
    (here : s.code party = some script) {other : QueueName} (apart : ¬ Uses other script) :
    s.Rests party other := by
  constructor
  · rintro rfl
    by_contra inside
    obtain ⟨mb, next, message, there, -⟩ := sound.pushing other (Bool.not_eq_true _ ▸ inside)
    rw [here] at there
    cases there
    exact apart rfl
  · rintro rfl
    by_contra inside
    obtain ⟨next, there⟩ := sound.popping other (Bool.not_eq_true _ ▸ inside)
    rw [here] at there
    cases there
    exact apart rfl

private theorem setCode_self (s : Processes) (party : Party) :
    s.setCode party (s.code party) = s := by
  unfold setCode
  rw [Function.update_eq_self]

@[simp] theorem setCode_code (s : Processes) (code : Option (Script party.Memory)) :
    (s.setCode party code).code party = code := Function.update_self ..

private theorem setCode_code_other {other : Party} (apart : other ≠ party) (s : Processes)
    (code : Option (Script party.Memory)) : (s.setCode party code).code other = s.code other :=
  Function.update_of_ne apart ..

/-- One party has used one queue, and may have gone on. -/
def move (s : Processes) (party : Party) (queue : QueueName) (ch : Channel)
    (script : Script party.Memory) : Processes :=
  (s.setChannel queue ch).setCode party (some script)

@[simp] theorem move_channel (script : Script party.Memory) :
    (s.move party queue ch script).channel queue = ch := Function.update_self ..

@[simp] theorem move_code (script : Script party.Memory) :
    (s.move party queue ch script).code party = some script := Function.update_self ..

private theorem move_channel_other {other : QueueName} (apart : other ≠ queue)
    (script : Script party.Memory) :
    (s.move party queue ch script).channel other = s.channel other :=
  Function.update_of_ne apart ..

private theorem move_code_other {other : Party} (apart : other ≠ party)
    (script : Script party.Memory) :
    (s.move party queue ch script).code other = s.code other := Function.update_of_ne apart ..

private theorem setChannel_move {script : Script party.Memory} (here : s.code party = some script) :
    s.setChannel queue ch = s.move party queue ch script := by
  rw [move, ← here]
  exact (setCode_self (s.setChannel queue ch) party).symm

theorem Uses.unique {first second : QueueName} {Result : Type} {script : Script Result}
    (one : Uses first script) (other : Uses second script) : second = first := by
  cases script with
  | ret => cases one
  | push | pop => exact other.symm.trans one

section Moves

variable {script script' : Script party.Memory}

theorem Sound.move (sound : s.Sound c) (here : s.code party = some script)
    (uses : Uses queue script) (channel : ch.Sound c) (owned : Owned party script')
    (pushing : ch.shm.producer.isBetween = false →
      ∃ mb next message, (s.move party queue ch script').code queue.producer =
          some (.push queue mb next) ∧ mb.message = some message ∧
        (ch.shm.producer.Status (.called (.push message)) ∨ ch.published = true))
    (popping : ch.shm.consumer.isBetween = false →
      ∃ next, (s.move party queue ch script').code queue.consumer = some (.pop queue next)) :
    (s.move party queue ch script').Sound c := by
  have rests (other : QueueName) (apart : other ≠ queue) : s.Rests party other :=
    sound.rests_other here fun others => apart (uses.unique others)
  constructor
  · intro other
    by_cases same : other = queue
    · subst same
      rwa [move_channel]
    · rw [move_channel_other same]
      exact sound.channels other
  · intro other others code
    by_cases same : other = party
    · subst same
      rw [move_code] at code
      cases code
      exact owned
    · rw [move_code_other same] at code
      exact sound.owned other others code
  · intro other inside
    by_cases same : other = queue
    · subst same
      rw [move_channel] at inside ⊢
      exact pushing inside
    · rw [move_channel_other same] at inside ⊢
      have apart : other.producer ≠ party := fun mine => by
        rw [(rests other same).pushes mine] at inside
        cases inside
      rw [move_code_other apart]
      exact sound.pushing other inside
  · intro other inside
    by_cases same : other = queue
    · subst same
      rw [move_channel] at inside
      exact popping inside
    · rw [move_channel_other same] at inside
      have apart : other.consumer ≠ party := fun mine => by
        rw [(rests other same).pops mine] at inside
        cases inside
      rw [move_code_other apart]
      exact sound.popping other inside

/-- The parties that are not at this side of the queue do not notice. -/
theorem ahead_other {other : Party} (apart : other ≠ party) {Result : Type}
    {others : Script Result} (owned : Owned other others)
    (published : queue.producer ≠ party → ch.published = (s.channel queue).published)
    (released : queue.consumer ≠ party → ch.released = (s.channel queue).released) :
    (s.move party queue ch script').ahead others = s.ahead others := by
  cases others with
  | ret => rfl
  | push name mb next =>
      rw [ahead, ahead]
      by_cases same : name = queue
      · subst same
        rw [move_channel, published fun mine => apart (owned.1.symm.trans mine)]
      · rw [move_channel_other same]
  | pop name next =>
      rw [ahead, ahead]
      by_cases same : name = queue
      · subst same
        rw [move_channel, released fun mine => apart (owned.1.symm.trans mine)]
      · rw [move_channel_other same]

private theorem Sound.shared_move (sound : s.Sound c)
    (published : queue.producer ≠ party → ch.published = (s.channel queue).published)
    (released : queue.consumer ≠ party → ch.released = (s.channel queue).released) :
    (s.move party queue ch script').shared =
      (s.shared.setQueue queue ch.content).setCode party
        (some ((s.move party queue ch script').ahead script')) := by
  have code : (s.move party queue ch script').shared.code =
      Function.update s.shared.code party
        (some ((s.move party queue ch script').ahead script')) := by
    funext other
    by_cases same : other = party
    · subst same
      rw [Function.update_self, shared_code, move_code]
      rfl
    · rw [Function.update_of_ne same, shared_code, shared_code, move_code_other same]
      cases others : s.code other with
      | none => rfl
      | some script =>
          exact congrArg some
            (ahead_other same (sound.owned other script others) published released)
  have contents : (s.move party queue ch script').shared.queue =
      Function.update s.shared.queue queue ch.content := by
    funext other
    by_cases same : other = queue
    · subst same
      rw [Function.update_self, shared_queue, move_channel]
    · rw [Function.update_of_ne same, shared_queue, shared_queue, move_channel_other same]
  exact congr (congrArg (Shared.mk s.memory) code) contents

end Moves

/-- A script that is not in a call is not ahead. -/
theorem ahead_rests {script : Script party.Memory} (owned : Owned party script)
    (rests : ∀ queue, s.Rests party queue) : s.ahead script = script := by
  cases script with
  | ret => rfl
  | push queue mb next =>
      rw [ahead, Channel.published_between ((rests queue).pushes owned.1)]
      rfl
  | pop queue next =>
      rw [ahead, Channel.released_between ((rests queue).pops owned.1)]

/-- After a call that has returned. -/
theorem Sound.move_rests {script script' : Script party.Memory} (sound : s.Sound c)
    (here : s.code party = some script) (uses : Uses queue script)
    (pushes : queue.producer = party → ch.shm.producer.isBetween = true)
    (pops : queue.consumer = party → ch.shm.consumer.isBetween = true) (other : QueueName) :
    (s.move party queue ch script').Rests party other := by
  by_cases same : other = queue
  · subst same
    exact ⟨by rwa [move_channel], by rwa [move_channel]⟩
  · obtain ⟨first, second⟩ := sound.rests_other here fun others => same (uses.unique others)
    exact ⟨by rwa [move_channel_other same], by rwa [move_channel_other same]⟩

/-- The call has returned, and the script is in no other. -/
theorem Sound.ahead_returned {script script' : Script party.Memory} (sound : s.Sound c)
    (here : s.code party = some script) (uses : Uses queue script) (owned : Owned party script')
    (pushes : queue.producer = party → ch.shm.producer.isBetween = true)
    (pops : queue.consumer = party → ch.shm.consumer.isBetween = true) :
    (s.move party queue ch script').ahead script' = script' :=
  ahead_rests owned (sound.move_rests here uses pushes pops)

private theorem shared_setQueue (s : Processes) (queue : QueueName) :
    s.shared.setQueue queue (s.channel queue).content = s.shared :=
  congrArg (Shared.mk s.memory s.shared.code) (Function.update_eq_self queue s.shared.queue)

private theorem shared_setCode (s : Processes) (code : Option (Script party.Memory)) :
    (s.setCode party code).shared = s.shared.setCode party (code.map s.ahead) := by
  have codes : (s.setCode party code).shared.code =
      Function.update s.shared.code party (code.map s.ahead) := by
    funext other
    by_cases same : other = party
    · subst same
      rw [Function.update_self, shared_code, setCode_code]
      rfl
    · rw [Function.update_of_ne same, shared_code, setCode_code_other same]
      rfl
  exact congrArg (Shared.mk s.memory · s.shared.queue) codes

theorem Sound.setCode (sound : s.Sound c) (rests : ∀ queue, s.Rests party queue)
    {code : Option (Script party.Memory)} (owned : ∀ script, code = some script → Owned party script) :
    (s.setCode party code).Sound c := by
  refine ⟨sound.channels, fun other script there => ?_, fun queue inside => ?_, fun queue inside => ?_⟩
  · by_cases same : other = party
    · subst same
      rw [setCode_code] at there
      exact owned script there
    · rw [setCode_code_other same] at there
      exact sound.owned other script there
  · have apart : queue.producer ≠ party := fun mine => by
      have between := (rests queue).pushes mine
      rw [show (s.channel queue).shm.producer.isBetween = false from inside] at between
      cases between
    rw [setCode_code_other apart]
    exact sound.pushing queue inside
  · have apart : queue.consumer ≠ party := fun mine => by
      have between := (rests queue).pops mine
      rw [show (s.channel queue).shm.consumer.isBetween = false from inside] at between
      cases between
    rw [setCode_code_other apart]
    exact sound.popping queue inside

/-! ## A step of a process -/

section Steps

private theorem start_moves (sound : s.Sound c) (party : Party) (action : Action) :
    (processStep c s (.start party action)).Sound c ∧
      ((processStep c s (.start party action)).shared = s.shared ∨
        Shared.Step OfServer s.shared (processStep c s (.start party action)).shared) := by
  cases code : s.code party with
  | some script =>
      simp only [processStep, code]
      exact ⟨sound, .inl trivial⟩
  | none =>
      have rests := sound.rests_idle code
      have owned := (script_proper party (s.memory party) action).owned
      have idle : s.shared.code party = none := by rw [shared_code, code]; rfl
      simp only [processStep, code]
      refine ⟨sound.setCode rests fun script here => Option.some.inj here ▸ owned, .inr ?_⟩
      rw [shared_setCode, Option.map_some, ahead_rests owned rests]
      exact .start party _ idle ⟨action, rfl⟩

private theorem finish_moves (sound : s.Sound c) {result : party.Memory}
    (here : s.code party = some (.ret result)) :
    (s.finish party result).Sound c ∧
      Shared.Step OfServer s.shared (s.finish party result).shared := by
  have rests (queue : QueueName) : s.Rests party queue := sound.rests_other here id
  have stored : ({ s with memory := Function.update s.memory party result }).Sound c :=
    ⟨sound.channels, sound.owned, sound.pushing, sound.popping⟩
  refine ⟨stored.setCode (fun queue => ⟨(rests queue).pushes, (rests queue).pops⟩) nofun, ?_⟩
  rw [finish, shared_setCode]
  exact .finish party result (by rw [shared_code, here]; rfl)

private theorem producer_ne_consumer (queue : QueueName) : queue.producer ≠ queue.consumer := by
  cases queue <;> exact Party.noConfusion

private theorem Sound.shared_same {script script' : Script party.Memory} (sound : s.Sound c)
    (here : s.code party = some script)
    (published : queue.producer ≠ party → ch.published = (s.channel queue).published)
    (released : queue.consumer ≠ party → ch.released = (s.channel queue).released)
    (content : ch.content = (s.channel queue).content)
    (still : (s.move party queue ch script').ahead script' = s.ahead script) :
    (s.move party queue ch script').shared = s.shared := by
  have code : s.shared.code party = some (s.ahead script) := by rw [shared_code, here]; rfl
  rw [sound.shared_move published released, content, still, ← code, shared_setQueue]
  exact congrArg (Shared.mk s.memory · s.shared.queue) (Function.update_eq_self party s.shared.code)

/-- The producer of a queue has used it. -/
theorem Sound.produce {script script' : Script queue.producer.Memory} (sound : s.Sound c)
    (here : s.code queue.producer = some script) (uses : Uses queue script) (channel : ch.Sound c)
    (consumer : ch.shm.consumer = (s.channel queue).shm.consumer)
    (owned : Owned queue.producer script')
    (pushing : ch.shm.producer.isBetween = false →
      ∃ mb next message, script' = .push queue mb next ∧ mb.message = some message ∧
        (ch.shm.producer.Status (.called (.push message)) ∨ ch.published = true)) :
    (s.move queue.producer queue ch script').Sound c := by
  refine sound.move here uses channel owned (fun inside => ?_) fun inside => ?_
  · obtain ⟨mb, next, message, same, facts⟩ := pushing inside
    exact ⟨mb, next, message, by rw [move_code, same], facts⟩
  · rw [consumer] at inside
    rw [move_code_other (producer_ne_consumer queue).symm]
    exact sound.popping queue inside

/-- The consumer of a queue has used it. -/
theorem Sound.consume {script script' : Script queue.consumer.Memory} (sound : s.Sound c)
    (here : s.code queue.consumer = some script) (uses : Uses queue script) (channel : ch.Sound c)
    (producer : ch.shm.producer = (s.channel queue).shm.producer)
    (published : ch.published = (s.channel queue).published)
    (owned : Owned queue.consumer script')
    (popping : ch.shm.consumer.isBetween = false → ∃ next, script' = .pop queue next) :
    (s.move queue.consumer queue ch script').Sound c := by
  refine sound.move here uses channel owned (fun inside => ?_) fun inside => ?_
  · rw [producer] at inside ⊢
    rw [published, move_code_other (producer_ne_consumer queue)]
    exact sound.pushing queue inside
  · obtain ⟨next, same⟩ := popping inside
    exact ⟨next, by rw [move_code, same]⟩

private theorem push_going {mb : Block} {next : Bool → Script party.Memory}
    (here : s.code party = some (.push queue mb next))
    (inside : (s.channel queue).shm.producer.isBetween = false)
    (going : ∀ result, ((s.channel queue).produce c mb.origin).shm.producer ≠ .ret result) :
    s.push c party queue mb next =
      s.move party queue ((s.channel queue).produce c mb.origin) (.push queue mb next) := by
  rw [← setChannel_move here, push]
  simp only [inside, Bool.false_eq_true, if_false]

private theorem push_returned {mb : Block} {next : Bool → Script party.Memory} {result : Int}
    (inside : (s.channel queue).shm.producer.isBetween = false)
    (returned : ((s.channel queue).produce c mb.origin).shm.producer = .ret result) :
    s.push c party queue mb next =
      s.move party queue ((s.channel queue).produce c mb.origin) (next (result = 0)) := by
  rw [push]
  simp only [inside, Bool.false_eq_true, if_false, returned, move]

private theorem push_moves (fits : c.Fits) (sound : s.Sound c) {mb : Block}
    {next : Bool → Script party.Memory} (here : s.code party = some (.push queue mb next)) :
    (s.push c party queue mb next).Sound c ∧
      ((s.push c party queue mb next).shared = s.shared ∨
        Shared.Step OfServer s.shared (s.push c party queue mb next).shared) := by
  obtain rfl : queue.producer = party := (sound.owned party _ here).1
  have owned := sound.owned _ _ here
  by_cases between : (s.channel queue).shm.producer.isBetween = true
  · cases encoded : mb.message with
    | none =>
        simp only [push, between, encoded, if_true]
        exact ⟨sound, .inl trivial⟩
    | some message =>
        have inv := Shmq.inv_step fits (sound.channels queue).inv (.push message)
        simp only [push, between, encoded, if_true]
        rw [setChannel_move here]
        rw [Shmq.step, Shmq.callPush_eq between] at inv
        rw [Shmq.callPush_eq between]
        refine ⟨sound.produce here rfl ⟨inv, (sound.channels queue).origins⟩ rfl owned
          fun _ => ⟨mb, next, message, rfl, encoded, .inl rfl⟩, .inl ?_⟩
        refine sound.shared_same here (fun apart => absurd rfl apart) (fun _ => rfl) rfl ?_
        rw [ahead, ahead, move_channel, Channel.published_between between]
        rfl
  · have inside : (s.channel queue).shm.producer.isBetween = false := by simpa using between
    obtain ⟨mb', next', message, there, encoded, status⟩ := sound.pushing queue inside
    rw [here] at there
    cases there
    obtain ⟨channel, produced⟩ := Channel.produce_moves fits (sound.channels queue) encoded status
    obtain ⟨consumer, released⟩ := Channel.produce_released fits (sound.channels queue) mb.origin
    cases produced with
    | quiet content published calls =>
        rw [push_going here inside fun result pc => by rw [pc] at calls; cases calls]
        refine ⟨sound.produce here rfl channel consumer owned
          fun _ => ⟨mb, next, message, rfl, encoded, .inl calls⟩, .inl ?_⟩
        refine sound.shared_same here (fun apart => absurd rfl apart) (fun _ => released) content ?_
        rw [ahead, ahead, move_channel, published]
    | publish content before after =>
        have waiting : s.shared.code queue.producer = some (.push queue mb next) := by
          rw [shared_code, here, Option.map_some, ahead, before]
          rfl
        rw [push_going here inside fun result pc => by
          rw [Channel.published_between (by rw [pc]; rfl)] at after
          cases after]
        refine ⟨sound.produce here rfl channel consumer owned
          fun _ => ⟨mb, next, message, rfl, encoded, .inr after⟩, .inr ?_⟩
        rw [sound.shared_move (fun apart => absurd rfl apart) fun _ => released, content, ahead,
          move_channel, after]
        exact .accept queue.producer queue mb next waiting
    | refuse content before result =>
        have waiting : s.shared.code queue.producer = some (.push queue mb next) := by
          rw [shared_code, here, Option.map_some, ahead, before]
          rfl
        have returned : ((s.channel queue).produce c mb.origin).shm.producer.isBetween = true := by
          rw [result]
          rfl
        have answer : s.push c queue.producer queue mb next =
            s.move _ queue ((s.channel queue).produce c mb.origin) (next false) :=
          push_returned inside result
        rw [answer]
        refine ⟨sound.produce here rfl channel consumer (owned.2 false)
          fun going => absurd (returned.symm.trans going) Bool.noConfusion, .inr ?_⟩
        rw [sound.shared_move (fun apart => absurd rfl apart) fun _ => released, content,
          shared_setQueue, sound.ahead_returned here rfl (owned.2 false) (fun _ => returned)
            fun mine => absurd mine.symm (producer_ne_consumer queue)]
        exact .refuse queue.producer queue mb next waiting
    | accept content before result =>
        have returned : ((s.channel queue).produce c mb.origin).shm.producer.isBetween = true := by
          rw [result]
          rfl
        have answer : s.push c queue.producer queue mb next =
            s.move _ queue ((s.channel queue).produce c mb.origin) (next true) :=
          push_returned inside result
        rw [answer]
        refine ⟨sound.produce here rfl channel consumer (owned.2 true)
          fun going => absurd (returned.symm.trans going) Bool.noConfusion, .inl ?_⟩
        refine sound.shared_same here (fun apart => absurd rfl apart) (fun _ => released) content ?_
        rw [ahead, before]
        exact sound.ahead_returned here rfl (owned.2 true) (fun _ => returned)
          fun mine => absurd mine.symm (producer_ne_consumer queue)

private theorem pop_going {next : Option Block → Script party.Memory}
    (here : s.code party = some (.pop queue next))
    (inside : (s.channel queue).shm.consumer.isBetween = false)
    (going : ∀ result, ((s.channel queue).consume c).shm.consumer ≠ .ret result) :
    s.pop c party queue next =
      s.move party queue ((s.channel queue).consume c) (.pop queue next) := by
  rw [← setChannel_move here, pop]
  simp only [inside, Bool.false_eq_true, if_false]

private theorem pop_returned {next : Option Block → Script party.Memory} {mb : Option Int}
    (inside : (s.channel queue).shm.consumer.isBetween = false)
    (returned : ((s.channel queue).consume c).shm.consumer = .ret mb) :
    s.pop c party queue next =
      s.move party queue ((s.channel queue).consume c) (next (mb.map fun curMb =>
        .ofBytes (Shmq.blockBytes ((s.channel queue).consume c).shm.memory curMb)
          ((s.channel queue).consume c).origin)) := by
  rw [pop]
  simp only [inside, Bool.false_eq_true, if_false, returned, move]

private theorem pop_moves (fits : c.Fits) (sound : s.Sound c)
    {next : Option Block → Script party.Memory}
    (here : s.code party = some (.pop queue next)) :
    (s.pop c party queue next).Sound c ∧
      ((s.pop c party queue next).shared = s.shared ∨
        Shared.Step OfServer s.shared (s.pop c party queue next).shared) := by
  obtain rfl : queue.consumer = party := (sound.owned party _ here).1
  have owned := sound.owned _ _ here
  by_cases between : (s.channel queue).shm.consumer.isBetween = true
  · have inv := Shmq.inv_step fits (sound.channels queue).inv .pop
    rw [Shmq.step, Shmq.callPop_eq between] at inv
    simp only [pop, between, if_true]
    rw [setChannel_move here, Shmq.callPop_eq between]
    refine ⟨sound.consume here rfl ⟨inv, (sound.channels queue).origins⟩ rfl rfl owned
      fun _ => ⟨next, rfl⟩, .inl ?_⟩
    refine sound.shared_same here (fun _ => rfl) (fun apart => absurd rfl apart) rfl ?_
    rw [ahead, ahead, move_channel, Channel.released_between between]
    rfl
  · have inside : (s.channel queue).shm.consumer.isBetween = false := by simpa using between
    obtain ⟨channel, consumed⟩ := Channel.consume_moves fits (sound.channels queue) inside
    obtain ⟨producer, published⟩ := Channel.consume_published c (s.channel queue)
    have still {ch : Channel} (going : ch.shm.consumer.isBetween = false) (mb : Option Int) :
        ch.shm.consumer ≠ .ret mb := fun pc => by
      rw [pc] at going
      cases going
    have waits (before : (s.channel queue).released = none) :
        s.shared.code queue.consumer = some (.pop queue next) := by
      rw [shared_code, here, Option.map_some, ahead, before]
    cases consumed with
    | quiet content before after inside' =>
        rw [pop_going here inside (still inside')]
        refine ⟨sound.consume here rfl channel producer published owned
          fun _ => ⟨next, rfl⟩, .inl ?_⟩
        refine sound.shared_same here (fun _ => published) (fun apart => absurd rfl apart) content ?_
        rw [ahead, ahead, move_channel, after, before]
    | take mb content before after inside' =>
        rw [pop_going here inside (still inside')]
        refine ⟨sound.consume here rfl channel producer published owned
          fun _ => ⟨next, rfl⟩, .inr ?_⟩
        rw [sound.shared_move (fun _ => published) fun apart => absurd rfl apart, ahead,
          move_channel, after]
        exact .take queue.consumer queue next mb _ (waits before) content
    | empty drained content before result =>
        have returned : ((s.channel queue).consume c).shm.consumer.isBetween = true := by
          rw [result]
          rfl
        rw [pop_returned inside result]
        refine ⟨sound.consume here rfl channel producer published (owned.2 none)
          fun going => absurd (returned.symm.trans going) Bool.noConfusion, .inr ?_⟩
        rw [sound.shared_move (fun _ => published) fun apart => absurd rfl apart, content,
          shared_setQueue, Option.map_none, sound.ahead_returned here rfl (owned.2 none)
            (fun mine => absurd mine (producer_ne_consumer queue)) fun _ => returned]
        exact .empty queue.consumer queue next (waits before) drained
    | ret curMb content before result =>
        have returned : ((s.channel queue).consume c).shm.consumer.isBetween = true := by
          rw [result]
          rfl
        rw [pop_returned inside result]
        refine ⟨sound.consume here rfl channel producer published (owned.2 _)
          fun going => absurd (returned.symm.trans going) Bool.noConfusion, .inl ?_⟩
        refine sound.shared_same here (fun _ => published) (fun apart => absurd rfl apart) content ?_
        rw [ahead, before]
        exact sound.ahead_returned here rfl (owned.2 _)
          (fun mine => absurd mine (producer_ne_consumer queue)) fun _ => returned

/-- A step of a process is at most one step of the processes with whole pushes and pops. -/
theorem processStep_moves (fits : c.Fits) (sound : s.Sound c) (action : ProcessAction) :
    (processStep c s action).Sound c ∧
      ((processStep c s action).shared = s.shared ∨
        Shared.Step OfServer s.shared (processStep c s action).shared) := by
  cases action with
  | start party action => exact start_moves sound party action
  | access party =>
      rw [processStep, access]
      cases here : s.code party with
      | none => exact ⟨sound, .inl rfl⟩
      | some script =>
          cases script with
          | push queue mb next => exact push_moves fits sound here
          | pop queue next => exact pop_moves fits sound here
          | ret result =>
              obtain ⟨sound', step⟩ := finish_moves sound here
              exact ⟨sound', .inr step⟩

end Steps

theorem sound_init (fits : c.Fits) : init.Sound c :=
  ⟨fun _ => Channel.sound_init fits, nofun, nofun, nofun⟩

private theorem run_moves (fits : c.Fits) (actions : List ProcessAction) :
    (run (processStep c) init actions).Sound c ∧
      Relation.ReflTransGen (Shared.Step OfServer) init.shared
        (run (processStep c) init actions).shared := by
  refine run_preserves (fun s : Processes => s.Sound c ∧
    Relation.ReflTransGen (Shared.Step OfServer) init.shared s.shared) ?_
      ⟨sound_init fits, .refl⟩ actions
  intro s action ⟨sound, steps⟩
  obtain ⟨sound', same | step⟩ := processStep_moves fits sound action
  · exact ⟨sound', same ▸ steps⟩
  · exact ⟨sound', steps.tail step⟩

end Processes

/-! ## Whole scripts are actions -/

/-- The parent and its workers between two scripts. -/
def assembled (w : Whole Party QueueName Block Party.Memory) : State :=
  assemble (w.memory .parent) (fun worker => w.memory (.worker worker)) w.queue

private theorem transaction_step {w w' : Whole Party QueueName Block Party.Memory}
    (transaction : Transaction OfServer w w') :
    assembled w' = assembled w ∨ ∃ action, assembled w' = step (assembled w) action := by
  cases transaction with
  | run party script result queues allowed runs =>
      obtain ⟨action, rfl⟩ := allowed
      cases party with
      | parent => exact parentScript_runs (fun worker => w.memory (.worker worker)) runs
      | worker worker =>
          have workers : (fun other => Function.update w.memory (.worker worker) result
              (.worker other)) =
              Function.update (fun other => w.memory (.worker other)) worker result := by
            funext other
            by_cases here : other = worker
            · subst here
              simp
            · simp [here]
          have memory : Function.update w.memory (.worker worker) result .parent =
              w.memory .parent := Function.update_of_ne Party.noConfusion ..
          simp only [assembled, workers, memory]
          exact workerScript_runs _ (fun other => w.memory (.worker other)) runs

private theorem transactions_run {w w' : Whole Party QueueName Block Party.Memory}
    (transactions : Relation.ReflTransGen (Transaction OfServer) w w') :
    ∃ history, assembled w' = run step (assembled w) history := by
  induction transactions with
  | refl => exact ⟨[], rfl⟩
  | tail _ transaction ih =>
      obtain ⟨history, same⟩ := ih
      rcases transaction_step transaction with still | ⟨action, moved⟩
      · exact ⟨history, still.trans same⟩
      · exact ⟨history ++ [action], by rw [run_concat, moved, same]⟩

/-- Whatever the interleaving of the accesses to the queues in shared memory, the functions
of the parent and of its workers do what they do one after another on queues of blocks. -/
theorem sessions_over_shared_memory (c : Shmq.Config) (sized : c.Sized)
    (actions : List ProcessAction) :
    let s := run (processStep c) Processes.init actions
    ∃ (history : List Action) (memory : ∀ party : Party, party.Memory)
      (queues : QueueName → List Block),
      run step init history =
        assemble (memory .parent) (fun worker => memory (.worker worker)) queues ∧
      (∀ party, s.code party = none → memory party = s.memory party) ∧
      ∀ queue, s.code queue.consumer = none → queues queue = (s.channel queue).content := by
  intro s
  obtain ⟨-, steps⟩ := Processes.run_moves sized.fits actions
  have short (party : Party) (memory : party.Memory) (script : Script party.Memory)
      (allowed : OfServer party memory script) : script.Short (·.consumer = party) := by
    obtain ⟨action, rfl⟩ := allowed
    exact (script_proper party memory action).short
  have start : Covers OfServer QueueName.consumer (fun _ => none) Processes.init.shared
      ⟨Processes.init.memory, fun _ => []⟩ := ⟨fun _ => .idle, fun _ => rfl⟩
  obtain ⟨taken, w, transactions, covers⟩ := start.run short steps
  obtain ⟨history, same⟩ := transactions_run transactions
  have idle (party : Party) (code : s.code party = none) :
      taken party = none ∧ w.memory party = s.memory party := by
    have stage := covers.stages party
    rw [Processes.shared_code, code] at stage
    exact stage.of_idle
  refine ⟨history, w.memory, w.queue, same.symm, fun party code => (idle party code).2, ?_⟩
  intro queue code
  rw [covers.queues queue, (idle queue.consumer code).1]
  rfl

/-- The worker opens the session before the call of `shmq_push` in the parent returns. -/
def earlyOpening : List ProcessAction :=
  .start .parent (.register 3 .listen (some 0)) :: .access .parent ::
    .start .parent (.accept 3 4 (1, 2) 5 true) :: List.replicate 11 (.access .parent) ++
      .start (.worker 0) (.recv 0 true) :: List.replicate 13 (.access (.worker 0))

theorem sessions_over_shared_memory_earlyOpening :
    let s := run (processStep ⟨256, 64⟩) Processes.init earlyOpening
    ∃ (history : List Action) (memory : ∀ party : Party, party.Memory)
      (queues : QueueName → List Block),
      run step init history =
        assemble (memory .parent) (fun worker => memory (.worker worker)) queues ∧
      memory (.worker 0) = s.memory (.worker 0) ∧
      queues (.recvq 0) = (s.channel (.recvq 0)).content := by
  obtain ⟨history, memory, queues, reached, memories, contents⟩ :=
    sessions_over_shared_memory ⟨256, 64⟩ ⟨by decide, by decide, by decide⟩ earlyOpening
  exact ⟨history, memory, queues, reached, memories (.worker 0) rfl, contents (.recvq 0) rfl⟩

end MpNet.Session
