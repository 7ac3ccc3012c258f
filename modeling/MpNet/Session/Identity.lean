import MpNet.Net.FdTableProperties
import MpNet.Session.System

/-!
# Every block knows its connection

Blocks and sessions carry the identifier of the registration they come from, and a
descriptor is never registered for an earlier connection than the blocks about it.
So the comparison of identifiers in `schedule_output` finds the connection itself,
as long as the identifiers have not come round.
-/

set_option autoImplicit false

namespace MpNet.Session

open Library Net Net.Epi

/-- What the parent knows about the descriptors. -/
structure Table where
  fds : Int → FdInfo
  gen : Int → Nat

def State.table (s : State) : Table := ⟨s.epi.fds, s.gen⟩

/-- A connection of the worker that `fd` has had, or still has. -/
structure Known (t : Table) (worker : Nat) (id : UInt32) (fd : Int) (origin : Nat) : Prop where
  id : id = idOf origin
  positive : 0 < origin
  past : origin ≤ t.gen fd
  owner : t.gen fd = origin → (t.fds fd).bcElem = some worker

/-- The address of the connection, if `fd` still has it. -/
def Peer (t : Table) (fd : Int) (origin : Nat) (port : UInt16) (ip : UInt32) : Prop :=
  t.gen fd = origin → port = (t.fds fd).sk.remotePort ∧ ip = (t.fds fd).sk.remoteIp

structure KnownBlock (t : Table) (worker : Nat) (mb : Block) : Prop where
  known : Known t worker mb.id mb.fd mb.origin
  peer : mb.type = .openBlock →
    Peer t mb.fd mb.origin (remotePortAt mb.data) (remoteIpAt mb.data)

structure KnownSession (t : Table) (worker : Nat) (fd : Int) (session : FdSess) : Prop where
  key : session.fd = fd
  known : Known t worker session.id fd session.origin
  peer : Peer t fd session.origin session.remotePort session.remoteIp

/-- The slot before and after is the same connection. -/
structure SameConn (before after : FdInfo) : Prop where
  id : after.id = before.id
  bcElem : after.bcElem = before.bcElem
  remotePort : after.sk.remotePort = before.sk.remotePort
  remoteIp : after.sk.remoteIp = before.sk.remoteIp

/-- A table after more registrations. -/
structure Table.Later (t t' : Table) : Prop where
  grows : ∀ fd, t.gen fd ≤ t'.gen fd
  kept : ∀ fd, t'.gen fd = t.gen fd →
    (t'.fds fd).bcElem = (t.fds fd).bcElem ∧
      (t'.fds fd).sk.remotePort = (t.fds fd).sk.remotePort ∧
      (t'.fds fd).sk.remoteIp = (t.fds fd).sk.remoteIp

section Later

variable {t t' : Table} {worker : Nat} {fd : Int} {origin : Nat}

theorem Known.later {id : UInt32} (known : Known t worker id fd origin) (later : t.Later t') :
    Known t' worker id fd origin where
  id := known.id
  positive := known.positive
  past := known.past.trans (later.grows fd)
  owner := by
    intro current
    have same : t.gen fd = origin :=
      le_antisymm (current ▸ later.grows fd) known.past
    exact (later.kept fd (current.trans same.symm)).1.trans (known.owner same)

theorem Peer.later {port : UInt16} {ip : UInt32} (peer : Peer t fd origin port ip)
    (past : origin ≤ t.gen fd) (later : t.Later t') : Peer t' fd origin port ip := by
  intro current
  have same : t.gen fd = origin := le_antisymm (current ▸ later.grows fd) past
  obtain ⟨_, port, ip⟩ := later.kept fd (current.trans same.symm)
  rw [port, ip]
  exact peer same

theorem KnownBlock.later {mb : Block} (known : KnownBlock t worker mb) (later : t.Later t') :
    KnownBlock t' worker mb :=
  ⟨known.known.later later, fun type => (known.peer type).later known.known.past later⟩

theorem KnownSession.later {session : FdSess} (known : KnownSession t worker fd session)
    (later : t.Later t') : KnownSession t' worker fd session :=
  ⟨known.key, known.known.later later, known.peer.later known.known.past later⟩

end Later

/-! ## In a worker -/

namespace Worker

variable {t : Table} {worker : Nat} {w : Worker}

structure AllKnown (t : Table) (worker : Nat) (w : Worker) : Prop where
  recvq : ∀ mb ∈ w.recvq, KnownBlock t worker mb
  sendq : ∀ mb ∈ w.sendq, Known t worker mb.id mb.fd mb.origin
  sessions : ∀ fd session, w.getFdsess fd = some session → KnownSession t worker fd session

theorem allKnown_init (t : Table) (worker : Nat) : AllKnown t worker .init where
  recvq := by simp [Worker.init]
  sendq := by simp [Worker.init]
  sessions := by simp [Worker.init, getFdsess]

theorem AllKnown.later {t' : Table} (known : w.AllKnown t worker) (later : t.Later t') :
    w.AllKnown t' worker where
  recvq := fun mb member => (known.recvq mb member).later later
  sendq := fun mb member => (known.sendq mb member).later later
  sessions := fun fd session found => (known.sessions fd session found).later later

theorem AllKnown.pushRecvq (known : w.AllKnown t worker) {mb : Block}
    (about : KnownBlock t worker mb) (accepted : Bool) :
    (w.pushRecvq mb accepted).AllKnown t worker where
  recvq := by
    intro other member
    rcases mem_pushRecvq member with old | rfl
    · exact known.recvq other old
    · exact about
  sendq := known.sendq
  sessions := known.sessions

theorem AllKnown.pushSendq (known : w.AllKnown t worker) {mb : Block}
    (about : Known t worker mb.id mb.fd mb.origin) (accepted : Bool) :
    (w.pushSendq mb accepted).AllKnown t worker where
  recvq := known.recvq
  sendq := by
    intro other member
    rcases mem_pushSendq member with old | rfl
    · exact known.sendq other old
    · exact about
  sessions := known.sessions

theorem AllKnown.addFdsess (known : w.AllKnown t worker) {session : FdSess}
    (about : KnownSession t worker session.fd session) :
    (w.addFdsess session).AllKnown t worker where
  recvq := known.recvq
  sendq := known.sendq
  sessions := by
    intro fd other found
    rw [getFdsess_addFdsess] at found
    split at found
    · rename_i same
      obtain rfl := Option.some.inj found
      exact same ▸ about
    · exact known.sessions fd other found

theorem AllKnown.handleClose (known : w.AllKnown t worker) (fd : Int) :
    (w.handleClose fd).AllKnown t worker where
  recvq := known.recvq
  sendq := known.sendq
  sessions := by
    intro other session found
    rw [getFdsess_handleClose] at found
    split at found
    · cases found
    · exact known.sessions other session found

theorem AllKnown.popRecvq (known : w.AllKnown t worker) {mb : Block} {rest : List Block}
    (first : w.recvq = mb :: rest) : AllKnown t worker { w with recvq := rest } where
  recvq := fun other member => known.recvq other (first ▸ List.mem_cons_of_mem mb member)
  sendq := known.sendq
  sessions := known.sessions

theorem AllKnown.popSendq (known : w.AllKnown t worker) {mb : Block} {rest : List Block}
    (first : w.sendq = mb :: rest) : AllKnown t worker { w with sendq := rest } where
  recvq := known.recvq
  sendq := fun other member => known.sendq other (first ▸ List.mem_cons_of_mem mb member)
  sessions := known.sessions

theorem AllKnown.received (known : w.AllKnown t worker) {accepted : Bool} {w' : Worker}
    (received : Received accepted w w') : w'.AllKnown t worker := by
  have about : ∀ mb rest, w.recvq = mb :: rest → KnownBlock t worker mb :=
    fun mb _ first => known.recvq mb (first ▸ List.mem_cons_self)
  cases received with
  | idle => exact known
  | ignored mb rest first => exact known.popRecvq first
  | process mb rest session first => exact { known.popRecvq first with }
  | opened mb rest first type =>
      have block := about mb rest first
      exact (known.popRecvq first).addFdsess ⟨rfl, block.known, block.peer type⟩
  | rejected mb rest first =>
      have logged : AllKnown t worker { w with recvq := rest, log := w.log ++ [.rejected mb] } :=
        { known.popRecvq first with }
      refine logged.pushSendq ?_ accepted
      exact (about mb rest first).known
  | closed mb rest first => exact (known.popRecvq first).handleClose mb.fd

theorem AllKnown.sendPkgToClient (known : w.AllKnown t worker) (fd : Int) (data : List UInt8)
    (accepted : Bool) : (w.sendPkgToClient fd data accepted).AllKnown t worker := by
  unfold Worker.sendPkgToClient
  split
  · rename_i session found
    have about := known.sessions fd session found
    exact known.pushSendq (about.key ▸ about.known) accepted
  · exact known

theorem AllKnown.closeClientConn (known : w.AllKnown t worker) (fd : Int) (accepted : Bool) :
    (w.closeClientConn fd accepted).AllKnown t worker := by
  unfold Worker.closeClientConn
  split
  · rename_i session found
    exact (known.handleClose fd).pushSendq (known.sessions fd session found).known accepted
  · exact known

end Worker

/-! ## In the system -/

structure Inv (s : State) : Prop where
  tidy : s.epi.Tidy
  seq : s.epi.seq = idOf s.regs
  gen_le : ∀ fd, s.gen fd ≤ s.regs
  slots : ∀ fd, (s.epi.fds fd).type ≠ .unused →
    (s.epi.fds fd).id = idOf (s.gen fd) ∧ 0 < s.gen fd
  workers : ∀ worker, (s.worker worker).AllKnown s.table worker

variable {s : State}

theorem inv_init : Inv init where
  tidy := tidy_netInit
  seq := rfl
  gen_le := fun _ => le_rfl
  slots := fun _ used => absurd rfl used
  workers := fun _ => Worker.allKnown_init ..

namespace Inv

theorem setWorker (inv : Inv s) (worker : Nat) {w : Worker} (known : w.AllKnown s.table worker) :
    Inv (s.setWorker worker w) :=
  { inv with
    workers := by
      intro other
      by_cases same : other = worker
      · subst same
        rw [State.setWorker_same]
        exact known
      · rw [State.setWorker_other s w same]
        exact inv.workers other }

theorem addConn (inv : Inv s) {fd : Int} (unused : (s.epi.fds fd).type = .unused)
    (nonneg : 0 ≤ fd) (type : FdType) (peer : Option (UInt16 × UInt32)) (bcElem : Option Nat) :
    Inv (s.addConn fd type peer bcElem) where
  tidy := inv.tidy.doAddConn unused nonneg
  seq := by
    simp only [State.addConn, Epi.doAddConn, inv.seq]
    rfl
  gen_le := by
    intro other
    have bound := inv.gen_le other
    by_cases same : other = fd
    · simp [State.addConn, same]
    · simp only [State.addConn, Function.update_of_ne same]
      omega
  slots := by
    intro other used
    by_cases same : other = fd
    · subst same
      simp [State.addConn, Epi.doAddConn, inv.seq, idOf]
    · simp only [State.addConn, Function.update_of_ne same, doAddConn_other same] at used ⊢
      exact inv.slots other used
  workers := fun worker => (inv.workers worker).later {
    grows := by
      intro other
      have bound := inv.gen_le other
      by_cases same : other = fd
      · subst same
        simp only [State.table, State.addConn, Function.update_self]
        omega
      · simp [State.table, State.addConn, same]
    kept := by
      intro other current
      have bound := inv.gen_le other
      by_cases same : other = fd
      · subst same
        simp only [State.table, State.addConn, Function.update_self] at current
        omega
      · simp [State.table, State.addConn, same] }

/-- One slot changes, and stays the same connection unless it is released. -/
theorem changeSlot (inv : Inv s) {e : Epi} (fd : Int) (tidy : e.Tidy) (seq : e.seq = s.epi.seq)
    (others : ∀ other, other ≠ fd → e.fds other = s.epi.fds other)
    (type : (e.fds fd).type ≠ .unused → (s.epi.fds fd).type ≠ .unused)
    (same : SameConn (s.epi.fds fd) (e.fds fd)) : Inv { s with epi := e } where
  tidy := tidy
  seq := seq.trans inv.seq
  gen_le := inv.gen_le
  slots := by
    intro other used
    by_cases here : other = fd
    · subst here
      rw [same.id]
      exact inv.slots other (type used)
    · simp only [others other here] at used ⊢
      exact inv.slots other used
  workers := fun worker => (inv.workers worker).later {
    grows := fun _ => le_rfl
    kept := by
      intro other _
      by_cases here : other = fd
      · subst here
        exact ⟨same.bcElem, same.remotePort, same.remoteIp⟩
      · simp [State.table, others other here] }

theorem modify (inv : Inv s) {fd : Int} {change : FdInfo → FdInfo}
    (type : (change (s.epi.fds fd)).type = (s.epi.fds fd).type)
    (needClose : (change (s.epi.fds fd)).needClose = (s.epi.fds fd).needClose)
    (same : SameConn (s.epi.fds fd) (change (s.epi.fds fd))) : Inv (s.modify fd change) := by
  refine inv.changeSlot fd (inv.tidy.modify type needClose) rfl ?_ ?_ ?_
  · exact fun other apart => modify_other _ apart
  · rw [modify_same, type]
    exact id
  · rwa [modify_same]

theorem delConn (inv : Inv s) (fd : Int) : Inv (s.delConn fd) := by
  refine inv.changeSlot fd inv.tidy.release release_seq ?_ ?_ ?_
  · exact fun other apart => release_other apart
  · simp [release_same]
  · rw [release_same]
    exact ⟨rfl, rfl, rfl, rfl⟩

theorem addToCloseQueue (inv : Inv s) {fd : Int} (used : (s.epi.fds fd).type ≠ .unused) :
    Inv { s with epi := s.epi.addToCloseQueue fd } := by
  refine inv.changeSlot fd (inv.tidy.addToCloseQueue used) addToCloseQueue_seq ?_ ?_ ?_
  · exact fun other apart => addToCloseQueue_other apart
  · exact fun _ => used
  · rw [addToCloseQueue_same]
    exact ⟨rfl, rfl, rfl, rfl⟩

theorem pushBlock (inv : Inv s) {fd : Int} (used : (s.epi.fds fd).type ≠ .unused)
    {type : BlockType} {data : List UInt8} (accepted : Bool)
    (opening : type = .openBlock → data = remoteInfoBytes (s.epi.fds fd).sk) :
    Inv (s.pushBlock fd type data accepted) := by
  unfold State.pushBlock
  split
  · rename_i worker owner
    obtain ⟨id, positive⟩ := inv.slots fd used
    refine inv.setWorker worker ((inv.workers worker).pushRecvq ⟨?_, ?_⟩ accepted)
    · exact ⟨id, positive, le_rfl, fun _ => owner⟩
    · intro isOpen _
      rw [opening isOpen]
      exact remoteInfo_read _
  · exact inv

theorem dropConn (inv : Inv s) (fd : Int) (closeAccepted : Bool) :
    Inv (s.dropConn fd closeAccepted) := by
  unfold State.dropConn
  split
  · exact inv
  · rename_i used
    have pushed : Inv (s.pushBlock fd .closeBlock [] closeAccepted) :=
      inv.pushBlock used closeAccepted (by simp)
    exact pushed.delConn fd

theorem openConn (inv : Inv s) {fd newfd : Int} (unused : (s.epi.fds newfd).type = .unused)
    (nonneg : 0 ≤ newfd) (peer : UInt16 × UInt32) (now : UInt32) (accepted : Bool) :
    Inv (s.openConn fd newfd peer now accepted) := by
  have added : Inv (s.addRemote fd newfd peer now) :=
    (inv.addConn unused nonneg .remote (some peer) (s.epi.fds fd).bcElem).modify rfl rfl
      ⟨rfl, rfl, rfl, rfl⟩
  have used : ((s.addRemote fd newfd peer now).epi.fds newfd).type ≠ .unused := by
    simp [State.addRemote, State.modify, State.addConn, Epi.doAddConn]
  have pushed := added.pushBlock used accepted fun (_ : BlockType.openBlock = .openBlock) => rfl
  unfold State.openConn
  cases accepted with
  | true => exact pushed
  | false => exact pushed.delConn newfd

/-- A block that passes the filters is about the connection that it finds. -/
theorem passes_origin (inv : Inv s) {worker : Nat} {mb : Block}
    (known : Known s.table worker mb.id mb.fd mb.origin)
    (passes : s.Passes mb) (near : s.regs - mb.origin < 4294967295) :
    s.gen mb.fd = mb.origin := by
  obtain ⟨_, filters⟩ := passes
  simp only [not_or, ne_eq, not_not] at filters
  have used : (s.epi.fds mb.fd).type ≠ .unused := by simp [filters.1]
  have last := inv.gen_le mb.fd
  have past : mb.origin ≤ s.gen mb.fd := known.past
  refine (idOf_inj known.positive past (by omega) ?_).symm
  rw [← known.id, filters.2]
  exact (inv.slots mb.fd used).1

theorem applyBlock (inv : Inv s) {mb : Block} (passes : s.Passes mb) (outcome : SendOutcome) :
    Inv (s.applyBlock mb outcome) := by
  have used : (s.epi.fds mb.fd).type ≠ .unused := by
    have filters := passes.2
    simp only [not_or, ne_eq, not_not] at filters
    simp [filters.1]
  unfold State.applyBlock
  split
  · exact inv.addToCloseQueue used
  · split
    · exact inv.modify rfl rfl ⟨rfl, rfl, rfl, rfl⟩
    · exact inv.dropConn mb.fd _

theorem handleSendQueue (inv : Inv s) (worker : Nat) (outcome : SendOutcome) :
    Inv (s.handleSendQueue worker outcome) := by
  unfold State.handleSendQueue
  cases queue : (s.worker worker).sendq with
  | nil => exact inv
  | cons mb rest =>
      have popped := inv.setWorker worker ((inv.workers worker).popSendq queue)
      simp only
      split
      · rename_i passes
        exact popped.applyBlock passes outcome
      · exact popped

theorem step (inv : Inv s) (action : Action) : Inv (step s action) := by
  cases action with
  | register fd type worker =>
      simp only [Session.step]
      split
      · rename_i free
        exact inv.addConn free.1 free.2.1 type none worker
      · exact inv
  | accept fd newfd peer now accepted =>
      simp only [Session.step]
      split
      · rename_i free
        exact inv.openConn free.2.1 free.2.2 peer now accepted
      · exact inv
  | packet fd data accepted closeAccepted =>
      simp only [Session.step]
      split
      · rename_i remote
        have used : (s.epi.fds fd).type ≠ .unused := by simp [remote]
        have pushed : Inv (s.pushBlock fd .dataBlock data accepted) :=
          inv.pushBlock used accepted (by simp)
        split
        · exact pushed
        · exact pushed.dropConn fd closeAccepted
      · exact inv
  | transfer fd cb now =>
      simp only [Session.step]
      split
      · exact inv.modify rfl rfl ⟨rfl, rfl, rfl, rfl⟩
      · exact inv
  | drop fd closeAccepted =>
      simp only [Session.step]
      split
      · exact inv.dropConn fd closeAccepted
      · exact inv
  | output worker outcome => exact inv.handleSendQueue worker outcome
  | closeQueue =>
      simp only [Session.step]
      split
      · exact inv.delConn _
      · exact inv
  | recv worker finAccepted =>
      exact inv.setWorker worker
        ((inv.workers worker).received (Worker.handleRecvQueue_received ..))
  | send worker fd data accepted =>
      exact inv.setWorker worker ((inv.workers worker).sendPkgToClient fd data accepted)
  | close worker fd finAccepted =>
      exact inv.setWorker worker ((inv.workers worker).closeClientConn fd finAccepted)

end Inv

end MpNet.Session
