/-
  `worker` (`worker.cpp`), as a machine.

  A worker connects to the master, tells it that it is ready, and then polls:
  the master's connection, over which descriptors and messages come, and the
  SCTP connection of its endpoint.  It keeps one endpoint: making one for a new
  descriptor destroys the one before, with its registration and its descriptor.

  * `Inv`: the registered descriptors are the master's and that of the
    endpoint, and the open ones are these and the standard ones.
  * `Change` lists what an event can lead to, and `code_change` says that from
    a state with `Inv` it leads there or ends the worker.
  * `leaves_iff`: how a worker leaves its poll loop.
-/
import ProxyBroker.DomainSocket
import ProxyBroker.Machine
import ProxyBroker.Registry
import ProxyBroker.SctpSocket

namespace ProxyBroker

/-- The callbacks that a worker registers. -/
inductive WorkerCb where
  /-- `msg_handler` -/
  | masterMsg
  /-- `SctpMsgHandler` of the endpoint `obj` -/
  | sctpMsg (obj : ℕ)
  deriving DecidableEq, Repr

/-- Where the worker is in `process`. -/
inductive WorkerPhase where
  | start
  /-- connected to the master, before `send_worker_is_ready` -/
  | connected
  /-- in the poll loop -/
  | polling
  | left
  deriving DecidableEq, Repr

structure Worker where
  kernel : Kernel
  pid : Word
  ioMulti : Registry Fd WorkerCb
  masterSocketClient : DomainSocket
  sctpEndpoint : Option SctpClientEndpoint
  continuePoll : Bool
  /-- the next endpoint that is made -/
  nextObj : ℕ
  phase : WorkerPhase

namespace Worker

/-- Run code over what the kernel keeps for the worker. -/
def sys {α : Type} (p : Proc Kernel α) : Proc Worker α :=
  Proc.zoom Worker.kernel (fun w k => { w with kernel := k }) p

def registerFd (fd : Fd) (cb : WorkerCb) : Proc Worker Unit :=
  modify fun w => { w with ioMulti := w.ioMulti.register fd cb }

def deregisterFd (fd : Fd) : Proc Worker Unit :=
  modify fun w => { w with ioMulti := w.ioMulti.deregister fd }

/-! ## Handlers -/

/-- `sctp_endpoint = std::make_unique<SctpClientEndpoint>(io_multi, logger, fd)`:
    the constructor registers the descriptor, and then the assignment destroys
    an endpoint that was there before. -/
def newSctpEndpoint (fd : Fd) : Proc Worker Unit := do
  let w ← get
  registerFd fd (.sctpMsg w.nextObj)
  modify fun w => { w with sctpEndpoint := some ⟨w.nextObj, ⟨fd⟩⟩, nextObj := w.nextObj + 1 }
  if let some old := w.sctpEndpoint then
    deregisterFd old.sctpSocket.sockFd
    sys old.sctpSocket.destroy

/-- `msg_handler`. -/
def msgHandler (r : Option (List Byte × Option Fd)) (buf : Vector Byte maxBuffer) :
    Proc Worker Unit := do
  let (fd, serialMsg) ← sys (DomainSocket.domainRecvMsg r buf (-1))
  if 0 < fd then newSctpEndpoint fd
  else
    match serialMsg with
    | none => Proc.halt (.exit 0)
    | some serialMsg =>
      match serialMsg.headerMsgId with
      | none => Proc.halt .abort
      | some msgId =>
        if msgId = workerTerminateMsgId then
          modify fun w => { w with continuePoll := false }

/-- The callback of the endpoint `obj`, which has to be there still. -/
def sctpMsg (obj : ℕ) (r : Option SctpRecv) (buf : Vector Byte (maxBuffer + 1)) :
    Proc Worker Unit := do
  match (← get).sctpEndpoint with
  | none => Proc.halt .abort
  | some ep =>
    if ep.obj = obj then
      let _ ← sys (SctpClientEndpoint.sctpMsgHandler r buf)
    else Proc.halt .abort

/-- `send_worker_is_ready`. -/
def sendWorkerIsReady : Proc Worker Unit := do
  let w ← get
  sys (w.masterSocketClient.domainWrite (some (.ofMsg ⟨workerReadyMsgId, w.pid⟩)))

/-- `process` up to `send_worker_is_ready`: `fd` is what `socket` returns, and
    `ok` that the connection to the master succeeds. -/
def connect (fd : Fd) (ok : Bool) : Proc Worker Unit := do
  let s ← sys (DomainSocket.create fd ok)
  modify fun w => { w with masterSocketClient := s }
  registerFd s.sockFd .masterMsg
  modify fun w => { w with phase := .connected }

/-- `process` from `send_worker_is_ready` to the poll loop. -/
def ready : Proc Worker Unit := do
  sendWorkerIsReady
  modify fun w => { w with phase := .polling }

/-- `process` after the poll loop. -/
def leave : Proc Worker Unit := modify fun w => { w with phase := .left }

/-- The worker as it is constructed. -/
def blank (pid : Word) : Worker where
  kernel := .start
  pid := pid
  ioMulti := []
  masterSocketClient := ⟨-1⟩
  sctpEndpoint := none
  continuePoll := true
  nextObj := 0
  phase := .start

def init (pid : Word) : Process Worker := ⟨blank pid, none⟩

end Worker

/-! ## The machine -/

/-- A callback, with the results of the system call that it makes and what the
    buffer of the call holds before. -/
inductive WorkerCall where
  | masterMsg (r : Option (List Byte × Option Fd)) (buf : Vector Byte maxBuffer)
  | sctpMsg (obj : ℕ) (r : Option SctpRecv) (buf : Vector Byte (maxBuffer + 1))

/-- The callback of a call. -/
def WorkerCall.cb : WorkerCall → WorkerCb
  | .masterMsg .. => .masterMsg
  | .sctpMsg obj .. => .sctpMsg obj

/-- A descriptor that is received gets a number that the kernel may give to it. -/
def WorkerCall.Possible (k : Kernel) : WorkerCall → Prop
  | .masterMsg r _ => ∀ x ∈ r, ∀ fd ∈ x.2, k.Fresh fd
  | .sctpMsg .. => True

instance WorkerCall.decidablePossible (k : Kernel) : ∀ c : WorkerCall, Decidable (c.Possible k)
  | .masterMsg none _ | .masterMsg (some (_, none)) _ => isTrue (by simp [WorkerCall.Possible])
  | .masterMsg (some (_, some fd)) _ =>
    decidable_of_iff (k.Fresh fd) (by simp [WorkerCall.Possible])
  | .sctpMsg .. => isTrue trivial

inductive WorkerEv where
  | connect (fd : Fd) (ok : Bool)
  | ready
  /-- `Poll` calls a callback with the descriptor `fd` -/
  | call (fd : Fd) (c : WorkerCall)
  /-- `process` goes on after the poll loop -/
  | leave
  /-- the other end of `fd` is closed -/
  | hangUp (fd : Fd)

namespace Worker

/-- Call the callback. -/
def dispatch : WorkerCall → Proc Worker Unit
  | .masterMsg r buf => msgHandler r buf
  | .sctpMsg obj r buf => sctpMsg obj r buf

/-- The code that an event runs. -/
def code : WorkerEv → Proc Worker Unit
  | .connect fd ok => connect fd ok
  | .ready => ready
  | .call _ c => dispatch c
  | .leave => leave
  | .hangUp fd => sys (modify (·.hangUp fd))

/-- The event can happen. -/
def Enabled (w : Worker) : WorkerEv → Prop
  | .connect fd _ => w.phase = .start ∧ w.kernel.MayReturn fd
  | .ready => w.phase = .connected
  | .call fd c => w.phase = .polling ∧
      (Registry.machine Fd WorkerCb).can w.ioMulti (.call fd c.cb) ∧ c.Possible w.kernel
  | .leave => w.phase = .polling ∧ w.continuePoll = false
  | .hangUp fd => fd ∈ w.kernel.openFds

instance (w : Worker) : ∀ e, Decidable (w.Enabled e)
  | .connect _ _ | .leave => inferInstanceAs (Decidable (_ ∧ _))
  | .ready => inferInstanceAs (Decidable (_ = _))
  | .call fd c => inferInstanceAs (Decidable (_ ∧ (fd, c.cb) ∈ w.ioMulti ∧ _))
  | .hangUp _ => inferInstanceAs (Decidable (_ ∈ _))

/-- The worker as a machine; once its process has ended nothing happens. -/
def machine : Machine (Process Worker) WorkerEv where
  can p e := p.halted = none ∧ p.st.Enabled e
  next p e := Process.exec (code e) p

instance (p : Process Worker) (e : WorkerEv) : Decidable (machine.can p e) :=
  inferInstanceAs (Decidable (_ ∧ _))

/-! ## What the handlers do -/

@[simp] theorem run_sys {α : Type} (p : Proc Kernel α) (w : Worker) :
    (sys p).run w = Proc.mapState (fun k => { w with kernel := k }) (p.run w.kernel) := rfl

variable {w : Worker} {fd : Fd} {r : Option (List Byte × Option Fd)} {buf : Vector Byte maxBuffer}

/-- The descriptor of the endpoint. -/
def sctpFd (w : Worker) : Option Fd := w.sctpEndpoint.map fun ep => ep.sctpSocket.sockFd

/-- What holds between two events. -/
structure Inv (w : Worker) : Prop where
  start : w.phase = .start → w.ioMulti = [] ∧ w.sctpEndpoint = none ∧
    w.kernel.openFds = Kernel.start.openFds
  registry : w.phase ≠ .start → w.ioMulti = (w.masterSocketClient.sockFd, .masterMsg) ::
    w.sctpEndpoint.toList.map fun ep => (ep.sctpSocket.sockFd, .sctpMsg ep.obj)
  opened : w.phase ≠ .start → w.kernel.openFds =
    insert w.masterSocketClient.sockFd Kernel.start.openFds ∪ w.sctpFd.toFinset
  master : w.phase ≠ .start → Kernel.start.Fresh w.masterSocketClient.sockFd
  endpoint : ∀ fd ∈ w.sctpFd, (Kernel.start.opened w.masterSocketClient.sockFd).Fresh fd

/-- The worker has a new endpoint for `fd`. -/
def adopted (w : Worker) (fd : Fd) : Worker :=
  { w with
    kernel := match w.sctpEndpoint with
      | some old => (w.kernel.opened fd).closed old.sctpSocket.sockFd
      | none => w.kernel.opened fd
    ioMulti := [(w.masterSocketClient.sockFd, .masterMsg), (fd, .sctpMsg w.nextObj)]
    sctpEndpoint := some ⟨w.nextObj, ⟨fd⟩⟩
    nextObj := w.nextObj + 1 }

@[simp] theorem nextObj_adopted : (w.adopted fd).nextObj = w.nextObj + 1 := rfl

@[simp] theorem sent_adopted : (w.adopted fd).kernel.sent = w.kernel.sent := by
  unfold adopted; cases w.sctpEndpoint <;> rfl

@[simp] theorem gone_adopted (h : w.kernel.gone = ∅) : (w.adopted fd).kernel.gone = ∅ := by
  unfold adopted; cases w.sctpEndpoint <;> simp [h]

/-- Zero is open, so no descriptor that the kernel gives is zero. -/
theorem pos_of_fresh (h : Kernel.start.Fresh fd) : 0 < fd :=
  lt_of_le_of_ne h.1 fun e => h.2 (e ▸ by decide)

namespace Inv

variable (h : w.Inv) (hp : w.phase ≠ .start)
include h hp

theorem fresh_start (hfd : w.kernel.Fresh fd) :
    (Kernel.start.opened w.masterSocketClient.sockFd).Fresh fd :=
  ⟨hfd.1, fun hm => hfd.2 (by rw [h.opened hp]; exact Finset.mem_union_left _ hm)⟩

theorem fresh_pos (hfd : w.kernel.Fresh fd) : 0 < fd :=
  pos_of_fresh ⟨hfd.1, fun hm => (h.fresh_start hp hfd).2 (Finset.mem_insert_of_mem hm)⟩

theorem adopted (hfd : w.kernel.Fresh fd) : (w.adopted fd).Inv where
  start hs := absurd hs hp
  registry _ := rfl
  opened _ := by
    have hopen := h.opened hp
    have hfresh := h.fresh_start hp hfd
    cases he : w.sctpEndpoint with
    | none =>
      ext a
      simp [Worker.adopted, he, hopen, sctpFd]
      tauto
    | some old =>
      have hold := (h.endpoint old.sctpSocket.sockFd (by simp [sctpFd, he])).2
      have hne : fd ≠ old.sctpSocket.sockFd := by
        rintro rfl
        exact hfd.2 (by simp [hopen, sctpFd, he])
      ext a
      simp [Worker.adopted, he, hopen, sctpFd] at hold ⊢
      by_cases ha : a = old.sctpSocket.sockFd
      · subst ha; simp [hne.symm, hold]
      · simp [ha]; tauto
  master := h.master
  endpoint a ha := by
    cases ha
    exact h.fresh_start hp hfd

/-- A descriptor that is received becomes that of the endpoint. -/
theorem msgHandler_fd (hfd : w.kernel.Fresh fd) {bs : List Byte} (hbs : bs ≠ []) :
    (msgHandler (some (bs, some fd)) buf).run w = .ok () (w.adopted fd) := by
  obtain ⟨c, cs, rfl⟩ := List.exists_cons_of_ne_nil hbs
  have hreg := h.registry hp
  cases he : w.sctpEndpoint with
  | none =>
    simp [msgHandler, DomainSocket.domainRecvMsg, h.fresh_pos hp hfd, newSctpEndpoint,
      registerFd, Worker.adopted, he, hreg, Registry.register]
  | some old =>
    have hne : w.masterSocketClient.sockFd ≠ old.sctpSocket.sockFd := fun e =>
      (h.endpoint old.sctpSocket.sockFd (by simp [sctpFd, he])).2
        (e ▸ Finset.mem_insert_self ..)
    simp [msgHandler, DomainSocket.domainRecvMsg, h.fresh_pos hp hfd, newSctpEndpoint,
      registerFd, deregisterFd, Worker.adopted, he, hreg, Registry.register,
      Registry.deregister, hne, SctpSocket.destroy]

end Inv

/-- The id of the message that `domain_recv_msg` makes of the bytes of a
    result: its buffer is longer than a message. -/
def recvMsgId (bs : List Byte) (buf : Vector Byte maxBuffer) : Option Word :=
  SerializedMsg.headerMsgId ⟨bs ++ buf.toList.drop bs.length⟩

theorem recvMsgId_isSome (bs : List Byte) (buf : Vector Byte maxBuffer) :
    (recvMsgId bs buf).isSome := by
  have hlen : InternalMsg.size ≤ (bs ++ buf.toList.drop bs.length).length := by
    rw [List.length_append, List.length_drop, Vector.length_toList]
    exact le_trans (show InternalMsg.size ≤ maxBuffer by decide) (by omega)
  obtain ⟨msg, hm⟩ := Option.isSome_iff_exists.1
    ((SerializedMsg.deserializedData_isSome ⟨bs ++ buf.toList.drop bs.length⟩).2 hlen)
  rw [recvMsgId, SerializedMsg.headerMsgId_of_deserializedData hm]
  rfl

/-- A message of the master with the id `msgId` has been handled. -/
def told (w : Worker) (msgId : Word) : Worker :=
  { w with continuePoll := w.continuePoll && msgId ≠ workerTerminateMsgId }

@[simp] theorem kernel_told (msgId : Word) : (w.told msgId).kernel = w.kernel := rfl

@[simp] theorem phase_told (msgId : Word) : (w.told msgId).phase = w.phase := rfl

@[simp] theorem sctpEndpoint_told (msgId : Word) :
    (w.told msgId).sctpEndpoint = w.sctpEndpoint := rfl

theorem Inv.told (h : w.Inv) (msgId : Word) : (w.told msgId).Inv := { h with }

theorem msgHandler_msg {bs : List Byte} {msgId : Word} (hbs : bs ≠ [])
    (hm : recvMsgId bs buf = some msgId) :
    (msgHandler (some (bs, none)) buf).run w = .ok () (w.told msgId) := by
  obtain ⟨c, cs, rfl⟩ := List.exists_cons_of_ne_nil hbs
  simp only [recvMsgId, List.cons_append, List.length_cons] at hm
  by_cases hid : msgId = workerTerminateMsgId <;>
    simp [msgHandler, DomainSocket.domainRecvMsg, hm, Worker.told, hid]

/-- The end of the stream, or an error, ends the worker. -/
theorem msgHandler_ends (hr : ∀ x ∈ r, x.1 = []) :
    ∃ e w', (msgHandler r buf).run w = .error e w' := by
  match r, hr with
  | none, _ => simp [msgHandler, DomainSocket.domainRecvMsg]
  | some (bs, fd), hr =>
    obtain rfl : bs = [] := hr _ rfl
    simp [msgHandler, DomainSocket.domainRecvMsg]

/-- What the callback of the endpoint reads does not change the worker, or ends
    it when the endpoint does not survive it. -/
theorem sctpMsg_run {obj : ℕ} (rs : Option SctpRecv) (sbuf : Vector Byte (maxBuffer + 1))
    (h : w.sctpEndpoint = some ⟨obj, ⟨fd⟩⟩) :
    (SctpClientEndpoint.Survives rs sbuf ∧ (sctpMsg obj rs sbuf).run w = .ok () w) ∨
      (¬ SctpClientEndpoint.Survives rs sbuf ∧ ∃ e, (sctpMsg obj rs sbuf).run w = .error e w) := by
  have hw : ({ w with kernel := w.kernel } : Worker) = w := rfl
  rcases SctpClientEndpoint.sctpMsgHandler_run rs sbuf w.kernel with ⟨hr, ret, hk⟩ | ⟨hr, e, hk⟩
  · exact Or.inl ⟨hr, by simp [sctpMsg, h, hk]; exact h ▸ hw⟩
  · exact Or.inr ⟨hr, e, by simp [sctpMsg, h, hk]; exact h ▸ hw⟩

/-- The only endpoint that is registered is the one that the worker has. -/
theorem Inv.sctpEndpoint_of_mem (h : w.Inv) (hp : w.phase ≠ .start) {obj : ℕ}
    (hreg : (fd, .sctpMsg obj) ∈ w.ioMulti) : w.sctpEndpoint = some ⟨obj, ⟨fd⟩⟩ := by
  rw [h.registry hp] at hreg
  cases hep : w.sctpEndpoint with
  | none => simp [hep] at hreg
  | some ep =>
    simp only [hep, Option.toList_some, List.map_cons, List.map_nil, List.mem_cons, Prod.mk.injEq,
      reduceCtorEq, and_false, WorkerCb.sctpMsg.injEq, List.not_mem_nil, or_false, false_or] at hreg
    obtain ⟨rfl, rfl⟩ := hreg
    rfl

/-- The worker has connected to the master. -/
def connected (w : Worker) (fd : Fd) : Worker :=
  { w with
    kernel := w.kernel.opened fd
    masterSocketClient := ⟨fd⟩
    ioMulti := w.ioMulti.register fd .masterMsg
    phase := .connected }

theorem connect_run {ok : Bool} (hfd : 0 ≤ fd) (hok : ok) :
    (connect fd ok).run w = .ok () (w.connected fd) := by
  simp [connect, DomainSocket.create_run hfd hok, registerFd, connected]

theorem connect_ends {ok : Bool} (h : ¬ (0 ≤ fd ∧ ok)) :
    ∃ e w', (connect fd ok).run w = .error e w' := by
  obtain ⟨k', hk⟩ := DomainSocket.create_fails h w.kernel
  simp [connect, hk]

theorem Inv.connected (h : w.Inv) (hp : w.phase = .start) (hfd : w.kernel.Fresh fd) :
    (w.connected fd).Inv where
  start hs := by cases hs
  registry _ := by simp [Worker.connected, (h.start hp).1, (h.start hp).2.1, Registry.register]
  opened _ := by simp [Worker.connected, (h.start hp).2.1, (h.start hp).2.2, sctpFd]
  master _ := by simpa [Worker.connected, Kernel.Fresh, (h.start hp).2.2] using hfd
  endpoint a ha := by simp [sctpFd, Worker.connected, (h.start hp).2.1] at ha

/-- The worker has told the master that it is ready, and polls. -/
def readied (w : Worker) : Worker :=
  { w with
    kernel := DomainSocket.wrote w.kernel w.masterSocketClient (.ofMsg ⟨workerReadyMsgId, w.pid⟩)
    phase := .polling }

theorem ready_run : ready.run w = .ok () w.readied := by
  simp [ready, sendWorkerIsReady, readied]

theorem Inv.readied (h : w.Inv) (hp : w.phase = .connected) : w.readied.Inv := by
  have hs : w.phase ≠ .start := by simp [hp]
  have hopen : w.readied.kernel.openFds = w.kernel.openFds := by
    unfold Worker.readied DomainSocket.wrote; split_ifs <;> rfl
  exact ⟨fun hs => (by cases hs), fun _ => h.registry hs, fun _ => hopen.trans (h.opened hs),
    fun _ => h.master hs, h.endpoint⟩

theorem Inv.left (h : w.Inv) (hp : w.phase = .polling) :
    ({ w with phase := .left } : Worker).Inv :=
  have hs : w.phase ≠ .start := by simp [hp]
  ⟨nofun, fun _ => h.registry hs, fun _ => h.opened hs, fun _ => h.master hs, h.endpoint⟩

/-- The worker has not ended, nor have the other ends of its connections. -/
structure Up (p : Process Worker) : Prop where
  halted : p.halted = none
  inv : p.st.Inv
  gone : p.st.kernel.gone = ∅

/-! ## What an event does -/

/-- The event is the loss of the master's connection. -/
def LosesMaster : WorkerEv → Prop
  | .call _ (.masterMsg r _) => ∀ x ∈ r, x.1 = []
  | _ => False

/-- The event is the handling of WORKER_TERMINATE. -/
def Terminates : WorkerEv → Prop
  | .call _ (.masterMsg (some (bs, none)) buf) =>
    recvMsgId bs buf = some workerTerminateMsgId
  | _ => False

/-- The event reads something on an adopted connection that its endpoint does
    not survive. -/
def ReadsFatal : WorkerEv → Prop
  | .call _ (.sctpMsg _ r buf) => ¬ SctpClientEndpoint.Survives r buf
  | _ => False

instance : ∀ e, Decidable (ReadsFatal e)
  | .call _ (.sctpMsg _ r buf) => inferInstanceAs (Decidable (¬ SctpClientEndpoint.Survives r buf))
  | .call _ (.masterMsg ..) | .connect .. | .ready | .leave | .hangUp _ => isFalse id

/-- The event is a connection to the master that fails. -/
def FailsToConnect : WorkerEv → Prop
  | .connect fd ok => ¬ (0 ≤ fd ∧ ok)
  | _ => False

/-- What an event that does not end the worker changes, apart from its
    descriptors. -/
structure Tracks (w : Worker) (e : WorkerEv) (w' : Worker) : Prop where
  left : w'.phase = .left → w.phase = .left ∨ e = .leave
  continuePoll : w'.continuePoll = false → w.continuePoll = false ∨ Terminates e

/-- The state that an event leads to when it does not end the worker. -/
inductive Change (w : Worker) : WorkerEv → Worker → Prop
  | connected {fd : Fd} {ok : Bool} (hp : w.phase = .start) (hfd : w.kernel.Fresh fd) :
      Change w (.connect fd ok) (w.connected fd)
  | readied (hp : w.phase = .connected) : Change w .ready w.readied
  | adopted {fd nfd : Fd} {bs : List Byte} {buf : Vector Byte maxBuffer} (hp : w.phase ≠ .start)
      (hfd : w.kernel.Fresh nfd) (hbs : bs ≠ []) :
      Change w (.call fd (.masterMsg (some (bs, some nfd)) buf)) (w.adopted nfd)
  | told {fd : Fd} {bs : List Byte} {buf : Vector Byte maxBuffer} {msgId : Word}
      (hm : recvMsgId bs buf = some msgId) (hbs : bs ≠ []) :
      Change w (.call fd (.masterMsg (some (bs, none)) buf)) (w.told msgId)
  | read {fd : Fd} {obj : ℕ} {r : Option SctpRecv} {buf : Vector Byte (maxBuffer + 1)} :
      Change w (.call fd (.sctpMsg obj r buf)) w
  | left (hp : w.phase = .polling) : Change w .leave { w with phase := .left }
  | hungUp {fd : Fd} : Change w (.hangUp fd) { w with kernel := w.kernel.hangUp fd }

variable {w' : Worker} {e : WorkerEv}

theorem Change.inv (hc : w.Change e w') (h : w.Inv) : w'.Inv := by
  cases hc with
  | connected hp hfd => exact h.connected hp hfd
  | readied hp => exact h.readied hp
  | adopted hp hfd hbs => exact h.adopted hp hfd
  | told hm hbs => exact h.told _
  | read => exact h
  | left hp => exact h.left hp
  | hungUp => exact { h with }

theorem Change.tracks (hc : w.Change e w') : w.Tracks e w' := by
  cases hc with
  | connected hp hfd => exact ⟨fun hl => (by cases hl), Or.inl⟩
  | readied hp => exact ⟨fun hl => (by cases hl), Or.inl⟩
  | told hm hbs =>
    refine ⟨Or.inl, ?_⟩
    intro hc
    rcases Bool.and_eq_false_iff.1 hc with hc | hid
    · exact Or.inl hc
    · obtain rfl : _ = workerTerminateMsgId := by simpa using hid
      exact Or.inr hm
  | left hp => exact ⟨fun _ => Or.inr rfl, Or.inl⟩
  | adopted hp hfd hbs => exact ⟨Or.inl, Or.inl⟩
  | read => exact ⟨Or.inl, Or.inl⟩
  | hungUp => exact ⟨Or.inl, Or.inl⟩

/-- **What an event does** in a state with `Inv`: it ends the worker, or leads
    to one of the states of `Change`. -/
theorem code_change (h : w.Inv) (he : w.Enabled e) :
    (¬ (LosesMaster e ∨ ReadsFatal e ∨ FailsToConnect e) ∧
      ∃ w', (code e).run w = .ok () w' ∧ w.Change e w') ∨
    ((LosesMaster e ∨ ReadsFatal e ∨ FailsToConnect e) ∧
      ∃ o w', (code e).run w = .error o w') := by
  cases e with
  | connect fd ok =>
    by_cases hok : 0 ≤ fd ∧ ok
    · have hfd : w.kernel.Fresh fd := he.2.fresh hok.1
      exact Or.inl ⟨by simp [LosesMaster, ReadsFatal, FailsToConnect, hok], _,
        connect_run hok.1 hok.2, .connected he.1 hfd⟩
    · exact Or.inr ⟨Or.inr (Or.inr hok), connect_ends hok⟩
  | ready =>
    exact Or.inl ⟨by simp [LosesMaster, ReadsFatal, FailsToConnect], _, ready_run, .readied he⟩
  | call fd c =>
    cases c with
    | masterMsg r buf =>
      obtain ⟨hp, -, hpos⟩ := he
      have hs : w.phase ≠ .start := by simp [hp]
      by_cases hlose : ∀ x ∈ r, x.1 = []
      · exact Or.inr ⟨Or.inl hlose, msgHandler_ends hlose⟩
      · refine Or.inl ⟨by simpa [LosesMaster, ReadsFatal, FailsToConnect] using hlose, ?_⟩
        rcases r with _ | ⟨bs, _ | nfd⟩
        · simp at hlose
        · have hbs : bs ≠ [] := fun e => hlose (by simp [e])
          obtain ⟨msgId, hm⟩ := Option.isSome_iff_exists.1 (recvMsgId_isSome bs buf)
          exact ⟨_, msgHandler_msg hbs hm, .told hm hbs⟩
        · have hbs : bs ≠ [] := fun e => hlose (by simp [e])
          have hfd : w.kernel.Fresh nfd := hpos _ rfl _ rfl
          exact ⟨_, h.msgHandler_fd hs hfd hbs, .adopted hs hfd hbs⟩
    | sctpMsg obj r buf =>
      obtain ⟨hp, hreg, -⟩ := he
      have hep := h.sctpEndpoint_of_mem (by simp [hp]) hreg
      rcases sctpMsg_run r buf hep with ⟨hr, hrun⟩ | ⟨hr, e, hrun⟩
      · exact Or.inl ⟨by simpa [LosesMaster, ReadsFatal, FailsToConnect] using hr, w, hrun,
          .read⟩
      · exact Or.inr ⟨Or.inr (Or.inl hr), _, _, hrun⟩
  | leave =>
    exact Or.inl ⟨by simp [LosesMaster, ReadsFatal, FailsToConnect], _, rfl, .left he.1⟩
  | hangUp fd =>
    exact Or.inl ⟨by simp [LosesMaster, ReadsFatal, FailsToConnect], _, rfl, .hungUp⟩

theorem code_cases (h : w.Inv) (he : w.Enabled e) :
    (¬ (LosesMaster e ∨ ReadsFatal e ∨ FailsToConnect e) ∧
      ∃ w', (code e).run w = .ok () w' ∧ w'.Inv ∧ w.Tracks e w') ∨
    ((LosesMaster e ∨ ReadsFatal e ∨ FailsToConnect e) ∧
      ∃ o w', (code e).run w = .error o w') := by
  rcases code_change h he with ⟨hs, w', hrun, hc⟩ | hends
  · exact Or.inl ⟨hs, w', hrun, hc.inv h, hc.tracks⟩
  · exact Or.inr hends

/-! ## Leaving the poll loop -/

variable {pid : Word} {es : List WorkerEv}

theorem Inv.blank : (blank pid).Inv :=
  ⟨fun _ => ⟨rfl, rfl, rfl⟩, fun h => absurd rfl h, fun h => absurd rfl h, fun h => absurd rfl h,
    nofun⟩

/-- What a run that has not ended the worker leaves. -/
structure Ran (es : List WorkerEv) (p : Process Worker) : Prop where
  inv : p.halted = none → p.st.Inv
  terminated : p.halted = none → p.st.continuePoll = false → ∃ e ∈ es, Terminates e

theorem Ran.step {p : Process Worker} (h : Ran es p) {e : WorkerEv} (he : machine.can p e) :
    Ran (es ++ [e]) (machine.next p e) := by
  rcases code_cases (h.inv he.1) he.2 with ⟨-, w', hrun, hinv, ht⟩ | ⟨-, o, w', hrun⟩
  · have hnext : machine.next p e = ⟨w', p.halted⟩ := Process.exec_ok hrun
    rw [hnext]
    refine ⟨fun _ => hinv, fun _ hc => ?_⟩
    rcases ht.continuePoll hc with hc | hc
    · obtain ⟨e', he', ht'⟩ := h.terminated he.1 hc
      exact ⟨e', List.mem_append_left _ he', ht'⟩
    · exact ⟨e, by simp, hc⟩
  · have hnext : machine.next p e = ⟨w', some o⟩ := Process.exec_error hrun
    rw [hnext]
    exact ⟨nofun, nofun⟩

theorem run_ran (hc : machine.Can (init pid) es) : Ran es (machine.run (init pid) es) :=
  hc.inv_hist (I := Ran) ⟨fun _ => Inv.blank, nofun⟩ fun _ _ _ h he => h.step he

/-- The worker leaves its poll loop in a run only because of the master: its
    process ends there only when the master's connection is lost, and otherwise
    the loop ends only after WORKER_TERMINATE has been handled. -/
def LeavesForMaster (pid : Word) (es : List WorkerEv) : Prop :=
  ∀ pre e, pre ++ [e] <+: es → (machine.run (init pid) pre).st.phase = .polling →
    ((machine.run (init pid) (pre ++ [e])).halted ≠ none → LosesMaster e) ∧
    ((machine.run (init pid) (pre ++ [e])).halted = none →
      (machine.run (init pid) (pre ++ [e])).st.phase = .left → ∃ e' ∈ pre, Terminates e')

/-- **The worker leaves its poll loop only because of the master** exactly when
    everything that it reads on an adopted connection is an error, or comes with
    an internet address and is a notification or has a null byte in its buffer. -/
theorem leaves_iff (hc : machine.Can (init pid) es) :
    LeavesForMaster pid es ↔ ∀ e ∈ es, ¬ ReadsFatal e := by
  have hstep : ∀ pre e, pre ++ [e] <+: es →
      Ran pre (machine.run (init pid) pre) ∧ machine.can (machine.run (init pid) pre) e := by
    rintro pre e ⟨rest, rfl⟩
    have := Machine.all_snoc.1 (Machine.all_append.1 hc).1
    exact ⟨run_ran this.1, this.2⟩
  constructor
  · intro h e he hread
    obtain ⟨pre, post, rfl⟩ := List.append_of_mem he
    have hp : pre ++ [e] <+: pre ++ e :: post := ⟨post, by simp⟩
    obtain ⟨hran, hcan⟩ := hstep pre e hp
    match e, hread with
    | .call fd (.sctpMsg obj r buf), hread =>
      refine (h pre _ hp hcan.2.1).1 ?_
      rcases code_cases (hran.inv hcan.1) hcan.2 with ⟨hno, -⟩ | ⟨-, o, w', hrun⟩
      · exact absurd (Or.inr (Or.inl hread)) hno
      · rw [Machine.run_append, Machine.run_cons, Machine.run_nil]
        exact (congrArg Process.halted (Process.exec_error hrun)).trans_ne nofun
  · intro h pre e hp hphase
    obtain ⟨hran, hcan⟩ := hstep pre e hp
    rw [Machine.run_append, Machine.run_cons, Machine.run_nil]
    rcases code_cases (hran.inv hcan.1) hcan.2 with ⟨-, w', hrun, -, ht⟩ | ⟨hends, o, w', hrun⟩
    · rw [show machine.next (machine.run (init pid) pre) e = ⟨w', _⟩ from Process.exec_ok hrun]
      refine ⟨fun hne => absurd hcan.1 hne, fun _ hleft => ?_⟩
      rcases ht.left hleft with hleft | rfl
      · simp [hphase] at hleft
      · exact hran.terminated hcan.1 hcan.2.2
    · rw [show machine.next (machine.run (init pid) pre) e = ⟨w', _⟩ from Process.exec_error hrun]
      refine ⟨fun _ => ?_, nofun⟩
      rcases hends with hl | hr | hf
      · exact hl
      · exact absurd hr (h e (hp.subset (by simp)))
      · match e, hf with
        | .connect fd ok, _ => exact absurd hcan.2.1 (by simp [hphase])

/-- A worker gets to its poll loop and adopts a connection, as descriptor 4. -/
def adoptOne : List WorkerEv :=
  [.connect 3 true, .ready, .call 3 (.masterMsg (some ([36], some 4)) (.replicate maxBuffer 0))]

/-- It reads a message and an error on the connection, and is told to end. -/
def readAndEnd : List WorkerEv :=
  [.call 4 (.sctpMsg 0 (some ⟨[104, 105], some ⟨afInet, 0, 0⟩, none, 0⟩)
      (.replicate (maxBuffer + 1) 0)),
    .call 4 (.sctpMsg 0 none (.replicate (maxBuffer + 1) 0)),
    .call 3 (.masterMsg (some ((SerializedMsg.ofMsg ⟨workerTerminateMsgId, 0⟩).bytes, none))
      (.replicate maxBuffer 0)), .leave]

theorem leaves_iff_readAndEnd : LeavesForMaster 101 (adoptOne ++ readAndEnd) :=
  (leaves_iff (by decide)).2 (by decide)

/-- The client shuts its connection down. -/
def readEnd : WorkerEv :=
  .call 4 (.sctpMsg 0 (some ⟨[], none, none, 0⟩) (.replicate (maxBuffer + 1) 0))

/-- The end of an adopted connection ends the worker. -/
theorem leaves_readEnd :
    ¬ ∀ (pid : Word) (es : List WorkerEv), machine.Can (init pid) es → LeavesForMaster pid es := by
  intro h
  have hl := h 101 (adoptOne ++ [readEnd]) (by decide) adoptOne readEnd (List.prefix_refl _)
    (by decide)
  exact hl.1 (by decide)

end Worker

end ProxyBroker
