/-
  What the handlers of the master do.

  * Each handler has a lemma with the state that it leaves and with how it ends
    the process otherwise; `joined`, `counted`, `ready`, `accepted` and so on
    name these states.
  * `Inv` is what holds of the descriptors of the master between two events,
    and each of these changes keeps it.
  * `Change` lists what an event can lead to, and `code_change` says that from
    a state with `Inv` it either is `Safe` and leads there, or ends the process.
-/
import ProxyBroker.Master

namespace ProxyBroker

/-- The message that a result of `recv` holds. -/
def received (bytes : Option (List Byte)) : Option InternalMsg :=
  bytes.bind fun bs => (⟨bs⟩ : SerializedMsg).deserializedData

@[simp] theorem received_nil : received (some []) = none := rfl

theorem received_eq_some {bytes : Option (List Byte)} {msg : InternalMsg}
    (h : received bytes = some msg) :
    ∃ b bs, bytes = some (b :: bs) ∧ (⟨b :: bs⟩ : SerializedMsg).deserializedData = some msg := by
  obtain ⟨bs, rfl, hd⟩ := Option.bind_eq_some_iff.1 h
  cases bs with
  | nil => cases hd
  | cons b bs => exact ⟨b, bs, rfl, hd⟩

/-- The id of the message that a result of `recv` holds, when
    `worker_msg_handler` can read what it does of it: WORKER_READY as a whole,
    and of any other message the id. -/
def handledId (bytes : Option (List Byte)) : Option Word :=
  match bytes.bind fun bs => SerializedMsg.headerMsgId ⟨bs⟩ with
  | none => none
  | some id => if id = workerReadyMsgId ∧ received bytes = none then none else some id

@[simp] theorem handledId_nil : handledId (some []) = none := rfl

theorem handledId_eq_some {bytes : Option (List Byte)} {msgId : Word}
    (h : handledId bytes = some msgId) :
    ∃ b bs, bytes = some (b :: bs) ∧ (⟨b :: bs⟩ : SerializedMsg).headerMsgId = some msgId ∧
      (msgId = workerReadyMsgId →
        ∃ msg, (⟨b :: bs⟩ : SerializedMsg).deserializedData = some msg) := by
  rcases bytes with _ | _ | ⟨b, bs⟩
  · cases h
  · cases h
  · refine ⟨b, bs, rfl, ?_⟩
    rw [handledId, Option.bind_some] at h
    split at h
    · cases h
    · rename_i hd
      split_ifs at h with hw
      cases h
      refine ⟨hd, ?_⟩
      intro hid
      exact Option.ne_none_iff_exists'.1 fun hnone => hw ⟨hid, hnone⟩

/-- What is read past a message that is not empty: its id, or the rest of
    WORKER_READY. -/
theorem handledId_eq_none {b : Byte} {bs : List Byte} (h : handledId (some (b :: bs)) = none) :
    (⟨b :: bs⟩ : SerializedMsg).headerMsgId = none ∨
      (⟨b :: bs⟩ : SerializedMsg).headerMsgId = some workerReadyMsgId ∧
        (⟨b :: bs⟩ : SerializedMsg).deserializedData = none := by
  rw [handledId, Option.bind_some] at h
  split at h
  · exact Or.inl ‹_›
  · rename_i hd
    split_ifs at h with hw
    exact Or.inr ⟨hw.1 ▸ hd, hw.2⟩

/-- A message that can be read as a whole is handled. -/
theorem handledId_of_received {bytes : Option (List Byte)} {msg : InternalMsg}
    (h : received bytes = some msg) : handledId bytes = some msg.msgId := by
  obtain ⟨bs, rfl, hd⟩ := Option.bind_eq_some_iff.1 h
  simp [handledId, SerializedMsg.headerMsgId_of_deserializedData hd, h]

theorem received_ofMsg (msg : InternalMsg) :
    received (some (SerializedMsg.ofMsg msg).bytes) = some msg :=
  SerializedMsg.deserializedData_ofMsg msg

theorem handledId_ofMsg (msg : InternalMsg) :
    handledId (some (SerializedMsg.ofMsg msg).bytes) = some msg.msgId :=
  handledId_of_received (received_ofMsg msg)

/-- The id of the message of a worker that an event handles. -/
def MasterEv.workerMsg? : MasterEv → Option (Fd × Word)
  | .call fd (.workerMsg bytes _) => (handledId bytes).map (fd, ·)
  | _ => none

/-- The message of the tester that an event handles. -/
def MasterEv.testMsg? : MasterEv → Option InternalMsg
  | .call _ (.testMsg bytes) => received bytes
  | _ => none

namespace Master

@[simp] theorem run_sys {α : Type} (p : Proc Kernel α) (m : Master) :
    (sys p).run m = Proc.mapState (fun k => { m with kernel := k }) (p.run m.kernel) := rfl

variable {m : Master} {fd connFd : Fd} {s : DomainSocket} {r : Setup} {msg : InternalMsg}
  {msgId : Word} {bytes : Option (List Byte)}

/-- The code ends the process, after `n` calls of `master_ready_forwork`. -/
def Ends (p : Proc Master Unit) (m : Master) (n : ℕ) : Prop :=
  ∃ h m', p.run m = .error h m' ∧ m'.readyCalls = m.readyCalls + n

/-! ## The handlers -/

/-- The worker on the new connection `fd` is in the registry and in the map. -/
def joined (m : Master) (fd : Fd) : Master :=
  { m with
    kernel := m.kernel.opened fd
    ioMulti := m.ioMulti.register fd .workerMsg
    workersSocketConnect := m.workersSocketConnect.insert fd ⟨fd⟩ }

theorem workerConnect_run (hl : m.workerSocketListen.isSome)
    (h : m.workersSocketConnect[connFd]? = none) (hfd : 0 ≤ connFd) :
    (workerConnect connFd).run m = .ok () (m.joined connFd) := by
  obtain ⟨l, hl⟩ := Option.isSome_iff_exists.1 hl
  simp [workerConnect, hl, DomainSocket.domainAccept, not_lt.2 hfd, wokerConnectHandler,
    registerFd, h, joined]

theorem workerConnect_ends (hl : m.workerSocketListen.isSome) (hfd : connFd < 0) :
    Ends (workerConnect connFd) m 0 := by
  obtain ⟨l, hl⟩ := Option.isSome_iff_exists.1 hl
  simp [Ends, workerConnect, hl, DomainSocket.domainAccept, hfd]

/-- The listener that `r` makes is there with its handler, and the tester has
    been told. -/
def ready (m : Master) (r : Setup) : Master :=
  { m with
    kernel := ((m.kernel.opened r.fd).bind r.fd myPortNum).send
      (.sendMsg m.testSocketClient.sockFd (.ofMsg ⟨masterReadyMsgId, m.pid⟩))
    ioMulti := m.ioMulti.register r.fd .sctpMsg
    sctpEndpoint := some ⟨⟨r.fd⟩, true⟩
    readyCalls := m.readyCalls + 1 }

/-- `master_ready_forwork` can make the listener and tell the tester. -/
def CanServe (m : Master) (r : Setup) : Prop :=
  r.Serves myPortNum m.kernel ∧ m.kernel.Live m.testSocketClient.sockFd

instance (m : Master) (r : Setup) : Decidable (m.CanServe r) := inferInstanceAs (Decidable (_ ∧ _))

theorem masterReadyForwork_run (hs : m.sctpEndpoint = none)
    (ht : m.testSocketClient.sockFd ∈ m.kernel.openFds) (hr : m.CanServe r) :
    (masterReadyForwork r).run m = .ok () (m.ready r) := by
  have hlive : ((m.kernel.opened r.fd).bind r.fd myPortNum).Live m.testSocketClient.sockFd := by
    simpa [Kernel.Live, ht] using hr.2.2
  rcases SctpServerEndpoint.create_run r myPortNum m.kernel with ⟨-, h⟩ | ⟨h, -⟩
  · simp [masterReadyForwork, h, registerFd, hs, indicateTestFramework,
      DomainSocket.domainSendMsg, ready, hlive]
  · exact absurd hr.1 h

/-- It fails otherwise; in particular a second listener cannot be made while
    the first one has the port. -/
theorem masterReadyForwork_ends (ht : m.testSocketClient.sockFd ∈ m.kernel.openFds)
    (hs : m.sctpEndpoint = none ∨ myPortNum ∈ m.kernel.ports.image Prod.snd)
    (hr : ¬ m.CanServe r) : Ends (masterReadyForwork r) m 1 := by
  unfold Ends
  rcases SctpServerEndpoint.create_run r myPortNum m.kernel with ⟨hserve, h⟩ | ⟨-, k', h⟩
  · have hs : m.sctpEndpoint = none := hs.resolve_right hserve.2.2.2
    have hlive : ¬ ((m.kernel.opened r.fd).bind r.fd myPortNum).Live m.testSocketClient.sockFd :=
      fun hl => hr ⟨hserve, ht, hl.2⟩
    simp [masterReadyForwork, h, registerFd, hs, indicateTestFramework,
      DomainSocket.domainSendMsg, hlive]
  · simp [masterReadyForwork, h]

/-- A message with the id `msgId` has been counted. -/
def counted (m : Master) (msgId : Word) : Master :=
  { m with workerCount := if msgId = workerReadyMsgId then m.workerCount + 1 else m.workerCount }

@[simp] theorem kernel_counted : (m.counted msgId).kernel = m.kernel := rfl

@[simp] theorem pid_counted : (m.counted msgId).pid = m.pid := rfl

@[simp] theorem testSocketClient_counted :
    (m.counted msgId).testSocketClient = m.testSocketClient := rfl

@[simp] theorem sctpEndpoint_counted : (m.counted msgId).sctpEndpoint = m.sctpEndpoint := rfl

@[simp] theorem ctl_counted : (m.counted msgId).ctl = m.ctl := rfl

@[simp] theorem ioMulti_counted : (m.counted msgId).ioMulti = m.ioMulti := rfl

@[simp] theorem workersSocketConnect_counted :
    (m.counted msgId).workersSocketConnect = m.workersSocketConnect := rfl

@[simp] theorem readyCalls_counted : (m.counted msgId).readyCalls = m.readyCalls := rfl

@[simp] theorem workersPid_counted : (m.counted msgId).workersPid = m.workersPid := rfl

@[simp] theorem isMasterTerminated_counted :
    (m.counted msgId).isMasterTerminated = m.isMasterTerminated := rfl

@[simp] theorem canServe_counted : (m.counted msgId).CanServe r ↔ m.CanServe r := by
  simp [CanServe]

/-- The end of the stream: the worker is no longer polled, but stays in the map. -/
theorem workerMsgHandler_eof (h : m.workersSocketConnect[fd]? = some s) :
    (workerMsgHandler fd (some []) r).run m =
      .ok () { m with ioMulti := m.ioMulti.deregister fd } := by
  simp [workerMsgHandler, h, DomainSocket.domainRead, deregisterFd]

theorem workerMsgHandler_run (h : m.workersSocketConnect[fd]? = some s)
    (hm : handledId bytes = some msgId) :
    (workerMsgHandler fd bytes r).run m =
      if (m.counted msgId).Barrier then (masterReadyForwork r).run (m.counted msgId)
      else .ok () (m.counted msgId) := by
  obtain ⟨b, bs, rfl, hd, hw⟩ := handledId_eq_some hm
  by_cases hid : msgId = workerReadyMsgId
  · obtain ⟨msg, hmsg⟩ := hw hid
    simp only [workerMsgHandler, DomainSocket.domainRead, counted, hid, if_true]
    simp [h, hd, hid, hmsg]
    split_ifs <;> rfl
  · simp [workerMsgHandler, h, DomainSocket.domainRead, hd, counted, hid]
    split_ifs <;> rfl

theorem workerMsgHandler_ends (h : m.workersSocketConnect[fd]? = some s)
    (hm : handledId bytes = none) (he : bytes ≠ some []) :
    Ends (workerMsgHandler fd bytes r) m 0 := by
  match bytes, hm, he with
  | none, _, _ => simp [Ends, workerMsgHandler, h, DomainSocket.domainRead]
  | some [], _, he => exact absurd rfl he
  | some (b :: bs), hm, _ =>
    rcases handledId_eq_none hm with hd | ⟨hd, hw⟩
    · simp [Ends, workerMsgHandler, h, DomainSocket.domainRead, hd]
    · simp [Ends, workerMsgHandler, h, DomainSocket.domainRead, hd, hw]

/-- A message of the tester has been handled. -/
def told (m : Master) (msg : InternalMsg) : Master :=
  { m with isMasterTerminated := m.isMasterTerminated || msg.msgId = masterTerminateMsgId }

@[simp] theorem kernel_told : (m.told msg).kernel = m.kernel := rfl

@[simp] theorem workersPid_told : (m.told msg).workersPid = m.workersPid := rfl

@[simp] theorem testSocketClient_told : (m.told msg).testSocketClient = m.testSocketClient := rfl

@[simp] theorem workersSocketConnect_told :
    (m.told msg).workersSocketConnect = m.workersSocketConnect := rfl

@[simp] theorem workerCount_told : (m.told msg).workerCount = m.workerCount := rfl

@[simp] theorem sctpEndpoint_told : (m.told msg).sctpEndpoint = m.sctpEndpoint := rfl

@[simp] theorem ctl_told : (m.told msg).ctl = m.ctl := rfl

@[simp] theorem ioMulti_told : (m.told msg).ioMulti = m.ioMulti := rfl

theorem testMsg_run (hm : received bytes = some msg) :
    (testMsg m.testSocketClient.sockFd bytes).run m = .ok () (m.told msg) := by
  obtain ⟨b, bs, rfl, hd⟩ := received_eq_some hm
  by_cases hid : msg.msgId = masterTerminateMsgId <;>
    simp [testMsg, DomainSocket.domainRead, hd, msgHandler, told, hid]

theorem testMsg_ends (hm : received bytes = none) :
    Ends (testMsg m.testSocketClient.sockFd bytes) m 0 := by
  match bytes, hm with
  | none, _ | some [], _ => simp [Ends, testMsg, DomainSocket.domainRead]
  | some (b :: bs), hm =>
    have hm : (⟨b :: bs⟩ : SerializedMsg).deserializedData = none := hm
    simp [Ends, testMsg, DomainSocket.domainRead, hm]

/-- An SCTP connection has been accepted, and is to be handed to every worker. -/
def accepted (m : Master) (connFd : Fd) : Master :=
  { m with
    kernel := if 0 ≤ connFd then m.kernel.opened connFd else m.kernel
    ctl := .offer connFd m.workersSocketConnect.toList }

theorem sctpMsgHandler_run (h : m.sctpEndpoint = some ⟨⟨fd⟩, true⟩) :
    (sctpMsgHandler fd connFd).run m = .ok () (m.accepted connFd) := by
  by_cases hfd : 0 ≤ connFd <;>
    simp [sctpMsgHandler, h, SctpSocket.sctpAccept, hfd, newConnHandler, accepted]

/-- The descriptor has been handed to one more worker. -/
def handed (m : Master) (sock fd : Fd) (rest : List (Fd × DomainSocket)) : Master :=
  { m with kernel := m.kernel.send (.sendFd sock fd), ctl := .offer fd rest }

theorem offer_run {key : Fd} {rest : List (Fd × DomainSocket)}
    (h : m.ctl = .offer fd ((key, s) :: rest)) (hl : m.kernel.Live s.sockFd)
    (hfd : fd ∈ m.kernel.openFds) : offer.run m = .ok () (m.handed s.sockFd fd rest) := by
  simp [offer, h, DomainSocket.domainSendFd, hl, hfd, handed]

theorem offer_ends {key : Fd} {rest : List (Fd × DomainSocket)}
    (h : m.ctl = .offer fd ((key, s) :: rest))
    (hl : ¬ (m.kernel.Live s.sockFd ∧ fd ∈ m.kernel.openFds)) : Ends offer m 0 := by
  simp [Ends, offer, h, DomainSocket.domainSendFd, hl]

/-- The descriptor has been handed to every worker and is closed. -/
def offered (m : Master) (fd : Fd) : Master :=
  { m with kernel := m.kernel.closed fd, ctl := .poll }

theorem offer_done (h : m.ctl = .offer fd []) : offer.run m = .ok () (m.offered fd) := by
  simp [offer, h, offered]

/-- Without workers, or with one, `run` gets to `wait_until_workers_closed`. -/
theorem leave_run_nil {w : Word} (h : m.workersSocketConnect.toList = []) :
    (leave w).run m = .ok () { m with ctl := .wait } := by
  simp [leave, sendTerminateToWorker, h, sendTerminateLoop]

/-- The master has written to the worker on `s`, and waits. -/
def toldWorker (m : Master) (s : DomainSocket) (w : Word) : Master :=
  { m with kernel := DomainSocket.wrote m.kernel s (.ofMsg ⟨workerTerminateMsgId, w⟩) }

theorem leave_run_one {w : Word} {p : Fd × DomainSocket}
    (h : m.workersSocketConnect.toList = [p]) :
    (leave w).run m = .ok () { m.toldWorker p.2 w with ctl := .wait } := by
  simp [leave, sendTerminateToWorker, h, sendTerminateLoop, toldWorker]

/-- With more of them, the second iteration has no message. -/
theorem leave_run_more {w : Word} {p q : Fd × DomainSocket} {rest : List (Fd × DomainSocket)}
    (h : m.workersSocketConnect.toList = p :: q :: rest) :
    (leave w).run m = .error .abort (m.toldWorker p.2 w) := by
  simp [leave, sendTerminateToWorker, h, sendTerminateLoop, toldWorker]

/-! ## The descriptors of the master -/

/-- The descriptors that the sockets of the master own. -/
def Owns (m : Master) (fd : Fd) : Prop :=
  fd = m.testSocketClient.sockFd ∨ m.workerSocketListen = some ⟨fd⟩ ∨
    (m.workersSocketConnect[fd]?).isSome ∨ ∃ ep ∈ m.sctpEndpoint, ep.sctpSocketListen.sockFd = fd

/-- What holds of the descriptors between two events. -/
structure Inv (m : Master) : Prop where
  nonneg : ∀ fd ∈ m.kernel.openFds, 0 ≤ fd
  owned : ∀ fd, m.Owns fd → fd ∈ m.kernel.openFds
  workers : ∀ (fd : Fd) (s : DomainSocket), m.workersSocketConnect[fd]? = some s → s = ⟨fd⟩
  testMsg : ∀ fd, (fd, .testMsg) ∈ m.ioMulti → fd = m.testSocketClient.sockFd
  workerConnect : ∀ fd, (fd, .workerConnect) ∈ m.ioMulti → m.workerSocketListen = some ⟨fd⟩
  workerMsg : ∀ fd, (fd, .workerMsg) ∈ m.ioMulti → (m.workersSocketConnect[fd]?).isSome
  sctpMsg : ∀ fd, (fd, .sctpMsg) ∈ m.ioMulti → m.sctpEndpoint = some ⟨⟨fd⟩, true⟩
  bound : ∀ ep ∈ m.sctpEndpoint, (ep.sctpSocketListen.sockFd, myPortNum) ∈ m.kernel.ports
  free : m.sctpEndpoint = none → m.kernel.ports = ∅
  offering : ∀ fd rest, m.ctl = .offer fd rest → ¬ m.Owns fd ∧
    ∀ p ∈ rest, m.workersSocketConnect[p.1]? = some p.2

theorem joined_get? (m : Master) (fd a : Fd) : (m.joined fd).workersSocketConnect[a]? =
    if fd = a then some ⟨fd⟩ else m.workersSocketConnect[a]? := by
  simp [joined, Std.TreeMap.getElem?_insert]

namespace Inv

variable (h : m.Inv)
include h

/-- What the kernel may return is not owned. -/
theorem not_owns (hfd : m.kernel.MayReturn fd) : ¬ m.Owns fd := fun ho => by
  rcases hfd with rfl | hfd
  · exact absurd (h.nonneg _ (h.owned _ ho)) (by decide)
  · exact hfd.2 (h.owned fd ho)

theorem get?_of_mayReturn (hfd : m.kernel.MayReturn fd) : m.workersSocketConnect[fd]? = none :=
  Option.not_isSome_iff_eq_none.1 fun hs => h.not_owns hfd (Or.inr (Or.inr (Or.inl hs)))

/-- There is a listener exactly when its port is bound. -/
theorem sctpEndpoint_none_or :
    m.sctpEndpoint = none ∨ myPortNum ∈ m.kernel.ports.image Prod.snd := by
  cases he : m.sctpEndpoint with
  | none => exact Or.inl rfl
  | some ep => exact Or.inr (Finset.mem_image.2 ⟨_, h.bound ep he, rfl⟩)

theorem sctpEndpoint_none (hr : m.CanServe r) : m.sctpEndpoint = none :=
  h.sctpEndpoint_none_or.resolve_right hr.1.2.2.2

theorem testSocketClient_mem : m.testSocketClient.sockFd ∈ m.kernel.openFds :=
  h.owned _ (Or.inl rfl)

theorem joined (hfd : m.kernel.Fresh fd) (hctl : m.ctl = .poll) : (m.joined fd).Inv where
  nonneg a ha := (Finset.mem_insert.1 ha).elim (fun e => e ▸ hfd.1) (h.nonneg a)
  owned a ha := by
    simp only [Owns, joined_get?] at ha
    by_cases hne : fd = a
    · exact Finset.mem_insert.2 (Or.inl hne.symm)
    · rw [if_neg hne] at ha
      exact Finset.mem_insert_of_mem (h.owned a ha)
  workers a s hs := by
    rw [joined_get?] at hs
    split_ifs at hs with hne
    · subst hne; cases hs; rfl
    · exact h.workers a s hs
  testMsg a ha := h.testMsg a (by simpa [Master.joined] using ha)
  workerConnect a ha := h.workerConnect a (by simpa [Master.joined] using ha)
  workerMsg a ha := by
    rw [joined_get?]
    split_ifs with hne
    · rfl
    · rcases Registry.mem_register.1 ha with ha | ha
      · exact h.workerMsg a ha
      · cases ha; exact absurd rfl hne
  sctpMsg a ha := h.sctpMsg a (by simpa [Master.joined] using ha)
  bound := h.bound
  free := h.free
  offering a rest ha := by rw [show (m.joined fd).ctl = m.ctl from rfl, hctl] at ha; cases ha

theorem deregistered : ({ m with ioMulti := m.ioMulti.deregister fd } : Master).Inv :=
  { h with
    testMsg := fun a ha => h.testMsg a (Registry.mem_of_mem_deregister ha)
    workerConnect := fun a ha => h.workerConnect a (Registry.mem_of_mem_deregister ha)
    workerMsg := fun a ha => h.workerMsg a (Registry.mem_of_mem_deregister ha)
    sctpMsg := fun a ha => h.sctpMsg a (Registry.mem_of_mem_deregister ha) }

theorem counted : (m.counted msgId).Inv := { h with }

theorem told : (m.told msg).Inv := { h with }

theorem ready (hr : m.CanServe r) (hs : m.sctpEndpoint = none) (hctl : m.ctl = .poll) :
    (m.ready r).Inv where
  nonneg a ha := (Finset.mem_insert.1 ha).elim (fun e => e ▸ hr.1.1) (h.nonneg a)
  owned a ha := by
    rcases ha with ha | ha | ha | ⟨ep, he, rfl⟩
    · exact Finset.mem_insert_of_mem (h.owned a (Or.inl ha))
    · exact Finset.mem_insert_of_mem (h.owned a (Or.inr (Or.inl ha)))
    · exact Finset.mem_insert_of_mem (h.owned a (Or.inr (Or.inr (Or.inl ha))))
    · cases he; exact Finset.mem_insert_self ..
  workers := h.workers
  testMsg a ha := h.testMsg a (by simpa [Master.ready] using ha)
  workerConnect a ha := h.workerConnect a (by simpa [Master.ready] using ha)
  workerMsg a ha := h.workerMsg a (by simpa [Master.ready] using ha)
  sctpMsg a ha := by
    rcases Registry.mem_register.1 ha with ha | ha
    · exact absurd (h.sctpMsg a ha) (by simp [hs])
    · cases ha; rfl
  bound ep he := by cases he; exact Finset.mem_insert_self ..
  free hn := by cases hn
  offering a rest ha := by rw [show (m.ready r).ctl = m.ctl from rfl, hctl] at ha; cases ha

theorem accepted (hfd : m.kernel.MayReturn connFd) : (m.accepted connFd).Inv where
  nonneg a ha := by
    unfold Master.accepted at ha
    split_ifs at ha with h₀
    · exact (Finset.mem_insert.1 ha).elim (fun e => e ▸ h₀) (h.nonneg a)
    · exact h.nonneg a ha
  owned a ha := by
    unfold Master.accepted
    split_ifs
    · exact Finset.mem_insert_of_mem (h.owned a ha)
    · exact h.owned a ha
  workers := h.workers
  testMsg := h.testMsg
  workerConnect := h.workerConnect
  workerMsg := h.workerMsg
  sctpMsg := h.sctpMsg
  bound ep he := by unfold Master.accepted; split_ifs <;> exact h.bound ep he
  free hn := by unfold Master.accepted; split_ifs <;> exact h.free hn
  offering a rest ha := by
    cases ha
    exact ⟨h.not_owns hfd, fun p hp => Std.TreeMap.mem_toList_iff_getElem?_eq_some.1 hp⟩

theorem handed {rest : List (Fd × DomainSocket)} {p : Fd × DomainSocket} {sock : Fd}
    (hctl : m.ctl = .offer fd (p :: rest)) : (m.handed sock fd rest).Inv :=
  { h with
    offering := fun a rest' ha => by
      cases ha
      obtain ⟨hno, hrest⟩ := h.offering fd _ hctl
      exact ⟨hno, fun p hp => hrest p (List.mem_cons_of_mem _ hp)⟩ }

theorem offered (hctl : m.ctl = .offer fd []) : (m.offered fd).Inv where
  nonneg a ha := h.nonneg a (Finset.mem_of_mem_erase ha)
  owned a ha := Finset.mem_erase.2 ⟨by rintro rfl; exact (h.offering a _ hctl).1 ha, h.owned a ha⟩
  workers := h.workers
  testMsg := h.testMsg
  workerConnect := h.workerConnect
  workerMsg := h.workerMsg
  sctpMsg := h.sctpMsg
  bound ep he := Finset.mem_filter.2 ⟨h.bound ep he, fun heq =>
    (h.offering fd _ hctl).1 (Or.inr (Or.inr (Or.inr ⟨ep, he, heq⟩)))⟩
  free hn := by simp [Master.offered, h.free hn]
  offering a rest ha := by cases ha

theorem toldWorker (w : Word) : (m.toldWorker s w).Inv := by
  unfold Master.toldWorker DomainSocket.wrote
  split_ifs
  · exact { h with }
  · exact h

theorem waiting : ({ m with ctl := .wait } : Master).Inv :=
  { h with offering := fun a rest ha => by cases ha }

theorem hungUp : ({ m with kernel := m.kernel.hangUp fd } : Master).Inv := { h with }

end Inv

/-! ## The constructor -/

/-- The descriptors in the results are ones that the kernel may return. -/
def Boot.Possible (b : Boot) : Prop :=
  Kernel.start.MayReturn b.test ∧ (Kernel.start.opened b.test).MayReturn b.listen ∧
    (Kernel.start.opened b.test).MayReturn b.sctp.fd

instance (b : Boot) : Decidable b.Possible := inferInstanceAs (Decidable (_ ∧ _))

variable {pid : Word} {workers : WorkersPid} {b : Boot}

/-- The master has connected to the tester. -/
def connected (pid : Word) (workers : WorkersPid) (b : Boot) : Master :=
  { blank pid workers with
    kernel := Kernel.start.opened b.test
    testSocketClient := ⟨b.test⟩
    ioMulti := [(b.test, .testMsg)] }

/-- It has the listener for its workers. -/
def listening (m : Master) (fd : Fd) : Master :=
  { m with
    kernel := m.kernel.opened fd
    workerSocketListen := some ⟨fd⟩
    ioMulti := m.ioMulti.register fd .workerConnect }

/-- **The constructor** either ends the process or leaves one of two states:
    with workers the master listens for them, and without any it is ready at
    once. -/
theorem construct_cases (pid : Word) (workers : WorkersPid) (b : Boot) :
    (∃ h m, (construct b).run (blank pid workers) = .error h m) ∨
      0 ≤ b.test ∧ ((0 < workers.pids.length ∧ 0 ≤ b.listen ∧
        (construct b).run (blank pid workers) =
          .ok () ((connected pid workers b).listening b.listen)) ∨
      (workers.pids = [] ∧ (connected pid workers b).CanServe b.sctp ∧
        (construct b).run (blank pid workers) =
          .ok () ((connected pid workers b).ready b.sctp))) := by
  by_cases ht : 0 ≤ b.test ∧ b.testOk
  · have htest : ∀ k, (DomainSocket.create b.test b.testOk).run k = .ok ⟨b.test⟩ (k.opened b.test) :=
      DomainSocket.create_run ht.1 ht.2
    by_cases hw : 0 < workers.pids.length
    · have hw' : 0 < (blank pid workers).workersPid.pids.length := hw
      by_cases hl : 0 ≤ b.listen ∧ b.listenOk
      · refine Or.inr ⟨ht.1, Or.inl ⟨hw, hl.1, ?_⟩⟩
        simp [construct, htest, registerFd, hw', DomainSocket.create_run hl.1 hl.2]
        rfl
      · choose f hf using DomainSocket.create_fails hl
        exact Or.inl (by simp [construct, htest, registerFd, hw', hf])
    · have hw' : ¬ 0 < (blank pid workers).workersPid.pids.length := hw
      have hrun : (construct b).run (blank pid workers) =
          (masterReadyForwork b.sctp).run (connected pid workers b) := by
        simp only [construct, EStateM.run_bind, run_sys, htest, Proc.mapState_ok, EStateM.run_modify,
          registerFd, EStateM.run_get, hw', if_false]
        rfl
      rw [hrun]
      by_cases hr : (connected pid workers b).CanServe b.sctp
      · exact Or.inr ⟨ht.1, Or.inr ⟨List.eq_nil_of_length_eq_zero (by omega), hr,
          masterReadyForwork_run rfl (Finset.mem_insert_self ..) hr⟩⟩
      · obtain ⟨e, m', he, -⟩ := masterReadyForwork_ends (m := connected pid workers b)
          (Finset.mem_insert_self ..) (Or.inl rfl) hr
        exact Or.inl ⟨e, m', he⟩
  · obtain ⟨k', hk⟩ := DomainSocket.create_fails ht (blank pid workers).kernel
    exact Or.inl (by simp [construct, hk])

theorem Inv.connected (ht : 0 ≤ b.test) : (connected pid workers b).Inv where
  nonneg a ha := by
    simp only [Master.connected, Kernel.openFds_opened, Kernel.start, Finset.mem_insert,
      Finset.mem_singleton] at ha
    rcases ha with rfl | rfl | rfl | rfl
    · exact ht
    all_goals decide
  owned a ha := by
    rcases ha with ha | ha | ha | ⟨ep, he, rfl⟩
    · rw [ha]; exact Finset.mem_insert_self ..
    · cases ha
    · cases ha
    · cases he
  workers a s hs := by cases hs
  testMsg a ha := by simpa [Master.connected] using ha
  workerConnect a ha := by simp [Master.connected] at ha
  workerMsg a ha := by simp [Master.connected] at ha
  sctpMsg a ha := by simp [Master.connected] at ha
  bound ep he := by cases he
  free _ := rfl
  offering a rest ha := by cases ha

theorem Inv.listening (h : m.Inv) (hfd : m.kernel.Fresh fd) (hctl : m.ctl = .poll)
    (hreg : ∀ a, (a, .workerConnect) ∉ m.ioMulti) : (m.listening fd).Inv where
  nonneg a ha := (Finset.mem_insert.1 ha).elim (fun e => e ▸ hfd.1) (h.nonneg a)
  owned a ha := by
    rcases ha with ha | ha | ha | ha
    · exact Finset.mem_insert_of_mem (h.owned a (Or.inl ha))
    · cases ha; exact Finset.mem_insert_self ..
    · exact Finset.mem_insert_of_mem (h.owned a (Or.inr (Or.inr (Or.inl ha))))
    · exact Finset.mem_insert_of_mem (h.owned a (Or.inr (Or.inr (Or.inr ha))))
  workers := h.workers
  testMsg a ha := h.testMsg a (by simpa [Master.listening] using ha)
  workerConnect a ha := by
    rcases Registry.mem_register.1 ha with ha | ha
    · exact absurd ha (hreg a)
    · cases ha; rfl
  workerMsg a ha := h.workerMsg a (by simpa [Master.listening] using ha)
  sctpMsg a ha := h.sctpMsg a (by simpa [Master.listening] using ha)
  bound := h.bound
  free := h.free
  offering a rest ha := by rw [show (m.listening fd).ctl = m.ctl from rfl, hctl] at ha; cases ha

/-- The master that `main` has made satisfies the invariant, has counted no
    worker, and has called `master_ready_forwork` only if it has no workers. -/
structure Started (workers : WorkersPid) (m : Master) : Prop where
  inv : m.Inv
  workersPid : m.workersPid = workers
  workerCount : m.workerCount = 0
  readyCalls : m.readyCalls = if workers.pids = [] then 1 else 0
  ctl : m.ctl = .poll
  isMasterTerminated : m.isMasterTerminated = false
  gone : m.kernel.gone = ∅

theorem init_started (hb : b.Possible) (h : (init pid workers b).halted = none) :
    Started workers (init pid workers b).st ∧
      (init pid workers b).st.testSocketClient = ⟨b.test⟩ := by
  rcases construct_cases pid workers b with ⟨e, m, he⟩ | ⟨ht, ⟨hw, hl, hrun⟩ | ⟨hw, hr, hrun⟩⟩
  · rw [init, Process.exec_error he] at h; cases h
  · rw [init, Process.exec_ok hrun]
    have hfd := hb.2.1.fresh hl
    refine ⟨⟨(Inv.connected ht).listening hfd rfl (fun a ha => ?_), rfl, rfl, ?_, rfl, rfl, rfl⟩,
      rfl⟩
    · simp [Master.connected] at ha
    · rw [if_neg (List.ne_nil_of_length_pos hw)]; rfl
  · rw [init, Process.exec_ok hrun]
    exact ⟨⟨(Inv.connected ht).ready hr rfl rfl, rfl, rfl, by rw [if_pos hw]; rfl, rfl, rfl, rfl⟩,
      rfl⟩

/-! ## What an event does -/

/-- The event does not end the process. -/
def Safe (m : Master) : MasterEv → Prop
  | .call _ (.testMsg bytes) => (received bytes).isSome
  | .call _ (.workerConnect connFd) => 0 ≤ connFd
  | .call _ (.workerMsg bytes r) =>
    match handledId bytes with
    | some msgId => (m.counted msgId).Barrier → m.CanServe r
    | none => bytes = some []
  | .call _ (.sctpMsg _) => True
  | .offer =>
    match m.ctl with
    | .offer fd (p :: _) => m.kernel.Live p.2.sockFd ∧ fd ∈ m.kernel.openFds
    | _ => True
  | .leave _ => m.workersSocketConnect.toList.length ≤ 1
  | .hangUp _ => True

/-- The calls of `master_ready_forwork` in an event: a message that reaches the
    barrier makes one. -/
def calls (m : Master) (e : MasterEv) : ℕ :=
  match e.workerMsg? with
  | some (_, msgId) => if (m.counted msgId).Barrier then 1 else 0
  | none => 0

/-- What an event changes, apart from the descriptors. -/
structure Tracks (m : Master) (e : MasterEv) (m' : Master) : Prop where
  workersPid : m'.workersPid = m.workersPid
  testSocketClient : m'.testSocketClient = m.testSocketClient
  readyCalls : m'.readyCalls = m.readyCalls + m.calls e
  workerCount : m'.workerCount =
    if ∃ p ∈ e.workerMsg?, p.2 = workerReadyMsgId then m.workerCount + 1 else m.workerCount
  isMasterTerminated : m'.isMasterTerminated = true ↔
    m.isMasterTerminated = true ∨ ∃ msg ∈ e.testMsg?, msg.msgId = masterTerminateMsgId
  ctl : m'.ctl = .wait → m.ctl = .wait ∨ ∃ w, e = .leave w
  gone : ∀ fd ∈ m'.kernel.gone, fd ∈ m.kernel.gone ∨ e = .hangUp fd

/-- An event without a message leaves the counters and the flag as they are. -/
theorem Tracks.quiet {m' : Master} {e : MasterEv} (hw : e.workerMsg? = none)
    (ht : e.testMsg? = none) (hpid : m'.workersPid = m.workersPid)
    (hsock : m'.testSocketClient = m.testSocketClient) (hcalls : m'.readyCalls = m.readyCalls)
    (hcount : m'.workerCount = m.workerCount)
    (hterm : m'.isMasterTerminated = m.isMasterTerminated)
    (hctl : m'.ctl = .wait → m.ctl = .wait ∨ ∃ w, e = .leave w)
    (hgone : ∀ fd ∈ m'.kernel.gone, fd ∈ m.kernel.gone ∨ e = .hangUp fd) : m.Tracks e m' where
  workersPid := hpid
  testSocketClient := hsock
  readyCalls := by simp [hcalls, calls, hw]
  workerCount := by simp [hcount, hw]
  isMasterTerminated := by simp [hterm, ht]
  ctl := hctl
  gone := hgone

theorem Tracks.told (hm : received bytes = some msg) :
    m.Tracks (.call fd (.testMsg bytes)) (m.told msg) where
  workersPid := rfl
  testSocketClient := rfl
  readyCalls := by simp [Master.told, calls, MasterEv.workerMsg?]
  workerCount := by simp [MasterEv.workerMsg?]
  isMasterTerminated := by simp [Master.told, MasterEv.testMsg?, hm]
  ctl := Or.inl
  gone _ := Or.inl

/-- A message that does not reach the barrier. -/
theorem Tracks.counted (hm : handledId bytes = some msgId) (hb : ¬ (m.counted msgId).Barrier) :
    m.Tracks (.call fd (.workerMsg bytes r)) (m.counted msgId) where
  workersPid := by simp
  testSocketClient := by simp
  readyCalls := by simp [calls, MasterEv.workerMsg?, hm, hb]
  workerCount := by simp [MasterEv.workerMsg?, hm, Master.counted]
  isMasterTerminated := by simp [MasterEv.testMsg?]
  ctl h := by simpa using h
  gone fd h := Or.inl (by simpa using h)

/-- A message that reaches it. -/
theorem Tracks.ready (hm : handledId bytes = some msgId) (hb : (m.counted msgId).Barrier) :
    m.Tracks (.call fd (.workerMsg bytes r)) ((m.counted msgId).ready r) where
  workersPid := by simp [Master.ready]
  testSocketClient := by simp [Master.ready]
  readyCalls := by simp [Master.ready, calls, MasterEv.workerMsg?, hm, hb]
  workerCount := by simp [Master.ready, MasterEv.workerMsg?, hm, Master.counted]
  isMasterTerminated := by simp [Master.ready, MasterEv.testMsg?]
  ctl h := by simpa [Master.ready] using h
  gone fd h := Or.inl (by simpa [Master.ready] using h)

/-- The state that an event leads to when it does not end the process. -/
inductive Change (m : Master) : MasterEv → Master → Prop
  | told {bytes : Option (List Byte)} {msg : InternalMsg} (hm : received bytes = some msg) :
      Change m (.call m.testSocketClient.sockFd (.testMsg bytes)) (m.told msg)
  | joined {fd connFd : Fd} (hctl : m.ctl = .poll) (hfd : m.kernel.Fresh connFd) :
      Change m (.call fd (.workerConnect connFd)) (m.joined connFd)
  | deregistered {fd : Fd} {r : Setup} : Change m (.call fd (.workerMsg (some []) r))
      { m with ioMulti := m.ioMulti.deregister fd }
  | counted {fd : Fd} {bytes : Option (List Byte)} {r : Setup} {msgId : Word}
      (hm : handledId bytes = some msgId) (hb : ¬ (m.counted msgId).Barrier) :
      Change m (.call fd (.workerMsg bytes r)) (m.counted msgId)
  | ready {fd : Fd} {bytes : Option (List Byte)} {r : Setup} {msgId : Word}
      (hctl : m.ctl = .poll) (hfd : m.kernel.Fresh r.fd) (hm : handledId bytes = some msgId)
      (hb : (m.counted msgId).Barrier) (hr : m.CanServe r) (hs : m.sctpEndpoint = none) :
      Change m (.call fd (.workerMsg bytes r)) ((m.counted msgId).ready r)
  | accepted {fd connFd : Fd} (hctl : m.ctl = .poll) (hfd : m.kernel.MayReturn connFd) :
      Change m (.call fd (.sctpMsg connFd)) (m.accepted connFd)
  | handed {fd : Fd} {p : Fd × DomainSocket} {rest : List (Fd × DomainSocket)}
      (hctl : m.ctl = .offer fd (p :: rest)) : Change m .offer (m.handed p.2.sockFd fd rest)
  | offered {fd : Fd} (hctl : m.ctl = .offer fd []) : Change m .offer (m.offered fd)
  | waiting {w : Word} : Change m (.leave w) { m with ctl := .wait }
  | toldWorker {w : Word} {s : DomainSocket} :
      Change m (.leave w) { m.toldWorker s w with ctl := .wait }
  | hungUp {fd : Fd} : Change m (.hangUp fd) { m with kernel := m.kernel.hangUp fd }

variable {m' : Master} {e : MasterEv}

theorem Change.inv (hc : m.Change e m') (h : m.Inv) : m'.Inv := by
  cases hc with
  | told hm => exact h.told
  | joined hctl hfd => exact h.joined hfd hctl
  | deregistered => exact h.deregistered
  | counted hm hb => exact h.counted
  | ready hctl hfd hm hb hr hs => exact h.counted.ready (by simpa) (by simpa) (by simpa)
  | accepted hctl hfd => exact h.accepted hfd
  | handed hctl => exact h.handed hctl
  | offered hctl => exact h.offered hctl
  | waiting => exact h.waiting
  | toldWorker => exact (h.toldWorker _).waiting
  | hungUp => exact h.hungUp

theorem Change.tracks (hc : m.Change e m') : m.Tracks e m' := by
  cases hc with
  | told hm => exact .told hm
  | joined hctl hfd => exact .quiet rfl rfl rfl rfl rfl rfl rfl Or.inl fun _ => Or.inl
  | deregistered =>
    exact .quiet (by simp [MasterEv.workerMsg?]) rfl rfl rfl rfl rfl rfl Or.inl fun _ => Or.inl
  | counted hm hb => exact .counted hm hb
  | ready hctl hfd hm hb hr hs => exact .ready hm hb
  | accepted hctl hfd =>
    refine .quiet rfl rfl rfl rfl rfl rfl rfl (fun hw => by cases hw) fun a ha => ?_
    unfold Master.accepted at ha
    split_ifs at ha <;> exact Or.inl ha
  | handed hctl => exact .quiet rfl rfl rfl rfl rfl rfl rfl (fun hw => by cases hw) fun _ => Or.inl
  | offered hctl =>
    exact .quiet rfl rfl rfl rfl rfl rfl rfl (fun hw => by cases hw) fun a ha =>
      Or.inl (Finset.mem_of_mem_erase ha)
  | waiting => exact .quiet rfl rfl rfl rfl rfl rfl rfl (fun _ => Or.inr ⟨_, rfl⟩) fun _ => Or.inl
  | toldWorker =>
    refine .quiet rfl rfl rfl rfl rfl rfl rfl (fun _ => Or.inr ⟨_, rfl⟩) fun a ha => Or.inl ?_
    unfold Master.toldWorker DomainSocket.wrote at ha
    split_ifs at ha <;> exact ha
  | hungUp =>
    refine .quiet rfl rfl rfl rfl rfl rfl rfl Or.inl ?_
    intro a ha
    rcases Finset.mem_insert.1 ha with rfl | ha
    · exact Or.inr rfl
    · exact Or.inl ha

/-- **What an event does** in a state with `Inv`: when it is safe it leads to
    one of the states of `Change`, and otherwise it ends the process. -/
theorem code_change (h : m.Inv) (he : m.Enabled e) :
    (m.Safe e ∧ ∃ m', (code e).run m = .ok () m' ∧ m.Change e m') ∨
    (¬ m.Safe e ∧ Ends (code e) m (m.calls e)) := by
  cases e with
  | call fd c =>
    obtain ⟨hctl, hreg, hpos⟩ := he
    cases c with
    | testMsg bytes =>
      obtain rfl := h.testMsg fd hreg
      cases hm : received bytes with
      | none => exact Or.inr ⟨by simp [Safe, hm], testMsg_ends hm⟩
      | some msg => exact Or.inl ⟨by simp [Safe, hm], m.told msg, testMsg_run hm, .told hm⟩
    | workerConnect connFd =>
      have hl : m.workerSocketListen.isSome := by simp [h.workerConnect fd hreg]
      by_cases hfd : 0 ≤ connFd
      · exact Or.inl ⟨hfd, m.joined connFd, workerConnect_run hl (h.get?_of_mayReturn hpos) hfd,
          .joined hctl (hpos.fresh hfd)⟩
      · exact Or.inr ⟨hfd, workerConnect_ends hl (not_le.1 hfd)⟩
    | workerMsg bytes r =>
      obtain ⟨s, hs⟩ := Option.isSome_iff_exists.1 (h.workerMsg fd hreg)
      cases hm : handledId bytes with
      | none =>
        by_cases hb : bytes = some []
        · subst hb
          exact Or.inl ⟨by simp [Safe], _, workerMsgHandler_eof hs, .deregistered⟩
        · exact Or.inr ⟨by simp [Safe, hm, hb], by
            simpa [code, dispatch, calls, MasterEv.workerMsg?, hm] using
              workerMsgHandler_ends hs hm hb⟩
      | some msgId =>
        have hrun := workerMsgHandler_run (r := r) hs hm
        by_cases hb : (m.counted msgId).Barrier
        · rw [if_pos hb] at hrun
          by_cases hr : m.CanServe r
          · have hnone := h.sctpEndpoint_none hr
            have hfresh : m.kernel.Fresh r.fd := hpos.fresh hr.1.1
            exact Or.inl ⟨by simp [Safe, hm, hr], (m.counted msgId).ready r, hrun.trans
              (masterReadyForwork_run (by simpa) (by simpa using h.testSocketClient_mem)
                (by simpa)), .ready hctl hfresh hm hb hr hnone⟩
          · obtain ⟨e, m', he, hc⟩ := masterReadyForwork_ends (m := m.counted msgId) (r := r)
              (by simpa using h.testSocketClient_mem) (by simpa using h.sctpEndpoint_none_or)
              (by simpa)
            exact Or.inr ⟨by simp [Safe, hm, hb, hr], e, m', hrun.trans he, by
              simpa [calls, MasterEv.workerMsg?, hm, hb] using hc⟩
        · rw [if_neg hb] at hrun
          exact Or.inl ⟨by simp [Safe, hm, hb], _, hrun, .counted hm hb⟩
    | sctpMsg connFd =>
      exact Or.inl ⟨trivial, m.accepted connFd, sctpMsgHandler_run (h.sctpMsg fd hreg),
        .accepted hctl hpos⟩
  | offer =>
    cases hctl : m.ctl with
    | poll => exact absurd hctl he.1
    | wait => exact absurd hctl he.2
    | offer fd rest =>
      cases rest with
      | nil =>
        exact Or.inl ⟨by simp [Safe, hctl], m.offered fd, offer_done hctl, .offered hctl⟩
      | cons p rest =>
        by_cases hl : m.kernel.Live p.2.sockFd ∧ fd ∈ m.kernel.openFds
        · exact Or.inl ⟨by simpa [Safe, hctl] using hl, _, offer_run hctl hl.1 hl.2, .handed hctl⟩
        · exact Or.inr ⟨by simpa [Safe, hctl] using hl, offer_ends hctl hl⟩
  | leave w =>
    rcases hl : m.workersSocketConnect.toList with _ | ⟨p, _ | ⟨q, rest⟩⟩
    · exact Or.inl ⟨by simp [Safe, hl], _, leave_run_nil hl, .waiting⟩
    · exact Or.inl ⟨by simp [Safe, hl], _, leave_run_one hl, .toldWorker⟩
    · exact Or.inr ⟨by simp [Safe, hl], _, _, leave_run_more hl, rfl⟩
  | hangUp fd => exact Or.inl ⟨trivial, _, rfl, .hungUp⟩

theorem code_cases (h : m.Inv) (he : m.Enabled e) :
    (m.Safe e ∧ ∃ m', (code e).run m = .ok () m' ∧ m'.Inv ∧ m.Tracks e m') ∨
    (¬ m.Safe e ∧ Ends (code e) m (m.calls e)) := by
  rcases code_change h he with ⟨hs, m', hrun, hc⟩ | hends
  · exact Or.inl ⟨hs, m', hrun, hc.inv h, hc.tracks⟩
  · exact Or.inr hends

end Master

end ProxyBroker
