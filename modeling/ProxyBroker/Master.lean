/-
  `master` (`master.cpp`), with `SctpServerEndpoint::SctpMsgHandler`
  (`comm/SctpServerEndpoint.cpp`), which runs in it.

  The master is a machine.  `Poll` calls one registered callback at a time; an
  event is such a call with the results of the system calls that the callback
  makes, and can happen when the pair is in the registry.  The handler of new
  SCTP connections hands the descriptor to the workers one by one: each
  iteration of its loop is an event of its own (`offer`), as other processes
  run in between.

  `readyCalls` counts the calls of `master_ready_forwork`; no code reads it.
-/
import ProxyBroker.DomainSocket
import ProxyBroker.Machine
import ProxyBroker.Registry
import ProxyBroker.SctpSocket

namespace ProxyBroker

/-- The pids that `main` hands to the master: those of children it has forked
    and not waited for, so they are positive `int`s and all different. -/
structure WorkersPid where
  pids : List ℤ
  nodup : pids.Nodup
  isPid : ∀ p ∈ pids, 0 < p ∧ p < 2 ^ 31

theorem WorkersPid.length_lt (w : WorkersPid) : w.pids.length < 2 ^ 31 := by
  have hsub : w.pids.toFinset ⊆ Finset.Ioo 0 (2 ^ 31) := fun p hp => by
    simpa using w.isPid p (List.mem_toFinset.1 hp)
  have := Finset.card_le_card hsub
  rw [List.toFinset_card_of_nodup w.nodup, Int.card_Ioo] at this
  omega

/-- The callbacks that the master registers. -/
inductive MasterCb where
  /-- reads from the tester -/
  | testMsg
  /-- accepts a worker -/
  | workerConnect
  /-- `worker_msg_handler` -/
  | workerMsg
  /-- `SctpServerEndpoint::SctpMsgHandler` -/
  | sctpMsg
  deriving DecidableEq, Repr

/-- Where the master is in `run`. -/
inductive MasterCtl where
  /-- in the poll loop, outside of `offer` -/
  | poll
  /-- in the handler for the new connection `fd`, with `rest` to iterate over -/
  | offer (fd : Fd) (rest : List (Fd × DomainSocket))
  /-- in `wait_until_workers_closed` -/
  | wait
  deriving DecidableEq, Repr

structure Master where
  kernel : Kernel
  pid : Word
  ioMulti : Registry Fd MasterCb
  testSocketClient : DomainSocket
  workerSocketListen : Option DomainSocket
  workersSocketConnect : Std.TreeMap Fd DomainSocket
  workersPid : WorkersPid
  workerCount : Word
  isMasterTerminated : Bool
  sctpEndpoint : Option SctpServerEndpoint
  ctl : MasterCtl
  readyCalls : ℕ

namespace Master

/-- Run code over what the kernel keeps for the master. -/
def sys {α : Type} (p : Proc Kernel α) : Proc Master α :=
  Proc.zoom Master.kernel (fun m k => { m with kernel := k }) p

def registerFd (fd : Fd) (cb : MasterCb) : Proc Master Unit :=
  modify fun m => { m with ioMulti := m.ioMulti.register fd cb }

def deregisterFd (fd : Fd) : Proc Master Unit :=
  modify fun m => { m with ioMulti := m.ioMulti.deregister fd }

/-! ## Handlers -/

/-- `indicate_test_framework`. -/
def indicateTestFramework : Proc Master Unit := do
  let m ← get
  sys (m.testSocketClient.domainSendMsg (some (.ofMsg ⟨masterReadyMsgId, m.pid⟩)))

/-- `master_ready_forwork`, where `r` is what the calls for the SCTP listener
    answer. -/
def masterReadyForwork (r : Setup) : Proc Master Unit := do
  modify fun m => { m with readyCalls := m.readyCalls + 1 }
  let ep ← sys (SctpServerEndpoint.create r myPortNum)
  registerFd ep.sctpSocketListen.sockFd .sctpMsg
  -- the assignment destroys an endpoint that was there before
  let m ← get
  set { m with sctpEndpoint := some ep }
  if let some old := m.sctpEndpoint then
    deregisterFd old.sctpSocketListen.sockFd
    sys old.sctpSocketListen.destroy
  -- `register_newconn_handler`
  modify fun m => { m with sctpEndpoint := some { ep with newConnHandler := true } }
  indicateTestFramework

/-- `woker_connect_handler`: an `insert` keeps the pair that has the key, and
    then the new socket is destroyed. -/
def wokerConnectHandler (connFd : Fd) : Proc Master Unit := do
  registerFd connFd .workerMsg
  let m ← get
  match m.workersSocketConnect[connFd]? with
  | none =>
    set { m with workersSocketConnect := m.workersSocketConnect.insert connFd ⟨connFd⟩ }
  | some _ => sys (DomainSocket.domainClose ⟨connFd⟩)

/-- The callback that accepts a worker. -/
def workerConnect (connFd : Fd) : Proc Master Unit := do
  match (← get).workerSocketListen with
  | none => Proc.halt .abort
  | some _ =>
    let connFd ← sys (DomainSocket.domainAccept connFd)
    wokerConnectHandler connFd

/-- The conversion of an `int` to `size_t`. -/
def sizeT (w : Word) : ℕ := (w.signExtend 64).toNat

/-- `worker_count == workers_pid.size()`. -/
def Barrier (m : Master) : Prop := m.workersPid.pids.length = sizeT m.workerCount

instance (m : Master) : Decidable m.Barrier := inferInstanceAs (Decidable (_ = _))

/-- No negative count is equal to a size that `workers_pid` can have. -/
theorem barrier_iff (m : Master) : m.Barrier ↔ m.workersPid.pids.length = m.workerCount.toNat := by
  have hlt := m.workersPid.length_lt
  have hint : (sizeT m.workerCount : ℤ) = m.workerCount.toInt % 2 ^ 64 := by
    rw [sizeT, BitVec.signExtend, BitVec.toNat_ofInt, Int.toNat_of_nonneg (by omega)]; rfl
  rw [BitVec.toInt_eq_toNat_cond] at hint
  unfold Barrier
  split_ifs at hint <;> omega

/-- `worker_msg_handler`; `r` is for the call of `master_ready_forwork`. -/
def workerMsgHandler (fd : Fd) (bytes : Option (List Byte)) (r : Setup) : Proc Master Unit := do
  match (← get).workersSocketConnect[fd]? with
  | none => Proc.halt .abort
  | some _ =>
    match ← sys (DomainSocket.domainRead bytes) with
    | none => deregisterFd fd
    | some serialMsg =>
      match serialMsg.headerMsgId with
      | none => Proc.halt .abort
      | some msgId =>
        if msgId = workerReadyMsgId then
          -- only here is the word after the id read
          match serialMsg.deserializedData with
          | none => Proc.halt .abort
          | some _ => modify fun m => { m with workerCount := m.workerCount + 1 }
        if (← get).Barrier then masterReadyForwork r

/-- `msg_handler`. -/
def msgHandler (msgRecv : InternalMsg) : Proc Master Unit := do
  if msgRecv.msgId = masterTerminateMsgId then
    modify fun m => { m with isMasterTerminated := true }

/-- The callback that reads from the tester; `msg_handler` logs the word as well. -/
def testMsg (sockFd : Fd) (bytes : Option (List Byte)) : Proc Master Unit := do
  if sockFd ≠ (← get).testSocketClient.sockFd then return
  match ← sys (DomainSocket.domainRead bytes) with
  | none => Proc.halt (.exit 0)
  | some msg =>
    match msg.deserializedData with
    | none => Proc.halt .abort
    | some msgRecv => msgHandler msgRecv

/-- The handler for new connections, up to its loop over the workers. -/
def newConnHandler (fd : Fd) : Proc Master Unit :=
  modify fun m => { m with ctl := .offer fd m.workersSocketConnect.toList }

/-- One iteration of the loop of the handler for new connections, or what
    follows the loop. -/
def offer : Proc Master Unit := do
  match (← get).ctl with
  | .offer fd ((_, s) :: rest) =>
    sys (s.domainSendFd fd)
    modify fun m => { m with ctl := .offer fd rest }
  | .offer fd [] =>
    sys (modify (·.closed fd))
    modify fun m => { m with ctl := .poll }
  | _ => return

/-- `SctpServerEndpoint::SctpMsgHandler`, where `accept` returns `connFd`: the
    handler may not have been set, and `sctp_socket_conn` is null. -/
def sctpMsgHandler (sockFd connFd : Fd) : Proc Master Unit := do
  match (← get).sctpEndpoint with
  | none => Proc.halt .abort
  | some ep =>
    if sockFd = ep.sctpSocketListen.sockFd then
      let connSockFd ← sys (SctpSocket.sctpAccept connFd)
      if ep.newConnHandler then newConnHandler connSockFd else Proc.halt .abort
    else Proc.halt .abort

/-- The loop of `send_terminate_to_worker`. -/
def sendTerminateLoop : List (Fd × DomainSocket) → Option SerializedMsg → Proc Master Unit
  | [], _ => return
  | (_, s) :: rest, serialMsg => do
    sys (s.domainWrite serialMsg)
    -- the call has taken the message
    sendTerminateLoop rest none

/-- `send_terminate_to_worker`; no sender sets the placeholder of its message. -/
def sendTerminateToWorker (placeholder : Word) : Proc Master Unit := do
  sendTerminateLoop (← get).workersSocketConnect.toList
    (some (.ofMsg ⟨workerTerminateMsgId, placeholder⟩))

/-- `run` after its poll loop. -/
def leave (placeholder : Word) : Proc Master Unit := do
  sendTerminateToWorker placeholder
  modify fun m => { m with ctl := .wait }

/-! ## Construction -/

/-- What the calls answer that the constructor makes: the descriptors of its
    two domain sockets, whether setting them up succeeds, and what the calls
    for the SCTP listener answer. -/
structure Boot where
  test : Fd
  testOk : Bool
  listen : Fd
  listenOk : Bool
  sctp : Setup

/-- The master before the body of its constructor. -/
def blank (pid : Word) (workers : WorkersPid) : Master where
  kernel := .start
  pid := pid
  ioMulti := []
  testSocketClient := ⟨-1⟩
  workerSocketListen := none
  workersSocketConnect := ∅
  workersPid := workers
  workerCount := 0
  isMasterTerminated := false
  sctpEndpoint := none
  ctl := .poll
  readyCalls := 0

/-- The body of the constructor. -/
def construct (b : Boot) : Proc Master Unit := do
  let test ← sys (DomainSocket.create b.test b.testOk)
  modify fun m => { m with testSocketClient := test }
  registerFd test.sockFd .testMsg
  if 0 < (← get).workersPid.pids.length then
    let listen ← sys (DomainSocket.create b.listen b.listenOk)
    modify fun m => { m with workerSocketListen := some listen }
    registerFd listen.sockFd .workerConnect
  else masterReadyForwork b.sctp

/-- The master as `main` makes it. -/
def init (pid : Word) (workers : WorkersPid) (b : Boot) : Process Master :=
  Process.exec (construct b) ⟨blank pid workers, none⟩

end Master

/-! ## The machine -/

/-- A callback, with the results of the system calls that it makes. -/
inductive MasterCall where
  | testMsg (bytes : Option (List Byte))
  | workerConnect (connFd : Fd)
  | workerMsg (bytes : Option (List Byte)) (r : Setup)
  | sctpMsg (connFd : Fd)
  deriving DecidableEq

/-- The callback of a call. -/
def MasterCall.cb : MasterCall → MasterCb
  | .testMsg _ => .testMsg
  | .workerConnect _ => .workerConnect
  | .workerMsg .. => .workerMsg
  | .sctpMsg _ => .sctpMsg

/-- The descriptors in the results are ones that the kernel may return. -/
def MasterCall.Possible (k : Kernel) : MasterCall → Prop
  | .testMsg _ => True
  | .workerConnect connFd => k.MayReturn connFd
  | .workerMsg _ r => k.MayReturn r.fd
  | .sctpMsg connFd => k.MayReturn connFd

instance MasterCall.decidablePossible (k : Kernel) : ∀ c : MasterCall, Decidable (c.Possible k)
  | .testMsg _ => isTrue trivial
  | .workerConnect _ | .workerMsg .. | .sctpMsg _ => inferInstanceAs (Decidable (k.MayReturn _))

inductive MasterEv where
  /-- `Poll` calls a callback with the descriptor `fd` -/
  | call (fd : Fd) (c : MasterCall)
  /-- the loop of the handler for new connections goes on -/
  | offer
  /-- `run` goes on after the poll loop -/
  | leave (placeholder : Word)
  /-- the other end of `fd` is closed -/
  | hangUp (fd : Fd)
  deriving DecidableEq

namespace Master

/-- Call the callback. -/
def dispatch (fd : Fd) : MasterCall → Proc Master Unit
  | .testMsg bytes => testMsg fd bytes
  | .workerConnect connFd => workerConnect connFd
  | .workerMsg bytes r => workerMsgHandler fd bytes r
  | .sctpMsg connFd => sctpMsgHandler fd connFd

/-- The code that an event runs. -/
def code : MasterEv → Proc Master Unit
  | .call fd c => dispatch fd c
  | .offer => offer
  | .leave placeholder => leave placeholder
  | .hangUp fd => sys (modify (·.hangUp fd))

/-- The event can happen: a call is that of a registered pair, and the poll
    loop is left once `isMasterTerminated` is set. -/
def Enabled (m : Master) : MasterEv → Prop
  | .call fd c => m.ctl = .poll ∧ (Registry.machine Fd MasterCb).can m.ioMulti (.call fd c.cb) ∧
      c.Possible m.kernel
  | .offer => m.ctl ≠ .poll ∧ m.ctl ≠ .wait
  | .leave _ => m.ctl = .poll ∧ m.isMasterTerminated
  | .hangUp fd => fd ∈ m.kernel.openFds

instance (m : Master) : ∀ e, Decidable (m.Enabled e)
  | .call fd c => inferInstanceAs (Decidable (_ ∧ (fd, c.cb) ∈ m.ioMulti ∧ _))
  | .offer | .leave _ => inferInstanceAs (Decidable (_ ∧ _))
  | .hangUp _ => inferInstanceAs (Decidable (_ ∈ _))

/-- The master as a machine; once its process has ended nothing happens. -/
def machine : Machine (Process Master) MasterEv where
  can p e := p.halted = none ∧ p.st.Enabled e
  next p e := Process.exec (code e) p

instance (p : Process Master) (e : MasterEv) : Decidable (machine.can p e) :=
  inferInstanceAs (Decidable (_ ∧ _))

end Master

end ProxyBroker
