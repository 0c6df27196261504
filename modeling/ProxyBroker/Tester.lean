/-
  `tester` (`tester.cpp`), as a machine.

  The tester waits for the master, runs a test case when the master is ready,
  and further ones on the command of its user.  A test case opens an SCTP
  connection.

  * `next_tracks`: a step runs a test case only when the master is known to be
    ready, and tells the master to end only after the poll loop.
-/
import ProxyBroker.DomainSocket
import ProxyBroker.Machine
import ProxyBroker.Registry
import ProxyBroker.SctpSocket

namespace ProxyBroker

/-- The callbacks that the tester registers. -/
inductive TesterCb where
  /-- `sut_connect_handler` -/
  | sutConnect
  /-- `ReadUserCmd` -/
  | userCmd
  /-- reads from the master -/
  | sutMsg
  /-- `SctpMsgHandler` of the endpoint `obj` -/
  | sctpMsg (obj : ℕ)
  deriving DecidableEq, Repr

/-- Where the tester is in `run`. -/
inductive TesterPhase where
  /-- in the poll loop -/
  | polling
  /-- past `indicate_sut_to_quit` -/
  | left
  deriving DecidableEq, Repr

structure Tester where
  kernel : Kernel
  ioMulti : Registry Fd TesterCb
  testSocketServerListen : DomainSocket
  testSocketServerConnect : Option DomainSocket
  sctpEndpoints : List SctpClientEndpoint
  continuePoll : Bool
  isSutReady : Bool
  /-- the next endpoint that is made -/
  nextObj : ℕ
  phase : TesterPhase

namespace Tester

/-- Run code over what the kernel keeps for the tester. -/
def sys {α : Type} (p : Proc Kernel α) : Proc Tester α :=
  Proc.zoom Tester.kernel (fun t k => { t with kernel := k }) p

def registerFd (fd : Fd) (cb : TesterCb) : Proc Tester Unit :=
  modify fun t => { t with ioMulti := t.ioMulti.register fd cb }

def deregisterFd (fd : Fd) : Proc Tester Unit :=
  modify fun t => { t with ioMulti := t.ioMulti.deregister fd }

/-! ## Handlers -/

/-- `STDIN`. -/
def stdin : Fd := 0

/-- The text of the test case: `"helloworld: !0"`. -/
def helloworld : List Byte := "helloworld: !0".toList.map fun c => BitVec.ofNat 8 c.toNat

/-- `test_case`, where `r` is what the calls for the connection answer.
    `MAX_NUM_CONNECTION` is 1, so its loops run once. -/
def testCase (r : Setup) : Proc Tester Unit := do
  let s ← sys (SctpSocket.client r myPortNum)
  let obj := (← get).nextObj
  registerFd s.sockFd (.sctpMsg obj)
  modify fun t => { t with sctpEndpoints := t.sctpEndpoints ++ [⟨obj, s⟩], nextObj := obj + 1 }
  match (← get).sctpEndpoints[0]? with
  | none => Proc.halt .abort
  | some ep => sys (ep.sctpSocket.sctpWrite helloworld)

/-- `sut_connect_handler`: the assignment closes a connection that was there
    before. -/
def sutConnectHandler (connFd : Fd) : Proc Tester Unit := do
  let connFd ← sys (DomainSocket.domainAccept connFd)
  let t ← get
  set { t with testSocketServerConnect := some ⟨connFd⟩ }
  if let some old := t.testSocketServerConnect then sys old.domainClose
  registerFd connFd .sutMsg

/-- `test_msg_handler`, which reads the id of the message. -/
def testMsgHandler (msgRecv : SerializedMsg) (r : Setup) : Proc Tester Unit := do
  match msgRecv.headerMsgId with
  | none => Proc.halt .abort
  | some msgId =>
    if msgId = masterReadyMsgId then
      modify fun t => { t with isSutReady := true }
      testCase r

/-- The callback that reads from the master. -/
def sutMsg (sockFd : Fd) (recv : Option (List Byte × Option Fd)) (buf : Vector Byte maxBuffer)
    (r : Setup) : Proc Tester Unit := do
  match (← get).testSocketServerConnect with
  | none => Proc.halt .abort
  | some _ =>
    let (_, msg) ← sys (DomainSocket.domainRecvMsg recv buf (-1))
    match msg with
    | none => deregisterFd sockFd
    | some msg => testMsgHandler msg r

/-- `ReadUserCmd`, where `buf` is the character read. -/
def readUserCmd (buf : Char) (r : Setup) : Proc Tester Unit := do
  if buf = '0' then modify fun t => { t with continuePoll := false }
  else if buf = '1' then
    if (← get).isSutReady then testCase r

/-- The callback of the endpoint `obj`. -/
def sctpMsg (obj : ℕ) (rs : Option SctpRecv) (buf : Vector Byte (maxBuffer + 1)) :
    Proc Tester Unit := do
  match (← get).sctpEndpoints.find? (·.obj = obj) with
  | none => Proc.halt .abort
  | some _ =>
    let _ ← sys (SctpClientEndpoint.sctpMsgHandler rs buf)

/-- `indicate_sut_to_quit`; no sender sets the placeholder of its message. -/
def indicateSutToQuit (placeholder : Word) : Proc Tester Unit := do
  match (← get).testSocketServerConnect with
  | none => Proc.halt .abort
  | some s => sys (s.domainWrite (some (.ofMsg ⟨masterTerminateMsgId, placeholder⟩)))

/-- `run` after its poll loop. -/
def leave (placeholder : Word) : Proc Tester Unit := do
  modify fun t => { t with phase := .left }
  indicateSutToQuit placeholder

/-- The tester as it is constructed, with the descriptor of its listener. -/
def init (listen : Fd) : Process Tester :=
  ⟨{ kernel := Kernel.start.opened listen
     ioMulti := [(listen, .sutConnect), (stdin, .userCmd)]
     testSocketServerListen := ⟨listen⟩
     testSocketServerConnect := none
     sctpEndpoints := []
     continuePoll := true
     isSutReady := false
     nextObj := 0
     phase := .polling }, none⟩

end Tester

/-! ## The machine -/

/-- A callback, with the results of the system calls that it makes. -/
inductive TesterCall where
  | sutConnect (connFd : Fd)
  | userCmd (buf : Char) (r : Setup)
  | sutMsg (recv : Option (List Byte × Option Fd)) (buf : Vector Byte maxBuffer) (r : Setup)
  | sctpMsg (obj : ℕ) (rs : Option SctpRecv) (buf : Vector Byte (maxBuffer + 1))

/-- The callback of a call. -/
def TesterCall.cb : TesterCall → TesterCb
  | .sutConnect _ => .sutConnect
  | .userCmd .. => .userCmd
  | .sutMsg .. => .sutMsg
  | .sctpMsg obj .. => .sctpMsg obj

/-- The descriptors in the results are ones that the kernel may return. -/
def TesterCall.Possible (k : Kernel) : TesterCall → Prop
  | .sutConnect connFd => k.MayReturn connFd
  | .userCmd _ r => k.MayReturn r.fd
  | .sutMsg recv _ r => k.MayReturn r.fd ∧ ∀ x ∈ recv, ∀ fd ∈ x.2, k.Fresh fd
  | .sctpMsg .. => True

instance TesterCall.decidablePossible (k : Kernel) : ∀ c : TesterCall, Decidable (c.Possible k)
  | .sutConnect _ | .userCmd .. => inferInstanceAs (Decidable (k.MayReturn _))
  | .sutMsg none _ r | .sutMsg (some (_, none)) _ r =>
    decidable_of_iff (k.MayReturn r.fd) (by simp [TesterCall.Possible])
  | .sutMsg (some (_, some fd)) _ r =>
    decidable_of_iff (k.MayReturn r.fd ∧ k.Fresh fd) (by simp [TesterCall.Possible])
  | .sctpMsg .. => isTrue trivial

inductive TesterEv where
  /-- `Poll` calls a callback with the descriptor `fd` -/
  | call (fd : Fd) (c : TesterCall)
  /-- `run` goes on after the poll loop -/
  | leave (placeholder : Word)

namespace Tester

/-- Call the callback. -/
def dispatch (fd : Fd) : TesterCall → Proc Tester Unit
  | .sutConnect connFd => sutConnectHandler connFd
  | .userCmd buf r => readUserCmd buf r
  | .sutMsg recv buf r => sutMsg fd recv buf r
  | .sctpMsg obj rs buf => sctpMsg obj rs buf

/-- The code that an event runs. -/
def code : TesterEv → Proc Tester Unit
  | .call fd c => dispatch fd c
  | .leave placeholder => leave placeholder

/-- The event can happen. -/
def Enabled (t : Tester) : TesterEv → Prop
  | .call fd c => t.phase = .polling ∧
      (Registry.machine Fd TesterCb).can t.ioMulti (.call fd c.cb) ∧ c.Possible t.kernel
  | .leave _ => t.phase = .polling ∧ t.continuePoll = false

/-- The tester as a machine; once its process has ended nothing happens. -/
def machine : Machine (Process Tester) TesterEv where
  can p e := p.halted = none ∧ p.st.Enabled e
  next p e := Process.exec (code e) p

instance (t : Tester) : ∀ e, Decidable (t.Enabled e)
  | .call fd c => inferInstanceAs (Decidable (_ ∧ (fd, c.cb) ∈ t.ioMulti ∧ _))
  | .leave _ => inferInstanceAs (Decidable (_ ∧ _))

instance (p : Process Tester) (e : TesterEv) : Decidable (machine.can p e) :=
  inferInstanceAs (Decidable (_ ∧ _))

/-! ## What the handlers do -/

@[simp] theorem run_sys {α : Type} (p : Proc Kernel α) (t : Tester) :
    (sys p).run t = Proc.mapState (fun k => { t with kernel := k }) (p.run t.kernel) := rfl

variable {t t' : Tester}

/-- The tester with the connection that a test case opens. -/
def tested (t : Tester) (r : Setup) : Tester :=
  { t with
    kernel := (t.kernel.opened r.fd).send (.sctpConnect r.fd myPortNum)
    ioMulti := t.ioMulti.register r.fd (.sctpMsg t.nextObj)
    sctpEndpoints := t.sctpEndpoints ++ [⟨t.nextObj, ⟨r.fd⟩⟩]
    nextObj := t.nextObj + 1 }

/-- A test case opens a connection and sends on the first one, or a call fails
    and the process ends. -/
theorem testCase_run (r : Setup) (t : Tester) :
    (0 ≤ r.fd ∧ ∃ ep : SctpClientEndpoint, (testCase r).run t = .ok () { t.tested r with
      kernel := if (t.tested r).kernel.Live ep.sctpSocket.sockFd then
        (t.tested r).kernel.send (.sctpSend ep.sctpSocket.sockFd 1 helloworld)
      else (t.tested r).kernel }) ∨
    ∃ k, (testCase r).run t = .error (.exit (-1)) { t with kernel := k } ∧ (k = t.kernel ∨
      k = t.kernel.opened r.fd ∨ k = (t.tested r).kernel) := by
  rcases SctpSocket.client_run r myPortNum t.kernel with ⟨h₀, hrun⟩ | ⟨k, hrun, hk⟩
  · refine Or.inl ⟨h₀, ?_⟩
    cases he : t.sctpEndpoints with
    | nil => exact ⟨⟨t.nextObj, ⟨r.fd⟩⟩, by
        simp [testCase, hrun, registerFd, he, SctpSocket.sctpWrite_run, tested]⟩
    | cons ep eps => exact ⟨ep, by
        simp [testCase, hrun, registerFd, he, SctpSocket.sctpWrite_run, tested]⟩
  · exact Or.inr ⟨k, by simp [testCase, hrun], hk⟩

/-- The connection before, if there is one, is closed. -/
def closeOld (t : Tester) (k : Kernel) : Kernel :=
  match t.testSocketServerConnect with
  | some old => if 0 < old.sockFd then k.closed old.sockFd else k
  | none => k

/-- The tester with a new connection to a SUT. -/
def connected (t : Tester) (connFd : Fd) : Tester :=
  { t with
    kernel := t.closeOld (t.kernel.opened connFd)
    ioMulti := t.ioMulti.register connFd .sutMsg
    testSocketServerConnect := some ⟨connFd⟩ }

theorem sutConnectHandler_run (connFd : Fd) (t : Tester) : (sutConnectHandler connFd).run t =
    if connFd < 0 then .error (.exit (-1)) t else .ok () (t.connected connFd) := by
  split_ifs with hfd
  · simp [sutConnectHandler, DomainSocket.domainAccept, hfd]
  · cases hs : t.testSocketServerConnect with
    | none =>
      simp [sutConnectHandler, DomainSocket.domainAccept, hfd, hs, registerFd, connected, closeOld]
    | some old =>
      by_cases ho : 0 < old.sockFd <;>
        simp [sutConnectHandler, DomainSocket.domainAccept, DomainSocket.domainClose, hfd, hs, ho,
          registerFd, connected, closeOld]

/-- The event reads MASTER_READY. -/
def ReadsReady : TesterEv → Prop
  | .call _ (.sutMsg (some (bs, none)) buf _) =>
    SerializedMsg.headerMsgId ⟨bs ++ buf.toList.drop bs.length⟩ = some masterReadyMsgId
  | _ => False

/-- Reading from a SUT changes nothing, or finds no message and deregisters the
    descriptor, or reads MASTER_READY and runs a test case. -/
theorem sutMsg_final (fd : Fd) (recv : Option (List Byte × Option Fd))
    (buf : Vector Byte maxBuffer) (r : Setup) (t : Tester) :
    (sutMsg fd recv buf r).final t = t ∨
      (∃ k, (k = t.kernel ∨ ∃ fd', k = t.kernel.opened fd') ∧ (sutMsg fd recv buf r).final t =
        { t with kernel := k, ioMulti := t.ioMulti.deregister fd }) ∨
      (ReadsReady (.call fd (.sutMsg recv buf r)) ∧
        (sutMsg fd recv buf r).final t = (testCase r).final { t with isSutReady := true }) := by
  cases hs : t.testSocketServerConnect with
  | none => exact Or.inl (by simp [Proc.final, sutMsg, hs])
  | some s =>
    have hsame : { t with testSocketServerConnect := some s } = t := by rw [← hs]
    rcases recv with _ | ⟨_ | ⟨b, bs⟩, rfd⟩
    · exact Or.inl (by simp [Proc.final, sutMsg, hs, DomainSocket.domainRecvMsg, hsame])
    · exact Or.inr (Or.inl ⟨t.kernel, Or.inl rfl, by
        simp [Proc.final, sutMsg, hs, DomainSocket.domainRecvMsg, deregisterFd]⟩)
    · cases rfd with
      | some fd' => exact Or.inr (Or.inl ⟨t.kernel.opened fd', Or.inr ⟨fd', rfl⟩, by
          simp [Proc.final, sutMsg, hs, DomainSocket.domainRecvMsg, deregisterFd]⟩)
      | none =>
        cases hm : SerializedMsg.headerMsgId
            ⟨b :: (bs ++ buf.toList.drop (bs.length + 1))⟩ with
        | none =>
          exact Or.inl (by
            simp [Proc.final, sutMsg, hs, DomainSocket.domainRecvMsg, testMsgHandler, hm, hsame])
        | some msgId =>
          by_cases hid : msgId = masterReadyMsgId
          · subst hid
            exact Or.inr (Or.inr ⟨hm, by
              simp [Proc.final, sutMsg, hs, DomainSocket.domainRecvMsg, hm, testMsgHandler]⟩)
          · exact Or.inl (by
              simp [Proc.final, sutMsg, hs, DomainSocket.domainRecvMsg, hm, testMsgHandler, hid,
                hsame])

/-- A command ends the poll loop, or runs a test case when the master is ready,
    or does nothing. -/
theorem readUserCmd_final (buf : Char) (r : Setup) (t : Tester) :
    (∃ b, (readUserCmd buf r).final t = { t with continuePoll := b }) ∨
      (t.isSutReady ∧ (readUserCmd buf r).final t = (testCase r).final t) := by
  by_cases h₀ : buf = '0'
  · exact Or.inl ⟨false, by simp [Proc.final, readUserCmd, h₀]⟩
  by_cases h₁ : buf = '1'
  · by_cases hr : t.isSutReady
    · exact Or.inr ⟨hr, by simp [Proc.final, readUserCmd, h₁, hr]⟩
    · have hrun : (readUserCmd buf r).run t = .ok () t := by simp [readUserCmd, h₁, hr]
      exact Or.inl ⟨t.continuePoll, Proc.final_ok hrun⟩
  · exact Or.inl ⟨t.continuePoll, by simp [Proc.final, readUserCmd, h₀, h₁]⟩

/-- The callback of an endpoint changes nothing. -/
theorem sctpMsg_final (obj : ℕ) (rs : Option SctpRecv) (buf : Vector Byte (maxBuffer + 1))
    (t : Tester) : (sctpMsg obj rs buf).final t = t := by
  cases hf : t.sctpEndpoints.find? (·.obj = obj) with
  | none => simp [Proc.final, sctpMsg, hf]
  | some ep =>
    rcases SctpClientEndpoint.sctpMsgHandler_run rs buf t.kernel with ⟨-, ret, hk⟩ | ⟨-, e, hk⟩ <;>
      simp [Proc.final, sctpMsg, hf, hk]

/-- `run` after its poll loop sends at most MASTER_TERMINATE. -/
theorem leave_final (w : Word) (t : Tester) : ∃ k, (leave w).final t =
    { t with kernel := k, phase := .left } ∧ (k = t.kernel ∨
      ∃ s : DomainSocket, k = DomainSocket.wrote t.kernel s (.ofMsg ⟨masterTerminateMsgId, w⟩)) := by
  cases hs : t.testSocketServerConnect with
  | none => exact ⟨t.kernel, by simp [Proc.final, leave, indicateSutToQuit, hs], Or.inl rfl⟩
  | some s => exact ⟨_, by simp [Proc.final, leave, indicateSutToQuit, hs], Or.inr ⟨s, rfl⟩⟩

/-! ## What a step sends -/

/-- What a test case sends. -/
def OfTestCase : Act → Prop
  | .sctpConnect _ port => port = myPortNum
  | .sctpSend .. => True
  | .sendMsg .. | .sendFd .. => False

/-- A test case connects to the master's port, and sends on its first
    connection. -/
theorem testCase_sends (r : Setup) (t : Tester) :
    (∃ acts, ((testCase r).final t).kernel.sent = t.kernel.sent ++ acts ∧
      ∀ a ∈ acts, OfTestCase a) ∧ ((testCase r).final t).phase = t.phase := by
  rcases testCase_run r t with ⟨-, ep, hrun⟩ | ⟨k, hrun, hk⟩
  · rw [Proc.final_ok hrun]
    refine ⟨?_, rfl⟩
    dsimp only
    split_ifs
    · exact ⟨[.sctpConnect r.fd myPortNum, .sctpSend ep.sctpSocket.sockFd 1 helloworld], by
        simp [tested], by simp [OfTestCase]⟩
    · exact ⟨[.sctpConnect r.fd myPortNum], by simp [tested], by simp [OfTestCase]⟩
  · rw [Proc.final_error hrun]
    refine ⟨?_, rfl⟩
    rcases hk with rfl | rfl | rfl
    · exact ⟨[], by simp, by simp⟩
    · exact ⟨[], by simp, by simp⟩
    · exact ⟨[.sctpConnect r.fd myPortNum], by simp [tested], by simp [OfTestCase]⟩

/-- What a step changes: it runs a test case when the master is ready, or tells
    the master to end. -/
structure Tracks (t : Tester) (e : TesterEv) (t' : Tester) : Prop where
  sent : ∃ acts, t'.kernel.sent = t.kernel.sent ++ acts ∧ ∀ a ∈ acts,
    (OfTestCase a ∧ (t.isSutReady ∨ ReadsReady e)) ∨
      ∃ w sock, e = .leave w ∧ a = .sendMsg sock (.ofMsg ⟨masterTerminateMsgId, w⟩)
  isSutReady : t'.isSutReady → t.isSutReady ∨ ReadsReady e
  phase : t'.phase = .polling ↔ t.phase = .polling ∧ ¬ ∃ w, e = .leave w

variable {fd : Fd} {c : TesterCall}

/-- A callback that sends nothing. -/
theorem Tracks.quiet (hk : t'.kernel.sent = t.kernel.sent) (hr : t'.isSutReady = t.isSutReady)
    (hp : t'.phase = t.phase) : Tracks t (.call fd c) t' where
  sent := ⟨[], by simp [hk], by simp⟩
  isSutReady h := Or.inl (hr ▸ h)
  phase := by simp [hp]

/-- A callback that runs a test case. -/
theorem Tracks.tests (hs : ∃ acts, t'.kernel.sent = t.kernel.sent ++ acts ∧
      ∀ a ∈ acts, OfTestCase a)
    (hp : t'.phase = t.phase) (hr : t.isSutReady ∨ ReadsReady (.call fd c)) :
    Tracks t (.call fd c) t' where
  sent := by
    obtain ⟨acts, hs, ha⟩ := hs
    exact ⟨acts, hs, fun a hm => Or.inl ⟨ha a hm, hr⟩⟩
  isSutReady _ := hr
  phase := by simp [hp]

@[simp] theorem sent_closeOld (k : Kernel) : (t.closeOld k).sent = k.sent := by
  unfold closeOld
  split
  · split_ifs <;> rfl
  · rfl

theorem sutConnect_tracks (fd connFd : Fd) :
    Tracks t (.call fd (.sutConnect connFd)) ((sutConnectHandler connFd).final t) := by
  have hrun := sutConnectHandler_run connFd t
  split_ifs at hrun with hfd
  · rw [Proc.final_error hrun]
    exact .quiet rfl rfl rfl
  · rw [Proc.final_ok hrun]
    exact .quiet (by simp [connected]) rfl rfl

theorem userCmd_tracks (fd : Fd) (buf : Char) (r : Setup) :
    Tracks t (.call fd (.userCmd buf r)) ((readUserCmd buf r).final t) := by
  rcases readUserCmd_final buf r t with ⟨b, hfinal⟩ | ⟨hr, hfinal⟩
  · rw [hfinal]
    exact .quiet rfl rfl rfl
  · rw [hfinal]
    exact .tests (testCase_sends r t).1 (testCase_sends r t).2 (Or.inl hr)

/-- Reading MASTER_READY runs a test case, and reading anything else does not
    even set the flag. -/
theorem sutMsg_tracks (fd : Fd) (recv : Option (List Byte × Option Fd))
    (buf : Vector Byte maxBuffer) (r : Setup) :
    Tracks t (.call fd (.sutMsg recv buf r)) ((sutMsg fd recv buf r).final t) := by
  rcases sutMsg_final fd recv buf r t with hfinal | ⟨k, hk, hfinal⟩ | ⟨hready, hfinal⟩
  · rw [hfinal]
    exact .quiet rfl rfl rfl
  · rw [hfinal]
    refine .quiet ?_ rfl rfl
    rcases hk with rfl | ⟨fd', rfl⟩ <;> rfl
  · obtain ⟨hsent, hphase⟩ := testCase_sends r { t with isSutReady := true }
    rw [hfinal]
    exact .tests hsent hphase (Or.inr hready)

theorem sctpMsg_tracks (fd : Fd) (obj : ℕ) (rs : Option SctpRecv)
    (buf : Vector Byte (maxBuffer + 1)) :
    Tracks t (.call fd (.sctpMsg obj rs buf)) ((sctpMsg obj rs buf).final t) := by
  rw [sctpMsg_final]
  exact .quiet rfl rfl rfl

theorem leave_tracks (w : Word) : Tracks t (.leave w) ((leave w).final t) := by
  obtain ⟨k, hfinal, hk⟩ := leave_final w t
  rw [hfinal]
  refine ⟨?_, Or.inl, by simp⟩
  rcases hk with rfl | ⟨s, rfl⟩
  · exact ⟨[], by simp, by simp⟩
  · unfold DomainSocket.wrote
    split_ifs
    · exact ⟨[_], rfl, by simp⟩
    · exact ⟨[], by simp, by simp⟩

/-- **What a step of the tester does.** -/
theorem next_tracks (p : Process Tester) (e : TesterEv) : Tracks p.st e (machine.next p e).st := by
  rw [show machine.next p e = Process.exec (code e) p from rfl, Process.st_exec]
  cases e with
  | call fd c =>
    cases c with
    | sutConnect connFd => exact sutConnect_tracks fd connFd
    | userCmd buf r => exact userCmd_tracks fd buf r
    | sutMsg recv buf r => exact sutMsg_tracks fd recv buf r
    | sctpMsg obj rs buf => exact sctpMsg_tracks fd obj rs buf
  | leave w => exact leave_tracks w

end Tester

end ProxyBroker
