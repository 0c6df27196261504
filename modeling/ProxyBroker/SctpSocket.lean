/-
  `SctpSocket`, `SctpMessageEnvelope` and the two endpoints over it
  (`comm/SctpSocket.cpp`, `include/SctpMessage.hpp`,
  `comm/SctpClientEndpoint.cpp`, `comm/SctpServerEndpoint.cpp`).

  As for domain sockets, the results of the system calls are arguments.  An
  endpoint registers a callback that holds its `this`; `obj` is the identity
  of that object.  The callbacks of a client endpoint only print what they
  read: what matters of them is whether they end the process (`Survives`).
-/
import ProxyBroker.Kernel

namespace ProxyBroker

/-- `AF_INET`. -/
def afInet : BitVec 16 := 2

/-- `MSG_NOTIFICATION`. -/
def msgNotification : Word := 0x8000

/-! ## Messages -/

/-- `sockaddr_in`; the port is in network byte order. -/
structure SockaddrIn where
  sinFamily : BitVec 16
  sinPort : BitVec 16
  sinAddr : Word
  deriving DecidableEq

/-- A `sockaddr_in` that has been cleared. -/
def SockaddrIn.zero : SockaddrIn := ⟨0, 0, 0⟩

/-- What the fields of `sctp_sndrcvinfo` that are read tell about a message. -/
structure SctpSndrcvinfo where
  sinfoAssocId : Word
  sinfoStream : BitVec 16
  deriving DecidableEq

/-- A `sctp_sndrcvinfo` that has been cleared. -/
def SctpSndrcvinfo.zero : SctpSndrcvinfo := ⟨0, 0⟩

/-- What a successful `sctp_recvmsg` delivers: the bytes, and the address and
    the information if it fills them in. -/
structure SctpRecv where
  bytes : List Byte
  clientAddr : Option SockaddrIn
  sendRecvInfo : Option SctpSndrcvinfo
  msgFlags : Word
  deriving DecidableEq

structure SctpMessageEnvelope where
  ipaddr : String
  port : BitVec 16
  assoId : Word
  stream : BitVec 16
  msgFlags : Word
  payload : List Byte
  deriving DecidableEq

/-- `ntohs`. -/
def ntohs (port : BitVec 16) : BitVec 16 := port.extractLsb' 0 8 ++ port.extractLsb' 8 8

/-- `inet_ntop` for an internet address. -/
def inetNtop (addr : Word) : String :=
  ".".intercalate (addr.bytes.map fun b => toString b.toNat)

/-- The constructor, which ends the process for any other address family. -/
def SctpMessageEnvelope.create (readbuf : List Byte) (clientAddr : SockaddrIn)
    (sendRecvInfo : SctpSndrcvinfo) (msgFlags : Word) : Proc Kernel SctpMessageEnvelope := do
  if clientAddr.sinFamily ≠ afInet then Proc.halt (.exit 0)
  return {
    ipaddr := inetNtop clientAddr.sinAddr
    port := ntohs clientAddr.sinPort
    assoId := sendRecvInfo.sinfoAssocId
    stream := sendRecvInfo.sinfoStream
    msgFlags := msgFlags
    payload := readbuf }

/-! ## Sockets -/

/-- What the calls answer that set up a socket: the descriptor of `socket`, and
    whether `setsockopt` and then `sctp_bindx` or `sctp_connectx` succeed. -/
structure Setup where
  fd : Fd
  optSet : Bool
  ok : Bool
  deriving DecidableEq

structure SctpSocket where
  sockFd : Fd
  deriving DecidableEq, Repr

namespace SctpSocket

/-- `sctp_create` and `sctp_opt_set`. -/
def create (r : Setup) : Proc Kernel SctpSocket := do
  if r.fd < 0 then Proc.halt (.exit (-1))
  modify (·.opened r.fd)
  if !r.optSet then Proc.halt (.exit (-1))
  return ⟨r.fd⟩

/-- `bind_listen_to`: a port can be bound by one socket.  A failed `listen` is
    only reported. -/
def bindListenTo (s : SctpSocket) (port : ℕ) (ok : Bool) : Proc Kernel Unit := do
  if ok ∧ port ∉ (← get).ports.image Prod.snd then modify (·.bind s.sockFd port)
  else Proc.halt (.exit (-1))

/-- `sctp_connect`. -/
def sctpConnect (s : SctpSocket) (port : ℕ) (ok : Bool) : Proc Kernel Unit := do
  modify (·.send (.sctpConnect s.sockFd port))
  if !ok then Proc.halt (.exit (-1))

/-- The constructor of a server socket. -/
def server (r : Setup) (port : ℕ) : Proc Kernel SctpSocket := do
  let s ← create r
  s.bindListenTo port r.ok
  return s

/-- The constructor of a client socket. -/
def client (r : Setup) (port : ℕ) : Proc Kernel SctpSocket := do
  let s ← create r
  s.sctpConnect port r.ok
  return s

/-- The destructor. -/
def destroy (s : SctpSocket) : Proc Kernel Unit := modify (·.closed s.sockFd)

/-- `sctp_accept`, where `accept` returns `connFd`: a failure is passed on. -/
def sctpAccept (connFd : Fd) : Proc Kernel Fd := do
  if 0 ≤ connFd then modify (·.opened connFd)
  return connFd

/-- `sctp_read`: the address and the information are zero unless they are
    filled in, and the message is the whole of the buffer, which held `buf`. -/
def sctpRead (r : Option SctpRecv) (buf : Vector Byte (maxBuffer + 1)) :
    Proc Kernel (Option SctpMessageEnvelope) :=
  match r with
  | none => return none
  | some r =>
    some <$> SctpMessageEnvelope.create (r.bytes ++ buf.toList.drop r.bytes.length)
      (r.clientAddr.getD .zero) (r.sendRecvInfo.getD .zero) r.msgFlags

/-- `sctp_write`: the result of the send is not looked at. -/
def sctpWrite (s : SctpSocket) (msg : List Byte) : Proc Kernel Unit := do
  if (← get).Live s.sockFd then modify (·.send (.sctpSend s.sockFd 1 msg))

/-- A client socket is made, or a call fails and the process ends. -/
theorem client_run (r : Setup) (port : ℕ) (k : Kernel) :
    (0 ≤ r.fd ∧ (client r port).run k =
      .ok ⟨r.fd⟩ ((k.opened r.fd).send (.sctpConnect r.fd port))) ∨
    ∃ k', (client r port).run k = .error (.exit (-1)) k' ∧
      (k' = k ∨ k' = k.opened r.fd ∨ k' = (k.opened r.fd).send (.sctpConnect r.fd port)) := by
  by_cases h₀ : r.fd < 0
  · exact Or.inr ⟨k, by simp [client, create, h₀], Or.inl rfl⟩
  by_cases h₁ : r.optSet
  · by_cases h₂ : r.ok
    · exact Or.inl ⟨not_lt.1 h₀, by simp [client, create, sctpConnect, h₀, h₁, h₂]⟩
    · exact Or.inr ⟨(k.opened r.fd).send (.sctpConnect r.fd port), by
        simp [client, create, sctpConnect, h₀, h₁, h₂], Or.inr (Or.inr rfl)⟩
  · exact Or.inr ⟨k.opened r.fd, by simp [client, create, h₀, h₁], Or.inr (Or.inl rfl)⟩

theorem sctpWrite_run (s : SctpSocket) (msg : List Byte) (k : Kernel) :
    (s.sctpWrite msg).run k =
      .ok () (if k.Live s.sockFd then k.send (.sctpSend s.sockFd 1 msg) else k) := by
  simp only [sctpWrite, EStateM.run_bind, EStateM.run_get]
  split_ifs <;> rfl

/-- The result of `sctp_recvmsg` is one that `sctp_read` survives: it is an
    error, or it has an internet address. -/
def Readable (r : Option SctpRecv) : Prop :=
  ∀ m ∈ r, ∃ addr ∈ m.clientAddr, addr.sinFamily = afInet

instance (r : Option SctpRecv) : Decidable (Readable r) :=
  match r with
  | none => isTrue nofun
  | some m =>
    match h : m.clientAddr with
    | none => isFalse fun hr => by simpa [h] using hr m rfl
    | some addr => decidable_of_iff (addr.sinFamily = afInet) (by simp [Readable, h])

end SctpSocket

/-- What `sctp_read` returns for a message with an internet address. -/
def envelope (r : SctpRecv) (buf : Vector Byte (maxBuffer + 1)) : SctpMessageEnvelope where
  ipaddr := inetNtop (r.clientAddr.getD .zero).sinAddr
  port := ntohs (r.clientAddr.getD .zero).sinPort
  assoId := (r.sendRecvInfo.getD .zero).sinfoAssocId
  stream := (r.sendRecvInfo.getD .zero).sinfoStream
  msgFlags := r.msgFlags
  payload := r.bytes ++ buf.toList.drop r.bytes.length

theorem sctpRead_run {r : SctpRecv} (hr : SctpSocket.Readable (some r))
    (buf : Vector Byte (maxBuffer + 1)) {k : Kernel} :
    (SctpSocket.sctpRead (some r) buf).run k = .ok (some (envelope r buf)) k := by
  obtain ⟨addr, ha, hf⟩ := hr r rfl
  simp [SctpSocket.sctpRead, SctpMessageEnvelope.create, Option.mem_def.1 ha, hf, envelope]

theorem sctpRead_ends {r : SctpRecv} (hr : ¬ SctpSocket.Readable (some r))
    (buf : Vector Byte (maxBuffer + 1)) {k : Kernel} :
    (SctpSocket.sctpRead (some r) buf).run k = .error (.exit 0) k := by
  have hf : (r.clientAddr.getD .zero).sinFamily ≠ afInet := by
    intro hf
    refine hr ?_
    rintro _ ⟨⟩
    cases ha : r.clientAddr with
    | none => rw [ha] at hf; exact absurd hf (by decide)
    | some addr => exact ⟨addr, rfl, by simpa [ha] using hf⟩
  simp [SctpSocket.sctpRead, SctpMessageEnvelope.create, hf]

/-! ## Client endpoints -/

/-- `SctpClientEndpoint`, the object `obj` of its process. -/
structure SctpClientEndpoint where
  obj : ℕ
  sctpSocket : SctpSocket
  deriving DecidableEq, Repr

namespace SctpClientEndpoint

/-- `onSctpNotification`, which only reports the notification. -/
def onSctpNotification (_msg : SctpMessageEnvelope) : Proc Kernel ℤ := return 0

/-- `onSctpMessages`, which only reports the message: its payload is read as a
    string, up to a null byte. -/
def onSctpMessages (msg : SctpMessageEnvelope) : Proc Kernel ℤ := do
  if 0 ∉ msg.payload then Proc.halt .abort
  return 0

/-- `SctpMsgHandler`. -/
def sctpMsgHandler (r : Option SctpRecv) (buf : Vector Byte (maxBuffer + 1)) : Proc Kernel ℤ := do
  match ← SctpSocket.sctpRead r buf with
  | none => return -1
  | some msg =>
    if msg.msgFlags &&& msgNotification ≠ 0 then onSctpNotification msg else onSctpMessages msg

theorem onSctpMessages_run (msg : SctpMessageEnvelope) (k : Kernel) :
    (onSctpMessages msg).run k = if 0 ∈ msg.payload then .ok 0 k else .error .abort k := by
  by_cases h : 0 ∈ msg.payload
  · rw [if_pos h, onSctpMessages, if_neg (not_not.2 h)]
    rfl
  · rw [if_neg h, onSctpMessages, if_pos h]
    rfl

/-- The result of `sctp_recvmsg` is one that the handler survives: `sctp_read`
    does, and unless it is a notification there is a null byte in the buffer. -/
def Survives (r : Option SctpRecv) (buf : Vector Byte (maxBuffer + 1)) : Prop :=
  SctpSocket.Readable r ∧ ∀ m ∈ r, m.msgFlags &&& msgNotification = 0 →
    0 ∈ m.bytes ++ buf.toList.drop m.bytes.length

instance (r : Option SctpRecv) (buf : Vector Byte (maxBuffer + 1)) : Decidable (Survives r buf) :=
  inferInstanceAs (Decidable (_ ∧ _))

/-- The handler leaves the process as it is, or ends it when it does not
    survive what it reads. -/
theorem sctpMsgHandler_run (r : Option SctpRecv) (buf : Vector Byte (maxBuffer + 1)) (k : Kernel) :
    (Survives r buf ∧ ∃ ret, (sctpMsgHandler r buf).run k = .ok ret k) ∨
      (¬ Survives r buf ∧ ∃ e, (sctpMsgHandler r buf).run k = .error e k) := by
  cases r with
  | none => exact Or.inl ⟨⟨nofun, nofun⟩, -1, rfl⟩
  | some m =>
    by_cases hr : SctpSocket.Readable (some m)
    · have hread : (sctpMsgHandler (some m) buf).run k =
          (if m.msgFlags &&& msgNotification ≠ 0 then onSctpNotification (envelope m buf)
            else onSctpMessages (envelope m buf)).run k := by
        rw [sctpMsgHandler, EStateM.run_bind, sctpRead_run hr]
        rfl
      by_cases hn : m.msgFlags &&& msgNotification = 0
      · rw [hread, if_neg (not_not.2 hn), onSctpMessages_run]
        by_cases h₀ : 0 ∈ (envelope m buf).payload
        · exact Or.inl ⟨⟨hr, fun _ hm _ => Option.mem_some.1 hm ▸ h₀⟩, 0, if_pos h₀⟩
        · exact Or.inr ⟨fun h => h₀ (h.2 m rfl hn), .abort, if_neg h₀⟩
      · rw [hread, if_pos hn]
        exact Or.inl ⟨⟨hr, fun _ hm h => absurd h (Option.mem_some.1 hm ▸ hn)⟩, 0, rfl⟩
    · refine Or.inr ⟨fun h => hr h.1, .exit 0, ?_⟩
      rw [sctpMsgHandler, EStateM.run_bind, sctpRead_ends hr]

end SctpClientEndpoint

/-! ## The server endpoint -/

/-- `SctpServerEndpoint`: its listener, and whether its handler for new
    connections has been set.  Its `sctp_socket_conn` is never set. -/
structure SctpServerEndpoint where
  sctpSocketListen : SctpSocket
  newConnHandler : Bool
  deriving DecidableEq, Repr

/-- The constructor, up to the registration of the listener. -/
def SctpServerEndpoint.create (r : Setup) (port : ℕ) : Proc Kernel SctpServerEndpoint := do
  let s ← SctpSocket.server r port
  return ⟨s, false⟩

/-- A server endpoint can be made: its three calls succeed, and the port is
    not bound. -/
def Setup.Serves (r : Setup) (port : ℕ) (k : Kernel) : Prop :=
  0 ≤ r.fd ∧ r.optSet ∧ r.ok ∧ port ∉ k.ports.image Prod.snd

instance (r : Setup) (port : ℕ) (k : Kernel) : Decidable (r.Serves port k) :=
  inferInstanceAs (Decidable (_ ∧ _))

theorem SctpServerEndpoint.create_run (r : Setup) (port : ℕ) (k : Kernel) :
    (r.Serves port k ∧
      (create r port).run k = .ok ⟨⟨r.fd⟩, false⟩ ((k.opened r.fd).bind r.fd port)) ∨
    (¬ r.Serves port k ∧ ∃ k', (create r port).run k = .error (.exit (-1)) k') := by
  by_cases h₀ : r.fd < 0
  · exact Or.inr ⟨fun h => absurd h.1 (not_le.2 h₀), k, by
      simp [create, SctpSocket.server, SctpSocket.create, h₀]⟩
  by_cases h₁ : r.optSet
  · by_cases h₂ : r.ok ∧ port ∉ k.ports.image Prod.snd
    · refine Or.inl ⟨⟨not_lt.1 h₀, h₁, h₂⟩, ?_⟩
      simp only [create, SctpSocket.server, SctpSocket.create, SctpSocket.bindListenTo]
      simp [-Finset.mem_image, h₀, h₁, h₂]
    · refine Or.inr ⟨fun h => h₂ h.2.2, k.opened r.fd, ?_⟩
      simp [-Finset.mem_image, -not_and, create, SctpSocket.server, SctpSocket.create,
        SctpSocket.bindListenTo, h₀, h₁, h₂]
  · refine Or.inr ⟨fun h => h₁ h.2.1, k.opened r.fd, ?_⟩
    simp [create, SctpSocket.server, SctpSocket.create, h₀, h₁]

end ProxyBroker
