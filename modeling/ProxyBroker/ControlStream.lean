/-
  The one-to-many server of `control_stream` (`SctpServerEndpoint.cpp`,
  `SctpSocketOperation.cpp`, `SctpMessage.hpp`).

  The server keeps one `AssociationInfo` for all of its associations: a
  COMM_UP of any association writes its address, a message of any association
  its stream, and nothing clears it.

  * `Peers` is what the server has been told about its associations, and
    `system` is the server together with it.
  * `sends_iff`: when the sends go to an association that is up, on its stream.
-/
import ProxyBroker.SctpSocket
import ProxyBroker.Machine

namespace ProxyBroker.ControlStream

/-- `MAX_BUFFER` of `common.h`. -/
def maxBuffer : ℕ := 512

/-! ## What a socket delivers -/

/-- `sac_state`. -/
inductive AssocState where
  | commUp
  | commLost
  | restart
  | shutdownComp
  | cantStrAssoc
  | unknown (state : BitVec 16)
  deriving DecidableEq, Repr

/-- `sctp_notification`, as far as it is read. -/
inductive SctpNotification where
  | assocChange (sacState : AssocState) (sacAssocId : Word)
  | other (snType : BitVec 16)
  deriving DecidableEq, Repr

/-- What `sctp_recvmsg` delivers: a notification (`MSG_NOTIFICATION` is set) or
    the bytes of a message, with the address of the peer. -/
inductive Received where
  | notification (clientAddr : SockaddrIn) (n : SctpNotification)
  | message (clientAddr : SockaddrIn) (sri : SctpSndrcvinfo) (bytes : List Byte)
  deriving DecidableEq

/-- `peerIp`: `inet_ntop` writes to `ip` if the address is an internet
    address. -/
def peerIp (clientAddr : SockaddrIn) (ip : String) : String :=
  if clientAddr.sinFamily = afInet then inetNtop clientAddr.sinAddr else ip

/-- `peerPort`. -/
def peerPort (clientAddr : SockaddrIn) : BitVec 16 := ntohs clientAddr.sinPort

/-! ## The server -/

structure AssociationInfo where
  ip : String
  port : Word
  stream : Word
  deriving DecidableEq, Repr

/-- A call of `sctp_sendmsg`: the address given to `inet_addr` and `htons`, the
    stream and the bytes. -/
structure Sent where
  ip : String
  port : BitVec 16
  stream : BitVec 16
  bytes : List Byte
  deriving DecidableEq, Repr

structure SctpServerEndpoint where
  continuepoll : Bool
  assoInfo : Option AssociationInfo
  sent : List Sent
  deriving DecidableEq, Repr

/-- `msgpayload`, which `onSctpMessages` reads from the payload: it ends at the
    first null byte.  Without one, the read runs on behind the payload. -/
def msgpayload (payload : List Byte) : Option (List Byte) :=
  if payload.contains 0 then some (payload.takeWhile (· ≠ 0)) else none

namespace SctpServerEndpoint

/-- After the constructor, which does not look at the socket it makes. -/
def init : SctpServerEndpoint := ⟨true, none, []⟩

/-- `onSctpNotification`. -/
def onSctpNotification (clientAddr : SockaddrIn) (ip : String) (n : SctpNotification) :
    Proc SctpServerEndpoint ℤ := do
  match n with
  | .assocChange .commUp _ =>
    modify fun s =>
      { s with assoInfo := some ⟨peerIp clientAddr ip, (peerPort clientAddr).setWidth 32, 0⟩ }
  | .assocChange .commLost _ | .assocChange .restart _ | .assocChange .shutdownComp _
  | .assocChange .cantStrAssoc _ | .assocChange (.unknown _) _ | .other _ => pure ()
  return 0

/-- `onSctpMessages`. -/
def onSctpMessages (sri : SctpSndrcvinfo) (payload : List Byte) : Proc SctpServerEndpoint ℤ := do
  if msgpayload payload = none then Proc.halt .abort
  match (← get).assoInfo with
  | none => Proc.halt .abort
  | some a =>
    modify fun s => { s with assoInfo := some { a with stream := sri.sinfoStream.setWidth 32 } }
  return 0

/-- `SctpMsgHandler`: `buf` and `ip` are what the arrays `readBuf` and `ip`
    hold before. -/
def sctpMsgHandler (r : Option Received) (buf : Vector Byte (maxBuffer + 1)) (ip : String) :
    Proc SctpServerEndpoint ℤ :=
  match r with
  | none => return -1
  | some (.notification addr n) => onSctpNotification addr ip n
  | some (.message _ sri bs) => onSctpMessages sri (bs ++ buf.toList.drop bs.length)

/-- `SendMsg`: `message` is read from the standard input, and `MAX_BUFFER`
    bytes are sent from where it begins; `rest` is what lies behind it. -/
def sendMsg (message rest : List Byte) : Proc SctpServerEndpoint Unit := do
  match (← get).assoInfo with
  | none => return
  | some a =>
    modify fun s => { s with
      sent := s.sent ++ [⟨a.ip, a.port.setWidth 16, a.stream.setWidth 16,
        (message ++ 0 :: rest).take maxBuffer⟩] }

/-- `ReadUserCmd`: `buf` is the character read. -/
def readUserCmd (buf : Char) (message rest : List Byte) : Proc SctpServerEndpoint Unit := do
  match buf with
  | '0' => modify fun s => { s with continuepoll := false }
  | '1' => sendMsg message rest
  | _ => return

end SctpServerEndpoint

/-- What a round of `Poll` finds ready. -/
inductive Ev where
  /-- the socket, where `r` is the result of `sctp_recvmsg` -/
  | receive (r : Option Received) (buf : Vector Byte (maxBuffer + 1)) (ip : String)
  /-- the standard input -/
  | userCmd (buf : Char) (message rest : List Byte)

/-- What `Poll` runs: one of the two callbacks of the constructor. -/
def code : Ev → Proc SctpServerEndpoint Unit
  | .receive r buf ip => do
    if (← SctpServerEndpoint.sctpMsgHandler r buf ip) = -1 then
      modify fun s => { s with continuepoll := false }
  | .userCmd buf message rest => SctpServerEndpoint.readUserCmd buf message rest

/-! ## The associations -/

/-- An association that is up: the address of its peer, and the stream that it
    last sent on. -/
structure Peer where
  ip : String
  port : BitVec 16
  stream : Option (BitVec 16)

/-- What the server has been told. -/
structure Peers where
  up : Word → Option Peer
  /-- the association that came up last -/
  latest : Option Word
  /-- the stream of the last message since then, whoever sent it -/
  heard : Option (BitVec 16)

namespace Peers

def none : Peers := ⟨fun _ => .none, .none, .none⟩

/-- What the server is told by what its socket delivers. -/
def tell (p : Peers) : Received → Peers
  | .notification addr (.assocChange .commUp id) =>
    { up := Function.update p.up id (some ⟨inetNtop addr.sinAddr, peerPort addr, .none⟩)
      latest := some id
      heard := .none }
  | .notification _ (.assocChange .commLost id)
  | .notification _ (.assocChange .shutdownComp id) =>
    { p with up := Function.update p.up id .none }
  | .notification _ _ => p
  | .message _ sri _ =>
    { p with
      up := Function.update p.up sri.sinfoAssocId
        ((p.up sri.sinfoAssocId).map fun q => { q with stream := some sri.sinfoStream })
      heard := some sri.sinfoStream }

/-- What can be delivered: an association comes up once, from an address that
    no other has, and everything else is about associations that are up. -/
def MayTell (p : Peers) : Received → Prop
  | .notification addr (.assocChange .commUp id) => addr.sinFamily = afInet ∧ p.up id = .none ∧
      ∀ id' q, p.up id' = some q → ¬ (q.ip = inetNtop addr.sinAddr ∧ q.port = peerPort addr)
  | .notification _ (.assocChange .commLost id)
  | .notification _ (.assocChange .restart id)
  | .notification _ (.assocChange .shutdownComp id) => (p.up id).isSome
  | .notification _ _ => True
  | .message _ sri bs => (p.up sri.sinfoAssocId).isSome ∧ bs.length ≤ maxBuffer

/-- The send goes to an association that is up, on the stream it last sent on. -/
def Belongs (p : Peers) (x : Sent) : Prop :=
  ∃ id q, p.up id = some q ∧ x.ip = q.ip ∧ x.port = q.port ∧ x.stream = q.stream.getD 0

/-- The association that came up last is still up, and no other one has since
    sent on a stream that is not the one it last sent on. -/
def Settled (p : Peers) : Prop :=
  ∃ id q, p.latest = some id ∧ p.up id = some q ∧ p.heard.getD 0 = q.stream.getD 0

end Peers

/-- The server and what it has been told. -/
structure System where
  server : Process SctpServerEndpoint
  peers : Peers

def System.init : System := ⟨⟨.init, .none⟩, .none⟩

/-- The server goes on until it halts or is told to stop. -/
def system : Machine System Ev where
  can s e := s.server.halted = none ∧ s.server.st.continuepoll = true ∧
    ∀ r buf ip, e = .receive (some r) buf ip → s.peers.MayTell r
  next s e :=
    { server := Process.exec (code e) s.server
      peers := match e with
        | .receive (some r) _ _ => s.peers.tell r
        | .receive none _ _ | .userCmd .. => s.peers }

/-! ## What the server keeps -/

variable {p : Peers} {s s' : SctpServerEndpoint} {a : AssociationInfo} {id : Word}

/-- The record is about the association `id`, and its stream is the one heard
    last. -/
structure Keeps (p : Peers) (id : Word) (a : AssociationInfo) : Prop where
  stream : a.stream = (p.heard.getD 0).setWidth 32
  addr : ∀ q, p.up id = some q → a.ip = q.ip ∧ a.port = q.port.setWidth 32
  others : ∀ id' q, p.up id' = some q → id' ≠ id →
    ¬ (q.ip = a.ip ∧ q.port = a.port.setWidth 16)

/-- The record is about the association that came up last. -/
structure Inv (p : Peers) (s : SctpServerEndpoint) : Prop where
  none : s.assoInfo = none → p.latest = none
  some : ∀ a, s.assoInfo = some a → ∃ id, p.latest = some id ∧ Keeps p id a

/-- What has been sent does not matter. -/
theorem Inv.congr (h : Inv p s) (ha : s'.assoInfo = s.assoInfo) : Inv p s' :=
  ⟨fun hn => h.none (ha ▸ hn), fun a hs => h.some a (ha ▸ hs)⟩

/-- An association comes up. -/
theorem Inv.cameUp (addr : SockaddrIn) (ip : String) (id : Word)
    (hp : p.MayTell (.notification addr (.assocChange .commUp id)))
    (ha : s.assoInfo = .some ⟨peerIp addr ip, (peerPort addr).setWidth 32, 0⟩) :
    Inv (p.tell (.notification addr (.assocChange .commUp id))) s := by
  obtain ⟨hf, -, hothers⟩ := hp
  refine ⟨fun hn => absurd (ha.symm.trans hn) (by simp), fun a hs => ⟨id, rfl, ?_⟩⟩
  obtain rfl := Option.some.inj (ha.symm.trans hs)
  refine ⟨rfl, fun q hq => ?_, fun id' q hq hne => ?_⟩
  · obtain rfl : _ = q := by simpa [Peers.tell] using hq
    simp [peerIp, hf]
  · have hq' : p.up id' = .some q := by simpa [Peers.tell, hne] using hq
    simpa [peerIp, hf] using hothers id' q hq'

/-- An association goes down. -/
theorem Keeps.wentDown (h : Keeps p id a) (id₀ : Word) :
    Keeps { p with up := Function.update p.up id₀ .none } id a where
  stream := h.stream
  addr q hq := by
    rcases eq_or_ne id id₀ with rfl | hne
    · simp at hq
    · exact h.addr q (by simpa [hne] using hq)
  others id' q hq := by
    rcases eq_or_ne id' id₀ with rfl | hne
    · simp at hq
    · exact h.others id' q (by simpa [hne] using hq)

theorem Inv.wentDown (h : Inv p s) (id₀ : Word) :
    Inv { p with up := Function.update p.up id₀ .none } s := by
  refine ⟨h.none, ?_⟩
  intro a ha
  obtain ⟨id, hid, hk⟩ := h.some a ha
  exact ⟨id, hid, hk.wentDown id₀⟩

/-- A message changes neither the addresses nor which associations are up. -/
theorem Peers.tell_message {addr : SockaddrIn} {sri : SctpSndrcvinfo} {bs : List Byte} {q : Peer}
    (hq : (p.tell (.message addr sri bs)).up id = some q) :
    ∃ q₀, p.up id = some q₀ ∧ q.ip = q₀.ip ∧ q.port = q₀.port := by
  rw [Peers.tell] at hq
  rcases eq_or_ne id sri.sinfoAssocId with rfl | hne
  · obtain ⟨q₀, hq₀, rfl⟩ : ∃ q₀, p.up sri.sinfoAssocId = some q₀ ∧
        { q₀ with stream := some sri.sinfoStream } = q := by simpa using hq
    exact ⟨q₀, hq₀, rfl, rfl⟩
  · exact ⟨q, by simpa [hne] using hq, rfl, rfl⟩

theorem Keeps.message (h : Keeps p id a) (addr : SockaddrIn) (sri : SctpSndrcvinfo)
    (bs : List Byte) :
    Keeps (p.tell (.message addr sri bs)) id { a with stream := sri.sinfoStream.setWidth 32 } where
  stream := rfl
  addr q hq := by
    obtain ⟨q₀, hq₀, hip, hport⟩ := Peers.tell_message hq
    rw [hip, hport]
    exact h.addr q₀ hq₀
  others id' q hq := by
    obtain ⟨q₀, hq₀, hip, hport⟩ := Peers.tell_message hq
    rw [hip, hport]
    exact h.others id' q₀ hq₀

theorem msgpayload_eq_none {payload : List Byte} : msgpayload payload = none ↔ 0 ∉ payload := by
  rw [msgpayload, ite_eq_right_iff, List.contains_iff_mem]
  simp only [reduceCtorEq, imp_false]

/-- A message sets the stream of the record.  One that is not a string ends the
    server, and so does one that comes before there is a record. -/
theorem SctpServerEndpoint.onSctpMessages_run (sri : SctpSndrcvinfo) (payload : List Byte)
    (s : SctpServerEndpoint) :
    (∃ a, s.assoInfo = .some a ∧ (onSctpMessages sri payload).run s =
      .ok 0 { s with assoInfo := .some { a with stream := sri.sinfoStream.setWidth 32 } }) ∨
    (onSctpMessages sri payload).run s = .error .abort s := by
  by_cases h0 : 0#8 ∈ payload
  · cases ha : s.assoInfo with
    | none => exact Or.inr (by simp [onSctpMessages, msgpayload_eq_none, h0, ha])
    | some a => exact Or.inl ⟨a, rfl, by simp [onSctpMessages, msgpayload_eq_none, h0, ha]⟩
  · exact Or.inr (by simp [onSctpMessages, msgpayload_eq_none, h0])

/-- The record is kept right until the server halts. -/
def Holds (t : System) : Prop := t.server.halted = none → Inv t.peers t.server.st

theorem Holds.receive {r : Received} {t : System} (h : Inv t.peers t.server.st)
    (hr : t.peers.MayTell r) (buf : Vector Byte (maxBuffer + 1)) (ip : String) :
    Holds (system.next t (.receive (some r) buf ip)) := by
  rcases r with ⟨addr, ⟨st, id⟩ | sn⟩ | ⟨addr, sri, bs⟩
  · cases st with
    | commUp => exact fun _ => Inv.cameUp addr ip id hr rfl
    | commLost | shutdownComp => exact fun _ => (h.wentDown id).congr rfl
    | restart | cantStrAssoc | unknown => exact fun _ => h.congr rfl
  · intro _
    exact h.congr rfl
  · rcases SctpServerEndpoint.onSctpMessages_run sri (bs ++ buf.toList.drop bs.length)
      t.server.st with ⟨a, ha, hrun⟩ | hrun
    · obtain ⟨id, hid, hk⟩ := h.some a ha
      intro _
      have hst : (system.next t (.receive (some (.message addr sri bs)) buf ip)).server.st =
          { t.server.st with assoInfo := some { a with stream := sri.sinfoStream.setWidth 32 } } := by
        simp [system, Process.exec, code, SctpServerEndpoint.sctpMsgHandler, hrun]
      rw [hst]
      refine ⟨fun hn => absurd hn (by simp), fun a' ha' => ⟨id, hid, ?_⟩⟩
      obtain rfl : _ = a' := Option.some.inj ha'
      exact hk.message addr sri bs
    · intro hh
      simp [system, Process.exec, code, SctpServerEndpoint.sctpMsgHandler, hrun] at hh

/-- What `SendMsg` sends. -/
def SctpServerEndpoint.echo (s : SctpServerEndpoint) (message rest : List Byte) : List Sent :=
  s.assoInfo.toList.map fun a => ⟨a.ip, a.port.setWidth 16, a.stream.setWidth 16,
    (message ++ 0 :: rest).take maxBuffer⟩

theorem sendMsg_run (message rest : List Byte) (s : SctpServerEndpoint) :
    (SctpServerEndpoint.sendMsg message rest).run s =
      .ok () { s with sent := s.sent ++ s.echo message rest } := by
  obtain ⟨cont, _ | a, sent⟩ := s <;>
    simp [SctpServerEndpoint.sendMsg, SctpServerEndpoint.echo]

/-- A command leaves the record as it is; `1` sends to it. -/
theorem code_userCmd_run (buf : Char) (message rest : List Byte) (s : SctpServerEndpoint) :
    ∃ c, (code (.userCmd buf message rest)).run s = .ok () { s with
      continuepoll := c
      sent := s.sent ++ if buf = '1' then s.echo message rest else [] } := by
  by_cases h0 : buf = '0'
  · exact ⟨false, by simp [code, SctpServerEndpoint.readUserCmd, h0]⟩
  refine ⟨s.continuepoll, ?_⟩
  by_cases h1 : buf = '1'
  · simp [code, SctpServerEndpoint.readUserCmd, h1, sendMsg_run]
  · simp [code, SctpServerEndpoint.readUserCmd, h1]

theorem next_st (t : System) (e : Ev) :
    (system.next t e).server.st = (code e).final t.server.st := Process.st_exec _ _

theorem Holds.step {t : System} {e : Ev} (h : Holds t) (he : system.can t e) :
    Holds (system.next t e) := by
  have hinv := h he.1
  cases e with
  | receive r buf ip =>
    cases r with
    | none => exact fun _ => hinv.congr rfl
    | some r => exact Holds.receive hinv (he.2.2 r buf ip rfl) buf ip
  | userCmd buf message rest =>
    intro _
    obtain ⟨c, hrun⟩ := code_userCmd_run buf message rest t.server.st
    rw [next_st, Proc.final_ok hrun]
    exact hinv.congr rfl

/-! ## When the sends are right -/

/-- What the server sends in a step goes to an association that is up, on the
    stream it last sent on. -/
def SendsRight (t : System) (e : Ev) : Prop :=
  ∀ x, (system.next t e).server.st.sent = t.server.st.sent ++ [x] → t.peers.Belongs x

/-- When it is told to send, the associations are settled, or none has ever
    come up. -/
def SendsSettled (t : System) (e : Ev) : Prop :=
  ∀ message rest, e = .userCmd '1' message rest → t.peers.latest = none ∨ t.peers.Settled

/-- The record is right exactly when the associations are settled. -/
theorem Keeps.belongs_iff (h : Keeps p id a) (hid : p.latest = some id) (bytes : List Byte) :
    p.Belongs ⟨a.ip, a.port.setWidth 16, a.stream.setWidth 16, bytes⟩ ↔ p.Settled := by
  have hstream : a.stream.setWidth 16 = p.heard.getD 0 := by
    rw [h.stream]
    simp
  constructor
  · rintro ⟨id', q, hq, hip, hport, hst⟩
    have heq : id' = id := by
      by_contra hne
      exact h.others id' q hq hne ⟨hip.symm, hport.symm⟩
    subst heq
    exact ⟨id', q, hid, hq, hstream ▸ hst⟩
  · rintro ⟨id', q, hid', hq, hst⟩
    obtain rfl : id = id' := Option.some.inj (hid.symm.trans hid')
    obtain ⟨hip, hport⟩ := h.addr q hq
    exact ⟨id, q, hq, hip, by simp [hport], hstream.trans hst⟩

theorem sent_receive (t : System) (r : Option Received) (buf : Vector Byte (maxBuffer + 1))
    (ip : String) : (system.next t (.receive r buf ip)).server.st.sent = t.server.st.sent := by
  rw [next_st]
  rcases r with _ | ⟨addr, ⟨st, id⟩ | sn⟩ | ⟨addr, sri, bs⟩
  · rfl
  · cases st <;> rfl
  · rfl
  · rcases SctpServerEndpoint.onSctpMessages_run sri (bs ++ buf.toList.drop bs.length)
      t.server.st with ⟨a, -, hrun⟩ | hrun <;>
      simp [Proc.final, code, SctpServerEndpoint.sctpMsgHandler, hrun]

theorem sent_userCmd (t : System) (buf : Char) (message rest : List Byte) :
    (system.next t (.userCmd buf message rest)).server.st.sent = t.server.st.sent ++
      if buf = '1' then t.server.st.echo message rest else [] := by
  obtain ⟨c, hrun⟩ := code_userCmd_run buf message rest t.server.st
  rw [next_st, Proc.final_ok hrun]

theorem sendsRight_iff {t : System} {e : Ev} (h : Inv t.peers t.server.st) :
    SendsRight t e ↔ SendsSettled t e := by
  cases e with
  | receive r buf ip =>
    have hr : SendsRight t (.receive r buf ip) := by
      intro x hx
      simp [sent_receive] at hx
    exact iff_of_true hr (by simp [SendsSettled])
  | userCmd buf message rest =>
    rw [SendsRight, SendsSettled, sent_userCmd]
    by_cases hb : buf = '1'
    · cases ha : t.server.st.assoInfo with
      | none => simp [SctpServerEndpoint.echo, ha, h.none ha]
      | some a =>
        obtain ⟨id, hid, hk⟩ := h.some a ha
        simp [SctpServerEndpoint.echo, ha, hb, hid,
          ← hk.belongs_iff hid ((message ++ 0 :: rest).take maxBuffer)]
    · simp [hb]

theorem Holds.init : Holds .init :=
  fun _ => ⟨fun _ => rfl, by simp [System.init, SctpServerEndpoint.init]⟩

/-- **Every send goes to an association that is up, on its stream, exactly
    when** at every send the associations are settled. -/
theorem sends_iff {es : List Ev} (hc : system.Can .init es) :
    system.All SendsRight .init es ↔ system.All SendsSettled .init es := by
  constructor
  · intro h
    refine ((hc.and h).imp_of_inv (I := Holds) Holds.init (fun t e ht he => ht.step he.1) ?_)
    intro t e ht he
    exact (sendsRight_iff (ht he.1.1)).1 he.2
  · intro h
    refine ((hc.and h).imp_of_inv (I := Holds) Holds.init (fun t e ht he => ht.step he.1) ?_)
    intro t e ht he
    exact (sendsRight_iff (ht he.1.1)).2 he.2

/-- The address of a client on this host. -/
def localAddr (port : BitVec 16) : SockaddrIn := ⟨afInet, port, 0x0100007f⟩

/-- Two clients connect, and the client `id` sends on stream 3. -/
def twoClients (id : Word) (port : BitVec 16) : List Ev :=
  [.receive (some (.notification (localAddr 1) (.assocChange .commUp 1))) (.replicate _ 0) "",
    .receive (some (.notification (localAddr 2) (.assocChange .commUp 2))) (.replicate _ 0) "",
    .receive (some (.message (localAddr port) ⟨id, 3⟩ [104])) (.replicate _ 0) "",
    .userCmd '1' [104] []]

theorem twoClients_can (id : Word) (port : BitVec 16) (hid : id = 1 ∨ id = 2) :
    system.Can .init (twoClients id port) := by
  refine ⟨⟨rfl, rfl, ?_⟩, ⟨rfl, rfl, ?_⟩, ⟨rfl, rfl, ?_⟩, ⟨rfl, rfl, ?_⟩, trivial⟩
  · rintro r buf ip ⟨⟩
    exact ⟨rfl, rfl, fun id' q hq => by simp [System.init, Peers.none] at hq⟩
  · rintro r buf ip ⟨⟩
    refine ⟨rfl, rfl, ?_⟩
    intro id' q hq
    rcases eq_or_ne id' 1#32 with rfl | hne
    · obtain rfl : _ = q := Option.some.inj hq
      intro h
      exact absurd h.2 (by decide)
    · simp [system, System.init, Peers.tell, Peers.none, hne] at hq
  · rintro r buf ip ⟨⟩
    rcases hid with rfl | rfl
    · exact ⟨rfl, by decide⟩
    · exact ⟨rfl, by decide⟩
  · intro r buf ip h
    cases h

/-- The client that connected last sends: the answer goes to it. -/
theorem sends_iff_lastSpeaks : system.All SendsRight .init (twoClients 2 2) := by
  refine (sends_iff (twoClients_can 2 2 (Or.inr rfl))).2 ⟨?_, ?_, ?_, ?_, trivial⟩
  · rintro message rest ⟨⟩
  · rintro message rest ⟨⟩
  · rintro message rest ⟨⟩
  · intro _ _ _
    exact Or.inr ⟨2, _, rfl, rfl, rfl⟩

/-- The other client sends: the answer goes to the client that connected last,
    on a stream that this one has never used. -/
theorem sends_mixedUp :
    ¬ ∀ es, system.Can .init es → system.All SendsRight .init es := by
  intro h
  obtain ⟨-, -, -, hs, -⟩ := h (twoClients 1 1) (twoClients_can 1 1 (Or.inl rfl))
  obtain ⟨id, q, hq, -, hport, hst⟩ := hs _ rfl
  rcases eq_or_ne id 2#32 with rfl | h₂
  · obtain rfl : _ = q := Option.some.inj hq
    exact absurd hst (by decide)
  rcases eq_or_ne id 1#32 with rfl | h₁
  · obtain rfl : _ = q := Option.some.inj hq
    exact absurd hport (by decide)
  · simp [system, System.init, Peers.tell, Peers.none, h₁, h₂] at hq

end ProxyBroker.ControlStream
