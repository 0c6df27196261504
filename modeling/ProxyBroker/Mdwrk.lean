/-
  A worker's session with the broker of `officialMajordomo` (`mdwrkapi.hpp`).

  `recv` sends the reply to the last request and waits for the next one.  What
  `poll` finds until the process is interrupted, the readings of the clock and
  the random identities are arguments.  The session keeps the messages that it
  has passed to `send`, which the code does not read.

  * `recv_sends`: a reply is passed on first.
  * `recv_request`: a request is returned when it arrives.
-/
import ProxyBroker.Majordomo

namespace ProxyBroker.Majordomo

open Proc Zmsg

/-! ## Data -/

/-- Two random numbers, of which `s_set_id` makes the identity of a socket.
    `within(0x10000)` computes with `float`s, whose rounding makes `0x10000`
    itself of the largest values of `random`. -/
abbrev RandomId := Fin 0x10001 × Fin 0x10001

/-- A random number in hexadecimal: `setw(4)` gives it at least four digits. -/
def hex4 (n : ℕ) : Bytes :=
  (if n < 0x10000 then [] else [hexChar (n / 65536 % 16)]) ++
    [hexChar (n / 4096 % 16), hexChar (n / 256 % 16), hexChar (n / 16 % 16), hexChar (n % 16)]

/-- `s_set_id`. -/
def setId (id : RandomId) : Bytes := hex4 id.1 ++ lit ['-'] ++ hex4 id.2

structure Mdwrk where
  mService : Bytes
  /-- of the socket `m_worker` -/
  randomId : RandomId
  mHeartbeatAt : ℤ
  mLiveness : BitVec 64
  mHeartbeat : ℤ
  mExpectReply : Bool
  mReplyTo : Bytes
  /-- what `s_clock` will return -/
  clock : ℕ → ℤ
  /-- the identities of the sockets to come -/
  ids : ℕ → RandomId
  /-- what has been passed on to the sockets -/
  socket : List (Frame Bytes)
  /-- the messages that have been passed to `send` -/
  sent : List Zmsg

/-- The identity of `m_worker`. -/
def Mdwrk.identity (s : Mdwrk) : Bytes := setId s.randomId

/-- What `poll` finds. -/
inductive Poll where
  | nothing
  | arrived (frames : List Bytes)

/-- `HEARTBEAT_LIVENESS` -/
def heartbeatLiveness : BitVec 64 := 3

/-! ## The code -/

namespace Mdwrk

/-- `s_clock`. -/
def sClock : Proc Mdwrk ℤ := do
  let s ← get
  set { s with clock := fun n => s.clock (n + 1) }
  return s.clock 0

/-- What `send_to_broker` passes to `send`. -/
def envelope (command option : Bytes) (msg : Option Zmsg) : Zmsg :=
  let m := msg.getD []
  let m := if option.length ≠ 0 then m.pushFront option else m
  ((m.pushFront command).pushFront mdpwWorker).pushFront []

/-- `send_to_broker`. -/
def sendToBroker (command option : Bytes) (msg : Option Zmsg) : Proc Mdwrk Unit := do
  modify fun s => { s with sent := s.sent ++ [envelope command option msg] }
  Proc.zoom Mdwrk.socket (fun s fs => { s with socket := fs }) (envelope command option msg).send

/-- `connect_to_broker`. -/
def connectToBroker : Proc Mdwrk Unit := do
  modify fun s => { s with randomId := s.ids 0, ids := fun n => s.ids (n + 1) }
  sendToBroker mdpwReady (← get).mService none
  let now ← sClock
  modify fun s => { s with mLiveness := heartbeatLiveness, mHeartbeatAt := now + s.mHeartbeat }

/-- The end of a round of the loop of `recv`. -/
def heartbeat : Proc Mdwrk Unit := do
  let now ← sClock
  if (← get).mHeartbeatAt ≤ now then
    sendToBroker mdpwHeartbeat [] none
    modify fun s => { s with mHeartbeatAt := s.mHeartbeatAt + s.mHeartbeat }

/-- A message in the loop of `recv`, which is returned if it is a request. -/
def receive (msg : Zmsg) : Proc Mdwrk (Option Zmsg) := do
  modify fun s => { s with mLiveness := heartbeatLiveness }
  if msg.parts < 3 then Proc.halt .abort
  let (empty, msg) ← msg.popFront
  if empty ≠ [] then Proc.halt .abort
  let (header, msg) ← msg.popFront
  if header ≠ mdpwWorker then Proc.halt .abort
  let (part, msg) ← msg.popFront
  let command := cStr part
  if command = mdpwRequest then
    let (addr, msg) ← msg.unwrap
    modify fun s => { s with mReplyTo := addr }
    return some msg
  if command = mdpwDisconnect then connectToBroker
  heartbeat
  return none

/-- A round of the loop of `recv`. -/
def round : Poll → Proc Mdwrk (Option Zmsg)
  | .arrived frames =>
    match Zmsg.ofSocket (Frame.encode frames) with
    | some (msg, _) => receive msg
    | none => return none
  | .nothing => do
    modify fun s => { s with mLiveness := s.mLiveness - 1 }
    if (← get).mLiveness = 0 then connectToBroker
    heartbeat
    return none

/-- The loop of `recv`, until the process is interrupted. -/
def recvLoop : List Poll → Proc Mdwrk (Option Zmsg)
  | [] => return none
  | poll :: polls => do
    match ← round poll with
    | some msg => return some msg
    | none => recvLoop polls

/-- The beginning of `recv`: the reply is sent if there is one. -/
def sendReply (reply : Option Zmsg) : Proc Mdwrk Unit := do
  if reply = none ∧ (← get).mExpectReply = true then Proc.halt .abort
  match reply with
  | some reply => do
    let s ← get
    if s.mReplyTo.length = 0 then Proc.halt .abort
    set { s with mReplyTo := [] }
    sendToBroker mdpwReply [] (some (reply.wrap s.mReplyTo (some [])))
  | none => pure ()
  modify fun s => { s with mExpectReply := true }

/-- `recv`. -/
def recv (reply : Option Zmsg) (polls : List Poll) : Proc Mdwrk (Option Zmsg) := do
  sendReply reply
  recvLoop polls

variable {s s' : Mdwrk} {msg reply : Zmsg} {polls : List Poll}

/-! ## Sending -/

theorem sendToBroker_final (command option : Bytes) (m : Option Zmsg) (s : Mdwrk) :
    ∃ fs, (sendToBroker command option m).final s =
      { s with sent := s.sent ++ [envelope command option m], socket := fs } :=
  ⟨(envelope command option m).send.final s.socket, by
    rw [sendToBroker, final_modify_bind, final_zoom]⟩

/-- What a worker says of itself. -/
inductive Registers (service : Bytes) : Zmsg → Prop
  | ready : Registers service (envelope mdpwReady service none)
  | heartbeat : Registers service (envelope mdpwHeartbeat [] none)

/-- `R` allows what a worker does while it waits: it has a new socket, and says
    something of itself. -/
structure Allows (R : Mdwrk → Mdwrk → Prop) : Prop where
  same : ∀ {s s' : Mdwrk}, s'.sent = s.sent → s'.mService = s.mService →
    s'.randomId = s.randomId → s'.ids = s.ids → R s s'
  connects : ∀ s : Mdwrk, R s { s with randomId := s.ids 0, ids := fun n => s.ids (n + 1) }
  tells : ∀ (s : Mdwrk) (m : Zmsg) fs, Registers s.mService m →
    R s { s with sent := s.sent ++ [m], socket := fs }

section
variable {R : Mdwrk → Mdwrk → Prop} [IsPreorder Mdwrk R] (ha : Allows R)
include ha

omit [IsPreorder Mdwrk R] in
theorem sClock_keeps : Keeps R sClock := fun s =>
  show R s { s with clock := fun n => s.clock (n + 1) } from ha.same rfl rfl rfl rfl

theorem connectToBroker_keeps : Keeps R connectToBroker := by
  refine Keeps.bind (fun s => ha.connects s) fun _ s => ?_
  rw [final_get_bind]
  refine Keeps.bind_at ?_ fun _ => (sClock_keeps ha).bind fun now => ?_
  · obtain ⟨fs, h⟩ := sendToBroker_final mdpwReady s.mService none s
    rw [h]
    exact ha.tells s _ fs .ready
  · exact keeps_modify fun s => ha.same rfl rfl rfl rfl

theorem heartbeat_keeps : Keeps R heartbeat := by
  refine (sClock_keeps ha).bind fun now => keeps_get.bind fun s => ?_
  split_ifs
  · refine Keeps.bind (fun s => ?_) fun _ => keeps_modify fun s => ha.same rfl rfl rfl rfl
    obtain ⟨fs, h⟩ := sendToBroker_final mdpwHeartbeat [] none s
    rw [h]
    exact ha.tells s _ fs .heartbeat
  · exact keeps_pure _

theorem receive_keeps (msg : Zmsg) : Keeps R (receive msg) := by
  rw [receive]
  refine Keeps.bind (keeps_modify fun s => ha.same rfl rfl rfl rfl) fun _ => ?_
  split_ifs
  · exact keeps_halt _
  refine (popFront_keeps msg).bind ?_
  rintro ⟨empty, msg⟩
  dsimp only
  split_ifs
  · exact keeps_halt _
  refine (popFront_keeps msg).bind ?_
  rintro ⟨header, msg⟩
  dsimp only
  split_ifs
  · exact keeps_halt _
  refine (popFront_keeps msg).bind ?_
  rintro ⟨part, msg⟩
  dsimp only
  have hbeat : Keeps R (do heartbeat; return none : Proc Mdwrk (Option Zmsg)) :=
    (heartbeat_keeps ha).bind fun _ => keeps_pure _
  split_ifs
  · refine (unwrap_keeps msg).bind fun r => Keeps.bind ?_ fun _ => keeps_pure _
    exact keeps_modify fun s => ha.same rfl rfl rfl rfl
  · exact (connectToBroker_keeps ha).bind fun _ => hbeat
  · exact hbeat

theorem round_keeps : ∀ poll, Keeps R (round poll)
  | .arrived frames => by
    rw [round]
    rcases ofSocket (Frame.encode frames) with _ | ⟨msg, _⟩
    · exact keeps_pure _
    · exact receive_keeps ha msg
  | .nothing => by
    have hbeat : Keeps R (do heartbeat; return none : Proc Mdwrk (Option Zmsg)) :=
      (heartbeat_keeps ha).bind fun _ => keeps_pure _
    rw [round]
    refine Keeps.bind (keeps_modify fun s => ha.same rfl rfl rfl rfl) fun _ => ?_
    refine keeps_get.bind fun s => ?_
    split_ifs
    · exact (connectToBroker_keeps ha).bind fun _ => hbeat
    · exact hbeat

theorem recvLoop_keeps : ∀ polls, Keeps R (recvLoop polls)
  | [] => keeps_pure _
  | poll :: polls => by
    refine (round_keeps ha poll).bind fun r => ?_
    cases r with
    | some msg => exact keeps_pure _
    | none => exact recvLoop_keeps polls

end

/-- The messages passed to `send` have become more. -/
def Sends (s s' : Mdwrk) : Prop := ∃ l, s'.sent = s.sent ++ l

instance : IsPreorder Mdwrk Sends where
  refl _ := ⟨[], by simp⟩
  trans _ _ _ := by
    rintro ⟨l, hl⟩ ⟨l', hl'⟩
    exact ⟨l ++ l', by rw [hl', hl, List.append_assoc]⟩

theorem allows_sends : Allows Sends where
  same h _ _ _ := ⟨[], by simp [h]⟩
  connects _ := ⟨[], by simp⟩
  tells _ m _ _ := ⟨[m], rfl⟩

/-- **A reply is passed on first.** -/
theorem recv_sends (hreply : s.mReplyTo ≠ []) (reply : Zmsg) (polls : List Poll) :
    ∃ l, ((recv (some reply) polls).final s).sent =
      s.sent ++ envelope mdpwReply [] (some (reply.wrap s.mReplyTo (some []))) :: l := by
  have hlen : ¬ s.mReplyTo.length = 0 := by simpa using hreply
  let m := reply.wrap s.mReplyTo (some [])
  have hrun : (recv (some reply) polls).final s = (sendToBroker mdpwReply [] (some m) >>= fun _ =>
      (modify fun s => { s with mExpectReply := true }) >>= fun _ => recvLoop polls).final
        { s with mReplyTo := [] } := by
    simp only [recv, sendReply, final, reduceCtorEq, false_and, if_false, EStateM.run_bind,
      EStateM.run_get, hlen, EStateM.run_set]
    cases (sendToBroker mdpwReply [] (some m)).run { s with mReplyTo := [] } <;> rfl
  have hlater : ∀ u : Unit, Keeps Sends
      ((modify fun s => { s with mExpectReply := true }) >>= fun _ => recvLoop polls :
        Proc Mdwrk (Option Zmsg)) := by
    intro _
    refine Keeps.bind (keeps_modify fun s => ?_) fun _ => recvLoop_keeps allows_sends polls
    exact ⟨[], (List.append_nil _).symm⟩
  obtain ⟨fs, hfs⟩ := sendToBroker_final mdpwReply [] (some m) { s with mReplyTo := [] }
  obtain ⟨l, hl⟩ := Keeps.after hlater (sendToBroker mdpwReply [] (some m)) { s with mReplyTo := [] }
  rw [hrun]
  exact ⟨l, by rw [hl, hfs, List.append_assoc, List.singleton_append]⟩

/-! ## Requests -/

theorem recvLoop_append (polls' : List Poll) : ∀ {polls : List Poll} {s : Mdwrk},
    (recvLoop polls).run s = .ok none s' →
      (recvLoop (polls ++ polls')).run s = (recvLoop polls').run s'
  | [], s, h => by
    obtain rfl : s = s' := by simpa [recvLoop] using h
    rfl
  | poll :: polls, s, h => by
    rw [List.cons_append, recvLoop, EStateM.run_bind]
    rw [recvLoop, EStateM.run_bind] at h
    cases hr : (round poll).run s with
    | error e s₁ =>
      rw [hr] at h
      cases h
    | ok r s₁ =>
      rw [hr] at h
      cases r with
      | some msg => cases h
      | none => exact recvLoop_append polls' h

/-- `recv` goes on where it waits. -/
theorem recv_append {m : Option Zmsg} (h : (recv m polls).run s = .ok none s')
    (polls' : List Poll) : (recv m (polls ++ polls')).run s = (recvLoop polls').run s' := by
  rw [recv, EStateM.run_bind] at h ⊢
  cases hr : (sendReply m).run s with
  | error e s₁ =>
    rw [hr] at h
    cases h
  | ok u s₁ =>
    rw [hr] at h
    exact recvLoop_append polls' h

/-- **A request that arrives is returned**, and its address is kept. -/
theorem recv_request {m : Option Zmsg} (h : (recv m polls).run s = .ok none s')
    {frames : List Bytes} {command client : Bytes}
    (hframes : frames.map recvPart = [] :: mdpwWorker :: command :: client :: msg)
    (hcommand : cStr command = mdpwRequest) (polls' : List Poll) :
    (recv m (polls ++ .arrived frames :: polls')).run s = .ok (some (unwrapped msg))
      { s' with mLiveness := heartbeatLiveness, mReplyTo := cStr client } := by
  have hne : frames ≠ [] := by
    rintro rfl
    cases hframes
  have hparts : ¬ Zmsg.parts ([] :: mdpwWorker :: command :: client :: msg) < 3 := by simp [parts]
  rw [recv_append h, recvLoop, round, ofSocket_encode hne, hframes]
  simp only [receive, if_neg hparts, popFront, pure_bind, unwrap_cons, hcommand]
  rfl

end Mdwrk

end ProxyBroker.Majordomo
