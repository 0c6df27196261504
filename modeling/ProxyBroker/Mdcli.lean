/-
  A client's session with the broker of `officialMajordomo` (`mdcliapi.hpp`).

  `send` sends a request and waits for the reply; whenever `poll` finds nothing
  it connects anew and sends the request again, until no retries are left.
  What `poll` finds until the process is interrupted and the random identities
  are arguments.  The socket is a REQ socket: after a request it refuses to send
  until the reply has come, and `zmsg::send` drops the error.

  * `tried`: the session when a request has been sent a number of times.
  * `send_tries`: how often `send` sends its request, and what it returns.
-/
import ProxyBroker.Mdwrk

namespace ProxyBroker.Majordomo

open Proc Zmsg

structure Mdcli where
  /-- of the socket `m_client` -/
  randomId : RandomId
  /-- an `int`, here without bounds -/
  mRetries : ℤ
  /-- the identities of the sockets to come -/
  ids : ℕ → RandomId
  /-- what has been passed on to the sockets -/
  socket : List (Frame Bytes)
  /-- the messages that have been passed to `send`, but for refused ones -/
  sent : List Zmsg
  /-- `m_client` awaits the reply to a request, and refuses to send another -/
  awaits : Bool

/-- The identity of `m_client`. -/
def Mdcli.identity (s : Mdcli) : Bytes := setId s.randomId

namespace Mdcli

/-! ## The code -/

/-- `connect_to_broker`. -/
def connectToBroker : Proc Mdcli Unit :=
  modify fun s => { s with randomId := s.ids 0, ids := fun n => s.ids (n + 1), awaits := false }

/-- The request with its protocol frames. -/
def envelope (service : Bytes) (request : Zmsg) : Zmsg :=
  (request.pushFront service).pushFront mdpcClient

/-- A copy of the request is sent.  A socket that awaits a reply refuses each of
    its parts. -/
def sendRequest (request : Zmsg) : Proc Mdcli Unit := do
  if (← get).awaits then
    Proc.zoom (fun _ => []) (fun s _ => s) request.send
  else
    modify fun s => { s with sent := s.sent ++ [request], awaits := true }
    Proc.zoom Mdcli.socket (fun s fs => { s with socket := fs }) request.send

/-- A message that `poll` has found. -/
def receive (service : Bytes) (recvMsg : Zmsg) : Proc Mdcli Zmsg := do
  modify fun s => { s with awaits := false }
  if recvMsg.parts < 3 then Proc.halt .abort
  let (header, recvMsg) ← recvMsg.popFront
  if header ≠ mdpcClient then Proc.halt .abort
  let (replyService, recvMsg) ← recvMsg.popFront
  if replyService ≠ cStr service then Proc.halt .abort
  return recvMsg

/-- Where `send` stands: it waits, or it has come to its end. -/
inductive Turn where
  | waits (retriesLeft : ℤ)
  | returns (reply : Option Zmsg)

/-- `send` up to its first `poll`. -/
def begins (service : Bytes) (request : Zmsg) : Proc Mdcli Turn := do
  let retriesLeft := (← get).mRetries
  if retriesLeft ≠ 0 then
    sendRequest (envelope service request)
    return .waits retriesLeft
  else return .returns none

/-- A round of the inner loop of `send`.  It is left only when no retries are
    left, and so is the outer one then. -/
def round (service : Bytes) (request : Zmsg) (retriesLeft : ℤ) : Poll → Proc Mdcli Turn
  | .arrived frames =>
    match Zmsg.ofSocket (Frame.encode frames) with
    | some (recvMsg, _) => do return .returns (some (← receive service recvMsg))
    | none => return .waits retriesLeft
  | .nothing => do
    if retriesLeft - 1 ≠ 0 then
      connectToBroker
      sendRequest (envelope service request)
      return .waits (retriesLeft - 1)
    else return .returns none

/-- The loops of `send`, until the process is interrupted. -/
def loop (service : Bytes) (request : Zmsg) : Turn → List Poll → Proc Mdcli (Option Zmsg)
  | .returns reply, _ => return reply
  | .waits _, [] => return none
  | .waits retriesLeft, poll :: polls => do
    loop service request (← round service request retriesLeft poll) polls

/-- `send`. -/
def send (service : Bytes) (request : Zmsg) (polls : List Poll) : Proc Mdcli (Option Zmsg) := do
  loop service request (← begins service request) polls

variable {s : Mdcli} {service : Bytes} {request m : Zmsg}

/-! ## One try -/

/-- A message has been passed on to the socket. -/
def put (s : Mdcli) (m : Zmsg) : Mdcli :=
  { s with
    sent := s.sent ++ [m], awaits := true
    socket := s.socket ++ Frame.encode ((m.drop 1).map sentFrame) }

/-- The client has a new socket. -/
def reconnected (s : Mdcli) : Mdcli :=
  { s with randomId := s.ids 0, ids := fun n => s.ids (n + 1), awaits := false }

/-- A message has arrived. -/
def replied (s : Mdcli) : Mdcli := { s with awaits := false }

/-- The request passes the test of `send` for its parts. -/
theorem sendable_envelope : Sendable ((envelope service request).drop 1) ↔ Sendable request := by
  simp [envelope, pushFront]

theorem sendRequest_wp (m : Zmsg) (hs : s.awaits = false) :
    (sendRequest m).wp (fun _ s' => s' = s.put m ∧ Sendable (m.drop 1))
      (fun s' => ∃ fs, s' = { s with sent := s.sent ++ [m], awaits := true, socket := fs } ∧
        ¬ Sendable (m.drop 1)) s := by
  simp only [sendRequest, wp_bind, wp_get, hs, Bool.false_eq_true, if_false, wp_modify, wp_zoom]
  refine (sendLoop_wp (m.drop 1) s.socket).mono ?_ ?_
  · rintro _ _ ⟨rfl, h⟩
    exact ⟨rfl, h⟩
  · intro fs h
    exact ⟨fs, rfl, h⟩

/-- A socket that awaits a reply refuses the message. -/
theorem sendRequest_refused (m : Zmsg) (hs : s.awaits = true) :
    (sendRequest m).wp (fun _ s' => s' = s ∧ Sendable (m.drop 1))
      (fun s' => s' = s ∧ ¬ Sendable (m.drop 1)) s := by
  simp only [sendRequest, wp_bind, wp_get, hs, if_true, wp_zoom]
  exact (send_wp m []).mono (fun _ _ h => ⟨trivial, h⟩) fun _ h => ⟨trivial, h⟩

theorem sendRequest_run (hm : Sendable (m.drop 1)) (s : Mdcli) :
    (sendRequest m).run s = .ok () (if s.awaits then s else s.put m) := by
  cases ha : s.awaits with
  | false =>
    have hwp := sendRequest_wp m ha
    cases hr : (sendRequest m).run s with
    | ok a s' =>
      obtain ⟨rfl, -⟩ := (wp_ok hr).1 hwp
      rfl
    | error e s' =>
      obtain ⟨fs, -, hn⟩ := (wp_error hr).1 hwp
      exact absurd hm hn
  | true =>
    have hwp := sendRequest_refused m ha
    cases hr : (sendRequest m).run s with
    | ok a s' =>
      obtain ⟨rfl, -⟩ := (wp_ok hr).1 hwp
      rfl
    | error e s' =>
      obtain ⟨-, hn⟩ := (wp_error hr).1 hwp
      exact absurd hm hn

/-- A message that is taken for a reply to a request for the service. -/
def Reply (service : Bytes) (recvMsg : Zmsg) : Prop :=
  3 ≤ recvMsg.length ∧ [mdpcClient, cStr service] <+: recvMsg

instance (service : Bytes) (recvMsg : Zmsg) : Decidable (Reply service recvMsg) :=
  inferInstanceAs (Decidable (_ ∧ _))

/-- Of a reply its body is taken; any other message ends the process. -/
theorem receive_run (service : Bytes) (recvMsg : Zmsg) (s : Mdcli) :
    (receive service recvMsg).run s =
      if Reply service recvMsg then .ok (recvMsg.drop 2) s.replied else .error .abort s.replied := by
  by_cases hlen : recvMsg.length < 3
  · have hparts : recvMsg.parts < 3 := hlen
    have hnot : ¬ Reply service recvMsg := fun h => absurd h.1 (not_le.2 hlen)
    simp [receive, replied, hparts, hnot]
  obtain ⟨header, replyService, b, body, rfl⟩ : ∃ h r b body, recvMsg = h :: r :: b :: body := by
    rcases recvMsg with _ | ⟨h, _ | ⟨r, _ | ⟨b, body⟩⟩⟩
    · exact absurd (by decide) hlen
    · exact absurd (by simp) hlen
    · exact absurd (by simp) hlen
    · exact ⟨h, r, b, body, rfl⟩
  have hparts : ¬ Zmsg.parts (header :: replyService :: b :: body) < 3 := hlen
  have hreply : Reply service (header :: replyService :: b :: body) ↔
      header = mdpcClient ∧ replyService = cStr service := by
    simp [Reply, eq_comm]
  simp only [receive, if_neg hparts, popFront, pure_bind, hreply]
  by_cases hheader : header = mdpcClient
  · by_cases hservice : replyService = cStr service
    · simp [replied, hheader, hservice]
    · simp [replied, hheader, hservice]
  · simp [replied, hheader]

/-! ## All tries -/

/-- The session after `n` tries, each but the first over a new socket.  In the
    first the socket may refuse the message. -/
def tried (s : Mdcli) (m : Zmsg) : ℕ → Mdcli
  | 0 => s
  | 1 => if s.awaits then s else s.put m
  | n + 2 => (s.tried m (n + 1)).reconnected.put m

/-- How often the message has been sent in `n` tries. -/
def sends (s : Mdcli) (n : ℕ) : ℕ := if s.awaits then n - 1 else n

theorem sends_succ (s : Mdcli) (n : ℕ) : s.sends (n + 2) = s.sends (n + 1) + 1 := by
  unfold sends
  split_ifs <;> omega

theorem tried_sent (s : Mdcli) (m : Zmsg) :
    ∀ n, (s.tried m n).sent = s.sent ++ List.replicate (s.sends n) m
  | 0 => by
    have hzero : s.sends 0 = 0 := ite_self 0
    rw [hzero]
    exact (List.append_nil _).symm
  | 1 => by
    rw [tried, sends]
    split_ifs
    · exact (List.append_nil _).symm
    · rfl
  | n + 2 => by
    have h := tried_sent s m (n + 1)
    rw [tried, put, reconnected, h, List.append_assoc, sends_succ, ← List.replicate_succ']

theorem tried_ids (s : Mdcli) (m : Zmsg) (i : ℕ) : ∀ n, (s.tried m (n + 1)).ids i = s.ids (i + n)
  | 0 => by
    rw [tried]
    split_ifs <;> rfl
  | n + 1 => by
    have h := tried_ids s m (i + 1) n
    rw [tried, put, reconnected, h, Nat.add_assoc, Nat.add_comm 1 n]

theorem tried_identity (s : Mdcli) (m : Zmsg) (n : ℕ) :
    (s.tried m (n + 2)).identity = setId (s.ids n) := by
  have h := tried_ids s m 0 n
  rw [Nat.zero_add] at h
  rw [tried, identity, put, reconnected, h]

@[simp] theorem loop_returns (reply : Option Zmsg) (polls : List Poll) :
    loop service request (.returns reply) polls = return reply := by
  cases polls <;> rfl

/-- A new socket takes the message. -/
theorem sendRequest_reconnected (hm : Sendable (m.drop 1)) (s : Mdcli) :
    (sendRequest m).run s.reconnected = .ok () (s.reconnected.put m) :=
  sendRequest_run hm s.reconnected

/-- While retries are left, `poll` may find nothing. -/
theorem loop_nothing (hs : Sendable request) (polls : List Poll) : ∀ {k j : ℕ} {retriesLeft : ℤ},
    retriesLeft < 0 ∨ k < retriesLeft →
      (loop service request (.waits retriesLeft) (List.replicate k .nothing ++ polls)).run
          (s.tried (envelope service request) (j + 1)) =
        (loop service request (.waits (retriesLeft - k)) polls).run
          (s.tried (envelope service request) (j + 1 + k))
  | 0, j, retriesLeft, _ => by simp
  | k + 1, j, retriesLeft, h => by
    have hne : retriesLeft - 1 ≠ 0 := by omega
    have hleft : retriesLeft - 1 < 0 ∨ k < retriesLeft - 1 := by omega
    have hround : (round service request retriesLeft .nothing).run
        (s.tried (envelope service request) (j + 1)) =
          .ok (.waits (retriesLeft - 1)) (s.tried (envelope service request) (j + 1 + 1)) := by
      simp only [round, if_pos hne, connectToBroker, EStateM.run_bind, EStateM.run_modify]
      rw [← reconnected, sendRequest_reconnected (sendable_envelope.2 hs)]
      rfl
    have hsub : retriesLeft - 1 - k = retriesLeft - (k + 1 : ℕ) := by
      push_cast
      ring
    rw [List.replicate_succ, List.cons_append, loop, EStateM.run_bind, hround]
    dsimp only
    rw [loop_nothing hs polls hleft, hsub, Nat.add_right_comm, Nat.add_assoc (j + 1)]

/-- When no retries are left, `send` gives up. -/
theorem loop_last (polls : List Poll) :
    (loop service request (.waits 1) (.nothing :: polls)).run s = .ok none s := by
  simp [loop, round]

theorem begins_run (hs : Sendable request) (hr : s.mRetries ≠ 0) :
    (begins service request).run s =
      .ok (.waits s.mRetries) (s.tried (envelope service request) 1) := by
  simp only [begins, EStateM.run_bind, EStateM.run_get, if_pos hr,
    sendRequest_run (sendable_envelope.2 hs), EStateM.run_pure]
  rfl

/-- **How often `send` sends its request, and what it returns**, when `poll` has
    found nothing `k` times: as long as this is less than `m_retries`, there have
    been `k + 1` tries, and a message that arrives then is returned if it is a
    reply; otherwise there have been `m_retries`, and nothing is returned.  Each
    try sends the request, unless the socket awaits the reply to a call before:
    then the first is refused.  Each try but the first has a socket of its own.
    The `int` that counts the tries down must not run over. -/
theorem send_tries (hs : Sendable request) (k : ℕ) :
    let m := envelope service request
    ((s.mRetries < 0 ∧ - 2 ^ 31 ≤ s.mRetries - k) ∨ k < s.mRetries →
      (send service request (List.replicate k .nothing)).run s = .ok none (s.tried m (k + 1)) ∧
      ∀ frames ≠ [], ∀ polls,
        (send service request (List.replicate k .nothing ++ .arrived frames :: polls)).run s =
          if Reply service (frames.map recvPart) then
            .ok (some ((frames.map recvPart).drop 2)) (s.tried m (k + 1)).replied
          else .error .abort (s.tried m (k + 1)).replied) ∧
    (0 ≤ s.mRetries ∧ s.mRetries ≤ k → ∀ polls,
      (send service request (List.replicate k .nothing ++ polls)).run s =
        .ok none (s.tried m s.mRetries.toNat)) ∧
    ∀ n, (s.tried m n).sent = s.sent ++ List.replicate (if s.awaits then n - 1 else n) m ∧
      (s.tried m (n + 2)).identity = setId (s.ids n) := by
  intro m
  refine ⟨fun hk => ?_, ?_, fun n => ⟨tried_sent s m n, tried_identity s m n⟩⟩
  · have hleft : s.mRetries < 0 ∨ k < s.mRetries := hk.imp_left And.left
    have hr : s.mRetries ≠ 0 := by omega
    have hloop : ∀ polls, (send service request (List.replicate k .nothing ++ polls)).run s =
        (loop service request (.waits (s.mRetries - k)) polls).run (s.tried m (k + 1)) := by
      intro polls
      rw [send, EStateM.run_bind, begins_run hs hr]
      dsimp only
      rw [loop_nothing (j := 0) hs polls hleft, Nat.zero_add, Nat.add_comm 1 k]
    refine ⟨?_, fun frames hframes polls => ?_⟩
    · rw [← List.append_nil (List.replicate k _), hloop]
      rfl
    · rw [hloop]
      simp only [loop, round, ofSocket_encode hframes, EStateM.run_bind, receive_run]
      split_ifs
      · simp
      · rfl
  · rintro ⟨hr, hk⟩ polls
    rcases hr.eq_or_lt with hr | hr
    · simp [send, begins, ← hr, tried]
    obtain ⟨n, hn⟩ : ∃ n : ℕ, s.mRetries = n + 1 := ⟨(s.mRetries - 1).toNat, by omega⟩
    obtain ⟨d, rfl⟩ : ∃ d : ℕ, k = n + (d + 1) := ⟨k - (n + 1), by omega⟩
    have hsplit : List.replicate (n + (d + 1)) Poll.nothing ++ polls =
        List.replicate n .nothing ++ (.nothing :: (List.replicate d .nothing ++ polls)) := by
      rw [List.replicate_add, List.append_assoc, List.replicate_succ, List.cons_append]
    have hlast : s.mRetries - n = 1 := by omega
    have htoNat : s.mRetries.toNat = n + 1 := by omega
    rw [hsplit, send, EStateM.run_bind, begins_run hs hr.ne']
    dsimp only
    rw [loop_nothing (j := 0) hs _ (Or.inr (by omega)), hlast, loop_last, htoNat, Nat.zero_add,
      Nat.add_comm 1 n]

/-- With three retries, `send` gives up after three tries, and the next call,
    whose first try is refused, also does. -/
theorem send_tries_three :
    let s : Mdcli := ⟨(0, 0), 3, fun n => (0, Fin.ofNat _ (n + 1)), [], [], false⟩
    let m := envelope [2] [[4]]
    let s' := s.tried m 3
    let polls := List.replicate 3 Poll.nothing ++ []
    ((send [2] [[4]] polls).run s = .ok none s' ∧ s'.sent = [m, m, m]) ∧
      (send [2] [[4]] polls).run s' = .ok none (s'.tried m 3) ∧
      (s'.tried m 3).sent = [m, m, m, m, m] := by
  intro s m s' polls
  obtain ⟨-, hgives, hsent⟩ := @send_tries s [2] [[4]] (by decide) 3
  obtain ⟨-, hgives', hsent'⟩ := @send_tries s' [2] [[4]] (by decide) 3
  exact ⟨⟨hgives (by decide) [], (hsent 3).1⟩, hgives' (by decide) [], (hsent' 3).1⟩

end Mdcli

end ProxyBroker.Majordomo
