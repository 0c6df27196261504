/-
  What the programs over the two APIs do in one step.

  * `ClientProgram.Goes`: a client sends its request once, or its call ends.
  * `ClientProgram.Refused`: its socket still awaits the reply to a call before.
  * `Mdwrk.Talks`: a worker only registers and sends heartbeats; `round_request`
    and `round_other` tell when `recv` returns a request.
-/
import ProxyBroker.Network

namespace ProxyBroker.Majordomo

open Proc Zmsg

@[simp] theorem map_wire (m : Zmsg) : (wire m).map recvPart = m.map arrival := List.map_map

/-! ## Clients -/

/-- The call that begins, if one does, meets `P`. -/
def NetworkEv.Calls {ι κ : Type} (P : Call → Prop) : NetworkEv ι κ → Prop
  | .clientCalls _ call => P call
  | .broker .. | .clientStarts .. | .clientPolls .. | .workerStarts .. | .workerPolls .. |
    .workerReplies .. | .lost .. => True

/-- The request with its protocol frames. -/
def Call.message (call : Call) : Zmsg := Mdcli.envelope call.service call.request

namespace ClientProgram

variable {c : ClientProgram} {call : Call} {retriesLeft : ℤ} {m : Zmsg}

/-- The call has returned. -/
def ends (c : ClientProgram) (call : Call) (reply : Option Zmsg) : ClientProgram :=
  { c with call := none, returned := c.returned ++ [(call, reply)] }

/-- The client has passed its request to `send` once, over a socket with the
    identity `id`, or has given up. -/
inductive Goes (call : Call) (id : RandomId) (c c' : ClientProgram) : Prop
  | sends (s : Mdcli) (retriesLeft : ℤ) (hreq : Sendable call.request) (hid : s.randomId = id)
      (hsent : s.sent = c.session.sent ++ [call.message])
      (hc : c' = { c with session := s, call := some (call, retriesLeft) })
  | fails (s : Mdcli) (h : Halt) (hreq : ¬ Sendable call.request) (hid : s.randomId = id)
      (hsent : s.sent = c.session.sent ++ [call.message])
      (hc : c' = { c with session := s, halted := some h })
  | quits (hc : c' = c.ends call none)

/-- The socket is the same or a new one, and nothing but the request has been
    sent. -/
theorem Goes.session {id : RandomId} {c' : ClientProgram} (h : Goes call id c c') :
    (c'.session.identity = setId id ∨ c'.session.identity = c.session.identity) ∧
      ∃ l, c'.session.sent = c.session.sent ++ l ∧ ∀ m ∈ l, m = call.message := by
  cases h with
  | sends s left hreq hid hsent hc | fails s h hreq hid hsent hc =>
    subst hc
    exact ⟨Or.inl (congrArg setId hid), _, hsent, by simp⟩
  | quits hc =>
    subst hc
    exact ⟨Or.inr rfl, [], by simp [ends], by simp⟩

/-- Nothing has been sent: the client waits, its process or its call ends. -/
inductive Refused (call : Call) (c c' : ClientProgram) : Prop
  | waits (retriesLeft : ℤ) (hc : c' = { c with call := some (call, retriesLeft) })
  | fails (h : Halt) (hc : c' = { c with halted := some h })
  | quits (hc : c' = c.ends call none)

theorem Refused.session {c' : ClientProgram} (h : Refused call c c') : c'.session = c.session := by
  cases h with
  | waits left hc | fails h hc | quits hc =>
    subst hc
    rfl

theorem run_sends {s : Mdcli} (retriesLeft : ℤ) (call : Call) {p : Proc Mdcli Mdcli.Turn}
    (hp : p.run c.session = (do
      Mdcli.sendRequest call.message
      return .waits retriesLeft : Proc Mdcli Mdcli.Turn).run s)
    (hs : s.awaits = false) (hsent : s.sent = c.session.sent) :
    Goes call s.randomId c (c.run call p) := by
  have hwp := Mdcli.sendRequest_wp call.message hs
  rw [show Sendable (call.message.drop 1) ↔ Sendable call.request from
    Mdcli.sendable_envelope] at hwp
  rw [EStateM.run_bind] at hp
  cases hr : (Mdcli.sendRequest call.message).run s with
  | ok u s' =>
    obtain ⟨rfl, hreq⟩ := (wp_ok hr).1 hwp
    rw [hr] at hp
    refine .sends (s.put call.message) retriesLeft hreq rfl (congrArg (· ++ _) hsent) ?_
    rw [run, hp]
    rfl
  | error h s' =>
    obtain ⟨fs, rfl, hreq⟩ := (wp_error hr).1 hwp
    rw [hr] at hp
    refine .fails { s with sent := _, awaits := true, socket := fs } h hreq rfl
      (congrArg (· ++ _) hsent) ?_
    rw [run, hp]

theorem begins_eq (call : Call) {s : Mdcli} (hr : s.mRetries ≠ 0) :
    (Mdcli.begins call.service call.request).run s = (do
      Mdcli.sendRequest call.message
      return .waits s.mRetries : Proc Mdcli Mdcli.Turn).run s := by
  simp only [Mdcli.begins, EStateM.run_bind, EStateM.run_get, if_pos hr]
  rfl

/-- A call begins. -/
theorem run_begins (hs : c.session.awaits = false) (call : Call) :
    Goes call c.session.randomId c (c.run call (Mdcli.begins call.service call.request)) := by
  by_cases hr : c.session.mRetries ≠ 0
  · exact run_sends c.session.mRetries call (begins_eq call hr) hs rfl
  · refine .quits ?_
    simp [run, Mdcli.begins, not_not.1 hr, ends]

/-- A call begins over a socket that still awaits a reply. -/
theorem run_refused (hs : c.session.awaits = true) (call : Call) :
    Refused call c (c.run call (Mdcli.begins call.service call.request)) := by
  by_cases hr : c.session.mRetries ≠ 0
  · have hp := begins_eq call hr
    have hwp := Mdcli.sendRequest_refused call.message hs
    rw [EStateM.run_bind] at hp
    cases hrun : (Mdcli.sendRequest call.message).run c.session with
    | ok u s' =>
      obtain ⟨rfl, -⟩ := (wp_ok hrun).1 hwp
      rw [hrun] at hp
      refine .waits c.session.mRetries ?_
      rw [run, hp]
      rfl
    | error h s' =>
      obtain ⟨rfl, -⟩ := (wp_error hrun).1 hwp
      rw [hrun] at hp
      refine .fails h ?_
      rw [run, hp]
  · refine .quits ?_
    simp [run, Mdcli.begins, not_not.1 hr, ends]

/-- Nothing has arrived in time. -/
theorem run_nothing (c : ClientProgram) (call : Call) (retriesLeft : ℤ) :
    Goes call (c.session.ids 0) c
      (c.run call (Mdcli.round call.service call.request retriesLeft (polled none))) := by
  by_cases hr : retriesLeft - 1 ≠ 0
  · refine run_sends (s := c.session.reconnected) (retriesLeft - 1) call ?_ rfl rfl
    simp only [polled, Mdcli.round, if_pos hr, Mdcli.connectToBroker, EStateM.run_bind,
      EStateM.run_modify]
    rfl
  · refine .quits ?_
    simp [run, polled, Mdcli.round, hr, ends]

/-- A message has arrived for the client. -/
def replied (c : ClientProgram) : ClientProgram := { c with session := c.session.replied }

/-- What the client does with it. -/
theorem run_arrived (c : ClientProgram) (call : Call) (retriesLeft : ℤ) (m : Zmsg) :
    c.run call (Mdcli.round call.service call.request retriesLeft (polled (some m))) =
      if m = [] then { c with call := some (call, retriesLeft) }
      else if Mdcli.Reply call.service (m.map arrival) then
        c.replied.ends call (some ((m.map arrival).drop 2))
      else { c.replied with halted := some .abort } := by
  rcases eq_or_ne m [] with rfl | hm
  · rfl
  have hwire : wire m ≠ [] := by simpa [wire] using hm
  simp only [run, polled, Mdcli.round, ofSocket_encode hwire, map_wire, EStateM.run_bind,
    Mdcli.receive_run, if_neg hm]
  split_ifs <;> rfl

end ClientProgram

/-! ## Workers -/

namespace Mdwrk

variable {s s' : Mdwrk} {id : RandomId}

/-- The worker has only said something of itself, and its socket is the same or
    has the identity `id`. -/
def Talks (id : RandomId) (s s' : Mdwrk) : Prop :=
  (∀ n, s.ids n = id) → (∀ n, s'.ids n = id) ∧ (s'.randomId = s.randomId ∨ s'.randomId = id) ∧
    s'.mService = s.mService ∧ ∃ l, s'.sent = s.sent ++ l ∧ ∀ m ∈ l, Registers s.mService m

instance (id : RandomId) : IsPreorder Mdwrk (Talks id) where
  refl _ h := ⟨h, Or.inl rfl, rfl, [], by simp, by simp⟩
  trans s t u := by
    intro h h' hs
    obtain ⟨ht, hid, hservice, l, hl, hall⟩ := h hs
    obtain ⟨hu, hid', hservice', l', hl', hall'⟩ := h' ht
    refine ⟨hu, ?_, hservice'.trans hservice, l ++ l', by rw [hl', hl, List.append_assoc], ?_⟩
    · rcases hid' with hid' | hid'
      · exact hid.imp hid'.trans hid'.trans
      · exact Or.inr hid'
    · intro m hm
      rcases List.mem_append.1 hm with hm | hm
      · exact hall m hm
      · exact hservice ▸ hall' m hm

theorem allows_talks (id : RandomId) : Allows (Talks id) where
  same hsent hservice hid hids h :=
    ⟨fun n => hids ▸ h n, Or.inl hid, hservice, [], by simp [hsent], by simp⟩
  connects s h := ⟨fun n => h (n + 1), Or.inr (h 0), rfl, [], by simp, by simp⟩
  tells s m fs hm h := ⟨h, Or.inl rfl, rfl, [m], rfl, by simpa using hm⟩

/-! ### Requests -/

/-- `recv` returns the request. -/
theorem round_request (client : Bytes) (body : Zmsg) (s : Mdwrk) :
    (round (polled (some ([] :: mdpwWorker :: mdpwRequest :: client :: [] :: body)))).run s =
      .ok (some (body.map arrival))
        { s with mLiveness := heartbeatLiveness, mReplyTo := cStr (arrival client) } := by
  let m : Zmsg := [] :: mdpwWorker :: mdpwRequest :: client :: [] :: body
  have hwire : wire m ≠ [] := List.cons_ne_nil _ _
  have hmap : m.map arrival =
      [] :: mdpwWorker :: mdpwRequest :: arrival client :: [] :: body.map arrival := rfl
  have hparts : ¬ Zmsg.parts (m.map arrival) < 3 := by simp [parts, m]
  rw [polled, round, ofSocket_encode hwire, map_wire]
  dsimp only
  rw [receive, if_neg hparts, hmap]
  simp only [popFront, pure_bind, unwrap_cons]
  rfl

/-- What a worker tells of itself can be sent. -/
theorem sendToBroker_wp {command option : Bytes} {Q : Unit → Mdwrk → Prop}
    (h : ∀ fs, Q () { s with sent := s.sent ++ [envelope command option none], socket := fs }) :
    (sendToBroker command option none).wp Q (fun _ => False) s := by
  simp only [sendToBroker, wp_bind, wp_modify, wp_zoom]
  refine (send_wp _ _).mono (fun _ fs _ => h fs) fun fs hn => hn ?_
  simp only [envelope]
  split_ifs <;> simp [pushFront]

theorem wp_sClock {Q : ℤ → Mdwrk → Prop} {E : Mdwrk → Prop} : sClock.wp Q E s ↔
    Q (s.clock 0) { s with clock := fun n => s.clock (n + 1) } := Iff.rfl

theorem connectToBroker_wp {Q : Unit → Mdwrk → Prop}
    (h : ∀ s', s'.mExpectReply = s.mExpectReply → s'.randomId = s.ids 0 → Q () s') :
    connectToBroker.wp Q (fun _ => False) s := by
  simp only [connectToBroker, wp_bind, wp_modify, wp_get]
  refine sendToBroker_wp fun fs => ?_
  simp only [wp_sClock]
  exact h _ rfl rfl

theorem heartbeat_wp {Q : Unit → Mdwrk → Prop} (h : ∀ u s, Q u s) (s : Mdwrk) :
    heartbeat.wp Q (fun _ => False) s := by
  simp only [heartbeat, wp_bind, wp_sClock, wp_get]
  split_ifs
  · rw [wp_bind]
    exact sendToBroker_wp fun fs => h _ _
  · exact h _ _

/-- `recv` goes on waiting. -/
theorem round_nothing (s : Mdwrk) :
    (round (polled none)).wp (fun job _ => job = none) (fun _ => False) s := by
  simp only [polled, round, wp_bind, wp_modify, wp_get]
  split_ifs
  · simp only [wp_bind]
    exact connectToBroker_wp fun s _ _ => heartbeat_wp (fun _ _ => rfl) s
  · simp only [wp_bind]
    exact heartbeat_wp (fun _ _ => rfl) _

/-- So it does after any other message of the broker. -/
theorem round_other {command : Bytes} (hc : command = mdpwHeartbeat ∨ command = mdpwDisconnect)
    (rest : Zmsg) (s : Mdwrk) : (round (polled (some ([] :: mdpwWorker :: command :: rest)))).wp
      (fun job _ => job = none) (fun _ => False) s := by
  let m : Zmsg := [] :: mdpwWorker :: command :: rest
  have hwire : wire m ≠ [] := List.cons_ne_nil _ _
  have hmap : m.map arrival = [] :: mdpwWorker :: command :: rest.map arrival := by
    rcases hc with rfl | rfl <;> rfl
  have hparts : ¬ Zmsg.parts (m.map arrival) < 3 := by simp [parts, m]
  have hnot : ¬ cStr command = mdpwRequest := by
    rcases hc with rfl | rfl <;> decide
  rw [polled, round, ofSocket_encode hwire, map_wire]
  dsimp only
  rw [receive, if_neg hparts, hmap]
  simp only [popFront, pure_bind, if_neg hnot, wp_bind, wp_modify, ne_eq, not_true_eq_false,
    if_false]
  split_ifs
  · simp only [wp_bind]
    exact connectToBroker_wp fun s _ _ => heartbeat_wp (fun _ _ => rfl) s
  · simp only [wp_bind]
    exact heartbeat_wp (fun _ _ => rfl) _

/-- The message in which a worker replies. -/
def replyMessage (client : Bytes) (reply : Zmsg) : Zmsg :=
  [] :: mdpwWorker :: mdpwReply :: cStr client :: [] :: reply

theorem sendable_replyMessage {client : Bytes} {reply : Zmsg} :
    Sendable (replyMessage client reply) ↔ Sendable reply := by
  have hworker : ¬ Broken mdpwWorker := by decide
  have hreply : ¬ Broken mdpwReply := by decide
  simp [replyMessage, hworker, hreply]

theorem sendReply_wp (hto : s.mReplyTo ≠ []) (reply : Zmsg) :
    (sendReply (some reply)).wp
      (fun _ s' => s'.randomId = s.randomId ∧ s'.mService = s.mService ∧
        s'.sent = s.sent ++ [replyMessage s.mReplyTo reply] ∧ Sendable reply)
      (fun s' => s'.randomId = s.randomId ∧ s'.mService = s.mService ∧
        s'.sent = s.sent ++ [replyMessage s.mReplyTo reply] ∧ ¬ Sendable reply) s := by
  have hlen : ¬ s.mReplyTo.length = 0 := by simpa using hto
  have henv : envelope mdpwReply [] (some (reply.wrap s.mReplyTo (some []))) =
      replyMessage s.mReplyTo reply := rfl
  have hsend : Sendable ((replyMessage s.mReplyTo reply).drop 1) ↔ Sendable reply := by
    have hall : Sendable (replyMessage s.mReplyTo reply) ↔ Sendable reply := sendable_replyMessage
    exact (sendable_cons.trans (and_iff_right not_broken_nil)).symm.trans hall
  simp only [sendReply, wp_bind, wp_get, reduceCtorEq, false_and, if_false, if_neg hlen, wp_set,
    sendToBroker, wp_modify, wp_zoom, henv]
  refine (send_wp _ _).mono ?_ ?_
  · intro _ fs h
    exact ⟨trivial, trivial, trivial, hsend.1 h⟩
  · intro fs h
    exact ⟨trivial, trivial, trivial, fun h' => h (hsend.2 h')⟩

theorem starts_talks (id : RandomId) : Keeps (Talks id) starts := by
  have ha := allows_talks id
  refine (connectToBroker_keeps ha).bind fun _ => Keeps.bind ?_ fun _ => keeps_pure _
  refine keeps_get.bind fun s => ?_
  dsimp only
  split_ifs
  · exact keeps_halt _
  · exact keeps_modify fun s => ha.same rfl rfl rfl rfl

theorem starts_wp (he : s.mExpectReply = false) :
    starts.wp (fun job s' => job = none ∧ s'.randomId = s.ids 0) (fun _ => False) s := by
  rw [starts, wp_bind]
  refine connectToBroker_wp fun s' hs hid => ?_
  simp [sendReply, hs, he, hid]

end Mdwrk

namespace WorkerProgram

variable {w : WorkerProgram} {id : RandomId}

/-- The worker goes on waiting in `recv`. -/
def waits (w : WorkerProgram) (s : Mdwrk) : WorkerProgram := { w with session := s, job := none }

theorem run_waits {p : Proc Mdwrk (Option Zmsg)}
    (hwp : p.wp (fun job _ => job = none) (fun _ => False) w.session) :
    w.run p = w.waits (p.final w.session) := by
  cases hr : p.run w.session with
  | ok job s =>
    obtain rfl := (wp_ok hr).1 hwp
    simp [run, waits, hr, final_ok hr]
  | error h s => exact ((wp_error hr).1 hwp).elim

/-- A worker that waits hears nothing, or something that is no request. -/
theorem run_polls (id : RandomId) (mail : Option Zmsg) (hm : ∀ m ∈ mail, ∃ command rest,
      m = [] :: mdpwWorker :: command :: rest ∧
        (command = mdpwHeartbeat ∨ command = mdpwDisconnect)) (w : WorkerProgram) :
    ∃ s, Mdwrk.Talks id w.session s ∧ w.run (Mdwrk.round (polled mail)) = w.waits s := by
  refine ⟨_, Mdwrk.round_keeps (Mdwrk.allows_talks id) (polled mail) w.session, run_waits ?_⟩
  rcases mail with _ | m
  · exact Mdwrk.round_nothing w.session
  · obtain ⟨command, rest, rfl, hc⟩ := hm m rfl
    exact Mdwrk.round_other hc rest w.session

/-- A worker in its constructor and its first `recv`. -/
theorem run_init (service : Bytes) (id : RandomId) (clock : ℕ → ℤ) : ∃ s : Mdwrk,
    Mdwrk.Talks id (Mdwrk.blank service id clock) s ∧ s.randomId = id ∧
      (Network.workerInit service id clock).2 =
        (Network.workerInit service id clock).1.waits s := by
  let w := (Network.workerInit service id clock).1
  have hwp : Mdwrk.starts.wp (fun job s => job = none ∧ s.randomId = id) (fun _ => False)
      w.session := Mdwrk.starts_wp rfl
  refine ⟨_, Mdwrk.starts_talks id w.session, ?_, run_waits (hwp.mono (fun _ _ h => h.1) fun _ h => h)⟩
  exact wp_final.1 (hwp.mono (fun _ _ h => h.2) fun _ h => h.elim)

/-- A worker gets a request. -/
theorem run_request (client : Bytes) (body : Zmsg) (w : WorkerProgram) :
    w.run (Mdwrk.round (polled (some ([] :: mdpwWorker :: mdpwRequest :: client :: [] :: body)))) =
      { w with
        session := { w.session with
          mLiveness := heartbeatLiveness, mReplyTo := cStr (arrival client) }
        job := some (body.map arrival) } := by
  rw [run, Mdwrk.round_request]

/-- A worker replies, or its reply cannot be sent. -/
theorem run_replies (hto : w.session.mReplyTo ≠ []) (reply : Zmsg) :
    ∃ s : Mdwrk, s.randomId = w.session.randomId ∧ s.mService = w.session.mService ∧
      s.sent = w.session.sent ++ [Mdwrk.replyMessage w.session.mReplyTo reply] ∧
      (Sendable reply ∧ w.run (Mdwrk.replies reply) = w.waits s ∨
        ¬ Sendable reply ∧ ∃ h,
          w.run (Mdwrk.replies reply) = { w with session := s, halted := some h }) := by
  have hwp := Mdwrk.sendReply_wp hto reply
  cases hr : (Mdwrk.sendReply (some reply)).run w.session with
  | ok u s =>
    obtain ⟨hid, hs, hsent, hreply⟩ := (wp_ok hr).1 hwp
    refine ⟨s, hid, hs, hsent, Or.inl ⟨hreply, ?_⟩⟩
    simp [run, Mdwrk.replies, hr, waits]
  | error h s =>
    obtain ⟨hid, hs, hsent, hreply⟩ := (wp_error hr).1 hwp
    refine ⟨s, hid, hs, hsent, Or.inr ⟨hreply, h, ?_⟩⟩
    simp [run, Mdwrk.replies, hr]

end WorkerProgram

end ProxyBroker.Majordomo
