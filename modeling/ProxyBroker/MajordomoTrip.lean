/-
  A request's way through `officialMajordomo`: from the client to a worker that
  waits in `mdwrk::recv`, and the reply's way back.

  The address of the client is wrapped and unwrapped as a C string four times,
  and the message goes through `send` and `recv` on each way.

  * `Session`: a worker that waits.
  * `RoundTrip`: the worker gets the body, and the client's address is in front
    of the reply.
  * `round_trip_iff`: which requests make the round trip.
-/
import ProxyBroker.MajordomoQueue
import ProxyBroker.MajordomoReserved
import ProxyBroker.Mdwrk
import ProxyBroker.ZmsgRelay

namespace ProxyBroker.Majordomo

open Proc Zmsg Broker

variable {srv client command : Bytes} {w : Worker} {wrk : Ptr} {msg m : Zmsg} {t : Tables}
  {frames : List Bytes}

/-! ## Identities -/

theorem hexChar_mod_ne_zero (n : ℕ) : hexChar (n % 16) ≠ 0 := by
  have hall : ∀ d : Fin 16, hexChar d ≠ 0 := by decide
  exact hall ⟨n % 16, Nat.mod_lt n (by omega)⟩

theorem zero_notMem_setId (id : RandomId) : 0 ∉ setId id := by
  have hhex : ∀ n, 0 ∉ hex4 n := by
    intro n h
    have hdigit : ∃ d, 0 = hexChar (d % 16) := by
      unfold hex4 at h
      split_ifs at h <;> simp only [List.cons_append, List.nil_append, List.mem_cons,
        List.not_mem_nil, or_false] at h
      · rcases h with h | h | h | h <;> exact ⟨_, h⟩
      · rcases h with h | h | h | h | h <;> exact ⟨_, h⟩
    obtain ⟨d, hd⟩ := hdigit
    exact hexChar_mod_ne_zero d hd.symm
  simp only [setId, List.mem_append, not_or]
  exact ⟨⟨hhex _, by decide⟩, hhex _⟩

theorem cStr_setId (id : RandomId) : cStr (setId id) = setId id :=
  cStr_eq_self (zero_notMem_setId id)

/-- An identity is shorter than a binary one, printed or not. -/
theorem length_setId_le (id : RandomId) : (setId id).length ≤ 11 := by
  have hhex : ∀ n, (hex4 n).length ≤ 5 := by
    intro n
    unfold hex4
    split_ifs <;> simp
  have h₁ := hhex id.1
  have h₂ := hhex id.2
  rw [setId, List.length_append, List.length_append, show (lit ['-']).length = 1 from rfl]
  omega

theorem setId_ne_nil (id : RandomId) : setId id ≠ [] := by
  have hdash : lit ['-'] ≠ [] := by decide
  simp [setId, hdash]

theorem recvPart_setId (id : RandomId) : recvPart (setId id) = setId id :=
  recvPart_of_not_binary fun h => absurd h.1 (by have := length_setId_le id; omega)

theorem not_broken_setId (id : RandomId) : ¬ Broken (setId id) :=
  fun h => zero_notMem_setId id h.2.2

theorem sentFrame_setId (id : RandomId) : sentFrame (setId id) = setId id :=
  sentFrame_of_not_printed fun h => absurd h.1 (by have := length_setId_le id; omega)

/-! ## Links -/

/-- How a message is put on a socket: every part of it, as `send` is meant to,
    or as `send` does. -/
inductive Link where
  | each
  | code
  deriving DecidableEq

def Link.send : Link → Zmsg → Proc (List (Frame Bytes)) Unit
  | .each => sendLoop
  | .code => Zmsg.send

/-- The frames are on the socket when the message has been sent. -/
def Link.Carries (link : Link) (m : Zmsg) (frames : List Bytes) : Prop :=
  (link.send m).run [] = .ok () (Frame.encode frames)

theorem carries_each : Link.each.Carries m frames ↔ frames = m.map sentFrame ∧ Sendable m :=
  sendLoop_run_iff

theorem carries_code : Link.code.Carries m frames ↔
    frames = (m.drop 1).map sentFrame ∧ Sendable (m.drop 1) := sendLoop_run_iff

/-! ## From the broker to the worker -/

/-- The request that is handed to a worker of the service, and the worker. -/
def Happening.givenTo (srv : Bytes) : Happening → Option (Worker × Zmsg)
  | .workerSend _ w command (some msg) =>
    if command = mdpwRequest ∧ w.mService = some srv then some (w, msg) else none
  | .workerSend _ _ _ none | .queued .. | .sent _ | .made _ | .replied _ | .deleted .. => none

/-- The requests of the service that have been handed out, and who got them. -/
def given (srv : Bytes) (t : Tables) : List (Worker × Zmsg) := t.log.filterMap (·.givenTo srv)

theorem map_given (srv : Bytes) (t : Tables) : (given srv t).map Prod.snd = handed srv t := by
  rw [given, handed, List.map_filterMap]
  refine List.filterMap_congr fun h _ => ?_
  rcases h with _ | ⟨wrk, w, command, _ | msg⟩ | _ | _ | _ | _
  · rfl
  · rfl
  · simp only [Happening.givenTo, Happening.requestTo]
    split_ifs <;> rfl
  all_goals rfl

/-- A request as it is passed to `send` for a worker whose identity it is. -/
theorem toWorker_request {id : RandomId} (hw : w.mIdentity = setId id) (msg : Zmsg) :
    toWorker w mdpwRequest (some msg) =
      w.mIdentity :: [] :: mdpwWorker :: mdpwRequest :: msg := by
  have hid : cStr w.mIdentity = w.mIdentity := by rw [hw, cStr_setId]
  conv_rhs => rw [← hid]
  rfl

/-- A worker that waits in `recv`. -/
structure Session where
  start : Mdwrk
  reply : Option Zmsg
  polls : List Poll
  now : Mdwrk
  waits : (Mdwrk.recv reply polls).run start = .ok none now

/-- The worker gets the message `out`, and `recv` returns `body`. -/
def Session.Gets (c : Session) (link : Link) (out body : Zmsg) (s' : Mdwrk) : Prop :=
  ∃ frames, link.Carries out (c.now.identity :: frames) ∧
    ∀ polls, (Mdwrk.recv c.reply (c.polls ++ .arrived frames :: polls)).run c.start =
      .ok (some body) s'

variable {c : Session} {link : Link} {body body' reply : Zmsg} {s' : Mdwrk}

/-- **What the worker gets**: each part as it arrives. -/
theorem gets_iff (hw : w.mIdentity = c.now.identity) :
    c.Gets link (toWorker w mdpwRequest (some (client :: [] :: body))) body' s' ↔
      link = .each ∧ Sendable (client :: body) ∧ body.map arrival = body' ∧
        s' = { c.now with
          mLiveness := heartbeatLiveness, mReplyTo := cStr (arrival client) } := by
  have hid : sentFrame c.now.identity = c.now.identity := sentFrame_setId _
  let parts : Zmsg := [] :: mdpwWorker :: mdpwRequest :: client :: [] :: body
  have hout : toWorker w mdpwRequest (some (client :: [] :: body)) = c.now.identity :: parts := by
    rw [toWorker_request hw, hw]
  rw [hout]
  cases link with
  | code =>
    refine iff_of_false ?_ (by simp)
    rintro ⟨frames, hc, -⟩
    exact setId_ne_nil c.now.randomId (List.cons.inj (carries_code.1 hc).1).1
  | each =>
    have hcarries : ∀ frames, Link.each.Carries (c.now.identity :: parts)
        (c.now.identity :: frames) ↔ frames = parts.map sentFrame ∧ Sendable (client :: body) := by
      intro frames
      have hsend : Sendable (c.now.identity :: parts) ↔ Sendable (client :: body) := by
        have hworker : ¬ Broken mdpwWorker := by decide
        have hrequest : ¬ Broken mdpwRequest := by decide
        simp [parts, not_broken_setId, Mdwrk.identity, hworker, hrequest]
      rw [carries_each, List.map_cons, hid, List.cons.injEq, and_iff_right rfl, hsend]
    have harrived : (parts.map sentFrame).map recvPart =
        [] :: mdpwWorker :: mdpwRequest :: arrival client :: [] :: body.map arrival := by
      simp only [parts, List.map_cons, List.map_map]
      rfl
    have hrun := Mdwrk.recv_request c.waits harrived (by rfl)
    constructor
    · rintro ⟨frames, hc, hr⟩
      obtain ⟨rfl, hs⟩ := (hcarries frames).1 hc
      have heq := (hrun []).symm.trans (hr [])
      simp only [EStateM.Result.ok.injEq, Option.some.injEq] at heq
      exact ⟨rfl, hs, heq.1, heq.2.symm⟩
    · rintro ⟨-, hs, rfl, rfl⟩
      exact ⟨_, (hcarries _).2 ⟨rfl, hs⟩, hrun⟩

/-! ## The way back -/

/-- The worker replies, and the frames of the message come to the broker. -/
def Brings (link : Link) (s' : Mdwrk) (reply : Zmsg) (frames : List Bytes) : Prop :=
  ∃ out, (∀ polls, ∃ l, ((Mdwrk.recv (some reply) polls).final s').sent = s'.sent ++ out :: l) ∧
    link.Carries out frames

theorem brings_iff (hne : s'.mReplyTo ≠ []) (h0 : 0 ∉ s'.mReplyTo) :
    Brings link s' reply frames ↔
      link.Carries ([] :: mdpwWorker :: mdpwReply :: s'.mReplyTo :: [] :: reply) frames := by
  have henv : Mdwrk.envelope mdpwReply [] (some (reply.wrap s'.mReplyTo (some []))) =
      [] :: mdpwWorker :: mdpwReply :: s'.mReplyTo :: [] :: reply := by
    conv_rhs => rw [← cStr_eq_self h0]
    rfl
  have hsends := Mdwrk.recv_sends hne reply
  rw [henv] at hsends
  constructor
  · rintro ⟨out, hout, hc⟩
    obtain ⟨l, hl⟩ := hout []
    obtain ⟨l', hl'⟩ := hsends []
    obtain ⟨rfl, -⟩ := List.cons.inj (List.append_cancel_left (hl.symm.trans hl'))
    exact hc
  · exact fun hc => ⟨_, hsends, hc⟩

namespace Broker

variable {s : Broker} {sv : Service} {w' : Worker} {sender empty header name : Bytes} {e : Round}

/-- The reply of a worker that is registered is passed on. -/
theorem receive_reply_run (hframes : frames.map recvPart =
      sender :: empty :: header :: command :: client :: [] :: reply)
    (hheader : cStr header = mdpwWorker) (hcommand : cStr command = mdpwReply)
    (hsender : cStr sender ≠ []) (hwrk : s.mWorkers (cStr sender) = some wrk)
    (hw : s.heap wrk = some w) (hs : w.mService = some srv) (hsv : s.mServices srv = some sv)
    (addr : Ptr) (junk : BitVec 64) : (receive frames addr junk).run s =
      (do
        send ((reply.wrap mdpcClient (some sv.mName)).wrap (cStr client) (some []))
        workerWaiting wrk).run { s with toTables := s.toTables.note (.replied wrk) } := by
  have hne : frames ≠ [] := by
    rintro rfl
    cases hframes
  have hlen : ¬ (cStr sender).length = 0 := by simpa using hsender
  have hparts : ¬ Zmsg.parts (command :: client :: [] :: reply) < 1 := by simp [parts]
  have hclient : ¬ cStr header = mdpcClient := by
    rw [hheader]
    decide
  have hready : ¬ mdpwReply = mdpwReady := by decide
  have hun : unwrapped ([] :: reply) = reply := rfl
  rw [receive, ofSocket_encode hne, hframes]
  simp only [popFront, pure_bind, if_neg hclient, if_pos hheader, workerProcess, if_neg hparts,
    hcommand, if_neg hready, if_true]
  simp only [EStateM.run_bind, EStateM.run_get, workerRequire, if_neg hlen, hwrk,
    EStateM.run_pure, Option.isSome_some, if_true, workerReplies, unwrap_cons, hun, deref, hw, hs,
    derefService, hsv, upd, EStateM.run_modify]

theorem send_opens (m : Zmsg) (s : Broker) : Opens (.sent m) s ((send m).final s) := by
  refine ⟨[], ?_⟩
  rw [send, upd, final_modify_bind, final_zoom]
  rfl

/-- The reply of a worker is noted, and then it is sent. -/
theorem code_answers (hf : e.frames = some frames) (hframes : frames.map recvPart =
      sender :: empty :: header :: command :: client :: [] :: reply)
    (hheader : cStr header = mdpwWorker) (hcommand : cStr command = mdpwReply)
    (hsender : cStr sender ≠ []) (hwrk : s.mWorkers (cStr sender) = some wrk)
    (hw : s.heap wrk = some w) (hs : w.mService = some srv) (hsv : s.mServices srv = some sv) :
    ∃ l, ((code e).final s).log = s.log ++ .replied wrk ::
      .sent ((reply.wrap mdpcClient (some sv.mName)).wrap (cStr client) (some [])) :: l := by
  let s₁ : Broker := { s with clock := e.clock }
  let s₂ : Broker := { s₁ with toTables := s.toTables.note (.replied wrk) }
  let out := (reply.wrap mdpcClient (some sv.mName)).wrap (cStr client) (some [])
  have hany : ∀ (t : Tables) h, Logs (fun _ => True) t (t.note h) := fun _ _ => .note trivial
  have hreceive : Opens (.sent out) s₂ ((receive frames e.addr e.junk).final s₁) := by
    have hrun := receive_reply_run (s := s₁) hframes hheader hcommand hsender hwrk hw hs hsv
      e.addr e.junk
    rw [run_eq_final hrun]
    exact Opens.bind (send_opens out s₂) fun _ => workerWaiting_keeps allows_true wrk
  obtain ⟨l, hl, -⟩ : OnTables (Logs fun _ => True) ((receive frames e.addr e.junk).final s₁)
      ((code e).final s) := by
    rw [code, final_modify_bind, hf]
    exact Keeps.after (fun _ => heartbeats_keeps hany allows_true) _ s₁
  obtain ⟨l', hl'⟩ := hreceive
  refine ⟨l' ++ l, ?_⟩
  rw [hl, hl']
  simp [s₂, out]

end Broker

variable {p q : Process Broker} {wrk : Ptr} {w' : Worker} {sender empty header name id : Bytes}
  {e : Round} {es es' : List Round} {now : ℤ}

/-- When the message comes in, the broker passes `out` to `send` for a client. -/
def SendsBack (q : Process Broker) (frames : List Bytes) (out : Zmsg) : Prop :=
  ∀ e : Round, e.frames = some frames → ∃ wrk l,
    (machine.next q e).st.log = q.st.log ++ .replied wrk :: .sent out :: l

/-- The worker is registered with the identity and works for the service. -/
structure Serving (t : Tables) (identity srv : Bytes) (wrk : Ptr) (w : Worker) : Prop where
  registered : t.mWorkers identity = some wrk
  alive : t.heap wrk = some w
  attached : w.mService = some srv

theorem sendsBack_iff (hi : Inv q.st.toTables) (hq : Serving q.st.toTables (cStr sender) srv wrk w)
    (hframes : frames.map recvPart =
      sender :: empty :: header :: command :: client :: [] :: reply)
    (hheader : cStr header = mdpwWorker) (hcommand : cStr command = mdpwReply)
    (hsender : cStr sender ≠ []) {out : Zmsg} :
    SendsBack q frames out ↔ out = cStr client :: [] :: mdpcClient :: cStr srv :: reply := by
  obtain ⟨sv, hsv⟩ := Option.isSome_iff_exists.1 (hi.attached wrk w srv hq.alive hq.attached)
  have hname : sv.mName = srv := (hi.listed srv sv hsv).1
  have hlog : ∀ e : Round, e.frames = some frames → ∃ l, (machine.next q e).st.log =
      q.st.log ++ .replied wrk ::
        .sent (cStr client :: [] :: mdpcClient :: cStr srv :: reply) :: l := by
    intro e he
    obtain ⟨l, hl⟩ := Broker.code_answers he hframes hheader hcommand hsender hq.registered hq.alive
      hq.attached hsv
    have hout : (reply.wrap mdpcClient (some sv.mName)).wrap (cStr client) (some []) =
        cStr client :: [] :: mdpcClient :: cStr srv :: reply := by
      rw [hname]
      conv_rhs => rw [← cStr_cStr client]
      rfl
    refine ⟨l, ?_⟩
    rw [show machine.next q e = Process.exec (code e) q from rfl, Process.st_exec, hl, hout]
  constructor
  · intro h
    let e : Round := ⟨some frames, fun _ => 0, 0, 0⟩
    obtain ⟨wrk', l, hl⟩ := h e rfl
    obtain ⟨l', hl'⟩ := hlog e rfl
    have heq := List.append_cancel_left (hl.symm.trans hl')
    simp only [List.cons.injEq, Happening.sent.injEq] at heq
    exact heq.2.1
  · rintro rfl e he
    exact ⟨wrk, hlog e he⟩

/-! ## Round trips -/

/-- The request that the worker `w` is given carries the client and the body,
    `recv` returns the body, and the broker answers the client with the reply. -/
structure RoundTrip (link : Link) (w : Worker) (msg : Zmsg) (c : Session) (q : Process Broker)
    (client srv : Bytes) (body reply : Zmsg) : Prop where
  request : toWorker w mdpwRequest (some msg) =
    w.mIdentity :: [] :: mdpwWorker :: mdpwRequest :: client :: [] :: body
  answer : ∃ s', c.Gets link (toWorker w mdpwRequest (some msg)) body s' ∧
    ∃ frames, Brings link s' reply frames ∧
      SendsBack q (s'.identity :: frames) (client :: [] :: mdpcClient :: srv :: reply)

/-- **Which messages make the round trip.** -/
theorem roundTrip_iff_carried (hi : Inv q.st.toTables) (hq : Serving q.st.toTables c.now.identity srv wrk w')
    (hw : w.mIdentity = c.now.identity) (hclient : client ≠ []) (hsrv : cStr srv = srv) :
    RoundTrip link w (cStr client :: [] :: body) c q client srv body reply ↔
      link = .each ∧ 0 ∉ client ∧ Carried client ∧ (∀ part ∈ body, Carried part) ∧
        ∀ part ∈ reply, Carried part := by
  by_cases h0 : 0 ∈ client
  · refine iff_of_false (fun h => ?_) fun h => h.2.1 h0
    have hreq := h.request
    rw [toWorker_request hw] at hreq
    simp only [List.cons.injEq, true_and, and_true] at hreq
    rw [← hreq] at h0
    exact zero_notMem_cStr client h0
  rw [cStr_eq_self h0]
  obtain ⟨harr0, harr⟩ := carried_arrival h0
  have hne : arrival client ≠ [] := mt arrival_eq_nil.1 hclient
  let s' : Mdwrk := { c.now with mLiveness := heartbeatLiveness, mReplyTo := arrival client }
  have hback : ∀ frames, Brings .each s' reply frames ↔
      frames = ([] :: mdpwWorker :: mdpwReply :: arrival client :: [] :: reply).map sentFrame ∧
        Sendable reply := by
    intro frames
    have hsend : Sendable ([] :: mdpwWorker :: mdpwReply :: arrival client :: [] :: reply) ↔
        Sendable reply := by
      have hworker : ¬ Broken mdpwWorker := by decide
      have hreply : ¬ Broken mdpwReply := by decide
      simp [hworker, hreply, harr.1]
    rw [brings_iff hne harr0, carries_each, hsend]
  have hsends : ∀ out, SendsBack q (s'.identity ::
      ([] :: mdpwWorker :: mdpwReply :: arrival client :: [] :: reply).map sentFrame) out ↔
        out = arrival client :: [] :: mdpcClient :: srv :: reply.map arrival := by
    intro out
    have hid : cStr s'.identity = c.now.identity := cStr_setId _
    have hframes : (s'.identity :: ([] :: mdpwWorker :: mdpwReply :: arrival client :: [] ::
        reply).map sentFrame).map recvPart = s'.identity :: [] :: mdpwWorker :: mdpwReply ::
          arrival (arrival client) :: [] :: reply.map arrival := by
      rw [List.map_cons, show recvPart s'.identity = s'.identity from recvPart_setId _]
      simp only [List.map_cons, List.map_map]
      rfl
    rw [sendsBack_iff hi (hid.symm ▸ hq) hframes rfl rfl (by rw [hid]; exact setId_ne_nil _),
      harr.2, cStr_eq_self harr0, hsrv]
  constructor
  · rintro ⟨-, s'', hgets, frames, hbrings, hanswer⟩
    obtain ⟨rfl, hs, hbody, rfl⟩ := (gets_iff hw).1 hgets
    rw [cStr_eq_self harr0] at hbrings hanswer
    obtain ⟨rfl, hsr⟩ := (hback frames).1 hbrings
    have hout := (hsends _).1 hanswer
    simp only [List.cons.injEq, true_and] at hout
    rw [sendable_cons] at hs
    refine ⟨rfl, h0, ⟨hs.1, hout.1.symm⟩, carried_parts.1 ⟨hbody, hs.2⟩, ?_⟩
    exact carried_parts.1 ⟨hout.2.symm, hsr⟩
  · rintro ⟨rfl, -, hc, hbody, hreply⟩
    obtain ⟨hmap, hs⟩ := carried_parts.2 hbody
    obtain ⟨hmapr, hsr⟩ := carried_parts.2 hreply
    refine ⟨toWorker_request hw _, s', ?_, _, (hback _).2 ⟨rfl, hsr⟩, ?_⟩
    · refine (gets_iff hw).2 ⟨rfl, sendable_cons.2 ⟨hc.1, hs⟩, hmap, ?_⟩
      rw [cStr_eq_self harr0]
    · rw [hsends, hc.2, hmapr]

/-! ## Requests in runs -/

/-- The round queues a request for the service. -/
def Accepts (p : Process Broker) (e : Round) (srv : Bytes) : Prop :=
  ∃ msg, queued srv (machine.next p e).st.toTables = queued srv p.st.toTables ++ [msg]

section
variable (hf : e.frames = some (id :: empty :: header :: name :: body))
  (hheader : cStr (recvPart header) = mdpcClient) (hname : srv = cStr (recvPart name))
include hf hheader hname

theorem requestFor_client : e.requestFor srv =
    if srv ≠ [] ∧ body ≠ [] ∧ ¬ Broker.Reserved srv then
      some (cStr (recvPart id) :: [] :: body.map recvPart)
    else none := by
  have hbody : body.map recvPart ≠ [] ↔ body ≠ [] := not_congr List.map_eq_nil_iff
  simp only [Round.requestFor, hf, Option.bind_some, clientRequest, List.map_cons, hheader, ← hname,
    hbody, true_and]
  split_ifs with h
  · simp
  · rfl

theorem accepts_iff (hl : Live p) (he : machine.can p e) :
    Accepts p e srv ↔ srv ≠ [] ∧ body ≠ [] ∧ ¬ Broker.Reserved srv := by
  rw [Accepts, (hl.enters he srv).logged, requestFor_client hf hheader hname]
  split_ifs with h
  · exact iff_of_true ⟨_, rfl⟩ h
  · exact iff_of_false (by simp) h

end

/-- The request that has been handed out when its turn came. -/
theorem given_request (hc : machine.Can (init now) (es ++ e :: es'))
    (hr : e.requestFor srv = some m)
    (hgiven : (given srv (machine.run (init now) (es ++ e :: es')).st.toTables)[(queued srv
      (machine.run (init now) es).st.toTables).length]? = some (w, msg)) : msg = m := by
  obtain ⟨hall, hq, -⟩ := requests_run hc srv
  obtain ⟨-, hq', -⟩ := requests_run (Machine.all_append.1 hc).1 srv
  have hhanded := congrArg (Option.map Prod.snd) hgiven
  rw [← List.getElem?_map, map_given, Option.map_some] at hhanded
  obtain ⟨hlt, -⟩ := List.getElem?_eq_some_iff.1 hhanded
  rw [← List.getElem?_append_left hlt, hall, hq, hq', List.filterMap_append,
    List.getElem?_append_right le_rfl, Nat.sub_self, List.filterMap_cons_some hr] at hhanded
  exact (Option.some.inj hhanded).symm

/-- **The requests that make the round trip.**  The round `e` brings a request
    of the client `id`, and the worker of the session `c` is given it if it is
    queued. -/
theorem round_trip_iff (hc : machine.Can (init now) (es ++ e :: es'))
    (hp : p = machine.run (init now) es) (hq : q = machine.run (init now) (es ++ e :: es'))
    (hf : e.frames = some (id :: empty :: header :: name :: body))
    (hheader : cStr (recvPart header) = mdpcClient) (hid : id ≠ [])
    (hname : srv = cStr (recvPart name))
    (hgiven : Accepts p e srv →
      (given srv q.st.toTables)[(queued srv p.st.toTables).length]? = some (w, msg))
    (hw : w.mIdentity = c.now.identity)
    (hserving : Serving q.st.toTables c.now.identity srv wrk w') :
    Accepts p e srv ∧ RoundTrip link w msg c q (recvPart id) srv (body.map recvPart) reply ↔
      link = .each ∧ (srv ≠ [] ∧ body ≠ [] ∧ ¬ Broker.Reserved srv) ∧ (Binary id ∨ 0 ∉ id) ∧
        (∀ frame ∈ id :: body, Canonical frame) ∧
        ∀ part ∈ reply, Canonical part ∧ ¬ Binary part := by
  subst hp hq
  have hcan := Machine.all_append.1 hc
  have hacc := accepts_iff hf hheader hname (live_run hcan.1) hcan.2.1
  have hsrv : cStr srv = srv := by rw [hname, cStr_cStr]
  have hbody : (∀ part ∈ body.map recvPart, Carried part) ↔ ∀ frame ∈ body, Canonical frame :=
    List.forall_mem_map.trans (forall₂_congr fun _ _ => carried_recvPart)
  have hreply : (∀ part ∈ reply, Carried part) ↔ ∀ part ∈ reply, Canonical part ∧ ¬ Binary part :=
    forall₂_congr fun _ _ => carried_iff
  have htrip : Accepts (machine.run (init now) es) e srv →
      (RoundTrip link w msg c (machine.run (init now) (es ++ e :: es')) (recvPart id) srv
          (body.map recvPart) reply ↔
        link = .each ∧ (Binary id ∨ 0 ∉ id) ∧ Canonical id ∧ (∀ frame ∈ body, Canonical frame) ∧
          ∀ part ∈ reply, Canonical part ∧ ¬ Binary part) := by
    intro ha
    have hr : e.requestFor srv = some (cStr (recvPart id) :: [] :: body.map recvPart) := by
      rw [requestFor_client hf hheader hname, if_pos (hacc.1 ha)]
    rw [given_request hc hr (hgiven ha), roundTrip_iff_carried (live_run hc).inv hserving hw
      (mt recvPart_eq_nil.1 hid) hsrv, zero_notMem_recvPart, carried_recvPart, hbody, hreply]
  rw [and_congr_right htrip, hacc, List.forall_mem_cons]
  constructor
  · rintro ⟨hq, hlink, h0, hcid, hcbody, hcreply⟩
    exact ⟨hlink, hq, h0, ⟨hcid, hcbody⟩, hcreply⟩
  · rintro ⟨hlink, hq, h0, ⟨hcid, hcbody⟩, hcreply⟩
    exact ⟨hq, hlink, h0, hcid, hcbody, hcreply⟩

/-- A worker that waits for its first request. -/
def Session.first (service : Bytes) (randomId : RandomId) : Session where
  start := ⟨service, randomId, 2500, heartbeatLiveness, 2500, false, [], fun _ => 0,
    fun _ => randomId, [], []⟩
  reply := none
  polls := []
  now := ⟨service, randomId, 2500, heartbeatLiveness, 2500, true, [], fun _ => 0,
    fun _ => randomId, [], []⟩
  waits := rfl

/-- A client asks for the service 2, of which a worker waits. -/
theorem round_trip_iff_ready :
    let worker := setId (0, 0)
    let p := machine.run (init 0) [.ready worker [2] 7]
    let q := machine.run (init 0) [.ready worker [2] 7, .request (lit ['C', '1']) [2] [4] 8]
    Accepts p (.request (lit ['C', '1']) [2] [4] 8) [2] ∧
      RoundTrip .each ⟨worker, some [2], 7500⟩ [lit ['C', '1'], [], [4]] (.first [2] (0, 0)) q
        (recvPart (lit ['C', '1'])) [2] ([[4]].map recvPart) [[5]] := by
  intro worker p q
  let e : Round := .request (lit ['C', '1']) [2] [4] 8
  have hc : machine.Can (init 0) ([.ready worker [2] 7] ++ e :: []) := by decide
  have hgiven : (given [2] q.st.toTables)[(queued [2] p.st.toTables).length]? =
      some (⟨worker, some [2], 7500⟩, [lit ['C', '1'], [], [4]]) := by decide
  have hserving : Serving q.st.toTables worker [2] 7 ⟨worker, some [2], 7500⟩ :=
    ⟨by decide, by decide, rfl⟩
  exact (round_trip_iff (p := p) (q := q) (c := .first [2] (0, 0)) hc rfl rfl rfl rfl (by decide)
    rfl (fun _ => hgiven) rfl hserving).2 (by decide)

/-- The address of a client whose socket has no identity of its own is lost. -/
theorem round_trip_forgets : ¬ ∀ (es : List Round) (id service frame part : Bytes) (addr : Ptr)
    (w w' : Worker) (wrk : Ptr) (msg : Zmsg) (c : Session),
    let e := Round.request id service frame addr
    let p := machine.run (init 0) es
    let q := machine.run (init 0) (es ++ [e])
    machine.Can (init 0) (es ++ [e]) → id ≠ [] → Accepts p e service →
      (given service q.st.toTables)[(queued service p.st.toTables).length]? = some (w, msg) →
      w.mIdentity = c.now.identity → Serving q.st.toTables c.now.identity service wrk w' →
      RoundTrip .each w msg c q (recvPart id) service [recvPart frame] [part] := by
  intro h
  let worker := setId (0, 0)
  have htrip := h [.ready worker [2] 7] [0, 1, 2, 3, 4] [2] [4] [5] 8 ⟨worker, some [2], 7500⟩
    ⟨worker, some [2], 7500⟩ 7 [[], [], [4]] (.first [2] (0, 0)) (by decide) (by decide)
    ⟨[[], [], [4]], by decide⟩ (by decide) rfl ⟨by decide, by decide, rfl⟩
  exact absurd htrip.request (by decide)

end ProxyBroker.Majordomo
