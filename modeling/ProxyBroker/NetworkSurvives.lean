/-
  Runs of the network in which no process ends.

  Broker, clients and workers end by an assertion or an exception when a message
  is not what they take for granted.

  * `Call.Proper`, `Programs.Proper`: what the programs owe.
  * `Sane.returns`: the broker survives what such programs send.
  * `nobody_halts`: then no process ends, whatever happens in which order.
-/
import ProxyBroker.MajordomoSurvives
import ProxyBroker.NetworkCalls

namespace ProxyBroker.Majordomo

open Proc Zmsg

variable {ι κ : Type}

/-! ## Proper programs -/

/-- A message with a body that can be sent. -/
def Fit (m : Zmsg) : Prop := m ≠ [] ∧ Sendable m

/-- What `mdcli::send` may be called with. -/
structure Call.Proper (call : Call) : Prop where
  named : cStr call.service ≠ []
  /-- the reply has the name as it has arrived at the broker, twice -/
  carried : arrival (cStr call.service) = cStr call.service
  /-- the broker ends if it is asked for a service that it does not know -/
  notMmi : cStr call.service ≠ mmiService
  fit : Fit call.request

/-- The services of the workers have names, and to a request with a body they
    give a reply with one. -/
structure Programs.Proper (pr : Programs κ) : Prop where
  named : ∀ k, cStr (pr.service k) ≠ []
  replies : ∀ k request reply, Fit request → pr.serve k request reply → Fit reply

/-- A message that looks like one of a client is a proper request. -/
def Fair (m : Zmsg) : Prop :=
  ∀ msg, m = [] :: mdpcClient :: msg → ∃ call : Call, call.Proper ∧ m = [] :: call.message

/-! ## Messages that can be sent -/

/-- What has arrived can be sent. -/
theorem sendable_of_arrival {m : Zmsg} (h : m.map arrival = m) : Sendable m := by
  intro part hpart
  rw [← h] at hpart
  obtain ⟨frame, -, rfl⟩ := List.mem_map.1 hpart
  exact (carried_recvPart.2 canonical_sentFrame).1

theorem not_broken_literals : ¬ Broken mdpcClient ∧ ¬ Broken mdpwWorker := by decide

theorem sendable_statuses (name : Bytes) : Sendable (Broker.statuses name) := by
  rw [Broker.statuses]
  split_ifs <;> decide

theorem Call.Proper.sendable {call : Call} (h : call.Proper) : Sendable call.message := by
  have hdrop : call.message = mdpcClient :: call.message.drop 1 := rfl
  rw [hdrop, sendable_cons]
  exact ⟨not_broken_literals.1, Mdcli.sendable_envelope.2 h.fit.2⟩

theorem Call.Proper.fair {call : Call} (h : call.Proper) : Fair ([] :: call.message) :=
  fun _ _ => ⟨call, h, rfl⟩

theorem Call.Proper.brokerName {call : Call} (h : call.Proper) :
    brokerName call.service = cStr call.service := by
  rw [Majordomo.brokerName, h.carried, cStr_cStr]

/-- A message of a worker does not look like one of a client. -/
theorem fair_worker (rest : Zmsg) : Fair ([] :: mdpwWorker :: rest) := by
  intro msg hm
  have hheader : mdpwWorker = mdpcClient := (List.cons.inj (List.cons.inj hm).2).1
  exact absurd hheader (by decide)

theorem Registers.sendable {service : Bytes} {m : Zmsg} (h : Mdwrk.Registers service m) :
    Sendable m := by
  cases h with
  | ready =>
    simp only [Mdwrk.envelope]
    split_ifs <;> simp [pushFront]
  | heartbeat => decide

theorem Registers.fair {service : Bytes} {m : Zmsg} (h : Mdwrk.Registers service m) : Fair m := by
  cases h with
  | ready | heartbeat => exact fair_worker _

/-! ## The broker -/

/-- The broker survives a proper request. -/
theorem Call.Proper.returns {call : Call} (h : call.Proper) (s : Broker) :
    Broker.ClientReturns s (arrival (cStr call.service) :: call.request.map arrival) := by
  have hsend : Sendable (call.request.map arrival) :=
    sendable_of_arrival (Network.map_arrival_arrival call.request)
  have hname : cStr (arrival (cStr call.service)) = cStr call.service := h.brokerName
  refine ⟨by rw [hname]; exact h.named, by simpa using h.fit.1, ?_⟩
  rw [hname]
  split_ifs
  · exact ⟨fun hmmi => absurd hmmi h.notMmi,
      fun part hpart => hsend part (List.dropLast_subset _ hpart)⟩
  · exact fun _ _ _ => hsend

namespace Network

variable {pr : Programs κ} {n n' : Network ι κ} {id : Bytes}

/-- The requests that the broker holds can be sent. -/
theorem Sane.sendable_held (h : Sane pr n) {r : Bytes × Zmsg} (hr : Held n.owner r) :
    Sendable r.2 := by
  obtain ⟨-, client, body, hbody, -, hclient, harrival⟩ := hr
  obtain ⟨id, rfl⟩ := h.client_setId hclient
  rw [hbody]
  simpa [not_broken_setId] using sendable_of_arrival harrival

/-- A worker that begins to wait can be given what there is. -/
theorem Sane.serves (h : Sane pr n) (e : Round) (srv : Bytes) :
    Broker.Serves (Broker.opening n.broker.st e) srv := by
  intro _ sv hsv msg hmsg
  have hmem : msg ∈ sv.mRequests := List.mem_of_mem_head? hmsg
  exact h.sendable_held (h.held _ (h.sound.requests_pending hsv hmem))

/-- The broker survives what a worker sends. -/
theorem Sane.worker_returns (h : Sane pr n) (hpr : pr.Proper)
    (hposted : Staff Posted n.broker.st.toTables) (e : Round) {parts : Zmsg} {k : κ}
    (hk : n.owner id = some (.inr k)) (ha : Arrives pr n.owner id parts) :
    ∃ msg, parts = id :: [] :: mdpwWorker :: msg ∧
      Broker.WorkerReturns (Broker.opening n.broker.st e) id msg ∧
      ∀ command ∈ msg.head?, cStr command ∈ Commands := by
  have hid : id ≠ [] := by
    obtain ⟨r, rfl⟩ := h.owned _ _ hk
    exact setId_ne_nil r
  have hreply : ¬ cStr mdpwReady = mdpwReply := by decide
  have hready : ¬ cStr mdpwReply = mdpwReady := by decide
  cases ha with
  | request hi call => exact absurd (hk.symm.trans hi) (by simp)
  | @ready k' hk' rest hrest hname =>
    refine ⟨mdpwReady :: rest, rfl, ⟨hid, fun _ _ _ => ?_, fun he => absurd he hreply⟩, ?_⟩
    · have hservice : pr.service k' ≠ [] := fun hs => hpr.named k' (by rw [hs]; rfl)
      obtain ⟨part, rest, rfl⟩ := List.exists_cons_of_ne_nil (hname hservice)
      obtain rfl := hrest part List.mem_cons_self
      obtain ⟨h0, -⟩ := carried_arrival (zero_notMem_cStr (pr.service k'))
      refine ⟨_, rfl, ?_, h.serves e _⟩
      rw [cStr_eq_self h0]
      exact mt arrival_eq_nil.1 (hpr.named k')
    · rintro command ⟨⟩
      decide
  | heartbeat hk' =>
    refine ⟨[mdpwHeartbeat], rfl, ⟨hid, fun he => absurd he (by decide),
      fun he => absurd he (by decide)⟩, ?_⟩
    rintro command ⟨⟩
    decide
  | @reply k' hk' client hc reply =>
    refine ⟨mdpwReply :: client :: [] :: reply.map arrival, rfl,
      ⟨hid, fun he => absurd he hready, fun _ wrk hwrk => ⟨List.cons_ne_nil _ _, ?_⟩⟩, ?_⟩
    · obtain ⟨w, hw, -⟩ := h.sound.live.inv.alive _ _ hwrk
      obtain ⟨srv, hs⟩ := Option.ne_none_iff_exists'.1 (hposted wrk w hw)
      exact ⟨w, srv, hw, hs, sendable_of_arrival (map_arrival_arrival reply), h.serves e srv⟩
    · rintro command ⟨⟩
      decide

/-- **The broker survives the messages that there are.** -/
theorem Sane.returns (h : Sane pr n) (hpr : pr.Proper)
    (hposted : Staff Posted n.broker.st.toTables) {m : Mail} (hm : m ∈ n.up) (hfair : Fair m.2)
    (e : Round) :
    Broker.Returns (Broker.opening n.broker.st e) (m.1 :: wire m.2) ∧
      Broker.Obeys (received m) := by
  have hid := h.cStr_up hm
  have hclient : cStr mdpcClient = mdpcClient := by decide
  have hworker : cStr mdpwWorker = mdpwWorker := by decide
  have hne : mdpwWorker ≠ mdpcClient := by decide
  obtain ⟨o, ho, hspoken⟩ := h.up m hm
  rcases o with i | k
  · obtain ⟨id, msg⟩ := m
    obtain ⟨call₀, rfl⟩ : ∃ call : Call, msg = [] :: call.message := hspoken
    obtain ⟨call, hcall, heq⟩ :
        ∃ call : Call, call.Proper ∧ [] :: call₀.message = [] :: call.message := hfair _ rfl
    obtain ⟨r, rfl⟩ := h.owned _ _ ho
    have hparts : received (setId r, [] :: call₀.message) = setId r :: [] :: mdpcClient ::
        arrival (cStr call.service) :: call.request.map arrival := by
      rw [heq, received_setId]
      rfl
    rw [Broker.Returns, ← received, hparts]
    refine ⟨?_, ?_⟩
    · dsimp only
      rw [if_pos hclient]
      exact hcall.returns _
    · intro sender empty header command rest hrest hheader
      simp only [List.cons.injEq] at hrest
      obtain ⟨-, -, rfl, -⟩ := hrest
      exact absurd (hheader.symm.trans hclient) hne
  · obtain ⟨msg, hparts, hreturns, hcommand⟩ :=
      h.worker_returns hpr hposted e ho (h.arrives hm)
    rw [Broker.Returns, ← received, hparts]
    refine ⟨?_, ?_⟩
    · dsimp only
      rw [hworker, if_neg hne, if_pos rfl, hid]
      exact hreturns
    · intro sender empty header command rest hrest hheader
      simp only [List.cons.injEq] at hrest
      obtain ⟨-, -, rfl, rfl⟩ := hrest
      exact hcommand command rfl

/-- What the broker sends can be sent. -/
theorem Sane.sends (h : Sane pr n) {mail : Option Mail} (hmail : ∀ m ∈ mail, m ∈ n.up)
    {out : Option Zmsg} {told : List (Worker × Bytes × Option Zmsg)}
    (hp : Passes pr n mail n' out told) : ∀ m ∈ out.toList ++ told.map telling, Sendable m := by
  intro m hm
  rcases List.mem_append.1 hm with hm | hm
  · obtain ⟨x, hx, hanswer⟩ := hp.answer m (Option.mem_toList.1 hm)
    have hgives := h.gives (hmail x hx) hanswer
    generalize received x = parts at hgives
    cases hgives with
    | @internal id hc part status body hname harrival hstatus =>
      obtain ⟨r, rfl⟩ := h.client_setId hc
      have hbody := sendable_of_arrival harrival
      have hall : Sendable (body.dropLast ++ [status]) := by
        intro p hp
        rcases List.mem_append.1 hp with hp | hp
        · exact hbody p (List.dropLast_subset _ hp)
        · obtain rfl := List.mem_singleton.1 hp
          exact sendable_statuses _ p hstatus
      simpa [Broker.toClient, not_broken_setId, not_broken_literals.1] using hall
    | @reply id client k hk hc reply harrival =>
      obtain ⟨r, rfl⟩ := h.client_setId hc
      simpa [Broker.toClient, not_broken_setId, not_broken_literals.1, brokerName] using
        sendable_of_arrival harrival
  · obtain ⟨x, hx, rfl⟩ := List.mem_map.1 hm
    obtain ⟨hhired, hcommand, hsome⟩ := hp.told x hx
    obtain ⟨w, command, msg⟩ := x
    have hmsg : Sendable (msg.getD []) := by
      cases hcommand with
      | heartbeat | disconnect => exact sendable_nil
      | request msg =>
        obtain ⟨r, hr⟩ := Option.isSome_iff_exists.1 (hsome rfl)
        obtain ⟨-, -, hmsg⟩ := handing_eq_some.1 hr
        obtain rfl : msg = r.2 := Option.some.inj hmsg
        exact h.sendable_held (h.handed hmail hp (List.mem_filterMap.2 ⟨_, hx, hr⟩))
    simpa [telling, Broker.toWorker, wrap, pushFront] using hmsg

/-! ## Steps -/

/-- No process has ended, and what clients ask for is proper. -/
structure Lively (n : Network ι κ) : Prop where
  broker : n.broker.halted = none
  posted : Staff Posted n.broker.st.toTables
  client : ∀ i c, n.clients i = some c → c.halted = none ∧ ∀ x ∈ c.call, x.1.Proper
  worker : ∀ k w, n.workers k = some w → w.halted = none
  fair : ∀ m ∈ n.up, Fair m.2

theorem init_lively (now : ℤ) : Lively (init now : Network ι κ) where
  broker := rfl
  posted _ _ h := by cases h
  client _ _ h := by cases h
  worker _ _ h := by cases h
  fair _ h := absurd h (Multiset.notMem_zero _)

/-- Messages are taken or lost. -/
theorem Lively.fewer (h : Lively n) {up down : Multiset Mail} (hup : up ≤ n.up) :
    Lively { n with up, down } where
  broker := h.broker
  posted := h.posted
  client := h.client
  worker := h.worker
  fair m hm := h.fair m (Multiset.mem_of_le hup hm)

theorem Lively.takes (h : Lively n) (id : Bytes) (mail : Option Zmsg) : Lively (n.takes id mail) :=
  h.fewer le_rfl

variable {i : ι} {k : κ} {c c' : ClientProgram} {w w' : WorkerProgram} {l : List Zmsg}

/-- What has been sent could be sent. -/
theorem ended_each {sent sent' : List Zmsg} (hsent : sent' = sent ++ l)
    (hl : ∀ m ∈ l, Sendable m) : Link.each.ended (sent'.drop sent.length) none = none := by
  rw [Link.ended_eq_none, hsent, List.drop_left]
  exact ⟨hl, rfl⟩

theorem Lively.clientNext [DecidableEq ι] (h : Lively n) (hc : c'.halted = none)
    (hcall : ∀ x ∈ c'.call, x.1.Proper) (hsent : c'.session.sent = c.session.sent ++ l)
    (hl : ∀ m ∈ l, ∃ call : Call, call.Proper ∧ m = call.message) :
    Lively (n.clientNext .each i c c') where
  broker := h.broker
  posted := h.posted
  client j c₀ hj := by
    rcases eq_or_ne j i with rfl | hne
    · obtain rfl : _ = c₀ := by simpa [Network.clientNext] using hj
      refine ⟨?_, hcall⟩
      dsimp only
      rw [hc]
      refine ended_each hsent fun m hm => ?_
      obtain ⟨call, hproper, rfl⟩ := hl m hm
      exact hproper.sendable
    · exact h.client j c₀ (by simpa [Network.clientNext, hne] using hj)
  worker := h.worker
  fair m hm := by
    rcases Multiset.mem_add.1 hm with hm | hm
    · exact h.fair m hm
    · obtain ⟨x, hx, rfl⟩ := List.mem_map.1 (Multiset.mem_coe.1 hm)
      have hmem : x ∈ l := by simpa [hsent] using (passed_sublist _).subset hx
      obtain ⟨call, hproper, rfl⟩ := hl x hmem
      exact hproper.fair

/-- A client whose call is proper does not end. -/
theorem Lively.client_goes [DecidableEq ι] (h : Lively n) {call : Call} (hproper : call.Proper)
    {r : RandomId} (hc : c.halted = none) (hg : ClientProgram.Goes call r c c') :
    Lively (n.clientNext .each i c c') := by
  cases hg with
  | sends s left hreq hid hsent hc' =>
    subst hc'
    refine h.clientNext hc ?_ hsent ?_
    · rintro x ⟨⟩
      exact hproper
    · intro m hm
      exact ⟨call, hproper, List.mem_singleton.1 hm⟩
  | fails s halt hreq hid hsent hc' => exact absurd hproper.fit.2 hreq
  | quits hc' =>
    subst hc'
    exact h.clientNext (l := []) hc (by simp [ClientProgram.ends]) (by simp [ClientProgram.ends])
      (by simp)

theorem Lively.workerNext [DecidableEq κ] (h : Lively n) (hw : w'.halted = none)
    (hsent : w'.session.sent = w.session.sent ++ l) (hl : ∀ m ∈ l, Sendable m ∧ Fair m) :
    Lively (n.workerNext .each k w w') where
  broker := h.broker
  posted := h.posted
  client := h.client
  worker j w₀ hj := by
    rcases eq_or_ne j k with rfl | hne
    · obtain rfl : _ = w₀ := by simpa [Network.workerNext] using hj
      dsimp only
      rw [hw]
      exact ended_each hsent fun m hm => (hl m hm).1
    · exact h.worker j w₀ (by simpa [Network.workerNext, hne] using hj)
  fair m hm := by
    rcases Multiset.mem_add.1 hm with hm | hm
    · exact h.fair m hm
    · obtain ⟨x, hx, rfl⟩ := List.mem_map.1 (Multiset.mem_coe.1 hm)
      have hmem : x ∈ l := by simpa [hsent] using (passed_sublist _).subset hx
      exact (hl x hmem).2

/-- A worker that has talked of itself has not ended. -/
theorem Lively.worker_talks [DecidableEq κ] (h : Lively n) (hw : w.halted = none) {r : RandomId}
    {s : Mdwrk} (hids : ∀ j, w.session.ids j = r) (ht : Mdwrk.Talks r w.session s) :
    Lively (n.workerNext .each k w (w.waits s)) := by
  obtain ⟨-, -, -, l, hl, hall⟩ := ht hids
  exact h.workerNext hw hl fun m hm => ⟨Registers.sendable (hall m hm), Registers.fair (hall m hm)⟩

theorem Lively.broker_next (h : Lively n) (hs : Sane pr n) (hpr : pr.Proper) {mail : Option Mail}
    {e : Round} (hf : e.frames = mail.map fun m => m.1 :: wire m.2) (hmail : ∀ m ∈ mail, m ∈ n.up)
    (he : machine.can n.broker e) : Lively (n.brokerNext .each mail e) := by
  obtain ⟨out, told, hp⟩ := hs.passes _ hf hmail he
  have hreturns : ∀ frames ∈ e.frames, Broker.Returns (Broker.opening n.broker.st e) frames ∧
      Broker.Obeys (frames.map recvPart) := by
    intro frames hframes
    obtain ⟨m, hm, rfl⟩ := Option.map_eq_some_iff.1 (hf ▸ hframes)
    exact hs.returns hpr h.posted (hmail m hm) (h.fair m (hmail m hm)) e
  obtain ⟨hhalted, hposted⟩ := Broker.code_survives hs.sound.live h.posted he hreturns
  refine ⟨?_, hposted, h.client, h.worker, fun m hm => ?_⟩
  · exact Link.ended_eq_none.2 ⟨fun m hm => hs.sends hmail hp m (hp.sends m hm), hhalted⟩
  · exact h.fair m (Multiset.mem_of_le tsub_le_self hm)

/-! ## Runs -/

/-- What a worker may reply. -/
def Replied (pr : Programs κ) (q : Question) (r : Zmsg) : Prop :=
  ∃ k reply, pr.serve k q.2 reply ∧ r = reply.map arrival

/-- The answer to a proper call has a body. -/
theorem Answers.ne_nil (hpr : pr.Proper) {call : Call} (hcall : call.Proper) {r : Zmsg}
    (ha : Answers (Replied pr call.question) call.question r) : r ≠ [] := by
  rw [Answers] at ha
  split_ifs at ha
  · obtain ⟨status, -, rfl⟩ := ha
    exact List.append_ne_nil_of_right_ne_nil _ (List.cons_ne_nil _ _)
  · obtain ⟨k, reply, hserve, rfl⟩ := ha
    have hrequest : Fit (call.request.map arrival) :=
      ⟨by simpa using hcall.fit.1, sendable_of_arrival (map_arrival_arrival call.request)⟩
    simpa using (hpr.replies k _ _ hrequest hserve).1

/-- An answer to a proper call is taken for a reply. -/
theorem Answers.reply (hpr : pr.Proper) {call : Call} (hcall : call.Proper) {reply : Zmsg}
    (ha : Answers (Replied pr call.question) call.question (reply.map arrival)) :
    Mdcli.Reply call.service
      ((mdpcClient :: brokerName call.service :: reply).map arrival) := by
  have hname : arrival (brokerName call.service) = cStr call.service := by
    rw [hcall.brokerName, hcall.carried]
  have hclient : arrival mdpcClient = mdpcClient := by decide
  have hreply := Answers.ne_nil hpr hcall ha
  rw [List.map_cons, List.map_cons, hname, hclient]
  refine ⟨?_, _, rfl⟩
  have hpos := List.length_pos_iff.2 hreply
  simp only [List.length_cons, List.length_map] at hpos ⊢
  omega

variable [DecidableEq ι] [DecidableEq κ] [Fintype κ] {e : NetworkEv ι κ}
  {es : List (NetworkEv ι κ)} {now : ℤ}

omit [Fintype κ] in
theorem Served.replied {i : ι} {before : List (Call × Option Zmsg)} {q : Question} {r : Zmsg}
    (h : Served pr now es i before q r) : Replied pr q r := by
  obtain ⟨-, k, reply, -, -, hserve, hr⟩ := h
  exact ⟨k, reply, hserve, hr⟩

theorem Lively.step (h : Lively n) (hf : Faithful pr now es n) (hpr : pr.Proper)
    (hproper : e.Calls Call.Proper) (he : (system .each pr).can n e) (hs : Stops n e) :
    Lively ((system .each pr).next n e) := by
  cases e with
  | broker mail clock addr junk =>
    obtain ⟨hmail, hround⟩ := he
    exact h.broker_next hf.sane hpr rfl hmail hround
  | clientStarts i id retries =>
    exact h.clientNext (c := (clientInit id retries).1) (l := []) rfl (by rintro x ⟨⟩) rfl (by simp)
  | clientCalls i call =>
    obtain ⟨c, hc, hhalted, hcall⟩ := he
    have hidle : c.calling = .idle := ClientProgram.calling_idle hhalted hcall (hs c hc)
    simp only [system, next, Option.mem_def.1 hc]
    exact h.client_goes hproper hhalted (ClientProgram.run_begins (hf.ready i c hc hidle) call)
  | clientPolls i mail id =>
    obtain ⟨c, hc, hhalted, hcall, hmail, hid⟩ := he
    obtain ⟨⟨call, left⟩, hcall⟩ := Option.ne_none_iff_exists'.1 hcall
    have hcallProper : call.Proper := (h.client i c hc).2 _ hcall
    simp only [system, next, Option.mem_def.1 hc, hcall]
    let c₀ : ClientProgram := { c with
      session := { c.session with ids := fun _ => id }
      call := some (call, left) }
    have htakes := h.takes c₀.session.identity (mail.map ([] :: ·))
    rcases mail with _ | m
    · exact htakes.client_goes hcallProper hhalted (c₀.run_nothing call left)
    · obtain ⟨reply, rfl, hanswers⟩ := hf.replies hc hhalted hcall (hmail m rfl)
      rw [ClientProgram.run_arrived, if_neg (List.cons_ne_nil _ _),
        if_pos (Answers.reply hpr hcallProper (hanswers.imp Served.replied))]
      exact htakes.clientNext (l := []) hhalted (by simp [ClientProgram.ends])
        (List.append_nil _).symm (by simp)
  | workerStarts k id clock =>
    obtain ⟨s, htalks, -, hs⟩ := WorkerProgram.run_init (pr.service k) id clock
    simp only [system, next, hs]
    exact h.worker_talks rfl (fun _ => rfl) htalks
  | workerPolls k mail id clock =>
    obtain ⟨w, hw, hhalted, hjob, hmail, hid⟩ := he
    obtain ⟨hk, -⟩ := hf.sane.worker k w hw
    simp only [system, next, Option.mem_def.1 hw]
    let w₀ : WorkerProgram := { w with session := { w.session with clock, ids := fun _ => id } }
    have htakes := h.takes w₀.session.identity mail
    rcases hf.sane.worker_hears hk hmail with hother | ⟨client, body, rfl, -⟩
    · obtain ⟨s, htalks, hs⟩ := WorkerProgram.run_polls id _ hother w₀
      rw [hs]
      exact htakes.worker_talks (w := w₀) hhalted (fun _ => rfl) htalks
    · rw [WorkerProgram.run_request]
      exact htakes.workerNext (l := []) hhalted (by simp) (by simp)
  | workerReplies k reply =>
    obtain ⟨w, hw, hhalted, request, hjob, hserve⟩ := he
    obtain ⟨-, -, hworks⟩ := hf.sane.worker k w hw
    obtain ⟨hne, harrival, hclient, -⟩ := hworks hhalted request hjob
    have hfit : Fit reply :=
      hpr.replies k request reply ⟨hne, sendable_of_arrival harrival⟩ hserve
    have hto : w.session.mReplyTo ≠ [] := by
      obtain ⟨r, hr⟩ := hf.sane.client_setId hclient
      rw [hr]
      exact setId_ne_nil r
    obtain ⟨s, -, -, hsent, ⟨-, hrun⟩ | ⟨hnot, -⟩⟩ := WorkerProgram.run_replies hto reply
    · simp only [system, next, Option.mem_def.1 hw, hrun]
      refine h.workerNext hhalted hsent fun m hm => ?_
      obtain rfl := List.mem_singleton.1 hm
      exact ⟨Mdwrk.sendable_replyMessage.2 hfit.2, fair_worker _⟩
    · exact absurd hfit.2 hnot
  | lost up down => exact h.fewer he.1

/-- **No process ends**, whatever happens in which order, if a client stops when a
    call has returned nothing, calls name a service by a name that gets across,
    but not `mmi.service`, and requests and replies have a body that can be sent. -/
theorem nobody_halts (hpr : pr.Proper) (hc : (system .each pr).Can (init now) es)
    (hs : (system .each pr).All Stops (init now) es) (hes : ∀ e ∈ es, e.Calls Call.Proper) :
    let n := (system .each pr).run (init now) es
    n.broker.halted = none ∧ (∀ i c, n.clients i = some c → c.halted = none) ∧
      ∀ k w, n.workers k = some w → w.halted = none := by
  let I (es : List (NetworkEv ι κ)) (n : Network ι κ) : Prop := Faithful pr now es n ∧ Lively n
  have hall := (hc.and hs).and (Machine.All.of_mem (M := system .each pr) (s := init now) hes)
  have hI : I es ((system .each pr).run (init now) es) := by
    refine hall.inv_hist (I := I) ⟨init_faithful pr now, init_lively now⟩ ?_
    rintro es n e ⟨hf, hl⟩ ⟨⟨he, hs⟩, hproper⟩
    exact ⟨hf.step he hs, hl.step hf hpr hproper he hs⟩
  exact ⟨hI.2.broker, fun i c hi => (hI.2.client i c hi).1, hI.2.worker⟩

/-- Nobody ends while the client calls the worker. -/
theorem nobody_halts_echo :
    let n := (system .each echo).run (init 0) echoRun
    n.broker.halted = none ∧ (∀ i c, n.clients i = some c → c.halted = none) ∧
      ∀ k w, n.workers k = some w → w.halted = none := by
  have hpr : echo.Proper := by
    refine ⟨fun _ => List.cons_ne_nil _ _, ?_⟩
    rintro k request reply hfit rfl
    exact hfit
  have hcall : Call.Proper ⟨[2], [[4]]⟩ :=
    ⟨by decide, by decide, by decide, by simp, by decide⟩
  exact nobody_halts hpr (by decide +kernel) (by decide +kernel)
    (by simpa [echoRun, NetworkEv.Calls] using hcall)

end Network

end ProxyBroker.Majordomo
