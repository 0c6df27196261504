/-
  What holds in every state of the network of broker, clients and workers.

  * `Sane`: who owns which identity, and what the messages on the way look like.
  * `Sane.step`: every step keeps it.
-/
import ProxyBroker.NetworkPrograms

namespace ProxyBroker.Majordomo

open Proc Zmsg

variable {ι κ : Type}

/-! ## Messages on the way -/

theorem Link.ended_eq_none {link : Link} {ms : List Zmsg} {halted : Option Halt} :
    link.ended ms halted = none ↔ (∀ m ∈ ms, Sendable (link.parts m)) ∧ halted = none := by
  rw [Link.ended]
  split_ifs with h
  · exact (and_iff_right h).symm
  · exact iff_of_false (by simp) fun h' => h h'.1

/-- The name of a service, as the broker has it. -/
def brokerName (service : Bytes) : Bytes := cStr (arrival (cStr service))

/-- `O'` knows the owners that `O` knows. -/
def Extends (O O' : Bytes → Option (ι ⊕ κ)) : Prop := ∀ id o, O id = some o → O' id = some o

/-- The address is that of a client. -/
def Client (O : Bytes → Option (ι ⊕ κ)) (id : Bytes) : Prop := ∃ i, O id = some (.inl i)

/-- What a socket may send to the broker. -/
def Spoken (pr : Programs κ) (O : Bytes → Option (ι ⊕ κ)) : ι ⊕ κ → Zmsg → Prop
  | .inl _, m => ∃ call : Call, m = [] :: call.message
  | .inr k, m => Mdwrk.Registers (pr.service k) m ∨
    ∃ client reply, m = Mdwrk.replyMessage client reply ∧ Client O client

/-- Clients ask the workers of the service, and not the broker. -/
def Asked (pr : Programs κ) (k : κ) : Prop := ¬ Broker.Reserved (brokerName (pr.service k))

/-- What the broker may send to a socket. -/
def Heard (pr : Programs κ) (O : Bytes → Option (ι ⊕ κ)) : ι ⊕ κ → Zmsg → Prop
  | .inl _, m => ∃ name reply, m = [] :: mdpcClient :: name :: reply
  | .inr k, m => ∃ command rest, m = [] :: mdpwWorker :: command :: rest ∧
    ((command = mdpwHeartbeat ∨ command = mdpwDisconnect) ∨ command = mdpwRequest ∧
      ∃ client body, rest = client :: [] :: body ∧ body ≠ [] ∧ Client O client ∧ Asked pr k)

/-- The identity is that of a worker, and the service is its own. -/
def Hired (pr : Programs κ) (O : Bytes → Option (ι ⊕ κ)) (id : Bytes) (service : Option Bytes) :
    Prop :=
  ∃ k, O id = some (.inr k) ∧ ∀ srv ∈ service, srv = brokerName (pr.service k)

/-- A request that the broker holds for a service: it has the address of the
    client in front. -/
def Held (O : Bytes → Option (ι ⊕ κ)) (r : Bytes × Zmsg) : Prop :=
  ¬ Broker.Reserved r.1 ∧ ∃ client body, r.2 = client :: [] :: body ∧ body ≠ [] ∧
    Client O client ∧ body.map arrival = body

section
variable {O O' : Bytes → Option (ι ⊕ κ)} {pr : Programs κ} {o : ι ⊕ κ} {m : Zmsg} {id : Bytes}

theorem Client.extends (h : Client O id) (hO : Extends O O') : Client O' id :=
  h.imp fun _ hi => hO _ _ hi

theorem Spoken.extends (h : Spoken pr O o m) (hO : Extends O O') : Spoken pr O' o m := by
  cases o with
  | inl i => exact h
  | inr k =>
    refine h.imp_right ?_
    rintro ⟨client, reply, rfl, hc⟩
    exact ⟨client, reply, rfl, hc.extends hO⟩

theorem Heard.extends (h : Heard pr O o m) (hO : Extends O O') : Heard pr O' o m := by
  cases o with
  | inl i => exact h
  | inr k =>
    obtain ⟨command, rest, rfl, hcommand⟩ := h
    refine ⟨command, rest, rfl, hcommand.imp_right ?_⟩
    rintro ⟨rfl, client, body, rfl, hne, hclient, hasked⟩
    exact ⟨rfl, client, body, rfl, hne, hclient.extends hO, hasked⟩

theorem Held.extends {r : Bytes × Zmsg} (h : Held O r) (hO : Extends O O') : Held O' r := by
  obtain ⟨hr, client, body, hbody, hne, hclient, harrival⟩ := h
  exact ⟨hr, client, body, hbody, hne, hclient.extends hO, harrival⟩

theorem Hired.extends {service : Option Bytes} (h : Hired pr O id service) (hO : Extends O O') :
    Hired pr O' id service := by
  obtain ⟨k, hk, hs⟩ := h
  exact ⟨k, hO _ _ hk, hs⟩

end

/-! ## The invariant -/

namespace Network

structure Sane (pr : Programs κ) (n : Network ι κ) : Prop where
  sound : Sound n.broker
  staff : Staff (Hired pr n.owner) n.broker.st.toTables
  owned : ∀ id o, n.owner id = some o → ∃ r, id = setId r
  /-- the requests that the broker holds are from clients -/
  held : ∀ r ∈ pending n.broker.st.log, Held n.owner r
  client : ∀ i c, n.clients i = some c → n.owner c.session.identity = some (.inl i)
  worker : ∀ k w, n.workers k = some w → n.owner w.session.identity = some (.inr k) ∧
    w.session.mService = pr.service k ∧ (w.halted = none → ∀ m ∈ w.job,
      m ≠ [] ∧ m.map arrival = m ∧ Client n.owner w.session.mReplyTo ∧ Asked pr k)
  up : ∀ m ∈ n.up, ∃ o, n.owner m.1 = some o ∧ Spoken pr n.owner o m.2
  down : ∀ m ∈ n.down, ∃ o, n.owner m.1 = some o ∧ Heard pr n.owner o m.2

variable {pr : Programs κ} {n n' : Network ι κ} {o : ι ⊕ κ} {id : Bytes}

theorem init_sane (pr : Programs κ) (now : ℤ) : Sane pr (init now : Network ι κ) where
  sound := init_sound now
  staff _ _ h := by cases h
  owned _ _ h := by cases h
  held _ h := by cases h
  client _ _ h := by cases h
  worker _ _ h := by cases h
  up _ h := absurd h (Multiset.notMem_zero _)
  down _ h := absurd h (Multiset.notMem_zero _)

/-- The identity is that of the program, or is new. -/
def Known (n : Network ι κ) (o : ι ⊕ κ) (id : Bytes) : Prop :=
  n.owner id = some o ∨ n.owner id = none ∧ ∃ r, id = setId r

/-- A program has run, and its socket has the identity `id` now. -/
structure Moved (pr : Programs κ) (o : ι ⊕ κ) (id : Bytes) (n n' : Network ι κ) : Prop where
  broker : n'.broker = n.broker
  owner : n'.owner = Function.update n.owner id (some o)
  known : n.Known o id
  up : ∀ m ∈ n'.up, m ∈ n.up ∨ m.1 = id ∧ Spoken pr n.owner o m.2
  down : n'.down ≤ n.down

theorem extends_update {O : Bytes → Option (ι ⊕ κ)} (h : O id = some o ∨ O id = none) :
    Extends O (Function.update O id (some o)) := by
  intro id' o' ho
  rcases eq_or_ne id' id with rfl | hne
  · rcases h with h | h
    · rw [Function.update_self, ← ho, h]
    · exact absurd (h.symm.trans ho) (by simp)
  · rwa [Function.update_of_ne hne]

theorem Moved.extends (h : Moved pr o id n n') : Extends n.owner n'.owner := by
  rw [h.owner]
  exact extends_update (h.known.imp_right And.left)

theorem Sane.moved (h : Sane pr n) (hm : Moved pr o id n n')
    (hclient : ∀ i c, n'.clients i = some c →
      n.clients i = some c ∨ o = .inl i ∧ c.session.identity = id)
    (hworker : ∀ k w, n'.workers k = some w → n.workers k = some w ∨
      o = .inr k ∧ w.session.identity = id ∧ w.session.mService = pr.service k ∧
        (w.halted = none → ∀ m ∈ w.job,
          m ≠ [] ∧ m.map arrival = m ∧ Client n.owner w.session.mReplyTo ∧ Asked pr k)) :
    Sane pr n' where
  sound := hm.broker ▸ h.sound
  staff wrk w hw := (h.staff wrk w (hm.broker ▸ hw)).extends hm.extends
  owned id' o' ho := by
    rw [hm.owner] at ho
    rcases eq_or_ne id' id with rfl | hne
    · rcases hm.known with hk | hk
      · exact h.owned _ _ hk
      · exact hk.2
    · exact h.owned id' o' (by rwa [Function.update_of_ne hne] at ho)
  held r hr := (h.held r (hm.broker ▸ hr)).extends hm.extends
  client i c hc := by
    rcases hclient i c hc with hc | ⟨rfl, hid⟩
    · exact hm.extends _ _ (h.client i c hc)
    · rw [hm.owner, hid, Function.update_self]
  worker k w hw := by
    rcases hworker k w hw with hw | ⟨rfl, hid, hs, hjob⟩
    · obtain ⟨ho, hs, hjob⟩ := h.worker k w hw
      exact ⟨hm.extends _ _ ho, hs, fun hh m hmem =>
        (hjob hh m hmem).imp_right (·.imp_right (·.imp_left (·.extends hm.extends)))⟩
    · exact ⟨by rw [hm.owner, hid, Function.update_self], hs, fun hh m hmem =>
        (hjob hh m hmem).imp_right (·.imp_right (·.imp_left (·.extends hm.extends)))⟩
  up m hmem := by
    rcases hm.up m hmem with hmem | ⟨hid, hspoken⟩
    · obtain ⟨o', ho, hspoken⟩ := h.up m hmem
      exact ⟨o', hm.extends _ _ ho, hspoken.extends hm.extends⟩
    · exact ⟨o, by rw [hm.owner, hid, Function.update_self], hspoken.extends hm.extends⟩
  down m hmem := by
    obtain ⟨o', ho, hheard⟩ := h.down m (Multiset.mem_of_le hm.down hmem)
    exact ⟨o', hm.extends _ _ ho, hheard.extends hm.extends⟩

/-- Messages are taken or lost. -/
theorem Sane.fewer (h : Sane pr n) {up down : Multiset Mail} (hup : up ≤ n.up)
    (hdown : down ≤ n.down) : Sane pr { n with up, down } where
  sound := h.sound
  staff := h.staff
  owned := h.owned
  held := h.held
  client := h.client
  worker := h.worker
  up m hm := h.up m (Multiset.mem_of_le hup hm)
  down m hm := h.down m (Multiset.mem_of_le hdown hm)

theorem Sane.takes (h : Sane pr n) (id : Bytes) (mail : Option Zmsg) : Sane pr (n.takes id mail) :=
  h.fewer le_rfl tsub_le_self

/-! ## Programs -/

variable {i : ι} {k : κ} {c c' : ClientProgram} {w w' : WorkerProgram} {l : List Zmsg}

theorem passed_sublist (l : List Zmsg) : (Link.each.passed l).Sublist l := by
  have hmap : l.map Link.each.parts = l := List.map_id' l
  rw [Link.passed, hmap]
  exact List.takeWhile_sublist _

theorem takes_none (id : Bytes) : n.takes id none = n := by simp [takes]

theorem Unused.known {r : RandomId} (h : n.Unused r) : n.Known o (setId r) := Or.inr ⟨h, r, rfl⟩

/-- A worker that has talked has its socket or a new one. -/
theorem Talks.known {s s' : Mdwrk} {r : RandomId} (ht : Mdwrk.Talks r s s')
    (hids : ∀ j, s.ids j = r) (hk : n.Known o s.identity) (hr : n.Unused r) :
    n.Known o s'.identity := by
  rcases (ht hids).2.1 with hid | hid
  · rwa [Mdwrk.identity, hid]
  · rw [Mdwrk.identity, hid]
    exact hr.known

section
variable [DecidableEq ι]

theorem Sane.clientNext (h : Sane pr n) (hk : n.Known (.inl i) c'.session.identity)
    (hsent : c'.session.sent = c.session.sent ++ l) (hl : ∀ m ∈ l, ∃ call : Call, m = call.message) :
    Sane pr (n.clientNext .each i c c') := by
  refine h.moved (show Moved pr (.inl i) c'.session.identity n _ from
    ⟨rfl, rfl, hk, ?_, le_rfl⟩) ?_ ?_
  · intro m hm
    rcases Multiset.mem_add.1 hm with hm | hm
    · exact Or.inl hm
    · obtain ⟨x, hx, rfl⟩ := List.mem_map.1 (Multiset.mem_coe.1 hm)
      have hmem : x ∈ l := by simpa [hsent] using (passed_sublist _).subset hx
      obtain ⟨call, rfl⟩ := hl x hmem
      exact Or.inr ⟨rfl, call, rfl⟩
  · intro j c₀ hc
    rcases eq_or_ne j i with rfl | hne
    · obtain rfl : _ = c₀ := by simpa [Network.clientNext] using hc
      exact Or.inr ⟨rfl, rfl⟩
    · exact Or.inl (by simpa [Network.clientNext, hne] using hc)
  · exact fun _ _ hw => Or.inl hw

/-- What a client does is sane. -/
theorem Sane.client_goes (h : Sane pr n) {call : Call} {r : RandomId}
    (hi : n.owner c.session.identity = some (.inl i))
    (hr : n.Known (.inl i) (setId r)) (hg : ClientProgram.Goes call r c c') :
    Sane pr (n.clientNext .each i c c') := by
  obtain ⟨hid, l, hsent, hl⟩ := hg.session
  refine h.clientNext ?_ hsent fun m hm => ⟨call, hl m hm⟩
  rcases hid with hid | hid
  · rwa [hid]
  · exact Or.inl (hid ▸ hi)

/-- Nothing is sent, and the socket is the same. -/
theorem Sane.client_same (h : Sane pr n) (hi : n.owner c.session.identity = some (.inl i))
    (hid : c'.session.identity = c.session.identity) (hsent : c'.session.sent = c.session.sent) :
    Sane pr (n.clientNext .each i c c') :=
  h.clientNext (l := []) (Or.inl (hid ▸ hi)) (by simp [hsent]) (by simp)

end

section
variable [DecidableEq κ]

theorem Sane.workerNext (h : Sane pr n) (hk : n.Known (.inr k) w'.session.identity)
    (hs : w'.session.mService = pr.service k)
    (hjob : w'.halted = none → ∀ m ∈ w'.job,
      m ≠ [] ∧ m.map arrival = m ∧ Client n.owner w'.session.mReplyTo ∧ Asked pr k)
    (hsent : w'.session.sent = w.session.sent ++ l)
    (hl : ∀ m ∈ l, Spoken pr n.owner (.inr k) m) : Sane pr (n.workerNext .each k w w') := by
  refine h.moved (show Moved pr (.inr k) w'.session.identity n _ from
    ⟨rfl, rfl, hk, ?_, le_rfl⟩) ?_ ?_
  · intro m hm
    rcases Multiset.mem_add.1 hm with hm | hm
    · exact Or.inl hm
    · obtain ⟨x, hx, rfl⟩ := List.mem_map.1 (Multiset.mem_coe.1 hm)
      have hmem : x ∈ l := by simpa [hsent] using (passed_sublist _).subset hx
      exact Or.inr ⟨rfl, hl x hmem⟩
  · exact fun _ _ hc => Or.inl hc
  · intro j w₀ hw
    rcases eq_or_ne j k with rfl | hne
    · obtain rfl : _ = w₀ := by simpa [Network.workerNext] using hw
      exact Or.inr ⟨rfl, rfl, hs, fun hh => hjob (Link.ended_eq_none.1 hh).2⟩
    · exact Or.inl (by simpa [Network.workerNext, hne] using hw)

/-- The identity of a worker that has talked. -/
theorem Sane.worker_talks (h : Sane pr n) {r : RandomId} {s : Mdwrk}
    (hk : n.Known (.inr k) s.identity) (hs : w.session.mService = pr.service k)
    (hids : ∀ j, w.session.ids j = r) (ht : Mdwrk.Talks r w.session s) :
    Sane pr (n.workerNext .each k w (w.waits s)) := by
  obtain ⟨-, -, hservice, l, hl, hall⟩ := ht hids
  refine h.workerNext hk (hservice.trans hs) ?_ hl fun m hm => Or.inl (hs ▸ hall m hm)
  rintro - m ⟨⟩

end

/-! ## The broker -/

/-- What the broker receives. -/
inductive Arrives (pr : Programs κ) (O : Bytes → Option (ι ⊕ κ)) (id : Bytes) : Zmsg → Prop
  | request {i : ι} (hi : O id = some (.inl i)) (call : Call) : Arrives pr O id
      (id :: [] :: mdpcClient :: arrival (cStr call.service) :: call.request.map arrival)
  | ready {k : κ} (hk : O id = some (.inr k)) {rest : Zmsg}
      (hrest : ∀ part ∈ rest, part = arrival (cStr (pr.service k)))
      (hname : pr.service k ≠ [] → rest ≠ []) : Arrives pr O id
      (id :: [] :: mdpwWorker :: mdpwReady :: rest)
  | heartbeat {k : κ} (hk : O id = some (.inr k)) : Arrives pr O id
      [id, [], mdpwWorker, mdpwHeartbeat]
  | reply {k : κ} (hk : O id = some (.inr k)) {client : Bytes} (hc : Client O client)
      (reply : Zmsg) : Arrives pr O id
      (id :: [] :: mdpwWorker :: mdpwReply :: client :: [] :: reply.map arrival)

/-- The parts of a message that the broker receives. -/
def received (m : Mail) : Zmsg := (m.1 :: wire m.2).map recvPart

theorem received_setId (id : RandomId) (m : Zmsg) :
    received (setId id, m) = setId id :: m.map arrival := by
  rw [received, List.map_cons, map_wire, recvPart_setId]

theorem arrival_setId (id : RandomId) : arrival (setId id) = setId id := by
  rw [arrival, sentFrame_setId, recvPart_setId]

theorem map_replyMessage (client : RandomId) (reply : Zmsg) :
    (Mdwrk.replyMessage (setId client) reply).map arrival =
      [] :: mdpwWorker :: mdpwReply :: setId client :: [] :: reply.map arrival := by
  have hclient : arrival (cStr (setId client)) = setId client := by rw [cStr_setId, arrival_setId]
  conv_rhs => rw [← hclient]
  rfl

theorem map_arrival_arrival (m : Zmsg) : (m.map arrival).map arrival = m.map arrival := by
  rw [List.map_map]
  exact List.map_congr_left fun part _ => arrival_arrival part

theorem Sane.client_setId (h : Sane pr n) (hc : Client n.owner id) : ∃ r, id = setId r := by
  obtain ⟨i, hi⟩ := hc
  exact h.owned _ _ hi

/-- A worker names its service, unless the name is empty. -/
theorem map_ready (service : Bytes) : ∃ rest : Zmsg,
    (Mdwrk.envelope mdpwReady service none).map arrival = [] :: mdpwWorker :: mdpwReady :: rest ∧
      (∀ part ∈ rest, part = arrival (cStr service)) ∧ (service ≠ [] → rest ≠ []) := by
  rcases eq_or_ne service [] with rfl | hs
  · exact ⟨[], rfl, by simp, fun h => absurd rfl h⟩
  · refine ⟨[arrival (cStr service)], ?_, by simp, by simp⟩
    simp only [Mdwrk.envelope, ne_eq, List.length_eq_zero_iff, hs, not_false_eq_true, if_true]
    rfl

theorem Sane.cStr_up (h : Sane pr n) {m : Mail} (hm : m ∈ n.up) : cStr m.1 = m.1 := by
  obtain ⟨o, ho, -⟩ := h.up m hm
  obtain ⟨r, hr⟩ := h.owned _ o ho
  rw [hr, cStr_setId]

theorem Sane.arrives (h : Sane pr n) {m : Mail} (hm : m ∈ n.up) :
    Arrives pr n.owner m.1 (received m) := by
  obtain ⟨o, ho, hspoken⟩ := h.up m hm
  obtain ⟨id, m⟩ := m
  obtain ⟨r, rfl⟩ := h.owned id o ho
  rw [received_setId]
  rcases o with i | k
  · obtain ⟨call, rfl⟩ := hspoken
    exact .request ho call
  · rcases hspoken with hready | ⟨client, reply, rfl, hclient⟩
    · cases hready with
      | ready =>
        obtain ⟨rest, hmap, hrest, hname⟩ := map_ready (pr.service k)
        exact hmap ▸ .ready ho hrest hname
      | heartbeat => exact .heartbeat ho
    · obtain ⟨r', rfl⟩ := h.client_setId hclient
      rw [map_replyMessage]
      exact .reply ho hclient reply

/-- What an arriving message lets the broker do with workers. -/
theorem Arrives.admits {parts : Zmsg} (h : Arrives pr n.owner id parts) (hid : cStr id = id) :
    Broker.Admits (Hired pr n.owner) parts := by
  have hworker : ∀ {k}, n.owner id = some (.inr k) → Hired pr n.owner (cStr id) none := by
    intro k hk
    exact ⟨k, hid.symm ▸ hk, by simp⟩
  intro sender empty header msg hparts hheader
  cases h with
  | request hi call =>
    simp only [List.cons.injEq] at hparts
    obtain ⟨rfl, rfl, rfl, rfl⟩ := hparts
    exact absurd hheader (by decide)
  | ready hk hrest hname =>
    simp only [List.cons.injEq] at hparts
    obtain ⟨rfl, rfl, rfl, rfl⟩ := hparts
    refine ⟨hworker hk, ?_⟩
    rintro command part rest' hmsg -
    obtain ⟨rfl, rfl⟩ := List.cons.inj hmsg
    refine ⟨_, hid.symm ▸ hk, fun srv hsrv => ?_⟩
    obtain rfl := Option.some.inj hsrv
    rw [hrest part List.mem_cons_self, brokerName]
  | heartbeat hk =>
    simp only [List.cons.injEq] at hparts
    obtain ⟨rfl, rfl, rfl, rfl⟩ := hparts
    refine ⟨hworker hk, ?_⟩
    rintro command part rest' hmsg
    simp at hmsg
  | reply hk hc reply =>
    simp only [List.cons.injEq] at hparts
    obtain ⟨rfl, rfl, rfl, rfl⟩ := hparts
    refine ⟨hworker hk, ?_⟩
    rintro command part rest' hmsg hready
    obtain ⟨rfl, -⟩ := List.cons.inj hmsg
    exact absurd hready (by decide)

/-- The request that a message brings to the broker, and its service. -/
def bringing (m : Mail) : Option (Bytes × Zmsg) := clientRequest (m.1 :: wire m.2)

/-- What a round of the broker does, when it has told workers `told` and has
    sent `out` besides. -/
structure Passes (pr : Programs κ) (n : Network ι κ) (mail : Option Mail) (n' : Network ι κ)
    (out : Option Zmsg) (told : List (Worker × Bytes × Option Zmsg)) : Prop where
  sound : Sound n'.broker
  staff : Staff (Hired pr n.owner) n'.broker.st.toTables
  clients : n'.clients = n.clients
  workers : n'.workers = n.workers
  owner : n'.owner = n.owner
  up : n'.up = n.up - mail.toList
  sends : ∀ m ∈ sents (n'.broker.st.log.drop n.broker.st.log.length),
    m ∈ out.toList ++ told.map telling
  down : n'.down ≤ n.down + (out.toList ++ told.map telling).filterMap route
  pending : pending n'.broker.st.log + told.filterMap handing =
    pending n.broker.st.log + (mail.bind bringing).toList
  answer : ∀ m ∈ out, ∃ x ∈ mail, Broker.Answer n.broker.st.toTables (received x) m
  told : ∀ x ∈ told, Hired pr n.owner x.1.mIdentity x.1.mService ∧
    Told x.2.1 x.2.2 ∧ (x.2.1 = mdpwRequest → (handing x).isSome)

theorem Sane.passes (h : Sane pr n) (mail : Option Mail) {e : Round}
    (hf : e.frames = mail.map fun m => m.1 :: wire m.2) (hmail : ∀ m ∈ mail, m ∈ n.up)
    (he : machine.can n.broker e) :
    ∃ out told, Passes pr n mail (n.brokerNext .each mail e) out told := by
  have hadmits : ∀ frames ∈ e.frames, Broker.Admits (Hired pr n.owner) (frames.map recvPart) := by
    intro frames hframes
    obtain ⟨m, hm, rfl⟩ := Option.map_eq_some_iff.1 (hf ▸ hframes)
    exact (h.arrives (hmail m hm)).admits (h.cStr_up (hmail m hm))
  obtain ⟨hsound, l, hl, hpending, hsome⟩ := h.sound.round he
  obtain ⟨out, hputs, hout⟩ := Broker.code_puts h.sound.live.inv he.2.1 hadmits
  obtain ⟨hstaff, l', hl', hperm, htold⟩ := hputs h.staff
  have hst : (machine.next n.broker e).st = (code e).final n.broker.st :=
    Process.st_exec _ _
  obtain rfl : l = l' := by
    rw [← hst, hl] at hl'
    exact List.append_cancel_left hl'
  have hsents : sents ((machine.next n.broker e).st.log.drop n.broker.st.log.length) = sents l := by
    rw [hl, List.drop_left]
  refine ⟨out, tales l, ?_, hst ▸ hstaff, rfl, rfl, rfl, rfl, ?_, ?_, ?_, ?_, ?_⟩
  · exact ⟨⟨hsound.live.inv, fun hh => hsound.live.settled (Link.ended_eq_none.1 hh).2⟩,
      hsound.accounted, hsound.shaped⟩
  · intro m hm
    exact hperm.subset (hsents ▸ hm)
  · refine add_le_add_right ?_ n.down
    rw [hsents, Multiset.coe_le]
    have hsub : (Link.each.passed (sents l)).Sublist (sents l) := passed_sublist _
    exact (hsub.filterMap route).subperm.trans (hperm.filterMap route).subperm
  · have hentry : e.entry = mail.bind bringing := by
      rw [Round.entry, hf]
      cases mail <;> rfl
    rw [← hentry]
    exact hpending
  · intro m hm
    obtain ⟨frames, hframes, hanswer⟩ := hout m hm
    obtain ⟨x, hx, rfl⟩ := Option.map_eq_some_iff.1 (hf ▸ hframes)
    exact ⟨x, hx, hanswer⟩
  · intro x hx
    obtain ⟨hhired, hcommand⟩ := htold x hx
    exact ⟨hhired, hcommand, hsome x hx⟩

/-- A message to the broker and the answer that it sends. -/
inductive Gives (pr : Programs κ) (O : Bytes → Option (ι ⊕ κ)) : Zmsg → Zmsg → Prop
  | internal {id : Bytes} (hc : Client O id) {part status : Bytes} {body : Zmsg}
      (hname : Broker.Reserved (cStr part)) (harrival : body.map arrival = body)
      (hstatus : status ∈ Broker.statuses (cStr part)) :
      Gives pr O (id :: [] :: mdpcClient :: part :: body)
        (Broker.toClient id (cStr part) (body.dropLast ++ [status]))
  | reply {id client : Bytes} {k : κ} (hk : O id = some (.inr k)) (hc : Client O client)
      {reply : Zmsg} (harrival : reply.map arrival = reply) :
      Gives pr O (id :: [] :: mdpwWorker :: mdpwReply :: client :: [] :: reply)
        (Broker.toClient client (brokerName (pr.service k)) reply)

theorem Sane.gives (h : Sane pr n) {m : Mail} (hm : m ∈ n.up) {out : Zmsg}
    (ha : Broker.Answer n.broker.st.toTables (received m) out) :
    Gives pr n.owner (received m) out := by
  have hid := h.cStr_up hm
  have harrives := h.arrives hm
  generalize received m = parts at ha harrives
  cases harrives with
  | @request i hi call =>
    have harrival := map_arrival_arrival call.request
    generalize call.request.map arrival = body at ha harrival
    cases ha with
    | internal hheader hb hres hstatus =>
      rw [hid]
      exact .internal ⟨i, hi⟩ hres harrival hstatus
    | reply hheader => exact absurd hheader (by decide)
  | ready hk hrest hname =>
    cases ha with
    | internal hheader => exact absurd hheader (by decide)
    | reply hheader hcommand => exact absurd hcommand (by decide)
  | heartbeat hk =>
    cases ha with
    | internal hheader => exact absurd hheader (by decide)
  | @reply k hk client hc reply =>
    cases ha with
    | internal hheader => exact absurd hheader (by decide)
    | @reply _ _ _ _ _ _ wrk w srv hheader hcommand hwrk hw hs =>
      obtain ⟨w', hw', hw'id⟩ := h.sound.live.inv.alive _ _ hwrk
      obtain rfl : w = w' := Option.some.inj (hw.symm.trans hw')
      obtain ⟨k', hk', hservice⟩ := h.staff wrk w hw
      obtain rfl : k = k' := by
        rw [hw'id, hid, hk] at hk'
        exact Sum.inr.inj (Option.some.inj hk')
      have hname : cStr srv = brokerName (pr.service k) := by
        rw [hservice srv hs, brokerName, cStr_cStr]
      obtain ⟨r, rfl⟩ := h.client_setId hc
      rw [cStr_setId, hname]
      exact .reply hk hc (map_arrival_arrival _)

/-- The request that a message to the broker brings. -/
theorem Sane.brings (h : Sane pr n) {m : Mail} (hm : m ∈ n.up) {r : Bytes × Zmsg}
    (hr : r ∈ bringing m) : ∃ part body, received m = m.1 :: [] :: mdpcClient :: part :: body ∧
      body ≠ [] ∧ Client n.owner m.1 ∧ ¬ Broker.Reserved (cStr part) ∧ body.map arrival = body ∧
        r = (cStr part, m.1 :: [] :: body) := by
  have hid := h.cStr_up hm
  have harrives := h.arrives hm
  have hworker : ¬ cStr mdpwWorker = mdpcClient := by decide
  rw [bringing, clientRequest, ← received] at hr
  generalize received m = parts at hr harrives
  cases harrives with
  | @request i hi call =>
    have harrival := map_arrival_arrival call.request
    generalize call.request.map arrival = body at hr harrival
    simp only [Option.mem_ite_none_right] at hr
    obtain ⟨hc, hr⟩ := hr
    obtain rfl := Option.some.inj hr
    exact ⟨_, body, rfl, hc.2.2.1, ⟨i, hi⟩, hc.2.2.2, harrival, by rw [hid]⟩
  | ready hk hrest hname | heartbeat hk | reply hk hc reply => simp [hworker] at hr

/-- Where the broker sends what it tells a worker. -/
theorem Sane.route_telling (h : Sane pr n) {x : Worker × Bytes × Option Zmsg}
    (hx : Hired pr n.owner x.1.mIdentity x.1.mService) :
    route (telling x) =
      some (x.1.mIdentity, [] :: mdpwWorker :: cStr x.2.1 :: x.2.2.getD []) := by
  obtain ⟨k, hk, -⟩ := hx
  obtain ⟨r, hr⟩ := h.owned _ _ hk
  have hworker : cStr mdpwWorker = mdpwWorker := by decide
  have hid : cStr x.1.mIdentity = x.1.mIdentity := by rw [hr, cStr_setId]
  have htelling : telling x = cStr x.1.mIdentity :: [] :: cStr mdpwWorker :: cStr x.2.1 ::
      x.2.2.getD [] := rfl
  rw [htelling, route, hid, hr, sentFrame_setId, hworker]

theorem Sane.held_pending (h : Sane pr n) {mail : Option Mail} (hmail : ∀ m ∈ mail, m ∈ n.up) :
    ∀ r ∈ pending n.broker.st.log + (mail.bind bringing).toList, Held n.owner r := by
  intro r hr
  rcases Multiset.mem_add.1 hr with hr | hr
  · exact h.held r hr
  · obtain ⟨m, hm, hr⟩ := Option.bind_eq_some_iff.1 (Option.mem_toList.1 (Multiset.mem_coe.1 hr))
    obtain ⟨part, body, -, hne, hc, hres, harrival, rfl⟩ := h.brings (hmail m hm) hr
    exact ⟨hres, m.1, body, rfl, hne, hc, harrival⟩

/-- A request that a worker is told of is one that the broker has. -/
theorem Sane.handed (h : Sane pr n) {mail : Option Mail} (hmail : ∀ m ∈ mail, m ∈ n.up)
    {out : Option Zmsg} {told : List (Worker × Bytes × Option Zmsg)}
    (hp : Passes pr n mail n' out told) {r : Bytes × Zmsg} (hr : r ∈ told.filterMap handing) :
    Held n.owner r :=
  h.held_pending hmail r (hp.pending ▸ Multiset.mem_add.2 (Or.inr (Multiset.mem_coe.2 hr)))

theorem Sane.broker (h : Sane pr n) {mail : Option Mail} (hmail : ∀ m ∈ mail, m ∈ n.up)
    {out : Option Zmsg} {told : List (Worker × Bytes × Option Zmsg)}
    (hp : Passes pr n mail n' out told) : Sane pr n' := by
  refine ⟨hp.sound, hp.owner ▸ hp.staff, hp.owner ▸ h.owned, fun r hr => ?_,
    hp.clients ▸ hp.owner ▸ h.client, hp.workers ▸ hp.owner ▸ h.worker, fun m hm => ?_,
    fun m hm => ?_⟩
  · rw [hp.owner]
    exact h.held_pending hmail r (hp.pending ▸ Multiset.mem_add.2 (Or.inl hr))
  · rw [hp.owner]
    rw [hp.up] at hm
    exact h.up m (Multiset.mem_of_le tsub_le_self hm)
  rw [hp.owner]
  rcases Multiset.mem_add.1 (Multiset.mem_of_le hp.down hm) with hm | hm
  · exact h.down m hm
  obtain ⟨out', hout, hroute⟩ := List.mem_filterMap.1 (Multiset.mem_coe.1 hm)
  rcases List.mem_append.1 hout with hout | hout
  · obtain ⟨x, hx, hanswer⟩ := hp.answer out' (Option.mem_toList.1 hout)
    have hgives := h.gives (hmail x hx) hanswer
    generalize received x = parts at hgives
    cases hgives with
    | internal hc hname harrival hstatus =>
      obtain ⟨r, rfl⟩ := h.client_setId hc
      obtain ⟨i, hi⟩ := hc
      obtain rfl := Option.some.inj hroute
      rw [sentFrame_setId]
      exact ⟨_, hi, _, _, rfl⟩
    | reply hk hc harrival =>
      obtain ⟨r, rfl⟩ := h.client_setId hc
      obtain ⟨i, hi⟩ := hc
      obtain rfl := Option.some.inj hroute
      rw [sentFrame_setId]
      exact ⟨_, hi, _, _, rfl⟩
  · obtain ⟨x, hx, rfl⟩ := List.mem_map.1 hout
    obtain ⟨hhired, hcommand, hsome⟩ := hp.told x hx
    rw [h.route_telling hhired] at hroute
    obtain rfl := Option.some.inj hroute
    obtain ⟨k, hk, hservice⟩ := hhired
    refine ⟨_, hk, _, _, rfl, ?_⟩
    obtain ⟨w, command, msg⟩ := x
    cases hcommand with
    | heartbeat => exact Or.inl (Or.inl rfl)
    | disconnect => exact Or.inl (Or.inr rfl)
    | request msg =>
      obtain ⟨r, hr⟩ := Option.isSome_iff_exists.1 (hsome rfl)
      obtain ⟨-, hs, hmsg⟩ := handing_eq_some.1 hr
      obtain ⟨hres, client, body, hbody, hne, hclient, -⟩ :=
        h.handed hmail hp (List.mem_filterMap.2 ⟨_, hx, hr⟩)
      refine Or.inr ⟨rfl, client, body, ?_, hne, hclient, ?_⟩
      · rw [Option.getD_some, Option.some.inj hmsg, hbody]
      · rwa [Asked, ← hservice _ hs]

/-! ## Runs -/

/-- What a worker hears is a request for its service, or nothing that it asks
    for. -/
theorem Sane.worker_hears (h : Sane pr n) (hk : n.owner id = some (.inr k)) {mail : Option Zmsg}
    (hmail : ∀ m ∈ mail, (id, m) ∈ n.down) :
    (∀ m ∈ mail, ∃ command rest, m = [] :: mdpwWorker :: command :: rest ∧
      (command = mdpwHeartbeat ∨ command = mdpwDisconnect)) ∨
    ∃ client body, mail = some ([] :: mdpwWorker :: mdpwRequest :: client :: [] :: body) ∧
      body ≠ [] ∧ Client n.owner client ∧ Asked pr k := by
  rcases mail with _ | m
  · exact Or.inl (by simp)
  obtain ⟨o, ho, hheard⟩ := h.down _ (hmail m rfl)
  obtain rfl : o = .inr k := Option.some.inj (ho.symm.trans hk)
  obtain ⟨command, rest, hm, hcommand | ⟨rfl, client, body, rfl, hc⟩⟩ := hheard
  · refine Or.inl ?_
    rintro m' ⟨⟩
    exact ⟨command, rest, hm, hcommand⟩
  · exact Or.inr ⟨client, body, by rw [← hm], hc⟩

section
variable [DecidableEq ι] [DecidableEq κ] {e : NetworkEv ι κ}

/-- **Identities keep their owners, and messages are of the kinds that the
    protocol has.** -/
theorem Sane.step (h : Sane pr n) (he : (system .each pr).can n e) :
    Sane pr ((system .each pr).next n e) := by
  cases e with
  | broker mail clock addr junk =>
    obtain ⟨hmail, hround⟩ := he
    obtain ⟨out, told, hp⟩ := h.passes mail rfl hmail hround
    exact h.broker hmail hp
  | clientStarts i id retries =>
    exact h.clientNext (c := (clientInit id retries).1) (l := []) he.2.known rfl (by simp)
  | clientCalls i call =>
    obtain ⟨c, hc, -⟩ := he
    have hi := h.client i c hc
    simp only [system, next, Option.mem_def.1 hc]
    cases ha : c.session.awaits with
    | false => exact h.client_goes hi (Or.inl hi) (ClientProgram.run_begins ha call)
    | true =>
      have hs := (ClientProgram.run_refused ha call).session
      exact h.client_same hi (congrArg Mdcli.identity hs) (congrArg Mdcli.sent hs)
  | clientPolls i mail id =>
    obtain ⟨c, hc, -, hcall, -, hid⟩ := he
    obtain ⟨⟨call, retriesLeft⟩, hcall⟩ := Option.ne_none_iff_exists'.1 hcall
    have hi := h.client i c hc
    simp only [system, next, Option.mem_def.1 hc, hcall]
    let c₀ : ClientProgram := { c with
      session := { c.session with ids := fun _ => id }
      call := some (call, retriesLeft) }
    have htakes := h.takes c₀.session.identity (mail.map ([] :: ·))
    rcases mail with _ | m
    · exact htakes.client_goes hi hid.known (c₀.run_nothing call retriesLeft)
    · rw [ClientProgram.run_arrived]
      split_ifs <;> exact htakes.client_same hi rfl rfl
  | workerStarts k id clock =>
    obtain ⟨s, htalks, hid, hs⟩ := WorkerProgram.run_init (pr.service k) id clock
    have hk : n.Known (.inr k) s.identity := by
      rw [Mdwrk.identity, hid]
      exact he.2.known
    simp only [system, next, hs]
    exact h.worker_talks hk rfl (fun _ => rfl) htalks
  | workerPolls k mail id clock =>
    obtain ⟨w, hw, hhalted, hjob, hmail, hid⟩ := he
    obtain ⟨hk, hservice, -⟩ := h.worker k w hw
    simp only [system, next, Option.mem_def.1 hw]
    let w₀ : WorkerProgram := { w with session := { w.session with clock, ids := fun _ => id } }
    have htakes := h.takes w₀.session.identity mail
    rcases h.worker_hears hk hmail with hother | ⟨client, body, rfl, hne, hclient, hasked⟩
    · obtain ⟨s, htalks, hs⟩ := WorkerProgram.run_polls id _ hother w₀
      have hks : n.Known (.inr k) s.identity :=
        Talks.known htalks (fun _ => rfl) (Or.inl hk) hid
      rw [hs]
      exact htakes.worker_talks hks hservice (fun _ => rfl) htalks
    · rw [WorkerProgram.run_request]
      refine htakes.workerNext (l := []) (Or.inl hk) hservice ?_ (by simp) (by simp)
      rintro - m ⟨⟩
      obtain ⟨r, rfl⟩ := h.client_setId hclient
      refine ⟨by simpa using hne, map_arrival_arrival body, ?_⟩
      rw [arrival_setId, cStr_setId]
      exact ⟨hclient, hasked⟩
  | workerReplies k reply =>
    obtain ⟨w, hw, hhalted, request, hjob, -⟩ := he
    obtain ⟨hk, hservice, hclient⟩ := h.worker k w hw
    obtain ⟨-, -, hclient, -⟩ := hclient hhalted request hjob
    have hto : w.session.mReplyTo ≠ [] := by
      obtain ⟨r, hr⟩ := h.client_setId hclient
      rw [hr]
      exact setId_ne_nil r
    obtain ⟨s, hid, hs, hsent, hrun⟩ := WorkerProgram.run_replies hto reply
    have hks : n.Known (.inr k) s.identity := Or.inl (by rwa [Mdwrk.identity, hid])
    have hspoken : ∀ m ∈ [Mdwrk.replyMessage w.session.mReplyTo reply],
        Spoken pr n.owner (.inr k) m := by
      intro m hm
      exact Or.inr ⟨_, reply, List.mem_singleton.1 hm, hclient⟩
    simp only [system, next, Option.mem_def.1 hw]
    rcases hrun with ⟨-, hrun⟩ | ⟨-, halt, hrun⟩
    · rw [hrun]
      exact h.workerNext hks (hs.trans hservice) (by simp [WorkerProgram.waits]) hsent hspoken
    · rw [hrun]
      exact h.workerNext hks (hs.trans hservice) (by simp) hsent hspoken
  | lost up down => exact h.fewer he.1 he.2

end

end Network

end ProxyBroker.Majordomo
