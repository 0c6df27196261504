/-
  Requests and replies in the network of broker, clients and workers.

  Wherever a request is, or the reply to it, it is one letter: on the way to
  the broker, held by it, on the way from it, or with a worker.

  * `letters`: what is on the way, wherever it is.
  * `courier`: the letters and the callers of a network.
  * `Sane.broker_steps` and the lemmas like it: what the broker, a client or a
    worker does are steps of the courier.
-/
import Mathlib.Algebra.BigOperators.Group.Finset.Basic
import ProxyBroker.Courier
import ProxyBroker.NetworkSane

namespace ProxyBroker.Majordomo

open Proc Zmsg

variable {ι κ : Type} {pr : Programs κ} {A : Bytes → Question → Zmsg → Prop}

/-- A service, as the broker has its name, and the body of a request. -/
abbrev Question := Bytes × Zmsg

abbrev Post := Bytes × Letter Question Zmsg

/-- What a call asks. -/
def Call.question (call : Call) : Question := (brokerName call.service, call.request.map arrival)

/-- The broker answers for reserved services; for the others, `S` tells what is an
    answer. -/
def Answers (S : Zmsg → Prop) (q : Question) (r : Zmsg) : Prop :=
  if Broker.Reserved q.1 then ∃ status ∈ Broker.statuses q.1, r = q.2.dropLast ++ [status]
  else S r

/-! ## Letters -/

theorem filterMap_congr {α β : Type} {f g : α → Option β} {s : Multiset α}
    (h : ∀ a ∈ s, f a = g a) : s.filterMap f = s.filterMap g := by
  induction s using Quotient.inductionOn with
  | h l => exact congrArg _ (List.filterMap_congr h)

theorem filterMap_toList {α β : Type} (f : α → Option β) (o : Option α) :
    o.toList.filterMap f = (o.bind f).toList := by
  cases o with
  | none => rfl
  | some a => cases h : f a <;> simp [h]

/-- A reply to a question begins with the name of the service. -/
def Replies (S : Zmsg → Prop) (q : Question) (r : Zmsg) : Prop :=
  ∃ reply, r = q.1 :: reply ∧ Answers S q reply

/-- What the broker says for reserved services are replies. -/
def Internal (A : Bytes → Question → Zmsg → Prop) : Prop :=
  ∀ a q, Broker.Reserved q.1 → ∀ status ∈ Broker.statuses q.1,
    A a q (q.1 :: (q.2.dropLast ++ [status]))

theorem internal_replies (S : Bytes → Question → Zmsg → Prop) :
    Internal fun a q => Replies (S a q) q := by
  intro a q hq status hstatus
  refine ⟨_, rfl, ?_⟩
  rw [Answers, if_pos hq]
  exact ⟨status, hstatus, rfl⟩

/-- The letter in a message that the broker receives. -/
def letterUp (pr : Programs κ) (O : Bytes → Option (ι ⊕ κ)) : Zmsg → Option Post
  | id :: _ :: header :: part :: rest =>
    if header = mdpcClient then some (id, .asked (cStr part, rest))
    else if part = mdpwReply then
      match O id, rest with
      | some (.inr k), client :: _ :: reply =>
        some (client, .answered (brokerName (pr.service k) :: reply))
      | _, _ => none
    else none
  | [_, _, _] | [_, _] | [_] | [] => none

/-- The letter in a request that the broker holds. -/
def letterHeld (r : Bytes × Zmsg) : Option Post :=
  match r.2 with
  | client :: _ :: body => some (client, .asked (r.1, body))
  | [_] | [] => none

/-- The letter in a message that a client or a worker receives. -/
def letterDown (pr : Programs κ) (O : Bytes → Option (ι ⊕ κ)) (m : Mail) : Option Post :=
  match O m.1, m.2 with
  | some (.inl _), _ :: _ :: name :: reply => some (m.1, .answered (name :: reply.map arrival))
  | some (.inr k), _ :: _ :: command :: client :: _ :: body =>
    if command = mdpwRequest then
      some (client, .asked (brokerName (pr.service k), body.map arrival))
    else none
  | _, _ => none

/-- The letter that a worker has. -/
def letterJob (pr : Programs κ) (k : κ) (w : Option WorkerProgram) : Option Post :=
  w.bind fun w => if w.halted = none then
    w.job.map fun body => (w.session.mReplyTo, .asked (brokerName (pr.service k), body))
  else none

/-- What a client does as a caller. -/
def ClientProgram.calling (c : ClientProgram) : Caller Question :=
  if c.halted = none then
    match c.call with
    | some (call, _) => .waits call.question
    | none => if ∀ x ∈ c.returned, x.2 ≠ none then .idle else .gone
  else .gone

theorem ClientProgram.calling_waits {c : ClientProgram} {call : Call} {left : ℤ}
    (hh : c.halted = none) (hcall : c.call = some (call, left)) :
    c.calling = .waits call.question := by
  rw [calling, if_pos hh, hcall]

theorem ClientProgram.calling_eq_waits {c : ClientProgram} {q : Question}
    (h : c.calling = .waits q) :
    c.halted = none ∧ ∃ x ∈ c.call, x.1.question = q := by
  by_cases hh : c.halted = none
  · rw [calling, if_pos hh] at h
    generalize c.call = call at h ⊢
    cases call with
    | none =>
      dsimp only at h
      split_ifs at h
    | some x => exact ⟨hh, x, rfl, Caller.waits.inj h⟩
  · rw [calling, if_neg hh] at h
    cases h

theorem ClientProgram.calling_idle {c : ClientProgram} (hh : c.halted = none) (hcall : c.call = none)
    (hall : ∀ x ∈ c.returned, x.2 ≠ none) : c.calling = .idle := by
  rw [calling, if_pos hh, hcall]
  exact if_pos hall

theorem ClientProgram.calling_eq_idle {c : ClientProgram} (h : c.calling = .idle) :
    c.halted = none ∧ c.call = none ∧ ∀ x ∈ c.returned, x.2 ≠ none := by
  by_cases hh : c.halted = none
  · rw [calling, if_pos hh] at h
    generalize c.call = call at h ⊢
    cases call with
    | none =>
      dsimp only at h
      split_ifs at h with hall
      exact ⟨hh, rfl, hall⟩
    | some x => cases h
  · rw [calling, if_neg hh] at h
    cases h

/-- A program whose call has returned goes on or stops. -/
theorem ClientProgram.calling_ends (c : ClientProgram) (call : Call) (reply : Option Zmsg) :
    (c.ends call reply).calling = .idle ∨ (c.ends call reply).calling = .gone := by
  by_cases hh : c.halted = none
  · by_cases hall : ∀ x ∈ (c.ends call reply).returned, x.2 ≠ none
    · exact Or.inl ((if_pos hh).trans (if_pos hall))
    · exact Or.inr ((if_pos hh).trans (if_neg hall))
  · exact Or.inr (if_neg hh)

/-- A program whose call has returned nothing stops. -/
theorem ClientProgram.calling_ends_none (c : ClientProgram) (call : Call) (halted : Option Halt) :
    { c.ends call none with halted }.calling = .gone := by
  by_cases hh : halted = none
  · exact (if_pos hh).trans (if_neg fun h => h (call, none) (by simp [ends]) rfl)
  · exact if_neg hh

namespace Network

variable [Fintype κ]

/-- The letters on the way to the broker. -/
def lettersUp (pr : Programs κ) (n : Network ι κ) : Multiset Post :=
  n.up.filterMap fun m => letterUp pr n.owner (received m)

/-- The letters that the broker holds. -/
def lettersHeld (n : Network ι κ) : Multiset Post :=
  (pending n.broker.st.log).filterMap letterHeld

/-- The letters on the way from the broker. -/
def lettersDown (pr : Programs κ) (n : Network ι κ) : Multiset Post :=
  n.down.filterMap (letterDown pr n.owner)

/-- The letters that the workers have. -/
def jobs (pr : Programs κ) (n : Network ι κ) : Multiset Post :=
  ∑ k, ((letterJob pr k (n.workers k)).toList : Multiset Post)

def letters (pr : Programs κ) (n : Network ι κ) : Multiset Post :=
  lettersUp pr n + lettersHeld n + lettersDown pr n + jobs pr n

/-- What the caller does whose socket has the identity. -/
def caller (n : Network ι κ) (a : Bytes) : Caller Question :=
  match n.owner a with
  | some (.inl i) =>
    match n.clients i with
    | some c => if c.session.identity = a then c.calling else .gone
    | none => .gone
  | some (.inr _) | none => .fresh

omit [Fintype κ] in
/-- The caller that waits is a client in a call. -/
theorem caller_eq_waits {n : Network ι κ} {a : Bytes} {q : Question} (h : n.caller a = .waits q) :
    ∃ i c, n.clients i = some c ∧ c.session.identity = a ∧ c.calling = .waits q := by
  rw [caller] at h
  rcases ho : n.owner a with _ | ⟨i | k⟩
  · simp [ho] at h
  · rcases hc : n.clients i with _ | c
    · simp [ho, hc] at h
    · simp only [ho, hc] at h
      split_ifs at h with hid
      exact ⟨i, c, hc, hid, h⟩
  · simp [ho] at h

def courier (pr : Programs κ) (n : Network ι κ) : Courier Bytes Question Zmsg :=
  ⟨letters pr n, caller n⟩

/-- Messages are taken or lost. -/
theorem letters_le {n : Network ι κ} {up down : Multiset Mail} (hup : up ≤ n.up)
    (hdown : down ≤ n.down) : letters pr { n with up, down } ≤ letters pr n := by
  have hu : lettersUp pr { n with up, down } ≤ lettersUp pr n := Multiset.filterMap_le_filterMap _ hup
  have hd : lettersDown pr { n with up, down } ≤ lettersDown pr n :=
    Multiset.filterMap_le_filterMap _ hdown
  exact add_le_add_left (add_le_add (add_le_add_left hu _) hd) _

/-! ## The broker -/

section
omit [Fintype κ]
variable {n n' : Network ι κ} {mail : Option Mail} {out : Option Zmsg}
  {told : List (Worker × Bytes × Option Zmsg)}

/-- A worker that is told of a request gets the letter in it. -/
theorem Sane.letterDown_telling (h : Sane pr n) (hmail : ∀ m ∈ mail, m ∈ n.up)
    (hp : Passes pr n mail n' out told) {x : Worker × Bytes × Option Zmsg} (hx : x ∈ told) :
    (route (telling x)).bind (letterDown pr n.owner) = (handing x).bind letterHeld := by
  obtain ⟨hhired, hcommand, hsome⟩ := hp.told x hx
  rw [h.route_telling hhired, Option.bind_some]
  obtain ⟨k, hk, hservice⟩ := hhired
  obtain ⟨w, command, msg⟩ := x
  cases hcommand with
  | heartbeat | disconnect => simp [letterDown, hk, handing, mdpwRequest]
  | request msg =>
    obtain ⟨r, hr⟩ := Option.isSome_iff_exists.1 (hsome rfl)
    obtain ⟨-, hs, hmsg⟩ := handing_eq_some.1 hr
    obtain ⟨-, client, body, hbody, -, -, harrival⟩ :=
      h.handed hmail hp (List.mem_filterMap.2 ⟨_, hx, hr⟩)
    have hbody' : msg = client :: [] :: body := (Option.some.inj hmsg).trans hbody
    rw [hr, Option.bind_some, hbody']
    simp only [letterHeld, letterDown, hk, hbody, Option.getD_some, harrival, hservice _ hs]
    exact if_pos rfl

omit [Fintype κ] in
theorem arrival_status {name status : Bytes} (h : status ∈ Broker.statuses name) :
    arrival status = status := by
  have hall : ∀ s ∈ [lit ['2', '0', '0'], lit ['4', '0', '4'], lit ['5', '0', '1']],
      arrival s = s := by decide
  rw [Broker.statuses] at h
  split_ifs at h
  · exact hall status (List.mem_append_left [_] h)
  · exact hall status (List.mem_append_right [_, _] h)

/-- What the broker makes of a message that it finds. -/
theorem Sane.forwards (h : Sane pr n) (hA : Internal A) {m : Mail} (hm : m ∈ n.up)
    (hout : ∀ o ∈ out, Broker.Answer n.broker.st.toTables (received m) o) :
    let made : Multiset Post := ((bringing m).bind letterHeld).toList +
      ((out.bind route).bind (letterDown pr n.owner)).toList
    made ≤ ((letterUp pr n.owner (received m)).toList : Multiset Post) ∨
      ∃ a q r, letterUp pr n.owner (received m) = some (a, .asked q) ∧ A a q r ∧
        made = {(a, .answered r)} := by
  have hroute : ∀ {client : Bytes} {name : Bytes} {reply : Zmsg}, Client n.owner client →
      (route (Broker.toClient client name reply)).bind (letterDown pr n.owner) =
        some (client, .answered (name :: reply.map arrival)) := by
    intro client name reply hc
    obtain ⟨r, rfl⟩ := h.client_setId hc
    obtain ⟨i, hi⟩ := hc
    simp [route, Broker.toClient, sentFrame_setId, letterDown, hi]
  intro made
  rcases hb : bringing m with _ | r
  · rcases out with _ | out
    · exact Or.inl (by simp [made, hb])
    have hgives := h.gives hm (hout out rfl)
    generalize received m = parts at hgives
    cases hgives with
    | @internal id hc part status body hname harrival hstatus =>
      refine Or.inr ⟨id, (cStr part, body), cStr part :: (body.dropLast ++ [status]), ?_, ?_, ?_⟩
      · simp [letterUp]
      · exact hA id (cStr part, body) hname status hstatus
      · have hall : (body.dropLast ++ [status]).map arrival = body.dropLast ++ [status] := by
          rw [List.map_append, List.map_dropLast, harrival, List.map_singleton,
            arrival_status hstatus]
        simp [made, hb, hroute hc, hall]
    | @reply id client k hk hc reply harrival =>
      refine Or.inl ?_
      have hheader : mdpwWorker ≠ mdpcClient := by decide
      simp [made, hb, hroute hc, letterUp, hheader, harrival, hk]
  · obtain ⟨part, body, hparts, -, hc, hres, harrival, rfl⟩ := h.brings hm hb
    have hnone : out = none := by
      refine Option.eq_none_iff_forall_not_mem.2 fun o ho => ?_
      have hgives := h.gives hm (hout o ho)
      rw [hparts] at hgives
      cases hgives with
      | internal _ hname => exact hres hname
    refine Or.inl ?_
    simp [made, hb, hnone, hparts, letterUp, letterHeld]

end

theorem Sane.broker_steps {n n' : Network ι κ} (h : Sane pr n) (hA : Internal A) {mail : Option Mail}
    (hmail : ∀ m ∈ mail, m ∈ n.up) {out : Option Zmsg}
    {told : List (Worker × Bytes × Option Zmsg)} (hp : Passes pr n mail n' out told) :
    Courier.Steps A (courier pr n) (courier pr n') := by
  have hcaller : (courier pr n').caller = (courier pr n).caller := by
    funext a
    simp only [courier, caller, hp.owner, hp.clients]
  let old : Multiset Post := (mail.bind fun m => letterUp pr n.owner (received m)).toList
  let held : Multiset Post := ((mail.bind bringing).bind letterHeld).toList
  let sent : Multiset Post := ((out.bind route).bind (letterDown pr n.owner)).toList
  let rest := lettersUp pr n' + lettersHeld n + lettersDown pr n + jobs pr n
  have hold : letters pr n = rest + old := by
    have hup : lettersUp pr n = lettersUp pr n' + old := by
      have hmem : (mail.toList : Multiset Mail) ≤ n.up := by
        cases mail with
        | none => exact bot_le
        | some m => exact Multiset.singleton_le.2 (hmail m rfl)
      rw [lettersUp, lettersUp, hp.owner, ← tsub_add_cancel_of_le hmem, ← hp.up,
        Multiset.filterMap_add, Multiset.filterMap_coe, filterMap_toList]
    rw [letters, hup]
    simp only [rest]
    abel
  have hnew : letters pr n' ≤ rest + (held + sent) := by
    let handed : Multiset Post := (told.filterMap handing : Multiset _).filterMap letterHeld
    have hheld : lettersHeld n' + handed = lettersHeld n + held := by
      have hpending := congrArg (Multiset.filterMap letterHeld) hp.pending
      rwa [Multiset.filterMap_add, Multiset.filterMap_add,
        Multiset.filterMap_coe _ (mail.bind bringing).toList, filterMap_toList] at hpending
    have hdown : lettersDown pr n' ≤ lettersDown pr n + (sent + handed) := by
      have hle := Multiset.filterMap_le_filterMap (letterDown pr n.owner) hp.down
      rw [Multiset.filterMap_add, Multiset.filterMap_coe] at hle
      rw [lettersDown, hp.owner]
      refine hle.trans_eq (congrArg (lettersDown pr n + ·) ?_)
      have htold : (told.map telling).filterMap (fun o => (route o).bind (letterDown pr n.owner)) =
          told.filterMap fun x => (handing x).bind letterHeld := by
        rw [List.filterMap_map]
        exact List.filterMap_congr fun x hx => h.letterDown_telling hmail hp hx
      rw [List.filterMap_append, List.filterMap_append, ← Multiset.coe_add, filterMap_toList,
        filterMap_toList, List.filterMap_filterMap, htold]
      simp only [sent, handed, Multiset.filterMap_coe, List.filterMap_filterMap]
    have hjobs : jobs pr n' = jobs pr n := by rw [jobs, jobs, hp.workers]
    calc letters pr n'
        ≤ lettersUp pr n' + lettersHeld n' + (lettersDown pr n + (sent + handed)) + jobs pr n := by
          rw [letters, hjobs]
          gcongr
      _ = lettersUp pr n' + (lettersHeld n' + handed) + lettersDown pr n + jobs pr n + sent := by abel
      _ = rest + (held + sent) := by
          rw [hheld]
          simp only [rest]
          abel
  refine Courier.Steps.of_made hold hnew hcaller ?_
  rcases mail with _ | m
  · have hout : out = none := Option.eq_none_iff_forall_not_mem.2 fun o ho => by
      obtain ⟨x, hx, -⟩ := hp.answer o ho
      cases hx
    exact Or.inl (by simp [held, sent, hout])
  · have hout : ∀ o ∈ out, Broker.Answer n.broker.st.toTables (received m) o := fun o ho => by
      obtain ⟨x, hx, hanswer⟩ := hp.answer o ho
      obtain rfl := Option.some.inj hx
      exact hanswer
    rcases h.forwards hA (hmail m rfl) hout with hle | ⟨a, q, r, hletter, hr, hmade⟩
    · exact Or.inl hle
    · exact Or.inr ⟨a, q, r, by simp [old, hletter], fun _ => hr, hmade⟩

/-! ## Clients -/

section
variable [DecidableEq ι] {n : Network ι κ} {i : ι} {c c₀ c' : ClientProgram} {l : List Zmsg}
  {call : Call} {r : RandomId}

omit [Fintype κ] [DecidableEq ι] in
theorem sendable_message : Sendable call.message ↔ Sendable call.request := by
  simp [Call.message, Mdcli.envelope, pushFront]

omit [Fintype κ] [DecidableEq ι] in
theorem letterUp_message (O : Bytes → Option (ι ⊕ κ)) (call : Call) (r : RandomId) :
    letterUp pr O (received (setId r, [] :: call.message)) =
      some (setId r, .asked call.question) := by
  rw [received_setId]
  rfl

omit [Fintype κ] [DecidableEq ι] in
/-- The letters are the same when there are more identities. -/
theorem Sane.up_extends (h : Sane pr n) {O : Bytes → Option (ι ⊕ κ)} (hO : Extends n.owner O) :
    (n.up.filterMap fun m => letterUp pr O (received m)) = lettersUp pr n := by
  refine filterMap_congr fun m hm => ?_
  have ho : O m.1 = n.owner m.1 := by
    obtain ⟨o, ho, -⟩ := h.up m hm
    rw [ho, hO _ _ ho]
  have harrives := h.arrives hm
  generalize received m = parts at harrives
  cases harrives with
  | request | ready | heartbeat => rfl
  | reply => simp only [letterUp, ho]

omit [Fintype κ] [DecidableEq ι] in
theorem Sane.down_extends (h : Sane pr n) {O : Bytes → Option (ι ⊕ κ)} (hO : Extends n.owner O) :
    n.down.filterMap (letterDown pr O) = n.down.filterMap (letterDown pr n.owner) := by
  refine filterMap_congr fun m hm => ?_
  obtain ⟨o, ho, -⟩ := h.down m hm
  simp only [letterDown, ho, hO _ _ ho]

theorem Sane.letters_clientNext (h : Sane pr n) (hk : n.Known (.inl i) c'.session.identity)
    (hsent : c'.session.sent = c.session.sent ++ l) :
    letters pr (n.clientNext .each i c c') = letters pr n +
      (Link.each.passed l).filterMap fun m =>
        letterUp pr (n.clientNext .each i c c').owner
          (received (c'.session.identity, [] :: m)) := by
  let n' := n.clientNext .each i c c'
  have hO : Extends n.owner n'.owner := extends_update (hk.imp_right And.left)
  have hdown : lettersDown pr n' = lettersDown pr n := h.down_extends hO
  have hl : c'.session.sent.drop c.session.sent.length = l := by rw [hsent, List.drop_left]
  have hup : lettersUp pr n' = lettersUp pr n +
      (Link.each.passed l).filterMap fun m =>
        letterUp pr n'.owner (received (c'.session.identity, [] :: m)) := by
    have hn' : n'.up = n.up + (Link.each.passed l).map fun m => (c'.session.identity, [] :: m) := by
      simp only [n', Network.clientNext, hl]
    rw [lettersUp, hn', Multiset.filterMap_add, h.up_extends hO, Multiset.filterMap_coe,
      List.filterMap_map]
    rfl
  calc letters pr n' = lettersUp pr n' + lettersHeld n + lettersDown pr n' + jobs pr n := rfl
    _ = letters pr n + _ := by
      rw [hup, hdown, letters]
      abel

omit [Fintype κ] in
theorem caller_other {a : Bytes} (hne : a ≠ c'.session.identity)
    (hc : ∀ c₀ ∈ n.clients i, c₀.session.identity ≠ a) :
    (n.clientNext .each i c c').caller a = n.caller a := by
  cases ho : n.owner a with
  | none => simp [caller, Network.clientNext, hne, ho]
  | some o =>
    cases o with
    | inr k => simp [caller, Network.clientNext, hne, ho]
    | inl j =>
      rcases eq_or_ne j i with rfl | hj
      · cases hj : n.clients j with
        | none => simp [caller, Network.clientNext, hne, hne.symm, ho, hj]
        | some c₀ => simp [caller, Network.clientNext, hne, hne.symm, ho, hj, hc c₀ hj]
      · simp [caller, Network.clientNext, hne, ho, hj]

omit [Fintype κ] in
theorem caller_self (hsent : c'.session.sent = c.session.sent ++ l) :
    (n.clientNext .each i c c').caller c'.session.identity =
      { c' with halted := Link.each.ended l c'.halted }.calling := by
  have hl : c'.session.sent.drop c.session.sent.length = l := by rw [hsent, List.drop_left]
  simp [caller, Network.clientNext, hl]

omit [Fintype κ] in
/-- A client with a new socket has left the old one. -/
theorem Sane.caller_clientNext (h : Sane pr n) (hc : n.clients i = some c₀)
    (hid : c.session.identity = c₀.session.identity)
    (hsent : c'.session.sent = c.session.sent ++ l) :
    (n.clientNext .each i c c').caller = Function.update
      (Function.update n.caller c.session.identity .gone) c'.session.identity
        { c' with halted := Link.each.ended l c'.halted }.calling := by
  funext a
  rcases eq_or_ne a c'.session.identity with rfl | hne
  · rw [Function.update_self, caller_self hsent]
  rw [Function.update_of_ne hne]
  rcases eq_or_ne a c.session.identity with rfl | hne'
  · have ho : n.owner c.session.identity = some (.inl i) := hid ▸ h.client i c₀ hc
    simp [caller, Network.clientNext, hne, hne.symm, ho]
  · rw [Function.update_of_ne hne']
    refine caller_other hne fun c₁ hc₁ => ?_
    obtain rfl : c₀ = c₁ := Option.some.inj (hc.symm.trans hc₁)
    exact hid ▸ hne'.symm

omit [Fintype κ] [DecidableEq ι] in
theorem passed_singleton {m : Zmsg} :
    Link.each.passed [m] = if Sendable m then [m] else [] := by
  simp only [Link.passed, Link.parts, List.map_singleton, List.takeWhile_cons, List.takeWhile_nil,
    decide_eq_true_eq]

omit [Fintype κ] [DecidableEq ι] in
theorem Sane.caller_client (h : Sane pr n) (hc : n.clients i = some c) :
    n.caller c.session.identity = c.calling := by
  simp [caller, h.client i c hc, hc]

/-- A client has sent its request once, or has given up. -/
theorem Sane.goes_steps (h : Sane pr n) (hc : n.clients i = some c₀)
    (hid : c.session.identity = c₀.session.identity)
    (hr : setId r = c.session.identity ∧ c₀.calling = .idle ∨ n.Unused r)
    (hc₀ : c.halted = none) (hg : ClientProgram.Goes call r c c') :
    Courier.Steps A (courier pr n) (courier pr (n.clientNext .each i c c')) := by
  have howner : n.owner c.session.identity = some (.inl i) := hid ▸ h.client i c₀ hc
  have hk : n.Known (.inl i) (setId r) := by
    rcases hr with ⟨hr, -⟩ | hr
    · exact Or.inl (hr ▸ howner)
    · exact hr.known
  have hmoves : Courier.Steps A (courier pr n)
      ⟨letters pr n, Function.update (Function.update n.caller c.session.identity .gone)
        (setId r) .idle⟩ := by
    refine Courier.Steps.moves ?_
    rcases hr with ⟨hr, hidle⟩ | hr
    · refine Or.inl ⟨hr.symm, ?_⟩
      rw [hr, hid]
      exact (h.caller_client hc).trans hidle
    · refine Or.inr ⟨?_, ?_⟩
      · intro heq
        rw [heq, hr] at howner
        cases howner
      · simp [courier, caller, show n.owner (setId r) = none from hr]
  cases hg with
  | sends s left hreq hsid hsent hc' =>
    have hsend : Sendable call.message := sendable_message.2 hreq
    have hid' : c'.session.identity = setId r := by rw [hc', ← hsid]; rfl
    have hsent' : c'.session.sent = c.session.sent ++ [call.message] := by rw [hc', hsent]
    have hletters : letters pr (n.clientNext .each i c c') =
        (setId r, .asked call.question) ::ₘ letters pr n := by
      rw [h.letters_clientNext (hid' ▸ hk) hsent', passed_singleton, if_pos hsend, hid']
      simp [letterUp_message, add_comm]
    have hcaller : (n.clientNext .each i c c').caller = Function.update (Function.update
        (Function.update n.caller c.session.identity .gone) (setId r) .idle) (setId r)
          (.waits call.question) := by
      rw [h.caller_clientNext hc hid hsent', hid', Function.update_idem]
      simp [ClientProgram.calling, Link.ended, Link.parts, hsend, hc', hc₀]
    refine hmoves.tail ?_
    rw [courier, hletters, hcaller]
    exact .asks (setId r) call.question (Function.update_self ..)
  | fails s halt hreq hsid hsent hc' =>
    have hsend : ¬ Sendable call.message := mt sendable_message.1 hreq
    have hid' : c'.session.identity = setId r := by rw [hc', ← hsid]; rfl
    have hsent' : c'.session.sent = c.session.sent ++ [call.message] := by rw [hc', hsent]
    have hletters : letters pr (n.clientNext .each i c c') = letters pr n := by
      rw [h.letters_clientNext (hid' ▸ hk) hsent', passed_singleton, if_neg hsend]
      exact add_zero _
    have hcaller : (n.clientNext .each i c c').caller = Function.update (Function.update
        (Function.update n.caller c.session.identity .gone) (setId r) .idle) (setId r) .gone := by
      rw [h.caller_clientNext hc hid hsent', hid', Function.update_idem]
      simp [ClientProgram.calling, Link.ended, Link.parts, hsend]
    refine hmoves.tail ?_
    rw [courier, hletters, hcaller]
    exact .goes (setId r)
  | quits hc' =>
    subst hc'
    have hsent' : (c.ends call none).session.sent = c.session.sent ++ [] := (List.append_nil _).symm
    have hletters : letters pr (n.clientNext .each i c (c.ends call none)) = letters pr n := by
      have hk' : n.Known (.inl i) (c.ends call none).session.identity := Or.inl howner
      rw [h.letters_clientNext hk' hsent']
      exact add_zero _
    have hcaller : (n.clientNext .each i c (c.ends call none)).caller =
        Function.update n.caller c.session.identity .gone := by
      rw [h.caller_clientNext hc hid hsent', ClientProgram.calling_ends_none]
      exact Function.update_idem ..
    rw [courier, courier, hletters, hcaller]
    exact .single (.goes c.session.identity)

/-- A client has come. -/
theorem Sane.starts_steps (h : Sane pr n) {id : RandomId} (retries : ℤ) (hi : n.clients i = none)
    (hid : n.Unused id) : Courier.Steps A (courier pr n)
      (courier pr (n.clientNext .each i (clientInit id retries).1 (clientInit id retries).2)) := by
  let c := clientInit id retries
  have hsent : c.2.session.sent = c.1.session.sent ++ [] := rfl
  have hletters : letters pr (n.clientNext .each i c.1 c.2) = letters pr n := by
    rw [h.letters_clientNext hid.known hsent]
    exact add_zero _
  have hcaller : (n.clientNext .each i c.1 c.2).caller =
      Function.update n.caller c.2.session.identity .idle := by
    funext a
    rcases eq_or_ne a c.2.session.identity with rfl | hne
    · rw [Function.update_self, caller_self hsent]
      rfl
    · rw [Function.update_of_ne hne]
      exact caller_other hne fun c₀ hc₀ => by simp [hi] at hc₀
  have hfresh : n.caller (setId id) = .fresh := by
    simp [caller, show n.owner (setId id) = none from hid]
  rw [courier, courier, hletters, hcaller]
  exact .single (.comes (setId id) hfresh)

omit [DecidableEq ι] in
/-- A message that is taken takes its letter along. -/
theorem letters_takes {id : Bytes} {m : Zmsg} (hm : (id, m) ∈ n.down) :
    letters pr n = letters pr (n.takes id (some m)) + (letterDown pr n.owner (id, m)).toList := by
  have hdown : lettersDown pr n =
      lettersDown pr (n.takes id (some m)) + (letterDown pr n.owner (id, m)).toList := by
    have hle : {(id, m)} ≤ n.down := Multiset.singleton_le.2 hm
    have htoList : (letterDown pr n.owner (id, m)).toList =
        [(id, m)].filterMap (letterDown pr n.owner) :=
      (filterMap_toList (letterDown pr n.owner) (some (id, m))).symm
    rw [lettersDown, ← tsub_add_cancel_of_le hle, Multiset.filterMap_add, htoList]
    rfl
  calc letters pr n = lettersUp pr n + lettersHeld n + lettersDown pr n + jobs pr n := rfl
    _ = lettersUp pr n + lettersHeld n + lettersDown pr (n.takes id (some m)) + jobs pr n +
        (letterDown pr n.owner (id, m)).toList := by
      rw [hdown]
      abel

omit [Fintype κ] [DecidableEq ι] in
/-- What a client receives is a reply. -/
theorem Sane.letterDown_client (h : Sane pr n) {id : Bytes} {m : Zmsg}
    (hi : n.owner id = some (.inl i)) (hm : (id, [] :: m) ∈ n.down) :
    ∃ name reply, m = mdpcClient :: name :: reply ∧
      letterDown pr n.owner (id, [] :: m) = some (id, .answered (name :: reply.map arrival)) := by
  obtain ⟨o, ho, hheard⟩ := h.down _ hm
  obtain rfl : o = .inl i := Option.some.inj (ho.symm.trans hi)
  obtain ⟨name, reply, heq⟩ := hheard
  obtain ⟨-, rfl⟩ := List.cons.inj heq
  refine ⟨name, reply, rfl, ?_⟩
  simp [letterDown, hi]

/-- A client has received a message: if it is taken for a reply the call
    returns. -/
theorem Sane.receives_steps (h : Sane pr n) (hc : n.clients i = some c₀)
    (hid : c.session.identity = c₀.session.identity) {left : ℤ} {m : Zmsg}
    (hcall : c₀.call = some (call, left)) (hhalted : c₀.halted = none)
    (hm : (c.session.identity, [] :: m) ∈ n.down) :
    Courier.Steps A (courier pr n)
      (courier pr ((n.takes c.session.identity (some ([] :: m))).clientNext .each i c
        (c.run call (Mdcli.round call.service call.request left (polled (some m)))))) := by
  have ho : n.owner c.session.identity = some (.inl i) := hid ▸ h.client i c₀ hc
  obtain ⟨name, reply, rfl, hletter⟩ := h.letterDown_client ho hm
  have hwaits : n.caller c.session.identity = .waits call.question := by
    rw [hid, h.caller_client hc, ClientProgram.calling_waits hhalted hcall]
  let n₁ := n.takes c.session.identity (some ([] :: mdpcClient :: name :: reply))
  have h₁ : Sane pr n₁ := h.takes _ _
  have hletters : letters pr n = (c.session.identity, .answered (name :: reply.map arrival)) ::ₘ
      letters pr n₁ := by
    rw [letters_takes hm, hletter]
    exact add_comm _ _
  have hnext : ∀ c' : ClientProgram, c'.session.identity = c.session.identity →
      c'.session.sent = c.session.sent → letters pr (n₁.clientNext .each i c c') = letters pr n₁ ∧
        (n₁.clientNext .each i c c').caller =
          Function.update n.caller c.session.identity c'.calling := by
    intro c' hs hs'
    have hsent : c'.session.sent = c.session.sent ++ [] := by rw [hs', List.append_nil]
    have hk : n₁.Known (.inl i) c'.session.identity := Or.inl (by rw [hs]; exact ho)
    constructor
    · rw [h₁.letters_clientNext hk hsent]
      exact add_zero _
    · rw [h₁.caller_clientNext hc hid hsent, hs]
      exact Function.update_idem ..
  have hgone : ∀ {c' : ClientProgram}, c'.session.identity = c.session.identity →
      c'.session.sent = c.session.sent → c'.calling = .gone →
      Courier.Steps A (courier pr n) (courier pr (n₁.clientNext .each i c c')) := by
    intro c' hs hs' hgone
    obtain ⟨hl, hcaller⟩ := hnext c' hs hs'
    rw [courier, courier, hl, hcaller, hgone]
    refine .head (.goes c.session.identity) (.single (.loses _ ?_))
    rw [hletters]
    exact Multiset.le_cons_self _ _
  rw [ClientProgram.run_arrived, if_neg (List.cons_ne_nil _ _)]
  split_ifs with hreply
  · let body := ((mdpcClient :: name :: reply).map arrival).drop 2
    rcases c.replied.calling_ends call (some body) with hidle | hleaves
    · obtain ⟨hl, hcaller⟩ := hnext (c.replied.ends call (some body)) rfl rfl
      rw [courier, courier, hl, hcaller, hidle]
      exact .single (.returns c.session.identity call.question _ _ hletters hwaits)
    · exact hgone rfl rfl hleaves
  · exact hgone rfl rfl (if_neg (by simp))

end

/-! ## Workers -/

section
variable [DecidableEq κ] {n : Network ι κ} {k : κ} {w w' : WorkerProgram} {l : List Zmsg}
  {id : RandomId}

omit [Fintype κ] in
theorem caller_workerNext (hk : n.Known (.inr k) w'.session.identity) :
    (n.workerNext .each k w w').caller = n.caller := by
  funext a
  rcases eq_or_ne a w'.session.identity with rfl | hne
  · rcases hk with hk | ⟨hk, -⟩ <;> simp [caller, Network.workerNext, hk]
  · simp [caller, Network.workerNext, hne]

/-- The letter of one worker has changed. -/
theorem jobs_workerNext (hsent : w'.session.sent = w.session.sent ++ l) :
    jobs pr (n.workerNext .each k w w') + (letterJob pr k (n.workers k)).toList =
      jobs pr n + (letterJob pr k
        (some { w' with halted := Link.each.ended l w'.halted })).toList := by
  have hl : w'.session.sent.drop w.session.sent.length = l := by rw [hsent, List.drop_left]
  have hself : (n.workerNext .each k w w').workers k =
      some { w' with halted := Link.each.ended l w'.halted } := by
    simp [Network.workerNext, hl]
  have hrest : ∑ k' ∈ Finset.univ.erase k,
      ((letterJob pr k' ((n.workerNext .each k w w').workers k')).toList : Multiset Post) =
        ∑ k' ∈ Finset.univ.erase k, ((letterJob pr k' (n.workers k')).toList : Multiset Post) := by
    refine Finset.sum_congr rfl fun k' hk' => ?_
    simp [Network.workerNext, Finset.ne_of_mem_erase hk']
  rw [jobs, jobs, ← Finset.add_sum_erase _ _ (Finset.mem_univ k), hself, hrest,
    ← Finset.add_sum_erase _ _ (Finset.mem_univ k)]
  abel

theorem Sane.letters_workerNext (h : Sane pr n) (hk : n.Known (.inr k) w'.session.identity)
    (hsent : w'.session.sent = w.session.sent ++ l) :
    letters pr (n.workerNext .each k w w') + (letterJob pr k (n.workers k)).toList =
      letters pr n +
        ((Link.each.passed l).filterMap fun m =>
          letterUp pr (n.workerNext .each k w w').owner (received (w'.session.identity, m))) +
          (letterJob pr k (some { w' with halted := Link.each.ended l w'.halted })).toList := by
  let n' := n.workerNext .each k w w'
  have hO : Extends n.owner n'.owner := extends_update (hk.imp_right And.left)
  have hdown : lettersDown pr n' = lettersDown pr n := h.down_extends hO
  have hl : w'.session.sent.drop w.session.sent.length = l := by rw [hsent, List.drop_left]
  have hup : lettersUp pr n' = lettersUp pr n +
      (Link.each.passed l).filterMap fun m =>
        letterUp pr n'.owner (received (w'.session.identity, m)) := by
    have hn' : n'.up = n.up + (Link.each.passed l).map fun m => (w'.session.identity, m) := by
      simp only [n', Network.workerNext, hl]
    rw [lettersUp, hn', Multiset.filterMap_add, h.up_extends hO, Multiset.filterMap_coe,
      List.filterMap_map]
    rfl
  have hjobs : jobs pr n' + (letterJob pr k (n.workers k)).toList = jobs pr n + _ :=
    jobs_workerNext hsent
  calc letters pr n' + (letterJob pr k (n.workers k)).toList
      = lettersUp pr n' + lettersHeld n + lettersDown pr n' +
          (jobs pr n' + (letterJob pr k (n.workers k)).toList) := add_assoc _ _ _
    _ = _ := by
      rw [hup, hdown, hjobs, letters]
      abel

omit [Fintype κ] [DecidableEq κ] in
theorem letterUp_registers {m : Zmsg} {service : Bytes} (hm : Mdwrk.Registers service m)
    (O : Bytes → Option (ι ⊕ κ)) (id : RandomId) :
    letterUp pr O (received (setId id, m)) = none := by
  have hheader : mdpwWorker ≠ mdpcClient := by decide
  rw [received_setId]
  cases hm with
  | ready =>
    obtain ⟨rest, hmap, -, -⟩ := map_ready service
    have hcommand : mdpwReady ≠ mdpwReply := by decide
    simp [hmap, letterUp, hheader, hcommand]
  | heartbeat => rfl

omit [Fintype κ] [DecidableEq κ] in
theorem letterUp_reply {O : Bytes → Option (ι ⊕ κ)} {id : RandomId}
    (hk : O (setId id) = some (.inr k)) (client : RandomId) (reply : Zmsg) :
    letterUp pr O (received (setId id, Mdwrk.replyMessage (setId client) reply)) =
      some (setId client, .answered (brokerName (pr.service k) :: reply.map arrival)) := by
  have hheader : mdpwWorker ≠ mdpcClient := by decide
  rw [received_setId, map_replyMessage]
  simp [letterUp, hheader, hk]

/-- A worker has only talked of itself. -/
theorem Sane.talks_steps (h : Sane pr n) (hk : n.Known (.inr k) w'.session.identity)
    (hsent : w'.session.sent = w.session.sent ++ l)
    (hl : ∀ m ∈ l, Mdwrk.Registers (pr.service k) m)
    (hjob : letterJob pr k (n.workers k) = none) (hjob' : w'.job = none) :
    Courier.Steps A (courier pr n) (courier pr (n.workerNext .each k w w')) := by
  have hup : ((Link.each.passed l).filterMap fun m =>
      letterUp pr (n.workerNext .each k w w').owner (received (w'.session.identity, m))) = [] := by
    refine List.filterMap_eq_nil_iff.2 fun m hm => ?_
    exact letterUp_registers (hl m ((passed_sublist l).subset hm)) _ w'.session.randomId
  have hletters := h.letters_workerNext hk hsent
  have hnew : letterJob pr k (some { w' with halted := Link.each.ended l w'.halted }) = none := by
    simp [letterJob, hjob']
  rw [hup, hjob, hnew] at hletters
  have hsame : letters pr (n.workerNext .each k w w') = letters pr n := by simpa using hletters
  rw [courier, courier, hsame, caller_workerNext hk]

/-- A worker gets a request. -/
theorem Sane.request_steps (h : Sane pr n) (hk : n.owner w.session.identity = some (.inr k))
    (hjob : letterJob pr k (n.workers k) = none) (hhalted : w.halted = none) {client : Bytes}
    {body : Zmsg} (hclient : Client n.owner client)
    (hm : (w.session.identity, [] :: mdpwWorker :: mdpwRequest :: client :: [] :: body) ∈ n.down) :
    let mail := some ([] :: mdpwWorker :: mdpwRequest :: client :: [] :: body)
    Courier.Steps A (courier pr n)
      (courier pr ((n.takes w.session.identity mail).workerNext .each k w
        (w.run (Mdwrk.round (polled mail))))) := by
  intro mail
  obtain ⟨r, rfl⟩ := h.client_setId hclient
  let n₁ := n.takes w.session.identity mail
  let s : Mdwrk := { w.session with mLiveness := heartbeatLiveness, mReplyTo := setId r }
  let w' : WorkerProgram := { w with session := s, job := some (body.map arrival) }
  have hrun : w.run (Mdwrk.round (polled mail)) = w' := by
    rw [WorkerProgram.run_request, arrival_setId, cStr_setId]
  have hsent : w'.session.sent = w.session.sent ++ [] := (List.append_nil _).symm
  have hk' : n₁.Known (.inr k) w'.session.identity := Or.inl hk
  have hletters := (h.takes w.session.identity mail : Sane pr n₁).letters_workerNext hk' hsent
  let letter : Post := (setId r, .asked (brokerName (pr.service k), body.map arrival))
  have hnew : letterJob pr k (some { w' with halted := Link.each.ended [] w'.halted }) =
      some letter := by
    simp [letterJob, w', Link.ended, hhalted, s, letter]
  have hold : letterDown pr n.owner
      (w.session.identity, [] :: mdpwWorker :: mdpwRequest :: setId r :: [] :: body) =
        some letter := by
    simp [letterDown, hk, letter]
  have hsame : letters pr (n₁.workerNext .each k w w') = letters pr n := by
    have hnone : Link.each.passed [] = [] := rfl
    rw [letters_takes hm, hold]
    rw [show n₁.workers = n.workers from rfl, hjob, hnew, hnone] at hletters
    simpa using hletters
  rw [hrun, courier, courier, hsame, caller_workerNext hk']
  exact .refl

/-- A worker replies to a request, or its reply cannot be sent. -/
theorem Sane.reply_steps (h : Sane pr n) (hw : n.workers k = some w) (hhalted : w.halted = none)
    {request reply : Zmsg} (hjob : w.job = some request)
    (hA : n.caller w.session.mReplyTo = .waits (brokerName (pr.service k), request) →
      A w.session.mReplyTo (brokerName (pr.service k), request)
        (brokerName (pr.service k) :: reply.map arrival)) :
    Courier.Steps A (courier pr n)
      (courier pr (n.workerNext .each k w (w.run (Mdwrk.replies reply)))) := by
  obtain ⟨hk, hservice, hmade⟩ := h.worker k w hw
  obtain ⟨-, -, hclient, -⟩ := hmade hhalted request hjob
  obtain ⟨r, hr⟩ := h.client_setId hclient
  have hto : w.session.mReplyTo ≠ [] := by
    rw [hr]
    exact setId_ne_nil r
  have hold : letterJob pr k (n.workers k) =
      some (setId r, .asked (brokerName (pr.service k), request)) := by
    simp [letterJob, hw, hhalted, hjob, hr]
  obtain ⟨s, hid, hs, hsent, hrun⟩ := WorkerProgram.run_replies hto reply
  have hid' : s.identity = w.session.identity := congrArg setId hid
  have hks : n.Known (.inr k) s.identity := Or.inl (hid' ▸ hk)
  let asked : Post := (setId r, .asked (brokerName (pr.service k), request))
  let answered : Post :=
    (setId r, .answered (brokerName (pr.service k) :: reply.map arrival))
  rcases hrun with ⟨hreply, hrun⟩ | ⟨hreply, halt, hrun⟩
  · have hsend : Sendable (Mdwrk.replyMessage w.session.mReplyTo reply) :=
      Mdwrk.sendable_replyMessage.2 hreply
    have hup : letterUp pr (n.workerNext .each k w (w.waits s)).owner
        (received (s.identity, Mdwrk.replyMessage w.session.mReplyTo reply)) = some answered :=
      hr ▸ letterUp_reply (Function.update_self ..) r reply
    have hletters : letters pr (n.workerNext .each k w (w.waits s)) + {asked} =
        letters pr n + {answered} := by
      have hks' : n.Known (.inr k) (w.waits s).session.identity := hks
      have hnext := h.letters_workerNext hks' hsent
      have hsingle : ([Mdwrk.replyMessage w.session.mReplyTo reply].filterMap fun m =>
          letterUp pr (n.workerNext .each k w (w.waits s)).owner
            (received ((w.waits s).session.identity, m))) = [answered] :=
        List.filterMap_cons_some hup
      rw [hold, passed_singleton, if_pos hsend, hsingle] at hnext
      simpa [WorkerProgram.waits, letterJob] using hnext
    have hmem : asked ∈ letters pr n := by
      have hor : asked ∈ letters pr n + {answered} :=
        hletters ▸ Multiset.mem_add.2 (Or.inr (Multiset.mem_singleton_self _))
      rcases Multiset.mem_add.1 hor with hmem | hmem
      · exact hmem
      · have hne : asked ≠ answered := by simp [asked, answered]
        exact absurd (Multiset.mem_singleton.1 hmem) hne
    obtain ⟨rest, hrest⟩ := Multiset.exists_cons_of_mem hmem
    have hnew : letters pr (n.workerNext .each k w (w.waits s)) = answered ::ₘ rest := by
      refine add_right_cancel (b := {asked}) (hletters.trans ?_)
      rw [hrest, ← Multiset.singleton_add, ← Multiset.singleton_add]
      abel
    rw [hrun, courier, courier, hnew, caller_workerNext hks]
    rw [hr] at hA
    exact .single (.answers (setId r) (brokerName (pr.service k), request) _ rest hrest hA)
  · have hsend : ¬ Sendable (Mdwrk.replyMessage w.session.mReplyTo reply) :=
      mt Mdwrk.sendable_replyMessage.1 hreply
    let w' : WorkerProgram := { w with session := s, halted := some halt }
    have hletters : letters pr (n.workerNext .each k w w') + {asked} = letters pr n := by
      have hks' : n.Known (.inr k) w'.session.identity := hks
      have hnext := h.letters_workerNext hks' hsent
      rw [hold, passed_singleton, if_neg hsend] at hnext
      simpa [w', letterJob, Link.ended, Link.parts, hsend] using hnext
    rw [hrun]
    refine Courier.Steps.of_le ?_ (caller_workerNext hks)
    exact (Multiset.le_add_right _ _).trans_eq hletters

end

end Network

end ProxyBroker.Majordomo
