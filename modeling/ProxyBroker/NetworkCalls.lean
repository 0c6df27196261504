/-
  What the calls of `mdcli::send` return, in every run of broker, clients and
  workers whose clients stop when a call has returned nothing.

  * `Served`: while a client was in a call, a worker with its request has replied.
  * `Sane.steps`: what happens in the network are steps of the courier.
  * `Faithful.client_step`: what becomes of a client in a step.
  * `calls_run`: a reply that `mdcli::send` returns belongs to that very call.
-/
import ProxyBroker.NetworkLetters

namespace ProxyBroker.Majordomo

open Proc Zmsg

variable {ι κ : Type} {pr : Programs κ}

/-! ## Calls in a run -/

/-- A client that may call next has a socket that awaits nothing. -/
def ClientProgram.Ready (c : ClientProgram) : Prop :=
  c.calling = .idle → c.session.awaits = false

theorem Answers.imp {S T : Zmsg → Prop} {q : Question} {r : Zmsg} (h : Answers S q r)
    (hST : S r → T r) : Answers T q r := by
  rw [Answers] at h ⊢
  split_ifs at h ⊢
  · exact h
  · exact hST h

namespace Network

/-- Client `i` is in a call after the calls `before`, and worker `k` of the
    service has the request: its body and the address of the client's socket. -/
def Serving (pr : Programs κ) (n : Network ι κ) (i : ι) (before : List (Call × Option Zmsg))
    (q : Question) (k : κ) : Prop :=
  ∃ c ∈ n.clients i, ∃ w ∈ n.workers k,
    c.returned = before ∧ (∃ x ∈ c.call, x.1.question = q) ∧
      brokerName (pr.service k) = q.1 ∧ w.job = some q.2 ∧
        w.session.mReplyTo = c.session.identity

variable [DecidableEq ι] [DecidableEq κ]

/-- In the run, a worker has replied to the request while the client was in the
    call after the calls `before`. -/
def Served (pr : Programs κ) (now : ℤ) (es : List (NetworkEv ι κ)) (i : ι)
    (before : List (Call × Option Zmsg)) (q : Question) (r : Zmsg) : Prop :=
  ∃ pre k reply, pre ++ [.workerReplies k reply] <+: es ∧
    Serving pr ((system .each pr).run (init now) pre) i before q k ∧
      pr.serve k q.2 reply ∧ r = reply.map arrival

/-- So it is for the client with the address, and the call that it is in. -/
def ServedTo (pr : Programs κ) (now : ℤ) (es : List (NetworkEv ι κ)) (n : Network ι κ) (a : Bytes)
    (q : Question) (r : Zmsg) : Prop :=
  ∃ i c, n.clients i = some c ∧ c.session.identity = a ∧ Served pr now es i c.returned q r

/-- What answers the call that the client with the address is in. -/
abbrev Due (pr : Programs κ) (now : ℤ) (es : List (NetworkEv ι κ)) (n : Network ι κ) (a : Bytes)
    (q : Question) : Zmsg → Prop :=
  Replies (ServedTo pr now es n a q) q

/-- Every reply that a call has returned answers the call. -/
def Answered (pr : Programs κ) (now : ℤ) (es : List (NetworkEv ι κ)) (i : ι) (c : ClientProgram) :
    Prop :=
  ∀ before call reply, before ++ [(call, some reply)] <+: c.returned →
    Answers (Served pr now es i before call.question) call.question reply

variable {n : Network ι κ} {e : NetworkEv ι κ} {es : List (NetworkEv ι κ)} {now : ℤ} {i : ι}
  {c c' : ClientProgram} {before : List (Call × Option Zmsg)} {q : Question} {r : Zmsg}

theorem Served.snoc (h : Served pr now es i before q r) (e : NetworkEv ι κ) :
    Served pr now (es ++ [e]) i before q r := by
  obtain ⟨pre, k, reply, hpre, hserved⟩ := h
  exact ⟨pre, k, reply, hpre.trans (List.prefix_append _ _), hserved⟩

theorem Answered.snoc (h : Answered pr now es i c) (hr : c'.returned = c.returned)
    (e : NetworkEv ι κ) : Answered pr now (es ++ [e]) i c' := by
  intro before call reply hbefore
  exact (h before call reply (hr ▸ hbefore)).imp fun hs => hs.snoc e

/-! ## Steps of the courier -/

variable [Fintype κ] {A : Bytes → Question → Zmsg → Prop}

/-- **What happens in the network are steps of the courier**, if the replies of
    workers answer the callers that wait for them. -/
theorem Sane.steps (h : Sane pr n) (hready : ∀ i c, n.clients i = some c → c.Ready)
    (hA : Internal A)
    (hserve : ∀ k reply w request, e = .workerReplies k reply → n.workers k = some w →
      w.job = some request →
      n.caller w.session.mReplyTo = .waits (brokerName (pr.service k), request) →
      A w.session.mReplyTo (brokerName (pr.service k), request)
        (brokerName (pr.service k) :: reply.map arrival))
    (he : (system .each pr).can n e) (hs : Stops n e) :
    Courier.Steps A (courier pr n) (courier pr ((system .each pr).next n e)) := by
  cases e with
  | broker mail clock addr junk =>
    obtain ⟨hmail, hround⟩ := he
    obtain ⟨out, told, hp⟩ := h.passes mail rfl hmail hround
    exact h.broker_steps hA hmail hp
  | clientStarts i id retries => exact h.starts_steps retries he.1 he.2
  | clientCalls i call =>
    obtain ⟨c, hc, hhalted, hcall⟩ := he
    have hidle : c.calling = .idle := ClientProgram.calling_idle hhalted hcall (hs c hc)
    have hgoes := ClientProgram.run_begins (hready i c hc hidle) call
    simp only [system, next, Option.mem_def.1 hc]
    exact h.goes_steps hc rfl (Or.inl ⟨rfl, hidle⟩) hhalted hgoes
  | clientPolls i mail id =>
    obtain ⟨c, hc, hhalted, hcall, hmail, hid⟩ := he
    obtain ⟨⟨call, left⟩, hcall⟩ := Option.ne_none_iff_exists'.1 hcall
    simp only [system, next, Option.mem_def.1 hc, hcall]
    let c₀ : ClientProgram := { c with
      session := { c.session with ids := fun _ => id }
      call := some (call, left) }
    rcases mail with _ | m
    · have htakes : n.takes c₀.session.identity none = n := takes_none _
      have hgoes := h.goes_steps (A := A) (c := c₀) hc rfl (Or.inr hid) hhalted
        (c₀.run_nothing call left)
      exact htakes.symm ▸ hgoes
    · have hmem : (c₀.session.identity, [] :: m) ∈ n.down := hmail m rfl
      exact h.receives_steps (c := c₀) hc rfl hcall hhalted hmem
  | workerStarts k id clock =>
    obtain ⟨s, htalks, hs, hrun⟩ := WorkerProgram.run_init (pr.service k) id clock
    obtain ⟨-, -, -, l, hl, hall⟩ := htalks fun _ => rfl
    let w := (workerInit (pr.service k) id clock).1
    have hk : n.Known (.inr k) (w.waits s).session.identity := by
      rw [show (w.waits s).session.identity = setId id from congrArg setId hs]
      exact he.2.known
    have hjob : letterJob pr k (n.workers k) = none := by rw [he.1]; rfl
    simp only [system, next, hrun]
    exact h.talks_steps hk hl hall hjob rfl
  | workerPolls k mail id clock =>
    obtain ⟨w, hw, hhalted, hjob, hmail, hid⟩ := he
    obtain ⟨hk, hservice, -⟩ := h.worker k w hw
    have hnone : letterJob pr k (n.workers k) = none := by
      simp [Option.mem_def.1 hw, letterJob, hjob]
    simp only [system, next, Option.mem_def.1 hw]
    let w₀ : WorkerProgram := { w with session := { w.session with clock, ids := fun _ => id } }
    rcases h.worker_hears hk hmail with hother | ⟨client, body, rfl, -, hclient, hasked⟩
    · obtain ⟨s, htalks, hs⟩ := WorkerProgram.run_polls id _ hother w₀
      have hks : n.Known (.inr k) (w₀.waits s).session.identity :=
        Talks.known htalks (fun _ => rfl) (Or.inl hk) hid
      obtain ⟨-, -, -, l, hl, hall⟩ := htalks fun _ => rfl
      let n₁ := n.takes w₀.session.identity mail
      have h₁ : Sane pr n₁ := h.takes _ _
      have htaken : Courier.Steps A (courier pr n) (courier pr n₁) :=
        Courier.Steps.of_le (letters_le le_rfl tsub_le_self) rfl
      rw [hs]
      exact htaken.trans (h₁.talks_steps hks hl (fun m hm => hservice ▸ hall m hm) hnone rfl)
    · exact h.request_steps (w := w₀) hk hnone hhalted hclient (hmail _ rfl)
  | workerReplies k reply =>
    obtain ⟨w, hw, hhalted, request, hjob, -⟩ := he
    simp only [system, next, Option.mem_def.1 hw]
    exact h.reply_steps hw hhalted hjob (hserve k reply w request rfl hw hjob)
  | lost up down => exact Courier.Steps.of_le (letters_le he.1 he.2) rfl

/-! ## The invariant -/

/-- What holds after the events of a run. -/
structure Faithful (pr : Programs κ) (now : ℤ) (es : List (NetworkEv ι κ)) (n : Network ι κ) :
    Prop where
  reached : n = (system .each pr).run (init now) es
  sane : Sane pr n
  orderly : Courier.Orderly (Due pr now es n) (courier pr n)
  ready : ∀ i c, n.clients i = some c → c.Ready
  answered : ∀ i c, n.clients i = some c → Answered pr now es i c

theorem init_faithful (pr : Programs κ) (now : ℤ) :
    Faithful pr now [] (init now : Network ι κ) where
  reached := rfl
  sane := init_sane pr now
  orderly := by
    have hletters : letters pr (init now : Network ι κ) = 0 := by
      simp [letters, lettersUp, lettersHeld, lettersDown, jobs, init, letterJob, Majordomo.init,
        Broker.init, pending, entries, handings, tales]
    have hstart : courier pr (init now : Network ι κ) = Courier.start := by
      rw [courier, hletters]
      rfl
    exact hstart ▸ .start
  ready _ _ h := by cases h
  answered _ _ h := by cases h

omit [DecidableEq ι] [DecidableEq κ] [Fintype κ] in
/-- Clients have identities of their own. -/
theorem Sane.client_inj (h : Sane pr n) {j : ι} (hi : n.clients i = some c)
    (hj : n.clients j = some c') (hid : c.session.identity = c'.session.identity) : i = j := by
  have ho := h.client i c hi
  rw [hid, h.client j c' hj] at ho
  exact (Sum.inl.inj (Option.some.inj ho)).symm

/-- What a client that waits receives answers its call. -/
theorem Faithful.replies (h : Faithful pr now es n) {call : Call} {left : ℤ} {m : Zmsg}
    (hc : n.clients i = some c) (hhalted : c.halted = none) (hcall : c.call = some (call, left))
    (hm : (c.session.identity, [] :: m) ∈ n.down) :
    ∃ reply, m = mdpcClient :: brokerName call.service :: reply ∧
      Answers (Served pr now es i c.returned call.question) call.question (reply.map arrival) := by
  obtain ⟨name, reply, rfl, hletter⟩ := h.sane.letterDown_client (h.sane.client i c hc) hm
  have hwaits : n.caller c.session.identity = .waits call.question := by
    rw [h.sane.caller_client hc, ClientProgram.calling_waits hhalted hcall]
  have hmem : (c.session.identity, .answered (name :: reply.map arrival)) ∈ letters pr n := by
    rw [letters_takes hm, hletter]
    exact Multiset.mem_add.2 (Or.inr (Multiset.mem_singleton_self _))
  obtain ⟨r, hr, hanswers⟩ := h.orderly.answer hwaits hmem
  obtain ⟨rfl, rfl⟩ := List.cons.inj hr
  refine ⟨reply, rfl, hanswers.imp ?_⟩
  rintro ⟨j, c₁, hj, hid, hserved⟩
  obtain rfl := h.sane.client_inj hj hc hid
  obtain rfl : c₁ = c := Option.some.inj (hj.symm.trans hc)
  exact hserved

/-- What becomes of client `i` in a step from `n`. -/
inductive ClientStep (pr : Programs κ) (now : ℤ) (es : List (NetworkEv ι κ)) (n : Network ι κ)
    (i : ι) (c' : ClientProgram) : Prop
  | rests (hc : n.clients i = some c')
  | comes (hcall : c'.call = none) (hr : c'.returned = []) (ha : c'.session.awaits = false)
  /-- its call goes on, or its process ends -/
  | waits (c : ClientProgram) (hc : n.clients i = some c) (hr : c'.returned = c.returned)
      (hcall : c'.call ≠ none ∨ c'.halted ≠ none)
      (hid : c'.session.identity = c.session.identity ∨ n.owner c'.session.identity = none)
  | returns (c : ClientProgram) (call : Call) (reply : Option Zmsg) (hc : n.clients i = some c)
      (hcall : c'.call = none) (hr : c'.returned = c.returned ++ [(call, reply)])
      (ha : reply ≠ none → c'.session.awaits = false)
      (hanswer : ∀ r ∈ reply,
        Answers (Served pr now es i c.returned call.question) call.question r)

section
omit [Fintype κ]

theorem ClientStep.next {n₁ : Network ι κ} {c₀ : ClientProgram} (hn : n₁.clients = n.clients)
    (hc : ∀ halted, (c'.halted ≠ none → halted ≠ none) →
      ClientStep pr now es n i { c' with halted }) (j : ι)
    (hj : (n₁.clientNext .each i c c').clients j = some c₀) : ClientStep pr now es n j c₀ := by
  rcases eq_or_ne j i with rfl | hne
  · obtain rfl : _ = c₀ := by simpa [clientNext] using hj
    refine hc _ fun hh he => hh (Link.ended_eq_none.1 he).2
  · exact .rests (by simpa [clientNext, hne, hn] using hj)

/-- A client sends its request or gives up. -/
theorem ClientStep.goes {c₀ : ClientProgram} {call : Call} {id : RandomId}
    (hc : n.clients i = some c₀) (hr : c.returned = c₀.returned)
    (hid : setId id = c₀.session.identity ∨ n.Unused id)
    (hg : ClientProgram.Goes call id c c') (halted : Option Halt)
    (hh : c'.halted ≠ none → halted ≠ none) :
    ClientStep pr now es n i { c' with halted } := by
  cases hg with
  | sends s left hreq hsid hsent hc' =>
    subst hc'
    refine .waits c₀ hc hr (Or.inl (Option.some_ne_none _)) ?_
    rw [← hsid] at hid
    exact hid
  | fails s h hreq hsid hsent hc' =>
    subst hc'
    refine .waits c₀ hc hr (Or.inr (hh (Option.some_ne_none _))) ?_
    rw [← hsid] at hid
    exact hid
  | quits hc' =>
    subst hc'
    refine .returns c₀ call none hc rfl ?_ (fun h => absurd rfl h) (by simp)
    rw [ClientProgram.ends, hr]

end

/-- **What becomes of a client in a step.** -/
theorem Faithful.client_step (h : Faithful pr now es n) (he : (system .each pr).can n e)
    (hs : Stops n e) (j : ι) (hj : ((system .each pr).next n e).clients j = some c') :
    ClientStep pr now es n j c' := by
  cases e with
  | broker | lost => exact .rests hj
  | workerStarts => exact .rests hj
  | workerPolls k mail id clock =>
    obtain ⟨w, hw, -⟩ := he
    simp only [system, next, Option.mem_def.1 hw] at hj
    exact .rests hj
  | workerReplies k reply =>
    obtain ⟨w, hw, -⟩ := he
    simp only [system, next, Option.mem_def.1 hw] at hj
    exact .rests hj
  | clientStarts i id retries =>
    exact ClientStep.next rfl (fun _ _ => .comes rfl rfl rfl) j hj
  | clientCalls i call =>
    obtain ⟨c, hc, hhalted, hcall⟩ := he
    simp only [system, next, Option.mem_def.1 hc] at hj
    have hidle : c.calling = .idle := ClientProgram.calling_idle hhalted hcall (hs c hc)
    have hgoes := ClientProgram.run_begins (h.ready i c hc hidle) call
    exact ClientStep.next rfl (ClientStep.goes hc rfl (Or.inl rfl) hgoes) j hj
  | clientPolls i mail id =>
    obtain ⟨c, hc, hhalted, hcall, hmail, hid⟩ := he
    obtain ⟨⟨call, left⟩, hcall⟩ := Option.ne_none_iff_exists'.1 hcall
    simp only [system, next, Option.mem_def.1 hc, hcall] at hj
    let c₀ : ClientProgram := { c with
      session := { c.session with ids := fun _ => id }
      call := some (call, left) }
    have htakes : (n.takes c₀.session.identity (mail.map ([] :: ·))).clients = n.clients := rfl
    refine ClientStep.next htakes ?_ j hj
    rcases mail with _ | m
    · exact ClientStep.goes (c := c₀) hc rfl (Or.inr hid) (c₀.run_nothing call left)
    · intro halted hh
      rw [ClientProgram.run_arrived] at hh ⊢
      split_ifs at hh ⊢
      · exact .waits c hc rfl (Or.inl (Option.some_ne_none _)) (Or.inl rfl)
      · refine .returns c call _ hc rfl rfl (fun _ => rfl) fun r hr => ?_
        obtain rfl := Option.some.inj hr
        obtain ⟨reply, rfl, hanswers⟩ := h.replies hc hhalted hcall (hmail m rfl)
        exact hanswers
      · exact .waits c hc rfl (Or.inr (hh (Option.some_ne_none _))) (Or.inl rfl)

section
omit [Fintype κ]

theorem ClientStep.ready (hs : ClientStep pr now es n i c')
    (h : ∀ i c, n.clients i = some c → c.Ready) : c'.Ready := by
  intro hidle
  obtain ⟨hhalted, hcall, hall⟩ := ClientProgram.calling_eq_idle hidle
  cases hs with
  | rests hc => exact h i c' hc hidle
  | comes _ _ ha => exact ha
  | waits c hc hr hnot => exact hnot.elim (absurd hcall) (absurd hhalted)
  | returns c call reply hc _ hr ha => exact ha (hall (call, reply) (hr ▸ by simp))

theorem ClientStep.answered (hs : ClientStep pr now es n i c')
    (h : ∀ i c, n.clients i = some c → Answered pr now es i c) (e : NetworkEv ι κ) :
    Answered pr now (es ++ [e]) i c' := by
  cases hs with
  | rests hc => exact (h i c' hc).snoc rfl e
  | comes _ hr =>
    intro before call reply hbefore
    rw [hr] at hbefore
    exact absurd (List.prefix_nil.1 hbefore) (by simp)
  | waits c hc hr => exact (h i c hc).snoc hr e
  | returns c call reply hc _ hr _ hanswer =>
    intro before call' reply' hbefore
    rw [hr, List.prefix_concat_iff] at hbefore
    rcases hbefore with hlast | hbefore
    · obtain ⟨rfl, hcall⟩ := List.append_inj' hlast rfl
      simp only [List.cons.injEq, Prod.mk.injEq, and_true] at hcall
      obtain ⟨rfl, rfl⟩ := hcall
      exact (hanswer reply' rfl).imp fun hserved => hserved.snoc e
    · exact (h i c hc before call' reply' hbefore).imp fun hserved => hserved.snoc e

/-- What was due to a client that goes on waiting still is. -/
theorem ClientStep.due (hs : ClientStep pr now es n i c') (h : Sane pr n) {n' : Network ι κ}
    (hc' : n'.clients i = some c') (hwaits : c'.calling = .waits q)
    (hd : ServedTo pr now es n c'.session.identity q r) (e : NetworkEv ι κ) :
    ServedTo pr now (es ++ [e]) n' c'.session.identity q r := by
  obtain ⟨j, c₁, hj, hid₁, hserved⟩ := hd
  obtain ⟨hhalted, x, hcall, -⟩ := ClientProgram.calling_eq_waits hwaits
  have hsame : ∀ {c : ClientProgram}, n.clients i = some c → c'.returned = c.returned →
      c'.session.identity = c.session.identity →
        ServedTo pr now (es ++ [e]) n' c'.session.identity q r := by
    intro c hc hr hid
    obtain rfl := h.client_inj hj hc (hid₁.trans hid)
    obtain rfl : c₁ = c := Option.some.inj (hj.symm.trans hc)
    exact ⟨j, c', hc', rfl, hr ▸ hserved.snoc e⟩
  cases hs with
  | rests hc => exact hsame hc rfl rfl
  | comes hnone => simp [hnone] at hcall
  | waits c hc hr hnot hid =>
    rcases hid with hid | hnone
    · exact hsame hc hr hid
    · have ho := h.client j c₁ hj
      rw [hid₁, hnone] at ho
      cases ho
  | returns c call reply hc hnone => simp [hnone] at hcall

end

/-- The reply of a worker is due to the client that waits for it. -/
theorem Faithful.serves (h : Faithful pr now es n) {k : κ} {reply request : Zmsg}
    {w : WorkerProgram} (he : (system .each pr).can n (.workerReplies k reply))
    (hw : n.workers k = some w) (hjob : w.job = some request)
    (hwaits : n.caller w.session.mReplyTo = .waits (brokerName (pr.service k), request)) :
    Due pr now (es ++ [.workerReplies k reply])
      ((system .each pr).next n (.workerReplies k reply)) w.session.mReplyTo
        (brokerName (pr.service k), request)
          (brokerName (pr.service k) :: reply.map arrival) := by
  obtain ⟨w', hw', hhalted, request', hjob', hserve⟩ := he
  obtain rfl : w = w' := Option.some.inj (hw.symm.trans hw')
  obtain rfl : request = request' := Option.some.inj (hjob.symm.trans hjob')
  obtain ⟨-, -, hworks⟩ := h.sane.worker k w hw
  obtain ⟨-, -, -, hasked⟩ := hworks hhalted request hjob
  obtain ⟨i, c, hc, hid, hcalling⟩ := caller_eq_waits hwaits
  obtain ⟨-, hcall⟩ := ClientProgram.calling_eq_waits hcalling
  have hnext : ((system .each pr).next n (.workerReplies k reply)).clients i = some c := by
    simp only [system, next, hw]
    exact hc
  refine ⟨_, rfl, ?_⟩
  rw [Answers, if_neg hasked]
  refine ⟨i, c, hnext, hid, es, k, reply, List.prefix_rfl, ?_, hserve, rfl⟩
  rw [← h.reached]
  exact ⟨c, hc, w, hw, rfl, hcall, rfl, hjob, hid.symm⟩

theorem Faithful.step (h : Faithful pr now es n) (he : (system .each pr).can n e)
    (hs : Stops n e) : Faithful pr now (es ++ [e]) ((system .each pr).next n e) where
  reached := by
    rw [Machine.run_append, ← h.reached]
    rfl
  sane := h.sane.step he
  orderly := by
    let n' := (system .each pr).next n e
    -- a reply is due before the step or after it
    let A (a : Bytes) (q : Question) (r : Zmsg) : Prop :=
      Due pr now es n a q r ∨ Due pr now (es ++ [e]) n' a q r
    have hA : Internal A := fun a q hq status hstatus =>
      Or.inl (internal_replies _ a q hq status hstatus)
    have hsteps : Courier.Steps A (courier pr n) (courier pr n') := by
      refine h.sane.steps h.ready hA ?_ he hs
      rintro k reply w request rfl hw hjob hwaits
      exact Or.inr (h.serves he hw hjob hwaits)
    have horderly : Courier.Orderly A (courier pr n) := h.orderly.imp fun _ _ _ _ => Or.inl
    refine (hsteps.orderly horderly).imp ?_
    rintro a q r hwaits (⟨reply, hr, hanswers⟩ | hdue)
    · obtain ⟨i, c, hc, rfl, hcalling⟩ := caller_eq_waits hwaits
      have hstep := h.client_step he hs i hc
      exact ⟨reply, hr, hanswers.imp fun hd => hstep.due h.sane hc hcalling hd e⟩
    · exact hdue
  ready i _ hc := (h.client_step he hs i hc).ready h.ready
  answered i _ hc := (h.client_step he hs i hc).answered h.answered e

/-- **What `mdcli::send` returns belongs to that very call**, in every run in
    which every part of a message gets on the socket and a client stops when a
    call has returned nothing: for a reserved service it is the request with a
    status of the broker in place of its last part, and for any other a worker of
    the service has replied to the request while the client was in that call. -/
theorem calls_run (hc : (system .each pr).Can (init now) es)
    (hs : (system .each pr).All Stops (init now) es)
    (hi : ((system .each pr).run (init now) es).clients i = some c) {call : Call} {reply : Zmsg}
    (hreturned : before ++ [(call, some reply)] <+: c.returned) :
    Answers (Served pr now es i before call.question) call.question reply := by
  have h : Faithful pr now es ((system .each pr).run (init now) es) :=
    (hc.and hs).inv_hist (init_faithful pr now) fun _ _ _ h he => h.step he.1 he.2
  exact h.answered i c hi before call reply hreturned

/-- A worker that sends back what it gets. -/
def echo : Programs Unit := ⟨fun _ => [2], fun _ request reply => reply = request⟩

instance (k : Unit) (request reply : Zmsg) : Decidable (echo.serve k request reply) :=
  inferInstanceAs (Decidable (reply = request))

/-- The client calls the worker, which has registered. -/
def echoRun : List (NetworkEv Unit Unit) :=
  let worker := setId (.ofNat 0)
  let client := setId (.ofNat 1)
  let finds (m : Mail) (addr : Ptr) : NetworkEv Unit Unit := .broker (some m) (fun _ => 0) addr 0
  [.workerStarts () (.ofNat 0) (fun _ => 0),
    finds (worker, [[], mdpwWorker, mdpwReady, [2]]) 7,
    .clientStarts () (.ofNat 1) 3,
    .clientCalls () ⟨[2], [[4]]⟩,
    finds (client, [[], mdpcClient, [2], [4]]) 8,
    .workerPolls () (some [[], mdpwWorker, mdpwRequest, client, [], [4]]) (.ofNat 2) (fun _ => 0),
    .workerReplies () [[4]],
    finds (worker, [[], mdpwWorker, mdpwReply, client, [], [4]]) 9,
    .clientPolls () (some [mdpcClient, [2], [4]]) (.ofNat 3)]

/-- The call of the client returns what it has sent. -/
theorem calls_run_echo :
    ∃ c ∈ ((system .each echo).run (init 0) echoRun).clients (),
      [] ++ [(⟨[2], [[4]]⟩, some [[4]])] <+: c.returned ∧
        Answers (Served echo 0 echoRun () [] (Call.question ⟨[2], [[4]]⟩))
          (Call.question ⟨[2], [[4]]⟩) [[4]] := by
  have hc : (system .each echo).Can (init 0) echoRun := by decide +kernel
  have hs : (system .each echo).All Stops (init 0) echoRun := by decide +kernel
  obtain ⟨c, hi, hreturned⟩ : ∃ c ∈ ((system .each echo).run (init 0) echoRun).clients (),
      [] ++ [(⟨[2], [[4]]⟩, some [[4]])] <+: c.returned := by decide +kernel
  exact ⟨c, hi, hreturned, calls_run hc hs hi hreturned⟩

end Network

end ProxyBroker.Majordomo
