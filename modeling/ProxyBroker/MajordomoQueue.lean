/-
  The requests of the clients in the broker of `officialMajordomo`.

  * `account`: the requests of a service that have been handed to a worker and
    those in its queue; only new requests change it (`Enters`).
  * `requests_run`: no request is lost, duplicated or overtaken.
-/
import ProxyBroker.MajordomoRuns

namespace ProxyBroker.Majordomo

open Zmsg

/-- The request that is handed to a worker of the service. -/
def Happening.requestTo (srv : Bytes) : Happening → Option Zmsg
  | .workerSend _ w command (some msg) =>
    if command = mdpwRequest ∧ w.mService = some srv then some msg else none
  | .workerSend _ _ _ none | .queued .. | .sent _ | .made _ | .replied _ | .deleted .. => none

/-- The request that is queued for the service. -/
def Happening.requestFor (srv : Bytes) : Happening → Option Zmsg
  | .queued name msg => if name = srv then some msg else none
  | .workerSend .. | .sent _ | .made _ | .replied _ | .deleted .. => none

/-- The request that work brings to the service. -/
def Trigger.requestFor (srv : Bytes) : Trigger → Option Zmsg
  | .queue name msg => if name = srv then some msg else Option.none
  | .none | .wait .. => Option.none

/-- The requests handed to workers of the service. -/
def handed (srv : Bytes) (t : Tables) : List Zmsg := t.log.filterMap (·.requestTo srv)

/-- The requests queued for the service. -/
def queued (srv : Bytes) (t : Tables) : List Zmsg := t.log.filterMap (·.requestFor srv)

/-- `m_requests` of the service. -/
def requests (srv : Bytes) (t : Tables) : List Zmsg := (t.mServices srv).elim [] Service.mRequests

/-- All requests of the service, the oldest first. -/
def account (srv : Bytes) (t : Tables) : List Zmsg := handed srv t ++ requests srv t

variable {t u : Tables} {srv name : Bytes} {sv : Service} {h : Happening} {msg : Zmsg} {w : Worker}
  {wrk : Ptr} {x : Trigger}

@[simp] theorem handed_note : handed srv (t.note h) = handed srv t ++ (h.requestTo srv).toList := by
  cases hr : h.requestTo srv <;> simp [handed, hr]

@[simp] theorem queued_note :
    queued srv (t.note h) = queued srv t ++ (h.requestFor srv).toList := by
  cases hr : h.requestFor srv <;> simp [queued, hr]

@[simp] theorem requests_note : requests srv (t.note h) = requests srv t := rfl

theorem requests_setService :
    requests srv (t.setService name sv) = if srv = name then sv.mRequests else requests srv t := by
  split_ifs with hs
  · simp [requests, hs]
  · simp [requests, hs]

theorem requests_of_some (hsv : t.mServices srv = some sv) : requests srv t = sv.mRequests := by
  simp [requests, hsv]

theorem Happening.Idle.requestTo (hh : h.Idle) : h.requestTo srv = none := by
  rcases h with _ | ⟨wrk, w, command, _ | msg⟩ | _ | _ | _ | _
  · rfl
  · rfl
  · exact if_neg fun hc => hh hc.1
  all_goals rfl

theorem Happening.Idle.requestFor (hh : h.Idle) : h.requestFor srv = none := by
  cases h with
  | queued => exact hh.elim
  | _ => rfl

/-- A worker in the list of a service has it as its service. -/
theorem Inv.service (hi : Inv t) (hsv : t.mServices srv = some sv) (hwrk : wrk ∈ sv.mWaiting)
    (hw : t.heap wrk = some w) : w.mService = some srv := by
  obtain ⟨w', hw', hs⟩ := (hi.listed srv sv hsv).2 wrk hwrk
  exact Option.some.inj (hw.symm.trans hw') ▸ hs

/-- A service that keeps its queue. -/
theorem requests_keep (hsv : t.mServices name = some sv) {sv' : Service}
    (hreq : sv'.mRequests = sv.mRequests) :
    requests srv (t.setService name sv') = requests srv t := by
  rw [requests_setService]
  split_ifs with hs
  · rw [hs, requests_of_some hsv, hreq]
  · rfl

/-! ## Steps -/

/-- The requests `new` come to the service, and nothing happens to the others. -/
structure Enters (srv : Bytes) (new : List Zmsg) (t u : Tables) : Prop where
  accounted : account srv u = account srv t ++ new
  logged : queued srv u = queued srv t ++ new

theorem Enters.refl (srv : Bytes) (t : Tables) : Enters srv [] t t := ⟨by simp, by simp⟩

theorem Enters.trans {new new' : List Zmsg} {v : Tables} (h : Enters srv new t u)
    (h' : Enters srv new' u v) : Enters srv (new ++ new') t v where
  accounted := by rw [h'.accounted, h.accounted, List.append_assoc]
  logged := by rw [h'.logged, h.logged, List.append_assoc]

/-- Nothing comes in. -/
theorem Enters.none (ha : account srv u = account srv t) (hq : queued srv u = queued srv t) :
    Enters srv [] t u := ⟨by simp [ha], by simp [hq]⟩

/-- A request that is handed out was the first of its queue. -/
theorem account_hand (hi : Inv t) (hsv : t.mServices name = some sv) (hwrk : wrk ∈ sv.mWaiting)
    (hw : t.heap wrk = some w) (hmsg : sv.mRequests.head? = some msg) (sv' : Service)
    (hreq : sv'.mRequests = sv.mRequests.tail) (srv : Bytes) :
    handed srv t ++ (Happening.requestTo srv (.workerSend wrk w mdpwRequest (some msg))).toList ++
      requests srv (t.setService name sv') = account srv t := by
  have hs := hi.service hsv hwrk hw
  obtain ⟨rest, hrest⟩ := List.head?_eq_some_iff.1 hmsg
  rw [requests_setService, Happening.requestTo, account]
  by_cases hsrv : srv = name
  · subst hsrv
    rw [requests_of_some hsv]
    simp [hs, hreq, hrest]
  · have hne : name ≠ srv := fun h => hsrv h.symm
    simp [hs, hsrv, hne]

/-- Steps that bring in no work keep the account. -/
theorem account_change (hc : Change t u) (hi : Inv t) : account srv u = account srv t := by
  cases hc with
  | idle h hh => simp [account, hh.requestTo]
  | service name junk hn =>
    have hreq : requests srv (t.setService name ⟨name, [], [], junk⟩) = requests srv t := by
      rw [requests_setService]
      split_ifs with hs
      · simp [requests, hs, hn]
      · rfl
    exact congrArg (handed srv t ++ ·) hreq
  | worker wrk id hwrk hid =>
    simp [account, Tables.addWorker, handed, requests, Happening.requestTo]
  | attached wrk w name sv hw hs hsv =>
    exact congrArg (handed srv t ++ ·) (requests_keep (t := t.setWorker wrk _) hsv rfl)
  | seen wrk w expiry hw => rfl
  | left wrk w hw hs =>
    simp [account, Tables.release, handed, requests, Happening.requestTo]
  | deleted wrk w name sv hw hs hsv =>
    have hreq : requests srv (t.unlist name sv wrk) = requests srv t := requests_keep hsv rfl
    rw [account, account, ← hreq]
    simp [Tables.release, Tables.unlist, handed, requests, Happening.requestTo]
  | handed wrk w name sv msg i hw hsv hpos hmsg =>
    let sv' : Service :=
      { sv with mRequests := sv.mRequests.tail, mWaiting := sv.mWaiting.eraseIdx i }
    rw [← account_hand hi hsv (List.mem_of_getElem? hpos) hw hmsg sv' rfl srv, account, Tables.hand,
      handed_note]
    rfl

theorem queued_change (hc : Change t u) : queued srv u = queued srv t := by
  cases hc with
  | idle h hh => simp [hh.requestFor]
  | service | attached | seen => rfl
  | worker | left | deleted | handed =>
    simp [queued, Tables.addWorker, Tables.release, Tables.unlist, Tables.hand,
      Happening.requestFor]

theorem Path.enters (hp : Path t u) (hi : Inv t) (srv : Bytes) : Enters srv [] t u := by
  induction hp with
  | refl => exact .refl srv t
  | tail hp hc ih => exact ih.trans (.none (account_change hc (Path.inv hp hi)) (queued_change hc))

/-- Work is entered into the account. -/
theorem Fires.enters (hf : Fires t x u) (srv : Bytes) :
    Enters srv (x.requestFor srv).toList t u := by
  cases x with
  | none =>
    obtain rfl : u = t := hf
    exact .refl srv u
  | queue name msg =>
    obtain ⟨sv, hsv, rfl⟩ := hf
    constructor
    · rw [account, account, Tables.queue, handed_note, requests_note, requests_setService]
      by_cases hs : srv = name
      · subst hs
        simp [handed, Happening.requestTo, Trigger.requestFor, requests_of_some hsv]
      · have hne : name ≠ srv := fun h => hs h.symm
        simp [handed, Happening.requestTo, Trigger.requestFor, hs, hne]
    · rw [Tables.queue, queued_note]
      rfl
  | wait wrk name =>
    obtain ⟨w, sv, expiry, hw, hs, hsv, -, rfl⟩ := hf
    have hreq : requests srv (t.wait wrk w name sv expiry) = requests srv t :=
      requests_keep (t := { t with mWaiting := t.mWaiting.insert wrk }) hsv rfl
    exact .none (congrArg (handed srv t ++ ·) hreq) rfl

/-- A request that was not sent has been handed out. -/
theorem Ends.enters (he : Ends t u) (hi : Inv t) (srv : Bytes) : Enters srv [] t u := by
  cases he with
  | stopped => exact .refl srv t
  | taken wrk w name sv msg out hw hsv hwrk hmsg =>
    refine .none ?_ ?_
    · rw [← account_hand hi hsv hwrk hw hmsg { sv with mRequests := sv.mRequests.tail } rfl srv,
        account, handed_note, requests_note, Tables.take, handed_note, requests_note]
      simp [handed, Happening.requestTo]
    · simp [Tables.take, queued, Happening.requestFor]

theorem Course.enters (hc : Course x t u) (hi : Inv t) (srv : Bytes) :
    Enters srv (x.requestFor srv).toList t u := by
  obtain ⟨z, z', hz, hf, hu, -⟩ := hc
  have h := ((hz.enters hi srv).trans (hf.enters srv)).trans (hu.enters (hf.inv (hz.inv hi)) srv)
  simpa using h

theorem Cut.enters (hc : Cut x t u) (hi : Inv t) (srv : Bytes) :
    Enters srv (x.requestFor srv).toList t u := by
  obtain ⟨z, z', hz, hf, y, hy, he⟩ := hc
  have hi' := hf.inv (hz.inv hi)
  have h := (((hz.enters hi srv).trans (hf.enters srv)).trans (hy.enters hi' srv)).trans
    (he.enters (hy.inv hi') srv)
  simpa using h

/-! ## Runs -/

/-- The request that a client makes, and its service: the client is put in
    front of the body as the address to answer to. -/
def clientRequest (frames : List Bytes) : Option (Bytes × Zmsg) :=
  match frames.map recvPart with
  | sender :: _ :: header :: part :: body =>
    if cStr header = mdpcClient ∧ cStr part ≠ [] ∧ body ≠ [] ∧ ¬ Broker.Reserved (cStr part) then
      some (cStr part, cStr sender :: [] :: body)
    else none
  | _ => none

/-- The request that a round brings to the service. -/
def Round.requestFor (srv : Bytes) (e : Round) : Option Zmsg :=
  (e.frames.bind clientRequest).bind fun r => if r.1 = srv then some r.2 else none

variable {s : Broker} {p : Process Broker} {e : Round} {es : List Round} {now : ℤ}

/-- A worker brings no requests. -/
theorem requestFor_worker {sender : Bytes} (hx : s.WorkerWork sender msg x) :
    x.requestFor srv = none := by
  cases x with
  | queue => exact hx.elim
  | none | wait => rfl

/-- The request in a message is what the message brings. -/
theorem requestFor_brings (hx : s.RoundBrings e x) : x.requestFor srv = e.requestFor srv := by
  unfold Broker.RoundBrings at hx
  unfold Round.requestFor
  generalize e.frames = f at hx ⊢
  rcases f with _ | frames
  · exact congrArg _ hx
  simp only [Broker.Brings] at hx
  rw [Option.bind_some, clientRequest]
  generalize frames.map recvPart = parts at hx ⊢
  rcases parts with _ | ⟨sender, _ | ⟨empty, _ | ⟨header, msg⟩⟩⟩
  · exact congrArg _ hx
  · exact congrArg _ hx
  · exact congrArg _ hx
  simp only at hx
  split_ifs at hx with hclient hworker
  · subst hx
    rcases msg with _ | ⟨part, body⟩
    · rfl
    by_cases hc : cStr part = [] ∨ body = [] ∨ Broker.Reserved (cStr part)
    · have hn : ¬ (cStr part ≠ [] ∧ body ≠ [] ∧ ¬ Broker.Reserved (cStr part)) := by tauto
      simp only [Broker.clientWork, if_pos hc, hclient, true_and, if_neg hn]
      rfl
    · have hn : cStr part ≠ [] ∧ body ≠ [] ∧ ¬ Broker.Reserved (cStr part) := by tauto
      simp only [Broker.clientWork, if_neg hc, hclient, true_and, if_pos hn, cStr_cStr]
      rfl
  · rw [requestFor_worker hx]
    rcases msg with _ | ⟨part, body⟩
    · rfl
    · simp [hclient]
  · subst hx
    rcases msg with _ | ⟨part, body⟩
    · rfl
    · simp [hclient, Trigger.requestFor]

/-- **What a round brings in is entered**, and nothing else. -/
theorem Live.enters (h : Live p) (he : machine.can p e) (srv : Bytes) :
    Enters srv (e.requestFor srv).toList p.st.toTables (machine.next p e).st.toTables := by
  obtain ⟨x, hx, ⟨-, hcourse⟩ | ⟨-, hcut⟩⟩ := step_course h he
  · exact requestFor_brings hx ▸ hcourse.enters h.inv srv
  · exact requestFor_brings hx ▸ hcut.enters h.inv srv

/-- What the rounds of a run bring in is entered. -/
theorem enters_run (hc : machine.Can (init now) es) (srv : Bytes) :
    Live (machine.run (init now) es) ∧ Enters srv (es.filterMap (·.requestFor srv))
      (init now).st.toTables (machine.run (init now) es).st.toTables := by
  refine hc.inv_hist (I := fun es p => Live p ∧
    Enters srv (es.filterMap (·.requestFor srv)) (init now).st.toTables p.st.toTables)
    ⟨init_live now, .refl srv _⟩ ?_
  rintro hist p e ⟨hl, h⟩ he
  have happ : (hist ++ [e]).filterMap (·.requestFor srv) =
      hist.filterMap (·.requestFor srv) ++ (e.requestFor srv).toList := by
    cases hr : e.requestFor srv <;> simp [hr]
  exact ⟨hl.step he, happ ▸ h.trans (hl.enters he srv)⟩

/-- **No request is lost, duplicated or overtaken**: what has been handed to
    the workers of a service and what is in its queue are the requests of the
    clients, in order; and after a round nobody waits for nothing. -/
theorem requests_run (hc : machine.Can (init now) es) (srv : Bytes) :
    let p := machine.run (init now) es
    handed srv p.st.toTables ++ requests srv p.st.toTables = queued srv p.st.toTables ∧
      queued srv p.st.toTables = es.filterMap (·.requestFor srv) ∧
      (p.halted = none → SettledAt srv p.st.toTables) := by
  obtain ⟨hl, ha, hq⟩ := enters_run hc srv
  exact ⟨ha.trans hq.symm, hq, fun hh => hl.settled hh srv⟩

/-- Of two requests, the worker that is ready gets the first. -/
theorem requests_run_two :
    let p := machine.run (init 0)
      [.ready [1] [2] 7, .request [3] [2] [4] 8, .request [3] [2] [5] 8]
    handed [2] p.st.toTables = [[[3], [], [4]]] ∧
      handed [2] p.st.toTables ++ requests [2] p.st.toTables = queued [2] p.st.toTables ∧
      queued [2] p.st.toTables = [[[3], [], [4]], [[3], [], [5]]] := by
  have hc : machine.Can (init 0)
    [.ready [1] [2] 7, .request [3] [2] [4] 8, .request [3] [2] [5] 8] := by decide
  obtain ⟨hacc, hq, -⟩ := requests_run hc [2]
  exact ⟨by decide, hacc, hq⟩

end ProxyBroker.Majordomo
