/-
  What the code of the broker keeps in any state.

  `Allows R`: the relation `R` allows what happens to the tables while requests
  are handed out.  Then each function keeps `R`, however it ends:

  * `Logs G`: the log grows by happenings that meet `G`;
  * `NoService`: services that are unknown stay unknown.

  `MakesOne`: what a message makes a round do is the same when the service that
  it names has been made before.
-/
import ProxyBroker.MajordomoRounds

namespace ProxyBroker.Majordomo

open Proc Zmsg

/-- `R` relates the tables of the two states. -/
def OnTables (R : Tables → Tables → Prop) (s s' : Broker) : Prop := R s.toTables s'.toTables

section
variable (R : Tables → Tables → Prop) [IsPreorder Tables R]

instance : IsPreorder Broker (OnTables R) where
  refl s := refl_of R s.toTables
  trans _ _ _ h h' := trans_of R h h'

/-- What happens to the tables while requests are handed out. -/
structure Allows : Prop where
  sent : ∀ t msg, R t (t.note (.sent msg))
  request : ∀ t wrk w msg, R t (t.note (.workerSend wrk w mdpwRequest msg))
  waiting : ∀ (t : Tables) mWaiting, R t { t with mWaiting }
  worker : ∀ t wrk w, R t (t.setWorker wrk w)
  service : ∀ {t : Tables} {name sv} sv', t.mServices name = some sv → R t (t.setService name sv')
  release : ∀ t wrk id, R t (t.release wrk id)

end

namespace Broker

variable {R : Tables → Tables → Prop} {s : Broker} {wrk : Ptr} {srv name : Bytes} {msg : Zmsg}
  {α : Type}

theorem deref_final (wrk : Ptr) (s : Broker) : (deref wrk).final s = s := by
  cases h : s.heap wrk <;> simp [final, deref, h]

theorem upd_keeps {f : Tables → Tables} (h : ∀ t, R t (f t)) : Keeps (OnTables R) (upd f) :=
  keeps_modify fun s => h s.toTables

variable [IsPreorder Tables R]

theorem deref_keeps (wrk : Ptr) : Keeps (OnTables R) (deref wrk) := fun s => by
  rw [deref_final]
  exact refl_of (OnTables R) s

/-- After `*wrk` the worker is known. -/
theorem deref_bind {k : Worker → Proc Broker α}
    (h : ∀ w, s.heap wrk = some w → OnTables R s ((k w).final s)) :
    OnTables R s ((deref wrk >>= k).final s) := by
  cases hw : s.heap wrk with
  | none =>
    have hrun : (deref wrk >>= k).final s = s := by simp [final, deref, hw]
    rw [hrun]
    exact refl_of (OnTables R) s
  | some w =>
    have hrun : (deref wrk >>= k).final s = (k w).final s := by simp [final, deref, hw]
    rw [hrun]
    exact h w hw

/-- After `*srv` the service is known. -/
theorem derefService_bind {k : Service → Proc Broker α}
    (h : ∀ sv, s.mServices srv = some sv → OnTables R s ((k sv).final s)) :
    OnTables R s ((derefService srv >>= k).final s) := by
  cases hsv : s.mServices srv with
  | none =>
    have hrun : (derefService srv >>= k).final s = s := by
      simp [final, derefService, hsv]
    rw [hrun]
    exact refl_of (OnTables R) s
  | some sv =>
    have hrun : (derefService srv >>= k).final s = (k sv).final s := by
      simp [final, derefService, hsv]
    rw [hrun]
    exact h sv hsv

theorem derefService_keeps {k : Service → Proc Broker α}
    (h : ∀ s sv, s.mServices srv = some sv → OnTables R s ((k sv).final s)) :
    Keeps (OnTables R) (derefService srv >>= k) := fun s => derefService_bind (h s)

theorem sClock_keeps : Keeps (OnTables R) sClock := fun s => refl_of R s.toTables

theorem expired_keeps (now : ℤ) : ∀ wrks, Keeps (OnTables R) (expired now wrks)
  | [] => keeps_pure _
  | wrk :: wrks =>
    (deref_keeps wrk).bind fun _ => (expired_keeps now wrks).bind fun _ => keeps_pure _

theorem mostRecent_keeps : ∀ (ps : List Ptr) (wrk : ℕ) (best : Ptr) (next : ℕ),
    Keeps (@Eq Broker) (mostRecent wrk best next ps)
  | [], wrk, best, next => keeps_pure _
  | p :: ps, wrk, best, next => by
    have hderef : ∀ q, Keeps (@Eq Broker) (deref q) := fun q s => (deref_final q s).symm
    refine (hderef best).bind fun w => (hderef p).bind fun n => ?_
    split_ifs
    · exact mostRecent_keeps ps _ _ _
    · exact mostRecent_keeps ps _ _ _

/-! ## Sending -/

/-- A message that is sent is noted first. -/
theorem send_keeps (h : ∀ t msg, R t (t.note (.sent msg))) (msg : Zmsg) :
    Keeps (OnTables R) (send msg) := by
  refine (upd_keeps fun t => h t msg).bind fun _ s => ?_
  rw [final_zoom]
  exact refl_of R s.toTables

/-- What `worker_send` passes to `send`. -/
def toWorker (w : Worker) (command : Bytes) (msg : Option Zmsg) : Zmsg :=
  (((msg.getD []).pushFront command).pushFront mdpwWorker).wrap w.mIdentity (some [])

theorem workerSend_run {w : Worker} (hw : s.heap wrk = some w) (command : Bytes)
    (msg : Option Zmsg) : (workerSend wrk command [] msg).run s =
      (send (toWorker w command msg)).run
        { s with toTables := s.toTables.note (.workerSend wrk w command msg) } := by
  simp only [workerSend, deref, upd, EStateM.run_bind, EStateM.run_get, hw, EStateM.run_pure,
    EStateM.run_modify]
  rfl

omit [IsPreorder Tables R] in
theorem serviceInternal_sends {R : Broker → Broker → Prop} [IsPreorder Broker R]
    (h : ∀ m, Keeps R (send m)) (name : Bytes) (msg : Zmsg) :
    Keeps R (serviceInternal name msg) := by
  have hanswer : ∀ m : Zmsg, Keeps R (m.unwrap >>= fun r =>
      send ((r.2.wrap mdpcClient (some name)).wrap r.1 (some []))) :=
    fun m => (unwrap_keeps m).bind fun r => h _
  rw [serviceInternal]
  split_ifs
  · refine keeps_get.bind fun s => ?_
    cases msg.body.bind s.mServices with
    | none => exact (keeps_halt .abort).bind hanswer
    | some srv =>
      by_cases hw : srv.mWorkers ≠ 0
      · simp only [if_pos hw]
        exact hanswer _
      · simp only [if_neg hw]
        exact hanswer _
  · exact hanswer _

theorem serviceInternal_keeps (h : ∀ t msg, R t (t.note (.sent msg))) (name : Bytes) (msg : Zmsg) :
    Keeps (OnTables R) (serviceInternal name msg) :=
  serviceInternal_sends (send_keeps h) name msg

/-! ## Telling workers -/

/-- `R` allows what happens to the tables when workers in memory are told
    something, by commands and messages that meet `C`, when they wait, and when
    they are deleted. -/
structure Hands (C : Bytes → Option Zmsg → Prop) (R : Tables → Tables → Prop) : Prop where
  tells : ∀ {t : Tables} {wrk w command msg}, C command msg → t.heap wrk = some w →
    R t ((t.note (.workerSend wrk w command msg)).note (.sent (toWorker w command msg)))
  waiting : ∀ (t : Tables) mWaiting, R t { t with mWaiting }
  waits : ∀ {t : Tables} {wrk w srv sv} expiry, t.heap wrk = some w → w.mService = some srv →
    t.mServices srv = some sv → R t (t.wait wrk w srv sv expiry)
  service : ∀ {t : Tables} {name sv} sv', t.mServices name = some sv → R t (t.setService name sv')
  release : ∀ {t : Tables} {wrk w}, t.heap wrk = some w → R t (t.release wrk w.mIdentity)

theorem workerSend_final {w : Worker} (hw : s.heap wrk = some w) (command : Bytes)
    (m : Option Zmsg) : ((workerSend wrk command [] m).final s).toTables =
      (s.toTables.note (.workerSend wrk w command m)).note (.sent (toWorker w command m)) := by
  rw [final, workerSend_run hw, ← final, send, upd, final_modify_bind, final_zoom]

/-- A worker that begins to wait. -/
theorem workerWaiting_run {w : Worker} {sv : Service} (hw : s.heap wrk = some w)
    (hs : w.mService = some srv) (hsv : s.mServices srv = some sv) :
    (workerWaiting wrk).run s = (serviceDispatch srv none).run
      { s with
        toTables := s.toTables.wait wrk w srv sv (s.clock 0 + heartbeatExpiry)
        clock := fun n => s.clock (n + 1) } := by
  obtain ⟨identity, service, expiry⟩ := w
  obtain rfl : service = some srv := hs
  simp only [workerWaiting, upd, deref, derefService, sClock, EStateM.run_bind, EStateM.run_modify,
    EStateM.run_get, hw, EStateM.run_pure, hsv, EStateM.run_set]
  rfl

namespace Hands

variable {C : Bytes → Option Zmsg → Prop} (hands : Hands C R)
include hands

theorem workerSend {command : Bytes} {m : Option Zmsg} (hc : C command m) (wrk : Ptr) :
    Keeps (OnTables R) (workerSend wrk command [] m) := by
  intro s
  cases hw : s.heap wrk with
  | none =>
    have hrun : (Broker.workerSend wrk command [] m).final s = s := by
      simp [final, Broker.workerSend, deref, hw]
    rw [hrun]
    exact refl_of (OnTables R) s
  | some w =>
    rw [OnTables, workerSend_final hw]
    exact hands.tells hc hw

theorem workerDelete (wrk : Ptr) : Keeps (OnTables R) (workerDelete wrk false) := by
  intro s
  simp only [Broker.workerDelete, Bool.false_eq_true, if_false]
  refine deref_bind fun w hw => ?_
  rcases w.mService with _ | srv
  · exact hands.release hw
  · exact derefService_bind fun sv hsv => trans_of R (hands.service _ hsv) (hands.release hw)

/-- The worker may be told. -/
theorem workerDelete_told (hc : C mdpwDisconnect none) (wrk : Ptr) (disconnect : Bool) :
    Keeps (OnTables R) (Broker.workerDelete wrk disconnect) := by
  cases disconnect with
  | false => exact hands.workerDelete wrk
  | true =>
    have hsplit : Broker.workerDelete wrk true =
        (do Broker.workerSend wrk mdpwDisconnect [] none; Broker.workerDelete wrk false) := rfl
    rw [hsplit]
    exact (hands.workerSend hc wrk).bind fun _ => hands.workerDelete wrk

theorem purgeWorkers : Keeps (OnTables R) purgeWorkers := by
  refine sClock_keeps.bind fun now => keeps_get.bind fun s => ?_
  exact (expired_keeps now _).bind fun toCull => keeps_forM hands.workerDelete toCull

theorem dispatchLoop (hc : ∀ msg, C mdpwRequest (some msg)) (srv : Bytes) :
    ∀ n, Keeps (OnTables R) (dispatchLoop srv n)
  | 0 => keeps_pure _
  | n + 1 => by
    refine derefService_keeps fun s sv hsv => ?_
    rcases sv.mWaiting with _ | ⟨p, ps⟩
    · exact refl_of (OnTables R) s
    rcases sv.mRequests with _ | ⟨msg, requests⟩
    · exact refl_of (OnTables R) s
    refine Keeps.bind_same (mostRecent_keeps ps 0 p 1 s).symm fun r => ?_
    refine Keeps.bind_at (hands.service _ hsv) fun _ => ?_
    refine (hands.workerSend (hc msg) _).bind fun _ => ?_
    refine (upd_keeps fun t => hands.waiting t _).bind fun _ => ?_
    refine derefService_keeps fun s' sv' hsv' => ?_
    exact Keeps.bind_at (hands.service _ hsv') fun _ => dispatchLoop hc srv n

theorem serviceDispatch (hc : ∀ msg, C mdpwRequest (some msg)) (srv : Bytes) :
    Keeps (OnTables R) (serviceDispatch srv none) := by
  simp only [Broker.serviceDispatch]
  refine hands.purgeWorkers.bind fun _ => ?_
  exact derefService_keeps fun s sv hsv => hands.dispatchLoop hc srv _ s

theorem workerWaiting (hc : ∀ msg, C mdpwRequest (some msg)) (wrk : Ptr) :
    Keeps (OnTables R) (workerWaiting wrk) := by
  intro s
  have hstop : (Broker.workerWaiting wrk).final s =
      { s with mWaiting := s.mWaiting.insert wrk } → OnTables R s
        ((Broker.workerWaiting wrk).final s) := by
    intro h
    rw [h]
    exact hands.waiting _ _
  cases hw : s.heap wrk with
  | none => exact hstop (by simp [final, Broker.workerWaiting, upd, deref, hw])
  | some w =>
    cases hs : w.mService with
    | none => exact hstop (by simp [final, Broker.workerWaiting, upd, deref, hw, hs])
    | some srv =>
      cases hsv : s.mServices srv with
      | none =>
        exact hstop (by simp [final, Broker.workerWaiting, upd, deref, derefService, hw, hs, hsv])
      | some sv =>
        rw [final, workerWaiting_run hw hs hsv, ← final]
        exact trans_of R (hands.waits _ hw hs hsv) (hands.serviceDispatch hc srv
          { s with toTables := _, clock := _ })

theorem heartbeats (hc : C mdpwHeartbeat none) : Keeps (OnTables R) heartbeats := by
  refine sClock_keeps.bind fun now => keeps_get.bind fun s => ?_
  split_ifs
  · refine hands.purgeWorkers.bind fun _ => keeps_get.bind fun s' => ?_
    refine (keeps_forM (fun wrk => hands.workerSend hc wrk) _).bind fun _ => ?_
    exact Keeps.bind (fun s => refl_of R s.toTables) fun _ =>
      sClock_keeps.bind fun _ => keeps_pure _
  · exact keeps_pure _

end Hands

/-! ## Handing out requests -/

/-- What allows all happenings one by one allows them together. -/
theorem hands_of_allows (ha : Allows R) {C : Bytes → Option Zmsg → Prop}
    (hsend : ∀ t wrk w command msg, C command msg → R t (t.note (.workerSend wrk w command msg))) :
    Hands C R where
  tells hc _ := trans_of R (hsend _ _ _ _ _ hc) (ha.sent _ _)
  waiting := ha.waiting
  waits {t wrk w srv sv} _ _ _ hsv := by
    let waiting : Tables := { t with mWaiting := t.mWaiting.insert wrk }
    have hservice : ∀ sv', R waiting (waiting.setService srv sv') := fun sv' => ha.service sv' hsv
    exact trans_of R (trans_of R (ha.waiting t _) (hservice _)) (ha.worker _ wrk _)
  service := ha.service
  release _ := ha.release _ _ _

section
variable (ha : Allows R)
include ha

theorem hands_request : Hands (fun command _ => command = mdpwRequest) R :=
  hands_of_allows ha fun t wrk w _ msg hc => hc ▸ ha.request t wrk w msg

theorem workerDelete_keeps (wrk : Ptr) : Keeps (OnTables R) (workerDelete wrk false) :=
  (hands_request ha).workerDelete wrk

theorem serviceDispatch_keeps (srv : Bytes) : Keeps (OnTables R) (serviceDispatch srv none) :=
  (hands_request ha).serviceDispatch (fun _ => rfl) srv

theorem workerWaiting_keeps (wrk : Ptr) : Keeps (OnTables R) (workerWaiting wrk) :=
  (hands_request ha).workerWaiting (fun _ => rfl) wrk

end

/-! ## New services -/

theorem serviceRequire_run (hname : name ≠ []) (junk : BitVec 64) (s : Broker) :
    (serviceRequire name junk).run s =
      .ok name { s with toTables := require s.toTables name junk } := by
  have hwp := serviceRequire_wp name junk s
  cases hr : (serviceRequire name junk).run s with
  | ok a s' =>
    obtain ⟨rfl, rfl, -⟩ := (wp_ok hr).1 hwp
    rfl
  | error e s' => exact absurd ((wp_error hr).1 hwp).2 hname

/-- The request as the broker keeps it: the client is put in front as the
    address to answer to. -/
def addressed (sender : Bytes) (body : Zmsg) : Zmsg := body.wrap sender (some [])

/-- Which branch `client_process` takes. -/
theorem clientProcess_run {sender part b : Bytes} {body : Zmsg} {junk : BitVec 64}
    (hname : cStr part ≠ []) :
    (clientProcess sender (part :: b :: body) junk).run s =
      (if Reserved (cStr part) then serviceInternal (cStr part) (addressed sender (b :: body))
      else serviceDispatch (cStr part) (some (addressed sender (b :: body)))).run
        { s with toTables := require s.toTables (cStr part) junk } := by
  have hparts : ¬ Zmsg.parts (part :: b :: body) < 2 := by simp [parts]
  simp only [clientProcess, if_neg hparts, popFront, EStateM.run_bind, EStateM.run_pure,
    serviceRequire_run hname]
  rfl

/-- A request that names no service ends the process. -/
theorem clientProcess_nameless {sender part b : Bytes} {body : Zmsg} {junk : BitVec 64}
    (hname : cStr part = []) : (clientProcess sender (part :: b :: body) junk).final s = s := by
  have hparts : ¬ Zmsg.parts (part :: b :: body) < 2 := by simp [parts]
  simp [final, clientProcess, hparts, popFront, hname, serviceRequire]

/-- A request is queued first. -/
theorem serviceDispatch_run {sv : Service} (hsv : s.mServices name = some sv) :
    (serviceDispatch name (some msg)).run s =
      (serviceDispatch name none).run { s with toTables := s.toTables.queue name sv msg } := by
  simp only [serviceDispatch, derefService, upd, EStateM.run_bind, EStateM.run_get, hsv,
    EStateM.run_pure, EStateM.run_modify]
  rfl

/-- What `worker_process` does with a worker that is new and ready. -/
theorem workerProcess_run {sender command : Bytes} {rest : Zmsg} {addr : Ptr} {junk : BitVec 64}
    (hsender : sender ≠ []) (hready : cStr command = mdpwReady) (hnew : s.mWorkers sender = none) :
    (workerProcess sender (command :: rest) addr junk).run s =
      (if Reserved sender then workerDelete addr true else workerJoins addr rest junk).run
        { s with toTables := s.toTables.addWorker addr sender } := by
  have hparts : ¬ Zmsg.parts (command :: rest) < 1 := by simp [parts]
  have hlen : ¬ sender.length = 0 := by simpa using hsender
  simp only [workerProcess, if_neg hparts, popFront, EStateM.run_bind, EStateM.run_pure,
    EStateM.run_get, workerRequire, if_neg hlen, hnew, hready, if_true, Option.isSome_none,
    Bool.false_eq_true, if_false, upd, EStateM.run_modify]

/-- The service that a new worker names is required first. -/
theorem workerJoins_keeps_at (ha : Allows R) {junk : BitVec 64} (hreq : ∀ part ∈ msg.head?,
    cStr part ≠ [] → R s.toTables (require s.toTables (cStr part) junk)) :
    OnTables R s ((workerJoins wrk msg junk).final s) := by
  rcases msg with _ | ⟨part, msg⟩
  · exact refl_of (OnTables R) s
  simp only [workerJoins, popFront, pure_bind]
  refine Keeps.bind_at ?_ fun srv => ?_
  · rcases eq_or_ne (cStr part) [] with hname | hname
    · rw [hname]
      exact refl_of (OnTables R) s
    · rw [final_ok (serviceRequire_run hname junk s)]
      exact hreq part rfl hname
  refine (deref_keeps wrk).bind fun w => (upd_keeps fun t => ha.worker t wrk _).bind fun _ => ?_
  refine derefService_keeps fun s' sv hsv => Keeps.bind_at (ha.service _ hsv) fun _ => ?_
  exact workerWaiting_keeps ha wrk

/-! ## Other messages -/

section
variable (ha : Allows R) (hn : ∀ t h, R t (Tables.note t h))
include hn

theorem hands_all (ha : Allows R) : Hands (fun _ _ => True) R :=
  hands_of_allows ha fun t _ _ _ _ _ => hn t _

theorem heartbeats_keeps (ha : Allows R) : Keeps (OnTables R) heartbeats :=
  (hands_all hn ha).heartbeats trivial

include ha

/-- The worker may be told. -/
theorem workerDelete_keeps_told (wrk : Ptr) (disconnect : Bool) :
    Keeps (OnTables R) (workerDelete wrk disconnect) :=
  (hands_all hn ha).workerDelete_told trivial wrk disconnect

theorem workerReplies_keeps (wrk : Ptr) (msg : Zmsg) :
    Keeps (OnTables R) (workerReplies wrk msg) := by
  rw [workerReplies]
  refine (unwrap_keeps msg).bind fun r => (deref_keeps wrk).bind fun w => ?_
  rcases w.mService with _ | srv
  · exact keeps_halt _
  refine derefService_keeps fun s sv hsv => ?_
  refine Keeps.bind_at (hn s.toTables _) fun _ => ?_
  exact (send_keeps (fun t msg => hn t _) _).bind fun _ => workerWaiting_keeps ha wrk

end

end Broker

/-! ## The log -/

/-- The log has grown by happenings that meet `G`. -/
def Logs (G : Happening → Prop) (t u : Tables) : Prop :=
  ∃ l, u.log = t.log ++ l ∧ ∀ h ∈ l, G h

instance (G : Happening → Prop) : IsPreorder Tables (Logs G) where
  refl t := ⟨[], by simp, by simp⟩
  trans s t u := by
    rintro ⟨l, hl, hg⟩ ⟨l', hl', hg'⟩
    refine ⟨l ++ l', by rw [hl', hl, List.append_assoc], ?_⟩
    intro h hmem
    rcases List.mem_append.1 hmem with hmem | hmem
    · exact hg h hmem
    · exact hg' h hmem

variable {G : Happening → Prop} {t u : Tables}

theorem Logs.of_eq (h : u.log = t.log) : Logs G t u := ⟨[], by simp [h], by simp⟩

theorem Logs.note {h : Happening} (hg : G h) : Logs G t (t.note h) :=
  ⟨[h], rfl, by simpa using hg⟩

/-- What happens while requests are handed out. -/
structure Usual (G : Happening → Prop) : Prop where
  sent : ∀ msg, G (.sent msg)
  request : ∀ wrk w msg, G (.workerSend wrk w mdpwRequest msg)
  deleted : ∀ wrk mServices mWorkers mWaiting, G (.deleted wrk mServices mWorkers mWaiting)

theorem Usual.allows (hu : Usual G) : Allows (Logs G) where
  sent _ msg := .note (hu.sent msg)
  request _ wrk w msg := .note (hu.request wrk w msg)
  waiting _ _ := .of_eq rfl
  worker _ _ _ := .of_eq rfl
  service _ _ := .of_eq rfl
  release _ _ _ := ⟨_, rfl, by simpa using hu.deleted ..⟩

/-! ## Services -/

/-- Services that are unknown stay unknown. -/
def NoService (t u : Tables) : Prop := ∀ name, t.mServices name = none → u.mServices name = none

instance : IsPreorder Tables NoService where
  refl _ _ h := h
  trans _ _ _ h h' name hn := h' name (h name hn)

theorem noService_allows : Allows NoService where
  sent _ _ _ h := h
  request _ _ _ _ _ h := h
  waiting _ _ _ h := h
  worker _ _ _ _ h := h
  service {t name sv} sv' hsv name' h := by
    have hne : name' ≠ name := by
      rintro rfl
      exact absurd (h.symm.trans hsv) (by simp)
    simpa [hne] using h
  release _ _ _ _ h := h

namespace Broker

variable {s : Broker} {sender part command name : Bytes} {rest msg : Zmsg} {addr : Ptr}
  {junk : BitVec 64}

/-- `t` is `u`, or `u` after a service has been required. -/
def Requires (junk : BitVec 64) (u t : Tables) : Prop := t = u ∨ ∃ name, t = require u name junk

/-- If `p` makes a service, then only one, which may as well be there before. -/
def MakesOne (p : Proc Broker Unit) (junk : BitVec 64) (s : Broker) : Prop :=
  ∃ t, Requires junk s.toTables t ∧ p.run s = p.run { s with toTables := t } ∧
    NoService t (p.final s).toTables

theorem MakesOne.of_noService {p : Proc Broker Unit}
    (h : OnTables NoService s (p.final s)) : MakesOne p junk s :=
  ⟨s.toTables, .inl rfl, rfl, h⟩

/-- A service that is known stays as it is when it is required. -/
theorem require_require (t : Tables) (name : Bytes) (junk : BitVec 64) :
    require (require t name junk) name junk = require t name junk :=
  require_of_some junk (mServices_require t name junk)

theorem clientProcess_makesOne (sender : Bytes) (msg : Zmsg) (junk : BitVec 64) (s : Broker) :
    MakesOne (clientProcess sender msg junk) junk s := by
  rcases msg with _ | ⟨part, _ | ⟨b, body⟩⟩
  · exact .of_noService (refl_of (OnTables NoService) s)
  · exact .of_noService (refl_of (OnTables NoService) s)
  rcases eq_or_ne (cStr part) [] with hname | hname
  · refine .of_noService ?_
    rw [clientProcess_nameless hname]
    exact refl_of (OnTables NoService) s
  · let t := require s.toTables (cStr part) junk
    refine ⟨t, .inr ⟨cStr part, rfl⟩, ?_, ?_⟩
    · rw [clientProcess_run hname, clientProcess_run hname, require_require]
    · have hrun : (clientProcess sender (part :: b :: body) junk).run s = _ :=
        clientProcess_run hname
      have hsv : t.mServices (cStr part) = some _ := mServices_require ..
      rw [final, hrun]
      split_ifs
      · exact serviceInternal_keeps (R := NoService) (fun _ _ _ h => h) (cStr part) _
          { s with toTables := t }
      · rw [serviceDispatch_run hsv]
        refine trans_of NoService ?_
          (serviceDispatch_keeps noService_allows (cStr part) { s with toTables := t.queue _ _ _ })
        exact noService_allows.service _ hsv

/-- Only a worker that is new and ready brings in a service. -/
theorem workerProcess_noService (h : cStr command = mdpwReady → s.mWorkers sender = none →
    Reserved sender) :
    OnTables NoService s ((workerProcess sender (command :: rest) addr junk).final s) := by
  have hn : ∀ (t : Tables) h, NoService t (t.note h) := fun _ _ _ h => h
  have hdelete := workerDelete_keeps_told noService_allows hn
  have hreq : OnTables NoService s ((workerRequire sender addr).final s) := by
    rw [workerRequire]
    split_ifs
    · exact refl_of (OnTables NoService) s
    · rw [final_get_bind]
      rcases s.mWorkers sender with _ | wrk
      · exact Keeps.bind_at (R := OnTables NoService) (fun _ h => h) fun _ => keeps_pure _
      · exact refl_of (OnTables NoService) s
  have hparts : ¬ Zmsg.parts (command :: rest) < 1 := by simp [parts]
  simp only [workerProcess, if_neg hparts, popFront, pure_bind]
  rw [final_get_bind]
  refine Keeps.bind_at hreq fun wrk => ?_
  split_ifs with hready hknown hres
  · exact hdelete wrk true
  · exact hdelete wrk true
  · exact absurd (h hready (by simpa using hknown)) hres
  · exact workerReplies_keeps noService_allows hn wrk rest
  · exact hdelete wrk true
  · exact sClock_keeps.bind fun now => (deref_keeps wrk).bind fun w =>
      upd_keeps fun t => noService_allows.worker t wrk _
  · exact hdelete wrk true
  · exact hdelete wrk false
  · exact keeps_pure _

/-- A new worker may find its service there. -/
theorem workerJoins_run (hname : cStr part ≠ []) :
    (workerJoins addr (part :: rest) junk).run s = (workerJoins addr (part :: rest) junk).run
      { s with toTables := require s.toTables (cStr part) junk } := by
  simp only [workerJoins, popFront, pure_bind, EStateM.run_bind, serviceRequire_run hname,
    require_require]

theorem workerProcess_makesOne (sender : Bytes) (msg : Zmsg) (addr : Ptr) (junk : BitVec 64)
    (s : Broker) : MakesOne (workerProcess sender msg addr junk) junk s := by
  rcases msg with _ | ⟨command, rest⟩
  · exact .of_noService (refl_of (OnTables NoService) s)
  by_cases hjoins : cStr command = mdpwReady → s.mWorkers sender = none → Reserved sender
  · exact .of_noService (workerProcess_noService hjoins)
  push Not at hjoins
  obtain ⟨hready, hnew, hres⟩ := hjoins
  rcases eq_or_ne sender [] with rfl | hsender
  · exact .of_noService (refl_of (OnTables NoService) s)
  let joins (t : Tables) : Broker := { s with toTables := t.addWorker addr sender }
  have hrun : ∀ t : Tables, t.mWorkers = s.mWorkers →
      (workerProcess sender (command :: rest) addr junk).run { s with toTables := t } =
        (workerJoins addr rest junk).run (joins t) := by
    intro t ht
    have hnew' : ({ s with toTables := t } : Broker).mWorkers sender = none := by
      rw [← hnew]
      exact congrFun ht sender
    rw [workerProcess_run hsender hready hnew', if_neg hres]
  have hfinal : (workerProcess sender (command :: rest) addr junk).final s =
      (workerJoins addr rest junk).final (joins s.toTables) := by
    rw [final, final, ← hrun s.toTables rfl]
  by_cases hname : ∃ part ∈ rest.head?, cStr part ≠ []
  · obtain ⟨part, hpart, hname⟩ := hname
    obtain ⟨rest, rfl⟩ : ∃ l, rest = part :: l := ⟨_, List.eq_cons_of_mem_head? hpart⟩
    let t := require s.toTables (cStr part) junk
    have hjoins : (workerJoins addr (part :: rest) junk).run (joins s.toTables) =
        (workerJoins addr (part :: rest) junk).run (joins t) := workerJoins_run hname
    refine ⟨t, .inr ⟨_, rfl⟩, (hrun s.toTables rfl).trans (hjoins.trans (hrun t rfl).symm), ?_⟩
    rw [hfinal, final, hjoins]
    refine workerJoins_keeps_at (s := joins t) noService_allows fun part' hpart' _ => ?_
    obtain rfl : part = part' := by simpa using hpart'
    rw [require_of_some (t := (joins t).toTables) junk (mServices_require ..)]
    exact refl_of NoService _
  · refine .of_noService ?_
    rw [hfinal]
    exact workerJoins_keeps_at (s := joins s.toTables) noService_allows
      fun part hpart hne => absurd ⟨part, hpart, hne⟩ hname

/-- **A round makes at most one service**, which may as well be there before. -/
theorem receive_makesOne (frames : List Bytes) (addr : Ptr) (junk : BitVec 64) (s : Broker) :
    MakesOne (receive frames addr junk) junk s := by
  have hsame : ∀ p : Proc Broker Unit, p.final s = s → MakesOne p junk s := fun p hp =>
    .of_noService (by rw [hp]; exact refl_of (OnTables NoService) s)
  rw [receive]
  rcases ofSocket (Frame.encode frames) with _ | ⟨msg, _⟩
  · exact hsame _ rfl
  rcases msg with _ | ⟨sender, _ | ⟨empty, _ | ⟨header, msg⟩⟩⟩
  · exact hsame _ rfl
  · exact hsame _ rfl
  · exact hsame _ rfl
  simp only [popFront, pure_bind]
  split_ifs
  · exact clientProcess_makesOne ..
  · exact workerProcess_makesOne ..
  · exact hsame _ rfl

end Broker

end ProxyBroker.Majordomo
