/-
  The requests that the broker of `officialMajordomo` holds, as a multiset over
  all services.

  * `pending`: what has been queued and not been handed to a worker.
  * `Sound.round`: a round adds the request that it brings, and what it hands
    out was pending.
-/
import ProxyBroker.MajordomoSends

namespace ProxyBroker.Majordomo

open Zmsg

variable {t u : Tables} {l l' : List Happening} {h : Happening} {srv : Bytes} {x : Trigger}
  {p : Process Broker} {e : Round} {now : ℤ}

/-! ## Requests in the log -/

/-- A request that is queued, and its service. -/
def Happening.entry : Happening → Option (Bytes × Zmsg)
  | .queued srv msg => some (srv, msg)
  | .workerSend .. | .sent _ | .made _ | .replied _ | .deleted .. => none

/-- The request that a worker is told about, and its service. -/
def handing (x : Worker × Bytes × Option Zmsg) : Option (Bytes × Zmsg) :=
  if x.2.1 = mdpwRequest then x.1.mService.bind fun srv => x.2.2.map (srv, ·) else none

theorem handing_eq_some {y : Worker × Bytes × Option Zmsg} {r : Bytes × Zmsg} :
    handing y = some r ↔ y.2.1 = mdpwRequest ∧ y.1.mService = some r.1 ∧ y.2.2 = some r.2 := by
  obtain ⟨w, command, msg⟩ := y
  obtain ⟨srv, m⟩ := r
  rw [handing, Option.ite_none_right_eq_some]
  refine and_congr_right fun _ => ?_
  cases w.mService <;> cases msg <;> simp

def entries (log : List Happening) : List (Bytes × Zmsg) := log.filterMap Happening.entry

def handings (log : List Happening) : List (Bytes × Zmsg) := (tales log).filterMap handing

/-- The requests that wait. -/
def pending (log : List Happening) : Multiset (Bytes × Zmsg) :=
  (entries log : Multiset (Bytes × Zmsg)) - handings log

@[simp] theorem entries_append : entries (l ++ l') = entries l ++ entries l' :=
  List.filterMap_append

@[simp] theorem handings_append : handings (l ++ l') = handings l ++ handings l' := by
  rw [handings, tales_append, List.filterMap_append]
  rfl

/-- The request if it is for the service. -/
def ofService (srv : Bytes) (r : Bytes × Zmsg) : Option Zmsg := if r.1 = srv then some r.2 else none

theorem queued_eq (srv : Bytes) (t : Tables) :
    queued srv t = (entries t.log).filterMap (ofService srv) := by
  rw [queued, entries, List.filterMap_filterMap]
  refine List.filterMap_congr fun h _ => ?_
  cases h <;> rfl

theorem handed_eq (srv : Bytes) (t : Tables) :
    handed srv t = (handings t.log).filterMap (ofService srv) := by
  rw [handed, handings, tales, List.filterMap_filterMap, List.filterMap_filterMap]
  refine List.filterMap_congr fun h _ => ?_
  rcases h with _ | ⟨wrk, w, command, _ | msg⟩ | _ | _ | _ | _
  · rfl
  · cases hs : w.mService <;> simp [Happening.tale, handing, hs, Happening.requestTo]
  · by_cases hc : command = mdpwRequest
    · cases hs : w.mService <;>
        simp [Happening.tale, handing, hs, Happening.requestTo, hc, ofService]
    · simp [Happening.tale, handing, Happening.requestTo, hc]
  all_goals rfl

theorem count_ofService (r : Bytes × Zmsg) (l : List (Bytes × Zmsg)) :
    (l : Multiset (Bytes × Zmsg)).count r =
      (l.filterMap (ofService r.1) : Multiset Zmsg).count r.2 := by
  obtain ⟨srv, msg⟩ := r
  induction l with
  | nil => rfl
  | cons r' l ih =>
    obtain ⟨srv', msg'⟩ := r'
    rw [← Multiset.cons_coe, Multiset.count_cons, ih]
    by_cases hs : srv' = srv
    · subst hs
      simp [ofService, ← Multiset.cons_coe, Multiset.count_cons]
    · simp [ofService, hs, Ne.symm hs]

/-- Requests are the same if they are for each service. -/
theorem coe_eq_of_ofService {l l' : List (Bytes × Zmsg)}
    (h : ∀ srv, l.filterMap (ofService srv) = l'.filterMap (ofService srv)) :
    (l : Multiset (Bytes × Zmsg)) = l' :=
  Multiset.ext.2 fun r => by rw [count_ofService, count_ofService, h]

/-- What is left grows by what comes and loses what goes. -/
theorem sub_add_of_le {α : Type} [DecidableEq α] {m n m' n' : Multiset α} (h : n ≤ m)
    (h' : n + n' ≤ m + m') : m + m' - (n + n') + n' = m - n + m' := by
  refine add_right_cancel (b := n) ?_
  calc m + m' - (n + n') + n' + n
      = m + m' - (n + n') + (n + n') := by rw [add_assoc, add_comm n' n]
    _ = m + m' := tsub_add_cancel_of_le h'
    _ = m - n + n + m' := by rw [tsub_add_cancel_of_le h]
    _ = m - n + m' + n := add_right_comm ..

/-! ## Steps -/

/-- A worker is told of a request only if it has a service and there is one. -/
def Happening.Sensible (h : Happening) : Prop :=
  ∀ x ∈ h.tale, x.2.1 = mdpwRequest → (handing x).isSome

theorem Change.sensible (hc : Change t u) (hi : Inv t) : Logs Happening.Sensible t u := by
  cases hc with
  | idle h hh =>
    refine .note fun x hx hc => ?_
    cases h with
    | workerSend =>
      obtain rfl := Option.some.inj hx
      exact absurd hc hh
    | _ => cases hx
  | service | attached | seen => exact .of_eq rfl
  | worker | left | deleted => exact ⟨_, rfl, by simp [Happening.Sensible, Happening.tale]⟩
  | handed wrk w srv sv msg i hw hsv hpos hmsg =>
    have hs := hi.service hsv (List.mem_of_getElem? hpos) hw
    exact ⟨_, rfl, by simp [Happening.Sensible, Happening.tale, handing, hs]⟩

theorem Path.sensible (hp : Path t u) (hi : Inv t) : Logs Happening.Sensible t u := by
  induction hp with
  | refl => exact refl_of _ t
  | tail hp hc ih => exact trans_of _ ih (hc.sensible (Path.inv hp hi))

theorem Fires.sensible (hf : Fires t x u) : Logs Happening.Sensible t u := by
  cases x with
  | none => exact .of_eq (congrArg Tables.log hf)
  | queue srv msg =>
    obtain ⟨sv, -, rfl⟩ := hf
    exact ⟨_, rfl, by simp [Happening.Sensible, Happening.tale]⟩
  | wait wrk srv =>
    obtain ⟨w, sv, expiry, -, -, -, -, rfl⟩ := hf
    exact .of_eq rfl

theorem Ends.sensible (he : Ends t u) (hi : Inv t) : Logs Happening.Sensible t u := by
  cases he with
  | stopped => exact refl_of _ t
  | taken wrk w srv sv msg out hw hsv hwrk hmsg =>
    have hs := hi.service hsv hwrk hw
    have htake : Logs Happening.Sensible t (t.take srv sv wrk w msg) :=
      ⟨_, rfl, by simp [Happening.Sensible, Happening.tale, handing, hs]⟩
    exact trans_of _ htake (.note (by simp [Happening.Sensible, Happening.tale]))

/-- A round tells workers only of requests that there are. -/
theorem Live.sensible (h : Live p) (he : machine.can p e) :
    Logs Happening.Sensible p.st.toTables (machine.next p e).st.toTables := by
  obtain ⟨x, -, ⟨-, z, z', hz, hf, hu, -⟩ | ⟨-, z, z', hz, hf, y, hy, hend⟩⟩ := step_course h he
  · exact trans_of _ (trans_of _ (hz.sensible h.inv) hf.sensible)
      (hu.sensible (hf.inv (hz.inv h.inv)))
  · have hi := hf.inv (hz.inv h.inv)
    exact trans_of _ (trans_of _ (hz.sensible h.inv) hf.sensible)
      (trans_of _ (hy.sensible hi) (hend.sensible (hy.inv hi)))

/-! ## Rounds -/

/-- What holds between two rounds of the broker and its log. -/
structure Sound (p : Process Broker) : Prop where
  live : Live p
  accounted : ∀ srv, account srv p.st.toTables = queued srv p.st.toTables
  /-- a request has an address in front, and a body -/
  shaped : ∀ r ∈ entries p.st.log, ∃ client body, r.2 = client :: [] :: body ∧ body ≠ []

theorem init_sound (now : ℤ) : Sound (init now) := ⟨init_live now, fun _ => rfl, by simp [init, entries, Broker.init]⟩

/-- What has been handed out had been queued. -/
theorem Sound.handings_le (h : Sound p) :
    (handings p.st.log : Multiset (Bytes × Zmsg)) ≤ entries p.st.log := by
  refine Multiset.le_iff_count.2 fun r => ?_
  have hacc := h.accounted r.1
  rw [account, handed_eq, queued_eq] at hacc
  rw [count_ofService, count_ofService, ← hacc, ← Multiset.coe_add, Multiset.count_add]
  exact Nat.le_add_right _ _

/-- The request that a round brings, and its service. -/
def Round.entry (e : Round) : Option (Bytes × Zmsg) := e.frames.bind clientRequest

theorem Round.requestFor_eq (srv : Bytes) (e : Round) :
    (e.requestFor srv).toList = e.entry.toList.filterMap (ofService srv) := by
  rw [Round.requestFor, Round.entry]
  cases e.frames.bind clientRequest with
  | none => rfl
  | some r => by_cases hs : r.1 = srv <;> simp [ofService, hs]

theorem entry_shaped {r : Bytes × Zmsg} (h : e.entry = some r) :
    ∃ client body, r.2 = client :: [] :: body ∧ body ≠ [] := by
  obtain ⟨frames, -, hr⟩ := Option.bind_eq_some_iff.1 h
  rw [clientRequest] at hr
  generalize frames.map recvPart = parts at hr
  rcases parts with _ | ⟨sender, _ | ⟨empty, _ | ⟨header, _ | ⟨part, body⟩⟩⟩⟩
  · cases hr
  · cases hr
  · cases hr
  · cases hr
  simp only at hr
  split_ifs at hr with hc
  obtain rfl := Option.some.inj hr
  exact ⟨_, body, rfl, hc.2.2.1⟩

/-- **What a round adds and hands out.** -/
theorem Sound.round (h : Sound p) (he : machine.can p e) :
    Sound (machine.next p e) ∧ ∃ l, (machine.next p e).st.log = p.st.log ++ l ∧
      pending (machine.next p e).st.log + handings l = pending p.st.log + e.entry.toList ∧
      ∀ x ∈ tales l, x.2.1 = mdpwRequest → (handing x).isSome := by
  obtain ⟨l, hl, hsens⟩ := h.live.sensible he
  have henters : (entries l : Multiset (Bytes × Zmsg)) = e.entry.toList := by
    refine coe_eq_of_ofService fun srv => ?_
    have hlogged := (h.live.enters he srv).logged
    rw [queued_eq, queued_eq, hl, entries_append, List.filterMap_append] at hlogged
    rw [← Round.requestFor_eq]
    exact List.append_cancel_left hlogged
  have hnext : Sound (machine.next p e) := by
    refine ⟨h.live.step he, fun srv => ?_, fun r hr => ?_⟩
    · rw [(h.live.enters he srv).accounted, (h.live.enters he srv).logged, h.accounted]
    · rw [hl, entries_append, List.mem_append] at hr
      rcases hr with hr | hr
      · exact h.shaped r hr
      · rw [← Multiset.mem_coe, henters] at hr
        exact entry_shaped (by simpa using hr)
  refine ⟨hnext, l, hl, ?_, fun x hx => ?_⟩
  · have hle := h.handings_le
    have hle' := hnext.handings_le
    rw [hl] at hle' ⊢
    simp only [pending, entries_append, handings_append, ← Multiset.coe_add, henters] at hle' ⊢
    exact sub_add_of_le hle hle'
  · obtain ⟨y, hy, hyx⟩ := List.mem_filterMap.1 hx
    exact hsens y hy x hyx

end ProxyBroker.Majordomo
