/-
  What the code of the broker does to its tables, function by function.

  Each result says how the tables change when the function returns and when it
  ends the process, and which of the two happens.
-/
import ProxyBroker.MajordomoTables

namespace ProxyBroker.Majordomo

open Proc Zmsg

namespace Broker

variable {s s' : Broker} {t : Tables} {wrk : Ptr} {w : Worker} {srv name : Bytes} {sv : Service}
  {msg : Zmsg} {now : ℤ}

section
variable {α : Type} {E : Broker → Prop}

@[simp] theorem wp_upd {Q : Unit → Broker → Prop} (f : Tables → Tables) :
    (upd f).wp Q E s ↔ Q () { s with toTables := f s.toTables } := Iff.rfl

theorem wp_deref {Q : Worker → Broker → Prop} (hw : s.heap wrk = some w) :
    (deref wrk).wp Q E s ↔ Q w s := by
  simp [deref, hw]

theorem wp_derefService {Q : Service → Broker → Prop} (hsv : s.mServices srv = some sv) :
    (derefService srv).wp Q E s ↔ Q sv s := by
  simp [derefService, hsv]

@[simp] theorem wp_sClock {Q : ℤ → Broker → Prop} :
    sClock.wp Q E s ↔ Q (s.clock 0) { s with clock := fun n => s.clock (n + 1) } := by
  simp [sClock]

end

/-! ## Sending -/

theorem send_wp (msg : Zmsg) (s : Broker) :
    (send msg).wp
      (fun _ s' => ∃ fs, s' = { s with toTables := s.toTables.note (.sent msg), socket := fs } ∧
        Sendable (msg.drop 1))
      (fun s' => ∃ fs, s' = { s with toTables := s.toTables.note (.sent msg), socket := fs } ∧
        ¬ Sendable (msg.drop 1)) s := by
  simp only [send, wp_bind, wp_upd, wp_zoom]
  exact (Zmsg.send_wp msg s.socket).mono (fun _ fs h => ⟨fs, rfl, h⟩) fun fs h => ⟨fs, rfl, h⟩

/-- `worker_send` gets through if the message that it is given can be sent. -/
theorem workerSend_wp (command : Bytes) (msg : Option Zmsg) (hw : s.heap wrk = some w) :
    (workerSend wrk command [] msg).wp
      (fun _ s' => ∃ fs out, s' = { s with
        toTables := (s.toTables.note (.workerSend wrk w command msg)).note (.sent out)
        socket := fs } ∧ Sendable (msg.getD []))
      (fun s' => ∃ fs out, s' = { s with
        toTables := (s.toTables.note (.workerSend wrk w command msg)).note (.sent out)
        socket := fs } ∧ ¬ Sendable (msg.getD [])) s := by
  simp only [workerSend, wp_bind, wp_deref hw, wp_upd]
  refine (send_wp _ _).mono ?_ ?_
  · rintro _ s' ⟨fs, rfl, h⟩
    exact ⟨fs, _, rfl, by simpa [wrap, pushFront] using h⟩
  · rintro s' ⟨fs, rfl, h⟩
    exact ⟨fs, _, rfl, by simpa [wrap, pushFront] using h⟩

/-! ## Deleting workers -/

/-- The workers of `gone` have been deleted, and nothing else has changed but
    the numbers of workers of the services. -/
structure Without (gone : List Ptr) (t u : Tables) : Prop where
  heap : ∀ wrk ∉ gone, u.heap wrk = t.heap wrk
  service : ∀ srv sv, t.mServices srv = some sv → ∃ n, u.mServices srv =
    some { sv with mWaiting := sv.mWaiting.filter (· ∉ gone), mWorkers := n }

theorem Without.refl (t : Tables) : Without [] t t where
  heap _ _ := rfl
  service srv sv hsv := ⟨sv.mWorkers, by simp [hsv]⟩

theorem Without.trans {gone gone' : List Ptr} {u v : Tables} (h : Without gone t u)
    (h' : Without gone' u v) : Without (gone ++ gone') t v where
  heap wrk hwrk := by
    rw [List.mem_append, not_or] at hwrk
    rw [h'.heap wrk hwrk.2, h.heap wrk hwrk.1]
  service srv sv hsv := by
    obtain ⟨n, hu⟩ := h.service srv sv hsv
    obtain ⟨n', hv⟩ := h'.service srv _ hu
    refine ⟨n', hv.trans ?_⟩
    simp only [List.filter_filter, List.mem_append, not_or, Bool.decide_and, Bool.and_comm]

/-- A worker without a service is in no list. -/
theorem without_release (hi : Inv t) (hw : t.heap wrk = some w) (hs : w.mService = none) :
    Without [wrk] t (t.release wrk w.mIdentity) where
  heap wrk' h := by
    have hne : wrk' ≠ wrk := by simpa using h
    simp [Tables.release, hne]
  service srv sv hsv := by
    refine ⟨sv.mWorkers, hsv.trans ?_⟩
    have hall : sv.mWaiting.filter (· ∉ [wrk]) = sv.mWaiting := by
      rw [List.filter_eq_self]
      rintro wrk' h
      have hne : wrk' ≠ wrk := fun he => hi.unlisted hw (by simp [hs]) hsv (he ▸ h)
      simpa using hne
    rw [hall]

theorem without_unlist (hi : Inv t) (hw : t.heap wrk = some w) (hs : w.mService = some srv)
    (hsv : t.mServices srv = some sv) :
    Without [wrk] t ((t.unlist srv sv wrk).release wrk w.mIdentity) where
  heap wrk' h := by
    have hne : wrk' ≠ wrk := by simpa using h
    simp [Tables.release, Tables.unlist, hne]
  service srv' sv' hsv' := by
    rcases eq_or_ne srv' srv with rfl | hne
    · obtain rfl : sv = sv' := Option.some.inj (hsv.symm.trans hsv')
      exact ⟨sv.mWorkers - 1, by simp [Tables.release, Tables.unlist]⟩
    · refine ⟨sv'.mWorkers, ?_⟩
      have hall : sv'.mWaiting.filter (· ∉ [wrk]) = sv'.mWaiting := by
        rw [List.filter_eq_self]
        rintro wrk' h
        have hne' : wrk' ≠ wrk := by
          rintro rfl
          refine hi.unlisted hw ?_ hsv' h
          rw [hs]
          intro he
          exact hne (Option.some.inj he).symm
        simpa using hne'
      rw [hall]
      simpa [Tables.release, Tables.unlist, hne] using hsv'

/-- What `worker_delete` does to the tables after it has told the worker. -/
theorem delete_wp (hi : Inv s.toTables) (hw : s.heap wrk = some w) :
    (workerDelete wrk false).wp
      (fun _ s' => ∃ t, s' = { s with toTables := t } ∧ Change s.toTables t ∧
        Without [wrk] s.toTables t)
      (fun _ => False) s := by
  cases hs : w.mService with
  | none =>
    simp only [workerDelete, Bool.false_eq_true, if_false, wp_bind, wp_deref hw, hs, wp_upd]
    exact ⟨_, rfl, .left wrk w hw hs, without_release hi hw hs⟩
  | some srv =>
    obtain ⟨sv, hsv⟩ := Option.isSome_iff_exists.1 (hi.attached wrk w srv hw hs)
    simp only [workerDelete, Bool.false_eq_true, if_false, wp_bind, wp_deref hw, hs,
      wp_derefService hsv, wp_upd]
    exact ⟨_, rfl, .deleted wrk w srv sv hw hs hsv, without_unlist hi hw hs hsv⟩

/-- `worker_delete` deletes the worker, whether it tells it or not. -/
theorem workerDelete_wp (hi : Inv s.toTables) (hw : s.heap wrk = some w) (disconnect : Bool) :
    (workerDelete wrk disconnect).wp (fun _ s' => Path s.toTables s'.toTables) (fun _ => False)
      s := by
  cases disconnect with
  | false =>
    refine (delete_wp hi hw).mono ?_ fun _ h => h
    rintro _ s' ⟨t, rfl, hc, -⟩
    exact .single hc
  | true =>
    have hsplit : workerDelete wrk true =
        (do workerSend wrk mdpwDisconnect [] none; workerDelete wrk false) := rfl
    rw [hsplit, wp_bind]
    refine (workerSend_wp mdpwDisconnect none hw).mono ?_ ?_
    · rintro _ s' ⟨fs, out, rfl, -⟩
      have h₁ : Change s.toTables (s.toTables.note (.workerSend wrk w mdpwDisconnect none)) :=
        .idle _ (by simp [Happening.Idle, mdpwDisconnect, mdpwRequest])
      have h₂ := Change.idle (t := s.toTables.note (.workerSend wrk w mdpwDisconnect none))
        (.sent out) trivial
      refine (delete_wp (s := { s with toTables := _, socket := fs }) (h₂.inv (h₁.inv hi)) hw).mono
        ?_ fun _ h => h
      rintro _ s' ⟨t, rfl, hc, -⟩
      exact ((Relation.ReflTransGen.single h₁).tail h₂).tail hc
    · rintro s' ⟨fs, out, rfl, h⟩
      exact h sendable_nil

/-! ## Expired workers -/

/-- The worker has expired. -/
def late (t : Tables) (now : ℤ) (wrk : Ptr) : Bool := (t.heap wrk).any (·.mExpiry ≤ now)

/-- The workers that a purge deletes. -/
def culled (t : Tables) (now : ℤ) : List Ptr := t.mWaiting.toList.filter (late t now)

theorem expired_wp (now : ℤ) : ∀ {wrks : List Ptr}, (∀ wrk ∈ wrks, ∃ w, s.heap wrk = some w) →
    (expired now wrks).wp (fun toCull s' => toCull = wrks.filter (late s.toTables now) ∧ s' = s)
      (fun _ => False) s
  | [], _ => ⟨rfl, rfl⟩
  | wrk :: wrks, h => by
    obtain ⟨w, hw⟩ := h wrk List.mem_cons_self
    simp only [expired, wp_bind, wp_deref hw]
    refine (expired_wp now fun p hp => h p (List.mem_cons_of_mem _ hp)).mono ?_ fun _ h => h
    rintro toCull s' ⟨rfl, rfl⟩
    by_cases hlate : w.mExpiry ≤ now <;> simp [late, hw, hlate]

/-- `purge_workers` deletes the workers that have expired. -/
theorem purgeWorkers_wp (hi : Inv s.toTables) :
    purgeWorkers.wp
      (fun _ s' => ∃ t, s' = { s with toTables := t, clock := fun n => s.clock (n + 1) } ∧
        Path s.toTables t ∧ Without (culled s.toTables (s.clock 0)) s.toTables t)
      (fun _ => False) s := by
  simp only [purgeWorkers, wp_bind, wp_sClock, wp_get]
  refine (expired_wp (s := { s with clock := fun n => s.clock (n + 1) }) (s.clock 0)
    fun wrk h => hi.live h).mono ?_ fun _ h => h
  rintro toCull s₁ ⟨rfl, rfl⟩
  have hnd : (culled s.toTables (s.clock 0)).Nodup := s.mWaiting.nodup.filter _
  let I : List Ptr → Broker → Prop := fun l s' => ∃ t done,
    culled s.toTables (s.clock 0) = done ++ l ∧
    s' = { s with toTables := t, clock := fun n => s.clock (n + 1) } ∧
    Path s.toTables t ∧ Without done s.toTables t
  refine (wp_forM (I := I) ?_ ⟨s.toTables, [], rfl, rfl, .refl, .refl _⟩).mono ?_ fun _ h => h
  · rintro wrk l _ ⟨t, done, hl, rfl, hp, hd⟩
    have hmem : wrk ∈ culled s.toTables (s.clock 0) := by simp [hl]
    have hnot : wrk ∉ done := by
      rw [hl] at hnd
      intro h
      exact List.disjoint_of_nodup_append hnd h List.mem_cons_self
    obtain ⟨w, hw⟩ := hi.live (List.mem_filter.1 hmem).1
    have hw' : t.heap wrk = some w := (hd.heap wrk hnot).trans hw
    refine (delete_wp (hp.inv hi) hw').mono ?_ fun _ h => h
    rintro _ s' ⟨t', rfl, hc, hd'⟩
    exact ⟨t', done ++ [wrk], by simp [hl], rfl, hp.tail hc, hd.trans hd'⟩
  · rintro _ s' ⟨t, done, hl, rfl, hp, hd⟩
    rw [List.append_nil] at hl
    exact ⟨t, rfl, hp, hl ▸ hd⟩

/-! ## Dispatching -/

/-- The requests that its waiting workers will get can be sent. -/
def Delivers (sv : Service) : Prop :=
  ∀ msg ∈ sv.mRequests.take sv.mWaiting.length, Sendable msg

/-- A worker gets the first request, and the others get the rest. -/
theorem delivers_iff {i : ℕ} (hi : i < sv.mWaiting.length) (hmsg : sv.mRequests.head? = some msg) :
    Delivers sv ↔ Sendable msg ∧ Delivers { sv with
      mRequests := sv.mRequests.tail, mWaiting := sv.mWaiting.eraseIdx i } := by
  obtain ⟨rest, hreq⟩ := List.head?_eq_some_iff.1 hmsg
  obtain ⟨n, hn⟩ : ∃ n, sv.mWaiting.length = n + 1 := ⟨sv.mWaiting.length - 1, by omega⟩
  simp [Delivers, hreq, List.length_eraseIdx_of_lt hi, hn]

/-- A round ended in this state by ending the process. -/
def Stops (t u : Tables) : Prop := ∃ v, Path t v ∧ Ends v u

theorem Stops.of_path {u v : Tables} (hp : Path t u) (hs : Stops u v) : Stops t v := by
  obtain ⟨z, hz, he⟩ := hs
  exact ⟨z, hp.trans hz, he⟩

theorem mostRecent_wp {l : List Ptr} (hl : ∀ p ∈ l, ∃ w, s.heap p = some w) :
    ∀ {ps : List Ptr} {i next : ℕ} {best : Ptr}, l[i]? = some best → l.drop next = ps →
      (mostRecent i best next ps).wp (fun r s' => s' = s ∧ l[r.1]? = some r.2) (fun _ => False) s
  | [], i, next, best, hbest, _ => ⟨rfl, hbest⟩
  | p :: ps, i, next, best, hbest, hdrop => by
    have hp : l[next]? = some p := by
      rw [← List.head?_drop, hdrop]
      rfl
    have hps : l.drop (next + 1) = ps := by
      rw [← List.tail_drop, hdrop]
      rfl
    obtain ⟨w, hw⟩ := hl best (List.mem_of_getElem? hbest)
    obtain ⟨n, hn⟩ := hl p (List.mem_of_getElem? hp)
    simp only [mostRecent, wp_bind, wp_deref hw, wp_deref hn]
    split_ifs
    · exact mostRecent_wp hl hp hps
    · exact mostRecent_wp hl hbest hps

/-- **The loop of `service_dispatch`** goes on until there is no worker or no
    request left. -/
theorem dispatchLoop_wp : ∀ (n : ℕ) {s : Broker} {sv : Service}, Inv s.toTables →
    s.mServices srv = some sv → sv.mRequests.length ≤ n →
    (dispatchLoop srv n).wp
      (fun _ s' => Path s.toTables s'.toTables ∧ SettledAt srv s'.toTables ∧ Delivers sv)
      (fun s' => Stops s.toTables s'.toTables ∧ ¬ Delivers sv) s := by
  intro n
  induction n with
  | zero =>
    intro s sv _ hsv hlen
    have hreq : sv.mRequests = [] := List.eq_nil_of_length_eq_zero (Nat.le_zero.1 hlen)
    refine ⟨.refl, fun sv' hsv' => Or.inr ?_, by simp [Delivers, hreq]⟩
    obtain rfl : sv = sv' := Option.some.inj (hsv.symm.trans hsv')
    exact hreq
  | succ n ih =>
    intro s sv hi hsv hlen
    have hdone : sv.mWaiting = [] ∨ sv.mRequests = [] → SettledAt srv s.toTables := by
      intro h sv' hsv'
      obtain rfl : sv = sv' := Option.some.inj (hsv.symm.trans hsv')
      exact h
    simp only [dispatchLoop, wp_bind, wp_derefService hsv]
    rcases hwait : sv.mWaiting with _ | ⟨p, ps⟩
    · exact ⟨.refl, hdone (Or.inl hwait), by simp [Delivers, hwait]⟩
    rcases hreq : sv.mRequests with _ | ⟨msg, requests⟩
    · exact ⟨.refl, hdone (Or.inr hreq), by simp [Delivers, hreq]⟩
    simp only [wp_bind]
    have hlive : ∀ q ∈ sv.mWaiting, ∃ w, s.heap q = some w := fun q hq =>
      ((hi.listed srv sv hsv).2 q hq).imp fun _ h => h.1
    refine (mostRecent_wp hlive (by simp [hwait]) (by simp [hwait])).mono ?_ fun _ h => h.elim
    rintro ⟨i, q⟩ s ⟨rfl, hq⟩
    obtain ⟨w, hw⟩ := hlive q (List.mem_of_getElem? hq)
    have hmsg : sv.mRequests.head? = some msg := by simp [hreq]
    have htail : sv.mRequests.tail = requests := by simp [hreq]
    simp only [wp_upd, ← htail, ← hwait]
    let sv₁ : Service := { sv with mRequests := sv.mRequests.tail }
    refine (workerSend_wp (s := { s with toTables := s.toTables.setService srv sv₁ }) mdpwRequest
      (some msg) hw).mono ?_ ?_
    · rintro _ _ ⟨fs, out, rfl, hsend⟩
      have hsv₁ : Function.update s.mServices srv (some sv₁) srv = some sv₁ := by simp
      rw [wp_derefService hsv₁]
      let sv₂ : Service := { sv₁ with mWaiting := sv.mWaiting.eraseIdx i }
      let t : Tables := (s.toTables.hand srv sv q w msg i).note (.sent out)
      have ht : ({ s.toTables with
          mServices := Function.update (Function.update s.mServices srv (some sv₁)) srv (some sv₂)
          mWaiting := s.mWaiting.erase q
          log := s.log ++ [.workerSend q w mdpwRequest (some msg)] ++ [.sent out] } : Tables) =
            t := by
        rw [Function.update_idem]
        rfl
      have hpath : Path s.toTables t :=
        (Relation.ReflTransGen.single (.handed q w srv sv msg i hw hsv hq hmsg)).tail
          (.idle (.sent out) trivial)
      have hdel : Delivers sv ↔ Sendable msg ∧ Delivers sv₂ :=
        delivers_iff (List.getElem?_eq_some_iff.1 hq).1 hmsg
      have hlen₂ : sv₂.mRequests.length ≤ n := by simpa [sv₂, sv₁, hreq] using hlen
      have h := ih (s := { s with toTables := t, socket := fs }) (hpath.inv hi)
        (show t.mServices srv = some sv₂ by simp [t, Tables.hand, sv₂, sv₁]) hlen₂
      rw [← ht] at h hpath
      refine h.mono ?_ ?_
      · rintro _ s' ⟨hp, hset, hd⟩
        exact ⟨hpath.trans hp, hset, hdel.2 ⟨hsend, hd⟩⟩
      · rintro s' ⟨hp, hd⟩
        exact ⟨hp.of_path hpath, fun hd' => hd (hdel.1 hd').2⟩
    · rintro _ ⟨fs, out, rfl, hsend⟩
      refine ⟨⟨s.toTables, .refl, .taken q w srv sv msg out hw hsv (List.mem_of_getElem? hq) hmsg⟩,
        fun hd => hsend (hd msg ?_)⟩
      simp [hreq, hwait]

/-! ## Work that comes in -/

/-- The waiting workers that are left after a purge get requests that can be
    sent. -/
def Dispatches (t : Tables) (now : ℤ) (srv : Bytes) : Prop :=
  ∀ sv, t.mServices srv = some sv →
    Delivers { sv with mWaiting := sv.mWaiting.filter (· ∉ culled t now) }

theorem dispatches_iff (hsv : t.mServices srv = some sv) : Dispatches t now srv ↔
    Delivers { sv with mWaiting := sv.mWaiting.filter (· ∉ culled t now) } := by
  constructor
  · intro h
    exact h sv hsv
  · intro h sv' hsv'
    obtain rfl : sv = sv' := Option.some.inj (hsv.symm.trans hsv')
    exact h

theorem serviceDispatch_wp (hi : Inv s.toTables) (hsv : s.mServices srv = some sv) :
    (serviceDispatch srv none).wp
      (fun _ s' => Path s.toTables s'.toTables ∧ SettledAt srv s'.toTables ∧
        Dispatches s.toTables (s.clock 0) srv)
      (fun s' => Stops s.toTables s'.toTables ∧ ¬ Dispatches s.toTables (s.clock 0) srv) s := by
  simp only [serviceDispatch, wp_bind]
  refine (purgeWorkers_wp hi).mono ?_ fun _ h => h.elim
  rintro _ _ ⟨t, rfl, hp, hw⟩
  obtain ⟨n, hsv₁⟩ := hw.service srv sv hsv
  rw [wp_derefService hsv₁, dispatches_iff hsv]
  refine (dispatchLoop_wp _ (hp.inv hi) hsv₁ le_rfl).mono ?_ ?_
  · rintro _ s' ⟨hp', hset, hd⟩
    exact ⟨hp.trans hp', hset, hd⟩
  · rintro s' ⟨hstop, hd⟩
    exact ⟨hstop.of_path hp, hd⟩

/-- A request that is queued goes out at once if there is a worker for it. -/
theorem dispatches_queue (hset : SettledAt srv t) (hsv : t.mServices srv = some sv) :
    Dispatches (t.queue srv sv msg) now srv ↔
      ((∃ wrk ∈ sv.mWaiting, wrk ∉ culled t now) → Sendable msg) := by
  have hsv₁ : (t.queue srv sv msg).mServices srv =
      some { sv with mRequests := sv.mRequests ++ [msg] } := by simp [Tables.queue]
  rw [dispatches_iff hsv₁, show culled (t.queue srv sv msg) now = culled t now from rfl]
  rcases hset sv hsv with h | h
  · simp [Delivers, h]
  · have hne : (∃ wrk ∈ sv.mWaiting, wrk ∉ culled t now) ↔
        sv.mWaiting.filter (· ∉ culled t now) ≠ [] := by
      simp [List.filter_eq_nil_iff]
    rw [hne]
    cases hf : sv.mWaiting.filter (· ∉ culled t now) <;> simp [Delivers, h]

/-- A worker that begins to wait gets the first request if it is not purged. -/
theorem dispatches_wait (hset : SettledAt srv t) (hsv : t.mServices srv = some sv) (expiry : ℤ) :
    Dispatches (t.wait wrk w srv sv expiry) now srv ↔
      (now < expiry → ∀ msg ∈ sv.mRequests.head?, Sendable msg) := by
  have hsv₁ : (t.wait wrk w srv sv expiry).mServices srv =
      some { sv with mWaiting := sv.mWaiting ++ [wrk] } := by simp [Tables.wait]
  have hwrk : wrk ∈ culled (t.wait wrk w srv sv expiry) now ↔ expiry ≤ now := by
    simp [culled, Tables.wait, late]
  rw [dispatches_iff hsv₁]
  rcases hset sv hsv with h | h
  · rcases lt_or_ge now expiry with hlt | hge
    · cases hr : sv.mRequests <;> simp [Delivers, h, hwrk, hlt]
    · simp [Delivers, h, hwrk, hge, not_lt.2 hge]
  · simp [Delivers, h]

end Broker

end ProxyBroker.Majordomo
