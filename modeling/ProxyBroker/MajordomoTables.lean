/-
  What the broker of `officialMajordomo` does to its tables.

  * `Change`: the steps in which a round changes the tables, other than those
    that bring in work: a client's request is queued, a worker waits (`Fires`).
  * `Inv`: every pointer in the containers is to a worker that is alive, and
    to one of the right service.
  * `SettledAt`: no worker of a service waits while a request is queued.
-/
import ProxyBroker.Majordomo

namespace ProxyBroker.Majordomo

variable {t t' u : Tables} {wrk wrk' : Ptr} {w : Worker} {srv name id : Bytes} {sv : Service}
  {msg : Zmsg} {h : Happening}

namespace Tables

@[simp] theorem heap_note : (t.note h).heap = t.heap := rfl
@[simp] theorem mServices_note : (t.note h).mServices = t.mServices := rfl
@[simp] theorem mWorkers_note : (t.note h).mWorkers = t.mWorkers := rfl
@[simp] theorem mWaiting_note : (t.note h).mWaiting = t.mWaiting := rfl
@[simp] theorem log_note : (t.note h).log = t.log ++ [h] := rfl

@[simp] theorem heap_setService : (t.setService srv sv).heap = t.heap := rfl
@[simp] theorem mServices_setService :
    (t.setService srv sv).mServices = Function.update t.mServices srv (some sv) := rfl
@[simp] theorem mWorkers_setService : (t.setService srv sv).mWorkers = t.mWorkers := rfl
@[simp] theorem mWaiting_setService : (t.setService srv sv).mWaiting = t.mWaiting := rfl
@[simp] theorem log_setService : (t.setService srv sv).log = t.log := rfl

@[simp] theorem heap_setWorker :
    (t.setWorker wrk w).heap = Function.update t.heap wrk (some w) := rfl
@[simp] theorem mServices_setWorker : (t.setWorker wrk w).mServices = t.mServices := rfl
@[simp] theorem mWorkers_setWorker : (t.setWorker wrk w).mWorkers = t.mWorkers := rfl
@[simp] theorem mWaiting_setWorker : (t.setWorker wrk w).mWaiting = t.mWaiting := rfl
@[simp] theorem log_setWorker : (t.setWorker wrk w).log = t.log := rfl

/-- A worker is taken out of the list of its service. -/
def unlist (t : Tables) (srv : Bytes) (sv : Service) (wrk : Ptr) : Tables :=
  t.setService srv { sv with
    mWaiting := sv.mWaiting.filter (· ≠ wrk), mWorkers := sv.mWorkers - 1 }

/-- A worker is attached to a service. -/
def attach (t : Tables) (wrk : Ptr) (w : Worker) (srv : Bytes) (sv : Service) : Tables :=
  (t.setWorker wrk { w with mService := some srv }).setService srv
    { sv with mWorkers := sv.mWorkers + 1 }

/-- A request is taken from the queue and handed to `worker_send`. -/
def take (t : Tables) (srv : Bytes) (sv : Service) (wrk : Ptr) (w : Worker) (msg : Zmsg) : Tables :=
  (t.setService srv { sv with mRequests := sv.mRequests.tail }).note
    (.workerSend wrk w mdpwRequest (some msg))

/-- The worker that has got it, which is at the position `i`, no longer
    waits. -/
def hand (t : Tables) (srv : Bytes) (sv : Service) (wrk : Ptr) (w : Worker) (msg : Zmsg)
    (i : ℕ) : Tables :=
  ({ t with mWaiting := t.mWaiting.erase wrk }.setService srv
    { sv with mRequests := sv.mRequests.tail, mWaiting := sv.mWaiting.eraseIdx i }).note
    (.workerSend wrk w mdpwRequest (some msg))

/-- A request is queued. -/
def queue (t : Tables) (srv : Bytes) (sv : Service) (msg : Zmsg) : Tables :=
  (t.setService srv { sv with mRequests := sv.mRequests ++ [msg] }).note (.queued srv msg)

/-- A worker begins to wait. -/
def wait (t : Tables) (wrk : Ptr) (w : Worker) (srv : Bytes) (sv : Service) (expiry : ℤ) : Tables :=
  ({ t with mWaiting := t.mWaiting.insert wrk }.setService srv
    { sv with mWaiting := sv.mWaiting ++ [wrk] }).setWorker wrk { w with mExpiry := expiry }

end Tables

/-! ## Steps -/

/-- Happenings that change nothing. -/
def Happening.Idle : Happening → Prop
  | .sent _ | .replied _ => True
  | .workerSend _ _ command _ => command ≠ mdpwRequest
  | .queued .. | .made _ | .deleted .. => False

/-- The steps of a round that bring in no work. -/
inductive Change (t : Tables) : Tables → Prop
  | idle (h : Happening) (hh : h.Idle) : Change t (t.note h)
  | service (name : Bytes) (junk : BitVec 64) (hn : t.mServices name = none) :
      Change t (t.setService name ⟨name, [], [], junk⟩)
  | worker (wrk : Ptr) (id : Bytes) (hwrk : t.heap wrk = none) (hid : t.mWorkers id = none) :
      Change t (t.addWorker wrk id)
  | attached (wrk : Ptr) (w : Worker) (srv : Bytes) (sv : Service) (hw : t.heap wrk = some w)
      (hs : w.mService = none) (hsv : t.mServices srv = some sv) :
      Change t (t.attach wrk w srv sv)
  | seen (wrk : Ptr) (w : Worker) (expiry : ℤ) (hw : t.heap wrk = some w) :
      Change t (t.setWorker wrk { w with mExpiry := expiry })
  | left (wrk : Ptr) (w : Worker) (hw : t.heap wrk = some w) (hs : w.mService = none) :
      Change t (t.release wrk w.mIdentity)
  | deleted (wrk : Ptr) (w : Worker) (srv : Bytes) (sv : Service) (hw : t.heap wrk = some w)
      (hs : w.mService = some srv) (hsv : t.mServices srv = some sv) :
      Change t ((t.unlist srv sv wrk).release wrk w.mIdentity)
  | handed (wrk : Ptr) (w : Worker) (srv : Bytes) (sv : Service) (msg : Zmsg) (i : ℕ)
      (hw : t.heap wrk = some w) (hsv : t.mServices srv = some sv)
      (hi : sv.mWaiting[i]? = some wrk) (hmsg : sv.mRequests.head? = some msg) :
      Change t (t.hand srv sv wrk w msg i)

/-- Any number of such steps. -/
abbrev Path := Relation.ReflTransGen Change

/-- Whether a worker has a request that it has not replied to, after a
    happening. -/
def Happening.busy (wrk : Ptr) (b : Bool) : Happening → Bool
  | .workerSend p _ command _ => if p = wrk ∧ command = mdpwRequest then true else b
  | .made p | .replied p => if p = wrk then false else b
  | .queued .. | .sent _ | .deleted .. => b

/-- The worker has got a request, and has not replied since or been made
    anew. -/
def busy (wrk : Ptr) (log : List Happening) : Bool := log.foldl (fun b h => h.busy wrk b) false

@[simp] theorem busy_append (log : List Happening) :
    busy wrk (log ++ [h]) = h.busy wrk (busy wrk log) := by simp [busy]

/-- What brings in work. -/
inductive Trigger where
  | none
  | queue (srv : Bytes) (msg : Zmsg)
  | wait (wrk : Ptr) (srv : Bytes)

/-- Work comes in: a request, or a worker that is not busy. -/
def Fires (t : Tables) : Trigger → Tables → Prop
  | .none, u => u = t
  | .queue srv msg, u => ∃ sv, t.mServices srv = some sv ∧ u = t.queue srv sv msg
  | .wait wrk srv, u => ∃ w sv expiry, t.heap wrk = some w ∧ w.mService = some srv ∧
      t.mServices srv = some sv ∧ busy wrk t.log = false ∧ u = t.wait wrk w srv sv expiry

/-- How a round that ends the process leaves the tables: a request may have
    been handed to `worker_send` that was not sent. -/
inductive Ends (t : Tables) : Tables → Prop
  | stopped : Ends t t
  | taken (wrk : Ptr) (w : Worker) (srv : Bytes) (sv : Service) (msg out : Zmsg)
      (hw : t.heap wrk = some w) (hsv : t.mServices srv = some sv) (hwrk : wrk ∈ sv.mWaiting)
      (hmsg : sv.mRequests.head? = some msg) :
      Ends t ((t.take srv sv wrk w msg).note (.sent out))

/-! ## The workers -/

/-- The containers have nothing of the worker. -/
def Forgotten (wrk : Ptr) (mServices : Bytes → Option Service) (mWorkers : Bytes → Option Ptr)
    (mWaiting : SortedSet Ptr) : Prop :=
  (∀ srv sv, mServices srv = some sv → wrk ∉ sv.mWaiting) ∧ (∀ id, mWorkers id ≠ some wrk) ∧
    wrk ∉ mWaiting

/-- When a worker was deleted, nothing was left of it. -/
def Happening.Clean : Happening → Prop
  | .deleted wrk mServices mWorkers mWaiting => Forgotten wrk mServices mWorkers mWaiting
  | .queued .. | .workerSend .. | .sent _ | .made _ | .replied _ => True

structure Inv (t : Tables) : Prop where
  /-- a worker is known by its identity -/
  known : ∀ wrk w, t.heap wrk = some w → t.mWorkers w.mIdentity = some wrk
  /-- the service of a worker is there -/
  attached : ∀ wrk w srv, t.heap wrk = some w → w.mService = some srv → (t.mServices srv).isSome
  /-- a worker that is known is alive -/
  alive : ∀ id wrk, t.mWorkers id = some wrk → ∃ w, t.heap wrk = some w ∧ w.mIdentity = id
  /-- a service has its name, and workers of its own wait in its list -/
  listed : ∀ srv sv, t.mServices srv = some sv → sv.mName = srv ∧
    ∀ wrk ∈ sv.mWaiting, ∃ w, t.heap wrk = some w ∧ w.mService = some srv
  /-- who waits for the broker waits for a service -/
  waiting : ∀ wrk ∈ t.mWaiting, ∃ srv sv, t.mServices srv = some sv ∧ wrk ∈ sv.mWaiting
  /-- whoever was deleted is gone -/
  gone : ∀ h ∈ t.log, h.Clean

theorem Inv.start (now : ℤ) : Inv (Broker.init now).toTables where
  known _ _ h := by cases h
  attached _ _ _ h := by cases h
  alive _ _ h := by cases h
  listed _ _ h := by cases h
  waiting _ h := absurd h SortedSet.notMem_empty
  gone _ h := by cases h

/-- A worker that waits is alive. -/
theorem Inv.live (hi : Inv t) (h : wrk ∈ t.mWaiting) : ∃ w, t.heap wrk = some w := by
  obtain ⟨srv, sv, hsv, hwrk⟩ := hi.waiting wrk h
  obtain ⟨w, hw, -⟩ := (hi.listed srv sv hsv).2 wrk hwrk
  exact ⟨w, hw⟩

/-- Something is logged. -/
theorem Inv.note (hi : Inv t) (hh : h.Clean) : Inv (t.note h) where
  known := hi.known
  attached := hi.attached
  alive := hi.alive
  listed := hi.listed
  waiting := hi.waiting
  gone h' hmem := by
    rcases List.mem_append.1 hmem with hmem | hmem
    · exact hi.gone h' hmem
    · exact List.mem_singleton.1 hmem ▸ hh

/-- A service and the set of those who wait are changed together. -/
theorem Inv.setService (hi : Inv t) (mw : SortedSet Ptr) (hname : sv.mName = srv)
    (hlist : ∀ wrk ∈ sv.mWaiting, ∃ w, t.heap wrk = some w ∧ w.mService = some srv)
    (hmw : ∀ wrk ∈ mw, wrk ∈ sv.mWaiting ∨ wrk ∈ t.mWaiting ∧
      ∀ sv₀, t.mServices srv = some sv₀ → wrk ∉ sv₀.mWaiting) :
    Inv ({ t with mWaiting := mw }.setService srv sv) where
  known := hi.known
  attached wrk w srv' hw hs := by
    rcases eq_or_ne srv' srv with rfl | hne
    · simp
    · simpa [hne] using hi.attached wrk w srv' hw hs
  alive := hi.alive
  listed srv' sv' hsv := by
    rcases eq_or_ne srv' srv with rfl | hne
    · obtain rfl : sv = sv' := by simpa using hsv
      exact ⟨hname, hlist⟩
    · exact hi.listed srv' sv' (by simpa [hne] using hsv)
  waiting wrk hwrk := by
    rcases hmw wrk hwrk with hin | ⟨hin, hout⟩
    · exact ⟨srv, sv, by simp, hin⟩
    · obtain ⟨srv', sv', hsv, hmem⟩ := hi.waiting wrk hin
      have hne : srv' ≠ srv := fun h => hout sv' (h ▸ hsv) hmem
      exact ⟨srv', sv', by simpa [hne] using hsv, hmem⟩
  gone := hi.gone

/-- The workers that wait for a service change. -/
theorem Inv.updService {sv₀ : Service} (hi : Inv t) (mw : SortedSet Ptr)
    (hsv : t.mServices srv = some sv₀) (hname : sv.mName = sv₀.mName)
    (hlist : ∀ wrk ∈ sv.mWaiting, wrk ∈ sv₀.mWaiting ∨
      ∃ w, t.heap wrk = some w ∧ w.mService = some srv)
    (hmw : ∀ wrk ∈ mw, wrk ∈ sv.mWaiting ∨ wrk ∈ t.mWaiting ∧ wrk ∉ sv₀.mWaiting) :
    Inv ({ t with mWaiting := mw }.setService srv sv) := by
  obtain ⟨hname₀, hlist₀⟩ := hi.listed srv sv₀ hsv
  refine hi.setService mw (hname.trans hname₀) (fun wrk h => ?_) fun wrk h => ?_
  · rcases hlist wrk h with h | h
    · exact hlist₀ wrk h
    · exact h
  · refine (hmw wrk h).imp_right fun h => ⟨h.1, fun sv₁ hsv₁ => ?_⟩
    obtain rfl : sv₀ = sv₁ := Option.some.inj (hsv.symm.trans hsv₁)
    exact h.2

/-- The workers that wait for a service stay the same. -/
theorem Inv.updService_of_eq {sv₀ : Service} (hi : Inv t) (hsv : t.mServices srv = some sv₀)
    (hname : sv.mName = sv₀.mName) (hlist : sv.mWaiting = sv₀.mWaiting) :
    Inv (t.setService srv sv) := by
  refine hi.updService t.mWaiting hsv hname (fun wrk h => Or.inl (hlist ▸ h)) fun wrk h => ?_
  rw [hlist]
  exact (Classical.em _).imp_right fun hout => ⟨h, hout⟩

/-- A worker is changed that keeps its identity, and its service if it has
    one. -/
theorem Inv.setWorker {w' : Worker} (hi : Inv t) (hw : t.heap wrk = some w)
    (hid : w'.mIdentity = w.mIdentity)
    (hs : w'.mService = w.mService ∨ w.mService = none ∧
      ∀ srv, w'.mService = some srv → (t.mServices srv).isSome) :
    Inv (t.setWorker wrk w') where
  known wrk' w₀ h := by
    rcases eq_or_ne wrk' wrk with rfl | hne
    · obtain rfl : w' = w₀ := by simpa using h
      simpa [hid] using hi.known wrk' w hw
    · exact hi.known wrk' w₀ (by simpa [hne] using h)
  attached wrk' w₀ srv h hs₀ := by
    rcases eq_or_ne wrk' wrk with rfl | hne
    · obtain rfl : w' = w₀ := by simpa using h
      rcases hs with hs | ⟨-, hs⟩
      · exact hi.attached wrk' w srv hw (hs ▸ hs₀)
      · exact hs srv hs₀
    · exact hi.attached wrk' w₀ srv (by simpa [hne] using h) hs₀
  alive id wrk' h := by
    obtain ⟨w₀, hw₀, hid₀⟩ := hi.alive id wrk' h
    rcases eq_or_ne wrk' wrk with rfl | hne
    · obtain rfl : w = w₀ := Option.some.inj (hw.symm.trans hw₀)
      exact ⟨w', by simp, hid.trans hid₀⟩
    · exact ⟨w₀, by simpa [hne] using hw₀, hid₀⟩
  listed srv sv hsv := by
    refine ⟨(hi.listed srv sv hsv).1, ?_⟩
    intro wrk' hmem
    obtain ⟨w₀, hw₀, hs₀⟩ := (hi.listed srv sv hsv).2 wrk' hmem
    rcases eq_or_ne wrk' wrk with rfl | hne
    · obtain rfl : w = w₀ := Option.some.inj (hw.symm.trans hw₀)
      rcases hs with hs | ⟨hs, -⟩
      · exact ⟨w', by simp, hs.trans hs₀⟩
      · exact absurd (hs.symm.trans hs₀) (by simp)
    · exact ⟨w₀, by simpa [hne] using hw₀, hs₀⟩
  waiting := hi.waiting
  gone := hi.gone

/-- A worker that is in no list is deleted. -/
theorem Inv.release (hi : Inv { t with mWaiting := t.mWaiting.erase wrk })
    (hw : t.heap wrk = some w)
    (hout : ∀ srv sv, t.mServices srv = some sv → wrk ∉ sv.mWaiting) :
    Inv (t.release wrk w.mIdentity) := by
  have hmWorkers : ∀ id, Function.update t.mWorkers w.mIdentity none id ≠ some wrk := by
    intro id hid
    rcases eq_or_ne id w.mIdentity with rfl | hne
    · simp at hid
    · obtain ⟨w₀, hw₀, hid₀⟩ := hi.alive id wrk (by simpa [hne] using hid)
      obtain rfl : w = w₀ := Option.some.inj (hw.symm.trans hw₀)
      exact hne hid₀.symm
  refine Inv.note ⟨?_, ?_, ?_, ?_, hi.waiting, hi.gone⟩ ?_
  · intro wrk' w₀ h
    rcases eq_or_ne wrk' wrk with rfl | hne
    · simp at h
    · have hw₀ : t.heap wrk' = some w₀ := by simpa [hne] using h
      have hid : w₀.mIdentity ≠ w.mIdentity := by
        intro hid
        have h₁ := hi.known wrk' w₀ hw₀
        have h₂ := hi.known wrk w hw
        rw [hid] at h₁
        exact hne (Option.some.inj (h₁.symm.trans h₂))
      simpa [hid] using hi.known wrk' w₀ hw₀
  · intro wrk' w₀ srv h hs
    rcases eq_or_ne wrk' wrk with rfl | hne
    · simp at h
    · exact hi.attached wrk' w₀ srv (by simpa [hne] using h) hs
  · intro id wrk' h
    have hne : wrk' ≠ wrk := fun he => hmWorkers id (he ▸ h)
    rcases eq_or_ne id w.mIdentity with rfl | hid
    · simp at h
    · simpa [hne] using hi.alive id wrk' (by simpa [hid] using h)
  · intro srv sv hsv
    refine ⟨(hi.listed srv sv hsv).1, ?_⟩
    intro wrk' hmem
    have hne : wrk' ≠ wrk := fun he => hout srv sv hsv (he ▸ hmem)
    simpa [hne] using (hi.listed srv sv hsv).2 wrk' hmem
  · exact ⟨hout, hmWorkers, by simp⟩

/-- Fewer workers wait for the broker. -/
theorem Inv.erase (hi : Inv t) (wrk : Ptr) :
    Inv { t with mWaiting := t.mWaiting.erase wrk } where
  known := hi.known
  attached := hi.attached
  alive := hi.alive
  listed := hi.listed
  waiting wrk' h := hi.waiting wrk' (SortedSet.mem_erase.1 h).2
  gone := hi.gone

/-- A worker is made. -/
theorem Inv.addWorker (hi : Inv t) (hwrk : t.heap wrk = none) (hid : t.mWorkers id = none) :
    Inv (t.addWorker wrk id) := by
  have hne : ∀ {wrk' w}, t.heap wrk' = some w → wrk' ≠ wrk := by
    rintro wrk' w h rfl
    exact absurd (hwrk.symm.trans h) (by simp)
  refine Inv.note ⟨?_, ?_, ?_, ?_, hi.waiting, hi.gone⟩ trivial
  · intro wrk' w h
    rcases eq_or_ne wrk' wrk with rfl | hne
    · obtain rfl : _ = w := by simpa using h
      simp
    · have hw : t.heap wrk' = some w := by simpa [hne] using h
      have hid' : w.mIdentity ≠ id := by
        intro he
        exact absurd (hid.symm.trans (he ▸ hi.known wrk' w hw)) (by simp)
      simpa [hid'] using hi.known wrk' w hw
  · intro wrk' w srv h hs
    rcases eq_or_ne wrk' wrk with rfl | hne
    · obtain rfl : _ = w := by simpa using h
      cases hs
    · exact hi.attached wrk' w srv (by simpa [hne] using h) hs
  · intro id' wrk' h
    rcases eq_or_ne id' id with rfl | hid'
    · obtain rfl : wrk = wrk' := by simpa using h
      exact ⟨⟨id', none, 0⟩, by simp, rfl⟩
    · obtain ⟨w, hw, he⟩ := hi.alive id' wrk' (by simpa [hid'] using h)
      exact ⟨w, by simpa [hne hw] using hw, he⟩
  · intro srv sv hsv
    refine ⟨(hi.listed srv sv hsv).1, ?_⟩
    intro wrk' hmem
    obtain ⟨w, hw, hs⟩ := (hi.listed srv sv hsv).2 wrk' hmem
    exact ⟨w, by simpa [hne hw] using hw, hs⟩

/-- A worker without a service waits nowhere. -/
theorem Inv.unlisted (hi : Inv t) (hw : t.heap wrk = some w) (hs : w.mService ≠ some srv)
    (hsv : t.mServices srv = some sv) : wrk ∉ sv.mWaiting := by
  intro hmem
  obtain ⟨w', hw', hs'⟩ := (hi.listed srv sv hsv).2 wrk hmem
  obtain rfl : w = w' := Option.some.inj (hw.symm.trans hw')
  exact hs hs'

theorem Change.inv (hc : Change t u) (hi : Inv t) : Inv u := by
  cases hc with
  | idle h hh =>
    refine hi.note ?_
    cases h <;> trivial
  | service name junk hn =>
    refine hi.setService t.mWaiting rfl (by simp) fun wrk h => Or.inr ⟨h, ?_⟩
    intro sv₀ hsv
    exact absurd (hn.symm.trans hsv) (by simp)
  | worker wrk id hwrk hid => exact hi.addWorker hwrk hid
  | attached wrk w srv sv hw hs hsv =>
    have hw' : Inv (t.setWorker wrk { w with mService := some srv }) := by
      refine hi.setWorker hw rfl (Or.inr ⟨hs, ?_⟩)
      rintro srv ⟨⟩
      simp [hsv]
    exact hw'.updService_of_eq hsv rfl rfl
  | seen wrk w expiry hw => exact hi.setWorker hw rfl (Or.inl rfl)
  | left wrk w hw hs =>
    exact (hi.erase wrk).release hw fun srv sv hsv => hi.unlisted hw (by simp [hs]) hsv
  | deleted wrk w srv sv hw hs hsv =>
    have hunlist : Inv (({ t with mWaiting := t.mWaiting.erase wrk } : Tables).setService srv
        { sv with mWaiting := sv.mWaiting.filter (· ≠ wrk), mWorkers := sv.mWorkers - 1 }) := by
      refine hi.updService _ hsv rfl ?_ fun wrk' h => ?_
      · intro wrk' h
        exact Or.inl (List.mem_filter.1 h).1
      obtain ⟨hne, hmem⟩ := SortedSet.mem_erase.1 h
      by_cases hin : wrk' ∈ sv.mWaiting
      · exact Or.inl (List.mem_filter.2 ⟨hin, by simpa using hne⟩)
      · exact Or.inr ⟨hmem, hin⟩
    refine Inv.release (t := t.unlist srv sv wrk) hunlist hw ?_
    intro srv' sv' hsv'
    rcases eq_or_ne srv' srv with rfl | hne
    · obtain rfl : _ = sv' := by simpa [Tables.unlist] using hsv'
      simp
    · refine hi.unlisted hw ?_ (by simpa [Tables.unlist, hne] using hsv')
      rw [hs]
      intro he
      exact hne (Option.some.inj he).symm
  | handed wrk w srv sv msg i hw hsv hpos hmsg =>
    refine Inv.note (hi.updService _ hsv rfl
      (fun wrk' h => Or.inl ((List.eraseIdx_sublist _ _).subset h)) fun wrk' h => ?_) trivial
    obtain ⟨hne, hmem⟩ := SortedSet.mem_erase.1 h
    by_cases hin : wrk' ∈ sv.mWaiting
    · refine Or.inl (List.mem_eraseIdx_iff_getElem?.2 ?_)
      obtain ⟨j, hj⟩ := List.mem_iff_getElem?.1 hin
      refine ⟨j, fun he => hne ?_, hj⟩
      exact Option.some.inj (hj.symm.trans (he ▸ hpos))
    · exact Or.inr ⟨hmem, hin⟩

theorem Path.inv (hp : Path t u) (hi : Inv t) : Inv u := by
  induction hp with
  | refl => exact hi
  | tail _ hc ih => exact hc.inv ih

/-- Work that comes in leaves the workers as they were, or a worker of the
    service waits for it. -/
theorem Fires.inv {x : Trigger} (hf : Fires t x u) (hi : Inv t) : Inv u := by
  cases x with
  | none => exact hf ▸ hi
  | queue srv msg =>
    obtain ⟨sv, hsv, rfl⟩ := hf
    exact Inv.note (hi.updService_of_eq hsv rfl rfl) trivial
  | wait wrk srv =>
    obtain ⟨w, sv, expiry, hw, hs, hsv, -, rfl⟩ := hf
    refine Inv.setWorker (w := w) (hi.updService _ hsv rfl (fun wrk' h => ?_) fun wrk' h => ?_) hw
      rfl (Or.inl rfl)
    · rcases List.mem_append.1 h with h | h
      · exact Or.inl h
      · obtain rfl := List.mem_singleton.1 h
        exact Or.inr ⟨w, hw, hs⟩
    · by_cases hin : wrk' ∈ sv.mWaiting ++ [wrk]
      · exact Or.inl hin
      · rw [List.mem_append, List.mem_singleton, not_or] at hin
        exact Or.inr ⟨(SortedSet.mem_insert.1 h).resolve_left hin.2, hin.1⟩

/-- A request that was not sent has still left its queue. -/
theorem Ends.inv (he : Ends t u) (hi : Inv t) : Inv u := by
  cases he with
  | stopped => exact hi
  | taken wrk w srv sv msg out hw hsv hwrk hmsg =>
    exact Inv.note (Inv.note (hi.updService_of_eq hsv rfl rfl) trivial) trivial

/-! ## The requests -/

/-- A service does not have both a worker that waits and a request. -/
def SettledAt (srv : Bytes) (t : Tables) : Prop :=
  ∀ sv, t.mServices srv = some sv → sv.mWaiting = [] ∨ sv.mRequests = []

theorem SettledAt.setService (hset : SettledAt srv t)
    (hs : SettledAt name t → sv.mWaiting = [] ∨ sv.mRequests = []) :
    SettledAt srv (t.setService name sv) := by
  intro sv' hsv'
  rcases eq_or_ne srv name with rfl | hne
  · obtain rfl : sv = sv' := by simpa using hsv'
    exact hs hset
  · exact hset sv' (by simpa [hne] using hsv')

/-- Steps that bring in no work leave a service settled. -/
theorem Change.settledAt (hc : Change t u) (hset : SettledAt srv t) : SettledAt srv u := by
  cases hc with
  | idle | worker | seen | left => exact hset
  | service name junk hn => exact hset.setService fun _ => Or.inl rfl
  | attached wrk w name sv hw hs hsv => exact hset.setService fun h => h sv hsv
  | deleted wrk w name sv hw hs hsv =>
    refine hset.setService fun h => (h sv hsv).imp_left fun hnil => ?_
    simp [hnil]
  | handed wrk w name sv msg i hw hsv hpos hmsg =>
    refine SettledAt.setService (t := { t with mWaiting := _ }) hset ?_
    intro h
    refine (h sv hsv).imp (fun hnil => ?_) fun hnil => ?_
    · simp [hnil]
    · simp [hnil]

theorem Path.settledAt (hp : Path t u) (hset : SettledAt srv t) : SettledAt srv u := by
  induction hp with
  | refl => exact hset
  | tail _ hc ih => exact hc.settledAt ih

end ProxyBroker.Majordomo
