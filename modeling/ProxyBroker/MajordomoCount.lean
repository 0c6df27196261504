/-
  How many workers the services of the broker of `officialMajordomo` have.

  `workers t srv` is the number of registered workers that are attached to a
  service.  The counter `m_workers` of the service is off by what the memory
  of the service held when it was made (`counts_run`).

  `service_query_iff`: when a client that asks `mmi.service` is told the truth.
-/
import ProxyBroker.MajordomoKeeps
import ProxyBroker.MajordomoRuns

namespace ProxyBroker.Majordomo

open Proc Zmsg

/-! ## Counting -/

section
variable {α β : Type} [DecidableEq α] [DecidableEq β] {f : α → β} {a : α} {c : β}

omit [DecidableEq α] in
theorem ncard_eq_rest (hf : {x | f x = c}.Finite) (a : α) :
    {x | f x = c}.ncard = ({x | f x = c} \ {a}).ncard + if f a = c then 1 else 0 := by
  split_ifs with ha
  · exact (Set.ncard_sdiff_singleton_add_one (s := {x | f x = c}) ha hf).symm
  · rw [Set.sdiff_singleton_eq_self (s := {x | f x = c}) ha]
    rfl

/-- How often a function takes a value after it has changed in one place. -/
theorem ncard_update (hf : {x | f x = c}.Finite) (a : α) (b : β) :
    {x | Function.update f a b x = c}.ncard + (if f a = c then 1 else 0) =
      {x | f x = c}.ncard + if b = c then 1 else 0 := by
  have hrest : {x | Function.update f a b x = c} \ {a} = {x | f x = c} \ {a} := by
    ext x
    refine and_congr_left fun hne => ?_
    rw [Set.mem_ofPred_eq, Function.update_of_ne hne, Set.mem_ofPred_eq]
  have hupd : {x | Function.update f a b x = c}.Finite := by
    refine ((hf.subset (Set.sdiff_subset (t := {a}))).insert a).subset ?_
    rw [← hrest, Set.insert_sdiff_singleton]
    exact Set.subset_insert a _
  rw [ncard_eq_rest hupd a, ncard_eq_rest hf a, hrest, Function.update_self]
  omega

end

/-! ## The workers of a service -/

/-- The service of a registered worker. -/
def serviceOf (t : Tables) (id : Bytes) : Option Bytes :=
  (t.mWorkers id).bind fun wrk => (t.heap wrk).bind Worker.mService

/-- How many registered workers are attached to the service. -/
noncomputable def workers (t : Tables) (srv : Bytes) : ℕ := {id | serviceOf t id = some srv}.ncard

/-- The identities of the workers that are registered. -/
def registered (t : Tables) : Set Bytes := {id | t.mWorkers id ≠ none}

variable {t t' u : Tables} {wrk : Ptr} {w w' : Worker} {srv id : Bytes} {sv : Service}
  {n : BitVec 64} {x : Trigger}

theorem finite_serviceOf (hf : (registered t).Finite) : {id | serviceOf t id = some srv}.Finite := by
  refine hf.subset ?_
  intro id h hnone
  simp [serviceOf, hnone] at h

/-- The numbers of workers when one worker changes its service. -/
theorem workers_update (hf : (registered t).Finite) {o : Option Bytes}
    (hof : serviceOf u = Function.update (serviceOf t) id o) (srv : Bytes) :
    workers u srv + (if serviceOf t id = some srv then 1 else 0) =
      workers t srv + if o = some srv then 1 else 0 := by
  rw [workers, hof]
  exact ncard_update (finite_serviceOf hf) id o

theorem serviceOf_known (hi : Inv t) (hw : t.heap wrk = some w) :
    serviceOf t w.mIdentity = w.mService := by
  simp [serviceOf, hi.known wrk w hw, hw]

/-- Another identity belongs to another worker. -/
theorem Inv.other {p : Ptr} (hi : Inv t) (hw : t.heap wrk = some w) (hid : t.mWorkers id = some p)
    (hne : id ≠ w.mIdentity) : p ≠ wrk := by
  rintro rfl
  obtain ⟨w₀, hw₀, hid₀⟩ := hi.alive id p hid
  obtain rfl : w = w₀ := Option.some.inj (hw.symm.trans hw₀)
  exact hne hid₀.symm

theorem serviceOf_setWorker (hi : Inv t) (hw : t.heap wrk = some w) (w' : Worker) :
    serviceOf (t.setWorker wrk w') = Function.update (serviceOf t) w.mIdentity w'.mService := by
  ext1 id
  rcases eq_or_ne id w.mIdentity with rfl | hne
  · simp [serviceOf, hi.known wrk w hw]
  · rw [Function.update_of_ne hne]
    cases hid : t.mWorkers id with
    | none => simp [serviceOf, hid]
    | some p =>
      have hp : p ≠ wrk := hi.other hw hid hne
      simp [serviceOf, hid, hp]

theorem serviceOf_release (hi : Inv t) (hw : t.heap wrk = some w) :
    serviceOf (t.release wrk w.mIdentity) = Function.update (serviceOf t) w.mIdentity none := by
  ext1 id
  rcases eq_or_ne id w.mIdentity with rfl | hne
  · simp [serviceOf, Tables.release]
  · rw [Function.update_of_ne hne]
    cases hid : t.mWorkers id with
    | none => simp [serviceOf, Tables.release, hne, hid]
    | some p =>
      have hp : p ≠ wrk := hi.other hw hid hne
      simp [serviceOf, Tables.release, hne, hid, hp]

theorem finite_release (hf : (registered t).Finite) (wrk : Ptr) (id : Bytes) :
    (registered (t.release wrk id)).Finite := by
  refine hf.subset fun id' h hnone => h ?_
  rcases eq_or_ne id' id with rfl | hne
  · simp [Tables.release]
  · simpa [Tables.release, hne] using hnone

theorem serviceOf_addWorker (hi : Inv t) (hwrk : t.heap wrk = none) (hid : t.mWorkers id = none) :
    serviceOf (t.addWorker wrk id) = serviceOf t := by
  ext1 id'
  rcases eq_or_ne id' id with rfl | hne
  · simp [serviceOf, Tables.addWorker, hid]
  · cases hid' : t.mWorkers id' with
    | none => simp [serviceOf, Tables.addWorker, hne, hid']
    | some p =>
      have hp : p ≠ wrk := by
        rintro rfl
        obtain ⟨w₀, hw₀, -⟩ := hi.alive id' p hid'
        exact absurd (hwrk.symm.trans hw₀) (by simp)
      simp [serviceOf, Tables.addWorker, hne, hid', hp]

/-! ## The counters -/

/-- The counter of the service is the number of its workers and `n` more. -/
def Surplus (t : Tables) (srv : Bytes) (n : BitVec 64) : Prop :=
  ∃ sv, t.mServices srv = some sv ∧ sv.mWorkers = n + BitVec.ofNat 64 (workers t srv)

/-- The counters have followed what has happened to the workers. -/
def Tallies (t u : Tables) : Prop :=
  (registered t).Finite → (registered u).Finite ∧ ∀ srv n, Surplus t srv n → Surplus u srv n

instance : IsPreorder Tables Tallies where
  refl _ hf := ⟨hf, fun _ _ h => h⟩
  trans _ _ _ h h' hf :=
    ⟨(h' (h hf).1).1, fun srv n hs => (h' (h hf).1).2 srv n ((h hf).2 srv n hs)⟩

/-- Neither the services of the workers nor the counters have changed. -/
theorem Tallies.of_same (hreg : (registered t).Finite → (registered u).Finite)
    (hof : serviceOf u = serviceOf t) (hsv : ∀ srv sv, t.mServices srv = some sv →
      ∃ sv', u.mServices srv = some sv' ∧ sv'.mWorkers = sv.mWorkers) : Tallies t u := by
  refine fun hf => ⟨hreg hf, ?_⟩
  rintro srv n ⟨sv, hsrv, hn⟩
  obtain ⟨sv', hsrv', hm⟩ := hsv srv sv hsrv
  exact ⟨sv', hsrv', by rw [hm, hn, workers, workers, hof]⟩

/-- A service is set, with the same counter if it was known. -/
theorem Tallies.setService (hu : u.mServices = Function.update t.mServices srv (some sv))
    (hsame : ∀ sv₀, t.mServices srv = some sv₀ → sv.mWorkers = sv₀.mWorkers)
    (hreg : u.mWorkers = t.mWorkers) (hof : serviceOf u = serviceOf t) : Tallies t u := by
  refine .of_same (fun hf => ?_) hof fun name sv₀ h => ?_
  · rwa [registered, hreg]
  · rw [hu]
    rcases eq_or_ne name srv with rfl | hne
    · exact ⟨sv, by simp, hsame sv₀ h⟩
    · exact ⟨sv₀, by simpa [hne] using h, rfl⟩

/-- A worker is changed that keeps its service. -/
theorem serviceOf_setWorker_same (hi : Inv t) (hw : t.heap wrk = some w)
    (hs : w'.mService = w.mService) : serviceOf (t.setWorker wrk w') = serviceOf t := by
  rw [serviceOf_setWorker hi hw, hs, ← serviceOf_known hi hw, Function.update_eq_self]

/-- A worker that has no service gets one. -/
theorem Tallies.attach (hi : Inv t) (hw : t.heap wrk = some w) (hs : w.mService = none)
    (hsv : t.mServices srv = some sv) : Tallies t (t.attach wrk w srv sv) := by
  have hof : serviceOf (t.attach wrk w srv sv) =
      Function.update (serviceOf t) w.mIdentity (some srv) := serviceOf_setWorker hi hw _
  refine fun hf => ⟨hf, ?_⟩
  rintro name n ⟨sv₀, hsv₀, hn⟩
  have hcard := workers_update hf hof name
  rw [serviceOf_known hi hw, hs, if_neg (by simp), add_zero] at hcard
  rcases eq_or_ne name srv with rfl | hne
  · obtain rfl : sv = sv₀ := Option.some.inj (hsv.symm.trans hsv₀)
    rw [if_pos rfl] at hcard
    refine ⟨_, Function.update_self .., ?_⟩
    have hm : sv.mWorkers + 1 = n + BitVec.ofNat 64 (workers t name + 1) := by
      rw [hn, BitVec.ofNat_add, add_assoc]
      rfl
    rw [hcard, ← hm]
  · rw [if_neg (by simpa using hne.symm)] at hcard
    refine ⟨sv₀, by simpa [Tables.attach, hne] using hsv₀, ?_⟩
    rw [hcard, hn]
    rfl

/-- A worker is deleted, and its service told. -/
theorem Tallies.deleted (hi : Inv t) (hw : t.heap wrk = some w) (hs : w.mService = some srv)
    (hsv : t.mServices srv = some sv) :
    Tallies t ((t.unlist srv sv wrk).release wrk w.mIdentity) := by
  have hof : serviceOf ((t.unlist srv sv wrk).release wrk w.mIdentity) =
      Function.update (serviceOf t) w.mIdentity none :=
    (show _ = serviceOf (t.release wrk w.mIdentity) from rfl).trans (serviceOf_release hi hw)
  refine fun hf => ⟨finite_release hf wrk w.mIdentity, ?_⟩
  rintro name n ⟨sv₀, hsv₀, hn⟩
  have hcard := workers_update hf hof name
  rw [serviceOf_known hi hw, hs, if_neg (by simp : ¬ none = some name), add_zero] at hcard
  rcases eq_or_ne name srv with rfl | hne
  · obtain rfl : sv = sv₀ := Option.some.inj (hsv.symm.trans hsv₀)
    rw [if_pos rfl] at hcard
    refine ⟨_, Function.update_self .., ?_⟩
    have hm : sv.mWorkers - 1 = n + BitVec.ofNat 64 (workers
        ((t.unlist name sv wrk).release wrk w.mIdentity) name) := by
      rw [hn, ← hcard, BitVec.ofNat_add, ← add_assoc]
      exact add_sub_cancel_right _ 1#64
    rw [← hm]
  · rw [if_neg (by simpa using hne.symm)] at hcard
    refine ⟨sv₀, by simpa [Tables.release, Tables.unlist, hne] using hsv₀, ?_⟩
    rw [hn, ← hcard]
    rfl

/-- A worker without a service is deleted. -/
theorem Tallies.left (hi : Inv t) (hw : t.heap wrk = some w) (hs : w.mService = none) :
    Tallies t (t.release wrk w.mIdentity) := by
  refine .of_same (fun hf => finite_release hf wrk w.mIdentity) ?_ fun srv sv h => ⟨sv, h, rfl⟩
  rw [serviceOf_release hi hw, ← hs, ← serviceOf_known hi hw, Function.update_eq_self]

/-- A worker is made. -/
theorem Tallies.addWorker (hi : Inv t) (hwrk : t.heap wrk = none) (hid : t.mWorkers id = none) :
    Tallies t (t.addWorker wrk id) := by
  refine .of_same (fun hf => ?_) (serviceOf_addWorker hi hwrk hid) fun srv sv h => ⟨sv, h, rfl⟩
  refine (hf.insert id).subset fun id' h => ?_
  rcases eq_or_ne id' id with rfl | hne
  · exact Set.mem_insert id' _
  · exact Set.mem_insert_of_mem _ (by simpa [registered, Tables.addWorker, hne] using h)

/-! ## Rounds -/

theorem same_of_eq {sv₀ : Service} (hsv : t.mServices srv = some sv₀)
    (hm : sv.mWorkers = sv₀.mWorkers) :
    ∀ sv₁, t.mServices srv = some sv₁ → sv.mWorkers = sv₁.mWorkers := by
  intro sv₁ h
  obtain rfl : sv₀ = sv₁ := Option.some.inj (hsv.symm.trans h)
  exact hm

theorem Change.tallies (hc : Change t u) (hi : Inv t) : Tallies t u := by
  cases hc with
  | idle h hh => exact .of_same (fun hf => hf) rfl fun srv sv h => ⟨sv, h, rfl⟩
  | service name junk hn =>
    refine .setService rfl (fun sv₀ h => ?_) rfl rfl
    exact absurd (hn.symm.trans h) (by simp)
  | worker wrk id hwrk hid => exact .addWorker hi hwrk hid
  | attached wrk w srv sv hw hs hsv => exact .attach hi hw hs hsv
  | seen wrk w expiry hw =>
    exact .of_same (fun hf => hf) (serviceOf_setWorker_same hi hw rfl) fun srv sv h => ⟨sv, h, rfl⟩
  | left wrk w hw hs => exact .left hi hw hs
  | deleted wrk w srv sv hw hs hsv => exact .deleted hi hw hs hsv
  | handed wrk w srv sv msg i hw hsv hpos hmsg => exact .setService rfl (same_of_eq hsv rfl) rfl rfl

theorem Path.tallies (hp : Path t u) (hi : Inv t) : Tallies t u := by
  induction hp with
  | refl => exact refl_of Tallies t
  | tail hp hc ih => exact trans_of Tallies ih (hc.tallies (Path.inv hp hi))

theorem Fires.tallies (hf : Fires t x u) (hi : Inv t) : Tallies t u := by
  cases x with
  | none => exact hf ▸ refl_of Tallies t
  | queue srv msg =>
    obtain ⟨sv, hsv, rfl⟩ := hf
    exact .setService rfl (same_of_eq hsv rfl) rfl rfl
  | wait wrk srv =>
    obtain ⟨w, sv, expiry, hw, -, hsv, -, rfl⟩ := hf
    have hof : serviceOf (t.wait wrk w srv sv expiry) =
        serviceOf (t.setWorker wrk { w with mExpiry := expiry }) := rfl
    refine .setService rfl (same_of_eq hsv rfl) rfl ?_
    exact hof.trans (serviceOf_setWorker_same hi hw rfl)

theorem Ends.tallies (he : Ends t u) : Tallies t u := by
  cases he with
  | stopped => exact refl_of Tallies t
  | taken wrk w srv sv msg out hw hsv hwrk hmsg => exact .setService rfl (same_of_eq hsv rfl) rfl rfl

theorem Course.tallies (h : Course x t u) (hi : Inv t) : Tallies t u := by
  obtain ⟨v, v', hv, hf, hu, -⟩ := h
  have hi' := hf.inv (hv.inv hi)
  exact trans_of Tallies (hv.tallies hi) (trans_of Tallies (hf.tallies (hv.inv hi)) (hu.tallies hi'))

theorem Cut.tallies (h : Cut x t u) (hi : Inv t) : Tallies t u := by
  obtain ⟨v, v', hv, hf, z, hz, he⟩ := h
  have hi' := hf.inv (hv.inv hi)
  exact trans_of Tallies (hv.tallies hi) (trans_of Tallies (hf.tallies (hv.inv hi))
    (trans_of Tallies (hz.tallies hi') he.tallies))

/-- The counters are off by `extra`. -/
structure Counts (extra : Bytes → BitVec 64) (t : Tables) : Prop where
  few : (registered t).Finite
  counter : ∀ srv sv, t.mServices srv = some sv →
    sv.mWorkers = extra srv + BitVec.ofNat 64 (workers t srv)

/-- What new services find in memory is added. -/
def found (extra : Bytes → BitVec 64) (t : Tables) (junk : BitVec 64) (name : Bytes) :
    BitVec 64 := if t.mServices name = none then junk else extra name

variable {extra : Bytes → BitVec 64} {junk : BitVec 64} {s : Broker} {e : Round}
  {frames : List Bytes} {addr : Ptr}

/-- The counters stay right when no service is made. -/
theorem Counts.tallies (h : Counts extra t) (ht : Tallies t u) (hn : NoService t u) :
    Counts extra u := by
  obtain ⟨hf, hs⟩ := ht h.few
  refine ⟨hf, fun srv sv hsv => ?_⟩
  cases hsv₀ : t.mServices srv with
  | none => exact absurd ((hn srv hsv₀).symm.trans hsv) (by simp)
  | some sv₀ =>
    obtain ⟨sv', hsv', hm⟩ := hs srv (extra srv) ⟨sv₀, hsv₀, h.counter srv sv₀ hsv₀⟩
    obtain rfl : sv = sv' := Option.some.inj (hsv.symm.trans hsv')
    exact hm

/-- Nobody is attached to a service that is unknown. -/
theorem workers_unknown (hi : Inv t) (h : t.mServices srv = none) : workers t srv = 0 := by
  have hnone : {id | serviceOf t id = some srv} = ∅ := by
    refine Set.eq_empty_of_forall_notMem fun id hid => ?_
    obtain ⟨wrk, -, hwrk⟩ := Option.bind_eq_some_iff.1 hid
    obtain ⟨w, hw, hs⟩ := Option.bind_eq_some_iff.1 hwrk
    have hsome := hi.attached wrk w srv hw hs
    rw [h] at hsome
    exact absurd hsome (by simp)
  rw [workers, hnone, Set.ncard_empty]

theorem Counts.requires (h : Counts extra t) (hi : Inv t) (hr : Broker.Requires junk t u) :
    Counts (found extra t junk) u := by
  have hknown : ∀ srv sv, t.mServices srv = some sv →
      sv.mWorkers = found extra t junk srv + BitVec.ofNat 64 (workers t srv) := by
    intro srv sv hsv
    rw [found, if_neg (by simp [hsv])]
    exact h.counter srv sv hsv
  rcases hr with rfl | ⟨name, rfl⟩
  · exact ⟨h.few, hknown⟩
  cases hname : t.mServices name with
  | some sv₀ =>
    rw [Broker.require_of_some junk hname]
    exact ⟨h.few, hknown⟩
  | none =>
    refine ⟨h.few, fun srv sv hsv => ?_⟩
    rcases eq_or_ne srv name with rfl | hne
    · have hof : serviceOf (Broker.require t srv junk) = serviceOf t := rfl
      have hw : workers (Broker.require t srv junk) srv = 0 := by
        rw [workers, hof]
        exact workers_unknown hi hname
      obtain rfl : _ = sv := Option.some.inj ((Broker.mServices_require t srv junk).symm.trans hsv)
      rw [hw, found, if_pos hname, Broker.required, hname]
      simp
    · exact hknown srv sv (by simpa [Broker.require, hne] using hsv)

namespace Broker

/-- A message, whether it ends the process or not. -/
theorem receive_counts (hi : Inv s.toTables) (hset : ∀ srv, SettledAt srv s.toTables)
    (hne : frames ≠ []) (haddr : s.heap addr = none) (h : Counts extra s.toTables) :
    (receive frames addr junk).wp
      (fun _ s' => Inv s'.toTables ∧ Counts (found extra s.toTables junk) s'.toTables)
      (fun s' => Counts (found extra s.toTables junk) s'.toTables) s := by
  obtain ⟨t, hr, hrun, hn⟩ := receive_makesOne frames addr junk s
  have hpath : Path s.toTables t := by
    rcases hr with rfl | ⟨name, rfl⟩
    · exact .refl
    · exact require_path s.toTables name junk
  have hheap : t.heap = s.heap := by
    rcases hr with rfl | ⟨name, rfl⟩ <;> rfl
  have hi' := hpath.inv hi
  have hcounts := h.requires hi hr
  have hruns := receive_runs (s := { s with toTables := t }) hi'
    (fun srv => hpath.settledAt (hset srv)) hne (by rw [← haddr]; exact congrFun hheap addr) junk
  rw [Runs, wp, ← hrun, ← wp] at hruns
  have hno : (receive frames addr junk).wp (fun _ s' => NoService t s'.toTables)
      (fun s' => NoService t s'.toTables) s := wp_final.2 hn
  refine (hruns.and hno).mono ?_ ?_
  · rintro _ s' ⟨⟨⟨x, -, hc⟩, -⟩, hn'⟩
    exact ⟨hc.inv hi', hcounts.tallies (hc.tallies hi') hn'⟩
  · rintro s' ⟨⟨⟨x, -, hc⟩, -⟩, hn'⟩
    exact hcounts.tallies (hc.tallies hi') hn'

theorem heartbeats_counts (hi : Inv s.toTables) (h : Counts extra s.toTables) :
    Counts extra (heartbeats.final s).toTables := by
  have hpath := wp_final.1 ((heartbeats_wp hi).mono (fun _ _ h => h) fun _ h => h.elim)
  refine h.tallies (hpath.tallies hi) ?_
  exact heartbeats_keeps (R := NoService) (fun _ _ _ h => h) noService_allows s

theorem code_counts (hi : Inv s.toTables) (hset : ∀ srv, SettledAt srv s.toTables)
    (hne : e.frames ≠ some []) (haddr : s.heap e.addr = none) (h : Counts extra s.toTables) :
    Counts (found extra s.toTables e.junk) ((code e).final s).toTables := by
  let P : Broker → Prop := fun s' => Counts (found extra s.toTables e.junk) s'.toTables
  refine (wp_final (P := P)).1 ?_
  have hbeats : ∀ s' : Broker, Inv s'.toTables → P s' → heartbeats.wp (fun _ => P) P s' :=
    fun s' hi' h' => wp_final.2 (heartbeats_counts hi' h')
  simp only [code, wp_bind, wp_modify]
  rcases hf : e.frames with _ | frames
  · have hsame : Requires e.junk s.toTables s.toTables := .inl rfl
    exact hbeats (opening s e) hi (h.requires hi hsame)
  · have hframes : frames ≠ [] := by
      rintro rfl
      exact hne hf
    rw [wp_bind]
    refine (receive_counts (s := opening s e) hi hset hframes haddr h).mono ?_ fun _ h => h
    intro _ s' h'
    exact hbeats s' h'.1 h'.2

end Broker

/-! ## Runs -/

/-- What the services have found in memory in a run. -/
def leftover (extra : Bytes → BitVec 64) (p : Process Broker) : List Round → Bytes → BitVec 64
  | [] => extra
  | e :: es => leftover (found extra p.st.toTables e.junk) (machine.next p e) es

variable {extra : Bytes → BitVec 64} {p : Process Broker} {es : List Round} {now : ℤ}

@[simp] theorem leftover_snoc (extra : Bytes → BitVec 64) (p : Process Broker) (es : List Round)
    (e : Round) : leftover extra p (es ++ [e]) =
      found (leftover extra p es) (machine.run p es).st.toTables e.junk := by
  induction es generalizing extra p with
  | nil => rfl
  | cons e' es ih => exact ih _ _

/-- **The counters are off by what their services found in memory.** -/
theorem counts_run (hl : Live p) (hc : machine.Can p es) (h : Counts extra p.st.toTables) :
    Counts (leftover extra p es) (machine.run p es).st.toTables := by
  induction es generalizing extra p with
  | nil => exact h
  | cons e es ih =>
    obtain ⟨he, hes⟩ := hc
    refine ih (hl.step he) hes ?_
    rw [show (machine.next p e).st = _ from Process.st_exec (code e) p]
    exact Broker.code_counts hl.inv (hl.settled he.1) he.2.1 he.2.2 h

theorem init_counts (now : ℤ) : Counts (fun _ => 0) (init now).st.toTables where
  few := by simp [registered, init, Broker.init]
  counter _ _ h := by cases h

/-! ## Questions -/

/-- What `mmi.service` answers to `sender` after the parts `body`. -/
def answer (sender : Bytes) (body : Zmsg) (status : Bytes) : Zmsg :=
  cStr sender :: [] :: mdpcClient :: mmiService :: (body ++ [status])

theorem answer_inj {sender status status' : Bytes} {body : Zmsg} :
    answer sender body status = answer sender body status' ↔ status = status' := by
  simp only [answer, List.cons.injEq, true_and, List.append_cancel_left_eq, and_true]

namespace Broker

variable {sender part asked : Bytes} {body : Zmsg}

theorem addressed_cStr (sender : Bytes) (body : Zmsg) :
    addressed (cStr sender) body = cStr sender :: [] :: body := by
  simp only [addressed, wrap, pushFront, cStr_cStr]
  rfl

/-- What the broker answers goes by the counter of the service. -/
def status (sv : Service) : Bytes :=
  if sv.mWorkers ≠ 0 then lit ['2', '0', '0'] else lit ['4', '0', '4']

/-- An unknown service makes `at` throw. -/
theorem serviceInternal_answer (sender asked : Bytes) (body : Zmsg) (s : Broker) :
    (serviceInternal mmiService (addressed (cStr sender) (body ++ [asked]))).run s =
      ((s.mServices (cStr asked)).elim (Proc.halt .abort)
        fun sv => send (answer sender body (status sv))).run s := by
  have hanswer : ∀ status : Bytes, cStr status = status →
      (unwrap (Zmsg.bodySet (cStr sender :: [] :: (body ++ [asked])) status) >>= fun r =>
        send ((r.2.wrap mdpcClient (some mmiService)).wrap r.1 (some []))) =
      send (answer sender body status) := by
    intro status hstatus
    have hnil : cStr [] = [] := rfl
    have hmdpc : cStr mdpcClient = mdpcClient := by decide
    have hmmi : cStr mmiService = mmiService := by decide
    rw [bodySet_request, unwrap_cons, pure_bind, hstatus]
    simp only [unwrapped, hnil, if_true, wrap, pushFront, cStr_cStr, hmdpc, hmmi, answer]
  rw [addressed_cStr, serviceInternal, if_pos rfl, body_request]
  simp only [Option.bind_some, EStateM.run_bind, EStateM.run_get]
  cases s.mServices (cStr asked) with
  | none => rfl
  | some sv =>
    rw [Option.elim_some, status]
    by_cases hm : sv.mWorkers ≠ 0
    · rw [if_pos hm, ← hanswer _ (by decide)]
      simp only [if_pos hm]
      rfl
    · rw [if_neg hm, ← hanswer _ (by decide)]
      simp only [if_neg hm]
      rfl

/-- A client asks the broker about the service `asked`. -/
def Asks (frames : List Bytes) (sender : Bytes) (body : Zmsg) (asked : Bytes) : Prop :=
  ∃ empty header part, frames.map recvPart = sender :: empty :: header :: part :: (body ++ [asked]) ∧
    cStr header = mdpcClient ∧ cStr part = mmiService

/-- The message is answered with the truth, and nothing else happens. -/
def Truthful (s : Broker) (frames : List Bytes) (addr : Ptr) (junk : BitVec 64) (sender : Bytes)
    (body : Zmsg) (asked : Bytes) : Prop :=
  ∃ s', (receive frames addr junk).run s = .ok () s' ∧
    s'.log = s.log ++ [.sent (answer sender body
      (if workers s.toTables (cStr asked) = 0 then lit ['4', '0', '4'] else lit ['2', '0', '0']))]

theorem receive_asks (ha : Asks frames sender body asked) (s : Broker) :
    (receive frames addr junk).run s =
      (((require s.toTables mmiService junk).mServices (cStr asked)).elim (Proc.halt .abort)
        fun sv => send (answer sender body (status sv))).run
          { s with toTables := require s.toTables mmiService junk } := by
  obtain ⟨empty, header, part, hmsg, hheader, hpart⟩ := ha
  have hne : frames ≠ [] := by
    rintro rfl
    cases hmsg
  obtain ⟨b, rest, hb⟩ : ∃ b rest, body ++ [asked] = b :: rest := List.exists_cons_of_ne_nil (by simp)
  have hname : cStr part ≠ [] := by
    rw [hpart]
    decide
  rw [receive, Zmsg.ofSocket_encode hne, hmsg, hb]
  simp only [popFront, pure_bind, if_pos hheader]
  rw [clientProcess_run hname, ← hb, hpart, if_pos (by decide), serviceInternal_answer]

theorem status_eq_iff {n : ℕ} :
    status sv = (if n = 0 then lit ['4', '0', '4'] else lit ['2', '0', '0']) ↔
      (sv.mWorkers = 0 ↔ n = 0) := by
  have hne : lit ['4', '0', '4'] ≠ lit ['2', '0', '0'] := by decide
  by_cases hm : sv.mWorkers = 0 <;> by_cases hn : n = 0 <;> simp [status, hm, hn, hne, hne.symm]

/-- The process ends if the service is unknown or a part cannot be sent. -/
theorem truthful_iff (ha : Asks frames sender body asked) (s : Broker) :
    Truthful s frames addr junk sender body asked ↔
      (∃ sv, (require s.toTables mmiService junk).mServices (cStr asked) = some sv ∧
        (sv.mWorkers = 0 ↔ workers s.toTables (cStr asked) = 0)) ∧ Sendable body := by
  rw [Truthful, receive_asks ha]
  cases hsv : (require s.toTables mmiService junk).mServices (cStr asked) with
  | none => simp
  | some sv =>
    have hsend : Sendable ((answer sender body (status sv)).drop 1) ↔ Sendable body := by
      have hstatus : ¬ Broken (status sv) := by
        rw [status]
        split_ifs <;> decide
      have hmdpc : ¬ Broken mdpcClient := by decide
      have hmmi : ¬ Broken mmiService := by decide
      simp [answer, Sendable, or_imp, forall_and, hstatus, hmdpc, hmmi]
    have hwp := send_wp (answer sender body (status sv))
      { s with toTables := require s.toTables mmiService junk }
    simp only [hsend] at hwp
    simp only [Option.elim_some, Option.some.injEq, exists_eq_left', ← status_eq_iff]
    cases hr : (send (answer sender body (status sv))).run
      { s with toTables := require s.toTables mmiService junk } with
    | error halt s' =>
      have hno : ¬ Sendable body := ((wp_error hr).1 hwp).choose_spec.2
      exact iff_of_false (fun h => by cases h.choose_spec.1) fun h => hno h.2
    | ok a s' =>
      obtain ⟨fs, rfl, hbody⟩ := (wp_ok hr).1 hwp
      rw [and_iff_left hbody, ← answer_inj]
      constructor
      · rintro ⟨s', hs', hlog⟩
        cases hs'
        exact Happening.sent.inj (List.cons.inj (List.append_cancel_left hlog)).1
      · intro h
        exact ⟨_, rfl, by rw [← h]; rfl⟩

theorem isSome_require (t : Tables) (junk : BitVec 64) (srv name : Bytes) :
    ((require t name junk).mServices srv).isSome ↔ (t.mServices srv).isSome ∨ srv = name := by
  rcases eq_or_ne srv name with rfl | hne
  · simp
  · simp [require, hne]

end Broker

/-- **The broker tells a client the truth about a service exactly if** the
    service is known, the parts in front of its name can be sent back, and the
    counter is 0 just when there is no worker.  A counter is right if the
    service found a 0 in memory. -/
theorem service_query_iff {es : List Round} (hc : machine.Can (init now) es)
    {sender asked : Bytes} {body : Zmsg} (ha : Broker.Asks frames sender body asked) (addr : Ptr)
    (clock : ℕ → ℤ) (junk : BitVec 64) :
    let s : Broker := { (machine.run (init now) es).st with clock }
    let n := workers s.toTables
    let extra := leftover (fun _ => 0) (init now) es
    (registered s.toTables).Finite ∧
    (∀ srv sv, s.mServices srv = some sv →
      (sv.mWorkers = BitVec.ofNat 64 (n srv) ↔ extra srv = 0)) ∧
    (Broker.Truthful s frames addr junk sender body asked ↔
      ((s.mServices (cStr asked)).isSome ∨ cStr asked = mmiService) ∧ Sendable body ∧
        (found extra s.toTables junk (cStr asked) + BitVec.ofNat 64 (n (cStr asked)) = 0 ↔
          n (cStr asked) = 0)) := by
  intro s n extra
  have hcounts : Counts extra s.toTables := counts_run (init_live now) hc (init_counts now)
  have hrequired := hcounts.requires (live_run hc).inv (.inr ⟨mmiService, rfl⟩ :
    Broker.Requires junk s.toTables (Broker.require s.toTables mmiService junk))
  refine ⟨hcounts.few, fun srv sv hsv => ?_, ?_⟩
  · rw [hcounts.counter srv sv hsv, add_eq_right]
  · rw [Broker.truthful_iff ha, ← Broker.isSome_require, Option.isSome_iff_exists]
    have hcounter : ∀ sv, (Broker.require s.toTables mmiService junk).mServices (cStr asked) =
        some sv → sv.mWorkers = found extra s.toTables junk (cStr asked) +
          BitVec.ofNat 64 (n (cStr asked)) := hrequired.counter (cStr asked)
    constructor
    · rintro ⟨⟨sv, hsv, htrue⟩, hbody⟩
      rw [hcounter sv hsv] at htrue
      exact ⟨⟨sv, hsv⟩, hbody, htrue⟩
    · rintro ⟨⟨sv, hsv⟩, hbody, htrue⟩
      rw [← hcounter sv hsv] at htrue
      exact ⟨⟨sv, hsv, htrue⟩, hbody⟩

/-- A client asks about the service of a worker that is ready. -/
theorem service_query_iff_ready :
    Broker.Truthful { (machine.run (init 0) [.ready [1] [2] 7]).st with clock := fun _ => 0 }
      [[3], [], mdpcClient, mmiService, [2]] 8 0 [3] [] [2] := by
  have hasks : Broker.Asks [[3], [], mdpcClient, mmiService, [2]] [3] [] [2] :=
    ⟨_, _, _, rfl, by decide, by decide⟩
  have hc : machine.Can (init 0) [.ready [1] [2] 7] := by decide
  obtain ⟨-, hcount, htrue⟩ := service_query_iff hc hasks 8 (fun _ => 0) 0
  have hone := (hcount [2] ⟨[2], [], [7], 1⟩ (by decide)).2 (by decide)
  have hzero : ∀ n : ℕ, (1 : BitVec 64) = BitVec.ofNat 64 n →
      (0 + BitVec.ofNat 64 n = 0 ↔ n = 0) := by
    intro n hn
    rw [← hn]
    refine iff_of_false (by decide) ?_
    rintro rfl
    exact absurd hn (by decide)
  exact htrue.2 ⟨by decide, by decide, hzero _ hone⟩

/-- A client that asks about a service that nobody knows gets no answer. -/
theorem service_query_unknown : ¬ ∀ (now : ℤ) (es : List Round), machine.Can (init now) es →
    ∀ (frames : List Bytes) (sender asked : Bytes) (body : Zmsg),
      Broker.Asks frames sender body asked → ∀ (addr : Ptr) (clock : ℕ → ℤ) (junk : BitVec 64),
        Broker.Truthful { (machine.run (init now) es).st with clock } frames addr junk sender body
          asked := by
  intro h
  obtain ⟨s', hr, -⟩ := h 0 [] trivial [[3], [], mdpcClient, mmiService, [2]] [3] [2] []
    ⟨_, _, _, rfl, by decide, by decide⟩ 7 (fun _ => 0) 0
  cases hr

end ProxyBroker.Majordomo
