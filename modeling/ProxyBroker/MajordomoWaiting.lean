/-
  The workers that wait in the broker of `officialMajordomo`.

  * `Tidy`: the set of the broker and the lists of the services agree, nobody
    waits twice, and no worker has two requests at once.
  * `waiting_run`: so it is as long as no worker replies while it waits; nothing
    in the broker prevents this (`waiting_replyTwice`).
-/
import ProxyBroker.MajordomoRuns

namespace ProxyBroker.Majordomo

open Broker Zmsg

/-- A request is handed to workers only that have replied to the one before. -/
def OneAtATime (log : List Happening) : Prop :=
  ∀ before wrk w msg after, log = before ++ .workerSend wrk w mdpwRequest msg :: after →
    busy wrk before = false

/-- Every worker waits once, for the broker and for its service, and has one
    request at a time. -/
structure Tidy (t : Tables) : Prop where
  once : ∀ srv sv, t.mServices srv = some sv → sv.mWaiting.Nodup
  union : ∀ wrk, wrk ∈ t.mWaiting ↔ ∃ srv sv, t.mServices srv = some sv ∧ wrk ∈ sv.mWaiting
  oneAtATime : OneAtATime t.log

/-- Whoever is in the list of a service is there once, and waits for the broker
    too. -/
def InStep (t : Tables) : Prop :=
  ∀ srv sv, t.mServices srv = some sv → sv.mWaiting.Nodup ∧ ∀ wrk ∈ sv.mWaiting, wrk ∈ t.mWaiting

variable {t u : Tables} {x : Trigger} {wrk wrk' : Ptr} {w : Worker} {srv name : Bytes}
  {sv : Service} {h : Happening} {log : List Happening}

theorem Tidy.of (hi : Inv t) (hin : InStep t) (ho : OneAtATime t.log) : Tidy t where
  once srv sv hsv := (hin srv sv hsv).1
  union wrk := by
    constructor
    · exact hi.waiting wrk
    · rintro ⟨srv, sv, hsv, hwrk⟩
      exact (hin srv sv hsv).2 wrk hwrk
  oneAtATime := ho

/-! ## The log -/

theorem OneAtATime.snoc (ho : OneAtATime log)
    (hh : ∀ wrk w msg, h = .workerSend wrk w mdpwRequest msg → busy wrk log = false) :
    OneAtATime (log ++ [h]) := by
  intro before wrk w msg after heq
  rcases List.eq_nil_or_concat after with rfl | ⟨after, last, rfl⟩
  · obtain ⟨rfl, hlast⟩ := List.append_inj' heq rfl
    exact hh wrk w msg (List.singleton_inj.1 hlast)
  · rw [List.concat_eq_append, ← List.cons_append, ← List.append_assoc] at heq
    exact ho before wrk w msg after (List.append_inj' heq rfl).1

/-- What hands out no request leaves it so. -/
theorem OneAtATime.idle (ho : OneAtATime log)
    (hh : ∀ wrk w msg, h ≠ .workerSend wrk w mdpwRequest msg) : OneAtATime (log ++ [h]) :=
  ho.snoc fun wrk w msg heq => absurd heq (hh wrk w msg)

/-- Nobody becomes busy through what is idle. -/
theorem Happening.Idle.busy (hh : h.Idle) : h.busy wrk false = false := by
  cases h with
  | workerSend p w command msg => exact if_neg fun hc => hh hc.2
  | replied p => exact ite_self _
  | sent => rfl
  | queued | made | deleted => exact hh.elim

/-! ## The lists -/

/-- A worker does not wait for two services. -/
theorem Inv.sameService {sv' : Service} (hi : Inv t) (hsv : t.mServices srv = some sv)
    (hsv' : t.mServices name = some sv') (hwrk : wrk ∈ sv.mWaiting) (hwrk' : wrk ∈ sv'.mWaiting) :
    srv = name := by
  obtain ⟨w, hw, hs⟩ := (hi.listed srv sv hsv).2 wrk hwrk
  obtain ⟨w', hw', hs'⟩ := (hi.listed name sv' hsv').2 wrk hwrk'
  obtain rfl : w = w' := Option.some.inj (hw.symm.trans hw')
  exact Option.some.inj (hs.symm.trans hs')

/-- The list of a service and the set of the broker change together. -/
theorem InStep.setService (hin : InStep t) (mw : SortedSet Ptr) (hnd : sv.mWaiting.Nodup)
    (hmw : ∀ wrk ∈ sv.mWaiting, wrk ∈ mw)
    (hothers : ∀ srv sv', srv ≠ name → t.mServices srv = some sv' → ∀ wrk ∈ sv'.mWaiting,
      wrk ∈ t.mWaiting → wrk ∈ mw) :
    InStep ({ t with mWaiting := mw }.setService name sv) := by
  intro srv sv' hsv'
  rcases eq_or_ne srv name with rfl | hne
  · obtain rfl : sv = sv' := by simpa using hsv'
    exact ⟨hnd, hmw⟩
  · have hsv : t.mServices srv = some sv' := by simpa [hne] using hsv'
    obtain ⟨hnd', hmw'⟩ := hin srv sv' hsv
    exact ⟨hnd', fun wrk h => hothers srv sv' hne hsv wrk h (hmw' wrk h)⟩

/-- A service whose list stays the same. -/
theorem InStep.keep {sv₀ : Service} (hin : InStep t) (hsv : t.mServices name = some sv₀)
    (hlist : sv.mWaiting = sv₀.mWaiting) : InStep (t.setService name sv) := by
  obtain ⟨hnd, hmw⟩ := hin name sv₀ hsv
  exact hin.setService t.mWaiting (hlist ▸ hnd) (hlist ▸ hmw) fun _ _ _ _ _ _ h => h

/-- A worker leaves the list of its service and the set of the broker. -/
theorem InStep.remove {sv₀ : Service} (hin : InStep t)
    (hsv : t.mServices name = some sv₀) (hout : ∀ srv sv', srv ≠ name → t.mServices srv = some sv' →
      wrk ∉ sv'.mWaiting)
    (hsub : sv.mWaiting.Sublist sv₀.mWaiting) (hwrk : wrk ∉ sv.mWaiting) :
    InStep ({ t with mWaiting := t.mWaiting.erase wrk }.setService name sv) := by
  obtain ⟨hnd, hmw⟩ := hin name sv₀ hsv
  refine hin.setService _ (hnd.sublist hsub) ?_ ?_
  · intro wrk' h
    exact SortedSet.mem_erase.2 ⟨fun he => hwrk (he ▸ h), hmw wrk' (hsub.subset h)⟩
  · intro srv sv' hne hsv' wrk' h hmem
    exact SortedSet.mem_erase.2 ⟨fun he => hout srv sv' hne hsv' (he ▸ h), hmem⟩

/-- In a list without duplicates, what was at a position is gone from the rest. -/
theorem notMem_eraseIdx {l : List Ptr} {i : ℕ} (hnd : l.Nodup) (hi : l[i]? = some wrk) :
    wrk ∉ l.eraseIdx i := by
  intro hmem
  obtain ⟨j, hne, hj⟩ := List.mem_eraseIdx_iff_getElem?.1 hmem
  obtain ⟨hlt, -⟩ := List.getElem?_eq_some_iff.1 hj
  exact hne (List.getElem?_inj hlt hnd |>.1 (hj.trans hi.symm))

/-! ## Steps -/

/-- The workers between two steps. -/
structure Calm (t : Tables) : Prop where
  inStep : InStep t
  oneAtATime : OneAtATime t.log
  free : ∀ wrk ∈ t.mWaiting, busy wrk t.log = false

theorem Calm.start (now : ℤ) : Calm (Broker.init now).toTables where
  inStep _ _ h := by cases h
  oneAtATime _ _ _ _ _ h := by simp [Broker.init] at h
  free _ h := absurd h SortedSet.notMem_empty

/-- Only those wait that waited before. -/
theorem Change.mWaiting_subset (hc : Change t u) (h : wrk ∈ u.mWaiting) : wrk ∈ t.mWaiting := by
  cases hc with
  | idle | service | worker | attached | seen => exact h
  | left | deleted | handed => exact (SortedSet.mem_erase.1 h).2

theorem Path.mWaiting_subset (hp : Path t u) (h : wrk ∈ u.mWaiting) : wrk ∈ t.mWaiting := by
  induction hp with
  | refl => exact h
  | tail _ hc ih => exact ih (hc.mWaiting_subset h)

theorem Change.inStep (hc : Change t u) (hi : Inv t) (hin : InStep t) : InStep u := by
  cases hc with
  | idle | worker | seen => exact hin
  | service name junk hn =>
    exact hin.setService t.mWaiting .nil (by simp) fun _ _ _ _ _ _ h => h
  | attached wrk w name sv hw hs hsv => exact hin.keep (t := t.setWorker wrk _) hsv rfl
  | left wrk w hw hs =>
    intro srv sv hsv
    obtain ⟨hnd, hmw⟩ := hin srv sv hsv
    refine ⟨hnd, fun wrk' h => SortedSet.mem_erase.2 ⟨?_, hmw wrk' h⟩⟩
    rintro rfl
    exact hi.unlisted hw (by simp [hs]) hsv h
  | deleted wrk w name sv hw hs hsv =>
    refine hin.remove hsv ?_ List.filter_sublist (by simp)
    intro srv sv' hne hsv' hmem
    refine hi.unlisted hw ?_ hsv' hmem
    rw [hs]
    intro he
    exact hne (Option.some.inj he).symm
  | handed wrk w name sv msg i hw hsv hpos hmsg =>
    refine hin.remove hsv ?_ (List.eraseIdx_sublist _ _) (notMem_eraseIdx (hin name sv hsv).1 hpos)
    intro srv sv' hne hsv' hmem
    exact hne (hi.sameService hsv' hsv hmem (List.mem_of_getElem? hpos))

theorem Change.calm (hc : Change t u) (hi : Inv t) (h : Calm t) : Calm u := by
  refine ⟨hc.inStep hi h.inStep, ?_, ?_⟩
  · cases hc with
    | idle h' hh =>
      refine h.oneAtATime.idle ?_
      rintro wrk w msg rfl
      exact hh rfl
    | service | attached | seen => exact h.oneAtATime
    | worker | left | deleted => exact h.oneAtATime.idle (by simp)
    | handed wrk w name sv msg i hw hsv hpos hmsg =>
      refine h.oneAtATime.snoc ?_
      rintro wrk' w' msg' heq
      obtain ⟨rfl, -⟩ := Happening.workerSend.inj heq
      exact h.free wrk ((h.inStep name sv hsv).2 wrk (List.mem_of_getElem? hpos))
  · intro p hp
    have hfree := h.free p (hc.mWaiting_subset hp)
    cases hc with
    | idle h' hh => rw [Tables.log_note, busy_append, hfree, hh.busy]
    | service | attached | seen => exact hfree
    | worker wrk id => simp [Tables.addWorker, Happening.busy, hfree]
    | left | deleted => simp [Tables.release, Tables.unlist, Happening.busy, hfree]
    | handed wrk w name sv msg i hw hsv hpos hmsg =>
      have hne : wrk ≠ p := fun he => (SortedSet.mem_erase.1 hp).1 he.symm
      simp [Tables.hand, Happening.busy, hfree, hne]

theorem Path.calm (hp : Path t u) (hi : Inv t) (h : Calm t) : Calm u := by
  induction hp with
  | refl => exact h
  | tail hp hc ih => exact hc.calm (Path.inv hp hi) ih

/-- A worker that begins to wait did not wait yet. -/
def Fresh (t : Tables) (x : Trigger) : Prop := ∀ wrk srv, x = .wait wrk srv → wrk ∉ t.mWaiting

theorem Fires.calm (hf : Fires t x u) (hx : Fresh t x) (h : Calm t) : Calm u := by
  cases x with
  | none => exact hf ▸ h
  | queue name msg =>
    obtain ⟨sv, hsv, rfl⟩ := hf
    refine ⟨h.inStep.keep hsv rfl, h.oneAtATime.idle (by simp), ?_⟩
    intro p hp
    simpa [Tables.queue, Happening.busy] using h.free p hp
  | wait wrk name =>
    obtain ⟨w, sv, expiry, hw, hs, hsv, hbusy, rfl⟩ := hf
    obtain ⟨hnd, hmw⟩ := h.inStep name sv hsv
    have hnot : wrk ∉ sv.mWaiting := fun hmem => hx wrk name rfl (hmw wrk hmem)
    refine ⟨?_, h.oneAtATime, fun p hp => ?_⟩
    · refine InStep.setService h.inStep (t.mWaiting.insert wrk) ?_ ?_ ?_
      · exact List.nodup_append.2 ⟨hnd, List.nodup_singleton wrk, by
          rintro p hp q hq rfl
          exact hnot (List.mem_singleton.1 hq ▸ hp)⟩
      · intro p hp
        rcases List.mem_append.1 hp with hp | hp
        · exact SortedSet.mem_insert.2 (Or.inr (hmw p hp))
        · exact SortedSet.mem_insert.2 (Or.inl (List.mem_singleton.1 hp))
      · intro _ _ _ _ p _ hp
        exact SortedSet.mem_insert.2 (Or.inr hp)
    · rcases SortedSet.mem_insert.1 hp with rfl | hp
      · exact hbusy
      · exact h.free p hp

theorem Course.calm (hc : Course x t u) (hi : Inv t) (hx : Fresh t x) (h : Calm t) : Calm u := by
  obtain ⟨z, z', hz, hf, hu, -⟩ := hc
  have hx' : Fresh z x := fun wrk srv he hmem => hx wrk srv he (hz.mWaiting_subset hmem)
  exact hu.calm (hf.inv (hz.inv hi)) (hf.calm hx' (hz.calm hi h))

/-- A request that has not been sent was handed to a worker that was free. -/
theorem Ends.tidy (he : Ends t u) (hi : Inv t) (h : Calm t) : Tidy u := by
  refine Tidy.of (he.inv hi) ?_ ?_
  · cases he with
    | stopped => exact h.inStep
    | taken wrk w name sv msg out hw hsv hwrk hmsg => exact h.inStep.keep hsv rfl
  · cases he with
    | stopped => exact h.oneAtATime
    | taken wrk w name sv msg out hw hsv hwrk hmsg =>
      refine OneAtATime.idle (h.oneAtATime.snoc ?_) (by simp)
      rintro wrk' w' msg' heq
      obtain ⟨rfl, -⟩ := Happening.workerSend.inj heq
      exact h.free wrk ((h.inStep name sv hsv).2 wrk hwrk)

theorem Cut.tidy (hc : Cut x t u) (hi : Inv t) (hx : Fresh t x) (h : Calm t) : Tidy u := by
  obtain ⟨z, z', hz, hf, y, hy, he⟩ := hc
  have hx' : Fresh z x := fun wrk srv he hmem => hx wrk srv he (hz.mWaiting_subset hmem)
  have hi' := hf.inv (hz.inv hi)
  exact he.tidy (hy.inv hi') (hy.calm hi' (hf.calm hx' (hz.calm hi h)))

/-! ## Runs -/

/-- The message, part by part, is a reply of a worker that waits. -/
def RepliesWaiting (s : Broker) : List Bytes → Prop
  | sender :: _ :: header :: msg => cStr header = mdpwWorker ∧ Passes msg ∧
    ∃ wrk ∈ s.mWorkers (cStr sender), wrk ∈ s.mWaiting
  | [] | [_] | [_, _] => False

instance (s : Broker) : ∀ parts, Decidable (RepliesWaiting s parts)
  | _ :: _ :: _ :: _ => inferInstanceAs (Decidable (_ ∧ _ ∧ _))
  | [] | [_] | [_, _] => isFalse id

/-- No worker replies in the round while it waits. -/
def InTurn (p : Process Broker) (e : Round) : Prop :=
  ∀ frames ∈ e.frames, ¬ RepliesWaiting p.st (frames.map recvPart)

instance (p : Process Broker) (e : Round) : Decidable (InTurn p e) :=
  inferInstanceAs (Decidable (∀ _ ∈ _, _))

variable {p : Process Broker} {e : Round} {es : List Round} {now : ℤ}

/-- Clients bring in no workers. -/
theorem fresh_clientWork (t : Tables) (sender : Bytes) (msg : Zmsg) :
    Fresh t (clientWork sender msg) := by
  intro wrk srv he
  cases msg with
  | nil => cases he
  | cons part body =>
    rw [clientWork] at he
    split_ifs at he

/-- In its turn, a worker that begins to wait is new or was not waiting. -/
theorem InTurn.fresh (h : InTurn p e) (hi : Inv p.st.toTables) (hx : p.st.RoundBrings e x) :
    Fresh p.st.toTables x := by
  unfold InTurn at h
  unfold Broker.RoundBrings at hx
  generalize e.frames = f at h hx
  rcases f with _ | frames
  · rintro wrk srv rfl
    cases hx
  replace h := h frames rfl
  simp only [Brings] at hx
  generalize frames.map recvPart = parts at h hx
  rcases parts with _ | ⟨sender, _ | ⟨empty, _ | ⟨header, msg⟩⟩⟩
  · rintro wrk srv rfl
    cases hx
  · rintro wrk srv rfl
    cases hx
  · rintro wrk srv rfl
    cases hx
  simp only at hx
  split_ifs at hx with hclient hworker
  · exact hx ▸ fresh_clientWork _ _ msg
  · rintro wrk srv rfl hmem
    rcases hx with hnew | ⟨hpasses, hwrk⟩
    · obtain ⟨w, hw⟩ := hi.live hmem
      exact absurd (hnew.symm.trans hw) (by simp)
    · exact h ⟨hworker, hpasses, wrk, hwrk, hmem⟩
  · rintro wrk srv rfl
    cases hx

/-- **The workers wait in good order** in every run in which no worker replies
    while it waits. -/
theorem waiting_run (hc : machine.Can (init now) es) (ht : machine.All InTurn (init now) es) :
    Tidy (machine.run (init now) es).st.toTables := by
  have hrun : Live (machine.run (init now) es) ∧
      Tidy (machine.run (init now) es).st.toTables ∧
      ((machine.run (init now) es).halted = none →
        Calm (machine.run (init now) es).st.toTables) := by
    refine (hc.and ht).inv (I := fun p => Live p ∧ Tidy p.st.toTables ∧
      (p.halted = none → Calm p.st.toTables)) ?_ ?_
    · have hl := init_live now
      have h := Calm.start now
      exact ⟨hl, Tidy.of hl.inv h.inStep h.oneAtATime, fun _ => h⟩
    · rintro p e ⟨hl, -, hcalm⟩ ⟨he, hturn⟩
      have h := hcalm he.1
      obtain ⟨x, hx, ⟨-, hcourse⟩ | ⟨hh, hcut⟩⟩ := step_course hl he
      · have h' := hcourse.calm hl.inv (hturn.fresh hl.inv hx) h
        exact ⟨hl.step he, Tidy.of (hl.step he).inv h'.inStep h'.oneAtATime, fun _ => h'⟩
      · exact ⟨hl.step he, hcut.tidy hl.inv (hturn.fresh hl.inv hx) h, fun hn => absurd hn hh⟩
  exact hrun.2.1

/-- A worker that replies to its request before it gets the next. -/
theorem waiting_run_inTurn : Tidy (machine.run (init 0) [.ready [1] [2] 7, .request [3] [2] [4] 8,
    .reply [1] [3] [5] 8, .request [3] [2] [6] 8]).st.toTables :=
  waiting_run (by decide +kernel) (by decide +kernel)

/-- A worker that replies before it has got a request is twice in the list. -/
theorem waiting_replyTwice : ¬ ∀ (now : ℤ) (es : List Round), machine.Can (init now) es →
    Tidy (machine.run (init now) es).st.toTables := by
  intro h
  have ht := h 0 [.ready [1] [2] 7, .reply [1] [3] [4] 8] (by decide)
  exact absurd (ht.once [2] _ rfl) (by decide)

end ProxyBroker.Majordomo
