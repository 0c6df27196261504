/-
  When the broker of `officialMajordomo` forgets its workers.

  * `Ages`: which workers are no longer in memory, and what the clock has read.
  * `Turn`: what a message does to the worker that it is from and to the others.
  * `heard`: when the broker has heard a worker last; its time runs from then
    (`timely_run`).
  * `forgets_run`: a worker is forgotten only because of what it says itself, or
    when it has not been heard for as long as `HEARTBEAT_EXPIRY`.
  * `forgets_idle_iff`: who is forgotten when nothing arrives.
  * `remembers_run`: who is heard in time is never forgotten.
-/
import ProxyBroker.MajordomoSurvives

namespace ProxyBroker.Majordomo

open Proc Zmsg

variable {s s' s'' : Broker} {wrk : Ptr} {w : Worker} {srv name : Bytes} {msg : Zmsg}
  {X : Ptr → Prop}

/-! ## What changes the heap -/

/-- Neither the heap nor the clock has changed. -/
def Still (s s' : Broker) : Prop := s'.heap = s.heap ∧ s'.clock = s.clock

instance : IsPreorder Broker Still where
  refl _ := ⟨rfl, rfl⟩
  trans _ _ _ h h' := ⟨h'.1.trans h.1, h'.2.trans h.2⟩

/-- The clock has been read, and whoever is no longer in memory, but for those
    of `X`, had expired by then. -/
def Ages (X : Ptr → Prop) (s s' : Broker) : Prop :=
  ∃ k, s'.clock = (fun n => s.clock (n + k)) ∧ ∀ wrk, ¬ X wrk → s'.heap wrk = s.heap wrk ∨
    s'.heap wrk = none ∧ ∀ w, s.heap wrk = some w → ∃ j < k, w.mExpiry ≤ s.clock j

theorem Still.ages (h : Still s s') : Ages X s s' :=
  ⟨0, h.2, fun wrk _ => Or.inl (congrFun h.1 wrk)⟩

/-- The clock has been read. -/
theorem Ages.tick (s : Broker) : Ages X s { s with clock := fun n => s.clock (n + 1) } :=
  ⟨1, rfl, fun _ _ => Or.inl rfl⟩

instance (X : Ptr → Prop) : IsPreorder Broker (Ages X) where
  refl s := (refl_of Still s).ages
  trans s s' s'' := by
    rintro ⟨k, hclock, hheap⟩ ⟨k', hclock', hheap'⟩
    refine ⟨k + k', by rw [hclock', hclock]; simp only [Nat.add_assoc, Nat.add_comm k'], ?_⟩
    intro wrk hx
    rcases hheap wrk hx with hsame | ⟨hnone, hlate⟩
    · rcases hheap' wrk hx with hsame' | ⟨hnone', hlate'⟩
      · exact Or.inl (hsame'.trans hsame)
      · refine Or.inr ⟨hnone', fun w hw => ?_⟩
        obtain ⟨j, hj, hle⟩ := hlate' w (hsame.trans hw)
        refine ⟨j + k, by omega, ?_⟩
        rwa [hclock] at hle
    · refine Or.inr ⟨?_, fun w hw => ?_⟩
      · rcases hheap' wrk hx with hsame' | ⟨hnone', -⟩
        · exact hsame'.trans hnone
        · exact hnone'
      · obtain ⟨j, hj, hle⟩ := hlate w hw
        exact ⟨j, by omega, hle⟩

theorem Ages.of_heap (h : Ages X s s') (hx : ¬ X wrk) (hw : s'.heap wrk = some w) :
    s.heap wrk = some w := by
  obtain ⟨k, -, hheap⟩ := h
  rcases hheap wrk hx with hsame | ⟨hnone, -⟩
  · rwa [← hsame]
  · exact absurd (hnone.symm.trans hw) (by simp)

/-- Whoever is forgotten is late. -/
theorem Ages.late (h : Ages X s s') (hx : ¬ X wrk) (hw : s.heap wrk = some w)
    (hgone : s'.heap wrk = none) : ∃ j, w.mExpiry ≤ s.clock j := by
  obtain ⟨k, -, hheap⟩ := h
  rcases hheap wrk hx with hsame | ⟨-, hlate⟩
  · exact absurd (hw.symm.trans (hsame.symm.trans hgone)) (by simp)
  · obtain ⟨j, -, hle⟩ := hlate w hw
    exact ⟨j, hle⟩

namespace Broker

theorem upd_still {f : Tables → Tables} (h : ∀ t, (f t).heap = t.heap) : Keeps Still (upd f) :=
  keeps_modify fun s => ⟨h s.toTables, rfl⟩

theorem deref_still (wrk : Ptr) : Keeps Still (deref wrk) := fun s => by
  rw [deref_final]
  exact refl_of Still s

theorem derefService_still (srv : Bytes) : Keeps Still (derefService srv) := fun s => by
  have hfinal : (derefService srv).final s = s := by
    cases h : s.mServices srv <;> simp [final, derefService, h]
  rw [hfinal]
  exact refl_of Still s

theorem send_still (msg : Zmsg) : Keeps Still (send msg) := by
  rw [send]
  refine Keeps.bind (upd_still (by intro t; rfl)) fun _ s => ?_
  rw [final_zoom]
  exact ⟨rfl, rfl⟩

theorem workerSend_still (wrk : Ptr) (command option : Bytes) (m : Option Zmsg) :
    Keeps Still (workerSend wrk command option m) := by
  rw [workerSend]
  exact (deref_still wrk).bind fun w =>
    Keeps.bind (upd_still (by intro t; rfl)) fun _ => send_still _

theorem dispatchLoop_still (srv : Bytes) : ∀ n, Keeps Still (dispatchLoop srv n)
  | 0 => keeps_pure _
  | n + 1 => by
    rw [dispatchLoop]
    refine (derefService_still srv).bind fun sv => ?_
    rcases sv.mWaiting with _ | ⟨p, ps⟩
    · exact keeps_pure _
    rcases sv.mRequests with _ | ⟨m, requests⟩
    · exact keeps_pure _
    intro s
    refine Keeps.bind_same (mostRecent_keeps ps 0 p 1 s).symm fun r => ?_
    refine Keeps.bind (upd_still (by intro t; rfl)) (fun _ => ?_) s
    refine (workerSend_still _ _ _ _).bind fun _ => ?_
    refine Keeps.bind (upd_still (by intro t; rfl)) fun _ => ?_
    refine (derefService_still srv).bind fun sv' => ?_
    exact Keeps.bind (upd_still (by intro t; rfl)) fun _ => dispatchLoop_still srv n

theorem serviceRequire_still (name : Bytes) (junk : BitVec 64) :
    Keeps Still (serviceRequire name junk) := by
  intro s
  refine wp_final.1 ((serviceRequire_wp name junk s).mono ?_ ?_)
  · rintro _ _ ⟨-, rfl, -⟩
    exact ⟨rfl, rfl⟩
  · rintro _ ⟨rfl, -⟩
    exact refl_of Still _

/-- `worker_delete` deletes the worker, unless the process ends before. -/
theorem workerDelete_heap (wrk : Ptr) (disconnect : Bool) (s : Broker) :
    (workerDelete wrk disconnect).wp
      (fun _ s' => s'.clock = s.clock ∧ s'.heap = Function.update s.heap wrk none) (Still s) s := by
  have hdelete : ∀ s' : Broker, Still s s' → (workerDelete wrk false).wp
      (fun _ s' => s'.clock = s.clock ∧ s'.heap = Function.update s.heap wrk none) (Still s)
        s' := by
    rintro s' ⟨hheap, hclock⟩
    rw [← hheap, ← hclock]
    have hstill : Still s s' := ⟨hheap, hclock⟩
    cases hw : s'.heap wrk with
    | none => simpa [wp, workerDelete, deref, hw] using hstill
    | some w =>
      simp only [workerDelete, Bool.false_eq_true, if_false, wp_bind, wp_deref hw]
      cases hs : w.mService with
      | none => exact ⟨rfl, rfl⟩
      | some srv =>
        cases hsv : s'.mServices srv with
        | none => simpa [derefService, hsv] using hstill
        | some sv =>
          simp only [wp_bind, wp_derefService hsv, wp_upd]
          exact ⟨trivial, rfl⟩
  cases disconnect with
  | false => exact hdelete s (refl_of Still s)
  | true =>
    have hsplit : workerDelete wrk true =
        (do workerSend wrk mdpwDisconnect [] none; workerDelete wrk false) := rfl
    rw [hsplit, wp_bind]
    exact (wp_final.2 (workerSend_still wrk mdpwDisconnect [] none s)).mono
      (fun _ s' h => hdelete s' h) fun _ h => h

/-- A worker that `purge_workers` takes has expired. -/
theorem late_of_mem_culled {t : Tables} {now : ℤ} (h : wrk ∈ culled t now)
    (hw : t.heap wrk = some w) : w.mExpiry ≤ now := by
  have hlate := (List.mem_filter.1 h).2
  simpa [late, hw] using hlate

/-- `purge_workers` takes those that have expired. -/
theorem expired_late (now : ℤ) : ∀ wrks, (expired now wrks).wp
    (fun toCull s' => toCull = wrks.filter (late s.toTables now) ∧ s' = s) (fun s' => s' = s) s
  | [] => ⟨rfl, rfl⟩
  | wrk :: wrks => by
    cases hw : s.heap wrk with
    | none =>
      rw [wp, expired]
      simp [deref, hw]
    | some w =>
      simp only [expired, wp_bind, wp_deref hw]
      refine (expired_late now wrks).mono ?_ fun _ h => h
      rintro toCull s' ⟨rfl, rfl⟩
      by_cases hlate : w.mExpiry ≤ now <;> simp [late, hw, hlate]

/-- All of these workers are deleted, or the process ends when some are. -/
theorem deletes_heap (wrks : List Ptr) (s : Broker) :
    (forM wrks fun wrk => workerDelete wrk false).wp
      (fun _ s' => s'.clock = s.clock ∧ ∀ p, s'.heap p = if p ∈ wrks then none else s.heap p)
      (fun s' => s'.clock = s.clock ∧ ∀ p, s'.heap p = s.heap p ∨ p ∈ wrks ∧ s'.heap p = none)
      s := by
  let I : List Ptr → Broker → Prop := fun l s' => ∃ done, wrks = done ++ l ∧
    s'.clock = s.clock ∧ ∀ p, s'.heap p = if p ∈ done then none else s.heap p
  refine (wp_forM (I := I) ?_ ⟨[], rfl, rfl, fun p => by simp⟩).mono ?_ fun _ h => h
  · rintro wrk l s' ⟨done, rfl, hclock, hheap⟩
    refine (workerDelete_heap wrk false s').mono ?_ ?_
    · rintro _ s'' ⟨hclock', hnone⟩
      refine ⟨done ++ [wrk], by simp, hclock'.trans hclock, fun p => ?_⟩
      rcases eq_or_ne p wrk with rfl | hne
      · simp [hnone]
      · simp [hnone, hne, hheap]
    · rintro s'' ⟨hheap', hclock'⟩
      refine ⟨hclock'.trans hclock, fun p => ?_⟩
      rw [hheap', hheap]
      split_ifs with hp
      · exact Or.inr ⟨List.mem_append_left _ hp, rfl⟩
      · exact Or.inl rfl
  · rintro _ s' ⟨done, rfl, hclock, hheap⟩
    rw [List.append_nil]
    exact ⟨hclock, hheap⟩

/-- **`purge_workers` deletes all workers that wait and have expired, and nobody else.** -/
theorem purgeWorkers_heap (s : Broker) : purgeWorkers.wp
    (fun _ s' => s'.clock = (fun n => s.clock (n + 1)) ∧
      ∀ p, s'.heap p = if p ∈ culled s.toTables (s.clock 0) then none else s.heap p)
    (fun s' => s'.clock = (fun n => s.clock (n + 1)) ∧
      ∀ p, s'.heap p = s.heap p ∨ p ∈ culled s.toTables (s.clock 0) ∧ s'.heap p = none) s := by
  simp only [purgeWorkers, wp_bind, wp_sClock, wp_get]
  refine (expired_late (s := { s with clock := fun n => s.clock (n + 1) }) (s.clock 0) _).mono ?_ ?_
  · rintro _ _ ⟨rfl, rfl⟩
    exact deletes_heap _ _
  · rintro _ rfl
    exact ⟨rfl, fun p => Or.inl rfl⟩

theorem purgeWorkers_ages : Keeps (Ages X) purgeWorkers := by
  intro s
  refine wp_final.1 ((purgeWorkers_heap s).mono (fun _ s' h => ?_) fun s' h => ?_)
  · obtain ⟨hclock, hheap⟩ := h
    refine ⟨1, hclock, fun p _ => ?_⟩
    rw [hheap]
    split_ifs with hp
    · exact Or.inr ⟨rfl, fun w hw => ⟨0, Nat.one_pos, late_of_mem_culled hp hw⟩⟩
    · exact Or.inl rfl
  · obtain ⟨hclock, hheap⟩ := h
    refine ⟨1, hclock, fun p _ => (hheap p).imp_right ?_⟩
    rintro ⟨hp, hnone⟩
    exact ⟨hnone, fun w hw => ⟨0, Nat.one_pos, late_of_mem_culled hp hw⟩⟩

/-! ## Functions -/

theorem sClock_ages : Keeps (Ages X) sClock := Ages.tick

/-- Code that keeps both. -/
theorem Still.keeps_ages {α : Type} {p : Proc Broker α} (h : Keeps Still p) : Keeps (Ages X) p :=
  fun s => (h s).ages

theorem serviceDispatch_ages (srv : Bytes) (msg : Option Zmsg) :
    Keeps (Ages X) (serviceDispatch srv msg) := by
  have hrest : Keeps (Ages X) (do
      purgeWorkers
      let sv ← derefService srv
      dispatchLoop srv sv.mRequests.length) :=
    purgeWorkers_ages.bind fun _ => (Still.keeps_ages (derefService_still srv)).bind fun sv =>
      Still.keeps_ages (dispatchLoop_still srv _)
  cases msg with
  | none => simpa only [serviceDispatch] using hrest
  | some m =>
    simp only [serviceDispatch]
    refine (Still.keeps_ages (derefService_still srv)).bind fun sv => ?_
    exact Keeps.bind (Still.keeps_ages (upd_still (by intro t; rfl))) fun _ => hrest

theorem heartbeats_ages : Keeps (Ages X) heartbeats := by
  have hbeat : ∀ l : List Ptr,
      Keeps Still (forM l fun wrk => workerSend wrk mdpwHeartbeat [] none) :=
    keeps_forM fun wrk => workerSend_still wrk mdpwHeartbeat [] none
  rw [heartbeats]
  refine sClock_ages.bind fun now => keeps_get.bind fun s => ?_
  split_ifs
  · refine purgeWorkers_ages.bind fun _ => keeps_get.bind fun s' => ?_
    refine (Still.keeps_ages (hbeat _)).bind fun _ => ?_
    exact Keeps.bind (keeps_modify fun s => Still.ages ⟨rfl, rfl⟩) fun _ =>
      sClock_ages.bind fun _ => keeps_pure _
  · exact keeps_pure _

/-- The end of a round: whoever waits and has expired is forgotten when it is
    time for the next heartbeats. -/
theorem heartbeats_heap (hi : Inv s.toTables) : heartbeats.wp
    (fun _ s' => ∀ p, s'.heap p =
      if s.heartbeatAt ≤ s.clock 0 ∧ p ∈ culled s.toTables (s.clock 1) then none else s.heap p)
    (fun _ => False) s := by
  have hbeat : ∀ l : List Ptr,
      Keeps Still (forM l fun wrk => workerSend wrk mdpwHeartbeat [] none) :=
    keeps_forM fun wrk => workerSend_still wrk mdpwHeartbeat [] none
  have hheap : heartbeats.wp
      (fun _ s' => ∀ p, s'.heap p =
        if s.heartbeatAt ≤ s.clock 0 ∧ p ∈ culled s.toTables (s.clock 1) then none else s.heap p)
      (fun _ => True) s := by
    simp only [heartbeats, wp_bind, wp_sClock, wp_get]
    split_ifs with hdue
    · simp only [wp_bind, wp_get]
      refine (purgeWorkers_heap { s with clock := fun n => s.clock (n + 1) }).mono ?_
        fun _ _ => trivial
      rintro _ s₁ ⟨-, h₁⟩
      refine (wp_final.2 (hbeat s₁.mWaiting.toList s₁)).mono ?_ fun _ _ => trivial
      rintro _ s₂ ⟨h₂, -⟩ p
      simpa [hdue] using (congrFun h₂ p).trans (h₁ p)
    · intro p
      simp [hdue]
  exact (hheap.and (heartbeats_wp hi)).mono (fun _ _ h => h.1) fun _ h => h.2

theorem setWorker_ages (wrk : Ptr) (w : Worker) :
    Keeps (Ages (· = wrk)) (upd (·.setWorker wrk w)) :=
  fun _ => ⟨0, rfl, fun _ hp => Or.inl (Function.update_of_ne hp _ _)⟩

theorem workerDelete_ages (wrk : Ptr) (disconnect : Bool) :
    Keeps (Ages (· = wrk)) (workerDelete wrk disconnect) := by
  intro s
  refine wp_final.1 ((workerDelete_heap wrk disconnect s).mono ?_ fun _ h => h.ages)
  rintro _ s' ⟨hclock, hheap⟩
  exact ⟨0, hclock, fun p hp => Or.inl (by rw [hheap, Function.update_of_ne hp])⟩

theorem workerWaiting_ages (wrk : Ptr) : Keeps (Ages (· = wrk)) (workerWaiting wrk) := by
  rw [workerWaiting]
  refine Keeps.bind (Still.keeps_ages (upd_still (by intro t; rfl))) fun _ => ?_
  refine (Still.keeps_ages (deref_still wrk)).bind fun w => ?_
  rcases w.mService with _ | srv
  · exact keeps_halt _
  refine (Still.keeps_ages (derefService_still srv)).bind fun sv => ?_
  refine Keeps.bind (Still.keeps_ages (upd_still (by intro t; rfl))) fun _ => ?_
  refine sClock_ages.bind fun now => (setWorker_ages wrk _).bind fun _ => ?_
  exact serviceDispatch_ages srv none

theorem workerReplies_ages (wrk : Ptr) (msg : Zmsg) :
    Keeps (Ages (· = wrk)) (workerReplies wrk msg) := by
  rw [workerReplies]
  refine (unwrap_keeps msg).bind fun r => (Still.keeps_ages (deref_still wrk)).bind fun w => ?_
  rcases w.mService with _ | srv
  · exact keeps_halt _
  refine (Still.keeps_ages (derefService_still srv)).bind fun sv => ?_
  refine Keeps.bind (Still.keeps_ages (upd_still (by intro t; rfl))) fun _ => ?_
  exact (Still.keeps_ages (send_still _)).bind fun _ => workerWaiting_ages wrk

theorem workerJoins_ages (wrk : Ptr) (msg : Zmsg) (junk : BitVec 64) :
    Keeps (Ages (· = wrk)) (workerJoins wrk msg junk) := by
  rw [workerJoins]
  refine (popFront_keeps msg).bind fun r => ?_
  refine (Still.keeps_ages (serviceRequire_still _ junk)).bind fun srv => ?_
  refine (Still.keeps_ages (deref_still wrk)).bind fun w => (setWorker_ages wrk _).bind fun _ => ?_
  refine (Still.keeps_ages (derefService_still srv)).bind fun sv => ?_
  refine Keeps.bind (Still.keeps_ages (upd_still (by intro t; rfl))) fun _ => ?_
  exact workerWaiting_ages wrk

theorem clientProcess_ages (sender : Bytes) (msg : Zmsg) (junk : BitVec 64) :
    Keeps (Ages X) (clientProcess sender msg junk) := by
  rcases msg with _ | ⟨part, _ | ⟨b, body⟩⟩
  · exact refl_of (Ages X)
  · exact refl_of (Ages X)
  intro s
  rcases eq_or_ne (cStr part) [] with hname | hname
  · rw [clientProcess_nameless hname]
    exact refl_of (Ages X) s
  · have hreq : Still s { s with toTables := require s.toTables (cStr part) junk } := ⟨rfl, rfl⟩
    rw [run_eq_final (clientProcess_run hname)]
    refine trans_of (Ages X) hreq.ages ?_
    split_ifs
    · exact Still.keeps_ages (serviceInternal_sends send_still _ _) _
    · exact serviceDispatch_ages (cStr part) _ _

/-! ## Signs of life -/

/-- If the worker had a service before, it has it still. -/
def StaysAt (s : Broker) (wrk : Ptr) (w : Worker) : Prop :=
  ∀ v, s.heap wrk = some v → v.mService ≠ none → w.mService = v.mService

theorem StaysAt.of_service {v : Worker} (hv : s.heap wrk = some v) (hs : w.mService = v.mService) :
    StaysAt s wrk w := by
  intro v' hv' _
  obtain rfl : v = v' := Option.some.inj (hv.symm.trans hv')
  exact hs

/-- The time of a worker runs from now: it is in memory, or that time is over. -/
def Hears (wrk : Ptr) (id : Bytes) (s s' : Broker) : Prop :=
  (∀ w, s'.heap wrk = some w → w.mIdentity = id ∧ StaysAt s wrk w ∧
    w.mExpiry = s.clock 0 + heartbeatExpiry) ∧
    (s'.heap wrk = none → ∃ j, s.clock 0 + heartbeatExpiry ≤ s.clock j)

theorem workerWaiting_hears (hw : s.heap wrk = some w) :
    (workerWaiting wrk).wp (fun _ s' => Hears wrk w.mIdentity s s') (fun _ => True) s := by
  cases hs : w.mService with
  | none => simp [workerWaiting, deref, hw, hs]
  | some srv =>
    cases hsv : s.mServices srv with
    | none => simp [workerWaiting, deref, derefService, hw, hs, hsv]
    | some sv =>
      let w' : Worker := { w with mExpiry := s.clock 0 + heartbeatExpiry }
      let s₁ : Broker := { s with
        toTables := s.toTables.wait wrk w srv sv (s.clock 0 + heartbeatExpiry)
        clock := fun n => s.clock (n + 1) }
      have hw' : s₁.heap wrk = some w' := by simp [s₁, Tables.wait, w']
      rw [wp, workerWaiting_run hw hs hsv]
      change (serviceDispatch srv none).wp _ _ s₁
      have hages := serviceDispatch_ages (X := fun _ => False) srv none s₁
      refine (wp_final.2 hages).mono ?_ fun _ _ => trivial
      rintro _ s' ⟨k, -, hheap⟩
      rcases hheap wrk id with hsame | ⟨hnone, hlate⟩
      · refine ⟨fun v hv => ?_, fun hnone => ?_⟩
        · obtain rfl : w' = v := Option.some.inj (by rw [← hw', ← hsame, hv])
          exact ⟨rfl, .of_service hw rfl, rfl⟩
        · exact absurd (hw'.symm.trans (hsame.symm.trans hnone)) (by simp)
      · obtain ⟨j, -, hle⟩ := hlate w' hw'
        exact ⟨fun v hv => absurd (hnone.symm.trans hv) (by simp), fun _ => ⟨j + 1, hle⟩⟩

/-- What keeps the worker may come before. -/
theorem Hears.of_still {id : Bytes} {s₁ : Broker} (h : Hears wrk id s₁ s') (hs : Still s s₁) :
    Hears wrk id s s' := by
  simp only [Hears, StaysAt, ← hs.1, ← hs.2]
  exact h

/-- What leaves the clock alone may come before, if the worker has no service yet. -/
theorem Hears.of_unposted {id : Bytes} {s₁ : Broker} (h : Hears wrk id s₁ s')
    (hclock : s₁.clock = s.clock) (hs : ∀ w, s.heap wrk = some w → w.mService = none) :
    Hears wrk id s s' := by
  rw [Hears, ← hclock]
  refine ⟨fun w hw => ?_, h.2⟩
  obtain ⟨hid, -, hexpiry⟩ := h.1 w hw
  exact ⟨hid, fun v hv hne => absurd (hs v hv) hne, hexpiry⟩

theorem workerReplies_hears (hw : s.heap wrk = some w) (msg : Zmsg) :
    (workerReplies wrk msg).wp (fun _ s' => Hears wrk w.mIdentity s s') (fun _ => True) s := by
  rcases msg with _ | ⟨client, msg⟩
  · trivial
  simp only [workerReplies, wp_bind, wp_unwrap_cons, wp_deref hw]
  cases hs : w.mService with
  | none => trivial
  | some srv =>
    cases hsv : s.mServices srv with
    | none => simp [derefService, hsv]
    | some sv =>
      simp only [wp_bind, wp_derefService hsv, wp_upd]
      let s₁ : Broker := { s with toTables := s.toTables.note (.replied wrk) }
      refine (wp_final.2 (send_still _ s₁)).mono ?_ fun _ _ => trivial
      intro _ s₂ hstill
      have hstill₂ : Still s s₂ := trans_of Still (show Still s s₁ from ⟨rfl, rfl⟩) hstill
      have hw₂ : s₂.heap wrk = some w := by rw [hstill₂.1, hw]
      exact (workerWaiting_hears hw₂).mono (fun _ _ h => h.of_still hstill₂) fun _ h => h

theorem workerJoins_hears (hw : s.heap wrk = some w) (hs : w.mService = none) (msg : Zmsg)
    (junk : BitVec 64) :
    (workerJoins wrk msg junk).wp (fun _ s' => Hears wrk w.mIdentity s s') (fun _ => True) s := by
  rcases msg with _ | ⟨part, msg⟩
  · trivial
  simp only [workerJoins, wp_bind, wp_popFront_cons]
  refine (serviceRequire_wp (cStr part) junk s).mono ?_ fun _ _ => trivial
  rintro _ _ ⟨rfl, rfl, -⟩
  have hheap : (require s.toTables (cStr part) junk).heap wrk = some w := hw
  have hsv := mServices_require s.toTables (cStr part) junk
  simp only [deref, wp_bind, wp_get, hheap, wp_pure, wp_upd, derefService,
    Tables.mServices_setWorker, hsv]
  let w' : Worker := { w with mService := some (cStr part) }
  have hw' : Function.update (require s.toTables (cStr part) junk).heap wrk (some w') wrk =
    some w' := by simp
  have hunposted : ∀ v, s.heap wrk = some v → v.mService = none := by
    intro v hv
    obtain rfl : w = v := Option.some.inj (hw.symm.trans hv)
    exact hs
  exact (workerWaiting_hears (w := w') hw').mono (fun _ _ h => h.of_unposted rfl hunposted)
    fun _ h => h

/-- The commands by which a worker shows that it is alive. -/
def Signs : List Bytes := [mdpwReady, mdpwReply, mdpwHeartbeat]

/-- The commands upon which a worker that is known is forgotten. -/
def Partings : List Bytes := [mdpwReady, mdpwDisconnect]

/-- What becomes of the worker that a message is from: if it gives a sign of
    life its time runs from now, otherwise it stays as it is. -/
def Seen (sender command : Bytes) (wrk : Ptr) (s s' : Broker) : Prop :=
  (∀ w, s'.heap wrk = some w → s.heap wrk ≠ none ∨ w.mService ≠ none →
    w.mIdentity = sender ∧ StaysAt s wrk w ∧
      if command ∈ Signs then w.mExpiry = s.clock 0 + heartbeatExpiry else s.heap wrk = some w) ∧
    (s.heap wrk ≠ none → s'.heap wrk = none → command ∈ Partings ∨
      command ∈ Signs ∧ ∃ j, s.clock 0 + heartbeatExpiry ≤ s.clock j)

variable {sender command : Bytes} {rest : Zmsg} {addr : Ptr} {junk : BitVec 64}

theorem Seen.of_gone (h : s'.heap = Function.update s''.heap wrk none)
    (hc : command ∈ Partings ∨ s.heap wrk = none) : Seen sender command wrk s s' :=
  ⟨fun w hw => by simp [h] at hw, fun hne _ => Or.inl (hc.resolve_right hne)⟩

theorem Hears.seen (h : Hears wrk sender s s') (hc : command ∈ Signs) :
    Seen sender command wrk s s' := by
  refine ⟨fun w hw _ => ?_, fun _ hnone => Or.inr ⟨hc, h.2 hnone⟩⟩
  rw [if_pos hc]
  exact h.1 w hw

/-- The message has come in `s`, and in `s₁` the worker is known. -/
theorem keeps_seen {p : Proc Broker Unit} {s₁ : Broker} (hp : Keeps (Ages (· = wrk)) p)
    (hmade : Ages (· = wrk) s s₁)
    (hseen : p.wp (fun _ s' => Seen sender command wrk s s') (fun _ => True) s₁) :
    p.wp (fun _ s' => Ages (· = wrk) s s' ∧ Seen sender command wrk s s') (fun _ => True) s₁ :=
  ((wp_final.2 (trans_of (Ages (· = wrk)) hmade (hp s₁))).and hseen).mono (fun _ _ h => h)
    fun _ _ => trivial

theorem workerProcess_known_seen (hsender : sender ≠ []) (hwrk : s.mWorkers sender = some wrk)
    (hw : s.heap wrk = some w) (hid : w.mIdentity = sender) (rest : Zmsg) (addr : Ptr)
    (junk : BitVec 64) : (workerProcess sender (command :: rest) addr junk).wp
      (fun _ s' => Ages (· = wrk) s s' ∧ Seen sender (cStr command) wrk s s')
      (fun _ => True) s := by
  have hrefl := refl_of (Ages (· = wrk)) s
  have hgone : ∀ disconnect, cStr command ∈ Partings → (workerDelete wrk disconnect).wp
      (fun _ s' => Seen sender (cStr command) wrk s s') (fun _ => True) s := fun disconnect hc =>
    (workerDelete_heap wrk disconnect s).mono (fun _ _ h => .of_gone h.2 (Or.inl hc))
      fun _ _ => trivial
  rw [wp, workerProcess_known_run hsender hwrk]
  split_ifs with hready hreply hbeat hdisc
  · have hpart : cStr command ∈ Partings := by simp [Partings, hready]
    exact keeps_seen (workerDelete_ages wrk true) hrefl (hgone true hpart)
  · have hsign : cStr command ∈ Signs := by simp [Signs, hreply]
    refine keeps_seen (workerReplies_ages wrk rest) hrefl ?_
    exact (workerReplies_hears hw rest).mono (fun _ _ h => Hears.seen (hid ▸ h) hsign) fun _ h => h
  · have hsign : cStr command ∈ Signs := by simp [Signs, hbeat]
    refine keeps_seen ?_ hrefl ?_
    · exact sClock_ages.bind fun now => (Still.keeps_ages (deref_still wrk)).bind fun w =>
        setWorker_ages wrk _
    · simp only [wp_bind, wp_sClock]
      rw [wp_deref (s := { s with clock := fun n => s.clock (n + 1) }) hw, wp_upd]
      refine Hears.seen ⟨fun v hv => ?_, fun hnone => ?_⟩ hsign
      · obtain rfl : _ = v := by simpa using hv
        exact ⟨hid, .of_service hw rfl, rfl⟩
      · simp at hnone
  · have hpart : cStr command ∈ Partings := by simp [Partings, hdisc]
    exact keeps_seen (workerDelete_ages wrk false) hrefl (hgone false hpart)
  · have hsign : cStr command ∉ Signs := by simp [Signs, hready, hreply, hbeat]
    refine ⟨hrefl, fun v hv _ => ?_, fun hne hnone => absurd hnone hne⟩
    rw [if_neg hsign]
    obtain rfl : w = v := Option.some.inj (hw.symm.trans hv)
    exact ⟨hid, .of_service hw rfl, hw⟩

theorem workerProcess_new_seen (hsender : sender ≠ []) (hnew : s.mWorkers sender = none)
    (haddr : s.heap addr = none) (rest : Zmsg) (junk : BitVec 64) :
    (workerProcess sender (command :: rest) addr junk).wp
      (fun _ s' => Ages (· = addr) s s' ∧ Seen sender (cStr command) addr s s')
      (fun _ => True) s := by
  let s₁ : Broker := { s with toTables := s.toTables.addWorker addr sender }
  have hw : s₁.heap addr = some ⟨sender, none, 0⟩ := by simp [s₁, Tables.addWorker]
  have hmade : Ages (· = addr) s s₁ :=
    ⟨0, rfl, fun p hp => Or.inl (by simp [s₁, Tables.addWorker, hp])⟩
  have hdelete : ∀ disconnect, (workerDelete addr disconnect).wp
      (fun _ s' => Ages (· = addr) s s' ∧ Seen sender (cStr command) addr s s') (fun _ => True)
        s₁ := fun disconnect => keeps_seen (workerDelete_ages addr disconnect) hmade
      ((workerDelete_heap addr disconnect s₁).mono (fun _ _ h => .of_gone h.2 (Or.inr haddr))
        fun _ _ => trivial)
  rw [wp, workerProcess_new_run hsender hnew]
  split_ifs with hready
  · exact hdelete true
  · have hsign : cStr command ∈ Signs := by simp [Signs, hready]
    refine keeps_seen (workerJoins_ages addr rest junk) hmade ?_
    have hunposted : ∀ v, s.heap addr = some v → v.mService = none := by simp [haddr]
    exact (workerJoins_hears hw rfl rest junk).mono
      (fun _ _ h => Hears.seen (h.of_unposted rfl hunposted) hsign) fun _ h => h
  · exact hdelete true
  · exact hdelete true
  · exact hdelete false
  · refine ⟨hmade, fun v hv hs => ?_, fun hne _ => absurd haddr hne⟩
    obtain rfl : _ = v := Option.some.inj (hw.symm.trans hv)
    rcases hs with hne | hs
    · exact absurd haddr hne
    · exact absurd rfl hs

/-! ## Rounds -/

/-- The worker that speaks in a message, and its command. -/
def speaks : Zmsg → Option (Bytes × Bytes)
  | sender :: _ :: header :: command :: _ =>
    if cStr header = mdpwWorker then some (cStr sender, cStr command) else none
  | _ => none

/-- The worker has spoken, and shown that it is alive. -/
def Shows (spoken : Option (Bytes × Bytes)) (id : Bytes) : Prop :=
  ∃ command ∈ Signs, spoken = some (id, command)

instance (spoken : Option (Bytes × Bytes)) (id : Bytes) : Decidable (Shows spoken id) :=
  inferInstanceAs (Decidable (∃ command ∈ Signs, spoken = some (id, command)))

@[simp] theorem not_shows_none (id : Bytes) : ¬ Shows none id := by simp [Shows]

@[simp] theorem shows_some {id : Bytes} :
    Shows (some (sender, command)) id ↔ sender = id ∧ command ∈ Signs := by
  simp only [Shows, Option.some.injEq, Prod.mk.injEq]
  constructor
  · rintro ⟨_, hc, rfl, rfl⟩
    exact ⟨rfl, hc⟩
  · rintro ⟨rfl, hc⟩
    exact ⟨command, hc, rfl, rfl⟩

/-- What a message does to the workers: some are forgotten, and one may be the
    worker that speaks. -/
inductive Turn : Option (Bytes × Bytes) → Broker → Broker → Prop
  | others {s s' : Broker} : Ages (fun _ => False) s s' → Turn none s s'
  | speaks {s s' : Broker} {sender command : Bytes} {wrk : Ptr} :
    (∀ p v, s.heap p = some v → (v.mIdentity = sender ↔ p = wrk)) → Ages (· = wrk) s s' →
      Seen sender command wrk s s' → Turn (some (sender, command)) s s'

theorem workerProcess_turn (hi : Inv s.toTables) (haddr : s.heap addr = none)
    (sender command : Bytes) (rest : Zmsg) (junk : BitVec 64) :
    (workerProcess sender (command :: rest) addr junk).wp
      (fun _ s' => Turn (some (sender, cStr command)) s s') (fun _ => True) s := by
  rcases eq_or_ne sender [] with rfl | hsender
  · trivial
  cases hwrk : s.mWorkers sender with
  | some wrk =>
    obtain ⟨w, hw, hid⟩ := hi.alive sender wrk hwrk
    refine (workerProcess_known_seen hsender hwrk hw hid rest addr junk).mono ?_ fun _ h => h
    rintro _ s' ⟨hages, hseen⟩
    refine .speaks (fun p v hv => ⟨fun hv' => ?_, ?_⟩) hages hseen
    · exact Option.some.inj ((hv' ▸ hi.known p v hv).symm.trans hwrk)
    · rintro rfl
      obtain rfl : w = v := Option.some.inj (hw.symm.trans hv)
      exact hid
  | none =>
    refine (workerProcess_new_seen hsender hwrk haddr rest junk).mono ?_ fun _ h => h
    rintro _ s' ⟨hages, hseen⟩
    refine .speaks (fun p v hv => ⟨fun hv' => ?_, ?_⟩) hages hseen
    · exact absurd ((hv' ▸ hi.known p v hv).symm.trans hwrk) (by simp)
    · rintro rfl
      exact absurd (haddr.symm.trans hv) (by simp)

theorem receive_turn (hi : Inv s.toTables) (haddr : s.heap addr = none) {frames : List Bytes}
    (hne : frames ≠ []) (junk : BitVec 64) : (receive frames addr junk).wp
      (fun _ s' => Turn (speaks (frames.map recvPart)) s s') (fun _ => True) s := by
  rw [receive, ofSocket_encode hne]
  rcases frames.map recvPart with _ | ⟨sender, _ | ⟨empty, _ | ⟨header, msg⟩⟩⟩
  · trivial
  · trivial
  · trivial
  simp only [wp_bind, wp_popFront_cons]
  have hnobody : cStr header ≠ mdpwWorker → speaks (sender :: empty :: header :: msg) = none := by
    intro hheader
    cases msg <;> simp [speaks, hheader]
  split_ifs with hclient hworker
  · have hheader : cStr header ≠ mdpwWorker := by
      rw [hclient]
      decide
    rw [hnobody hheader]
    exact (wp_final.2 (clientProcess_ages (cStr sender) msg junk s)).mono (fun _ _ h => .others h)
      fun _ _ => trivial
  · rcases msg with _ | ⟨command, rest⟩
    · trivial
    · rw [speaks, if_pos hworker]
      exact workerProcess_turn hi haddr (cStr sender) command rest junk
  · rw [hnobody hworker]
    exact .others (refl_of (Ages _) s)

end Broker

/-- The worker that speaks in a round, and its command. -/
def Round.speaks (e : Round) : Option (Bytes × Bytes) :=
  e.frames.bind fun frames => Broker.speaks (frames.map recvPart)

/-- When the broker has last heard a worker. -/
def heard (id : Bytes) (es : List Round) : Option ℤ :=
  (es.filter fun e => Broker.Shows e.speaks id).getLast?.map fun e => e.clock 0

theorem heard_snoc (id : Bytes) (es : List Round) (e : Round) :
    heard id (es ++ [e]) =
      if Broker.Shows e.speaks id then some (e.clock 0) else heard id es := by
  split_ifs with h <;> simp [heard, List.filter_append, h]

namespace Broker

variable {e : Round}

/-- What a round does to the workers: it takes a message, and the rest of it
    only forgets those that are late. -/
theorem code_turn (hi : Inv s.toTables) (he : e.frames ≠ some []) (haddr : s.heap e.addr = none) :
    (code e).wp (fun _ s'' => ∃ s', Turn e.speaks { s with clock := e.clock } s' ∧
      Ages (fun _ => False) s' s'') (fun _ => True) s := by
  have hbeat : ∀ s' : Broker, Turn e.speaks { s with clock := e.clock } s' →
      heartbeats.wp (fun _ s'' => ∃ s', Turn e.speaks { s with clock := e.clock } s' ∧
        Ages (fun _ => False) s' s'') (fun _ => True) s' := fun s' h =>
    (wp_final.2 (heartbeats_ages s')).mono (fun _ _ ha => ⟨s', h, ha⟩) fun _ _ => trivial
  simp only [code, wp_bind, wp_modify]
  rcases hf : e.frames with _ | frames
  · refine hbeat _ ?_
    rw [Round.speaks, hf]
    exact .others (refl_of (Ages _) _)
  · have hframes : frames ≠ [] := fun h => he (by rw [hf, h])
    simp only [wp_bind]
    refine (receive_turn (s := { s with clock := e.clock }) hi haddr hframes e.junk).mono ?_
      fun _ h => h
    intro _ s' h
    refine hbeat s' ?_
    rwa [Round.speaks, hf]

/-- The time by which a worker must be heard again, when a message has been taken. -/
def due (spoken : Option (Bytes × Bytes)) (w : Worker) (now : ℤ) : ℤ :=
  if Shows spoken w.mIdentity then now + heartbeatExpiry else w.mExpiry

variable {spoken : Option (Bytes × Bytes)} {w' : Worker}

/-- A worker has spoken, or it is one of the others. -/
theorem Turn.about (h : Turn spoken s s') (wrk : Ptr) :
    (∃ X, ¬ X wrk ∧ Ages X s s' ∧ ∀ w, s.heap wrk = some w → ¬ Shows spoken w.mIdentity) ∨
      ∃ sender command, spoken = some (sender, command) ∧
        (∀ w, s.heap wrk = some w → w.mIdentity = sender) ∧ Seen sender command wrk s s' := by
  cases h with
  | others h => exact Or.inl ⟨_, id, h, by simp⟩
  | @speaks _ _ sender command p hp hages hseen =>
    rcases eq_or_ne wrk p with rfl | hne
    · exact Or.inr ⟨sender, command, rfl, fun w hw => (hp wrk w hw).2 rfl, hseen⟩
    · refine Or.inl ⟨_, hne, hages, fun w hw hshows => hne ?_⟩
      exact (hp wrk w hw).1 (shows_some.1 hshows).1.symm

/-- A worker that is in memory has been heard now, or has been there before. -/
theorem Turn.seen (h : Turn spoken s s') (hw : s'.heap wrk = some w)
    (hs : s.heap wrk ≠ none ∨ w.mService ≠ none) :
    w.mExpiry = due spoken w (s.clock 0) ∧ (Shows spoken w.mIdentity ∨ s.heap wrk = some w) := by
  rcases h.about wrk with ⟨X, hx, hages, hsilent⟩ | ⟨sender, command, rfl, -, hseen⟩
  · have hold := hages.of_heap hx hw
    exact ⟨by simp [due, hsilent w hold], Or.inr hold⟩
  · obtain ⟨hid, -, hexpiry⟩ := hseen.1 w hw hs
    split_ifs at hexpiry with hc
    · exact ⟨by simp [due, hid, hc, hexpiry], Or.inl (by simp [hid, hc])⟩
    · exact ⟨by simp [due, hc], Or.inr hexpiry⟩

/-- A worker keeps its identity and its service. -/
theorem Turn.same (h : Turn spoken s s') (hw : s.heap wrk = some w) (hw' : s'.heap wrk = some w') :
    w'.mIdentity = w.mIdentity ∧ (w.mService ≠ none → w'.mService = w.mService) := by
  have hne : s.heap wrk ≠ none := by simp [hw]
  rcases h.about wrk with ⟨X, hx, hages, -⟩ | ⟨sender, command, -, hid, hseen⟩
  · obtain rfl : w = w' := Option.some.inj (hw.symm.trans (hages.of_heap hx hw'))
    exact ⟨rfl, fun _ => rfl⟩
  · obtain ⟨hid', hstays, -⟩ := hseen.1 w' hw' (Or.inl hne)
    exact ⟨hid'.trans (hid w hw).symm, hstays w hw⟩

/-- A worker that a message makes the broker forget has parted or is late. -/
theorem Turn.gone (h : Turn spoken s s') (hw : s.heap wrk = some w) (hgone : s'.heap wrk = none) :
    (∃ command ∈ Partings, spoken = some (w.mIdentity, command)) ∨
      ∃ j, due spoken w (s.clock 0) ≤ s.clock j := by
  have hne : s.heap wrk ≠ none := by simp [hw]
  rcases h.about wrk with ⟨X, hx, hages, hsilent⟩ | ⟨sender, command, rfl, hid, hseen⟩
  · obtain ⟨j, hle⟩ := hages.late hx hw hgone
    exact Or.inr ⟨j, by simpa [due, hsilent w hw] using hle⟩
  · obtain rfl : w.mIdentity = sender := hid w hw
    rcases hseen.2 hne hgone with hc | ⟨hc, j, hle⟩
    · exact Or.inl ⟨command, hc, rfl⟩
    · exact Or.inr ⟨j, by simpa [due, hc] using hle⟩

theorem Turn.ages (h : Turn spoken s s') : ∃ X, Ages X s s' := by
  cases h with
  | others h => exact ⟨_, h⟩
  | speaks _ h _ => exact ⟨_, h⟩

/-- **Whoever a round makes the broker forget has parted or is late.** -/
theorem Turn.forgets (h : Turn spoken s s') (ha : Ages (fun _ => False) s' s'')
    (hw : s.heap wrk = some w) (hgone : s''.heap wrk = none) :
    (∃ command ∈ Partings, spoken = some (w.mIdentity, command)) ∨
      ∃ j, due spoken w (s.clock 0) ≤ s.clock j := by
  cases hw' : s'.heap wrk with
  | none => exact h.gone hw hw'
  | some w' =>
    obtain ⟨hexpiry, hold⟩ := h.seen hw' (Or.inl (by simp [hw]))
    obtain ⟨j, hle⟩ := ha.late id hw' hgone
    obtain ⟨X, k, hclock, -⟩ := h.ages
    have hdue : due spoken w (s.clock 0) = w'.mExpiry := by
      rw [hexpiry, due, due, (h.same hw hw').1]
      split_ifs with hshows
      · rfl
      · rcases hold with hold | hold
        · exact absurd ((h.same hw hw').1 ▸ hold) hshows
        · rw [Option.some.inj (hw.symm.trans hold)]
    refine Or.inr ⟨j + k, ?_⟩
    rw [hdue]
    rwa [hclock] at hle

end Broker

open Broker

/-! ## Runs -/

variable {now : ℤ} {es : List Round} {e : Round} {p : Process Broker} {wrk : Ptr} {w : Worker}

theorem Inv.waits_posted {t : Tables} (hi : Inv t) (hwait : wrk ∈ t.mWaiting)
    (hw : t.heap wrk = some w) : w.mService ≠ none := by
  obtain ⟨srv, sv, hsv, hmem⟩ := hi.waiting wrk hwait
  obtain ⟨w', hw', hs⟩ := (hi.listed srv sv hsv).2 wrk hmem
  obtain rfl : w = w' := Option.some.inj (hw.symm.trans hw')
  simp [hs]

theorem round_turn (hi : Inv p.st.toTables) (he : machine.can p e)
    (hh : (machine.next p e).halted = none) :
    ∃ s', Turn e.speaks { p.st with clock := e.clock } s' ∧
      Ages (fun _ => False) s' (machine.next p e).st := by
  have hturn := code_turn hi he.2.1 he.2.2
  change (Process.exec (code e) p).halted = none at hh
  change ∃ s', _ ∧ Ages _ s' (Process.exec (code e) p).st
  cases hr : (code e).run p.st with
  | ok u s'' =>
    rw [Process.exec_ok hr]
    exact (wp_ok hr).1 hturn
  | error h s'' =>
    rw [Process.exec_error hr] at hh
    cases hh

/-- After the rounds `es` the time of every worker runs from when it has last
    been heard. -/
def Timely (es : List Round) (p : Process Broker) : Prop :=
  p.halted = none → ∀ wrk w, p.st.heap wrk = some w → w.mService ≠ none →
    ∃ t, heard w.mIdentity es = some t ∧ w.mExpiry = t + heartbeatExpiry

theorem Timely.step (h : Timely es p) (hl : Live p) (he : machine.can p e) :
    Timely (es ++ [e]) (machine.next p e) := by
  intro hh wrk w hw hs
  obtain ⟨s', hturn, hages⟩ := round_turn hl.inv he hh
  obtain ⟨hexpiry, hold⟩ := hturn.seen (hages.of_heap id hw) (Or.inr hs)
  rw [heard_snoc]
  split_ifs with hshows
  · exact ⟨e.clock 0, rfl, by simpa [due, hshows] using hexpiry⟩
  · exact h he.1 wrk w (hold.resolve_left hshows) hs

/-- A worker that a round makes the broker forget has parted, or its time is over. -/
theorem Timely.forgets (h : Timely es p) (hl : Live p) (he : machine.can p e)
    (hh : (machine.next p e).halted = none) (hw : p.st.heap wrk = some w) (hs : w.mService ≠ none)
    (hgone : (machine.next p e).st.heap wrk = none) :
    (∃ command ∈ Partings, e.speaks = some (w.mIdentity, command)) ∨
      ∃ t j, heard w.mIdentity (es ++ [e]) = some t ∧ t + heartbeatExpiry ≤ e.clock j := by
  obtain ⟨t, ht, hexpiry⟩ := h he.1 wrk w hw hs
  obtain ⟨s', hturn, hages⟩ := round_turn hl.inv he hh
  refine (hturn.forgets hages hw hgone).imp_right ?_
  rintro ⟨j, hle⟩
  rw [heard_snoc]
  rw [due] at hle
  split_ifs at hle ⊢ with hshows
  · exact ⟨e.clock 0, j, rfl, hle⟩
  · exact ⟨t, j, ht, hexpiry ▸ hle⟩

theorem timely_run (hc : machine.Can (init now) es) : Timely es (machine.run (init now) es) := by
  have h : Live (machine.run (init now) es) ∧ Timely es (machine.run (init now) es) := by
    refine hc.inv_hist (I := fun es p => Live p ∧ Timely es p) ⟨init_live now, ?_⟩ ?_
    · intro _ wrk w hw
      cases hw
    · rintro es p e ⟨hl, ht⟩ he
      exact ⟨hl.step he, ht.step hl he⟩
  exact h.2

/-- **No worker is forgotten too early.**  A worker that has a service is forgotten in
    a round only if it parts in that round, or if `HEARTBEAT_EXPIRY` has passed since
    it was last heard. -/
theorem forgets_run (hc : machine.Can (init now) es)
    (he : machine.can (machine.run (init now) es) e)
    (hh : (machine.next (machine.run (init now) es) e).halted = none)
    (hw : (machine.run (init now) es).st.heap wrk = some w) (hs : w.mService ≠ none)
    (hgone : (machine.next (machine.run (init now) es) e).st.heap wrk = none) :
    (∃ command ∈ Partings, e.speaks = some (w.mIdentity, command)) ∨
      ∃ t j, heard w.mIdentity (es ++ [e]) = some t ∧ t + heartbeatExpiry ≤ e.clock j := by
  exact (timely_run hc).forgets (live_run hc) he hh hw hs hgone

/-- A late round in which nothing arrives. -/
def silent : Round := ⟨none, fun _ => 8000, 8, 0⟩

/-- A worker that has only said that it is ready is forgotten. -/
theorem forgets_run_silent :
    heard [1] ([.ready [1] [2] 7] ++ [silent]) = some 0 ∧
      ((∃ command ∈ Partings, silent.speaks = some ([1], command)) ∨ ∃ t j,
        heard [1] ([.ready [1] [2] 7] ++ [silent]) = some t ∧
          t + heartbeatExpiry ≤ silent.clock j) := by
  have hw : (machine.run (init 0) [.ready [1] [2] 7]).st.heap 7 =
      some ⟨[1], some [2], 7500⟩ := by decide
  exact ⟨by decide, forgets_run (by decide) (by decide) (by decide) hw (by simp) (by decide)⟩

/-- **When nothing arrives, exactly those are forgotten that wait and have not been
    heard for `HEARTBEAT_EXPIRY`**, if it is time for the next heartbeats. -/
theorem forgets_idle_iff (hc : machine.Can (init now) es)
    (he : machine.can (machine.run (init now) es) e) (hidle : e.frames = none)
    (hw : (machine.run (init now) es).st.heap wrk = some w) :
    (machine.next (machine.run (init now) es) e).st.heap wrk = none ↔
      wrk ∈ (machine.run (init now) es).st.mWaiting ∧
        (machine.run (init now) es).st.heartbeatAt ≤ e.clock 0 ∧
        ∃ t, heard w.mIdentity es = some t ∧ t + heartbeatExpiry ≤ e.clock 1 := by
  have hl := live_run hc
  have ht := timely_run hc he.1
  generalize machine.run (init now) es = p at *
  have hstate : (machine.next p e).st = heartbeats.final { p.st with clock := e.clock } := by
    have hcode : code e = (do modify fun s => { s with clock := e.clock }; heartbeats) := by
      rw [code, hidle]
    rw [machine, Process.st_exec, hcode]
    rfl
  have hheap := wp_final.1 ((heartbeats_heap (s := { p.st with clock := e.clock }) hl.inv).mono
    (fun _ _ h => h wrk) fun _ h => h.elim)
  have hlate : wrk ∈ culled p.st.toTables (e.clock 1) ↔
      wrk ∈ p.st.mWaiting ∧ w.mExpiry ≤ e.clock 1 := by
    simp [culled, late, hw]
  rw [hstate, hheap]
  constructor
  · intro h
    split_ifs at h with hdue
    · obtain ⟨hbeat, hcull⟩ := hdue
      obtain ⟨hwait, hle⟩ := hlate.1 hcull
      obtain ⟨t, hheard, hexpiry⟩ := ht wrk w hw (hl.inv.waits_posted hwait hw)
      exact ⟨hwait, hbeat, t, hheard, hexpiry ▸ hle⟩
    · exact absurd (hw.symm.trans h) (by simp)
  · rintro ⟨hwait, hbeat, t, hheard, hle⟩
    obtain ⟨t', hheard', hexpiry⟩ := ht wrk w hw (hl.inv.waits_posted hwait hw)
    obtain rfl : t = t' := Option.some.inj (hheard.symm.trans hheard')
    rw [if_pos ⟨hbeat, hlate.2 ⟨hwait, hexpiry ▸ hle⟩⟩]

/-- The same worker, when nothing arrives. -/
theorem forgets_idle_iff_silent :
    (machine.next (machine.run (init 0) [.ready [1] [2] 7]) silent).st.heap 7 = none ↔
      7 ∈ (machine.run (init 0) [.ready [1] [2] 7]).st.mWaiting ∧
        (machine.run (init 0) [.ready [1] [2] 7]).st.heartbeatAt ≤ silent.clock 0 ∧
        ∃ t, heard [1] [.ready [1] [2] 7] = some t ∧ t + heartbeatExpiry ≤ silent.clock 1 := by
  have hw : (machine.run (init 0) [.ready [1] [2] 7]).st.heap 7 =
      some ⟨[1], some [2], 7500⟩ := by decide
  exact forgets_idle_iff (by decide) (by decide) rfl hw

/-- A worker that does not part in a round, and whose time is not over there. -/
def OnTime (id : Bytes) (es : List Round) (e : Round) : Prop :=
  (∀ command ∈ Partings, e.speaks ≠ some (id, command)) ∧
    ∀ t ∈ heard id (es ++ [e]), ∀ j, e.clock j < t + heartbeatExpiry

/-- Such a worker stays, in the service that it has. -/
theorem Timely.stays (h : Timely es p) (hl : Live p) (he : machine.can p e)
    (hh : (machine.next p e).halted = none) (hw : p.st.heap wrk = some w) (hs : w.mService ≠ none)
    (ho : OnTime w.mIdentity es e) : ∃ w', (machine.next p e).st.heap wrk = some w' ∧
      w'.mIdentity = w.mIdentity ∧ w'.mService = w.mService := by
  cases hw' : (machine.next p e).st.heap wrk with
  | none =>
    rcases h.forgets hl he hh hw hs hw' with ⟨command, hc, hspeaks⟩ | ⟨t, j, ht, hle⟩
    · exact absurd hspeaks (ho.1 command hc)
    · exact absurd hle (not_le.2 (ho.2 t ht j))
  | some w' =>
    obtain ⟨s', hturn, hages⟩ := round_turn hl.inv he hh
    obtain ⟨hid, hservice⟩ := hturn.same hw (hages.of_heap id hw')
    exact ⟨w', rfl, hid, hservice hs⟩

/-- A process that can still go on has not ended before. -/
theorem running_of_run (hc : machine.Can p es) (hh : (machine.run p es).halted = none) :
    p.halted = none := by
  cases es with
  | nil => exact hh
  | cons e es => exact hc.1.1

/-- **A worker that is on time is never forgotten.**  It stays in memory, and in its
    service, whatever else happens. -/
theorem remembers_run {es' : List Round} (hc : machine.Can (init now) (es ++ es'))
    (hh : (machine.run (init now) (es ++ es')).halted = none)
    (hw : (machine.run (init now) es).st.heap wrk = some w) (hs : w.mService ≠ none)
    (ho : ∀ done e rest, es' = done ++ e :: rest → OnTime w.mIdentity (es ++ done) e) :
    ∃ w', (machine.run (init now) (es ++ es')).st.heap wrk = some w' ∧
      w'.mIdentity = w.mIdentity ∧ w'.mService = w.mService := by
  induction es' generalizing es w with
  | nil => exact ⟨w, by simpa using hw, rfl, rfl⟩
  | cons e es' ih =>
    rw [List.append_cons] at hc hh ⊢
    obtain ⟨hrun, hrest⟩ := Machine.all_append.1 hc
    obtain ⟨hes, he⟩ := Machine.all_snoc.1 hrun
    have hnext : machine.run (init now) (es ++ [e]) =
        machine.next (machine.run (init now) es) e := by simp
    have hgoes : (machine.next (machine.run (init now) es) e).halted = none := by
      rw [Machine.run_append] at hh
      rw [← hnext]
      exact running_of_run hrest hh
    have hon : OnTime w.mIdentity es e := by simpa using ho [] e es' rfl
    obtain ⟨w₁, hw₁, hid, hservice⟩ :=
      (timely_run hes).stays (live_run hes) he hgoes hw hs hon
    have hlater : ∀ done e' rest, es' = done ++ e' :: rest →
        OnTime w₁.mIdentity (es ++ [e] ++ done) e' := by
      rintro done e' rest rfl
      simpa [hid] using ho (e :: done) e' rest rfl
    obtain ⟨w', hw', hid', hservice'⟩ :=
      ih hc hh (hnext ▸ hw₁) (by rwa [hservice]) hlater
    exact ⟨w', hw', hid'.trans hid, hservice'.trans hservice⟩

/-- A round in which the worker is heard. -/
def beat : Round := ⟨some [[1], [], mdpwWorker, mdpwHeartbeat], fun _ => 5000, 8, 0⟩

/-- A worker that has been heard once more is remembered. -/
theorem remembers_run_beat :
    ∃ w', (machine.run (init 0) ([.ready [1] [2] 7] ++ [beat, silent])).st.heap 7 = some w' ∧
      w'.mIdentity = [1] ∧ w'.mService = some [2] := by
  have hw : (machine.run (init 0) [.ready [1] [2] 7]).st.heap 7 =
      some ⟨[1], some [2], 7500⟩ := by decide
  have hbeat : OnTime [1] [.ready [1] [2] 7] beat := by
    refine ⟨by decide, fun t ht j => ?_⟩
    obtain rfl : 5000 = t := Option.some.inj ht
    exact show (5000 : ℤ) < 5000 + heartbeatExpiry by decide
  have hsilent : OnTime [1] ([.ready [1] [2] 7] ++ [beat]) silent := by
    refine ⟨by decide, fun t ht j => ?_⟩
    obtain rfl : 5000 = t := Option.some.inj ht
    exact show (8000 : ℤ) < 5000 + heartbeatExpiry by decide
  refine remembers_run (by decide) (by decide) hw (by simp) ?_
  rintro (_ | ⟨e₀, _ | ⟨e₁, done⟩⟩) e rest hes
  · obtain ⟨rfl, rfl⟩ := List.cons.inj hes
    exact hbeat
  · obtain ⟨rfl, hrest⟩ := List.cons.inj hes
    obtain ⟨rfl, rfl⟩ := List.cons.inj hrest
    exact hsilent
  · simp at hes

end ProxyBroker.Majordomo
