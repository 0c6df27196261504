/-
  Runs of the broker of `officialMajordomo`.

  * `Live` holds in every reachable state (`live_run`).
  * `references_run`: no pointer to a worker that is gone is left anywhere.
  * `receive_returns_iff`: the messages that the broker survives.
-/
import ProxyBroker.MajordomoRounds

namespace ProxyBroker.Majordomo

open Broker

variable {p : Process Broker} {e : Round} {es : List Round} {now : ℤ} {t u : Tables} {x : Trigger}
  {srv : Bytes}

/-- What holds between two rounds. -/
structure Live (p : Process Broker) : Prop where
  inv : Inv p.st.toTables
  settled : p.halted = none → ∀ srv, SettledAt srv p.st.toTables

theorem init_live (now : ℤ) : Live (init now) where
  inv := Inv.start now
  settled _ _ _ h := by cases h

/-- Work does not concern the other services. -/
theorem Fires.settledAt (hf : Fires t x u) (hx : srv ∉ x.service) (hset : SettledAt srv t) :
    SettledAt srv u := by
  cases x with
  | none => exact hf ▸ hset
  | queue name msg =>
    obtain ⟨sv, hsv, rfl⟩ := hf
    intro sv' hsv'
    have hne : srv ≠ name := fun h => hx (h ▸ rfl)
    exact hset sv' (by simpa [Tables.queue, hne] using hsv')
  | wait wrk name =>
    obtain ⟨w, sv, expiry, hw, hs, hsv, -, rfl⟩ := hf
    intro sv' hsv'
    have hne : srv ≠ name := fun h => hx (h ▸ rfl)
    exact hset sv' (by simpa [Tables.wait, hne] using hsv')

theorem Course.settledAt (h : Course x t u) (hset : SettledAt srv t) : SettledAt srv u := by
  obtain ⟨z, z', hz, hf, hu, hx⟩ := h
  by_cases hsrv : srv ∈ x.service
  · exact hx srv hsrv
  · exact hu.settledAt (hf.settledAt hsrv (hz.settledAt hset))

/-- **What a step of the machine does**: the round runs its course, or it ends
    the process. -/
theorem step_course (h : Live p) (he : machine.can p e) : ∃ x, RoundBrings p.st e x ∧
    ((machine.next p e).halted = none ∧ Course x p.st.toTables (machine.next p e).st.toTables ∨
      (machine.next p e).halted ≠ none ∧ Cut x p.st.toTables (machine.next p e).st.toTables) := by
  obtain ⟨hh, hne, haddr⟩ := he
  have hwp := code_wp h.inv (h.settled hh) hne haddr
  cases hr : (code e).run p.st with
  | ok a s' =>
    obtain ⟨x, hx, hcourse⟩ := (Proc.wp_ok hr).1 hwp
    refine ⟨x, hx, Or.inl ?_⟩
    rw [show machine.next p e = _ from Process.exec_ok hr]
    exact ⟨hh, hcourse⟩
  | error halt s' =>
    obtain ⟨x, hx, hcut⟩ := (Proc.wp_error hr).1 hwp
    refine ⟨x, hx, Or.inr ?_⟩
    rw [show machine.next p e = _ from Process.exec_error hr]
    exact ⟨by simp, hcut⟩

theorem Live.step (h : Live p) (he : machine.can p e) : Live (machine.next p e) := by
  obtain ⟨x, -, ⟨hh, hcourse⟩ | ⟨hh, hcut⟩⟩ := step_course h he
  · exact ⟨hcourse.inv h.inv, fun _ srv => hcourse.settledAt (h.settled he.1 srv)⟩
  · exact ⟨hcut.inv h.inv, fun hn => absurd hn hh⟩

theorem live_run (hc : machine.Can (init now) es) : Live (machine.run (init now) es) :=
  hc.inv (init_live now) fun _ _ h he => h.step he

/-! ## Pointers -/

/-- The worker is alive and stored under its identity. -/
def Stored (t : Tables) (wrk : Ptr) (w : Worker) : Prop :=
  t.heap wrk = some w ∧ t.mWorkers w.mIdentity = some wrk

/-- Whoever is referred to is stored, and in a list only of its service, and
    whoever has been deleted was gone from everywhere. -/
structure References (t : Tables) : Prop where
  broker : ∀ wrk ∈ t.mWaiting, ∃ w, Stored t wrk w
  service : ∀ srv sv, t.mServices srv = some sv → ∀ wrk ∈ sv.mWaiting,
    ∃ w, Stored t wrk w ∧ w.mService = some srv
  gone : ∀ h ∈ t.log, h.Clean

theorem Inv.references (hi : Inv t) : References t where
  broker wrk h := by
    obtain ⟨w, hw⟩ := hi.live h
    exact ⟨w, hw, hi.known wrk w hw⟩
  service srv sv hsv wrk h := by
    obtain ⟨w, hw, hs⟩ := (hi.listed srv sv hsv).2 wrk h
    exact ⟨w, ⟨hw, hi.known wrk w hw⟩, hs⟩
  gone := hi.gone

/-- **Every pointer is to a live worker**, and a deleted worker is forgotten. -/
theorem references_run (hc : machine.Can (init now) es) :
    References (machine.run (init now) es).st.toTables :=
  (live_run hc).inv.references

/-- A worker that has replied while it waited is in the list twice, and alive. -/
theorem references_run_twice :
    let p := machine.run (init 0) [.ready [1] [2] 7, .reply [1] [3] [4] 8]
    (p.st.mServices [2]).map Service.mWaiting = some [7, 7] ∧ References p.st.toTables :=
  ⟨by decide, references_run (by decide)⟩

/-! ## Messages that end the broker -/

/-- **The broker survives a message exactly if** `Returns` holds. -/
theorem receive_returns_iff (hc : machine.Can (init now) es)
    (hh : (machine.run (init now) es).halted = none) {frames : List Bytes} (hne : frames ≠ [])
    {addr : Ptr} (haddr : (machine.run (init now) es).st.heap addr = none) (clock : ℕ → ℤ)
    (junk : BitVec 64) :
    (∃ a s', (receive frames addr junk).run { (machine.run (init now) es).st with clock } =
        .ok a s') ↔
      Returns { (machine.run (init now) es).st with clock } frames := by
  have hl := live_run hc
  have hruns := receive_runs (s := { (machine.run (init now) es).st with clock }) hl.inv
    (hl.settled hh) hne haddr junk
  exact (Proc.wp.mono hruns (fun _ _ h => h.2) fun _ h => h.2).returns_iff

/-- The request of a client goes to the worker that waits. -/
theorem receive_returns_request :
    Returns { (machine.run (init 0) [.ready [1] [2] 7]).st with clock := fun _ => 0 }
      [[3], [], mdpcClient, [2], [4]] := by
  have haddr : (machine.run (init 0) [.ready [1] [2] 7]).st.heap 8 = none := by decide
  exact (receive_returns_iff (by decide) (by decide) (by simp) haddr (fun _ => 0) 0).1 ⟨_, _, rfl⟩

/-- A client that asks for a service that is unknown ends the broker. -/
theorem receive_stops_unknown : ¬ ∀ (now : ℤ) (es : List Round), machine.Can (init now) es →
    (machine.run (init now) es).halted = none → ∀ frames ≠ [], ∀ addr,
      (machine.run (init now) es).st.heap addr = none → ∀ (clock : ℕ → ℤ) (junk : BitVec 64),
        ∃ a s', (receive frames addr junk).run { (machine.run (init now) es).st with clock } =
          .ok a s' := by
  intro h
  obtain ⟨a, s', hr⟩ := h 0 [] trivial rfl [[3], [], mdpcClient, mmiService, [2]] (by simp) 7 rfl
    (fun _ => 0) 0
  cases hr

end ProxyBroker.Majordomo
