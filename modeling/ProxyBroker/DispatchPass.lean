/-
  One pass of `PollEventHandler`, entry by entry.

  When `poll` has returned, the entries get the numbers 0, 1, 2, ...; an entry
  that is registered during the pass gets the next number.  A `Pass` is the
  machine of `IoMultiplex` together with the number of each entry and what has
  happened to the entries.

  * `calls_once_iff`: when every entry that is ready is called once.
  * `calls_ready_iff`: when only entries that are ready are called.
-/
import ProxyBroker.IoMultiplex

namespace ProxyBroker.IoMultiplex

variable {C : Type*}

structure Pass (C : Type*) where
  st : St C
  /-- the number of the entry at each index -/
  labels : List ℕ
  /-- the number of the next entry that is registered -/
  fresh : ℕ
  /-- the entries that have been called -/
  called : List ℕ
  /-- which entry's callback has deregistered which entry -/
  dropped : List (ℕ × ℕ)

namespace Pass

/-- The entry whose callback is running, or ran last. -/
def running (p : Pass C) : ℕ := p.called.getLastD 0

/-- `poll` has returned. -/
def start (m : IoMultiplex C) : Pass C where
  st := ⟨m, .loop 0⟩
  labels := List.range m.pollItems.length
  fresh := m.pollItems.length
  called := []
  dropped := []

/-- The steps until the pass has ended. -/
def machine (C : Type*) : Machine (Pass C) (Ev C) where
  can p e := (IoMultiplex.machine C).can p.st e ∧ p.st.ctl ≠ .idle
  next p e :=
    let st := (IoMultiplex.machine C).next p.st e
    match e with
    | .register .. => { p with st, labels := p.labels ++ [p.fresh], fresh := p.fresh + 1 }
    | .deregister fd =>
      match p.st.mux.pollItems.findIdx? (·.fd = fd) with
      | some k => { p with
          st, labels := p.labels.eraseIdx k, dropped := p.dropped ++ [(p.running, p.labels.getD k 0)] }
      | none => { p with st }
    | .iterate =>
      match st.ctl with
      | .call i _ _ => { p with st, called := p.called ++ [p.labels.getD i 0] }
      | .idle | .loop _ | .thrown => { p with st }
    | .poll .. | .ret => { p with st }

variable {m m₀ : IoMultiplex C} {p p' : Pass C} {e : Ev C} {es : List (Ev C)}

theorem loop_ne_idle (i : ℕ) : (.loop i : Ctl C) ≠ .idle := by simp

theorem call_ne_idle (i : ℕ) (fd : Fd) (cb : C) : (.call i fd cb : Ctl C) ≠ .idle := by simp

@[simp] theorem running_append (st : St C) (ls : List ℕ) (f : ℕ) (cs : List ℕ) (l : ℕ)
    (ds : List (ℕ × ℕ)) : running ⟨st, ls, f, cs ++ [l], ds⟩ = l := by
  rw [running, List.getLastD_concat]

/-! ## Steps -/

/-- What can happen in a pass. -/
inductive Moves : Pass C → Ev C → Pass C → Prop
  | registered {m i fd cb ls f cs ds} (fd' : Fd) (cb' : C) (r : Short) :
      Moves ⟨⟨m, .call i fd cb⟩, ls, f, cs, ds⟩ (.register fd' cb' r)
        ⟨⟨m.registerFd fd' cb' r, .call i fd cb⟩, ls ++ [f], f + 1, cs, ds⟩
  | unknown {m i fd cb ls f cs ds} (fd' : Fd) :
      Moves ⟨⟨m, .call i fd cb⟩, ls, f, cs, ds⟩ (.deregister fd') ⟨⟨m, .call i fd cb⟩, ls, f, cs, ds⟩
  | dropped {m i fd cb ls f cs ds} (fd' : Fd) {k l : ℕ} (hl : ls[k]? = some l) :
      Moves ⟨⟨m, .call i fd cb⟩, ls, f, cs, ds⟩ (.deregister fd')
        ⟨⟨⟨m.pollItems.eraseIdx k, m.cbLists.eraseIdx k⟩, .call i fd cb⟩, ls.eraseIdx k, f, cs,
          ds ++ [(cs.getLastD 0, l)]⟩
  | ended {m i ls f cs ds} (hi : m.pollItems.length ≤ i) :
      Moves ⟨⟨m, .loop i⟩, ls, f, cs, ds⟩ .iterate ⟨⟨m, .idle⟩, ls, f, cs, ds⟩
  | quiet {m i ls f cs ds item} {l : ℕ} (hl : ls[i]? = some l) (hitem : m.pollItems[i]? = some item)
      (hr : item.revents &&& pollIn = 0) :
      Moves ⟨⟨m, .loop i⟩, ls, f, cs, ds⟩ .iterate ⟨⟨m, .loop (i + 1)⟩, ls, f, cs, ds⟩
  | called {m i ls f cs ds item cb} {l : ℕ} (hl : ls[i]? = some l)
      (hitem : m.pollItems[i]? = some item) (hcb : m.cbLists[i]? = some cb)
      (hr : item.revents &&& pollIn ≠ 0) :
      Moves ⟨⟨m, .loop i⟩, ls, f, cs, ds⟩ .iterate
        ⟨⟨m, .call i item.fd cb⟩, ls, f, cs ++ [l], ds⟩
  | returned {m i fd cb ls f cs ds} :
      Moves ⟨⟨m, .call i fd cb⟩, ls, f, cs, ds⟩ .ret ⟨⟨m, .loop (i + 1)⟩, ls, f, cs, ds⟩

theorem next_moves (hm : p.st.mux.Paired) (hlen : p.labels.length = p.st.mux.pollItems.length)
    (hc : (machine C).can p e) : Moves p e ((machine C).next p e) := by
  obtain ⟨⟨m, ctl⟩, ls, f, cs, ds⟩ := p
  obtain ⟨hcan, hidle⟩ := hc
  have hcall : (ctl = .idle ∨ ∃ i fd cb, ctl = .call i fd cb) → ∃ i fd cb, ctl = .call i fd cb :=
    fun h => h.resolve_left hidle
  have hlabel : ∀ (i : ℕ) item, m.pollItems[i]? = some item → ∃ l, ls[i]? = some l := by
    intro i item hitem
    have hlt : i < ls.length := by
      rw [hlen]
      exact (List.getElem?_eq_some_iff.1 hitem).1
    exact ⟨ls[i], List.getElem?_eq_getElem hlt⟩
  cases e with
  | register fd' cb' r =>
    obtain ⟨i, fd, cb, rfl⟩ := hcall hcan
    exact .registered fd' cb' r
  | deregister fd' =>
    obtain ⟨i, fd, cb, rfl⟩ := hcall hcan
    cases hk : m.pollItems.findIdx? (·.fd = fd') with
    | none =>
      have hnext : (machine C).next ⟨⟨m, .call i fd cb⟩, ls, f, cs, ds⟩ (.deregister fd') =
          ⟨⟨m, .call i fd cb⟩, ls, f, cs, ds⟩ := by
        simp only [machine, IoMultiplex.machine, deregisterFd, hk]
      rw [hnext]
      exact .unknown fd'
    | some k =>
      have hlt : k < ls.length := by
        rw [hlen]
        exact (List.findIdx?_eq_some_iff_getElem.1 hk).1
      have hl : ls[k]? = some ls[k] := List.getElem?_eq_getElem hlt
      have hnext : (machine C).next ⟨⟨m, .call i fd cb⟩, ls, f, cs, ds⟩ (.deregister fd') =
          ⟨⟨⟨m.pollItems.eraseIdx k, m.cbLists.eraseIdx k⟩, .call i fd cb⟩, ls.eraseIdx k, f, cs,
            ds ++ [(cs.getLastD 0, ls[k])]⟩ := by
        simp only [machine, IoMultiplex.machine, deregisterFd, hk, running, List.getD, hl,
          Option.getD_some]
      rw [hnext]
      exact .dropped fd' hl
  | poll ret revents => exact absurd hcan hidle
  | iterate =>
    obtain ⟨i, rfl : ctl = .loop i⟩ := hcan
    rcases iterate_cases hm i with ⟨hi, h⟩ | ⟨item, hitem, hr, h⟩ | ⟨item, cb, hitem, hcb, hr, h⟩
    · have hnext : (machine C).next ⟨⟨m, .loop i⟩, ls, f, cs, ds⟩ .iterate =
          ⟨⟨m, .idle⟩, ls, f, cs, ds⟩ := by
        simp only [machine, IoMultiplex.machine, h]
      rw [hnext]
      exact .ended hi
    · obtain ⟨l, hl⟩ := hlabel i item hitem
      have hnext : (machine C).next ⟨⟨m, .loop i⟩, ls, f, cs, ds⟩ .iterate =
          ⟨⟨m, .loop (i + 1)⟩, ls, f, cs, ds⟩ := by
        simp only [machine, IoMultiplex.machine, h]
      rw [hnext]
      exact .quiet hl hitem hr
    · obtain ⟨l, hl⟩ := hlabel i item hitem
      have hnext : (machine C).next ⟨⟨m, .loop i⟩, ls, f, cs, ds⟩ .iterate =
          ⟨⟨m, .call i item.fd cb⟩, ls, f, cs ++ [l], ds⟩ := by
        simp only [machine, IoMultiplex.machine, h, List.getD, hl, Option.getD_some]
      rw [hnext]
      exact .called hl hitem hcb hr
  | ret =>
    obtain ⟨i, fd, cb, rfl : ctl = .call i fd cb⟩ := hcan
    exact .returned

/-! ## The numbers of the entries -/

/-- The entries that the loop has not come to. -/
def ahead (p : Pass C) : List ℕ :=
  match p.st.ctl with
  | .loop i => p.labels.drop i
  | .call i _ _ => p.labels.drop (i + 1)
  | .idle | .thrown => []

section
variable {i f : ℕ} {fd : Fd} {cb : C} {ls cs : List ℕ} {ds : List (ℕ × ℕ)}

@[simp] theorem ahead_loop : ahead ⟨⟨m, .loop i⟩, ls, f, cs, ds⟩ = ls.drop i := rfl

@[simp] theorem ahead_call : ahead ⟨⟨m, .call i fd cb⟩, ls, f, cs, ds⟩ = ls.drop (i + 1) := rfl

@[simp] theorem ahead_idle : ahead ⟨⟨m, (.idle : Ctl C)⟩, ls, f, cs, ds⟩ = [] := rfl

end

theorem drop_eraseIdx_sublist {α : Type*} :
    ∀ (l : List α) (k n : ℕ), ((l.eraseIdx k).drop n).Sublist (l.drop n)
  | l, k, 0 => List.eraseIdx_sublist l k
  | [], k, n + 1 => by simp
  | x :: l, 0, n + 1 => by
    rw [List.eraseIdx_cons_zero, List.drop_succ_cons]
    exact List.drop_sublist_drop_left l (Nat.le_succ n)
  | x :: l, k + 1, n + 1 => by
    rw [List.eraseIdx_cons_succ, List.drop_succ_cons, List.drop_succ_cons]
    exact drop_eraseIdx_sublist l k n

theorem drop_eq_cons {ls : List ℕ} {i l : ℕ} (hl : ls[i]? = some l) :
    ls.drop i = l :: ls.drop (i + 1) := by
  obtain ⟨hlt, rfl⟩ := List.getElem?_eq_some_iff.1 hl
  exact List.drop_eq_getElem_cons hlt

/-- Only an entry that is registered comes to those ahead. -/
theorem Moves.ahead (hm : Moves p e p') {l : ℕ} (hl : l ∈ p'.ahead) : l ∈ p.ahead ∨ l = p.fresh := by
  cases hm with
  | @registered m i fd cb ls f =>
    rw [ahead_call, List.drop_append] at hl
    refine (List.mem_append.1 hl).imp_right fun hl => ?_
    exact List.mem_singleton.1 (List.mem_of_mem_drop hl)
  | unknown | returned => exact Or.inl hl
  | dropped => exact Or.inl ((drop_eraseIdx_sublist _ _ _).subset hl)
  | ended => exact absurd hl List.not_mem_nil
  | quiet | called => exact Or.inl (List.drop_subset_drop_left _ (Nat.le_succ _) hl)

/-- The entries are in the order of their numbers, and those of `m₀` are as they
    were when `poll` returned. -/
structure Numbered (m₀ : IoMultiplex C) (p : Pass C) : Prop where
  paired : p.st.mux.Paired
  length : p.labels.length = p.st.mux.pollItems.length
  sorted : p.labels.Pairwise (· < ·)
  small : ∀ l ∈ p.labels, l < p.fresh
  old : m₀.pollItems.length ≤ p.fresh
  same : ∀ k l : ℕ, p.labels[k]? = some l → l < m₀.pollItems.length →
    p.st.mux.pollItems[k]? = m₀.pollItems[l]? ∧ p.st.mux.cbLists[k]? = m₀.cbLists[l]?
  /-- no entry is called twice -/
  inTurn : p.called.Pairwise (· < ·)
  calledSmall : ∀ c ∈ p.called, c < p.fresh
  ahead : ∀ c ∈ p.called, ∀ l ∈ p.ahead, c < l
  gone : ∀ c l, (c, l) ∈ p.dropped → l ∉ p.labels ∧ l < p.fresh

theorem start_numbered (hm : m.Paired) : Numbered m (start m) where
  paired := hm
  length := List.length_range
  sorted := List.pairwise_lt_range
  small _ h := List.mem_range.1 h
  old := le_rfl
  same k l hl _ := by
    obtain rfl : k = l := by
      obtain ⟨hk, rfl⟩ := List.getElem?_eq_some_iff.1 hl
      simp [start]
    exact ⟨rfl, rfl⟩
  inTurn := .nil
  calledSmall c h := absurd h List.not_mem_nil
  ahead c h := absurd h List.not_mem_nil
  gone c l h := absurd h List.not_mem_nil

theorem Numbered.step (h : Numbered m₀ p) (hm : Moves p e p') : Numbered m₀ p' := by
  obtain ⟨hpaired, hlen, hsorted, hsmall, hold, hsame, hturn, hcalled, hahead, hgone⟩ := h
  have hahead' : ∀ c ∈ p.called, ∀ l ∈ p'.ahead, c < l := by
    intro c hc l hl
    rcases hm.ahead hl with hl | rfl
    · exact hahead c hc l hl
    · exact hcalled c hc
  cases hm with
  | @registered m i fd cb ls f cs ds fd' cb' r =>
    refine ⟨hpaired.registerFd fd' cb' r, ?_, ?_, ?_, hold.trans (Nat.le_succ f), ?_, hturn,
      fun c hc => (hcalled c hc).trans (Nat.lt_succ_self f), hahead', ?_⟩
    · simpa [registerFd] using hlen
    · exact List.pairwise_append.2 ⟨hsorted, List.pairwise_singleton .., by simpa using hsmall⟩
    · intro l hl
      rcases List.mem_append.1 hl with hl | hl
      · exact (hsmall l hl).trans (Nat.lt_succ_self f)
      · obtain rfl := List.mem_singleton.1 hl
        exact Nat.lt_succ_self l
    · intro k l hl hlt
      rcases lt_or_ge k ls.length with hk | hk
      · rw [List.getElem?_append_left hk] at hl
        have hk' : k < m.pollItems.length := hlen ▸ hk
        have hk'' : k < m.cbLists.length := hpaired ▸ hk'
        simp only [registerFd, List.getElem?_append_left hk', List.getElem?_append_left hk'']
        exact hsame k l hl hlt
      · rw [List.getElem?_append_right hk] at hl
        obtain rfl := List.mem_singleton.1 (List.mem_of_getElem? hl)
        exact absurd hold (not_le.2 hlt)
    · intro c l hcl
      obtain ⟨hnot, hlt⟩ := hgone c l hcl
      refine ⟨?_, hlt.trans (Nat.lt_succ_self f)⟩
      simpa [hnot] using hlt.ne
  | unknown => exact ⟨hpaired, hlen, hsorted, hsmall, hold, hsame, hturn, hcalled, hahead', hgone⟩
  | @dropped m i fd cb ls f cs ds fd' k l hl =>
    refine ⟨?_, ?_, hsorted.sublist (List.eraseIdx_sublist ls k), ?_, hold, ?_, hturn, hcalled,
      hahead', ?_⟩
    · rw [Paired, List.length_eraseIdx, List.length_eraseIdx, hpaired]
    · rw [List.length_eraseIdx, List.length_eraseIdx, hlen]
    · exact fun l' hl' => hsmall l' (List.mem_of_mem_eraseIdx hl')
    · intro j l' hl' hlt
      simp only [List.getElem?_eraseIdx] at hl' ⊢
      split_ifs at hl' ⊢
      · exact hsame j l' hl' hlt
      · exact hsame (j + 1) l' hl' hlt
    · intro c l' hcl
      rcases List.mem_append.1 hcl with hcl | hcl
      · obtain ⟨hnot, hlt⟩ := hgone c l' hcl
        exact ⟨fun hmem => hnot (List.mem_of_mem_eraseIdx hmem), hlt⟩
      · obtain ⟨-, rfl⟩ := Prod.mk.inj (List.mem_singleton.1 hcl)
        refine ⟨fun hmem => ?_, hsmall l' (List.mem_of_getElem? hl)⟩
        obtain ⟨j, hne, hj⟩ := List.mem_eraseIdx_iff_getElem?.1 hmem
        have hnd : ls.Nodup := hsorted.imp ne_of_lt
        have hlt := (List.getElem?_eq_some_iff.1 hj).1
        exact hne ((List.getElem?_inj hlt hnd).1 (hj.trans hl.symm))
  | ended =>
    exact ⟨hpaired, hlen, hsorted, hsmall, hold, hsame, hturn, hcalled, hahead', hgone⟩
  | quiet =>
    exact ⟨hpaired, hlen, hsorted, hsmall, hold, hsame, hturn, hcalled, hahead', hgone⟩
  | @called m i ls f cs ds item cb l hl hitem hcb hr =>
    have hdrop := drop_eq_cons hl
    have hnew : ∀ c ∈ cs, c < l := fun c hc => hahead c hc l (by simp [hdrop])
    refine ⟨hpaired, hlen, hsorted, hsmall, hold, hsame, ?_, ?_, ?_, hgone⟩
    · exact List.pairwise_append.2 ⟨hturn, List.pairwise_singleton .., by simpa using hnew⟩
    · intro c hc
      rcases List.mem_append.1 hc with hc | hc
      · exact hcalled c hc
      · obtain rfl := List.mem_singleton.1 hc
        exact hsmall c (List.mem_of_getElem? hl)
    · intro c hc l' hl'
      rcases List.mem_append.1 hc with hc | hc
      · exact hahead' c hc l' hl'
      · obtain rfl := List.mem_singleton.1 hc
        have hpair := hsorted.sublist (List.drop_sublist i ls)
        rw [hdrop] at hpair
        exact List.rel_of_pairwise_cons hpair hl'
  | returned =>
    exact ⟨hpaired, hlen, hsorted, hsmall, hold, hsame, hturn, hcalled, hahead', hgone⟩

theorem Numbered.next (h : Numbered m₀ p) (hc : (machine C).can p e) :
    Moves p e ((machine C).next p e) ∧ Numbered m₀ ((machine C).next p e) := by
  have hm := next_moves h.paired h.length hc
  exact ⟨hm, h.step hm⟩

/-- No entry that has been called comes after the one called last. -/
theorem Numbered.le_running (h : Numbered m₀ p) {c : ℕ} (hc : c ∈ p.called) : c ≤ p.running := by
  obtain ⟨cs, r, hr⟩ : ∃ cs r, p.called = cs ++ [r] :=
    ⟨_, _, (List.dropLast_append_getLast (List.ne_nil_of_mem hc)).symm⟩
  have hturn := h.inTurn
  rw [hr] at hc hturn
  have hrun : p.running = r := by simp [running, hr]
  rw [hrun]
  rcases List.mem_append.1 hc with hc | hc
  · exact ((List.pairwise_append.1 hturn).2.2 c hc r (List.mem_singleton_self r)).le
  · exact (List.mem_singleton.1 hc).le

/-- `poll` has reported the entry. -/
def Ready (m₀ : IoMultiplex C) (l : ℕ) : Prop :=
  ∃ item ∈ m₀.pollItems[l]?, item.revents &&& pollIn ≠ 0

instance (m₀ : IoMultiplex C) (l : ℕ) : Decidable (Ready m₀ l) :=
  inferInstanceAs (Decidable (∃ _ ∈ _, _))

theorem Ready.lt {l : ℕ} (h : Ready m₀ l) : l < m₀.pollItems.length := by
  obtain ⟨item, hitem, -⟩ := h
  exact (List.getElem?_eq_some_iff.1 hitem).1

/-- An entry of `m₀` that is at the index `i`. -/
theorem Numbered.ready_iff (h : Numbered m₀ p) {i l : ℕ} {item : PollFd} (hl : p.labels[i]? = some l)
    (hlt : l < m₀.pollItems.length) (hitem : p.st.mux.pollItems[i]? = some item) :
    Ready m₀ l ↔ item.revents &&& pollIn ≠ 0 := by
  rw [Ready, ← (h.same i l hl hlt).1, hitem]
  simp

/-! ## Every entry once -/

/-- The entries up to the index of a callback that is running. -/
def passed (p : Pass C) : List ℕ :=
  match p.st.ctl with
  | .call i _ _ => p.labels.take (i + 1)
  | .idle | .loop _ | .thrown => []

/-- When a callback returns, no ready entry that comes after its own stands at
    an index that the loop has passed. -/
def LeavesNone (m₀ : IoMultiplex C) (p : Pass C) : Ev C → Prop
  | .ret => ∀ l ∈ p.passed, p.running < l → ¬ Ready m₀ l
  | .register .. | .deregister _ | .poll .. | .iterate => True

instance (m₀ : IoMultiplex C) (p : Pass C) : ∀ e, Decidable (LeavesNone m₀ p e)
  | .ret => inferInstanceAs (Decidable (∀ _ ∈ _, _))
  | .register .. | .deregister _ | .poll .. | .iterate => isTrue trivial

/-- The entries whose turn is to come. -/
def due (p : Pass C) : List ℕ :=
  match p.st.ctl with
  | .loop i => p.labels.drop i
  | .call .. => p.labels.filter (p.running < ·)
  | .idle | .thrown => []

section
variable {i f l : ℕ} {fd : Fd} {cb : C} {ls cs : List ℕ} {ds : List (ℕ × ℕ)}

theorem mem_due_loop : l ∈ due ⟨⟨m, .loop i⟩, ls, f, cs, ds⟩ ↔ l ∈ ls.drop i := Iff.rfl

theorem mem_due_call :
    l ∈ due ⟨⟨m, .call i fd cb⟩, ls, f, cs, ds⟩ ↔ l ∈ ls ∧ cs.getLastD 0 < l :=
  List.mem_filter.trans (and_congr_right fun _ => decide_eq_true_iff)

end

/-- An entry that is ready has been called, or an earlier callback has
    deregistered it, or its turn is to come. -/
def AllDue (m₀ : IoMultiplex C) (p : Pass C) : Prop :=
  ∀ l, Ready m₀ l → l ∈ p.called ∨ (∃ c < l, (c, l) ∈ p.dropped) ∨ l ∈ p.due

/-- The loop has passed the entry by. -/
structure Lost (p : Pass C) (l : ℕ) : Prop where
  called : l ∉ p.called
  dropped : ∀ c < l, (c, l) ∉ p.dropped
  ahead : ∀ l' ∈ p.ahead, l < l'
  small : l < p.fresh
  running : ∀ i fd cb, p.st.ctl = .call i fd cb → l < p.running

theorem AllDue.step (h : AllDue m₀ p) (hn : Numbered m₀ p) (hm : Moves p e p')
    (hq : LeavesNone m₀ p e) : AllDue m₀ p' := by
  intro l hl
  rcases h l hl with hin | hout | hdue
  · refine Or.inl ?_
    cases hm with
    | called => exact List.mem_append_left _ hin
    | registered | unknown | dropped | ended | quiet | returned => exact hin
  · refine Or.inr (Or.inl ?_)
    obtain ⟨c, hc, hmem⟩ := hout
    refine ⟨c, hc, ?_⟩
    cases hm with
    | dropped => exact List.mem_append_left _ hmem
    | registered | unknown | called | ended | quiet | returned => exact hmem
  cases hm with
  | registered =>
    obtain ⟨hmem, hlt⟩ := mem_due_call.1 hdue
    exact Or.inr (Or.inr (mem_due_call.2 ⟨List.mem_append_left _ hmem, hlt⟩))
  | unknown => exact Or.inr (Or.inr hdue)
  | @dropped m i fd cb ls f cs ds fd' k l' hl' =>
    obtain ⟨hmem, hlt⟩ := mem_due_call.1 hdue
    rcases eq_or_ne l l' with rfl | hne
    · exact Or.inr (Or.inl ⟨_, hlt, List.mem_append_right _ (List.mem_singleton_self _)⟩)
    · refine Or.inr (Or.inr (mem_due_call.2 ⟨?_, hlt⟩))
      obtain ⟨j, hj⟩ := List.mem_iff_getElem?.1 hmem
      refine List.mem_eraseIdx_iff_getElem?.2 ⟨j, ?_, hj⟩
      rintro rfl
      exact hne (Option.some.inj (hj.symm.trans hl'))
  | @ended m i ls f cs ds hi =>
    have hnil : ls.drop i = [] := List.drop_eq_nil_of_le (hn.length.trans_le hi)
    exact absurd hdue (by simp [due, hnil])
  | @quiet m i ls f cs ds item l' hl' hitem hr =>
    rw [mem_due_loop, drop_eq_cons hl'] at hdue
    rcases List.mem_cons.1 hdue with rfl | hmem
    · exact absurd hr ((hn.ready_iff hl' hl.lt hitem).1 hl)
    · exact Or.inr (Or.inr hmem)
  | @called m i ls f cs ds item cb l' hl' hitem hcb hr =>
    rw [mem_due_loop, drop_eq_cons hl'] at hdue
    rcases List.mem_cons.1 hdue with rfl | hmem
    · exact Or.inl (List.mem_append_right _ (List.mem_singleton_self l))
    · refine Or.inr (Or.inr (mem_due_call.2 ⟨List.mem_of_mem_drop hmem, ?_⟩))
      have hpair := hn.sorted.sublist (List.drop_sublist i ls)
      rw [drop_eq_cons hl'] at hpair
      simpa using List.rel_of_pairwise_cons hpair hmem
  | @returned m i fd cb ls f cs ds =>
    obtain ⟨hmem, hlt⟩ := mem_due_call.1 hdue
    rw [← List.take_append_drop (i + 1) ls] at hmem
    rcases List.mem_append.1 hmem with hmem | hmem
    · exact absurd hl (hq l hmem hlt)
    · exact Or.inr (Or.inr hmem)

theorem Lost.step {l : ℕ} (h : Lost p l) (hm : Moves p e p') : Lost p' l := by
  have hahead : ∀ l' ∈ p'.ahead, l < l' := by
    intro l' hl'
    rcases hm.ahead hl' with hl' | rfl
    · exact h.ahead l' hl'
    · exact h.small
  cases hm with
  | registered => exact ⟨h.called, h.dropped, hahead, h.small.trans (Nat.lt_succ_self _), h.running⟩
  | unknown => exact h
  | @dropped m i fd cb ls f cs ds fd' k l' hl' =>
    refine ⟨h.called, fun c hc hmem => ?_, hahead, h.small, h.running⟩
    rcases List.mem_append.1 hmem with hmem | hmem
    · exact h.dropped c hc hmem
    · obtain ⟨rfl, rfl⟩ := Prod.mk.inj (List.mem_singleton.1 hmem)
      exact absurd (h.running i fd cb rfl) (not_lt.2 hc.le)
  | ended => exact ⟨h.called, h.dropped, hahead, h.small, fun _ _ _ hc => (by cases hc)⟩
  | quiet => exact ⟨h.called, h.dropped, hahead, h.small, fun _ _ _ hc => (by cases hc)⟩
  | @called m i ls f cs ds item cb l' hl' hitem hcb hr =>
    have hlt : l < l' := h.ahead l' (by simp [drop_eq_cons hl'])
    refine ⟨fun hmem => ?_, h.dropped, hahead, h.small, fun _ _ _ _ => by rwa [running_append]⟩
    rcases List.mem_append.1 hmem with hmem | hmem
    · exact h.called hmem
    · exact hlt.ne (List.mem_singleton.1 hmem)
  | returned => exact ⟨h.called, h.dropped, hahead, h.small, fun _ _ _ hc => (by cases hc)⟩

theorem lost_of_returned (hn : Numbered m₀ p) (hm : Moves p e p') (hq : ¬ LeavesNone m₀ p e) :
    ∃ l, Ready m₀ l ∧ Lost p' l := by
  cases hm with
  | registered | unknown | dropped | ended | quiet | called => exact absurd trivial hq
  | @returned m i fd cb ls f cs ds =>
    simp only [LeavesNone, not_forall, not_not] at hq
    obtain ⟨l, hmem, hlt, hl⟩ := hq
    have hls : l ∈ ls := List.mem_of_mem_take hmem
    refine ⟨l, hl, fun hcalled => ?_, fun c hc hdropped => ?_, fun l' hl' => ?_, ?_, ?_⟩
    · exact absurd (hn.le_running hcalled) (not_le.2 hlt)
    · exact (hn.gone c l hdropped).1 hls
    · have hsorted := hn.sorted
      rw [← List.take_append_drop (i + 1) ls] at hsorted
      exact (List.pairwise_append.1 hsorted).2.2 l hmem l' hl'
    · exact hn.small l hls
    · exact fun _ _ _ hc => (by cases hc)

/-- The entry has been called once, or the callback of an entry in front of it
    has deregistered it before its turn. -/
def OnceOrDropped (p : Pass C) (l : ℕ) : Prop :=
  p.called.count l = 1 ∨ p.called.count l = 0 ∧ ∃ c < l, (c, l) ∈ p.dropped

/-- **A pass calls every entry that is ready once, unless an earlier callback
    deregisters it, exactly if** no callback leaves a ready entry behind the
    loop. -/
theorem calls_once_iff (hm : m.Paired) (revents : ℕ → Short)
    (hc : (machine C).Can (start (m.setRevents revents)) es)
    (hidle : ((machine C).run (start (m.setRevents revents)) es).st.ctl = .idle) :
    (∀ l, Ready (m.setRevents revents) l →
      OnceOrDropped ((machine C).run (start (m.setRevents revents)) es) l) ↔
      (machine C).All (LeavesNone (m.setRevents revents)) (start (m.setRevents revents)) es := by
  set m₀ := m.setRevents revents with hm₀
  have hn₀ : Numbered m₀ (start m₀) := start_numbered (hm.setRevents revents)
  have hd₀ : AllDue m₀ (start m₀) := by
    intro l hl
    exact Or.inr (Or.inr (List.mem_range.2 hl.lt))
  have hrun := hc.stays_or_leaves (Q := LeavesNone m₀) (I := fun p => Numbered m₀ p ∧ AllDue m₀ p)
    (D := fun p => Numbered m₀ p ∧ ∃ l, Ready m₀ l ∧ Lost p l) ⟨hn₀, hd₀⟩ ?_ ?_
  · rcases hrun with ⟨hall, hn, hd⟩ | ⟨hnot, hn, l, hl, hlost⟩
    · refine iff_of_true (fun l hl => ?_) hall
      by_cases hmem : l ∈ ((machine C).run (start m₀) es).called
      · exact Or.inl (List.count_eq_one_of_mem (hn.inTurn.imp ne_of_lt) hmem)
      · refine Or.inr ⟨List.count_eq_zero.2 hmem, ?_⟩
        rcases hd l hl with hin | hout | hdue
        · exact absurd hin hmem
        · exact hout
        · rw [due, hidle] at hdue
          exact absurd hdue List.not_mem_nil
    · refine iff_of_false (fun h => ?_) hnot
      rcases h l hl with hone | ⟨-, c, hc, hmem⟩
      · exact hlost.called (List.one_le_count_iff.1 hone.ge)
      · exact hlost.dropped c hc hmem
  · rintro p e ⟨hn, hd⟩ he
    obtain ⟨hmoves, hn'⟩ := hn.next he
    by_cases hq : LeavesNone m₀ p e
    · exact Or.inl ⟨hq, hn', hd.step hn hmoves hq⟩
    · exact Or.inr ⟨hq, hn', lost_of_returned hn hmoves hq⟩
  · rintro p e ⟨hn, l, hl, hlost⟩ he
    obtain ⟨hmoves, hn'⟩ := hn.next he
    exact ⟨hn', l, hl, hlost.step hmoves⟩

/-- Two descriptors that are ready; the first callback registers a third one. -/
theorem calls_once_iff_two :
    let m : IoMultiplex ℕ := ⟨[⟨3, pollIn, 0⟩, ⟨4, pollIn, 0⟩], [0, 1]⟩
    let es : List (Ev ℕ) := [.iterate, .register 5 2 0, .ret, .iterate, .ret, .iterate, .iterate]
    ∀ l, Ready (m.setRevents fun _ => pollIn) l →
      OnceOrDropped ((machine ℕ).run (start (m.setRevents fun _ => pollIn)) es) l := by
  intro m es
  refine (calls_once_iff (m := m) rfl (fun _ => pollIn) ?_ rfl).2 ?_
  · exact ⟨⟨⟨0, rfl⟩, loop_ne_idle 0⟩, ⟨Or.inr ⟨0, 3, 0, rfl⟩, call_ne_idle 0 3 0⟩,
      ⟨⟨0, 3, 0, rfl⟩, call_ne_idle 0 3 0⟩, ⟨⟨1, rfl⟩, loop_ne_idle 1⟩,
      ⟨⟨1, 4, 1, rfl⟩, call_ne_idle 1 4 1⟩, ⟨⟨2, rfl⟩, loop_ne_idle 2⟩, ⟨⟨3, rfl⟩, loop_ne_idle 3⟩,
      trivial⟩
  · exact ⟨trivial, trivial, by decide, trivial, by decide, trivial, trivial, trivial⟩

/-- The first of two callbacks deregisters its own descriptor: the second one
    is not called. -/
theorem skips_next : ¬ ∀ (m : IoMultiplex ℕ) (revents : ℕ → Short) (es : List (Ev ℕ)), m.Paired →
    (machine ℕ).Can (start (m.setRevents revents)) es →
    ((machine ℕ).run (start (m.setRevents revents)) es).st.ctl = .idle →
    ∀ l, Ready (m.setRevents revents) l →
      OnceOrDropped ((machine ℕ).run (start (m.setRevents revents)) es) l := by
  intro h
  have hone := h ⟨[⟨3, pollIn, 0⟩, ⟨4, pollIn, 0⟩], [0, 1]⟩ (fun _ => pollIn)
    [.iterate, .deregister 3, .ret, .iterate] rfl
    ⟨⟨⟨0, rfl⟩, loop_ne_idle 0⟩, ⟨Or.inr ⟨0, 3, 0, rfl⟩, call_ne_idle 0 3 0⟩,
      ⟨⟨0, 3, 0, rfl⟩, call_ne_idle 0 3 0⟩, ⟨⟨1, rfl⟩, loop_ne_idle 1⟩, trivial⟩ rfl 1 (by decide)
  rcases hone with hone | ⟨-, c, hc, hmem⟩
  · exact absurd hone (by decide)
  · obtain rfl : c = 0 := by omega
    exact absurd hmem (by decide)

/-! ## Only entries that are ready -/

/-- The entry that the loop has come to, and its item. -/
def reached (p : Pass C) : Option (ℕ × PollFd) :=
  match p.st.ctl with
  | .loop i => (p.labels.zip p.st.mux.pollItems)[i]?
  | .idle | .call .. | .thrown => none

/-- When the loop comes to an entry that was registered during the pass, it
    finds nothing in the `revents` that were not set. -/
def FindsNothing (m₀ : IoMultiplex C) (p : Pass C) : Ev C → Prop
  | .iterate => ∀ x ∈ p.reached, m₀.pollItems.length ≤ x.1 → x.2.revents &&& pollIn = 0
  | .register .. | .deregister _ | .poll .. | .ret => True

instance (m₀ : IoMultiplex C) (p : Pass C) : ∀ e, Decidable (FindsNothing m₀ p e)
  | .iterate => inferInstanceAs (Decidable (∀ _ ∈ _, _))
  | .register .. | .deregister _ | .poll .. | .ret => isTrue trivial

theorem mem_reached {i f : ℕ} {ls cs : List ℕ} {ds : List (ℕ × ℕ)} {l : ℕ} {item : PollFd} :
    (l, item) ∈ reached ⟨⟨m, .loop i⟩, ls, f, cs, ds⟩ ↔
      ls[i]? = some l ∧ m.pollItems[i]? = some item := List.getElem?_zip_eq_some

theorem Moves.called_subset (hm : Moves p e p') : p.called ⊆ p'.called := by
  cases hm with
  | called => exact List.subset_append_left _ _
  | registered | unknown | dropped | ended | quiet | returned => exact List.Subset.refl _

theorem only_ready_of_moves (hn : Numbered m₀ p) (hm : Moves p e p')
    (h : ∀ l ∈ p.called, Ready m₀ l) (hq : FindsNothing m₀ p e) : ∀ l ∈ p'.called, Ready m₀ l := by
  cases hm with
  | @called m i ls f cs ds item cb l hl hitem hcb hr =>
    intro l' hl'
    rcases List.mem_append.1 hl' with hl' | hl'
    · exact h l' hl'
    · obtain rfl := List.mem_singleton.1 hl'
      rcases lt_or_ge l' m₀.pollItems.length with hlt | hge
      · exact (hn.ready_iff hl hlt hitem).2 hr
      · exact absurd (hq (l', item) (mem_reached.2 ⟨hl, hitem⟩) hge) hr
  | registered | unknown | dropped | ended | quiet | returned => exact h

theorem called_new_of_moves (hm : Moves p e p') (hq : ¬ FindsNothing m₀ p e) :
    ∃ l ∈ p'.called, ¬ Ready m₀ l := by
  cases hm with
  | registered | unknown | dropped | returned => exact absurd trivial hq
  | @ended m i ls f cs ds hi =>
    refine absurd (fun x hx _ => ?_) hq
    obtain ⟨-, hitem⟩ := mem_reached.1 hx
    exact absurd (List.getElem?_eq_some_iff.1 hitem).1 (not_lt.2 hi)
  | @quiet m i ls f cs ds item l hl hitem hr =>
    refine absurd (fun x hx _ => ?_) hq
    obtain ⟨-, hitem'⟩ := mem_reached.1 hx
    obtain rfl : item = x.2 := Option.some.inj (hitem.symm.trans hitem')
    exact hr
  | @called m i ls f cs ds item cb l hl hitem hcb hr =>
    refine ⟨l, List.mem_append_right _ (List.mem_singleton_self l), fun hready => hq ?_⟩
    intro x hx hle
    obtain ⟨hl', -⟩ := mem_reached.1 hx
    obtain rfl : l = x.1 := Option.some.inj (hl.symm.trans hl')
    exact absurd hready.lt (not_lt.2 hle)

/-- **A pass calls only entries that `poll` has reported, and so no more than
    there were, exactly if** it finds nothing in an entry that was registered
    during the pass. -/
theorem calls_ready_iff (hm : m.Paired) (revents : ℕ → Short)
    (hc : (machine C).Can (start (m.setRevents revents)) es) :
    ((∀ l ∈ ((machine C).run (start (m.setRevents revents)) es).called,
        Ready (m.setRevents revents) l) ∧
      ((machine C).run (start (m.setRevents revents)) es).called.length ≤ m.pollItems.length) ↔
      (machine C).All (FindsNothing (m.setRevents revents)) (start (m.setRevents revents)) es := by
  set m₀ := m.setRevents revents with hm₀
  have hn₀ : Numbered m₀ (start m₀) := start_numbered (hm.setRevents revents)
  have hrun := hc.stays_or_leaves (Q := FindsNothing m₀)
    (I := fun p => Numbered m₀ p ∧ ∀ l ∈ p.called, Ready m₀ l)
    (D := fun p => Numbered m₀ p ∧ ∃ l ∈ p.called, ¬ Ready m₀ l) ⟨hn₀, by simp [start]⟩ ?_ ?_
  · rcases hrun with ⟨hall, hn, hready⟩ | ⟨hnot, hn, l, hl, hready⟩
    · refine iff_of_true ⟨hready, ?_⟩ hall
      have hsub : ((machine C).run (start m₀) es).called ⊆ List.range m₀.pollItems.length :=
        fun l hl => List.mem_range.2 (hready l hl).lt
      have hle := (List.subperm_of_subset (hn.inTurn.imp ne_of_lt) hsub).length_le
      simpa [hm₀, setRevents] using hle
    · exact iff_of_false (fun h => hready (h.1 l hl)) hnot
  · rintro p e ⟨hn, hready⟩ he
    obtain ⟨hmoves, hn'⟩ := hn.next he
    by_cases hq : FindsNothing m₀ p e
    · exact Or.inl ⟨hq, hn', only_ready_of_moves hn hmoves hready hq⟩
    · exact Or.inr ⟨hq, hn', called_new_of_moves hmoves hq⟩
  · rintro p e ⟨hn, l, hl, hready⟩ he
    obtain ⟨hmoves, hn'⟩ := hn.next he
    exact ⟨hn', l, hmoves.called_subset hl, hready⟩

/-- One descriptor that is ready; its callback registers another one. -/
theorem calls_ready_iff_one :
    let m : IoMultiplex ℕ := ⟨[⟨3, pollIn, 0⟩], [0]⟩
    let p := (machine ℕ).run (start (m.setRevents fun _ => pollIn))
      [.iterate, .register 5 2 4, .ret, .iterate]
    (∀ l ∈ p.called, Ready (m.setRevents fun _ => pollIn) l) ∧ p.called.length ≤ 1 := by
  intro m p
  refine (calls_ready_iff (m := m) rfl (fun _ => pollIn) ?_).2 ?_
  · exact ⟨⟨⟨0, rfl⟩, loop_ne_idle 0⟩, ⟨Or.inr ⟨0, 3, 0, rfl⟩, call_ne_idle 0 3 0⟩,
      ⟨⟨0, 3, 0, rfl⟩, call_ne_idle 0 3 0⟩, ⟨⟨1, rfl⟩, loop_ne_idle 1⟩, trivial⟩
  · decide

/-- The item of the new descriptor happens to hold POLLIN: its callback is
    called in the same pass. -/
theorem calls_new : ¬ ∀ (m : IoMultiplex ℕ) (revents : ℕ → Short) (es : List (Ev ℕ)), m.Paired →
    (machine ℕ).Can (start (m.setRevents revents)) es →
    (∀ l ∈ ((machine ℕ).run (start (m.setRevents revents)) es).called,
        Ready (m.setRevents revents) l) ∧
      ((machine ℕ).run (start (m.setRevents revents)) es).called.length ≤ m.pollItems.length := by
  intro h
  have hle := (h ⟨[⟨3, pollIn, 0⟩], [0]⟩ (fun _ => pollIn)
    [.iterate, .register 5 2 pollIn, .ret, .iterate] rfl
    ⟨⟨⟨0, rfl⟩, loop_ne_idle 0⟩, ⟨Or.inr ⟨0, 3, 0, rfl⟩, call_ne_idle 0 3 0⟩,
      ⟨⟨0, 3, 0, rfl⟩, call_ne_idle 0 3 0⟩, ⟨⟨1, rfl⟩, loop_ne_idle 1⟩, trivial⟩).2
  exact absurd hle (by decide)

end Pass

end ProxyBroker.IoMultiplex
