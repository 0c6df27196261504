/-
  Machines: states, the events that can happen in a state, and what they do.

  * `run s es` is the state after the events `es`, and `Can s es` says that
    each of them can happen when its turn comes.
  * `All P s es`: every step of the run meets `P` (of the state before it and
    the event).
  * `Can.inv`, `Can.inv_hist`: what one step preserves, a whole run preserves,
    also when the invariant speaks about the events so far.
  * `Sim`: every step of a machine is matched by events of an abstract one;
    `Sim.run` lifts this to runs.
-/
import Mathlib.Data.List.Induction
import Mathlib.Tactic.TypeStar

namespace ProxyBroker

/-- A machine: which events can happen in a state, and the state after each. -/
structure Machine (σ ε : Type*) where
  can : σ → ε → Prop
  next : σ → ε → σ

namespace Machine

variable {σ ε τ δ : Type*} (M : Machine σ ε)

/-- The state after the events `es`. -/
def run (s : σ) (es : List ε) : σ := es.foldl M.next s

/-- Every step of the run from `s` over `es` meets `P`. -/
def All (P : σ → ε → Prop) : σ → List ε → Prop
  | _, [] => True
  | s, e :: es => P s e ∧ All P (M.next s e) es

/-- Each of the events `es` can happen when its turn comes. -/
abbrev Can (s : σ) (es : List ε) : Prop := M.All M.can s es

instance All.decidable (P : σ → ε → Prop) [∀ s e, Decidable (P s e)] :
    ∀ s es, Decidable (M.All P s es)
  | _, [] => isTrue trivial
  | s, e :: es => @instDecidableAnd _ _ _ (All.decidable P (M.next s e) es)

variable {M} {P Q : σ → ε → Prop} {s : σ} {e : ε} {es fs : List ε}

@[simp] theorem run_nil : M.run s [] = s := rfl

@[simp] theorem run_cons : M.run s (e :: es) = M.run (M.next s e) es := rfl

@[simp] theorem run_append : M.run s (es ++ fs) = M.run (M.run s es) fs := List.foldl_append

@[simp] theorem all_nil : M.All P s [] := trivial

@[simp] theorem all_cons : M.All P s (e :: es) ↔ P s e ∧ M.All P (M.next s e) es := Iff.rfl

theorem all_append : M.All P s (es ++ fs) ↔ M.All P s es ∧ M.All P (M.run s es) fs := by
  induction es generalizing s with
  | nil => simp
  | cons e es ih => simp only [List.cons_append, all_cons, run_cons, ih, and_assoc]

theorem all_snoc : M.All P s (es ++ [e]) ↔ M.All P s es ∧ P (M.run s es) e := by
  simp [all_append]

theorem All.and (h : M.All P s es) (h' : M.All Q s es) : M.All (fun s e => P s e ∧ Q s e) s es := by
  induction es generalizing s with
  | nil => trivial
  | cons e es ih => exact ⟨⟨h.1, h'.1⟩, ih h.2 h'.2⟩

theorem All.of_mem {R : ε → Prop} (h : ∀ e ∈ es, R e) : M.All (fun _ => R) s es := by
  induction es generalizing s with
  | nil => trivial
  | cons e es ih => exact ⟨h e List.mem_cons_self, ih fun e' he => h e' (List.mem_cons_of_mem _ he)⟩

/-- **The invariant rule**, for an invariant that may speak about the events
    so far: it holds at the start and each step that meets `P` preserves it. -/
theorem All.inv_hist {I : List ε → σ → Prop} (h₀ : I [] s)
    (hs : ∀ hist t e, I hist t → P t e → I (hist ++ [e]) (M.next t e)) (h : M.All P s es) :
    I es (M.run s es) := by
  induction es using List.reverseRecOn with
  | nil => exact h₀
  | append_singleton es e ih =>
    rw [all_snoc] at h
    rw [run_append]
    exact hs es _ e (ih h.1) h.2

/-- The invariant rule, for an invariant of the states. -/
theorem All.inv {I : σ → Prop} (h₀ : I s) (hs : ∀ t e, I t → P t e → I (M.next t e))
    (h : M.All P s es) : I (M.run s es) :=
  h.inv_hist (I := fun _ => I) h₀ fun _ => hs

/-- A property of steps that an invariant gives at each step holds all along. -/
theorem All.imp_of_inv {I : σ → Prop} (h₀ : I s) (hs : ∀ t e, I t → P t e → I (M.next t e))
    (hPQ : ∀ t e, I t → P t e → Q t e) (h : M.All P s es) : M.All Q s es := by
  induction es generalizing s with
  | nil => trivial
  | cons e es ih => exact ⟨hPQ s e h₀ h.1, ih (hs s e h₀ h.1) h.2⟩

/-- A run in which every step that meets `Q` stays in `I`, and every other step
    leads to `D`, which no step leaves. -/
theorem All.stays_or_leaves {I D : σ → Prop} (hI : I s)
    (hs : ∀ t e, I t → P t e → (Q t e ∧ I (M.next t e)) ∨ (¬ Q t e ∧ D (M.next t e)))
    (hD : ∀ t e, D t → P t e → D (M.next t e)) (h : M.All P s es) :
    (M.All Q s es ∧ I (M.run s es)) ∨ (¬ M.All Q s es ∧ D (M.run s es)) := by
  induction es generalizing s with
  | nil => exact Or.inl ⟨trivial, hI⟩
  | cons e es ih =>
    rcases hs s e hI h.1 with ⟨hq, hn⟩ | ⟨hq, hn⟩
    · rcases ih hn h.2 with ⟨ha, hr⟩ | ⟨ha, hr⟩
      · exact Or.inl ⟨⟨hq, ha⟩, hr⟩
      · exact Or.inr ⟨fun ha' => ha ha'.2, hr⟩
    · refine Or.inr ⟨fun ha => hq ha.1, ?_⟩
      rw [run_cons]
      exact h.2.inv hn hD

/-- In a state of `D` nothing more can happen. -/
theorem All.stays_or_stops {I D : σ → Prop} (hI : I s)
    (hs : ∀ t e, I t → P t e → (Q t e ∧ I (M.next t e)) ∨ (¬ Q t e ∧ D (M.next t e)))
    (hD : ∀ t e, D t → ¬ P t e) (h : M.All P s es) :
    (M.All Q s es ∧ I (M.run s es)) ∨ (¬ M.All Q s es ∧ D (M.run s es)) :=
  h.stays_or_leaves hI hs fun t e hd hp => absurd hp (hD t e hd)

/-- **When all states of a run are good**: steps that meet `Q` keep an
    invariant of good states, and every other step leads to a bad one. -/
theorem All.good_iff {I G : σ → Prop} (hI : I s) (hG : ∀ t, I t → G t)
    (hs : ∀ t e, I t → P t e → (Q t e ∧ I (M.next t e)) ∨ (¬ Q t e ∧ ¬ G (M.next t e)))
    (h : M.All P s es) : (∀ es', es' <+: es → G (M.run s es')) ↔ M.All Q s es := by
  induction es generalizing s with
  | nil =>
    refine iff_of_true (fun es' hes => ?_) trivial
    rw [List.prefix_nil.1 hes]
    exact hG s hI
  | cons e es ih =>
    constructor
    · intro hall
      rcases hs s e hI h.1 with ⟨hq, hn⟩ | ⟨-, hbad⟩
      · refine ⟨hq, (ih hn h.2).1 fun es' hes => ?_⟩
        exact hall (e :: es') (List.cons_prefix_cons.2 ⟨rfl, hes⟩)
      · exact absurd (hall [e] (List.cons_prefix_cons.2 ⟨rfl, List.nil_prefix⟩)) hbad
    · intro hall es' hes
      cases es' with
      | nil => exact hG s hI
      | cons e' es' =>
        obtain ⟨rfl, htail⟩ := List.cons_prefix_cons.1 hes
        rcases hs s e' hI h.1 with ⟨-, hn⟩ | ⟨hq, -⟩
        · exact (ih hn h.2).2 hall.2 es' htail
        · exact absurd hall.1 hq

/-! ## Reachable states -/

/-- `t` is reached from `s` by events that can happen. -/
def Reaches (M : Machine σ ε) (s t : σ) : Prop := ∃ es, M.Can s es ∧ M.run s es = t

theorem Reaches.refl (M : Machine σ ε) (s : σ) : M.Reaches s s := ⟨[], trivial, rfl⟩

theorem Reaches.step {t : σ} (h : M.Reaches s t) (he : M.can t e) : M.Reaches s (M.next t e) := by
  obtain ⟨es, hc, rfl⟩ := h
  exact ⟨es ++ [e], all_snoc.2 ⟨hc, he⟩, by simp⟩

theorem Reaches.inv {I : σ → Prop} {t : σ} (h : M.Reaches s t) (h₀ : I s)
    (hs : ∀ t e, I t → M.can t e → I (M.next t e)) : I t := by
  obtain ⟨es, hc, rfl⟩ := h
  exact hc.inv h₀ hs

/-! ## Simulation -/

/-- Every step of `M` from a state of `I` is matched, under `abs`, by the
    events `ev` of the abstract machine `A`. -/
structure Sim (M : Machine σ ε) (A : Machine τ δ) (I : σ → Prop) (abs : σ → τ)
    (ev : σ → ε → List δ) : Prop where
  inv : ∀ s e, I s → M.can s e → I (M.next s e)
  can : ∀ s e, I s → M.can s e → A.Can (abs s) (ev s e)
  next : ∀ s e, I s → M.can s e → abs (M.next s e) = A.run (abs s) (ev s e)

/-- The abstract events of a run. -/
def evs (M : Machine σ ε) (ev : σ → ε → List δ) : σ → List ε → List δ
  | _, [] => []
  | s, e :: es => ev s e ++ evs M ev (M.next s e) es

/-- **A simulation lifts to runs**: the abstraction of the state reached is
    reached by the abstract events. -/
theorem Sim.run {A : Machine τ δ} {I : σ → Prop} {abs : σ → τ} {ev : σ → ε → List δ}
    (h : Sim M A I abs ev) (h₀ : I s) (hc : M.Can s es) :
    A.Can (abs s) (M.evs ev s es) ∧ abs (M.run s es) = A.run (abs s) (M.evs ev s es) := by
  induction es generalizing s with
  | nil => exact ⟨trivial, rfl⟩
  | cons e es ih =>
    obtain ⟨hr, he⟩ := ih (h.inv s e h₀ hc.1) hc.2
    rw [h.next s e h₀ hc.1] at hr he
    exact ⟨all_append.2 ⟨h.can s e h₀ hc.1, hr⟩, by rw [run_cons, he, evs, run_append]⟩

end Machine

end ProxyBroker
