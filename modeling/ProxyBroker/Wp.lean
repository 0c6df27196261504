/-
  Rules of pre- and postconditions for the code of a process.

  `Proc.wp p Q E s` says that `p`, run in `s`, returns a value and leaves a
  state that meet `Q`, or ends the process in a state that meets `E`.  There is
  one rule for each way to build code; `wp_forM` is the rule for loops over a
  list, whose invariant speaks about what is left of the list.

  `Keeps R p` says that `p` leads from every state to one that `R` relates to
  it, however it ends; it needs no preconditions.
-/
import ProxyBroker.Process

namespace ProxyBroker.Proc

variable {σ κ α β : Type} {p : Proc σ α} {Q Q' : α → σ → Prop} {E E' : σ → Prop} {s : σ}

def wp (p : Proc σ α) (Q : α → σ → Prop) (E : σ → Prop) (s : σ) : Prop :=
  match p.run s with
  | .ok a s' => Q a s'
  | .error _ s' => E s'

theorem wp_ok {a : α} {s' : σ} (h : p.run s = .ok a s') : p.wp Q E s ↔ Q a s' := by
  rw [wp, h]

theorem wp_error {e : Halt} {s' : σ} (h : p.run s = .error e s') : p.wp Q E s ↔ E s' := by
  rw [wp, h]

/-- Weaker conditions hold as well. -/
theorem wp.mono (h : p.wp Q E s) (hQ : ∀ a s', Q a s' → Q' a s') (hE : ∀ s', E s' → E' s') :
    p.wp Q' E' s := by
  cases hr : p.run s with
  | ok a s' => exact (wp_ok hr).2 (hQ a s' ((wp_ok hr).1 h))
  | error e s' => exact (wp_error hr).2 (hE s' ((wp_error hr).1 h))

theorem wp.and (h : p.wp Q E s) (h' : p.wp Q' E' s) :
    p.wp (fun a s' => Q a s' ∧ Q' a s') (fun s' => E s' ∧ E' s') s := by
  cases hr : p.run s with
  | ok a s' => exact (wp_ok hr).2 ⟨(wp_ok hr).1 h, (wp_ok hr).1 h'⟩
  | error e s' => exact (wp_error hr).2 ⟨(wp_error hr).1 h, (wp_error hr).1 h'⟩

/-- Code that has a condition for returning, and its opposite for not
    returning, returns exactly when it holds. -/
theorem wp.returns_iff {C : Prop} (h : p.wp (fun _ _ => C) (fun _ => ¬ C) s) :
    (∃ a s', p.run s = .ok a s') ↔ C := by
  cases hr : p.run s with
  | ok a s' => exact iff_of_true ⟨a, s', rfl⟩ ((wp_ok hr).1 h)
  | error e s' =>
    refine iff_of_false ?_ ((wp_error hr).1 h)
    rintro ⟨a, s', h⟩
    cases h

/-- A condition on the state that is left. -/
theorem wp_final {P : σ → Prop} : p.wp (fun _ => P) P s ↔ P (p.final s) := by
  cases hr : p.run s with
  | ok a s' => rw [wp_ok hr, final_ok hr]
  | error e s' => rw [wp_error hr, final_error hr]

/-! ## The rules -/

@[simp] theorem wp_pure (a : α) : (pure a : Proc σ α).wp Q E s ↔ Q a s := Iff.rfl

@[simp] theorem wp_halt (h : Halt) : (halt h : Proc σ α).wp Q E s ↔ E s := Iff.rfl

@[simp] theorem wp_bind (f : α → Proc σ β) (R : β → σ → Prop) :
    (p >>= f).wp R E s ↔ p.wp (fun a s' => (f a).wp R E s') E s := by
  cases hr : p.run s with
  | ok a s' => simp [wp, EStateM.run_bind, hr]
  | error e s' => simp [wp, EStateM.run_bind, hr]

@[simp] theorem wp_map (f : α → β) (R : β → σ → Prop) :
    (f <$> p).wp R E s ↔ p.wp (fun a s' => R (f a) s') E s := by
  rw [map_eq_pure_bind, wp_bind]
  rfl

@[simp] theorem wp_get (R : σ → σ → Prop) : (get : Proc σ σ).wp R E s ↔ R s s := Iff.rfl

@[simp] theorem wp_set (t : σ) (R : PUnit → σ → Prop) :
    (set t : Proc σ PUnit).wp R E s ↔ R () t := Iff.rfl

@[simp] theorem wp_modify (f : σ → σ) (R : PUnit → σ → Prop) :
    (modify f : Proc σ PUnit).wp R E s ↔ R () (f s) := Iff.rfl

@[simp] theorem wp_zoom (get : σ → κ) (put : σ → κ → σ) (p : Proc κ α) :
    (zoom get put p).wp Q E s ↔
      p.wp (fun a k => Q a (put s k)) (fun k => E (put s k)) (get s) := by
  rw [wp, run_zoom, wp]
  cases p.run (get s) <;> rfl

/-- **The rule for loops over a list.** -/
theorem wp_forM {f : β → Proc σ PUnit} {I : List β → σ → Prop}
    (h : ∀ b l s, I (b :: l) s → (f b).wp (fun _ => I l) E s) :
    ∀ {l : List β} {s : σ}, I l s → (forM l f).wp (fun _ => I []) E s
  | [], s, hI => by simpa using hI
  | b :: l, s, hI => by
    rw [List.forM_cons, wp_bind]
    exact (h b l s hI).mono (fun _ _ hl => wp_forM h hl) fun _ he => he

/-! ## What code keeps -/

/-- Wherever `p` begins, it leaves a state that `R` relates to the first. -/
def Keeps (R : σ → σ → Prop) (p : Proc σ α) : Prop := ∀ s, R s (p.final s)

section
variable {R : σ → σ → Prop}

theorem keeps_modify {f : σ → σ} (h : ∀ s, R s (f s)) : Keeps R (modify f : Proc σ PUnit) := h

variable [IsPreorder σ R]

theorem keeps_pure (a : α) : Keeps R (pure a : Proc σ α) := refl_of R

theorem keeps_halt (h : Halt) : Keeps R (halt h : Proc σ α) := refl_of R

theorem keeps_get : Keeps R (get : Proc σ σ) := refl_of R

theorem final_get_bind (f : σ → Proc σ β) : (get >>= f).final s = (f s).final s := rfl

theorem final_modify_bind (g : σ → σ) (f : PUnit → Proc σ β) :
    ((modify g : Proc σ PUnit) >>= f).final s = (f PUnit.unit).final (g s) := rfl

omit [IsPreorder σ R] in
theorem final_bind_ok {a : α} {s' : σ} (hp : p.run s = .ok a s') (f : α → Proc σ β) :
    (p >>= f).final s = (f a).final s' := by simp only [final, EStateM.run_bind, hp]

omit [IsPreorder σ R] in
theorem final_bind_error {e : Halt} {s' : σ} (hp : p.run s = .error e s') (f : α → Proc σ β) :
    (p >>= f).final s = s' := by simp only [final, EStateM.run_bind, hp]

/-- What runs later goes on from what runs first. -/
theorem Keeps.after {f : α → Proc σ β} (hf : ∀ a, Keeps R (f a)) (p : Proc σ α) (s : σ) :
    R (p.final s) ((p >>= f).final s) := by
  cases hr : p.run s with
  | ok a s' =>
    rw [final_ok hr, final_bind_ok hr]
    exact hf a s'
  | error e s' =>
    rw [final_error hr, final_bind_error hr]
    exact refl_of R s'

/-- What runs first may be related by what is known of the state. -/
theorem Keeps.bind_at {f : α → Proc σ β} (hp : R s (p.final s)) (hf : ∀ a, Keeps R (f a)) :
    R s ((p >>= f).final s) := trans_of R hp (Keeps.after hf p s)

theorem Keeps.bind {f : α → Proc σ β} (hp : Keeps R p) (hf : ∀ a, Keeps R (f a)) :
    Keeps R (p >>= f) := fun s => Keeps.bind_at (hp s) hf

/-- What runs first changes nothing. -/
theorem Keeps.bind_same {f : α → Proc σ β} (hp : p.final s = s)
    (hf : ∀ a, R s ((f a).final s)) : R s ((p >>= f).final s) := by
  cases hr : p.run s with
  | ok a s' =>
    obtain rfl : s' = s := (final_ok hr).symm.trans hp
    rw [final_bind_ok hr]
    exact hf a
  | error e s' =>
    obtain rfl : s' = s := (final_error hr).symm.trans hp
    rw [final_bind_error hr]
    exact refl_of R s'

theorem keeps_forM {f : β → Proc σ PUnit} (hf : ∀ b, Keeps R (f b)) :
    ∀ l : List β, Keeps R (forM l f)
  | [] => keeps_pure PUnit.unit
  | b :: l => by
    rw [List.forM_cons]
    exact (hf b).bind fun _ => keeps_forM hf l

end

end ProxyBroker.Proc
