/-
  Code that notes what it does.

  `Logged σ ω` is a state together with a log.  Code over it is the code over
  `σ` with notes in between: `Erases p q` says that `p` without its notes is
  `q`, and the rules follow the structure of the code.
-/
import ProxyBroker.Process

namespace ProxyBroker

/-- A state, and the notes taken so far. -/
structure Logged (σ ω : Type) where
  st : σ
  log : List ω

namespace Logged

variable {σ ω α β : Type}

/-- Code that takes no notes. -/
def lift (p : Proc σ α) : Proc (Logged σ ω) α :=
  Proc.zoom Logged.st (fun l s => { l with st := s }) p

def note (x : ω) : Proc (Logged σ ω) Unit := modify fun l => { l with log := l.log ++ [x] }

@[simp] theorem run_lift (p : Proc σ α) (l : Logged σ ω) :
    (lift p).run l = Proc.mapState (fun s => { l with st := s }) (p.run l.st) := rfl

@[simp] theorem run_note (x : ω) (l : Logged σ ω) :
    (note x).run l = .ok () { l with log := l.log ++ [x] } := rfl

/-- Without its notes, `p` is `q`. -/
def Erases (p : Proc (Logged σ ω) α) (q : Proc σ α) : Prop :=
  ∀ l, Proc.mapState Logged.st (p.run l) = q.run l.st

theorem erases_lift (p : Proc σ α) : Erases (lift p : Proc (Logged σ ω) α) p := by
  intro l
  rw [run_lift]
  cases p.run l.st <;> rfl

theorem erases_pure (a : α) : Erases (pure a : Proc (Logged σ ω) α) (pure a) := fun _ => rfl

theorem Erases.bind {p : Proc (Logged σ ω) α} {q : Proc σ α} {f : α → Proc (Logged σ ω) β}
    {g : α → Proc σ β} (h : Erases p q) (hf : ∀ a, Erases (f a) (g a)) :
    Erases (p >>= f) (q >>= g) := by
  intro l
  have hp := h l
  rw [EStateM.run_bind, EStateM.run_bind, ← hp]
  cases p.run l with
  | ok a l' => exact hf a l'
  | error e l' => rfl

/-- A note is nothing to the code after it. -/
theorem Erases.note {p : Proc (Logged σ ω) α} {q : Proc σ α} (h : Erases p q) (x : ω) :
    Erases (Logged.note x >>= fun _ => p) q :=
  fun l => h { l with log := l.log ++ [x] }

theorem Erases.note_last {p : Proc (Logged σ ω) Unit} {q : Proc σ Unit} (h : Erases p q) (x : ω) :
    Erases (p >>= fun _ => Logged.note x) q := by
  intro l
  have hp := h l
  rw [EStateM.run_bind, ← hp]
  cases p.run l <;> rfl

theorem Erases.ite {c : Prop} [Decidable c] {p p' : Proc (Logged σ ω) α} {q q' : Proc σ α}
    (h : Erases p q) (h' : Erases p' q') :
    Erases (if c then p else p') (if c then q else q') := by
  split_ifs
  · exact h
  · exact h'

/-- A process without its notes. -/
def erase (x : Process (Logged σ ω)) : Process σ := ⟨x.st.st, x.halted⟩

theorem Erases.exec {p : Proc (Logged σ ω) Unit} {q : Proc σ Unit} (h : Erases p q)
    (x : Process (Logged σ ω)) : erase (Process.exec p x) = Process.exec q (erase x) := by
  have hp := h x.st
  cases hr : p.run x.st with
  | ok a l =>
    rw [hr] at hp
    rw [Process.exec_ok hr, Process.exec_ok (x := erase x) hp.symm]
    rfl
  | error e l =>
    rw [hr] at hp
    rw [Process.exec_error hr, Process.exec_error (x := erase x) hp.symm]
    rfl

end Logged

end ProxyBroker
