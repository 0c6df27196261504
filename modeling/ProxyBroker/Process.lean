/-
  Code of a process: it changes a state and may end the process.

  `Proc σ α` is code over the state `σ`; when it ends the process the state
  stays as it was then.  `zoom` runs code over a part of the state.  A
  `Process` is a state together with how the process ended, if it did, and
  `Process.exec` runs code in it.
-/
import Mathlib

namespace ProxyBroker

/-- How code ends its process early. -/
inductive Halt where
  /-- `exit(code)` -/
  | exit (code : ℤ)
  /-- a null pointer is dereferenced, bytes are read past their object, or an
      exception leaves `main` -/
  | abort
  /-- a send to a connection whose other end is closed, with SIGPIPE not
      ignored -/
  | sigpipe
  deriving DecidableEq, Repr

/-- Code over the state `σ` that may end its process. -/
abbrev Proc (σ α : Type) := EStateM Halt σ α

namespace Proc

variable {σ κ α : Type}

/-- End the process. -/
def halt (h : Halt) : Proc σ α := throw h

/-- A result over another state. -/
def mapState (f : κ → σ) : EStateM.Result Halt κ α → EStateM.Result Halt σ α
  | .ok a k => .ok a (f k)
  | .error h k => .error h (f k)

@[simp] theorem mapState_ok (f : κ → σ) (a : α) (k : κ) : mapState f (.ok a k) = .ok a (f k) := rfl

@[simp] theorem mapState_error (f : κ → σ) (h : Halt) (k : κ) :
    (mapState f (.error h k) : EStateM.Result Halt σ α) = .error h (f k) := rfl

/-- Run code over the part `get s` of the state `s`. -/
def zoom (get : σ → κ) (put : σ → κ → σ) (p : Proc κ α) : Proc σ α := fun s =>
  mapState (put s) (p.run (get s))

@[simp] theorem run_halt (h : Halt) (s : σ) : (halt h : Proc σ α).run s = .error h s := rfl

@[simp] theorem run_zoom (get : σ → κ) (put : σ → κ → σ) (p : Proc κ α) (s : σ) :
    (zoom get put p).run s = mapState (put s) (p.run (get s)) := rfl

/-- The state that code leaves, whether it ends the process or not. -/
def final (p : Proc σ α) (s : σ) : σ :=
  match p.run s with
  | .ok _ s' | .error _ s' => s'

theorem final_ok {p : Proc σ α} {s s' : σ} {a : α} (h : p.run s = .ok a s') : p.final s = s' := by
  simp [final, h]

theorem final_error {p : Proc σ α} {s s' : σ} {e : Halt} (h : p.run s = .error e s') :
    p.final s = s' := by
  simp [final, h]

@[simp] theorem final_zoom (get : σ → κ) (put : σ → κ → σ) (p : Proc κ α) (s : σ) :
    (zoom get put p).final s = put s (p.final (get s)) := by
  rw [final, run_zoom, final]
  cases p.run (get s) <;> rfl

/-- Code run over a list, when each step returns a value that does not depend
    on the state. -/
theorem run_mapM {β : Type} {f : α → Proc σ β} {g : α → β} :
    ∀ {l : List α}, (∀ a ∈ l, ∀ s, ∃ s', (f a).run s = .ok (g a) s') →
      ∀ s, ∃ s', (l.mapM f).run s = .ok (l.map g) s'
  | [], _, s => ⟨s, rfl⟩
  | a :: l, h, s => by
    obtain ⟨s₁, h₁⟩ := h a List.mem_cons_self s
    obtain ⟨s₂, h₂⟩ := run_mapM (fun b hb => h b (List.mem_cons_of_mem _ hb)) s₁
    exact ⟨s₂, by simp only [List.mapM_cons, EStateM.run_bind, h₁, h₂, EStateM.run_pure]; rfl⟩

end Proc

/-- The state of a process, and how it ended if it did. -/
structure Process (σ : Type) where
  st : σ
  halted : Option Halt

namespace Process

variable {σ : Type} {x : Process σ} {p : Proc σ Unit}

/-- Run `p` in a process. -/
def exec (p : Proc σ Unit) (x : Process σ) : Process σ :=
  match p.run x.st with
  | .ok _ s => ⟨s, x.halted⟩
  | .error h s => ⟨s, some h⟩

theorem exec_ok {u : Unit} {s : σ} (h : p.run x.st = .ok u s) : exec p x = ⟨s, x.halted⟩ := by
  simp [exec, h]

theorem st_exec (p : Proc σ Unit) (x : Process σ) : (exec p x).st = p.final x.st := by
  cases h : p.run x.st <;> simp [exec, Proc.final, h]

theorem exec_error {h : Halt} {s : σ} (hp : p.run x.st = .error h s) :
    exec p x = ⟨s, some h⟩ := by
  simp [exec, hp]

end Process

end ProxyBroker
