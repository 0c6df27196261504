/-
  A registry: the pairs of a descriptor and its callback, in the order of
  registration.  Deregistering a descriptor removes its first pair, and only a
  pair that is there can be called.

  This is what `IoMultiplex` is for; the code keeps the two halves of the
  pairs in two vectors (`IoMultiplex.sim`).
-/
import ProxyBroker.Machine
import Mathlib.Data.List.Basic

namespace ProxyBroker

variable {F C : Type*}

/-- The pairs of a descriptor and its callback, oldest first. -/
abbrev Registry (F C : Type*) := List (F × C)

namespace Registry

def register (r : Registry F C) (fd : F) (cb : C) : Registry F C := r ++ [(fd, cb)]

/-- Remove the first pair of `fd`. -/
def deregister [DecidableEq F] (r : Registry F C) (fd : F) : Registry F C := r.eraseP fun p => p.1 = fd

inductive Ev (F C : Type*) where
  | register (fd : F) (cb : C)
  | deregister (fd : F)
  /-- `cb` is called with `fd` -/
  | call (fd : F) (cb : C)

def machine (F C : Type*) [DecidableEq F] : Machine (Registry F C) (Ev F C) where
  can
    | r, .call fd cb => (fd, cb) ∈ r
    | _, _ => True
  next
    | r, .register fd cb => r.register fd cb
    | r, .deregister fd => r.deregister fd
    | r, .call _ _ => r

variable {r : Registry F C} {fd : F} {p : F × C}

@[simp] theorem mem_register {cb : C} : p ∈ r.register fd cb ↔ p ∈ r ∨ p = (fd, cb) := by
  simp [register]

/-- The registered descriptors. -/
def fds (r : Registry F C) : List F := r.map Prod.fst

theorem mem_fds : fd ∈ r.fds ↔ ∃ cb, (fd, cb) ∈ r := by simp [fds]

theorem nodup_register {cb : C} (h : r.fds.Nodup) (hfd : fd ∉ r.fds) :
    (r.register fd cb).fds.Nodup := by
  have hdisj : ∀ a cb', (a, cb') ∈ r → a ≠ fd := by
    rintro a cb' hm rfl
    exact hfd (mem_fds.2 ⟨cb', hm⟩)
  simpa [fds, register, List.nodup_append] using ⟨h, hdisj⟩

variable [DecidableEq F]

theorem nodup_deregister (h : r.fds.Nodup) : (r.deregister fd).fds.Nodup :=
  h.sublist (List.eraseP_sublist.map _)

theorem mem_of_mem_deregister (h : p ∈ r.deregister fd) : p ∈ r := List.mem_of_mem_eraseP h

end Registry

end ProxyBroker
