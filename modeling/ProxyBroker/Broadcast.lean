/-
  Broadcasting a log: a writer appends an item to the log and sends it to every
  reader, one by one, over a queue for each reader.

  * `Inv`: what a reader has read, what is queued for it and what it has still
    to be sent are together the log.
  * `Inv.read_prefix_log`, `Inv.read_total`, `Inv.read_eq_log`: so what a reader has
    read is a prefix of the log, any two readers have read prefixes of each
    other, and a reader for whom nothing is left has read all of it.
-/
import ProxyBroker.Machine
import Mathlib.Data.Fintype.Basic
import Mathlib.Data.List.Infix

namespace ProxyBroker

variable {ι α : Type*}

@[ext]
structure Broadcast (ι α : Type*) where
  log : List α
  /-- the readers that the last item has still to be sent to -/
  pending : Finset ι
  queue : ι → List α
  read : ι → List α

namespace Broadcast

/-- Nothing has been broadcast. -/
def empty : Broadcast ι α := ⟨[], ∅, fun _ => [], fun _ => []⟩

inductive Ev (ι α : Type*) where
  /-- the item is the next of the log -/
  | append (a : α)
  /-- the last item is sent to the reader `i` -/
  | send (i : ι)
  /-- the reader `i` takes the first item of its queue -/
  | read (i : ι)

/-- An item is appended when the one before has been sent to every reader. -/
def machine (ι α : Type*) [Fintype ι] [DecidableEq ι] : Machine (Broadcast ι α) (Ev ι α) where
  can
    | b, .append _ => b.pending = ∅
    | b, .send i => i ∈ b.pending
    | b, .read i => b.queue i ≠ []
  next
    | b, .append a => { b with log := b.log ++ [a], pending := Finset.univ }
    | b, .send i =>
      { b with
        pending := b.pending.erase i
        queue := Function.update b.queue i (b.queue i ++ b.log.getLast?.toList) }
    | b, .read i =>
      { b with
        queue := Function.update b.queue i (b.queue i).tail
        read := Function.update b.read i (b.read i ++ (b.queue i).head?.toList) }

section Inv

variable [DecidableEq ι]

/-- What has still to be sent to the reader `i`. -/
def unsent (b : Broadcast ι α) (i : ι) : List α :=
  if i ∈ b.pending then b.log.getLast?.toList else []

/-- The log is what a reader has read, what is queued for it and what it has
    still to be sent. -/
def Inv (b : Broadcast ι α) : Prop := ∀ i, b.read i ++ b.queue i ++ b.unsent i = b.log

variable {b : Broadcast ι α}

theorem Inv.empty : (empty : Broadcast ι α).Inv := fun i => by simp [Broadcast.empty, unsent]

namespace Inv

variable (h : b.Inv)
include h

theorem read_prefix_log (i : ι) : b.read i <+: b.log := ⟨b.queue i ++ b.unsent i, by
  rw [← List.append_assoc]; exact h i⟩

/-- What one of two readers has read is a prefix of what the other has read. -/
theorem read_total (i j : ι) : b.read i <+: b.read j ∨ b.read j <+: b.read i :=
  List.prefix_or_prefix_of_prefix (h.read_prefix_log i) (h.read_prefix_log j)

/-- Everything in the log has been sent to a reader that is not pending. -/
theorem read_append_queue {i : ι} (hi : i ∉ b.pending) : b.read i ++ b.queue i = b.log := by
  have := h i
  rwa [unsent, if_neg hi, List.append_nil] at this

theorem read_eq_log {i : ι} (hi : i ∉ b.pending) (hq : b.queue i = []) : b.read i = b.log := by
  rw [← h.read_append_queue hi, hq, List.append_nil]

end Inv

end Inv

variable [Fintype ι] [DecidableEq ι] {b : Broadcast ι α}

theorem Inv.step (h : b.Inv) {e : Ev ι α} (he : (machine ι α).can b e) :
    ((machine ι α).next b e).Inv := by
  intro i
  have hi := h i
  cases e with
  | append a =>
    have hp : b.pending = ∅ := he
    simp only [unsent, hp, Finset.notMem_empty, if_false, List.append_nil] at hi
    simp [machine, unsent, hi]
  | send j =>
    have hj : j ∈ b.pending := he
    by_cases hij : i = j
    · subst hij
      simp only [unsent, hj, if_true] at hi
      simpa [machine, unsent] using hi
    · simpa [machine, unsent, hij] using hi
  | read j =>
    refine Eq.trans (congrArg (· ++ b.unsent i) ?_) hi
    by_cases hij : i = j
    · subst hij
      obtain ⟨a, q, hq⟩ := List.exists_cons_of_ne_nil (show b.queue i ≠ [] from he)
      simp [machine, hq]
    · simp [machine, hij]

/-- **The invariant holds of everything reached from the empty broadcast.** -/
theorem Inv.of_reaches (h : (machine ι α).Reaches Broadcast.empty b) : b.Inv :=
  h.inv Inv.empty fun _ _ hi he => hi.step he

end Broadcast

end ProxyBroker
