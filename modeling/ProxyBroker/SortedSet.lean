/-
  Finite sets in ascending order, as `std::set` keeps them.
-/
import Mathlib.Data.List.Sort

namespace ProxyBroker

/-- A finite set: its elements in ascending order. -/
structure SortedSet (α : Type*) [LinearOrder α] where
  toList : List α
  sorted : toList.Pairwise (· < ·)

namespace SortedSet

variable {α : Type*} [LinearOrder α] {a b : α} {s : SortedSet α}

instance : Membership α (SortedSet α) := ⟨fun s a => a ∈ s.toList⟩

instance (a : α) (s : SortedSet α) : Decidable (a ∈ s) :=
  inferInstanceAs (Decidable (a ∈ s.toList))

@[simp] theorem mem_toList : a ∈ s.toList ↔ a ∈ s := Iff.rfl

theorem nodup (s : SortedSet α) : s.toList.Nodup := s.sorted.imp fun h => ne_of_lt h

def empty : SortedSet α := ⟨[], .nil⟩

@[simp] theorem notMem_empty : a ∉ (empty : SortedSet α) := List.not_mem_nil

/-- Putting a new element in its place keeps the order. -/
theorem sorted_orderedInsert {l : List α} (h : l.Pairwise (· < ·)) (ha : a ∉ l) :
    (l.orderedInsert (· ≤ ·) a).Pairwise (· < ·) := by
  have hle : (l.orderedInsert (· ≤ ·) a).Pairwise (· ≤ ·) :=
    (h.imp fun hlt => le_of_lt hlt).orderedInsert a l
  have hnd : (l.orderedInsert (· ≤ ·) a).Nodup :=
    (List.perm_orderedInsert _ a l).nodup_iff.2
      (List.nodup_cons.2 ⟨ha, h.imp fun hlt => ne_of_lt hlt⟩)
  exact (hle.and hnd).imp fun h => lt_of_le_of_ne h.1 h.2

/-- `insert`. -/
def insert (s : SortedSet α) (a : α) : SortedSet α :=
  if h : a ∈ s.toList then s
  else ⟨s.toList.orderedInsert (· ≤ ·) a, sorted_orderedInsert s.sorted h⟩

/-- `erase`. -/
def erase (s : SortedSet α) (a : α) : SortedSet α :=
  ⟨s.toList.erase a, s.sorted.sublist List.erase_sublist⟩

@[simp] theorem mem_insert : b ∈ s.insert a ↔ b = a ∨ b ∈ s := by
  unfold insert
  split_ifs with h
  · constructor
    · exact Or.inr
    · rintro (rfl | hb)
      · exact h
      · exact hb
  · exact List.mem_orderedInsert _

@[simp] theorem mem_erase : b ∈ s.erase a ↔ b ≠ a ∧ b ∈ s := s.nodup.mem_erase_iff

end SortedSet

end ProxyBroker
