/-
  Segmentations of a sequence: the pieces in which a stream hands it on.
-/
import Mathlib.Data.List.Forall2
import Mathlib.Data.List.Flatten

namespace ProxyBroker

variable {α β γ : Type*}

/-- The pieces `segs` of `xs`, in order: none empty, none longer than `n`. -/
structure Segmentation (n : ℕ) (xs : List α) (segs : List (List α)) : Prop where
  flatten : segs.flatten = xs
  nonempty : ∀ seg ∈ segs, seg ≠ []
  bounded : ∀ seg ∈ segs, seg.length ≤ n

theorem map_eq_map_iff_forall₂ {f : α → γ} {g : β → γ} {xs : List α} {ys : List β} :
    xs.map f = ys.map g ↔ List.Forall₂ (fun x y => f x = g y) xs ys := by
  rw [← List.forall₂_map_right_iff, ← List.forall₂_map_left_iff, List.forall₂_eq_eq_eq]

/-- Two lists of pieces of the same sequence are equal if no piece of the first
    is shorter than its counterpart. -/
theorem eq_of_flatten_eq_of_length_le :
    ∀ {xs ys : List (List α)}, List.Forall₂ (fun x y => y.length ≤ x.length) xs ys →
      xs.flatten = ys.flatten → xs = ys
  | [], [], .nil, _ => rfl
  | x :: xs, y :: ys, .cons hxy h, heq => by
    have hle : ∀ {us vs : List (List α)},
        List.Forall₂ (fun u v => v.length ≤ u.length) us vs →
          vs.flatten.length ≤ us.flatten.length := by
      intro us vs huv
      induction huv with
      | nil => exact Nat.le_refl _
      | cons h _ ih => simp only [List.flatten_cons, List.length_append]; omega
    simp only [List.flatten_cons] at heq
    have hlen := congrArg List.length heq
    simp only [List.length_append] at hlen
    have hrest := hle h
    obtain ⟨rfl, ht⟩ := List.append_inj heq (by omega)
    rw [eq_of_flatten_eq_of_length_le h ht]

/-- Two lists of pieces of the same sequence are equal if all the pieces have
    the same positive length. -/
theorem eq_of_flatten_eq_of_length_eq {xs ys : List (List α)} {n : ℕ} (hn : 0 < n)
    (hx : ∀ x ∈ xs, x.length = n) (hy : ∀ y ∈ ys, y.length = n)
    (h : xs.flatten = ys.flatten) : xs = ys := by
  have hxs := List.map_eq_replicate_iff.2 hx
  have hys := List.map_eq_replicate_iff.2 hy
  have hlen := congrArg List.length h
  simp only [List.length_flatten, hxs, hys, List.sum_replicate_nat] at hlen
  have hlen := Nat.eq_of_mul_eq_mul_right hn hlen
  exact List.eq_iff_flatten_eq.2 ⟨h, by rw [hxs, hys, hlen]⟩

end ProxyBroker
