/-
  Multipart messages: sequences of frames, each with a flag that tells whether
  more frames of its message follow.

  `Frame.encode` gives the frames of a message, and `Frame.split` takes the
  first message off a sequence of frames.
-/
import Mathlib.Data.List.Basic

namespace ProxyBroker

structure Frame (α : Type*) where
  data : α
  more : Bool
  deriving DecidableEq, Repr

namespace Frame

variable {α : Type*} {l : List α} {ls : List (List α)} {fs gs : List (Frame α)}

/-- The frames of a message: all but the last have more to follow. -/
def encode : List α → List (Frame α)
  | [] => []
  | [a] => [⟨a, false⟩]
  | a :: b :: l => ⟨a, true⟩ :: encode (b :: l)

/-- The first message and the frames after it, if its last frame is there. -/
def split : List (Frame α) → Option (List α × List (Frame α))
  | [] => none
  | f :: fs =>
    if f.more then (split fs).map fun p => (f.data :: p.1, p.2) else some ([f.data], fs)

/-- The first `n` messages and the frames after them. -/
def splits : ℕ → List (Frame α) → Option (List (List α) × List (Frame α))
  | 0, fs => some ([], fs)
  | n + 1, fs => do
    let (l, fs) ← split fs
    let (ls, fs) ← splits n fs
    return (l :: ls, fs)

theorem encode_cons (a : α) (hl : l ≠ []) : encode (a :: l) = ⟨a, true⟩ :: encode l := by
  cases l with
  | nil => exact absurd rfl hl
  | cons b l => rfl

@[simp] theorem map_data_encode (l : List α) : (encode l).map data = l := by
  induction l with
  | nil => rfl
  | cons a l ih =>
    rcases eq_or_ne l [] with rfl | h
    · rfl
    · simp [encode_cons a h, ih]

/-- The frames of a message tell what it is. -/
theorem encode_inj {l l' : List α} : encode l = encode l' ↔ l = l' := by
  constructor
  · intro h
    rw [← map_data_encode l, h, map_data_encode]
  · rintro rfl
    rfl

/-- A message is taken off as it was put. -/
theorem split_encode (hl : l ≠ []) (fs : List (Frame α)) :
    split (encode l ++ fs) = some (l, fs) := by
  induction l with
  | nil => exact absurd rfl hl
  | cons a l ih =>
    rcases eq_or_ne l [] with rfl | h
    · rfl
    · simp [encode_cons a h, split, ih h]

/-- So is a sequence of messages, one after the other. -/
theorem splits_encode (hls : ∀ l ∈ ls, l ≠ []) (fs : List (Frame α)) :
    splits ls.length (ls.flatMap encode ++ fs) = some (ls, fs) := by
  induction ls with
  | nil => rfl
  | cons l ls ih =>
    have hl : l ≠ [] := hls l List.mem_cons_self
    have hrest := ih fun l' h => hls l' (List.mem_cons_of_mem _ h)
    simp [splits, split_encode hl, hrest]

end Frame

end ProxyBroker
