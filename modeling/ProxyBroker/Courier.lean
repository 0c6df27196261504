/-
  Requests and replies: callers, each with an address, that wait for the reply
  to one request at a time, and the letters that are on the way.

  * `Step`: what can happen to the letters and the callers.  Letters may be lost
    at any time; a caller that hangs up leaves its letters behind.
  * `Orderly`: a caller that waits has at most one letter on the way, and it is
    its request or a reply to it.
  * `Orderly.answer`: so a reply that reaches a caller is one to its request.
-/
import Mathlib.Algebra.Order.Group.Multiset
import Mathlib.Data.Multiset.Filter
import Mathlib.Logic.Function.Basic
import Mathlib.Logic.Relation
import Mathlib.Tactic.Common

namespace ProxyBroker

variable {α κ ρ : Type*}

/-- What a letter says; its address is that of the caller. -/
inductive Letter (κ ρ : Type*) where
  | asked (q : κ)
  | answered (r : ρ)
  deriving DecidableEq

/-- What a caller does. -/
inductive Caller (κ : Type*) where
  /-- there is no caller yet with this address -/
  | fresh
  | idle
  | waits (q : κ)
  /-- the caller has gone for good -/
  | gone
  deriving DecidableEq

structure Courier (α κ ρ : Type*) where
  letters : Multiset (α × Letter κ ρ)
  caller : α → Caller κ

namespace Courier

variable [DecidableEq α] {A B : α → κ → ρ → Prop} {c d : Courier α κ ρ} {a b : α} {q : κ} {r : ρ}
  {l : Letter κ ρ}

/-- What can happen, where `A` tells which replies answer the request of a caller
    that waits. -/
inductive Step (A : α → κ → ρ → Prop) (c : Courier α κ ρ) : Courier α κ ρ → Prop
  | comes (a : α) (ha : c.caller a = .fresh) :
      Step A c { c with caller := Function.update c.caller a .idle }
  | asks (a : α) (q : κ) (ha : c.caller a = .idle) :
      Step A c ⟨(a, .asked q) ::ₘ c.letters, Function.update c.caller a (.waits q)⟩
  | answers (a : α) (q : κ) (r : ρ) (rest : Multiset (α × Letter κ ρ))
      (hl : c.letters = (a, .asked q) ::ₘ rest) (hr : c.caller a = .waits q → A a q r) :
      Step A c { c with letters := (a, .answered r) ::ₘ rest }
  | returns (a : α) (q : κ) (r : ρ) (rest : Multiset (α × Letter κ ρ))
      (hl : c.letters = (a, .answered r) ::ₘ rest) (ha : c.caller a = .waits q) :
      Step A c ⟨rest, Function.update c.caller a .idle⟩
  | goes (a : α) : Step A c { c with caller := Function.update c.caller a .gone }
  | loses (rest : Multiset (α × Letter κ ρ)) (hl : rest ≤ c.letters) :
      Step A c { c with letters := rest }

/-- Any number of such steps. -/
abbrev Steps (A : α → κ → ρ → Prop) : Courier α κ ρ → Courier α κ ρ → Prop :=
  Relation.ReflTransGen (Step A)

/-- The letter is the request `q` itself or a reply to it. -/
def Suits (A : κ → ρ → Prop) (q : κ) : Letter κ ρ → Prop
  | .asked q' => q' = q
  | .answered r => A q r

theorem Suits.imp {A B : κ → ρ → Prop} (h : Suits A q l) (hAB : ∀ r, A q r → B q r) :
    Suits B q l := by
  cases l with
  | asked q' => exact h
  | answered r => exact hAB r h

/-- How many letters a caller has on the way. -/
def count (m : Multiset (α × Letter κ ρ)) (a : α) : ℕ := m.countP (·.1 = a)

section
variable {m n : Multiset (α × Letter κ ρ)}

@[simp] theorem count_zero : count (0 : Multiset (α × Letter κ ρ)) a = 0 := rfl

@[simp] theorem count_cons_self : count ((a, l) ::ₘ m) a = count m a + 1 := by
  simp [count]

@[simp] theorem count_cons_of_ne (h : a ≠ b) : count ((a, l) ::ₘ m) b = count m b := by
  simp [count, h]

theorem count_le (h : m ≤ n) (a : α) : count m a ≤ count n a := Multiset.countP_le_of_le _ h

theorem notMem_of_count (h : count m a = 0) (l : Letter κ ρ) : (a, l) ∉ m := fun hl =>
  Multiset.countP_eq_zero.1 h _ hl rfl

end

structure Orderly (A : α → κ → ρ → Prop) (c : Courier α κ ρ) : Prop where
  /-- who waits for nothing has no letter on the way -/
  silent : ∀ a, c.caller a = .fresh ∨ c.caller a = .idle → count c.letters a = 0
  single : ∀ a q, c.caller a = .waits q → count c.letters a ≤ 1
  suits : ∀ a q l, c.caller a = .waits q → (a, l) ∈ c.letters → Suits (A a) q l

/-- Nobody has come yet. -/
def start : Courier α κ ρ := ⟨0, fun _ => .fresh⟩

theorem Orderly.start : Orderly A (start : Courier α κ ρ) where
  silent _ _ := rfl
  single _ _ h := by cases h
  suits _ _ _ h := by cases h

/-- **A reply that reaches a caller is one to its request.** -/
theorem Orderly.answer (h : Orderly A c) (ha : c.caller a = .waits q)
    (hl : (a, .answered r) ∈ c.letters) : A a q r := h.suits a q _ ha hl

/-- What answers a caller that waits may be said in other words. -/
theorem Orderly.imp (h : Orderly A c) (hAB : ∀ a q r, c.caller a = .waits q → A a q r → B a q r) :
    Orderly B c where
  silent := h.silent
  single := h.single
  suits a q l ha hl := (h.suits a q l ha hl).imp fun r => hAB a q r ha

/-- Fewer letters are on the way, and the callers do what they did. -/
theorem Orderly.loses (h : Orderly A c) {rest : Multiset (α × Letter κ ρ)} (hl : rest ≤ c.letters) :
    Orderly A { c with letters := rest } where
  silent a ha := Nat.le_zero.1 ((count_le hl a).trans_eq (h.silent a ha))
  single a q ha := (count_le hl a).trans (h.single a q ha)
  suits a q l ha hmem := h.suits a q l ha (Multiset.mem_of_le hl hmem)

/-- A caller has changed; the others have the letters that they had. -/
theorem Orderly.caller (h : Orderly A c) (hd : ∀ b, b ≠ a → d.caller b = c.caller b)
    (hcount : ∀ b, b ≠ a → count d.letters b = count c.letters b)
    (hmem : ∀ b l, b ≠ a → (b, l) ∈ d.letters → (b, l) ∈ c.letters)
    (hsilent : d.caller a = .fresh ∨ d.caller a = .idle → count d.letters a = 0)
    (hsingle : ∀ q, d.caller a = .waits q → count d.letters a ≤ 1)
    (hsuits : ∀ q l, d.caller a = .waits q → (a, l) ∈ d.letters → Suits (A a) q l) :
    Orderly A d where
  silent b hb := by
    rcases eq_or_ne b a with rfl | hne
    · exact hsilent hb
    · rw [hcount b hne]
      exact h.silent b (hd b hne ▸ hb)
  single b q hb := by
    rcases eq_or_ne b a with rfl | hne
    · exact hsingle q hb
    · rw [hcount b hne]
      exact h.single b q (hd b hne ▸ hb)
  suits b q l hb hl := by
    rcases eq_or_ne b a with rfl | hne
    · exact hsuits q l hb hl
    · exact h.suits b q l (hd b hne ▸ hb) (hmem b l hne hl)

theorem Step.orderly (hs : Step A c d) (h : Orderly A c) : Orderly A d := by
  cases hs with
  | comes a ha =>
    have hzero : count c.letters a = 0 := h.silent a (Or.inl ha)
    refine h.caller (a := a) (fun b hb => by simp [hb]) (fun _ _ => rfl) (fun _ _ _ hl => hl)
      (fun _ => hzero) ?_ ?_
    · intro q hq
      simp at hq
    · intro q l hq
      simp at hq
  | asks a q ha =>
    have hzero : count c.letters a = 0 := h.silent a (Or.inr ha)
    refine h.caller (a := a) (fun b hb => by simp [hb]) (fun b hb => ?_) ?_ ?_ ?_ ?_
    · exact count_cons_of_ne hb.symm
    · intro b l hb hl
      rcases Multiset.mem_cons.1 hl with heq | hl
      · exact absurd (congrArg Prod.fst heq) hb
      · exact hl
    · intro hidle
      simp at hidle
    · intro q' _
      rw [count_cons_self, hzero]
    · intro q' l hq hl
      obtain rfl : q = q' := by simpa using hq
      rcases Multiset.mem_cons.1 hl with heq | hl
      · obtain rfl := congrArg Prod.snd heq
        rfl
      · exact absurd hl (notMem_of_count hzero l)
  | answers a q r rest hl hr =>
    have hcount : ∀ b, count ((a, .answered r) ::ₘ rest) b = count c.letters b := by
      intro b
      simp only [count, hl, Multiset.countP_cons]
    refine ⟨fun b hb => (hcount b).trans (h.silent b hb), fun b q' hb => ?_, ?_⟩
    · rw [hcount b]
      exact h.single b q' hb
    · intro b q' l hb hmem
      rcases Multiset.mem_cons.1 hmem with heq | hmem
      · obtain ⟨rfl, rfl⟩ := Prod.mk.inj heq
        have hq : q = q' := h.suits b q' (.asked q) hb (hl ▸ Multiset.mem_cons_self _ _)
        subst hq
        exact hr hb
      · exact h.suits b q' l hb (hl ▸ Multiset.mem_cons_of_mem hmem)
  | returns a q r rest hl ha =>
    have hzero : count rest a = 0 := by
      have hone := h.single a q ha
      rw [hl, count_cons_self] at hone
      omega
    refine h.caller (a := a) (fun b hb => by simp [hb]) (fun b hb => ?_) ?_ (fun _ => hzero) ?_ ?_
    · rw [hl, count_cons_of_ne hb.symm]
    · intro b l _ hmem
      exact hl ▸ Multiset.mem_cons_of_mem hmem
    · intro q' hq
      simp at hq
    · intro q' l hq
      simp at hq
  | goes a =>
    refine h.caller (a := a) (fun b hb => by simp [hb]) (fun _ _ => rfl) (fun _ _ _ hl => hl) ?_ ?_ ?_
    · intro hidle
      simp at hidle
    · intro q hq
      simp at hq
    · intro q l hq
      simp at hq
  | loses rest hl => exact h.loses hl

/-- **The callers and their letters stay in order.** -/
theorem Steps.orderly (hs : Steps A c d) (h : Orderly A c) : Orderly A d := by
  induction hs with
  | refl => exact h
  | tail _ hs ih => exact hs.orderly ih

/-! ## Some steps -/

/-- Fewer letters are on the way. -/
theorem Steps.of_le (hl : d.letters ≤ c.letters) (hcaller : d.caller = c.caller) :
    Steps A c d := by
  obtain ⟨letters, caller⟩ := d
  obtain rfl : caller = c.caller := hcaller
  exact .single (.loses letters hl)

/-- What is made of the letters `old` is fewer letters, or the answer to the one
    request that they are. -/
theorem Steps.of_made {rest old made : Multiset (α × Letter κ ρ)} (hc : c.letters = rest + old)
    (hd : d.letters ≤ rest + made) (hcaller : d.caller = c.caller)
    (h : made ≤ old ∨ ∃ a q r, old = {(a, .asked q)} ∧ (c.caller a = .waits q → A a q r) ∧
      made = {(a, .answered r)}) :
    Steps A c d := by
  rcases h with hle | ⟨a, q, r, rfl, hr, rfl⟩
  · exact Steps.of_le (hc ▸ hd.trans (add_le_add_right hle rest)) hcaller
  · have hletters : c.letters = (a, .asked q) ::ₘ rest := by
      rw [hc, add_comm, Multiset.singleton_add]
    refine .head (.answers a q r rest hletters hr) (Steps.of_le ?_ hcaller)
    rwa [add_comm, Multiset.singleton_add] at hd

/-- A caller stays where it is, or leaves and comes again at a new address. -/
theorem Steps.moves (h : a = b ∧ c.caller b = .idle ∨ a ≠ b ∧ c.caller b = .fresh) :
    Steps A c { c with caller := Function.update (Function.update c.caller a .gone) b .idle } := by
  rcases h with ⟨rfl, hidle⟩ | ⟨hne, hfresh⟩
  · rw [Function.update_idem, ← hidle, Function.update_eq_self]
  · refine .head (.goes a) (.single (.comes b ?_))
    simpa [hne.symm] using hfresh

end Courier

end ProxyBroker
