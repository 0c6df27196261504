/-
  Machines that receive bytes on connections and pass them on to a handler.

  An event may read a connection, with an error (`none`), the end of the
  stream (`some []`) or some bytes.  `Delivery` is for code that passes bytes on
  if a handler is set, and that does not get over an error.

  `delivers_iff`: when a run handles what it receives.
-/
import ProxyBroker.Machine
import ProxyBroker.Process

namespace ProxyBroker

variable {σ ε κ β : Type}

/-- How a machine receives and handles bytes. -/
structure Delivery (M : Machine (Process σ) ε) (κ β : Type) where
  code : ε → Proc σ Unit
  next : ∀ p e, M.next p e = Process.exec (code e) p
  live : ∀ {p e}, M.can p e → p.halted = none
  /-- the connection that the event reads, and what the read returns -/
  outcome : ε → Option (κ × Option (List β))
  /-- what the handler has been called with, and for which connection -/
  handled : σ → List (κ × List β)
  /-- a handler is set -/
  ready : σ → Prop
  connected : σ → κ → Prop
  quiet : ∀ {s e}, (∀ k r, outcome e = some (k, r) → r = some []) →
    handled ((code e).final s) = handled s
  fails : ∀ {e k}, outcome e = some (k, none) → ∀ s, (code e).run s = .error .abort s
  passes : ∀ {s e k bs}, outcome e = some (k, some bs) → bs ≠ [] → ready s →
    ∃ s', (code e).run s = .ok () s' ∧ handled s' = handled s ++ [(k, bs)]
  refuses : ∀ {s e k bs}, outcome e = some (k, some bs) → bs ≠ [] → ¬ ready s →
    (code e).run s = .error .abort s

namespace Delivery

variable {M : Machine (Process σ) ε} (D : Delivery M κ β) {p₀ p : Process σ} {e : ε} {es : List ε}

theorem st_next (p : Process σ) (e : ε) : (M.next p e).st = (D.code e).final p.st := by
  rw [D.next, Process.st_exec]

theorem next_throws (h : (D.code e).run p.st = .error .abort p.st) :
    M.next p e = ⟨p.st, some .abort⟩ := by
  rw [D.next, Process.exec_error h]

/-- What an event receives. -/
def piece (e : ε) : List (κ × List β) :=
  match D.outcome e with
  | some (k, some bs) => [(k, bs)]
  | some (_, none) | none => []

/-- What the events receive. -/
def pieces (es : List ε) : List (κ × List β) := es.flatMap D.piece

/-- An error calls no handler, does not end the process and leaves the
    connection as it is. -/
def Survives (p : Process σ) (e : ε) : Prop := ∀ k, D.outcome e = some (k, none) →
  (M.next p e).halted = none ∧ D.handled (M.next p e).st = D.handled p.st ∧
    D.connected (M.next p e).st k

/-- The event is no error, and bytes find a handler. -/
def Good (p : Process σ) (e : ε) : Prop := ∀ k r, D.outcome e = some (k, r) →
  r ≠ none ∧ (r ≠ some [] → D.ready p.st)

/-- An event that is not good ends the process, and its bytes are lost. -/
theorem not_good (hg : ¬ D.Good p e) :
    (M.next p e).halted ≠ none ∧ (¬ D.Survives p e ∨
      ∃ k bs, bs ≠ [] ∧ D.piece e = [(k, bs)] ∧ D.handled (M.next p e).st = D.handled p.st) := by
  simp only [Good, not_forall] at hg
  obtain ⟨k, r, ho, hr⟩ := hg
  rcases r with _ | bs
  · have hx := D.next_throws (D.fails ho p.st)
    have hh : (M.next p e).halted ≠ none := by simp [hx]
    exact ⟨hh, Or.inl fun hs => hh (hs k ho).1⟩
  · obtain ⟨hne, hready⟩ : bs ≠ [] ∧ ¬ D.ready p.st := by simpa using hr
    have hx := D.next_throws (D.refuses ho hne hready)
    exact ⟨by simp [hx], Or.inr ⟨k, bs, hne, by simp [piece, ho], by rw [hx]⟩⟩

variable [DecidableEq κ]

/-- The bytes for a connection, one piece after the other. -/
def bytesOf (k : κ) (l : List (κ × List β)) : List β :=
  (l.filter fun x => x.1 = k).flatMap Prod.snd

@[simp] theorem bytesOf_nil (k : κ) : bytesOf k ([] : List (κ × List β)) = [] := rfl

@[simp] theorem bytesOf_append (k : κ) (l l' : List (κ × List β)) :
    bytesOf k (l ++ l') = bytesOf k l ++ bytesOf k l' := by simp [bytesOf]

theorem bytesOf_self (k : κ) (bs : List β) : bytesOf k [(k, bs)] = bs := by simp [bytesOf]

theorem bytesOf_empty (k k' : κ) : bytesOf k [(k', ([] : List β))] = [] := by
  by_cases h : k' = k <;> simp [bytesOf, h]

/-- A run handles what it receives, and survives errors. -/
def Delivers (p₀ : Process σ) (es : List ε) : Prop :=
  (∀ k, bytesOf k (D.handled (M.run p₀ es).st) = bytesOf k (D.pieces es)) ∧
    M.All D.Survives p₀ es

/-- A good event handles what it receives. -/
theorem Good.handles (hg : D.Good p e) (k : κ) :
    bytesOf k (D.handled (M.next p e).st) = bytesOf k (D.handled p.st) ++ bytesOf k (D.piece e) := by
  rw [D.st_next]
  rcases ho : D.outcome e with _ | ⟨k', _ | bs⟩
  · rw [D.quiet (fun k r h => absurd (ho.symm.trans h) (by simp))]
    simp [piece, ho]
  · exact absurd rfl (hg k' none ho).1
  · rcases eq_or_ne bs [] with rfl | hne
    · have hquiet : ∀ k r, D.outcome e = some (k, r) → r = some [] := by
        intro k r h
        obtain ⟨-, rfl⟩ : k' = k ∧ some [] = r := by simpa using ho.symm.trans h
        rfl
      rw [D.quiet hquiet]
      simp [piece, ho, bytesOf_empty]
    · obtain ⟨s', hrun, hs'⟩ := D.passes ho hne ((hg k' (some bs) ho).2 (by simpa using hne))
      rw [Proc.final_ok hrun, hs', bytesOf_append]
      simp [piece, ho]

/-- **A run delivers exactly if** all of its events are good. -/
theorem delivers_iff (h₀ : D.handled p₀.st = []) (hc : M.Can p₀ es) :
    D.Delivers p₀ es ↔ M.All D.Good p₀ es := by
  have hkeep : D.Delivers p₀ es ∧ M.All D.Good p₀ es ∨
      ¬ D.Delivers p₀ es ∧ ¬ M.All D.Good p₀ es ∧ (M.run p₀ es).halted ≠ none := by
    induction es using List.reverseRecOn with
    | nil => exact Or.inl ⟨⟨fun k => by simp [h₀, pieces], trivial⟩, trivial⟩
    | append_singleton es e ih =>
      obtain ⟨hces, hce⟩ := Machine.all_snoc.1 hc
      have hp : D.pieces (es ++ [e]) = D.pieces es ++ D.piece e := by simp [pieces]
      simp only [Delivers, Machine.all_snoc, Machine.run_append, Machine.run_cons,
        Machine.run_nil, hp, bytesOf_append]
      rcases ih hces with ⟨⟨heq, hs⟩, hall⟩ | ⟨-, -, hh⟩
      · by_cases hg : D.Good (M.run p₀ es) e
        · refine Or.inl ⟨⟨?_, hs, ?_⟩, hall, hg⟩
          · intro k
            rw [Good.handles D hg k, heq k]
          · intro k hk
            exact absurd rfl (hg k none hk).1
        · obtain ⟨hh, hbad⟩ := not_good D hg
          refine Or.inr ⟨?_, fun h => hg h.2, hh⟩
          rintro ⟨heq', -, hs'⟩
          rcases hbad with hbad | ⟨k, bs, hne, hpiece, hsame⟩
          · exact hbad hs'
          · have hk := heq' k
            rw [hsame, heq k, hpiece, bytesOf_self] at hk
            exact hne (List.self_eq_append_right.1 hk)
      · exact absurd (D.live hce) hh
  rcases hkeep with ⟨hd, hg⟩ | ⟨hd, hg, -⟩
  · exact iff_of_true hd hg
  · exact iff_of_false hd hg

end Delivery

end ProxyBroker
