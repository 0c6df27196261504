/-
  `IoMultiplex` (`comm/IoMultiplex.cpp`): descriptors and their callbacks in
  two parallel vectors, and the dispatch pass over them.

  A callback may register and deregister any descriptors while the pass that
  called it is indexing the vectors.  The machine therefore stops at every
  point where other code runs: between the calls, at the head of each
  iteration of the loop, and inside a callback.

  * `pairs`: the two vectors read as one list; `registerFd` appends to it and
    `deregisterFd` removes the first pair of the descriptor.
  * `sim`: the object refines a `Registry`, and the pass calls only pairs of it.
-/
import ProxyBroker.Common
import ProxyBroker.Registry

namespace ProxyBroker

/-- A `short`, the type of a set of poll events. -/
abbrev Short := BitVec 16

def pollIn : Short := 1

/-- `pollfd`. -/
structure PollFd where
  fd : Fd
  events : Short
  revents : Short
  deriving DecidableEq, Repr

structure IoMultiplex (C : Type*) where
  pollItems : List PollFd
  cbLists : List C

namespace IoMultiplex

variable {C : Type*}

/-- The object as it is constructed. -/
def empty : IoMultiplex C := ⟨[], []⟩

/-- `register_fd`; `revents` is what the local `item` holds there, which the
    code does not set. -/
def registerFd (m : IoMultiplex C) (fd : Fd) (cb : C) (revents : Short) : IoMultiplex C :=
  ⟨m.pollItems ++ [⟨fd, pollIn, revents⟩], m.cbLists ++ [cb]⟩

/-- `deregister_fd`: the loop stops at the first item of `fd`. -/
def deregisterFd (m : IoMultiplex C) (fd : Fd) : IoMultiplex C :=
  match m.pollItems.findIdx? (·.fd = fd) with
  | some i => ⟨m.pollItems.eraseIdx i, m.cbLists.eraseIdx i⟩
  | none => m

/-- What `poll` writes: the `revents` of every item. -/
def setRevents (m : IoMultiplex C) (revents : ℕ → Short) : IoMultiplex C :=
  { m with pollItems := m.pollItems.mapIdx fun i item => { item with revents := revents i } }

/-- Where the execution is. -/
inductive Ctl (C : Type*) where
  /-- outside of `Poll` -/
  | idle
  /-- at the head of iteration `i` of `PollEventHandler` -/
  | loop (i : ℕ)
  /-- in the callback `cb` that iteration `i` has called with `fd` -/
  | call (i : ℕ) (fd : Fd) (cb : C)
  /-- an `at` has thrown `std::out_of_range` -/
  | thrown

structure St (C : Type*) where
  mux : IoMultiplex C
  ctl : Ctl C

inductive Ev (C : Type*) where
  | register (fd : Fd) (cb : C) (revents : Short)
  | deregister (fd : Fd)
  /-- `Poll` is called, and `poll` returns `ret` -/
  | poll (ret : ℤ) (revents : ℕ → Short)
  /-- the head of an iteration, up to the call of the callback if there is one -/
  | iterate
  /-- the callback returns -/
  | ret

/-- One iteration of `PollEventHandler`: the loop test, the two `at` calls and
    the test of POLLIN.  The other branches only print. -/
def iterate (m : IoMultiplex C) (i : ℕ) : Ctl C :=
  if i < m.pollItems.length then
    match m.pollItems[i]? with
    | none => .thrown
    | some item =>
      if item.revents &&& pollIn ≠ 0 then
        match m.cbLists[i]? with
        | none => .thrown
        | some cb => .call i item.fd cb
      else .loop (i + 1)
  else .idle

def machine (C : Type*) : Machine (St C) (Ev C) where
  can s
    | .register .. | .deregister _ => s.ctl = .idle ∨ ∃ i fd cb, s.ctl = .call i fd cb
    | .poll .. => s.ctl = .idle
    | .iterate => ∃ i, s.ctl = .loop i
    | .ret => ∃ i fd cb, s.ctl = .call i fd cb
  next s
    | .register fd cb revents => { s with mux := s.mux.registerFd fd cb revents }
    | .deregister fd => { s with mux := s.mux.deregisterFd fd }
    | .poll ret revents =>
      if ret = -1 then s
      else if ret = 0 then { s with mux := s.mux.setRevents fun _ => 0 }
      else ⟨s.mux.setRevents revents, .loop 0⟩
    | .iterate =>
      match s.ctl with
      | .loop i => { s with ctl := s.mux.iterate i }
      | _ => s
    | .ret =>
      match s.ctl with
      | .call i _ _ => { s with ctl := .loop (i + 1) }
      | _ => s

/-! ## The pairs -/

/-- The two vectors read as one list of pairs. -/
def pairs (m : IoMultiplex C) : Registry Fd C := (m.pollItems.map PollFd.fd).zip m.cbLists

/-- The two vectors have one callback for each item. -/
def Paired (m : IoMultiplex C) : Prop := m.pollItems.length = m.cbLists.length

variable {m : IoMultiplex C}

theorem Paired.registerFd (h : m.Paired) (fd : Fd) (cb : C) (r : Short) :
    (m.registerFd fd cb r).Paired := by
  simpa [Paired, IoMultiplex.registerFd] using h

theorem Paired.deregisterFd (h : m.Paired) (fd : Fd) : (m.deregisterFd fd).Paired := by
  unfold IoMultiplex.deregisterFd
  split
  · rename_i i hi
    have hlt := (List.findIdx?_eq_some_iff_getElem.1 hi).1
    unfold Paired at h ⊢
    rw [List.length_eraseIdx_of_lt hlt, List.length_eraseIdx_of_lt (h ▸ hlt), h]
  · exact h

theorem Paired.setRevents (h : m.Paired) (revents : ℕ → Short) : (m.setRevents revents).Paired := by
  simpa [Paired, IoMultiplex.setRevents] using h

theorem pairs_registerFd (h : m.Paired) (fd : Fd) (cb : C) (r : Short) :
    (m.registerFd fd cb r).pairs = m.pairs.register fd cb := by
  simp only [pairs, IoMultiplex.registerFd, Registry.register, List.map_append]
  exact List.zip_append (by simpa [Paired] using h)

theorem zip_eraseIdx {α β : Type*} :
    ∀ (xs : List α) (ys : List β) (i : ℕ),
      (xs.eraseIdx i).zip (ys.eraseIdx i) = (xs.zip ys).eraseIdx i
  | [], _, _ => by simp
  | _ :: _, [], _ => by simp
  | _ :: _, _ :: _, 0 => rfl
  | x :: xs, y :: ys, i + 1 => by simp [zip_eraseIdx xs ys i]

/-- The first item of `fd` is the first pair of `fd`. -/
theorem findIdx?_pairs (h : m.Paired) (fd : Fd) :
    m.pairs.findIdx? (fun p => p.1 = fd) = m.pollItems.findIdx? (·.fd = fd) := by
  have hfst : m.pairs.map Prod.fst = m.pollItems.map PollFd.fd :=
    List.map_fst_zip (by simpa [Paired] using h.le)
  have := congrArg (List.findIdx? (· = fd)) hfst
  simpa [List.findIdx?_map, Function.comp_def] using this

theorem pairs_deregisterFd (h : m.Paired) (fd : Fd) :
    (m.deregisterFd fd).pairs = m.pairs.deregister fd := by
  rw [Registry.deregister, List.eraseP_eq_eraseIdx, findIdx?_pairs h, IoMultiplex.deregisterFd]
  cases m.pollItems.findIdx? (·.fd = fd) with
  | none => rfl
  | some i => simp only [pairs, ← List.eraseIdx_map, zip_eraseIdx]

theorem pairs_setRevents (revents : ℕ → Short) : (m.setRevents revents).pairs = m.pairs := by
  have : (m.setRevents revents).pollItems.map PollFd.fd = m.pollItems.map PollFd.fd :=
    List.ext_getElem? fun i => by
      simp [IoMultiplex.setRevents, List.getElem?_map, Function.comp_def]
  simp only [pairs, this]; rfl

/-! ## The dispatch pass -/

/-- What one iteration does: no `at` throws, and a call is that of the pair at
    its index. -/
theorem iterate_cases (h : m.Paired) (i : ℕ) :
    (m.pollItems.length ≤ i ∧ m.iterate i = .idle) ∨
    (∃ item, m.pollItems[i]? = some item ∧ item.revents &&& pollIn = 0 ∧
      m.iterate i = .loop (i + 1)) ∨
    (∃ item cb, m.pollItems[i]? = some item ∧ m.cbLists[i]? = some cb ∧
      item.revents &&& pollIn ≠ 0 ∧ m.iterate i = .call i item.fd cb) := by
  unfold iterate
  by_cases hi : i < m.pollItems.length
  · have hi' : i < m.cbLists.length := h ▸ hi
    simp only [if_pos hi, List.getElem?_eq_getElem hi, List.getElem?_eq_getElem hi']
    by_cases hr : m.pollItems[i].revents &&& pollIn = 0
    · exact Or.inr (Or.inl ⟨_, rfl, hr, if_neg (not_not.2 hr)⟩)
    · exact Or.inr (Or.inr ⟨_, _, rfl, rfl, hr, if_pos hr⟩)
  · exact Or.inl ⟨not_lt.1 hi, if_neg hi⟩

theorem mem_pairs {i : ℕ} {item : PollFd} {cb : C} (hi : m.pollItems[i]? = some item)
    (hc : m.cbLists[i]? = some cb) : (item.fd, cb) ∈ m.pairs :=
  List.mem_of_getElem? (List.getElem?_zip_eq_some.2 ⟨by simp [hi], hc⟩)

/-- The invariant at every point where other code runs: the vectors are paired,
    and nothing was thrown. -/
structure Inv (s : St C) : Prop where
  paired : s.mux.Paired
  noThrow : s.ctl ≠ .thrown

/-- What the machine does, as events of the registry. -/
def toRegistry : St C → Ev C → List (Registry.Ev Fd C)
  | _, .register fd cb _ => [.register fd cb]
  | _, .deregister fd => [.deregister fd]
  | ⟨m, .loop i⟩, .iterate => match m.iterate i with
    | .call _ fd cb => [.call fd cb]
    | _ => []
  | _, _ => []

/-- **The object refines a registry.** -/
theorem sim : Machine.Sim (machine C) (Registry.machine Fd C) Inv (fun s => s.mux.pairs)
    toRegistry where
  inv s e hs he := by
    obtain ⟨m, ctl⟩ := s
    obtain ⟨hp, ht⟩ := hs
    cases e with
    | register fd cb r => exact ⟨hp.registerFd fd cb r, ht⟩
    | deregister fd => exact ⟨hp.deregisterFd fd, ht⟩
    | poll ret revents =>
      simp only [machine]
      split_ifs
      exacts [⟨hp, ht⟩, ⟨hp.setRevents _, ht⟩, ⟨hp.setRevents _, nofun⟩]
    | iterate =>
      obtain ⟨i, rfl : ctl = .loop i⟩ := he
      refine ⟨hp, ?_⟩
      rcases iterate_cases hp i with ⟨-, h⟩ | ⟨_, -, -, h⟩ | ⟨_, _, -, -, -, h⟩ <;>
        simp [machine, h]
    | ret =>
      obtain ⟨i, fd, cb, rfl : ctl = .call i fd cb⟩ := he
      exact ⟨hp, nofun⟩
  can s e hs he := by
    obtain ⟨m, ctl⟩ := s
    cases e with
    | register | deregister => exact ⟨trivial, trivial⟩
    | poll | ret => exact trivial
    | iterate =>
      obtain ⟨i, rfl : ctl = .loop i⟩ := he
      rcases iterate_cases hs.paired i with ⟨-, h⟩ | ⟨_, -, -, h⟩ | ⟨_, _, hi, hc, -, h⟩
      · simp [toRegistry, h]
      · simp [toRegistry, h]
      · simpa [toRegistry, h, Registry.machine] using mem_pairs hi hc
  next s e hs he := by
    obtain ⟨m, ctl⟩ := s
    cases e with
    | register fd cb r => exact pairs_registerFd hs.paired fd cb r
    | deregister fd => exact pairs_deregisterFd hs.paired fd
    | poll ret revents =>
      simp only [machine]
      split_ifs
      exacts [rfl, pairs_setRevents _, pairs_setRevents _]
    | iterate =>
      obtain ⟨i, rfl : ctl = .loop i⟩ := he
      rcases iterate_cases hs.paired i with ⟨-, h⟩ | ⟨_, -, -, h⟩ | ⟨_, _, -, -, -, h⟩ <;>
        simp [machine, toRegistry, h, Registry.machine]
    | ret =>
      obtain ⟨i, fd, cb, rfl : ctl = .call i fd cb⟩ := he
      rfl

/-- The pairs of the object, and the one whose callback is running, were
    registered. -/
def Known (es : List (Ev C)) (s : St C) : Prop :=
  ∀ fd cb, ((fd, cb) ∈ s.mux.pairs ∨ ∃ i, s.ctl = .call i fd cb) → ∃ r, .register fd cb r ∈ es

theorem Known.step {es : List (Ev C)} {s : St C} {e : Ev C} (h : Known es s) (hs : Inv s)
    (he : (machine C).can s e) : Known (es ++ [e]) ((machine C).next s e) := by
  have old : ∀ fd cb, ((fd, cb) ∈ s.mux.pairs ∨ ∃ i, s.ctl = .call i fd cb) →
      ∃ r, .register fd cb r ∈ es ++ [e] := fun fd cb hp => by
    obtain ⟨r, hr⟩ := h fd cb hp
    exact ⟨r, List.mem_append_left _ hr⟩
  obtain ⟨m, ctl⟩ := s
  cases e with
  | register fd cb r =>
    rintro fd' cb' (hp | hc)
    · rw [machine, pairs_registerFd hs.paired, Registry.mem_register] at hp
      rcases hp with hp | hp
      · exact old fd' cb' (Or.inl hp)
      · cases hp; exact ⟨r, by simp⟩
    · exact old fd' cb' (Or.inr hc)
  | deregister fd =>
    rintro fd' cb' (hp | hc)
    · rw [machine, pairs_deregisterFd hs.paired] at hp
      exact old fd' cb' (Or.inl (Registry.mem_of_mem_deregister hp))
    · exact old fd' cb' (Or.inr hc)
  | poll ret revents =>
    simp only [machine]
    split_ifs
    · exact old
    · rintro fd' cb' (hp | hc)
      · rw [pairs_setRevents] at hp; exact old fd' cb' (Or.inl hp)
      · exact old fd' cb' (Or.inr hc)
    · rintro fd' cb' (hp | ⟨_, hc⟩)
      · rw [pairs_setRevents] at hp; exact old fd' cb' (Or.inl hp)
      · cases hc
  | iterate =>
    obtain ⟨i, rfl : ctl = .loop i⟩ := he
    rintro fd' cb' (hp | ⟨j, hc⟩)
    · exact old fd' cb' (Or.inl hp)
    · change m.iterate i = _ at hc
      rcases iterate_cases hs.paired i with ⟨-, h'⟩ | ⟨_, -, -, h'⟩ | ⟨item, cb, hi, hb, -, h'⟩ <;>
        rw [h'] at hc <;> cases hc
      exact old _ _ (Or.inl (mem_pairs hi hb))
  | ret =>
    obtain ⟨i, fd, cb, rfl : ctl = .call i fd cb⟩ := he
    rintro fd' cb' (hp | ⟨_, hc⟩)
    · exact old fd' cb' (Or.inl hp)
    · cases hc

/-- **The two vectors are one registry at every point**: after any calls of
    `register_fd`, `deregister_fd` and `Poll`, those made by callbacks in the
    middle of a pass included, the vectors have equal length and no `at` has
    thrown; every index holds a descriptor and a callback that were registered
    together, and so are those of a callback that is running; and the pairs are
    the registry that the calls leave, which every callback called was in. -/
theorem refines_registry (es : List (Ev C)) (h : (machine C).Can ⟨empty, .idle⟩ es) :
    let s := (machine C).run ⟨empty, .idle⟩ es
    let calls := (machine C).evs toRegistry ⟨empty, .idle⟩ es
    s.mux.pollItems.length = s.mux.cbLists.length ∧ s.ctl ≠ .thrown ∧
      (∀ (i : ℕ) (item : PollFd) (cb : C), s.mux.pollItems[i]? = some item →
        s.mux.cbLists[i]? = some cb → ∃ r, .register item.fd cb r ∈ es) ∧
      (∀ i fd cb, s.ctl = .call i fd cb → ∃ r, .register fd cb r ∈ es) ∧
      (Registry.machine Fd C).Can [] calls ∧
      s.mux.pairs = (Registry.machine Fd C).run [] calls := by
  intro s calls
  have hi : Inv (⟨empty, .idle⟩ : St C) := ⟨rfl, nofun⟩
  have hk₀ : Known [] (⟨empty, .idle⟩ : St C) := by
    rintro fd cb (hp | ⟨_, hc⟩)
    · exact absurd hp List.not_mem_nil
    · cases hc
  obtain ⟨hs, hk⟩ : Inv s ∧ Known es s :=
    h.inv_hist (I := fun es s => Inv s ∧ Known es s) ⟨hi, hk₀⟩
      fun es t e ht he => ⟨sim.inv t e ht.1 he, ht.2.step ht.1 he⟩
  obtain ⟨hcan, hrun⟩ := sim.run hi h
  exact ⟨hs.paired, hs.noThrow, fun i item cb hi hc => hk _ _ (Or.inl (mem_pairs hi hc)),
    fun i fd cb hc => hk _ _ (Or.inr ⟨i, hc⟩), hcan, hrun⟩

/-- A pass over two descriptors, in which the first callback deregisters its
    own descriptor and registers a third one. -/
def passEvents : List (Ev ℕ) :=
  [.register 3 0 0, .register 4 1 7, .poll 2 fun _ => pollIn, .iterate, .deregister 3,
    .register 5 2 1, .ret, .iterate]

theorem passEvents_can : (machine ℕ).Can ⟨empty, .idle⟩ passEvents :=
  ⟨Or.inl rfl, Or.inl rfl, rfl, ⟨0, rfl⟩, Or.inr ⟨0, 3, 0, rfl⟩, Or.inr ⟨0, 3, 0, rfl⟩,
    ⟨0, 3, 0, rfl⟩, ⟨1, rfl⟩, trivial⟩

/-- The pass goes on at index 1, where the third descriptor now is. -/
theorem refines_registry_pass :
    let s := (machine ℕ).run ⟨empty, .idle⟩ passEvents
    s.mux.pairs = [(4, 1), (5, 2)] ∧ s.ctl = .call 1 5 2 ∧
      s.mux.pollItems.length = s.mux.cbLists.length :=
  ⟨rfl, rfl, (refines_registry passEvents passEvents_can).1⟩

end IoMultiplex

end ProxyBroker
