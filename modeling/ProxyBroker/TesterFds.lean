/-
  The descriptors of the tester.

  A new connection to a SUT replaces the one before, which is closed but stays
  registered unless it has hung up.

  * `FdStep`: what a step does to the descriptors.
  * `Sound`: what is registered is open, and the SUT callback reads from the
    socket that owns its descriptor.
  * `sound_run_iff`: when this holds in every state of a run.
-/
import ProxyBroker.Tester

namespace ProxyBroker

namespace Tester

variable {t t' : Tester} {fd connFd : Fd} {e : TesterEv} {r : Setup}

/-- The descriptors that are registered are open, each is registered once, and
    the SUT callback reads from the socket that owns the descriptor it is called
    with. -/
structure Sound (t : Tester) : Prop where
  opened : ∀ fd ∈ t.ioMulti.fds, fd ∈ t.kernel.openFds
  nodup : t.ioMulti.fds.Nodup
  reads : ∀ fd recv buf r, t.Enabled (.call fd (.sutMsg recv buf r)) →
    t.testSocketServerConnect = some ⟨fd⟩

/-- When a SUT connects, the connection before is not registered any more. -/
def OldGone (t : Tester) : TesterEv → Prop
  | .call _ (.sutConnect connFd) =>
    0 ≤ connFd → ∀ old ∈ t.testSocketServerConnect, old.sockFd ∉ t.ioMulti.fds
  | .call _ (.userCmd ..) | .call _ (.sutMsg ..) | .call _ (.sctpMsg ..) | .leave _ => True

instance (t : Tester) : ∀ e, Decidable (t.OldGone e)
  | .call _ (.sutConnect _) => inferInstanceAs (Decidable (_ → ∀ _ ∈ _, _))
  | .call _ (.userCmd ..) | .call _ (.sutMsg ..) | .call _ (.sctpMsg ..) | .leave _ => isTrue trivial

/-! ## Steps -/

/-- What a step does to the descriptors. -/
inductive FdStep (t : Tester) (e : TesterEv) (t' : Tester) : Prop
  /-- at most the table of the kernel grows -/
  | kept (he : t.OldGone e) (hio : t'.ioMulti = t.ioMulti)
      (hk : t.kernel.openFds ⊆ t'.kernel.openFds)
      (hs : t'.testSocketServerConnect = t.testSocketServerConnect)
  /-- a descriptor is deregistered -/
  | deregistered (he : t.OldGone e) (fd : Fd) (hio : t'.ioMulti = t.ioMulti.deregister fd)
      (hk : t.kernel.openFds ⊆ t'.kernel.openFds)
      (hs : t'.testSocketServerConnect = t.testSocketServerConnect)
  /-- a test case opens a connection -/
  | tested (he : t.OldGone e) (fd : Fd) (obj : ℕ) (hfd : t.kernel.Fresh fd)
      (hio : t'.ioMulti = t.ioMulti.register fd (.sctpMsg obj))
      (hk : t'.kernel.openFds = insert fd t.kernel.openFds)
      (hs : t'.testSocketServerConnect = t.testSocketServerConnect)
  /-- a SUT connects -/
  | connected (fd connFd : Fd) (he : e = .call fd (.sutConnect connFd))
      (hfd : t.kernel.Fresh connFd) (ht : t' = t.connected connFd)

/-- A test case opens a connection, or fails. -/
theorem testCase_fdStep (he : t.OldGone e) (hr : t.kernel.MayReturn r.fd)
    (hio : t'.ioMulti = t.ioMulti) (hk : t'.kernel = t.kernel)
    (hs : t'.testSocketServerConnect = t.testSocketServerConnect) :
    FdStep t e ((testCase r).final t') := by
  rcases testCase_run r t' with ⟨h₀, ep, hrun⟩ | ⟨k, hrun, hopen⟩
  · rw [Proc.final_ok hrun]
    refine .tested he r.fd t'.nextObj (hr.fresh h₀) (by rw [← hio]; rfl) ?_ hs
    dsimp only
    split_ifs <;> simp [Tester.tested, hk]
  · rw [Proc.final_error hrun]
    refine .kept he hio ?_ hs
    rw [← hk]
    rcases hopen with rfl | rfl | rfl
    · exact Finset.Subset.refl _
    · exact Finset.subset_insert _ _
    · exact Finset.subset_insert _ _

theorem sutConnect_fdStep (hfd : t.kernel.MayReturn connFd) :
    FdStep t (.call fd (.sutConnect connFd)) ((sutConnectHandler connFd).final t) := by
  have hrun := sutConnectHandler_run connFd t
  split_ifs at hrun with h
  · rw [Proc.final_error hrun]
    exact .kept (fun h₀ => absurd h (not_lt.2 h₀)) rfl (Finset.Subset.refl _) rfl
  · rw [Proc.final_ok hrun]
    exact .connected fd connFd rfl (hfd.fresh (not_lt.1 h)) rfl

theorem userCmd_fdStep (buf : Char) (hr : t.kernel.MayReturn r.fd) :
    FdStep t (.call fd (.userCmd buf r)) ((readUserCmd buf r).final t) := by
  rcases readUserCmd_final buf r t with ⟨b, hfinal⟩ | ⟨-, hfinal⟩
  · rw [hfinal]
    exact .kept trivial rfl (Finset.Subset.refl _) rfl
  · rw [hfinal]
    exact testCase_fdStep trivial hr rfl rfl rfl

theorem sutMsg_fdStep (recv : Option (List Byte × Option Fd)) (buf : Vector Byte maxBuffer)
    (hr : t.kernel.MayReturn r.fd) :
    FdStep t (.call fd (.sutMsg recv buf r)) ((sutMsg fd recv buf r).final t) := by
  rcases sutMsg_final fd recv buf r t with hfinal | ⟨k, hk, hfinal⟩ | ⟨-, hfinal⟩
  · rw [hfinal]
    exact .kept trivial rfl (Finset.Subset.refl _) rfl
  · rw [hfinal]
    refine .deregistered trivial fd rfl ?_ rfl
    rcases hk with rfl | ⟨fd', rfl⟩
    · exact Finset.Subset.refl _
    · exact Finset.subset_insert _ _
  · rw [hfinal]
    exact testCase_fdStep trivial hr rfl rfl rfl

theorem leave_fdStep (w : Word) : FdStep t (.leave w) ((leave w).final t) := by
  obtain ⟨k, hfinal, hk⟩ := leave_final w t
  rw [hfinal]
  refine .kept trivial rfl ?_ rfl
  rcases hk with rfl | ⟨s, rfl⟩
  · exact Finset.Subset.refl _
  · unfold DomainSocket.wrote
    split_ifs <;> exact Finset.Subset.refl _

/-- **What a step of the tester does to the descriptors.** -/
theorem next_fdStep (p : Process Tester) (he : p.st.Enabled e) :
    FdStep p.st e (machine.next p e).st := by
  rw [show machine.next p e = Process.exec (code e) p from rfl, Process.st_exec]
  cases e with
  | call fd c =>
    have hposs := he.2.2
    cases c with
    | sutConnect connFd => exact sutConnect_fdStep hposs
    | userCmd buf r => exact userCmd_fdStep buf hposs
    | sutMsg recv buf r => exact sutMsg_fdStep recv buf hposs.1
    | sctpMsg obj rs buf =>
      have hsame : (code (.call fd (.sctpMsg obj rs buf))).final p.st = p.st :=
        sctpMsg_final obj rs buf p.st
      rw [hsame]
      exact .kept trivial rfl (Finset.Subset.refl _) rfl
  | leave w => exact leave_fdStep w

/-! ## The invariant -/

/-- What holds as long as no connection is replaced that is still
    registered. -/
structure Inv (t : Tester) : Prop where
  opened : ∀ fd ∈ t.ioMulti.fds, fd ∈ t.kernel.openFds
  nodup : t.ioMulti.fds.Nodup
  reads : ∀ fd, (fd, .sutMsg) ∈ t.ioMulti → t.testSocketServerConnect = some ⟨fd⟩
  /-- the connection is open, and it is not the standard input -/
  connection : ∀ s ∈ t.testSocketServerConnect, s.sockFd ∈ t.kernel.openFds ∧ 0 < s.sockFd
  stdin : stdin ∈ t.kernel.openFds

theorem Inv.sound (h : t.Inv) : t.Sound where
  opened := h.opened
  nodup := h.nodup
  reads fd _ _ _ he := h.reads fd he.2.1

/-- A fresh descriptor is not registered. -/
theorem Inv.notMem (h : t.Inv) (hfd : t.kernel.Fresh fd) : fd ∉ t.ioMulti.fds :=
  fun hm => hfd.2 (h.opened fd hm)

theorem Inv.pos (h : t.Inv) (hfd : t.kernel.Fresh fd) : 0 < fd := by
  refine lt_of_le_of_ne hfd.1 ?_
  rintro rfl
  exact hfd.2 h.stdin

/-- What is open when a SUT has connected. -/
theorem Inv.mem_connected (h : t.Inv) {a : Fd} : a ∈ (t.connected connFd).kernel.openFds ↔
    (a = connFd ∨ a ∈ t.kernel.openFds) ∧ ∀ old ∈ t.testSocketServerConnect, a ≠ old.sockFd := by
  rw [connected, closeOld]
  cases hs : t.testSocketServerConnect with
  | none => simp
  | some old =>
    have hpos := (h.connection old hs).2
    simp [hpos, and_comm]

/-- **A connection that replaces none that is registered keeps the
    invariant.** -/
theorem Inv.connected (h : t.Inv) (hfd : t.kernel.Fresh connFd)
    (hold : ∀ old ∈ t.testSocketServerConnect, old.sockFd ∉ t.ioMulti.fds) :
    (t.connected connFd).Inv where
  opened a ha := by
    obtain ⟨cb, hcb⟩ := Registry.mem_fds.1 ha
    rw [h.mem_connected]
    rcases Registry.mem_register.1 hcb with hm | hm
    · have hmem : a ∈ t.ioMulti.fds := Registry.mem_fds.2 ⟨cb, hm⟩
      refine ⟨Or.inr (h.opened a hmem), ?_⟩
      rintro old hs rfl
      exact hold old hs hmem
    · obtain rfl : a = connFd := congrArg Prod.fst hm
      refine ⟨Or.inl rfl, ?_⟩
      rintro old hs rfl
      exact hfd.2 (h.connection old hs).1
  nodup := Registry.nodup_register h.nodup (h.notMem hfd)
  reads a ha := by
    rcases Registry.mem_register.1 ha with hm | hm
    · exact absurd (Registry.mem_fds.2 ⟨_, hm⟩) (hold ⟨a⟩ (h.reads a hm))
    · obtain rfl : a = connFd := congrArg Prod.fst hm
      rfl
  connection s hs := by
    obtain rfl : ⟨connFd⟩ = s := Option.some.inj hs
    refine ⟨h.mem_connected.2 ⟨Or.inl rfl, ?_⟩, h.pos hfd⟩
    intro old hm heq
    have hsame : connFd = old.sockFd := heq
    rw [hsame] at hfd
    exact hfd.2 (h.connection old hm).1
  stdin := by
    refine h.mem_connected.2 ⟨Or.inr h.stdin, fun old hs => ?_⟩
    exact (h.connection old hs).2.ne

/-- A connection that replaces one that is registered leaves a descriptor that
    is closed. -/
theorem Inv.not_sound_connected (h : t.Inv) {old : DomainSocket}
    (hs : t.testSocketServerConnect = some old) (hm : old.sockFd ∈ t.ioMulti.fds) :
    ¬ (t.connected connFd).Sound := by
  intro hsound
  obtain ⟨cb, hcb⟩ := Registry.mem_fds.1 hm
  have hmem : old.sockFd ∈ (t.connected connFd).ioMulti.fds :=
    Registry.mem_fds.2 ⟨cb, Registry.mem_register.2 (Or.inl hcb)⟩
  exact (h.mem_connected.1 (hsound.opened _ hmem)).2 old hs rfl

/-- Descriptors are deregistered, if anything, and the rest stays open. -/
theorem Inv.shrink (h : t.Inv) (hio : t'.ioMulti.Sublist t.ioMulti)
    (hk : t.kernel.openFds ⊆ t'.kernel.openFds)
    (hs : t'.testSocketServerConnect = t.testSocketServerConnect) : t'.Inv where
  opened fd hm := hk (h.opened fd ((hio.map Prod.fst).subset hm))
  nodup := h.nodup.sublist (hio.map Prod.fst)
  reads fd hm := by
    rw [hs]
    exact h.reads fd (hio.subset hm)
  connection s hm := by
    rw [hs] at hm
    exact ⟨hk (h.connection s hm).1, (h.connection s hm).2⟩
  stdin := hk h.stdin

/-- A test case registers the connection that it opens. -/
theorem Inv.tested {obj : ℕ} (h : t.Inv) (hfd : t.kernel.Fresh fd)
    (hio : t'.ioMulti = t.ioMulti.register fd (.sctpMsg obj))
    (hk : t'.kernel.openFds = insert fd t.kernel.openFds)
    (hs : t'.testSocketServerConnect = t.testSocketServerConnect) : t'.Inv where
  opened a ha := by
    obtain ⟨cb, hcb⟩ := Registry.mem_fds.1 ha
    rw [hio] at hcb
    rw [hk, Finset.mem_insert]
    rcases Registry.mem_register.1 hcb with hm | hm
    · exact Or.inr (h.opened a (Registry.mem_fds.2 ⟨cb, hm⟩))
    · exact Or.inl (congrArg Prod.fst hm)
  nodup := by
    rw [hio]
    exact Registry.nodup_register h.nodup (h.notMem hfd)
  reads a ha := by
    rw [hio] at ha
    rw [hs]
    rcases Registry.mem_register.1 ha with hm | hm
    · exact h.reads a hm
    · cases congrArg Prod.snd hm
  connection s hm := by
    rw [hs] at hm
    rw [hk]
    exact ⟨Finset.mem_insert_of_mem (h.connection s hm).1, (h.connection s hm).2⟩
  stdin := by
    rw [hk]
    exact Finset.mem_insert_of_mem h.stdin

/-- **A step keeps the invariant**, or it breaks what the invariant is for. -/
theorem Inv.step (h : t.Inv) (hstep : FdStep t e t') :
    (t.OldGone e ∧ t'.Inv) ∨ (¬ t.OldGone e ∧ ¬ t'.Sound) := by
  cases hstep with
  | kept he hio hk hs =>
    refine Or.inl ⟨he, h.shrink ?_ hk hs⟩
    rw [hio]
  | deregistered he fd hio hk hs =>
    refine Or.inl ⟨he, h.shrink ?_ hk hs⟩
    rw [hio]
    exact List.eraseP_sublist
  | tested he fd obj hfd hio hk hs => exact Or.inl ⟨he, h.tested hfd hio hk hs⟩
  | connected fd connFd he hfd ht =>
    subst he ht
    by_cases hold : ∀ old ∈ t.testSocketServerConnect, old.sockFd ∉ t.ioMulti.fds
    · exact Or.inl ⟨fun _ => hold, h.connected hfd hold⟩
    · refine Or.inr ⟨fun hg => hold (hg hfd.1), ?_⟩
      push Not at hold
      obtain ⟨old, hs, hm⟩ := hold
      exact h.not_sound_connected hs hm

/-! ## Runs -/

variable {listen : Fd} {es : List TesterEv}

theorem init_inv (hl : Kernel.start.Fresh listen) : (init listen).st.Inv where
  opened := by simp [init, Registry.fds, Kernel.start, Tester.stdin]
  nodup := by
    have hne : listen ≠ Tester.stdin := by
      rintro rfl
      exact hl.2 (by decide)
    simp [init, Registry.fds, hne]
  reads := by simp [init]
  connection := by simp [init]
  stdin := by simp [init, Kernel.start, Tester.stdin]

/-- **The descriptors are sound in every state of a run exactly if** each SUT
    that connects finds the connection before it deregistered. -/
theorem sound_run_iff (hl : Kernel.start.Fresh listen) (hc : machine.Can (init listen) es) :
    (∀ es', es' <+: es → (machine.run (init listen) es').st.Sound) ↔
      machine.All (fun p e => p.st.OldGone e) (init listen) es :=
  hc.good_iff (I := fun p => p.st.Inv) (G := fun p => p.st.Sound) (init_inv hl)
    (fun _ h => h.sound) fun p _ h he => h.step (next_fdStep p he.2)

/-- A SUT hangs up before the next one connects. -/
theorem sound_run_iff_next :
    let es : List TesterEv := [.call 3 (.sutConnect 4),
      .call 4 (.sutMsg (some ([], none)) (.replicate maxBuffer 0) ⟨-1, false, false⟩),
      .call 3 (.sutConnect 5)]
    machine.All (fun p e => p.st.OldGone e) (init 3) es ∧
      ∀ es', es' <+: es → (machine.run (init 3) es').st.Sound := by
  intro es
  have hall : machine.All (fun p e => p.st.OldGone e) (init 3) es := by decide
  exact ⟨hall, (sound_run_iff (by decide) (by decide)).2 hall⟩

/-- A second SUT connects: the first descriptor is closed and registered. -/
theorem unsound_second : ¬ ∀ (listen : Fd) (es : List TesterEv), Kernel.start.Fresh listen →
    machine.Can (init listen) es → (machine.run (init listen) es).st.Sound := by
  intro h
  have hsound := h 3 [.call 3 (.sutConnect 4), .call 3 (.sutConnect 5)] (by decide) (by decide)
  exact absurd (hsound.opened 4 (by decide)) (by decide)

end Tester

end ProxyBroker
