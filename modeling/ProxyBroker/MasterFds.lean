/-
  The descriptors of the master: the three tables agree.

  The registry, `workers_socket_connect` and the open descriptors of the
  process are changed by different handlers, and a hang-up changes only the
  first.

  * `Fds`: a descriptor is registered at most once, and the open descriptors
    are the standard ones, those of the master's sockets, and the connection
    that is being handed on.
  * `tidy_run`: what this says in every state of a run.
-/
import ProxyBroker.MasterRuns

namespace ProxyBroker

namespace Master

variable {m m' : Master} {fd : Fd} {r : Setup} {msgId : Word} {e : MasterEv}

/-- What is registered belongs to a socket of the master. -/
theorem Inv.owns_of_mem (h : m.Inv) (hfd : fd ∈ m.ioMulti.fds) : m.Owns fd := by
  obtain ⟨cb, hcb⟩ := Registry.mem_fds.1 hfd
  cases cb with
  | testMsg => exact Or.inl (h.testMsg fd hcb)
  | workerConnect => exact Or.inr (Or.inl (h.workerConnect fd hcb))
  | workerMsg => exact Or.inr (Or.inr (Or.inl (h.workerMsg fd hcb)))
  | sctpMsg => exact Or.inr (Or.inr (Or.inr ⟨_, h.sctpMsg fd hcb, rfl⟩))

/-- A new descriptor is not registered. -/
theorem Inv.notMem_of_fresh (h : m.Inv) (hfd : m.kernel.Fresh fd) : fd ∉ m.ioMulti.fds :=
  fun hm => hfd.2 (h.owned fd (h.owns_of_mem hm))

theorem owns_joined (a : Fd) : (m.joined fd).Owns a ↔ m.Owns a ∨ a = fd := by
  simp only [Owns, joined_get?]
  by_cases ha : fd = a
  · simp [ha]
  · simp only [if_neg ha, Ne.symm ha, or_false]
    rfl

theorem owns_ready (hs : m.sctpEndpoint = none) (a : Fd) :
    (m.ready r).Owns a ↔ m.Owns a ∨ a = r.fd := by
  simp only [Owns, ready, hs, Option.mem_def, Option.some.injEq, reduceCtorEq, false_and,
    exists_false, or_false, exists_eq_left', or_assoc]
  rw [eq_comm (a := r.fd)]

/-- The handler for new connections hands `fd` on. -/
def Offers (m : Master) (fd : Fd) : Prop := ∃ rest, m.ctl = .offer fd rest

/-- What holds of the descriptors between two events, besides `Inv`. -/
structure Fds (m : Master) : Prop where
  nodup : m.ioMulti.fds.Nodup
  opened : ∀ fd, fd ∈ m.kernel.openFds ↔
    fd ∈ Kernel.start.openFds ∨ m.Owns fd ∨ (m.Offers fd ∧ 0 ≤ fd)
  offered : ∀ fd, m.Offers fd → fd ∉ Kernel.start.openFds

namespace Fds

variable (h : m.Fds)
include h

/-- Nothing is handed on in the poll loop. -/
theorem opened_of_poll (hctl : m.ctl = .poll) (fd : Fd) :
    fd ∈ m.kernel.openFds ↔ fd ∈ Kernel.start.openFds ∨ m.Owns fd := by
  rw [h.opened fd]
  simp [Offers, hctl]

/-- The standard descriptors stay open, so a new one is none of them. -/
theorem notMem_start (hfd : m.kernel.MayReturn fd) : fd ∉ Kernel.start.openFds := by
  rcases hfd with rfl | hfd
  · decide
  · intro hm
    exact hfd.2 ((h.opened fd).2 (Or.inl hm))

theorem joined (hinv : m.Inv) (hctl : m.ctl = .poll) (hfd : m.kernel.Fresh fd) :
    (m.joined fd).Fds where
  nodup := Registry.nodup_register h.nodup (hinv.notMem_of_fresh hfd)
  opened a := by
    have hno : ¬ (m.joined fd).Offers a := by
      rintro ⟨rest, hr⟩
      cases hr.symm.trans hctl
    simp only [Master.owns_joined, hno, false_and, or_false]
    rw [show (m.joined fd).kernel.openFds = insert fd m.kernel.openFds from rfl,
      Finset.mem_insert, h.opened_of_poll hctl]
    tauto
  offered a := by
    rintro ⟨rest, hr⟩
    cases hr.symm.trans hctl

theorem ready (hinv : m.Inv) (hctl : m.ctl = .poll) (hfd : m.kernel.Fresh r.fd)
    (hs : m.sctpEndpoint = none) : (m.ready r).Fds where
  nodup := Registry.nodup_register h.nodup (hinv.notMem_of_fresh hfd)
  opened a := by
    have hno : ¬ (m.ready r).Offers a := by
      rintro ⟨rest, hr⟩
      cases hr.symm.trans hctl
    simp only [Master.owns_ready hs, hno, false_and, or_false]
    rw [show (m.ready r).kernel.openFds = insert r.fd m.kernel.openFds from rfl,
      Finset.mem_insert, h.opened_of_poll hctl]
    tauto
  offered a := by
    rintro ⟨rest, hr⟩
    cases hr.symm.trans hctl

theorem accepted (hctl : m.ctl = .poll) (hfd : m.kernel.MayReturn fd) : (m.accepted fd).Fds where
  nodup := h.nodup
  opened a := by
    have hof : (m.accepted fd).Offers a ↔ a = fd := by
      simp [Offers, Master.accepted, eq_comm]
    rw [hof, show (m.accepted fd).Owns a ↔ m.Owns a from Iff.rfl]
    have hopen := h.opened_of_poll hctl a
    unfold Master.accepted
    split_ifs with h₀
    · rw [show (m.kernel.opened fd).openFds = insert fd m.kernel.openFds from rfl,
        Finset.mem_insert, hopen]
      constructor
      · rintro (rfl | ha | ha)
        · exact Or.inr (Or.inr ⟨rfl, h₀⟩)
        · exact Or.inl ha
        · exact Or.inr (Or.inl ha)
      · rintro (ha | ha | ⟨ha, -⟩)
        · exact Or.inr (Or.inl ha)
        · exact Or.inr (Or.inr ha)
        · exact Or.inl ha
    · rw [hopen]
      constructor
      · intro ha
        exact ha.imp_right Or.inl
      · rintro (ha | ha | ⟨rfl, ha⟩)
        · exact Or.inl ha
        · exact Or.inr ha
        · exact absurd ha h₀
  offered a := by
    rintro ⟨rest, hr⟩
    cases hr
    exact h.notMem_start hfd

/-- The handler goes on with the same connection. -/
theorem handed {p : Fd × DomainSocket} {rest : List (Fd × DomainSocket)}
    (hctl : m.ctl = .offer fd (p :: rest)) (sock : Fd) : (m.handed sock fd rest).Fds := by
  have hof : ∀ a, (m.handed sock fd rest).Offers a ↔ m.Offers a := by
    intro a
    simp [Offers, Master.handed, hctl]
  refine ⟨h.nodup, fun a => ?_, fun a ha => h.offered a ((hof a).1 ha)⟩
  rw [hof]
  exact h.opened a

/-- It returns, and the connection is closed. -/
theorem offered_done (hinv : m.Inv) (hctl : m.ctl = .offer fd []) : (m.offered fd).Fds where
  nodup := h.nodup
  opened a := by
    have hno : ¬ (m.offered fd).Offers a := by
      rintro ⟨rest, hr⟩
      cases hr
    have hof : m.Offers a ↔ a = fd := by simp [Offers, hctl, eq_comm]
    have hfd := h.offered fd ⟨_, hctl⟩
    have hown := (hinv.offering fd _ hctl).1
    have hopen := h.opened a
    rw [hof] at hopen
    rw [show (m.offered fd).kernel.openFds = m.kernel.openFds.erase fd from rfl,
      Finset.mem_erase, hopen, show (m.offered fd).Owns a ↔ m.Owns a from Iff.rfl]
    by_cases ha : a = fd
    · subst ha
      simp [hfd, hown, hno]
    · simp [ha, hno]
  offered a := by
    rintro ⟨rest, hr⟩
    cases hr

theorem of_eq (hio : m'.ioMulti = m.ioMulti) (hk : m'.kernel.openFds = m.kernel.openFds)
    (ho : ∀ fd, m'.Owns fd ↔ m.Owns fd) (hctl : m'.ctl = m.ctl) : m'.Fds := by
  have hof : ∀ fd, m'.Offers fd ↔ m.Offers fd := by simp [Offers, hctl]
  refine ⟨hio ▸ h.nodup, fun fd => ?_, fun fd hfd => h.offered fd ((hof fd).1 hfd)⟩
  rw [hk, ho, hof]
  exact h.opened fd

theorem counted : (m.counted msgId).Fds := h.of_eq rfl rfl (fun _ => Iff.rfl) rfl

/-- The poll loop has been left; the handler for new connections was not
    running. -/
theorem waiting (hctl : m.ctl = .poll) (hk : m'.kernel.openFds = m.kernel.openFds)
    (hio : m'.ioMulti = m.ioMulti) (ho : ∀ fd, m'.Owns fd ↔ m.Owns fd) (hw : m'.ctl = .wait) :
    m'.Fds := by
  have hno : ∀ fd, ¬ m'.Offers fd := by simp [Offers, hw]
  refine ⟨hio ▸ h.nodup, fun fd => ?_, fun fd hfd => absurd hfd (hno fd)⟩
  rw [hk, ho, h.opened_of_poll hctl]
  simp [hno]

end Fds

/-- **Every event keeps the tables in agreement.** -/
theorem Change.fds (hc : m.Change e m') (he : m.Enabled e) (hinv : m.Inv) (h : m.Fds) : m'.Fds := by
  cases hc with
  | told hm => exact h.of_eq rfl rfl (fun _ => Iff.rfl) rfl
  | joined hctl hfd => exact h.joined hinv hctl hfd
  | deregistered =>
    exact ⟨Registry.nodup_deregister h.nodup, h.opened, h.offered⟩
  | counted hm hb => exact h.counted
  | ready hctl hfd hm hb hr hs =>
    exact h.counted.ready hinv.counted hctl hfd hs
  | accepted hctl hfd => exact h.accepted hctl hfd
  | handed hctl => exact h.handed hctl _
  | offered hctl => exact h.offered_done hinv hctl
  | waiting => exact h.waiting he.1 rfl rfl (fun _ => Iff.rfl) rfl
  | toldWorker =>
    refine h.waiting he.1 ?_ rfl (fun _ => Iff.rfl) rfl
    unfold Master.toldWorker DomainSocket.wrote
    split_ifs <;> rfl
  | hungUp => exact h.of_eq rfl rfl (fun _ => Iff.rfl) rfl

/-! ## Runs -/

variable {pid : Word} {workers : WorkersPid} {b : Boot} {es : List MasterEv}

theorem Fds.connected : (connected pid workers b).Fds where
  nodup := List.nodup_singleton _
  opened a := by
    simp only [Master.connected, Kernel.openFds_opened, Finset.mem_insert, Owns, Offers, blank]
    simp [or_comm]
  offered a := by
    rintro ⟨rest, hr⟩
    cases hr

theorem Fds.listening (h : m.Fds) (hinv : m.Inv) (hctl : m.ctl = .poll) (hfd : m.kernel.Fresh fd)
    (hl : m.workerSocketListen = none) : (m.listening fd).Fds where
  nodup := Registry.nodup_register h.nodup (hinv.notMem_of_fresh hfd)
  opened a := by
    have hno : ¬ (m.listening fd).Offers a := by
      rintro ⟨rest, hr⟩
      cases hr.symm.trans hctl
    have hown : (m.listening fd).Owns a ↔ m.Owns a ∨ a = fd := by
      simp only [Owns, Master.listening, hl, Option.some.injEq, DomainSocket.mk.injEq,
        reduceCtorEq, false_or]
      rw [eq_comm (a := fd), or_assoc]
      exact or_congr_right or_comm
    rw [show (m.listening fd).kernel.openFds = insert fd m.kernel.openFds from rfl,
      Finset.mem_insert, h.opened_of_poll hctl, hown]
    tauto
  offered a := by
    rintro ⟨rest, hr⟩
    cases hr.symm.trans hctl

theorem init_fds (hb : b.Possible) (h : (init pid workers b).halted = none) :
    (init pid workers b).st.Fds := by
  rcases construct_cases pid workers b with ⟨e, m, he⟩ | ⟨ht, ⟨hw, hl, hrun⟩ | ⟨hw, hr, hrun⟩⟩
  · rw [init, Process.exec_error he] at h; cases h
  · rw [init, Process.exec_ok hrun]
    have hfd := hb.2.1.fresh hl
    exact Fds.connected.listening (Inv.connected ht) rfl hfd rfl
  · rw [init, Process.exec_ok hrun]
    have hfd := hb.2.2.fresh hr.1.1
    exact Fds.connected.ready (Inv.connected ht) rfl hfd rfl

/-- The tables agree, and no handler is in for a surprise. -/
structure Tidy (m : Master) : Prop where
  /-- a descriptor with the worker callback is a key of the map, for a socket
      that owns it, and it is open -/
  worker : ∀ fd, (fd, .workerMsg) ∈ m.ioMulti →
    m.workersSocketConnect[fd]? = some ⟨fd⟩ ∧ fd ∈ m.kernel.openFds
  /-- no descriptor is registered twice -/
  nodup : m.ioMulti.fds.Nodup
  /-- the insert of `woker_connect_handler` meets no key -/
  inserts : ∀ fd connFd, m.Enabled (.call fd (.workerConnect connFd)) → 0 ≤ connFd →
    m.workersSocketConnect[connFd]? = none
  /-- `at` finds the descriptor of the call -/
  found : ∀ fd bytes r, m.Enabled (.call fd (.workerMsg bytes r)) →
    (m.workersSocketConnect[fd]?).isSome
  /-- outside of the handler for new connections, what is open is standard or
      one of the master's own sockets -/
  closed : (∀ fd, ¬ m.Offers fd) → ∀ fd, fd ∈ m.kernel.openFds ↔
    fd ∈ Kernel.start.openFds ∨ m.Owns fd

theorem Fds.tidy (h : m.Fds) (hinv : m.Inv) : m.Tidy where
  worker fd hfd := by
    obtain ⟨s, hs⟩ := Option.isSome_iff_exists.1 (hinv.workerMsg fd hfd)
    obtain rfl := hinv.workers fd s hs
    exact ⟨hs, hinv.owned fd (Or.inr (Or.inr (Or.inl (by simp [hs]))))⟩
  nodup := h.nodup
  inserts fd connFd he h₀ := hinv.get?_of_mayReturn he.2.2
  found fd bytes r he := hinv.workerMsg fd he.2.1
  closed hno fd := by
    rw [h.opened fd]
    simp [hno fd]

/-- What a run leaves, unless it has ended the master. -/
theorem run_fds (hb : b.Possible) (hc : machine.Can (init pid workers b) es) :
    (machine.run (init pid workers b) es).halted = none →
      (machine.run (init pid workers b) es).st.Inv ∧
      (machine.run (init pid workers b) es).st.Fds := by
  refine hc.inv (I := fun p => p.halted = none → p.st.Inv ∧ p.st.Fds) ?_ ?_
  · intro hup
    exact ⟨(init_started hb hup).1.inv, init_fds hb hup⟩
  · intro p e hp he hup
    obtain ⟨hinv, hfds⟩ := hp he.1
    rcases code_change hinv he.2 with ⟨-, m', hrun, hchange⟩ | ⟨-, o, m', hrun, -⟩
    · have hnext : machine.next p e = ⟨m', p.halted⟩ := Process.exec_ok hrun
      rw [hnext]
      exact ⟨hchange.inv hinv, hchange.fds he.2 hinv hfds⟩
    · have hnext : machine.next p e = ⟨m', some o⟩ := Process.exec_error hrun
      rw [hnext] at hup
      cases hup

/-- **The tables of the master agree in every state that it reaches before it
    exits.** -/
theorem tidy_run (hb : b.Possible) (hc : machine.Can (init pid workers b) es)
    (hup : (machine.run (init pid workers b) es).halted = none) :
    (machine.run (init pid workers b) es).st.Tidy := by
  obtain ⟨hinv, hfds⟩ := run_fds hb hc hup
  exact hfds.tidy hinv

/-- After the connection has been handed on, a second worker gets its number. -/
theorem tidy_run_reused :
    (machine.run (init 100 oneWorker boot) (oneClient ++ [.call 4 (.workerConnect 7)])).st.Tidy :=
  tidy_run (by decide) (by decide) (by decide)

end Master

end ProxyBroker
