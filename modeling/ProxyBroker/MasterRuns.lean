/-
  Runs of the master.

  * `leave_iff`: what `run` sends after the poll loop.
  * `stays_iff`: when the master stays in the poll loop.

  The barrier of `worker_msg_handler` has a file of its own (`Barrier`).
-/
import ProxyBroker.MasterSteps

namespace ProxyBroker

namespace Master

variable {m : Master} {pid : Word} {workers : WorkersPid} {b : Boot} {es : List MasterEv}

/-! ## Telling the workers to terminate -/

/-- The bytes of WORKER_TERMINATE, as they are on a connection. -/
def terminateCells (w : Word) : List Cell :=
  (SerializedMsg.ofMsg ⟨workerTerminateMsgId, w⟩).bytes.map fun c => (c, none)

/-- `run` gets to `wait_until_workers_closed` with exactly one WORKER_TERMINATE
    written to every worker connection. -/
def TellsAll (m : Master) (w : Word) : Prop :=
  ∃ m', (leave w).run m = .ok () m' ∧ m'.ctl = .wait ∧
    ∀ p ∈ m.workersSocketConnect.toList,
      m'.kernel.wire p.2.sockFd = m.kernel.wire p.2.sockFd ++ terminateCells w

theorem wire_wrote (k : Kernel) (s : DomainSocket) (sm : SerializedMsg) :
    (DomainSocket.wrote k s sm).wire s.sockFd =
      k.wire s.sockFd ++ if k.Live s.sockFd then sm.bytes.map fun c => (c, none) else [] := by
  unfold DomainSocket.wrote
  split_ifs
  · simp [Kernel.wire, Act.cells]
  · simp

/-- **Every worker is told exactly when there is at most one** and its end of
    the connection is there: the first call of the loop takes the message, and
    the second one has none. -/
theorem leave_iff (m : Master) (w : Word) :
    m.TellsAll w ↔ m.workersSocketConnect.size ≤ 1 ∧
      ∀ p ∈ m.workersSocketConnect.toList, m.kernel.Live p.2.sockFd := by
  rw [← Std.TreeMap.length_toList]
  unfold TellsAll
  rcases hl : m.workersSocketConnect.toList with _ | ⟨p, _ | ⟨q, rest⟩⟩
  · simp [leave_run_nil hl]
  · simp only [leave_run_one hl, List.mem_singleton, forall_eq, List.length_singleton, le_refl,
      true_and]
    constructor
    · rintro ⟨m', hm', -, hw⟩
      obtain rfl := (EStateM.Result.ok.inj hm').2
      by_contra hlive
      have := congrArg List.length hw
      simp [toldWorker, wire_wrote, hlive, terminateCells, InternalMsg.size] at this
    · intro hlive
      exact ⟨_, rfl, rfl, by simp [toldWorker, wire_wrote, hlive, terminateCells]⟩
  · simp [leave_run_more hl]

/-- A constructor whose descriptors are 3 and 4. -/
def boot : Boot := ⟨3, true, 4, true, ⟨-1, false, false⟩⟩

def twoWorkers : WorkersPid := ⟨[101, 102], by decide, by decide⟩

/-- Two workers connect, and the tester ends the test. -/
def twoJoin : List MasterEv :=
  [.call 4 (.workerConnect 5), .call 4 (.workerConnect 6),
    .call 3 (.testMsg (some (SerializedMsg.ofMsg ⟨masterTerminateMsgId, 0⟩).bytes))]

/-- With two workers up, the master aborts on its way out. -/
theorem leave_two :
    ¬ ∀ (pid : Word) (workers : WorkersPid) (b : Boot) (es : List MasterEv) (w : Word),
      machine.Can (init pid workers b) (es ++ [.leave w]) →
      (∀ p ∈ (machine.run (init pid workers b) es).st.workersSocketConnect.toList,
        (machine.run (init pid workers b) es).st.kernel.Live p.2.sockFd) →
      (machine.run (init pid workers b) es).st.TellsAll w := by
  intro h
  obtain ⟨m', hm', -, -⟩ := h 100 twoWorkers boot twoJoin 0 (by decide) (by decide)
  have hhalt : (Process.exec (leave 0)
      (machine.run (init 100 twoWorkers boot) twoJoin)).halted = some .abort := by decide
  have hup : (machine.run (init 100 twoWorkers boot) twoJoin).halted = none := by decide
  rw [Process.exec_ok hm'] at hhalt
  exact nomatch hup.symm.trans hhalt

/-! ## Staying in the poll loop -/

/-- The event is neither MASTER_TERMINATE nor the loss of the tester, whose
    connection is `test`. -/
def KeepsTester (test : Fd) : MasterEv → Prop
  | .call _ (.testMsg bytes) => ∃ msg, received bytes = some msg ∧ msg.msgId ≠ masterTerminateMsgId
  | .hangUp fd => fd ≠ test
  | _ => True

/-- The master is in the poll loop of `run`, or in a handler that it calls. -/
def Polling (p : Process Master) : Prop :=
  p.halted = none ∧ p.st.isMasterTerminated = false ∧ p.st.ctl ≠ .wait

/-- What an event needs for the master to stay: an accepted worker; from a
    worker a message with its id, and with its pid if it is WORKER_READY, or the
    end of the stream, and the system calls for a first listener if the barrier
    is reached; and while a connection is handed to the workers, a descriptor
    for it and a next worker that is there. -/
def Sound (p : Process Master) : MasterEv → Prop
  | .call _ (.workerConnect connFd) => 0 ≤ connFd
  | .call _ (.workerMsg bytes r) =>
    match handledId bytes with
    | some msgId => (p.st.counted msgId).Barrier →
        p.st.sctpEndpoint = none ∧ 0 ≤ r.fd ∧ r.optSet ∧ r.ok
    | none => bytes = some []
  | .offer =>
    match p.st.ctl with
    | .offer fd (q :: _) => p.st.kernel.Live q.2.sockFd ∧ fd ∈ p.st.kernel.openFds
    | _ => True
  | _ => True

instance (p : Process Master) : ∀ e, Decidable (Sound p e)
  | .call _ (.workerMsg bytes r) =>
    match h : handledId bytes with
    | some msgId => decidable_of_iff ((p.st.counted msgId).Barrier →
        p.st.sctpEndpoint = none ∧ 0 ≤ r.fd ∧ r.optSet ∧ r.ok) (by simp only [Sound, h])
    | none => decidable_of_iff (bytes = some []) (by simp only [Sound, h])
  | .offer =>
    match h : p.st.ctl with
    | .offer fd (q :: _) => decidable_of_iff (p.st.kernel.Live q.2.sockFd ∧ fd ∈ p.st.kernel.openFds)
        (by simp only [Sound, h])
    | .offer _ [] | .poll | .wait => isTrue (by simp only [Sound, h])
  | .call _ (.workerConnect connFd) => inferInstanceAs (Decidable (0 ≤ connFd))
  | .call _ (.testMsg _) | .call _ (.sctpMsg _) | .leave _ | .hangUp _ => isTrue trivial

/-- The invariant of a master that stays, with the tester's connection. -/
structure Stays (test : Fd) (p : Process Master) : Prop where
  polling : Polling p
  inv : p.st.Inv
  sock : p.st.testSocketClient = ⟨test⟩
  live : test ∉ p.st.kernel.gone

theorem Stays.canServe_iff {test : Fd} {p : Process Master} (h : Stays test p) (r : Setup) :
    p.st.CanServe r ↔ p.st.sctpEndpoint = none ∧ 0 ≤ r.fd ∧ r.optSet ∧ r.ok := by
  have hlive : p.st.kernel.Live p.st.testSocketClient.sockFd :=
    ⟨h.inv.testSocketClient_mem, by simpa [h.sock] using h.live⟩
  constructor
  · intro hr
    exact ⟨h.inv.sctpEndpoint_none hr, hr.1.1, hr.1.2.1, hr.1.2.2.1⟩
  · rintro ⟨hn, h₀, h₁, h₂⟩
    exact ⟨⟨h₀, h₁, h₂, by simp [h.inv.free hn]⟩, hlive⟩

/-- With the tester there, an event is safe when it is sound. -/
theorem Stays.safe_iff {test : Fd} {p : Process Master} (h : Stays test p) {e : MasterEv}
    (he : p.st.Enabled e) (hk : KeepsTester test e) : p.st.Safe e ↔ Sound p e := by
  match e with
  | .call _ (.testMsg bytes) =>
    obtain ⟨msg, hm, -⟩ := hk
    simp [Safe, Sound, hm]
  | .call _ (.workerConnect connFd) => rfl
  | .call _ (.workerMsg bytes r) =>
    cases hm : handledId bytes <;> simp only [Safe, Sound, hm, h.canServe_iff]
  | .call _ (.sctpMsg connFd) => rfl
  | .offer => rfl
  | .leave w => exact absurd he.2 (by rw [h.polling.2.1]; decide)
  | .hangUp fd => rfl

theorem Stays.step {test : Fd} {p : Process Master} (h : Stays test p) {e : MasterEv}
    (he : machine.can p e) (hk : KeepsTester test e) :
    (Sound p e ∧ Stays test (machine.next p e)) ∨
      (¬ Sound p e ∧ (machine.next p e).halted ≠ none) := by
  rw [← h.safe_iff he.2 hk]
  rcases code_cases h.inv he.2 with ⟨hs, m', hrun, hinv, ht⟩ | ⟨hs, e', m', hrun, -⟩
  · have hnext : machine.next p e = ⟨m', p.halted⟩ := Process.exec_ok hrun
    rw [hnext]
    refine Or.inl ⟨hs, ⟨h.polling.1, ?_, ?_⟩, hinv, ht.testSocketClient.trans h.sock, ?_⟩
    · rw [← Bool.not_eq_true, ht.isMasterTerminated]
      rintro (hterm | ⟨msg, hmsg, hid⟩)
      · simp [h.polling.2.1] at hterm
      · match e, hk, hmsg with
        | .call _ (.testMsg bytes), ⟨msg', hm', hne⟩, hmsg =>
          cases hm'.symm.trans hmsg
          exact hne hid
    · intro hw
      rcases ht.ctl hw with hw | ⟨w, rfl⟩
      · exact h.polling.2.2 hw
      · exact absurd he.2.2 (by rw [h.polling.2.1]; decide)
    · intro hg
      rcases ht.gone test hg with hg | rfl
      · exact h.live hg
      · exact hk rfl
  · have hnext : machine.next p e = ⟨m', some e'⟩ := Process.exec_error hrun
    exact Or.inr ⟨hs, by simp [hnext]⟩

/-- **The master stays in its poll loop** through every run without
    MASTER_TERMINATE and loss of the tester exactly when every event of the run
    is sound. -/
theorem stays_iff (hb : b.Possible) (hinit : (init pid workers b).halted = none)
    (hc : machine.Can (init pid workers b) es) (hk : ∀ e ∈ es, KeepsTester b.test e) :
    Polling (machine.run (init pid workers b) es) ↔ machine.All Sound (init pid workers b) es := by
  obtain ⟨hs, ht⟩ := init_started hb hinit
  have h₀ : Stays b.test (init pid workers b) :=
    ⟨⟨hinit, hs.isMasterTerminated, by simp [hs.ctl]⟩, hs.inv, ht, by simp [hs.gone]⟩
  have hck : machine.All (fun p e => machine.can p e ∧ KeepsTester b.test e)
      (init pid workers b) es := hc.and (.of_mem hk)
  rcases hck.stays_or_stops h₀ (D := fun p => p.halted ≠ none)
      (fun p e hp he => hp.step he.1 he.2) (fun p e hp he => hp he.1.1) with ⟨ha, hr⟩ | ⟨ha, hr⟩
  · exact iff_of_true hr.polling ha
  · exact iff_of_false (fun hp => hr hp.1) ha

def oneWorker : WorkersPid := ⟨[101], by decide, by decide⟩

/-- The worker connects and is ready, and a client connection is handed to it. -/
def oneClient : List MasterEv :=
  [.call 4 (.workerConnect 5),
    .call 5 (.workerMsg (some (SerializedMsg.ofMsg ⟨workerReadyMsgId, 101⟩).bytes) ⟨6, true, true⟩),
    .call 6 (.sctpMsg 7), .offer, .offer]

theorem stays_iff_oneClient : Polling (machine.run (init 100 oneWorker boot) oneClient) := by
  have hk : ∀ e ∈ oneClient, KeepsTester boot.test e := by
    simp [oneClient, KeepsTester]
  exact (stays_iff (by decide) (by decide) (by decide) hk).2 (by decide)

/-- The worker hangs up before the client connects. -/
def lostWorker : List MasterEv :=
  [.call 4 (.workerConnect 5),
    .call 5 (.workerMsg (some (SerializedMsg.ofMsg ⟨workerReadyMsgId, 101⟩).bytes) ⟨6, true, true⟩),
    .hangUp 5, .call 5 (.workerMsg (some []) ⟨-1, true, true⟩), .call 6 (.sctpMsg 7), .offer]

/-- A worker that has hung up is still in the map, and ends the master when a
    connection is handed to it. -/
theorem stays_lostWorker :
    ¬ ∀ (pid : Word) (workers : WorkersPid) (b : Boot) (es : List MasterEv), b.Possible →
      (init pid workers b).halted = none → machine.Can (init pid workers b) es →
      (∀ e ∈ es, KeepsTester b.test e) → Polling (machine.run (init pid workers b) es) := by
  intro h
  have hk : ∀ e ∈ lostWorker, KeepsTester boot.test e := by
    simp [lostWorker, KeepsTester, boot]
  have hp := h 100 oneWorker boot lostWorker (by decide) (by decide) (by decide) hk
  exact absurd hp.1 (by decide)

end Master

end ProxyBroker
