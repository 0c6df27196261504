/-
  The descriptors of a worker, and what becomes of its endpoints.

  The worker is run here with a log of what its endpoints do to their
  descriptors; without the log it is the worker of `Worker`
  (`Noted.run_erase`).

  * `Noted.Inv`: an endpoint that has been replaced has registered its
    descriptor, deregistered it and closed it, once each and in this order; the
    one that the worker has has only registered it.
  * `Noted.keeps_run`: this and the state of the tables, along a run.
-/
import ProxyBroker.Logged
import ProxyBroker.Worker

namespace ProxyBroker

/-- What the endpoint `obj` does to its descriptor. -/
inductive EndpointOp where
  | register (obj : ℕ) (fd : Fd)
  | deregister (obj : ℕ) (fd : Fd)
  | close (obj : ℕ) (fd : Fd)
  deriving DecidableEq, Repr

def EndpointOp.obj : EndpointOp → ℕ
  | .register obj _ | .deregister obj _ | .close obj _ => obj

namespace Worker

/-- A worker with the log of what its endpoints have done. -/
abbrev Noted := Logged Worker EndpointOp

namespace Noted

open Logged

/-! ## The code with its notes -/

/-- `Worker.newSctpEndpoint`. -/
def newSctpEndpoint (fd : Fd) : Proc Noted Unit := do
  let w ← lift get
  lift (registerFd fd (.sctpMsg w.nextObj))
  note (.register w.nextObj fd)
  lift (modify fun w =>
    { w with sctpEndpoint := some ⟨w.nextObj, ⟨fd⟩⟩, nextObj := w.nextObj + 1 })
  if let some old := w.sctpEndpoint then
    lift (deregisterFd old.sctpSocket.sockFd)
    note (.deregister old.obj old.sctpSocket.sockFd)
    lift (sys old.sctpSocket.destroy)
    note (.close old.obj old.sctpSocket.sockFd)

/-- `Worker.msgHandler`. -/
def msgHandler (r : Option (List Byte × Option Fd)) (buf : Vector Byte maxBuffer) :
    Proc Noted Unit := do
  let (fd, serialMsg) ← lift (sys (DomainSocket.domainRecvMsg r buf (-1)))
  if 0 < fd then newSctpEndpoint fd
  else
    match serialMsg with
    | none => lift (Proc.halt (.exit 0))
    | some serialMsg =>
      match serialMsg.headerMsgId with
      | none => lift (Proc.halt .abort)
      | some msgId =>
        lift do
          if msgId = workerTerminateMsgId then
            modify fun w => { w with continuePoll := false }

/-- The code that an event runs. -/
def code : WorkerEv → Proc Noted Unit
  | .call _ (.masterMsg r buf) => msgHandler r buf
  | e => lift (Worker.code e)

/-- The worker with its log, as a machine. -/
def machine : Machine (Process Noted) WorkerEv where
  can p e := Worker.machine.can (erase p) e
  next p e := Process.exec (code e) p

instance (p : Process Noted) (e : WorkerEv) : Decidable (machine.can p e) :=
  inferInstanceAs (Decidable (Worker.machine.can _ _))

def init (pid : Word) : Process Noted := ⟨⟨blank pid, []⟩, none⟩

/-! ## The code without them -/

theorem erases_newSctpEndpoint (fd : Fd) :
    Erases (newSctpEndpoint fd) (Worker.newSctpEndpoint fd) := by
  refine (erases_lift _).bind fun w => (erases_lift _).bind fun _ => Erases.note ?_ _
  refine (erases_lift _).bind ?_
  intro _
  cases w.sctpEndpoint with
  | none => exact erases_pure ()
  | some old => exact (erases_lift _).bind fun _ => ((erases_lift _).note_last _).note _

theorem erases_msgHandler (r : Option (List Byte × Option Fd)) (buf : Vector Byte maxBuffer) :
    Erases (msgHandler r buf) (Worker.msgHandler r buf) := by
  refine (erases_lift _).bind fun x => (erases_newSctpEndpoint _).ite ?_
  rcases x with ⟨fd, _ | sm⟩
  · exact erases_lift _
  · cases hm : sm.headerMsgId with
    | none => simpa only [hm] using erases_lift _
    | some msgId => simpa only [hm] using erases_lift _

theorem erases_code (e : WorkerEv) : Erases (code e) (Worker.code e) := by
  cases e with
  | call fd c =>
    cases c with
    | masterMsg r buf => exact erases_msgHandler r buf
    | sctpMsg obj r buf => exact erases_lift _
  | connect fd ok => exact erases_lift _
  | ready => exact erases_lift _
  | leave => exact erases_lift _
  | hangUp fd => exact erases_lift _

variable {p : Process Noted} {es : List WorkerEv}

/-- **Without the log, a run is one of the worker.** -/
theorem run_erase : erase (machine.run p es) = Worker.machine.run (erase p) es := by
  induction es generalizing p with
  | nil => rfl
  | cons e es ih =>
    rw [Machine.run_cons, Machine.run_cons, ih]
    exact congrArg (Worker.machine.run · es) ((erases_code e).exec p)

theorem can_erase : machine.Can p es ↔ Worker.machine.Can (erase p) es := by
  induction es generalizing p with
  | nil => exact Iff.rfl
  | cons e es ih =>
    have hnext : erase (machine.next p e) = Worker.machine.next (erase p) e :=
      (erases_code e).exec p
    exact and_congr Iff.rfl (ih.trans (by rw [hnext]))

/-! ## What the endpoints have done -/

/-- What the endpoint `obj` has done. -/
def opsOf (log : List EndpointOp) (obj : ℕ) : List EndpointOp := log.filter fun op => op.obj = obj

/-- What a replaced endpoint has done: its descriptor is deregistered and
    closed, once each. -/
def Replaced (log : List EndpointOp) (obj : ℕ) : Prop :=
  ∃ fd, opsOf log obj = [.register obj fd, .deregister obj fd, .close obj fd]

/-- What holds of the log between two events. -/
structure Inv (n : Noted) : Prop where
  made : ∀ ep ∈ n.st.sctpEndpoint, ep.obj < n.st.nextObj
  unused : ∀ obj, n.st.nextObj ≤ obj → opsOf n.log obj = []
  current : ∀ ep ∈ n.st.sctpEndpoint,
    opsOf n.log ep.obj = [.register ep.obj ep.sctpSocket.sockFd]
  replaced : ∀ obj < n.st.nextObj, (∀ ep ∈ n.st.sctpEndpoint, ep.obj ≠ obj) → Replaced n.log obj

variable {n : Noted} {fd : Fd}

/-- What the replacement of an endpoint, if there is one, adds to the log. -/
def adoption (w : Worker) (fd : Fd) : List EndpointOp :=
  .register w.nextObj fd :: w.sctpEndpoint.toList.flatMap fun old =>
    [.deregister old.obj old.sctpSocket.sockFd, .close old.obj old.sctpSocket.sockFd]

theorem newSctpEndpoint_log (fd : Fd) (n : Noted) :
    ∃ w, (newSctpEndpoint fd).run n = .ok () ⟨w, n.log ++ adoption n.st fd⟩ := by
  cases he : n.st.sctpEndpoint with
  | none => exact ⟨_, by simp [newSctpEndpoint, he, registerFd, adoption]; rfl⟩
  | some old =>
    exact ⟨_, by simp [newSctpEndpoint, he, registerFd, deregisterFd, SctpSocket.destroy,
      adoption]; rfl⟩

/-- What an event adds to the log. -/
def noted (w : Worker) : WorkerEv → List EndpointOp
  | .call _ (.masterMsg (some (_, some fd)) _) => adoption w fd
  | _ => []

theorem lift_log {q : Proc Worker Unit} {n' : Noted} (h : (lift q).run n = .ok () n') :
    n'.log = n.log := by
  rw [run_lift] at h
  cases hq : q.run n.st with
  | ok u w => rw [hq] at h; cases h; rfl
  | error e w => rw [hq] at h; cases h

theorem msgHandler_log {r : Option (List Byte × Option Fd)} {buf : Vector Byte maxBuffer}
    {n' : Noted} {a : Fd} (h : (msgHandler r buf).run n = .ok () n') :
    n'.log = n.log ++ noted n.st (.call a (.masterMsg r buf)) := by
  rcases r with _ | ⟨_ | ⟨b, bs⟩, _ | fd⟩
  · simp [msgHandler, DomainSocket.domainRecvMsg] at h
  · simp [msgHandler, DomainSocket.domainRecvMsg] at h
  · simp [msgHandler, DomainSocket.domainRecvMsg] at h
  · rw [show noted n.st (.call a (.masterMsg (some (b :: bs, none)) buf)) = [] from rfl,
      List.append_nil]
    cases hm : SerializedMsg.headerMsgId ⟨b :: (bs ++ buf.toList.drop (bs.length + 1))⟩ with
    | none => simp [msgHandler, DomainSocket.domainRecvMsg, hm] at h
    | some msgId =>
      simp only [msgHandler, DomainSocket.domainRecvMsg, EStateM.run_bind, run_lift, run_sys,
        EStateM.run_pure, Proc.mapState_ok, List.length_cons, List.cons_append, hm] at h
      exact lift_log (n := n) h
  · by_cases hfd : 0 < fd
    · obtain ⟨w, hw⟩ := newSctpEndpoint_log fd
        ⟨{ n.st with kernel := n.st.kernel.opened fd }, n.log⟩
      have h : (newSctpEndpoint fd).run ⟨{ n.st with kernel := n.st.kernel.opened fd }, n.log⟩ =
          .ok () n' := by
        simpa [msgHandler, DomainSocket.domainRecvMsg, hfd] using h
      rw [hw] at h
      cases h
      rfl
    · simp [msgHandler, DomainSocket.domainRecvMsg, hfd] at h

theorem code_log {e : WorkerEv} {n' : Noted} (h : (code e).run n = .ok () n') :
    n'.log = n.log ++ noted n.st e := by
  cases e with
  | call fd c =>
    cases c with
    | masterMsg r buf => exact msgHandler_log h
    | sctpMsg obj r buf => simpa [noted] using lift_log h
  | connect fd ok => simpa [noted] using lift_log h
  | ready => simpa [noted] using lift_log h
  | leave => simpa [noted] using lift_log h
  | hangUp fd => simpa [noted] using lift_log h

/-- A new endpoint for `fd`. -/
theorem Inv.adopted (h : Inv n) (fd : Fd) :
    Inv ⟨n.st.adopted fd, n.log ++ adoption n.st fd⟩ where
  made ep hep := by
    cases hep
    exact Nat.lt_succ_self _
  unused obj hobj := by
    have hlt : n.st.nextObj < obj := hobj
    have hold := h.unused obj hlt.le
    cases he : n.st.sctpEndpoint with
    | none => simpa [opsOf, adoption, he, EndpointOp.obj, hlt.ne] using hold
    | some old =>
      have hne : old.obj ≠ obj := ((h.made old he).trans hlt).ne
      simpa [opsOf, adoption, he, EndpointOp.obj, hlt.ne, hne] using hold
  current ep hep := by
    cases hep
    have hnew : opsOf n.log n.st.nextObj = [] := h.unused _ le_rfl
    cases he : n.st.sctpEndpoint with
    | none => simpa [opsOf, adoption, he, EndpointOp.obj] using hnew
    | some old =>
      have hne : old.obj ≠ n.st.nextObj := (h.made old he).ne
      simpa [opsOf, adoption, he, EndpointOp.obj, hne] using hnew
  replaced obj hobj hcur := by
    have hne : n.st.nextObj ≠ obj := hcur _ rfl
    have hlt : obj < n.st.nextObj := by
      have : obj < n.st.nextObj + 1 := hobj
      omega
    cases he : n.st.sctpEndpoint with
    | none =>
      obtain ⟨a, ha⟩ := h.replaced obj hlt (by simp [he])
      exact ⟨a, by simpa [opsOf, adoption, he, EndpointOp.obj, hne] using ha⟩
    | some old =>
      by_cases hold : old.obj = obj
      · -- the endpoint that is replaced now
        subst hold
        have hops := h.current old he
        refine ⟨old.sctpSocket.sockFd, ?_⟩
        rw [opsOf, List.filter_append, ← opsOf, hops]
        simp [adoption, he, EndpointOp.obj, hne]
      · obtain ⟨a, ha⟩ := h.replaced obj hlt (by
          rintro ep hep rfl
          exact hold (by rw [he] at hep; cases hep; rfl))
        exact ⟨a, by simpa [opsOf, adoption, he, EndpointOp.obj, hne, hold] using ha⟩

/-- Code that makes no endpoint. -/
theorem Inv.of_eq (h : Inv n) {w : Worker} (hep : w.sctpEndpoint = n.st.sctpEndpoint)
    (hobj : w.nextObj = n.st.nextObj) : Inv ⟨w, n.log ++ []⟩ := by
  rw [List.append_nil]
  exact ⟨by simpa only [hep, hobj] using h.made, by simpa only [hobj] using h.unused,
    by simpa only [hep] using h.current, by simpa only [hep, hobj] using h.replaced⟩

end Noted

/-! ## Runs -/

/-- What a worker keeps between two messages. -/
structure Keeps (n : Noted) : Prop where
  /-- the descriptors that are registered -/
  registered : n.st.ioMulti.fds = n.st.masterSocketClient.sockFd :: n.st.sctpFd.toList
  nodup : n.st.ioMulti.fds.Nodup
  opened : ∀ fd ∈ n.st.ioMulti.fds, fd ∈ n.st.kernel.openFds
  /-- no callback of an endpoint that is gone -/
  callbacks : ∀ fd obj, (fd, .sctpMsg obj) ∈ n.st.ioMulti → n.st.sctpEndpoint = some ⟨obj, ⟨fd⟩⟩
  /-- every endpoint but the one that there is now -/
  replaced : ∀ obj < n.st.nextObj, (∀ ep ∈ n.st.sctpEndpoint, ep.obj ≠ obj) →
    Noted.Replaced n.log obj
  /-- what is open: no descriptor of a replaced endpoint -/
  closed : ∀ fd, fd ∈ n.st.kernel.openFds ↔ fd ∈ Kernel.start.openFds ∨ fd ∈ n.st.ioMulti.fds

theorem Inv.fds_eq {w : Worker} (h : w.Inv) (hp : w.phase ≠ .start) :
    w.ioMulti.fds = w.masterSocketClient.sockFd :: w.sctpFd.toList := by
  rw [h.registry hp]
  cases he : w.sctpEndpoint <;> simp [Registry.fds, sctpFd, he]

theorem Noted.Inv.keeps {n : Noted} (h : Noted.Inv n) (hinv : n.st.Inv) (hp : n.st.phase ≠ .start) :
    Keeps n where
  registered := hinv.fds_eq hp
  nodup := by
    rw [hinv.fds_eq hp, List.nodup_cons]
    refine ⟨fun hm => ?_, by cases n.st.sctpFd <;> simp⟩
    exact (hinv.endpoint _ (Option.mem_toList.1 hm)).2 (Finset.mem_insert_self ..)
  opened fd hfd := by
    rw [hinv.fds_eq hp] at hfd
    rw [hinv.opened hp]
    rcases List.mem_cons.1 hfd with rfl | hfd
    · simp
    · exact Finset.mem_union_right _ (Option.mem_toFinset.2 (Option.mem_toList.1 hfd))
  callbacks fd obj := hinv.sctpEndpoint_of_mem hp
  replaced := h.replaced
  closed fd := by
    rw [hinv.opened hp, hinv.fds_eq hp]
    simp only [Finset.mem_union, Finset.mem_insert, Option.mem_toFinset, List.mem_cons,
      Option.mem_toList]
    tauto

/-- **An event that does not end the worker keeps the log in order.** -/
theorem Noted.Inv.step {n : Noted} (h : Noted.Inv n) {e : WorkerEv} {w' : Worker}
    (hc : n.st.Change e w') : Noted.Inv ⟨w', n.log ++ Noted.noted n.st e⟩ := by
  cases hc with
  | adopted hp hfd hbs => exact h.adopted _
  | connected hp hfd => exact h.of_eq rfl rfl
  | readied hp => exact h.of_eq rfl rfl
  | told hm hbs => exact h.of_eq rfl rfl
  | read => exact h.of_eq rfl rfl
  | left hp => exact h.of_eq rfl rfl
  | hungUp => exact h.of_eq rfl rfl

variable {pid : Word} {es : List WorkerEv}

/-- What a run leaves, unless it has ended the worker. -/
theorem Noted.run_inv (hc : Noted.machine.Can (Noted.init pid) es) :
    (Noted.machine.run (Noted.init pid) es).halted = none →
      (Noted.machine.run (Noted.init pid) es).st.st.Inv ∧
      Noted.Inv (Noted.machine.run (Noted.init pid) es).st := by
  refine hc.inv (I := fun p => p.halted = none → p.st.st.Inv ∧ Noted.Inv p.st) ?_ ?_
  · intro hup
    refine ⟨Inv.blank, fun ep hep => (by cases hep), fun obj hobj => rfl,
      fun ep hep => (by cases hep), fun obj hobj => absurd hobj (Nat.not_lt_zero obj)⟩
  · intro p e hp he hup
    obtain ⟨hinv, hlog⟩ := hp he.1
    have herase := Noted.erases_code e p.st
    rcases code_change hinv he.2 with ⟨-, w', hrun, hc⟩ | ⟨-, o, w', hrun⟩
    · cases hr : (Noted.code e).run p.st with
      | ok u n' =>
        rw [hr, hrun] at herase
        cases herase
        have hnext : Noted.machine.next p e = ⟨n', p.halted⟩ := Process.exec_ok hr
        have hn' : n' = ⟨n'.st, p.st.log ++ Noted.noted p.st.st e⟩ :=
          congrArg (Logged.mk n'.st) (Noted.code_log hr)
        rw [hnext]
        exact ⟨hc.inv hinv, hn' ▸ hlog.step hc⟩
      | error o n' =>
        rw [hr, hrun] at herase
        cases herase
    · have hnext := (Noted.erases_code e).exec p
      rw [Process.exec_error (x := Logged.erase p) hrun] at hnext
      exact absurd ((congrArg Process.halted hnext).symm.trans hup) (by simp)

/-- **The worker keeps its tables in agreement** in every state between two
    messages, and each endpoint that it has replaced has been taken out of them
    once: so it is for the worker with its log, which is the worker otherwise. -/
theorem Noted.keeps_run (hc : Worker.machine.Can (Worker.init pid) es)
    (hup : (Worker.machine.run (Worker.init pid) es).halted = none)
    (hp : (Worker.machine.run (Worker.init pid) es).st.phase ≠ .start) :
    let p := Noted.machine.run (Noted.init pid) es
    Logged.erase p = Worker.machine.run (Worker.init pid) es ∧ Keeps p.st := by
  intro p
  have herase : Logged.erase p = Worker.machine.run (Worker.init pid) es := Noted.run_erase
  rw [← herase] at hup hp
  obtain ⟨hinv, hlog⟩ := Noted.run_inv (Noted.can_erase.2 hc) hup
  exact ⟨herase, hlog.keeps hinv hp⟩

/-- The worker gets the descriptors 4 and 5, and then 4 again. -/
def adoptThree : List WorkerEv :=
  adoptOne ++ [.call 3 (.masterMsg (some ([36], some 5)) (.replicate maxBuffer 0)),
    .call 3 (.masterMsg (some ([36], some 4)) (.replicate maxBuffer 0))]

theorem Noted.keeps_run_adoptThree :
    let p := Noted.machine.run (Noted.init 101) adoptThree
    Logged.erase p = Worker.machine.run (Worker.init 101) adoptThree ∧ Keeps p.st :=
  Noted.keeps_run (by decide) (by decide) (by decide)

end Worker

end ProxyBroker
