/-
  What the steps of the closed system do.

  * `Inv` is what holds in every state that the system reaches: of the
    processes (`Procs`), of the workers on their way to the barrier (`Joined`),
    of a connection that the master hands on (`Offering`), of what the tester
    and the master have told each other (`Telling`) and of the connections that
    the workers hold (`Holding`).
  * `Step` lists the steps with the states that they lead to, and
    `Inv.step_of_can` says that there are no others.
-/
import ProxyBroker.Proxy

namespace ProxyBroker

namespace Proxy

variable {n : ℕ} {s : Proxy n}

/-! ## The invariant -/

/-- The worker `i` has sent WORKER_READY. -/
def Ready (s : Proxy n) (i : Fin n) : Prop :=
  (s.workers i).st.phase ≠ .start ∧ (s.workers i).st.phase ≠ .connected

instance (s : Proxy n) : DecidablePred s.Ready := fun _ => inferInstanceAs (Decidable (_ ∧ _))

/-- The master has counted the worker `i`. -/
def Counted (s : Proxy n) (i : Fin n) : Prop := s.Ready i ∧ s.toMaster i = []

instance (s : Proxy n) : DecidablePred s.Counted := fun _ => inferInstanceAs (Decidable (_ ∧ _))

/-- The processes keep their own invariants, no worker has ended, and the
    messages on the way are those that the processes write. -/
structure Procs (s : Proxy n) : Prop where
  worker : ∀ i, Worker.Up (s.workers i)
  master : s.master.st.Inv
  masterGone : s.master.st.kernel.gone = ∅
  toWorker : ∀ i sm, .msg sm ∈ s.toWorker i → ∃ msg, sm = .ofMsg msg
  fromTester : ∀ sm ∈ s.fromTester, ∃ w, sm = .ofMsg ⟨masterTerminateMsgId, w⟩

/-- The way of a worker to the barrier: it connects, is accepted, and sends one
    WORKER_READY; the master counts the workers whose message it has read, and
    has the SCTP listener only if that is all of them. -/
structure Joined (s : Proxy n) : Prop where
  size : s.master.st.workersPid.pids.length = n
  nodup : s.backlog.Nodup
  backlog : ∀ i, i ∈ s.backlog ↔ (s.workers i).st.phase ≠ .start ∧ s.link i = none
  linked : ∀ i fd, s.link i = some fd → (s.workers i).st.phase ≠ .start ∧
    (s.master.st.workersSocketConnect[fd]?).isSome ∧ fd ≠ s.master.st.testSocketClient.sockFd
  only : ∀ fd : Fd, (s.master.st.workersSocketConnect[fd]?).isSome → ∃ i, s.link i = some fd
  inj : ∀ i j fd, s.link i = some fd → s.link j = some fd → i = j
  toMaster : ∀ i, s.toMaster i = [] ∨
    (s.Ready i ∧ ∃ w, s.toMaster i = [.ofMsg ⟨workerReadyMsgId, w⟩])
  counted : ∀ i, s.Counted i → (s.link i).isSome
  count : s.master.st.workerCount = BitVec.ofNat 32 (Finset.univ.filter s.Counted).card
  endpoint : s.master.st.sctpEndpoint.isSome → ∀ i, s.Counted i

/-- The connection that the master hands on is the last one that it has
    accepted, and its descriptor is open. -/
structure Offering (s : Proxy n) : Prop where
  fd : ∀ fd rest, s.master.st.ctl = .offer fd rest → fd ∈ s.master.st.kernel.openFds
  nodup : ∀ fd rest, s.master.st.ctl = .offer fd rest → (rest.map Prod.fst).Nodup
  last : ∀ fd rest, s.master.st.ctl = .offer fd rest → s.accepted.getLast? = some (s.connAt fd)

/-- Until the tester leaves its poll loop the master is in its own, and the
    tester hears of the master only after the listener has been made. -/
structure Telling (s : Proxy n) : Prop where
  silent : s.tester.st.phase = .polling → s.fromTester = []
  up : s.tester.st.phase = .polling → s.master.halted = none ∧
    s.master.st.isMasterTerminated = false ∧ s.master.st.ctl ≠ .wait
  toTester : s.toTester ≠ [] → s.master.st.sctpEndpoint.isSome
  isSutReady : s.tester.st.isSutReady → s.master.st.sctpEndpoint.isSome
  listener : ∀ ep, s.master.st.sctpEndpoint = some ep →
    ep.newConnHandler ∧ (ep.sctpSocketListen.sockFd, .sctpMsg) ∈ s.master.st.ioMulti

/-- The endpoint of a worker is for the last connection that it has adopted. -/
def Holding (s : Proxy n) : Prop :=
  ∀ i, (s.workers i).st.sctpFd.map (s.workerConnAt i) = (s.adopted i).getLast?

/-- The connections are all different. -/
structure Distinct (s : Proxy n) : Prop where
  nodup : (s.accepted ++ s.sctpBacklog).Nodup
  old : ∀ c ∈ s.accepted ++ s.sctpBacklog, c < s.nextConn

structure Inv (s : Proxy n) : Prop where
  procs : s.Procs
  joined : s.Joined
  offering : s.Offering
  telling : s.Telling
  holding : s.Holding
  distinct : s.Distinct

/-! ## The steps -/

/-- What leaving the poll loop leaves as it is in the master. -/
structure Leaves (m m' : Master) : Prop where
  inv : m.Inv → m'.Inv
  gone : m'.kernel.gone = m.kernel.gone
  workersPid : m'.workersPid = m.workersPid
  testSocketClient : m'.testSocketClient = m.testSocketClient
  workersSocketConnect : m'.workersSocketConnect = m.workersSocketConnect
  workerCount : m'.workerCount = m.workerCount
  sctpEndpoint : m'.sctpEndpoint = m.sctpEndpoint
  ioMulti : m'.ioMulti = m.ioMulti
  ctl : m'.ctl = .wait ∨ m'.ctl = m.ctl

/-- The steps. -/
inductive Step (s : Proxy n) : Proxy n → Prop
  | idle : Step s s
  | connect (i : Fin n) (fd : Fd) (hp : (s.workers i).st.phase = .start)
      (hfd : (s.workers i).st.kernel.Fresh fd) :
      Step s { s with
        workers := Function.update s.workers i ⟨(s.workers i).st.connected fd, none⟩
        backlog := s.backlog ++ [i] }
  | ready (i : Fin n) (hp : (s.workers i).st.phase = .connected) :
      Step s { s with
        workers := Function.update s.workers i ⟨(s.workers i).st.readied, none⟩
        toMaster := Function.update s.toMaster i
          (s.toMaster i ++ [.ofMsg ⟨workerReadyMsgId, (s.workers i).st.pid⟩]) }
  | adopt (i : Fin n) (c : Conn) (rest : List Item) (fd : Fd)
      (hp : (s.workers i).st.phase = .polling) (hq : s.toWorker i = .conn c :: rest)
      (hfd : (s.workers i).st.kernel.Fresh fd) :
      Step s { s with
        workers := Function.update s.workers i ⟨(s.workers i).st.adopted fd, none⟩
        toWorker := Function.update s.toWorker i rest
        workerConnAt := Function.update s.workerConnAt i (Function.update (s.workerConnAt i) fd c)
        adopted := Function.update s.adopted i (s.adopted i ++ [c]) }
  | hear (i : Fin n) (msgId : Word) (sm : SerializedMsg) (rest : List Item)
      (hp : (s.workers i).st.phase = .polling) (hq : s.toWorker i = .msg sm :: rest) :
      Step s { s with
        workers := Function.update s.workers i ⟨(s.workers i).st.told msgId, none⟩
        toWorker := Function.update s.toWorker i rest }
  | workerLeave (i : Fin n) (hp : (s.workers i).st.phase = .polling) :
      Step s { s with
        workers := Function.update s.workers i ⟨{ (s.workers i).st with phase := .left }, none⟩ }
  | tell (msg : InternalMsg) (sm : SerializedMsg) (rest : List SerializedMsg)
      (hq : s.fromTester = sm :: rest) :
      Step s { s with master := ⟨s.master.st.told msg, none⟩, fromTester := rest }
  | accept (i : Fin n) (rest : List (Fin n)) (fd : Fd) (hctl : s.master.st.ctl = .poll)
      (hq : s.backlog = i :: rest) (hfd : s.master.st.kernel.Fresh fd) :
      Step s { s with
        master := ⟨s.master.st.joined fd, none⟩
        backlog := rest
        link := Function.update s.link i (some fd) }
  | count (i : Fin n) (fd : Fd) (w : Word) (hi : s.link i = some fd)
      (hq : s.toMaster i = [.ofMsg ⟨workerReadyMsgId, w⟩])
      (hb : ¬ (s.master.st.counted workerReadyMsgId).Barrier) :
      Step s { s with
        master := ⟨s.master.st.counted workerReadyMsgId, none⟩
        toMaster := Function.update s.toMaster i [] }
  | barrier (i : Fin n) (fd : Fd) (w : Word) (r : Setup) (hi : s.link i = some fd)
      (hctl : s.master.st.ctl = .poll) (hq : s.toMaster i = [.ofMsg ⟨workerReadyMsgId, w⟩])
      (hb : (s.master.st.counted workerReadyMsgId).Barrier) (hr : s.master.st.CanServe r) :
      Step s { s with
        master := ⟨(s.master.st.counted workerReadyMsgId).ready r, none⟩
        toMaster := Function.update s.toMaster i []
        toTester := s.toTester ++ [.ofMsg ⟨masterReadyMsgId, s.master.st.pid⟩] }
  | sctpAccept (c : Conn) (rest : List Conn) (fd : Fd) (hctl : s.master.st.ctl = .poll)
      (he : s.master.st.sctpEndpoint.isSome) (hq : s.sctpBacklog = c :: rest)
      (hfd : s.master.st.kernel.Fresh fd) :
      Step s { s with
        master := ⟨s.master.st.accepted fd, none⟩
        sctpBacklog := rest
        accepted := s.accepted ++ [c]
        connAt := Function.update s.connAt fd c }
  | hand (fd key : Fd) (rest : List (Fd × DomainSocket))
      (hctl : s.master.st.ctl = .offer fd ((key, ⟨key⟩) :: rest)) :
      Step s { s with
        master := ⟨s.master.st.handed key fd rest, none⟩
        toWorker := fun i =>
          s.toWorker i ++ if s.link i = some key then [.conn (s.connAt fd)] else [] }
  | offered (fd : Fd) (hctl : s.master.st.ctl = .offer fd []) :
      Step s { s with master := ⟨s.master.st.offered fd, none⟩ }
  | leave (m : Master) (halted : Option Halt) (sms : Fin n → List SerializedMsg)
      (ht : s.master.st.isMasterTerminated) (hctl : s.master.st.ctl = .poll)
      (hm : Leaves s.master.st m) (hsms : ∀ i, ∀ sm ∈ sms i, ∃ msg, sm = .ofMsg msg) :
      Step s { s with
        master := ⟨m, halted⟩
        toWorker := fun i => s.toWorker i ++ (sms i).map .msg }
  | tester (e : TesterEv) (he : Tester.machine.can s.tester e) (hg : s.TesterGets e) :
      Step s (s.testerNext e)
  | clientConnect :
      Step s { s with sctpBacklog := s.sctpBacklog ++ [s.nextConn], nextConn := s.nextConn + 1 }
  | clientClose (c : Conn) : Step s { s with clientClosed := insert c s.clientClosed }

/-! ## The steps of the machine -/

theorem masterNext_eq {e : MasterEv} {p : Process Master} (acts : List Act)
    (hnext : Master.machine.next s.master e = p)
    (hacts : p.st.kernel.sent = s.master.st.kernel.sent ++ acts) :
    s.masterNext e = { s.masterTakes e with
      master := p
      toTester := (s.masterTakes e).toTester ++
        acts.filterMap (Act.msgOn p.st.testSocketClient.sockFd)
      toWorker := fun i => (s.masterTakes e).toWorker i ++
        acts.filterMap (itemFor ((s.masterTakes e).link i) (s.masterTakes e).connAt) } := by
  simp only [masterNext, hnext, Kernel.sentSince_eq hacts]

theorem master_next_ok (e : MasterEv) {m : Master} (hup : s.master.halted = none)
    (hrun : (Master.code e).run s.master.st = .ok () m) :
    Master.machine.next s.master e = ⟨m, none⟩ := by
  rw [← hup]; exact Process.exec_ok hrun

/-- A step of the master that sends nothing. -/
theorem masterNext_quiet (e : MasterEv) {m : Master} (hup : s.master.halted = none)
    (hrun : (Master.code e).run s.master.st = .ok () m)
    (hsent : m.kernel.sent = s.master.st.kernel.sent) :
    s.masterNext e = { s.masterTakes e with master := ⟨m, none⟩ } := by
  rw [masterNext_eq [] (master_next_ok e hup hrun) (by simpa using hsent)]
  simp

theorem workerNext_of_run (i : Fin n) (e : WorkerEv) {w : Worker} (acts : List Act)
    (hup : (s.workers i).halted = none) (hrun : (Worker.code e).run (s.workers i).st = .ok () w)
    (hacts : w.kernel.sent = (s.workers i).st.kernel.sent ++ acts) :
    s.workerNext i e = { s.workerTakes i w e with
      workers := Function.update s.workers i ⟨w, none⟩
      toMaster := Function.update s.toMaster i
        (s.toMaster i ++ acts.filterMap (Act.msgOn w.masterSocketClient.sockFd)) } := by
  have hnext : Worker.machine.next (s.workers i) e = ⟨w, none⟩ := by
    rw [← hup]; exact Process.exec_ok hrun
  simp only [workerNext, hnext, Kernel.sentSince_eq hacts]

/-- A step of a worker that sends nothing. -/
theorem workerNext_quiet (i : Fin n) (e : WorkerEv) {w : Worker}
    (hup : (s.workers i).halted = none) (hrun : (Worker.code e).run (s.workers i).st = .ok () w)
    (hsent : w.kernel.sent = (s.workers i).st.kernel.sent)
    (htakes : (s.workerTakes i w e).toMaster = s.toMaster) :
    s.workerNext i e =
      { s.workerTakes i w e with workers := Function.update s.workers i ⟨w, none⟩ } := by
  rw [workerNext_of_run i e [] hup hrun (by simpa using hsent)]
  simp [← htakes]

variable {fd : Fd}

/-- The worker of a connection that the master has is there. -/
theorem Procs.live (h : s.Procs) (fd : Fd) {sock : DomainSocket}
    (hfd : s.master.st.workersSocketConnect[fd]? = some sock) :
    sock = ⟨fd⟩ ∧ s.master.st.kernel.Live fd :=
  ⟨h.master.workers fd sock hfd, h.master.owned fd (Or.inr (Or.inr (Or.inl (by simp [hfd])))),
    by simp [h.masterGone]⟩

/-- While a worker is not counted, the listener can be made. -/
theorem Inv.canServe (h : s.Inv) {i : Fin n} (hi : ¬ s.Counted i) {r : Setup}
    (hr : 0 ≤ r.fd ∧ r.optSet ∧ r.ok) :
    s.master.st.sctpEndpoint = none ∧ s.master.st.CanServe r := by
  have hnone : s.master.st.sctpEndpoint = none := Option.not_isSome_iff_eq_none.1 fun he =>
    hi (h.joined.endpoint he i)
  exact ⟨hnone, ⟨hr.1, hr.2.1, hr.2.2, by simp [h.procs.master.free hnone]⟩,
    h.procs.master.testSocketClient_mem, by simp [h.procs.masterGone]⟩

/-- A worker connection is not the tester's. -/
theorem Joined.itemFor_test (h : s.Joined) (i : Fin n) (sm : SerializedMsg) :
    itemFor (s.link i) s.connAt (.sendMsg s.master.st.testSocketClient.sockFd sm) = none := by
  simp only [itemFor, ite_eq_right_iff, reduceCtorEq, imp_false]
  intro hl
  exact (h.linked i _ hl).2.2 rfl

/-- A read from a worker takes its message. -/
theorem Joined.toMaster_tail (h : s.Joined) {i : Fin n} (hi : s.link i = some fd)
    {sm : SerializedMsg} (hq : s.toMaster i = [sm]) :
    (fun j => if s.link j = some fd then (s.toMaster j).tail else s.toMaster j) =
      Function.update s.toMaster i [] := by
  funext j
  by_cases hj : j = i
  · subst hj; simp [hi, hq]
  · have : s.link j ≠ some fd := fun hl => hj (h.inj j i fd hl hi)
    simp [hj, this]

theorem Inv.step_workerMsg (h : s.Inv) {bytes : Option (List Byte)} {r : Setup}
    (hup : s.master.halted = none) (he : s.master.st.Enabled (.call fd (.workerMsg bytes r)))
    (hg : s.MasterGets (.call fd (.workerMsg bytes r))) :
    Step s (s.masterNext (.call fd (.workerMsg bytes r))) := by
  obtain ⟨⟨i, hi, sm, hsm, rfl⟩, hr⟩ := hg
  obtain ⟨w, hq⟩ : ∃ w, s.toMaster i = [.ofMsg ⟨workerReadyMsgId, w⟩] := by
    rcases h.joined.toMaster i with hq | ⟨-, hq⟩
    · simp [hq] at hsm
    · exact hq
  obtain rfl : SerializedMsg.ofMsg ⟨workerReadyMsgId, w⟩ = sm := by simpa [hq] using hsm
  obtain ⟨sock, hsock⟩ := Option.isSome_iff_exists.1 (h.joined.linked i fd hi).2.1
  have hrun := Master.workerMsgHandler_run (r := r) hsock
    (handledId_ofMsg ⟨workerReadyMsgId, w⟩)
  have htakes : s.masterTakes (.call fd (.workerMsg
      (some (SerializedMsg.ofMsg ⟨workerReadyMsgId, w⟩).bytes) r)) =
      { s with toMaster := Function.update s.toMaster i [] } := by
    simp only [masterTakes, h.joined.toMaster_tail hi hq]
  by_cases hb : (s.master.st.counted workerReadyMsgId).Barrier
  · have hnot : ¬ s.Counted i := fun hc => by simpa [hq] using hc.2
    obtain ⟨hnone, hserve⟩ := h.canServe hnot hr
    rw [if_pos hb, Master.masterReadyForwork_run (by simpa)
      (by simpa using h.procs.master.testSocketClient_mem) (by simpa)] at hrun
    rw [masterNext_eq [.sendMsg s.master.st.testSocketClient.sockFd
        (.ofMsg ⟨masterReadyMsgId, s.master.st.pid⟩)]
      (master_next_ok (.call fd (.workerMsg _ r)) hup hrun) (by simp [Master.ready]), htakes]
    have := Step.barrier i fd w r hi he.1 hq hb hserve
    simpa [Act.msgOn, Master.ready, h.joined.itemFor_test] using this
  · rw [if_neg hb] at hrun
    rw [masterNext_quiet (.call fd (.workerMsg _ r)) hup hrun (by simp), htakes]
    exact .count i fd w hi hq hb

theorem msgOn_sendFd (sock key fd : Fd) : [Act.sendFd key fd].filterMap (Act.msgOn sock) = [] := rfl

theorem itemFor_sendFd (key fd : Fd) (link : Option Fd) (connAt : Fd → Conn) :
    [Act.sendFd key fd].filterMap (itemFor link connAt) =
      if link = some key then [.conn (connAt fd)] else [] := by
  simp only [List.filterMap_cons, List.filterMap_nil, itemFor]
  split_ifs <;> rfl

theorem itemFor_sendMsg (key : Fd) (sm : SerializedMsg) (link : Option Fd)
    (connAt : Fd → Conn) :
    [Act.sendMsg key sm].filterMap (itemFor link connAt) =
      (if link = some key then [sm] else []).map .msg := by
  simp only [List.filterMap_cons, List.filterMap_nil, itemFor]
  split_ifs <;> rfl

theorem Inv.step_offer (h : s.Inv) (hup : s.master.halted = none)
    (he : s.master.st.Enabled .offer) : Step s (s.masterNext .offer) := by
  cases hctl : s.master.st.ctl with
  | poll => exact absurd hctl he.1
  | wait => exact absurd hctl he.2
  | offer fd rest =>
    cases rest with
    | nil =>
      rw [masterNext_quiet .offer hup (Master.offer_done hctl) rfl]
      exact .offered fd hctl
    | cons p rest =>
      obtain ⟨key, sock⟩ := p
      obtain ⟨rfl, hlive⟩ := h.procs.live key
        ((h.procs.master.offering fd _ hctl).2 _ List.mem_cons_self)
      rw [masterNext_eq [.sendFd key fd] (master_next_ok .offer hup
        (Master.offer_run hctl hlive (h.offering.fd fd _ hctl))) rfl]
      simpa [masterTakes, msgOn_sendFd, itemFor_sendFd] using Step.hand fd key rest hctl

/-- `run` after the poll loop leaves the master waiting or ends it, after it
    has told at most the first worker. -/
theorem Inv.step_leave (h : s.Inv) (w : Word) (hup : s.master.halted = none)
    (he : s.master.st.Enabled (.leave w)) : Step s (s.masterNext (.leave w)) := by
  rcases hl : s.master.st.workersSocketConnect.toList with _ | ⟨p, rest⟩
  · rw [masterNext_quiet (.leave w) hup (Master.leave_run_nil hl) rfl]
    have := Step.leave _ none (fun _ => []) he.2 he.1
      ⟨fun hm => hm.waiting, rfl, rfl, rfl, rfl, rfl, rfl, rfl, Or.inl rfl⟩ (by simp)
    simpa [masterTakes] using this
  · have hp := Std.TreeMap.mem_toList_iff_getElem?_eq_some.1 (hl ▸ List.mem_cons_self : p ∈ _)
    obtain ⟨key, sock⟩ := p
    obtain ⟨rfl, hlive⟩ := h.procs.live key hp
    obtain ⟨i, hi⟩ := h.joined.only key (by simp [hp])
    have hne := (h.joined.linked i key hi).2.2
    have hkernel : (s.master.st.toldWorker ⟨key⟩ w).kernel =
        s.master.st.kernel.send (.sendMsg key (.ofMsg ⟨workerTerminateMsgId, w⟩)) := by
      simp [Master.toldWorker, DomainSocket.wrote, hlive]
    have hstep : ∀ m halted, Master.machine.next s.master (.leave w) = ⟨m, halted⟩ →
        m.kernel = (s.master.st.toldWorker ⟨key⟩ w).kernel → Leaves s.master.st m →
        Step s (s.masterNext (.leave w)) := fun m halted hnext hk hm => by
      rw [masterNext_eq [.sendMsg key (.ofMsg ⟨workerTerminateMsgId, w⟩)] hnext
        (by simp [hk, hkernel])]
      have := Step.leave m halted (fun i =>
        if s.link i = some key then [.ofMsg ⟨workerTerminateMsgId, w⟩] else []) he.2 he.1 hm
        (fun i sm hsm => ⟨⟨workerTerminateMsgId, w⟩, by split_ifs at hsm <;> simp_all⟩)
      simpa [masterTakes, Act.msgOn, hm.testSocketClient, hne, itemFor_sendMsg] using this
    cases rest with
    | nil =>
      refine hstep _ none (master_next_ok (.leave w) hup (Master.leave_run_one hl)) rfl ?_
      exact ⟨fun hm => (hm.toldWorker w).waiting, by simp [hkernel], rfl, rfl, rfl, rfl, rfl, rfl,
        Or.inl rfl⟩
    | cons q rest =>
      refine hstep _ _ (Process.exec_error (Master.leave_run_more hl)) rfl ?_
      exact ⟨fun hm => hm.toldWorker w, by simp [hkernel], rfl, rfl, rfl, rfl, rfl, rfl,
        Or.inr rfl⟩

theorem Inv.step_master (h : s.Inv) {e : MasterEv} (he : Master.machine.can s.master e)
    (hg : s.MasterGets e) : Step s (s.masterNext e) := by
  obtain ⟨hup, hen⟩ := he
  match e, hen, hg with
  | .call fd (.testMsg bytes), hen, ⟨sm, hsm, hb⟩ =>
    obtain rfl := h.procs.master.testMsg fd hen.2.1
    obtain ⟨rest, hq⟩ : ∃ rest, s.fromTester = sm :: rest := by
      cases hq : s.fromTester <;> simp_all
    obtain ⟨w, rfl⟩ := h.procs.fromTester sm (by simp [hq])
    subst hb
    rw [masterNext_quiet (.call _ (.testMsg _)) hup
      (Master.testMsg_run (received_ofMsg ⟨masterTerminateMsgId, w⟩)) (by simp)]
    have := Step.tell ⟨masterTerminateMsgId, w⟩ _ rest hq
    simpa [masterTakes, hq] using this
  | .call fd (.workerConnect connFd), hen, ⟨hq, hfd⟩ =>
    obtain ⟨i, rest, hq⟩ := List.exists_cons_of_ne_nil hq
    have hl : s.master.st.workerSocketListen.isSome := by
      simp [h.procs.master.workerConnect fd hen.2.1]
    have hfresh : s.master.st.kernel.Fresh connFd := hen.2.2.fresh hfd
    rw [masterNext_quiet (.call fd (.workerConnect connFd)) hup (Master.workerConnect_run hl
      (h.procs.master.get?_of_mayReturn hen.2.2) hfd) rfl]
    simpa only [masterTakes, hq] using Step.accept i rest connFd hen.1 hq hfresh
  | .call fd (.workerMsg bytes r), hen, hg => exact h.step_workerMsg hup hen hg
  | .call fd (.sctpMsg connFd), hen, ⟨hq, hfd⟩ =>
    obtain ⟨c, rest, hq⟩ := List.exists_cons_of_ne_nil hq
    have hep := h.procs.master.sctpMsg fd hen.2.1
    have hfresh : s.master.st.kernel.Fresh connFd := hen.2.2.fresh hfd
    rw [masterNext_quiet (.call fd (.sctpMsg connFd)) hup (Master.sctpMsgHandler_run hep)
      (by simp [Master.accepted, hfd])]
    simpa only [masterTakes, hq] using
      Step.sctpAccept c rest connFd hen.1 (by simp [hep]) hq hfresh
  | .offer, hen, _ => exact h.step_offer hup hen
  | .leave w, hen, _ => exact h.step_leave w hup hen

/-- A worker reads the first thing that is on its way to it. -/
theorem Inv.step_masterMsg (h : s.Inv) {i : Fin n} {fd : Fd} {r : Option (List Byte × Option Fd)}
    {buf : Vector Byte maxBuffer} (hup : (s.workers i).halted = none)
    (hen : (s.workers i).st.Enabled (.call fd (.masterMsg r buf)))
    (hg : s.WorkerGets i (.call fd (.masterMsg r buf))) :
    Step s (s.workerNext i (.call fd (.masterMsg r buf))) := by
  obtain ⟨x, hx, hgives⟩ := hg
  have hp : (s.workers i).st.phase ≠ .start := by simp [hen.1]
  obtain ⟨rest, hq⟩ : ∃ rest, s.toWorker i = x :: rest := by
    cases hq : s.toWorker i <;> simp_all
  cases x with
  | msg sm =>
    obtain ⟨msg, rfl⟩ := h.procs.toWorker i sm (by simp [hq])
    obtain ⟨msgId, hm⟩ := Option.isSome_iff_exists.1
      (Worker.recvMsgId_isSome (SerializedMsg.ofMsg msg).bytes buf)
    obtain rfl : r = _ := hgives
    rw [workerNext_quiet i (.call fd (.masterMsg _ buf)) hup
      (Worker.msgHandler_msg (by simp [SerializedMsg.ofMsg, Word.bytes]) hm) (by simp)
      (by simp [workerTakes, hq])]
    simpa [workerTakes, hq] using Step.hear i msgId _ rest hen.1 hq
  | conn c =>
    rcases r with _ | ⟨bs, _ | nfd⟩
    · exact hgives.elim
    · exact hgives.elim
    · obtain rfl : bs = _ := hgives
      have hfresh : (s.workers i).st.kernel.Fresh nfd := hen.2.2 _ rfl _ rfl
      rw [workerNext_quiet i (.call fd (.masterMsg _ buf)) hup
        ((h.procs.worker i).inv.msgHandler_fd hp hfresh (by simp)) (by simp)
        (by simp [workerTakes, hq])]
      simpa [workerTakes, hq] using Step.adopt i c rest nfd hen.1 hq hfresh

theorem Inv.step_worker (h : s.Inv) {i : Fin n} {e : WorkerEv}
    (he : Worker.machine.can (s.workers i) e) (hg : s.WorkerGets i e) :
    Step s (s.workerNext i e) := by
  obtain ⟨hup, hen⟩ := he
  cases e with
  | connect fd ok =>
    obtain ⟨hfd, hok⟩ := hg
    have hfresh : (s.workers i).st.kernel.Fresh fd := hen.2.fresh hfd
    rw [workerNext_quiet i (.connect fd ok) hup (Worker.connect_run hfd hok) rfl rfl]
    exact .connect i fd hen.1 hfresh
  | ready =>
    have hlive : (s.workers i).st.kernel.Live (s.workers i).st.masterSocketClient.sockFd := by
      refine ⟨?_, by simp [(h.procs.worker i).gone]⟩
      simp [(h.procs.worker i).inv.opened (by simp [show _ = _ from hen])]
    rw [workerNext_of_run i .ready [.sendMsg (s.workers i).st.masterSocketClient.sockFd
        (.ofMsg ⟨workerReadyMsgId, (s.workers i).st.pid⟩)] hup Worker.ready_run
      (by simp [Worker.readied, DomainSocket.wrote, hlive])]
    simpa [workerTakes, Act.msgOn, Worker.readied] using Step.ready i hen
  | call fd c =>
    cases c with
    | masterMsg r buf => exact h.step_masterMsg hup hen hg
    | sctpMsg obj r buf =>
      have hep := (h.procs.worker i).inv.sctpEndpoint_of_mem (by simp [hen.1]) hen.2.1
      rcases Worker.sctpMsg_run r buf hep with ⟨-, hrun⟩ | ⟨hno, -⟩
      · rw [workerNext_quiet i (.call fd (.sctpMsg obj r buf)) hup hrun rfl rfl]
        have hsame : (⟨(s.workers i).st, none⟩ : Process Worker) = s.workers i := by rw [← hup]
        simpa [workerTakes, hsame] using Step.idle
      · exact absurd hg hno
  | hangUp fd => exact hg.elim
  | leave =>
    rw [workerNext_quiet i .leave hup (w := { (s.workers i).st with phase := .left }) rfl rfl rfl]
    exact .workerLeave i hen.1

/-- **There are no other steps.** -/
theorem Inv.step_of_can (h : s.Inv) {e : ProxyEv n} (he : (machine n).can s e) :
    Step s ((machine n).next s e) := by
  cases e with
  | master e => exact h.step_master he.1 he.2
  | worker i e => exact h.step_worker he.1 he.2
  | tester e => exact .tester e he.1 he.2
  | clientConnect => exact .clientConnect
  | clientClose c => exact .clientClose c

end Proxy

end ProxyBroker
