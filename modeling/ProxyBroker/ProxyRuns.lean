/-
  Runs of the closed system.

  * `relays`: the system relays connections as a broadcast does, where the log
    is what the master has accepted and a worker reads what it adopts.
  * `adopted_prefix_accepted`: so what a worker has adopted is a prefix of what the
    master has accepted.
  * `opens_serving`: the tester opens a connection only to a master that is
    ready for it.
  * `keepsAll_iff`: which connections the workers keep.
-/
import ProxyBroker.Broadcast
import ProxyBroker.MasterRuns
import ProxyBroker.ProxyInv

namespace ProxyBroker

namespace Proxy

variable {n : ℕ} {s s' : Proxy n} {i : Fin n}

/-! ## Relaying connections -/

/-- The connections on the way to a worker. -/
def conns (q : List Item) : List Conn := q.filterMap Item.conn?

theorem mem_conns {q : List Item} {c : Conn} : c ∈ conns q ↔ .conn c ∈ q := by
  simp only [conns, List.mem_filterMap]
  constructor
  · rintro ⟨x, hx, hxc⟩
    cases x with
    | msg sm => cases hxc
    | conn c' => cases hxc; exact hx
  · intro h
    exact ⟨_, h, rfl⟩

@[simp] theorem conns_append (q r : List Item) : conns (q ++ r) = conns q ++ conns r :=
  List.filterMap_append

@[simp] theorem conns_msgs (sms : List SerializedMsg) : conns (sms.map .msg) = [] := by
  simp [conns, Item.conn?]

/-- The workers that the connection being handed on has still to be sent to. -/
def pending (ctl : MasterCtl) (link : Fin n → Option Fd) : Finset (Fin n) :=
  match ctl with
  | .offer _ rest => Finset.univ.filter fun i => ∃ p ∈ rest, link i = some p.1
  | .poll | .wait => ∅

/-- The system as a broadcast of connections. -/
def broadcast (s : Proxy n) : Broadcast (Fin n) Conn :=
  ⟨s.accepted, pending s.master.st.ctl s.link, fun i => conns (s.toWorker i), s.adopted⟩

theorem pending_eq_empty {ctl : MasterCtl} {link : Fin n → Option Fd}
    (h : ∀ fd rest, ctl ≠ .offer fd rest) : pending ctl link = ∅ := by
  cases ctl with
  | offer fd rest => exact absurd rfl (h fd rest)
  | poll | wait => rfl

/-- Once the master has the listener, all workers are connected to it. -/
theorem Inv.linked_all (h : s.Inv) (he : s.master.st.sctpEndpoint.isSome) (i : Fin n) :
    ∃ fd, s.link i = some fd ∧ s.master.st.workersSocketConnect[fd]? = some ⟨fd⟩ ∧
      s.master.st.kernel.Live fd := by
  obtain ⟨fd, hfd⟩ := Option.isSome_iff_exists.1 (h.joined.counted i (h.joined.endpoint he i))
  obtain ⟨sock, hsock⟩ := Option.isSome_iff_exists.1 (h.joined.linked i fd hfd).2.1
  obtain ⟨rfl, hlive⟩ := h.procs.live fd hsock
  exact ⟨fd, hfd, hsock, hlive⟩

/-- An accepted connection is to be sent to every worker. -/
theorem Inv.pending_accepted (h : s.Inv) (he : s.master.st.sctpEndpoint.isSome) (fd : Fd) :
    pending (.offer fd s.master.st.workersSocketConnect.toList) s.link = Finset.univ := by
  refine Finset.filter_true_of_mem ?_
  intro i _
  obtain ⟨fd', hfd, hsock, -⟩ := h.linked_all he i
  exact ⟨(fd', ⟨fd'⟩), Std.TreeMap.mem_toList_iff_getElem?_eq_some.2 hsock, hfd⟩

/-- Sending it to the worker at `key` leaves the other ones. -/
theorem Inv.pending_hand (h : s.Inv) {fd key : Fd} {rest : List (Fd × DomainSocket)}
    (hc : s.master.st.ctl = .offer fd ((key, ⟨key⟩) :: rest)) (hi : s.link i = some key) :
    i ∈ pending s.master.st.ctl s.link ∧
      pending (.offer fd rest) s.link = (pending s.master.st.ctl s.link).erase i := by
  have hnot : ∀ p ∈ rest, p.1 ≠ key := fun p hp e =>
    (List.nodup_cons.1 (h.offering.nodup fd _ hc)).1 (List.mem_map.2 ⟨p, hp, e⟩)
  rw [hc]
  refine ⟨by simp [pending, hi], ?_⟩
  ext j
  simp only [pending, Finset.mem_filter, Finset.mem_univ, true_and, Finset.mem_erase,
    List.mem_cons, exists_eq_or_imp]
  constructor
  · rintro ⟨p, hp, hj⟩
    refine ⟨?_, Or.inr ⟨p, hp, hj⟩⟩
    rintro rfl
    exact hnot p hp (Option.some.inj (hj.symm.trans hi))
  · rintro ⟨hne, hj | hj⟩
    · exact absurd (h.joined.inj j i key hj hi) hne
    · exact hj

/-- **A step of the system is one of the broadcast**, or nothing to it. -/
theorem Inv.broadcast_step (h : s.Inv) (hs : Step s s') :
    s'.broadcast = s.broadcast ∨ ∃ e, (Broadcast.machine (Fin n) Conn).can s.broadcast e ∧
      s'.broadcast = (Broadcast.machine (Fin n) Conn).next s.broadcast e := by
  cases hs with
  | accept i rest fd hctl hq hfd =>
    refine Or.inl (Broadcast.ext rfl ?_ rfl rfl)
    refine (pending_eq_empty fun a r hc => ?_).trans (pending_eq_empty fun a r hc => ?_).symm
    · cases hctl.symm.trans hc
    · cases hctl.symm.trans hc
  | adopt i c rest fd hphase hq hfd =>
    refine Or.inr ⟨.read i, ?_, Broadcast.ext rfl rfl ?_ ?_⟩
    · simp [Broadcast.machine, broadcast, hq, conns, Item.conn?]
    · funext j
      by_cases hj : j = i
      · subst hj; simp [Broadcast.machine, broadcast, hq, conns, Item.conn?]
      · simp [Broadcast.machine, broadcast, hj]
    · simp [Broadcast.machine, broadcast, hq, conns, Item.conn?]
  | hear i msg sm rest hphase hq =>
    refine Or.inl (Broadcast.ext rfl rfl ?_ rfl)
    funext j
    by_cases hj : j = i
    · subst hj; simp [broadcast, hq, conns, List.filterMap_cons, Item.conn?]
    · simp [broadcast, hj]
  | sctpAccept c rest fd hctl he hq hfd =>
    refine Or.inr ⟨.append c, ?_, Broadcast.ext rfl ?_ rfl rfl⟩
    · exact pending_eq_empty fun a r hc => by cases hctl.symm.trans hc
    · exact h.pending_accepted he fd
  | hand fd key rest hctl =>
    obtain ⟨i, hi⟩ := h.joined.only key
      (by simp [(h.procs.master.offering fd _ hctl).2 _ List.mem_cons_self])
    obtain ⟨hmem, hpend⟩ := h.pending_hand hctl hi
    refine Or.inr ⟨.send i, hmem, Broadcast.ext rfl hpend ?_ rfl⟩
    have hlast := h.offering.last fd _ hctl
    funext j
    by_cases hj : j = i
    · subst hj; simp [Broadcast.machine, broadcast, hi, hlast, conns, Item.conn?]
    · have hne : s.link j ≠ some key := fun hl => hj (h.joined.inj j i key hl hi)
      simp [Broadcast.machine, broadcast, hj, hne, conns]
  | offered fd hctl =>
    refine Or.inl (Broadcast.ext rfl ?_ rfl rfl)
    simp [broadcast, Master.offered, pending, hctl]
  | leave m halted sms hterm hctl hm hsms =>
    refine Or.inl (Broadcast.ext rfl ?_ ?_ rfl)
    · refine (pending_eq_empty fun a r hc => ?_).trans
        (pending_eq_empty fun a r hc => by cases hctl.symm.trans hc).symm
      rcases hm.ctl with hw | hw
      · cases hc.symm.trans hw
      · cases hc.symm.trans (hw.trans hctl)
    · funext j
      simp [broadcast]
  | _ => exact Or.inl rfl

variable {S : Start n} {es : List (ProxyEv n)}

theorem broadcast_init (S : Start n) : (init S).broadcast = Broadcast.empty := by
  refine Broadcast.ext rfl (pending_eq_empty fun fd rest hc => ?_) rfl rfl
  rw [S.master_st] at hc
  cases hc

/-- **The system relays connections as a broadcast does.** -/
theorem relays (hc : (machine n).Can (init S) es) :
    (Broadcast.machine (Fin n) Conn).Reaches Broadcast.empty
      ((machine n).run (init S) es).broadcast := by
  refine (hc.inv (I := fun s => s.Inv ∧ (Broadcast.machine (Fin n) Conn).Reaches Broadcast.empty
    s.broadcast) ⟨Inv.init S, broadcast_init S ▸ .refl _ _⟩ fun s e hs he => ?_).2
  have hstep := hs.1.step_of_can he
  refine ⟨hs.1.step hstep, ?_⟩
  rcases hs.1.broadcast_step hstep with heq | ⟨e', hcan, heq⟩
  · rw [heq]; exact hs.2
  · rw [heq]; exact hs.2.step hcan

/-- **What a worker has adopted is a prefix of what the master has accepted**,
    so of any two workers one has adopted a prefix of what the other has. -/
theorem adopted_prefix_accepted (hc : (machine n).Can (init S) es) :
    let s := (machine n).run (init S) es
    s.accepted.Nodup ∧ (∀ i, s.adopted i <+: s.accepted) ∧
      ∀ i j, s.adopted i <+: s.adopted j ∨ s.adopted j <+: s.adopted i := by
  intro s
  have hb : s.broadcast.Inv := .of_reaches (relays hc)
  exact ⟨(List.nodup_append.1 (inv_run hc).distinct.nodup).1, hb.read_prefix_log, hb.read_total⟩

/-- Two workers. -/
def twoStart : Start 2 :=
  ⟨100, Master.twoWorkers, rfl, by decide, Master.boot, by decide, by decide, 3, by decide⟩

/-- The workers join the master, which gets ready, and the tester accepts its
    connection. -/
def joining : List (ProxyEv 2) :=
  [.worker 0 (.connect 3 true), .worker 1 (.connect 3 true), .worker 1 .ready,
    .master (.call 4 (.workerConnect 5)), .worker 0 .ready, .master (.call 4 (.workerConnect 6)),
    .master (.call 6 (.workerMsg (some (SerializedMsg.ofMsg ⟨workerReadyMsgId, 102⟩).bytes)
      ⟨7, true, true⟩)),
    .master (.call 5 (.workerMsg (some (SerializedMsg.ofMsg ⟨workerReadyMsgId, 101⟩).bytes)
      ⟨7, true, true⟩)),
    .tester (.call 3 (.sutConnect 4))]

/-- The master accepts a connection and hands it to the two workers. -/
def handing : List (ProxyEv 2) :=
  [.master (.call 7 (.sctpMsg 8)), .master .offer, .master .offer, .master .offer]

/-- The worker `i` reads a descriptor, which is `fd` for it. -/
def reading {n : ℕ} (i : Fin n) (fd : Fd) : ProxyEv n :=
  .worker i (.call 3 (.masterMsg (some ([dummyByte], some fd)) (.replicate maxBuffer 0)))

theorem adopted_prefix_accepted_two :
    let s := (machine 2).run (init twoStart) (joining ++ [.clientConnect, .clientConnect] ++
      handing ++ handing ++ [reading 0 4, reading 1 4, reading 1 5])
    s.adopted 0 = [0] ∧ s.adopted 1 = [0, 1] ∧ (s.adopted 0 <+: s.adopted 1 ∨
      s.adopted 1 <+: s.adopted 0) :=
  ⟨by decide, by decide, (adopted_prefix_accepted (by decide)).2.2 0 1⟩

/-! ## The master is ready for the tester -/

/-- The master can serve a connection to the port: it polls, it has a listener
    on the port with its handler, and the connections of all workers. -/
structure Serving (s : Proxy n) (port : ℕ) : Prop where
  polling : s.master.halted = none ∧ s.master.st.isMasterTerminated = false ∧
    s.master.st.ctl ≠ .wait
  listener : ∃ ep, s.master.st.sctpEndpoint = some ep ∧ ep.newConnHandler ∧
    (ep.sctpSocketListen.sockFd, .sctpMsg) ∈ s.master.st.ioMulti ∧
    ep.sctpSocketListen.sockFd ∈ s.master.st.kernel.openFds ∧
    (ep.sctpSocketListen.sockFd, port) ∈ s.master.st.kernel.ports
  workers : ∀ i, ∃ fd, s.link i = some fd ∧
    s.master.st.workersSocketConnect[fd]? = some ⟨fd⟩ ∧ s.master.st.kernel.Live fd

theorem Inv.serving (h : s.Inv) (hp : s.tester.st.phase = .polling)
    (he : s.master.st.sctpEndpoint.isSome) : s.Serving myPortNum where
  polling := h.telling.up hp
  listener := by
    obtain ⟨ep, hep⟩ := Option.isSome_iff_exists.1 he
    obtain ⟨hnew, hreg⟩ := h.telling.listener ep hep
    exact ⟨ep, hep, hnew, hreg, h.procs.master.owned _ (Or.inr (Or.inr (Or.inr ⟨ep, hep, rfl⟩))),
      h.procs.master.bound ep hep⟩
  workers := h.linked_all he

/-- The tester runs a test case only once it has heard of the master. -/
theorem Inv.testerActs (h : s.Inv) {e : TesterEv} (hg : s.TesterGets e) {a : Act}
    (ha : a ∈ s.testerActs e) (hm : ∀ sock sm, a ≠ .sendMsg sock sm) :
    Tester.OfTestCase a ∧ s.master.st.sctpEndpoint.isSome := by
  obtain ⟨acts, hs, hacts⟩ := (Tester.next_tracks s.tester e).sent
  rw [Proxy.testerActs, Kernel.sentSince_eq hs] at ha
  rcases hacts a ha with ⟨ht, hr | hr⟩ | ⟨w, sock, -, rfl⟩
  · exact ⟨ht, h.telling.isSutReady hr⟩
  · exact ⟨ht, h.telling.toTester (toTester_ne_nil hg hr)⟩
  · exact absurd rfl (hm sock _)

/-- In a state where the master hands nothing on, every accepted connection has
    been sent to every worker. -/
theorem sent_accepted (hc : (machine n).Can (init S) es) {c : Conn}
    (hctl : ∀ fd rest, ((machine n).run (init S) es).master.st.ctl ≠ .offer fd rest)
    (ha : c ∈ ((machine n).run (init S) es).accepted) (i : Fin n) :
    c ∈ ((machine n).run (init S) es).adopted i ∨
      .conn c ∈ ((machine n).run (init S) es).toWorker i := by
  have hb : ((machine n).run (init S) es).broadcast.Inv := .of_reaches (relays hc)
  have hp : ((machine n).run (init S) es).broadcast.pending = ∅ := pending_eq_empty hctl
  have hall := hb.read_append_queue (i := i) (by simp [hp])
  have ha' : c ∈ ((machine n).run (init S) es).broadcast.log := ha
  rw [← hall, List.mem_append] at ha'
  exact ha'.imp_right mem_conns.1

/-- **Whenever the tester opens an SCTP connection**, the master is serving its
    port, and once the master has accepted a connection, then or later, and has
    handed it on, every worker has been sent its descriptor. -/
theorem opens_serving {e : TesterEv} {fs : List (ProxyEv n)} {sock : Fd} {port : ℕ}
    (hc : (machine n).Can (init S) (es ++ .tester e :: fs))
    (hopen : .sctpConnect sock port ∈ ((machine n).run (init S) es).testerActs e) :
    ((machine n).run (init S) es).Serving port ∧
      let t := (machine n).run (init S) (es ++ .tester e :: fs)
      (∀ fd rest, t.master.st.ctl ≠ .offer fd rest) →
        ∀ c ∈ t.accepted, ∀ i, c ∈ t.adopted i ∨ .conn c ∈ t.toWorker i := by
  obtain ⟨hes, he, -⟩ := Machine.all_append.1 hc
  have h := inv_run hes
  obtain ⟨rfl, hep⟩ := h.testerActs he.2 hopen nofun
  refine ⟨h.serving ?_ hep, fun hctl c ha => sent_accepted hc hctl ha⟩
  cases e with
  | call fd c => exact he.1.2.1
  | leave w => exact he.1.2.1

/-- The tester reads MASTER_READY and connects. -/
def testing : TesterEv :=
  .call 4 (.sutMsg (some ((SerializedMsg.ofMsg ⟨masterReadyMsgId, 100⟩).bytes, none))
    (.replicate maxBuffer 0) ⟨5, true, true⟩)

theorem opens_serving_two :
    ((machine 2).run (init twoStart) joining).Serving myPortNum ∧
      let t := (machine 2).run (init twoStart) (joining ++ .tester testing :: handing)
      ∀ i, 0 ∈ t.adopted i ∨ .conn 0 ∈ t.toWorker i := by
  have hc : (machine 2).Can (init twoStart) (joining ++ .tester testing :: handing) := by decide
  have hopen : .sctpConnect 5 myPortNum ∈
      ((machine 2).run (init twoStart) joining).testerActs testing := by decide
  have hctl : ((machine 2).run (init twoStart)
      (joining ++ .tester testing :: handing)).master.st.ctl = .poll := by decide
  obtain ⟨hserving, hoffered⟩ := opens_serving hc hopen
  exact ⟨hserving, hoffered (fun fd rest h => nomatch hctl.symm.trans h) 0 (by decide)⟩

/-! ## Which connections the workers keep -/

/-- The worker `i` holds `c`: it has an open descriptor for it that is
    registered. -/
def Holds (s : Proxy n) (i : Fin n) (c : Conn) : Prop :=
  ∃ fd obj, (fd, .sctpMsg obj) ∈ (s.workers i).st.ioMulti ∧
    fd ∈ (s.workers i).st.kernel.openFds ∧ s.workerConnAt i fd = c

/-- All workers are up, the master hands nothing on, and no descriptor is in
    flight. -/
structure Settled (s : Proxy n) : Prop where
  workers : ∀ i, (s.workers i).st.phase = .polling
  master : ∀ fd rest, s.master.st.ctl ≠ .offer fd rest
  flight : ∀ i c, .conn c ∉ s.toWorker i

/-- Every accepted connection that its client has not closed is held by some
    worker. -/
def KeepsAll (s : Proxy n) : Prop :=
  ∀ c ∈ s.accepted, c ∉ s.clientClosed → ∃ i, s.Holds i c

/-- A worker holds the last connection that it has adopted, and no other. -/
theorem Inv.holds_iff (h : s.Inv) (hp : (s.workers i).st.phase ≠ .start) {c : Conn} :
    s.Holds i c ↔ (s.adopted i).getLast? = some c := by
  have hw := (h.procs.worker i).inv
  rw [← h.holding i, Option.map_eq_some_iff]
  constructor
  · rintro ⟨fd, obj, hreg, -, hc⟩
    exact ⟨fd, by simp [Worker.sctpFd, hw.sctpEndpoint_of_mem hp hreg], hc⟩
  · rintro ⟨fd, hfd, hc⟩
    obtain ⟨ep, hep, rfl⟩ := Option.map_eq_some_iff.1 hfd
    refine ⟨_, ep.obj, ?_, ?_, hc⟩
    · simp [hw.registry hp, hep]
    · simp [hw.opened hp, hfd]

/-- Once things have settled, every worker has adopted all connections. -/
theorem Settled.adopted_eq (h : s.Settled) (hb : s.broadcast.Inv) (i : Fin n) :
    s.adopted i = s.accepted := by
  have hp : s.broadcast.pending = ∅ := pending_eq_empty h.master
  exact hb.read_eq_log (i := i) (by simp [hp])
    (List.eq_nil_iff_forall_not_mem.2 fun c hc => h.flight i c (mem_conns.1 hc))

/-- **The workers keep every connection** exactly when, but for the last one,
    the accepted connections have been closed by their clients: all workers
    hold the last one, and none holds another. -/
theorem keepsAll_iff (hc : (machine n).Can (init S) es)
    (hs : ((machine n).run (init S) es).Settled) :
    ((machine n).run (init S) es).KeepsAll ↔
      ∀ c ∈ ((machine n).run (init S) es).accepted.dropLast,
        c ∈ ((machine n).run (init S) es).clientClosed := by
  have h := inv_run hc
  have hb : ((machine n).run (init S) es).broadcast.Inv := .of_reaches (relays hc)
  have hholds : ∀ i c, ((machine n).run (init S) es).Holds i c ↔
      ((machine n).run (init S) es).accepted.getLast? = some c := fun i c => by
    rw [h.holds_iff (by simp [hs.workers]), hs.adopted_eq hb]
  have hnodup := (List.nodup_append.1 h.distinct.nodup).1
  generalize (machine n).run (init S) es = t at *
  rcases List.eq_nil_or_concat t.accepted with hnil | ⟨front, last, hsnoc⟩
  · simp [KeepsAll, hnil]
  · rw [List.concat_eq_append] at hsnoc
    simp only [KeepsAll, hholds, hsnoc, List.getLast?_concat, List.dropLast_concat,
      Option.some.injEq]
    rw [hsnoc] at hnodup
    constructor
    · intro hk c hcf
      by_contra hopen
      obtain ⟨-, rfl⟩ := hk c (List.mem_append_left _ hcf) hopen
      exact (List.nodup_append.1 hnodup).2.2 last hcf last (by simp) rfl
    · intro hclosed c hcm hopen
      rcases List.mem_append.1 hcm with hcf | hcl
      · exact absurd (hclosed c hcf) hopen
      · exact ⟨⟨0, S.pos⟩, (List.mem_singleton.1 hcl).symm⟩

/-- Two connections are accepted, and the workers read their descriptors. -/
def twoConns : List (ProxyEv 2) :=
  joining ++ [.clientConnect, .clientConnect] ++ handing ++ handing ++
    [reading 0 4, reading 0 5, reading 1 4, reading 1 5]

theorem settled_twoConns (es : List (ProxyEv 2))
    (hp : ∀ i, (((machine 2).run (init twoStart) es).workers i).st.phase = .polling)
    (hctl : ((machine 2).run (init twoStart) es).master.st.ctl = .poll)
    (hq : ∀ i, ((machine 2).run (init twoStart) es).toWorker i = []) :
    ((machine 2).run (init twoStart) es).Settled :=
  ⟨hp, fun fd rest h => (nomatch hctl.symm.trans h), fun i c h => by simp [hq] at h⟩

/-- With the first connection closed, all open ones are kept. -/
theorem keepsAll_iff_closed :
    ((machine 2).run (init twoStart) (twoConns ++ [.clientClose 0])).KeepsAll :=
  (keepsAll_iff (by decide) (settled_twoConns _ (by decide) (by decide) (by decide))).2 (by decide)

/-- The second connection makes the workers drop the first one. -/
theorem keepsAll_dropped :
    ¬ ∀ (n : ℕ) (S : Start n) (es : List (ProxyEv n)), (machine n).Can (init S) es →
      ((machine n).run (init S) es).Settled → ((machine n).run (init S) es).KeepsAll := by
  intro h
  have hc : (machine 2).Can (init twoStart) twoConns := by decide
  obtain ⟨i, hi⟩ := h 2 twoStart twoConns hc
    (settled_twoConns _ (by decide) (by decide) (by decide)) 0 (by decide) (by decide)
  have hlast : ∀ i, (((machine 2).run (init twoStart) twoConns).adopted i).getLast? ≠ some 0 := by
    decide
  have hphase : ∀ i, (((machine 2).run (init twoStart) twoConns).workers i).st.phase ≠ .start := by
    decide
  exact hlast i (((inv_run hc).holds_iff (hphase i)).1 hi)

end Proxy

end ProxyBroker
