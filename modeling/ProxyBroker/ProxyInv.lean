/-
  The invariant of the closed system: every step keeps each of its parts, so it
  holds in every state that the system reaches (`inv_run`).
-/
import ProxyBroker.ProxySteps

namespace ProxyBroker

namespace Proxy

variable {n : ℕ} {s s' : Proxy n} {i : Fin n}

/-! ## The processes -/

theorem Procs.update (h : s.Procs) {w : Worker} (hw : w.Inv) (hg : w.kernel.gone = ∅) :
    ∀ j, Worker.Up (Function.update s.workers i ⟨w, none⟩ j) :=
  (Function.forall_update_iff s.workers fun _ p => Worker.Up p).2
    ⟨⟨rfl, hw, hg⟩, fun j _ => h.worker j⟩

theorem Procs.tail (h : s.Procs) {x : Item} {rest : List Item} (hq : s.toWorker i = x :: rest) :
    ∀ j sm, .msg sm ∈ Function.update s.toWorker i rest j → ∃ msg, sm = .ofMsg msg :=
  (Function.forall_update_iff s.toWorker fun _ q => ∀ sm, .msg sm ∈ q → ∃ msg, sm = .ofMsg msg).2
    ⟨fun sm hsm => h.toWorker i sm (hq ▸ List.mem_cons_of_mem x hsm), fun j _ => h.toWorker j⟩

theorem mem_testerMsgs {t : Tester} {acts : List Act} {sm : SerializedMsg}
    (h : sm ∈ testerMsgs t acts) : ∃ sock, .sendMsg sock sm ∈ acts := by
  unfold testerMsgs at h
  split at h
  · obtain ⟨a, ha, hm⟩ := List.mem_filterMap.1 h
    cases a with
    | sendMsg sock sm' =>
      simp only [Act.msgOn] at hm
      split_ifs at hm
      cases hm
      exact ⟨sock, ha⟩
    | _ => cases hm
  · cases h

/-- What the tester sends to the master, it sends when it leaves. -/
theorem mem_testerMsgs_step (e : TesterEv) {sm : SerializedMsg}
    (h : sm ∈ testerMsgs (Tester.machine.next s.tester e).st (s.testerActs e)) :
    ∃ w, e = .leave w ∧ sm = .ofMsg ⟨masterTerminateMsgId, w⟩ := by
  obtain ⟨acts, hs, ha⟩ := (Tester.next_tracks s.tester e).sent
  rw [testerActs, Kernel.sentSince_eq hs] at h
  obtain ⟨sock, hm⟩ := mem_testerMsgs h
  rcases ha _ hm with ⟨ht, -⟩ | ⟨w, sock', rfl, heq⟩
  · exact ht.elim
  · cases heq; exact ⟨w, rfl, rfl⟩

theorem Procs.step (h : s.Inv) (hs : Step s s') : s'.Procs := by
  have hp := h.procs
  cases hs with
  | idle => exact hp
  | connect i fd hphase hfd =>
    exact { hp with
      worker := hp.update ((hp.worker i).inv.connected hphase hfd) (hp.worker i).gone }
  | ready i hphase =>
    refine { hp with worker := hp.update ((hp.worker i).inv.readied hphase) ?_ }
    unfold Worker.readied DomainSocket.wrote
    split_ifs <;> exact (hp.worker i).gone
  | adopt i c rest fd hphase hq hfd =>
    exact { hp with
      worker := hp.update ((hp.worker i).inv.adopted (by simp [hphase]) hfd)
        (Worker.gone_adopted (hp.worker i).gone)
      toWorker := hp.tail hq }
  | hear i msgId sm rest hphase hq =>
    exact { hp with
      worker := hp.update ((hp.worker i).inv.told msgId) (by simp [(hp.worker i).gone])
      toWorker := hp.tail hq }
  | workerLeave i hphase =>
    exact { hp with
      worker := hp.update ((hp.worker i).inv.left hphase) (hp.worker i).gone }
  | tell msg sm rest hq =>
    exact { hp with
      master := hp.master.told
      masterGone := by simp [hp.masterGone]
      fromTester := fun sm' hsm => hp.fromTester sm' (hq ▸ List.mem_cons_of_mem _ hsm) }
  | accept i rest fd hctl hq hfd =>
    exact { hp with master := hp.master.joined hfd hctl, masterGone := hp.masterGone }
  | count i fd w hi hq hb =>
    have hm : (s.master.st.counted workerReadyMsgId).Inv := hp.master.counted
    exact { hp with master := hm, masterGone := by simp [hp.masterGone] }
  | barrier i fd w r hi hctl hq hb hr =>
    have hm : (s.master.st.counted workerReadyMsgId).Inv := hp.master.counted
    have hnone := hp.master.sctpEndpoint_none hr
    exact { hp with
      master := hm.ready (by simpa) (by simpa) (by simpa)
      masterGone := by simp [Master.ready, hp.masterGone] }
  | sctpAccept c rest fd hctl he hq hfd =>
    exact { hp with
      master := hp.master.accepted (Or.inr hfd)
      masterGone := by simp [Master.accepted, hfd.1, hp.masterGone] }
  | hand fd key rest hctl =>
    exact { hp with
      master := hp.master.handed hctl
      masterGone := hp.masterGone
      toWorker := fun j sm hsm => hp.toWorker j sm (by
        rcases List.mem_append.1 hsm with hsm | hsm
        · exact hsm
        · split_ifs at hsm <;> simp at hsm) }
  | offered fd hctl =>
    exact { hp with
      master := hp.master.offered hctl
      masterGone := by simp [Master.offered, hp.masterGone] }
  | leave m halted sms ht hctl hm hsms =>
    exact { hp with
      master := hm.inv hp.master
      masterGone := hm.gone.trans hp.masterGone
      toWorker := fun j sm hsm => by
        rcases List.mem_append.1 hsm with hsm | hsm
        · exact hp.toWorker j sm hsm
        · exact hsms j sm (by simpa using hsm) }
  | tester e he hg =>
    exact { hp with
      fromTester := fun sm hsm => by
        rcases List.mem_append.1 hsm with hsm | hsm
        · exact hp.fromTester sm hsm
        · obtain ⟨w, -, hw⟩ := mem_testerMsgs_step e hsm
          exact ⟨w, hw⟩ }
  | clientConnect => exact { hp with }
  | clientClose c => exact { hp with }

/-! ## The barrier -/

theorem card_counted_congr (h : ∀ j, s'.Counted j ↔ s.Counted j) :
    (Finset.univ.filter s'.Counted).card = (Finset.univ.filter s.Counted).card :=
  congrArg Finset.card (Finset.filter_congr fun j _ => h j)

/-- A step that changes nothing that `Joined` is about. -/
theorem Joined.congr (h : s.Joined)
    (hstart : ∀ j, (s'.workers j).st.phase = .start ↔ (s.workers j).st.phase = .start)
    (hready : ∀ j, s'.Ready j ↔ s.Ready j) (hb : s'.backlog = s.backlog)
    (hl : s'.link = s.link) (ht : s'.toMaster = s.toMaster)
    (hpid : s'.master.st.workersPid = s.master.st.workersPid)
    (hsock : s'.master.st.testSocketClient = s.master.st.testSocketClient)
    (hconn : s'.master.st.workersSocketConnect = s.master.st.workersSocketConnect)
    (hcount : s'.master.st.workerCount = s.master.st.workerCount)
    (hep : s'.master.st.sctpEndpoint = s.master.st.sctpEndpoint) : s'.Joined := by
  have hcounted : ∀ j, s'.Counted j ↔ s.Counted j := fun j => by simp only [Counted, hready, ht]
  exact {
    size := by rw [hpid]; exact h.size
    nodup := by rw [hb]; exact h.nodup
    backlog := fun j => by rw [hb, hl, ne_eq, hstart]; exact h.backlog j
    linked := fun j fd => by rw [hl, hconn, hsock, ne_eq, hstart]; exact h.linked j fd
    only := fun fd => by rw [hl, hconn]; exact h.only fd
    inj := by rw [hl]; exact h.inj
    toMaster := fun j => by rw [ht, hready]; exact h.toMaster j
    counted := fun j => by rw [hl, hcounted]; exact h.counted j
    count := by rw [hcount, card_counted_congr hcounted]; exact h.count
    endpoint := fun he j => (hcounted j).2 (h.endpoint (hep ▸ he) j) }

/-- A step of a worker that stays on the same side of sending its message. -/
theorem Joined.update (h : s.Joined) {w : Worker}
    (hstart : w.phase = .start ↔ (s.workers i).st.phase = .start)
    (hready : (w.phase ≠ .start ∧ w.phase ≠ .connected) ↔ s.Ready i)
    (hs : s'.workers = Function.update s.workers i ⟨w, none⟩) (hb : s'.backlog = s.backlog)
    (hl : s'.link = s.link) (ht : s'.toMaster = s.toMaster) (hm : s'.master = s.master) :
    s'.Joined := by
  refine h.congr (fun j => ?_) (fun j => ?_) hb hl ht (by rw [hm]) (by rw [hm]) (by rw [hm])
    (by rw [hm]) (by rw [hm])
  · rw [hs]
    by_cases hj : j = i
    · subst hj; simpa using hstart
    · simp [hj]
  · rw [Ready, hs]
    by_cases hj : j = i
    · subst hj; simpa using hready
    · simp [hj, Ready]

theorem Joined.connect (h : s.Joined) {w : Worker} (hp : (s.workers i).st.phase = .start)
    (hw : w.phase = .connected) (hs : s'.workers = Function.update s.workers i ⟨w, none⟩)
    (hb : s'.backlog = s.backlog ++ [i]) (hl : s'.link = s.link) (ht : s'.toMaster = s.toMaster)
    (hm : s'.master = s.master) : s'.Joined := by
  have hlink : s.link i = none := by
    by_contra hne
    obtain ⟨fd, hfd⟩ := Option.ne_none_iff_exists'.1 hne
    exact (h.linked i fd hfd).1 hp
  have hphase : ∀ j, j ≠ i → s'.workers j = s.workers j := fun j hj => by simp [hs, hj]
  have hphase' : (s'.workers i).st.phase = .connected := by simp [hs, hw]
  have hready : ∀ j, s'.Ready j ↔ s.Ready j := fun j => by
    by_cases hj : j = i
    · subst hj; simp [Ready, hphase', hp]
    · simp [Ready, hphase j hj]
  have hcounted : ∀ j, s'.Counted j ↔ s.Counted j := fun j => by simp only [Counted, hready, ht]
  exact {
    size := by rw [hm]; exact h.size
    nodup := by
      rw [hb]
      exact List.nodup_append.2 ⟨h.nodup, by simp, fun a ha b hb' => by
        rintro rfl
        obtain rfl : a = i := by simpa using hb'
        exact ((h.backlog a).1 ha).1 hp⟩
    backlog := fun j => by
      rw [hb, hl]
      by_cases hj : j = i
      · subst hj; simp [hphase', hlink]
      · simp [hj, hphase j hj, h.backlog]
    linked := fun j fd hj => by
      rw [hl] at hj
      have hne : j ≠ i := by rintro rfl; simp [hlink] at hj
      rw [hphase j hne, hm]
      exact h.linked j fd hj
    only := by rw [hl, hm]; exact h.only
    inj := by rw [hl]; exact h.inj
    toMaster := fun j => by rw [ht, hready]; exact h.toMaster j
    counted := fun j => by rw [hl, hcounted]; exact h.counted j
    count := by rw [hm, card_counted_congr hcounted]; exact h.count
    endpoint := fun he j => (hcounted j).2 (h.endpoint (hm ▸ he) j) }

/-- A worker sends its message. -/
theorem Joined.ready (h : s.Joined) {w : Worker} {pid : Word}
    (hp : (s.workers i).st.phase = .connected) (hw : w.phase = .polling)
    (hs : s'.workers = Function.update s.workers i ⟨w, none⟩) (hb : s'.backlog = s.backlog)
    (hl : s'.link = s.link)
    (ht : s'.toMaster = Function.update s.toMaster i
      (s.toMaster i ++ [.ofMsg ⟨workerReadyMsgId, pid⟩]))
    (hm : s'.master = s.master) : s'.Joined := by
  have hempty : s.toMaster i = [] :=
    (h.toMaster i).resolve_right fun hr => hr.1.2 hp
  have hphase : ∀ j, j ≠ i → s'.workers j = s.workers j := fun j hj => by simp [hs, hj]
  have hphase' : (s'.workers i).st.phase = .polling := by simp [hs, hw]
  have hstart : ∀ j, (s'.workers j).st.phase = .start ↔ (s.workers j).st.phase = .start :=
    fun j => by
      by_cases hj : j = i
      · subst hj; simp [hphase', hp]
      · simp [hphase j hj]
  have hcounted : ∀ j, s'.Counted j ↔ s.Counted j := fun j => by
    by_cases hj : j = i
    · subst hj; simp [Counted, ht, Ready, hp]
    · simp [Counted, Ready, hphase j hj, ht, hj]
  exact {
    size := by rw [hm]; exact h.size
    nodup := by rw [hb]; exact h.nodup
    backlog := fun j => by rw [hb, hl, ne_eq, hstart]; exact h.backlog j
    linked := fun j fd => by rw [hl, hm, ne_eq, hstart]; exact h.linked j fd
    only := by rw [hl, hm]; exact h.only
    inj := by rw [hl]; exact h.inj
    toMaster := fun j => by
      by_cases hj : j = i
      · subst hj
        exact Or.inr ⟨by simp [Ready, hphase'], pid, by simp [ht, hempty]⟩
      · simpa [ht, hj, Ready, hphase j hj] using h.toMaster j
    counted := fun j => by rw [hl, hcounted]; exact h.counted j
    count := by rw [hm, card_counted_congr hcounted]; exact h.count
    endpoint := fun he j => (hcounted j).2 (h.endpoint (hm ▸ he) j) }

/-- The master accepts the first worker that waits. -/
theorem Joined.accept (h : s.Joined) (hm : s.master.st.Inv) {rest : List (Fin n)} {fd : Fd}
    (hq : s.backlog = i :: rest) (hfd : s.master.st.kernel.Fresh fd) :
    ({ s with
        master := ⟨s.master.st.joined fd, none⟩
        backlog := rest
        link := Function.update s.link i (some fd) } : Proxy n).Joined := by
  obtain ⟨hphase, hlink⟩ := (h.backlog i).1 (by simp [hq])
  have hnodup : i ∉ rest ∧ rest.Nodup := by simpa [hq] using h.nodup
  have hnew : ∀ j, s.link j ≠ some fd := fun j hj =>
    hfd.2 (hm.owned fd (Or.inr (Or.inr (Or.inl (h.linked j fd hj).2.1))))
  have hne : ∀ {j fd'}, s.link j = some fd' → j ≠ i := fun hj e => by simp [e, hlink] at hj
  exact {
    size := h.size
    nodup := hnodup.2
    backlog := fun j => by
      by_cases hj : j = i
      · subst hj; simp [hnodup.1]
      · simpa [hq, hj] using h.backlog j
    linked := fun j fd' hl => by
      rw [Master.joined_get?]
      by_cases hj : j = i
      · subst hj
        obtain rfl : fd = fd' := by simpa using hl
        refine ⟨hphase, by simp, fun e => hfd.2 ?_⟩
        rw [e]; exact hm.testSocketClient_mem
      · have hl : s.link j = some fd' := by simpa [hj] using hl
        obtain ⟨h₁, h₂, h₃⟩ := h.linked j fd' hl
        exact ⟨h₁, by split_ifs <;> simp [h₂], h₃⟩
    only := fun fd' hs => by
      rw [Master.joined_get?] at hs
      by_cases he : fd = fd'
      · exact ⟨i, by simp [he]⟩
      · rw [if_neg he] at hs
        obtain ⟨j, hj⟩ := h.only fd' hs
        exact ⟨j, by simp [hne hj, hj]⟩
    inj := fun j k fd' hj hk => by
      by_cases hji : j = i <;> by_cases hki : k = i
      · exact hji.trans hki.symm
      · subst hji
        obtain rfl : fd = fd' := by simpa using hj
        exact absurd (by simpa [hki] using hk) (hnew k)
      · subst hki
        obtain rfl : fd = fd' := by simpa using hk
        exact absurd (by simpa [hji] using hj) (hnew j)
      · exact h.inj j k fd' (by simpa [hji] using hj) (by simpa [hki] using hk)
    toMaster := h.toMaster
    counted := fun j hj => by
      by_cases hji : j = i
      · subst hji; simp
      · simpa [hji] using h.counted j hj
    count := h.count
    endpoint := h.endpoint }

/-- The master counts a worker; a listener that it has then is there because of
    the barrier. -/
theorem Joined.count_step (h : s.Joined) {fd : Fd} {w : Word} (hi : s.link i = some fd)
    (hq : s.toMaster i = [.ofMsg ⟨workerReadyMsgId, w⟩]) (hs : s'.workers = s.workers)
    (hb : s'.backlog = s.backlog) (hl : s'.link = s.link)
    (ht : s'.toMaster = Function.update s.toMaster i [])
    (hpid : s'.master.st.workersPid = s.master.st.workersPid)
    (hsock : s'.master.st.testSocketClient = s.master.st.testSocketClient)
    (hconn : s'.master.st.workersSocketConnect = s.master.st.workersSocketConnect)
    (hcount : s'.master.st.workerCount = s.master.st.workerCount + 1)
    (hep : s'.master.st.sctpEndpoint.isSome → s'.master.st.Barrier) : s'.Joined := by
  have hready : s.Ready i := ((h.toMaster i).resolve_left (by simp [hq])).1
  have hready' : ∀ j, s'.Ready j ↔ s.Ready j := fun j => by simp [Ready, hs]
  have hnot : ¬ s.Counted i := fun hc => by simpa [hq] using hc.2
  have hcounted : ∀ j, s'.Counted j ↔ j = i ∨ s.Counted j := fun j => by
    by_cases hj : j = i
    · subst hj; simp [Counted, hready', hready, ht]
    · simp [Counted, hready', ht, hj]
  have hcard : (Finset.univ.filter s'.Counted).card =
      (Finset.univ.filter s.Counted).card + 1 := by
    rw [← Finset.card_insert_of_notMem (a := i) (by simp [hnot])]
    congr 1
    ext j
    simp [hcounted]
  have hsum : s'.master.st.workerCount =
      BitVec.ofNat 32 (Finset.univ.filter s'.Counted).card := by
    rw [hcount, h.count, hcard]
    exact BitVec.ofNat_add_ofNat _ _
  have hsize : s'.master.st.workersPid.pids.length = n := by rw [hpid]; exact h.size
  exact {
    size := hsize
    nodup := by rw [hb]; exact h.nodup
    backlog := fun j => by rw [hb, hl, hs]; exact h.backlog j
    linked := fun j fd => by rw [hl, hconn, hsock, hs]; exact h.linked j fd
    only := fun fd => by rw [hl, hconn]; exact h.only fd
    inj := by rw [hl]; exact h.inj
    toMaster := fun j => by
      by_cases hj : j = i
      · subst hj; simp [ht]
      · simpa [ht, hj, hready'] using h.toMaster j
    counted := fun j hj => by
      rw [hl]
      rcases (hcounted j).1 hj with rfl | hj
      · simp [hi]
      · exact h.counted j hj
    count := hsum
    endpoint := fun he => by
      have hbar := (Master.barrier_iff _).1 (hep he)
      have hle := Finset.card_le_univ (Finset.univ.filter s'.Counted)
      have hlt := s'.master.st.workersPid.length_lt
      rw [hsize] at hbar hlt
      rw [Fintype.card_fin] at hle
      rw [hsum, BitVec.toNat_ofNat, Nat.mod_eq_of_lt (by omega)] at hbar
      have huniv := Finset.eq_univ_of_card _ (hbar.symm.trans (Fintype.card_fin n).symm)
      intro j
      exact (Finset.mem_filter.1 (huniv.symm ▸ Finset.mem_univ j)).2 }

theorem Joined.step (h : s.Inv) (hs : Step s s') : s'.Joined := by
  have hj := h.joined
  cases hs with
  | idle => exact hj
  | connect i fd hphase hfd => exact hj.connect hphase rfl rfl rfl rfl rfl rfl
  | ready i hphase => exact hj.ready hphase rfl rfl rfl rfl rfl rfl
  | adopt i c rest fd hphase hq hfd =>
    exact hj.update (i := i) (w := (s.workers i).st.adopted fd) Iff.rfl Iff.rfl rfl rfl rfl rfl rfl
  | hear i msgId sm rest hphase hq =>
    exact hj.update (i := i) (w := (s.workers i).st.told msgId) Iff.rfl Iff.rfl rfl rfl rfl rfl rfl
  | workerLeave i hphase =>
    exact hj.update (i := i) (w := { (s.workers i).st with phase := .left }) (by simp [hphase])
      (by simp [Ready, hphase]) rfl rfl rfl rfl rfl
  | tell msg sm rest hq =>
    refine hj.congr (fun _ => Iff.rfl) (fun _ => Iff.rfl) rfl rfl rfl ?_ ?_ ?_ ?_ ?_ <;> simp
  | accept i rest fd hctl hq hfd => exact hj.accept h.procs.master hq hfd
  | count i fd w hi hq hb =>
    refine hj.count_step hi hq rfl rfl rfl rfl ?_ ?_ ?_ ?_ fun he => ?_
    · simp
    · simp
    · simp
    · simp [Master.counted]
    · have hc := hj.endpoint (by simpa using he) i
      simpa [hq] using hc.2
  | barrier i fd w r hi hctl hq hb hr =>
    refine hj.count_step hi hq rfl rfl rfl rfl ?_ ?_ ?_ ?_ fun _ => hb
    · simp [Master.ready]
    · simp [Master.ready]
    · simp [Master.ready]
    · simp [Master.ready, Master.counted]
  | sctpAccept c rest fd hctl he hq hfd =>
    exact hj.congr (fun _ => Iff.rfl) (fun _ => Iff.rfl) rfl rfl rfl rfl rfl rfl rfl rfl
  | hand fd key rest hctl =>
    exact hj.congr (fun _ => Iff.rfl) (fun _ => Iff.rfl) rfl rfl rfl rfl rfl rfl rfl rfl
  | offered fd hctl =>
    exact hj.congr (fun _ => Iff.rfl) (fun _ => Iff.rfl) rfl rfl rfl rfl rfl rfl rfl rfl
  | leave m halted sms ht hctl hm hsms =>
    exact hj.congr (fun _ => Iff.rfl) (fun _ => Iff.rfl) rfl rfl rfl hm.workersPid
      hm.testSocketClient hm.workersSocketConnect hm.workerCount hm.sctpEndpoint
  | tester e he hg =>
    exact hj.congr (fun _ => Iff.rfl) (fun _ => Iff.rfl) rfl rfl rfl rfl rfl rfl rfl rfl
  | clientConnect =>
    exact hj.congr (fun _ => Iff.rfl) (fun _ => Iff.rfl) rfl rfl rfl rfl rfl rfl rfl rfl
  | clientClose c =>
    exact hj.congr (fun _ => Iff.rfl) (fun _ => Iff.rfl) rfl rfl rfl rfl rfl rfl rfl rfl

/-! ## Handing a connection on -/

/-- A step after which the master hands nothing on. -/
theorem Offering.of_ctl (h : ∀ fd rest, s.master.st.ctl ≠ .offer fd rest) : s.Offering :=
  ⟨fun fd rest hc => absurd hc (h fd rest), fun fd rest hc => absurd hc (h fd rest),
    fun fd rest hc => absurd hc (h fd rest)⟩

theorem Offering.step (h : s.Inv) (hs : Step s s') : s'.Offering := by
  have ho := h.offering
  cases hs with
  | accept i rest fd hctl hq hfd => exact .of_ctl fun a r hc => by simp [Master.joined, hctl] at hc
  | barrier i fd w r hi hctl hq hb hr =>
    exact .of_ctl fun a r hc => by simp [Master.ready, hctl] at hc
  | sctpAccept c rest fd hctl he hq hfd =>
    refine ⟨fun a r hc => ?_, fun a r hc => ?_, fun a r hc => ?_⟩ <;> cases hc
    · simp [Master.accepted, hfd.1]
    · exact List.pairwise_map.2
        (Std.TreeMap.distinct_keys_toList.imp fun hne heq => hne (by simp [heq]))
    · simp
  | hand fd key rest hctl =>
    refine ⟨fun a r hc => ?_, fun a r hc => ?_, fun a r hc => ?_⟩ <;> cases hc
    · exact ho.fd fd _ hctl
    · exact (List.nodup_cons.1 (ho.nodup fd _ hctl)).2
    · exact ho.last fd _ hctl
  | offered fd hctl => exact .of_ctl fun a r hc => by cases hc
  | leave m halted sms ht hctl hm hsms =>
    refine .of_ctl ?_
    intro a r hc
    rcases hm.ctl with hw | hw
    · cases hc.symm.trans hw
    · cases hc.symm.trans (hw.trans hctl)
  | _ => exact ⟨ho.fd, ho.nodup, ho.last⟩

/-! ## What the tester knows -/

/-- The tester stays in its poll loop only through steps that say nothing to
    the master. -/
theorem testerNext_polling (e : TesterEv) (h : (s.testerNext e).tester.st.phase = .polling) :
    s.tester.st.phase = .polling ∧ (s.testerNext e).fromTester = s.fromTester := by
  obtain ⟨hp, hl⟩ := (Tester.next_tracks s.tester e).phase.1 h
  have hnil : testerMsgs (Tester.machine.next s.tester e).st (s.testerActs e) = [] :=
    List.eq_nil_iff_forall_not_mem.2 fun sm hsm => by
      obtain ⟨w, he, -⟩ := mem_testerMsgs_step e hsm
      exact hl ⟨w, he⟩
  exact ⟨hp, (congrArg (s.fromTester ++ ·) hnil).trans (List.append_nil _)⟩

theorem testerNext_toTester (e : TesterEv) :
    (s.testerNext e).toTester = s.toTester ∨ (s.testerNext e).toTester = s.toTester.tail := by
  cases e with
  | call fd c => cases c <;> simp [testerNext]
  | leave w => simp [testerNext]

/-- What the tester reads, it has been sent. -/
theorem toTester_ne_nil {e : TesterEv} (hg : s.TesterGets e) (hr : Tester.ReadsReady e) :
    s.toTester ≠ [] := by
  match e, hg, hr with
  | .call fd (.sutMsg (some (bs, none)) buf r), ⟨sm, hsm, _⟩, _ =>
    rintro hn
    simp [hn] at hsm

theorem Telling.step (h : s.Inv) (hs : Step s s') : s'.Telling := by
  have ht := h.telling
  cases hs with
  | tell msg sm rest hq =>
    have hleft : s.tester.st.phase ≠ .polling := fun hp => by simp [ht.silent hp] at hq
    exact { ht with
      silent := fun hp => absurd hp hleft
      up := fun hp => absurd hp hleft }
  | accept i rest fd hctl hq hfd =>
    exact { ht with
      up := fun hp => ⟨rfl, (ht.up hp).2⟩
      listener := fun ep he => ⟨(ht.listener ep he).1,
        Registry.mem_register.2 (Or.inl (ht.listener ep he).2)⟩ }
  | barrier i fd w r hi hctl hq hb hr =>
    exact { ht with
      up := fun hp => ⟨rfl, (ht.up hp).2⟩
      toTester := fun _ => rfl
      isSutReady := fun _ => rfl
      listener := fun ep he => by
        cases he
        exact ⟨rfl, Registry.mem_register.2 (Or.inr rfl)⟩ }
  | count i fd w hi hq hb => exact { ht with up := fun hp => ⟨rfl, (ht.up hp).2⟩ }
  | sctpAccept c rest fd hctl he hq hfd =>
    exact { ht with up := fun hp => ⟨rfl, (ht.up hp).2.1, nofun⟩ }
  | hand fd key rest hctl => exact { ht with up := fun hp => ⟨rfl, (ht.up hp).2.1, nofun⟩ }
  | offered fd hctl => exact { ht with up := fun hp => ⟨rfl, (ht.up hp).2.1, nofun⟩ }
  | leave m halted sms hterm hctl hm hsms =>
    exact {
      silent := ht.silent
      up := fun hp => absurd hterm (by simp [(ht.up hp).2.1])
      toTester := fun hn => by rw [hm.sctpEndpoint]; exact ht.toTester hn
      isSutReady := fun hr => by rw [hm.sctpEndpoint]; exact ht.isSutReady hr
      listener := fun ep he => by
        rw [hm.ioMulti]; exact ht.listener ep (hm.sctpEndpoint ▸ he) }
  | tester e he hg =>
    exact {
      silent := fun hp => (testerNext_polling e hp).2.trans (ht.silent (testerNext_polling e hp).1)
      up := fun hp => ht.up (testerNext_polling e hp).1
      toTester := fun hn => ht.toTester fun hnil => hn (by
        rcases testerNext_toTester e with hq | hq
        · exact hq.trans hnil
        · exact hq.trans (by rw [hnil]; rfl))
      isSutReady := fun hr => by
        rcases (Tester.next_tracks s.tester e).isSutReady hr with hr | hr
        · exact ht.isSutReady hr
        · exact ht.toTester (toTester_ne_nil hg hr)
      listener := ht.listener }
  | _ => exact ⟨ht.silent, ht.up, ht.toTester, ht.isSutReady, ht.listener⟩

/-! ## The connections -/

/-- A step of a worker that keeps its endpoint. -/
theorem Holding.update (h : s.Holding) {w : Worker}
    (hw : w.sctpFd = (s.workers i).st.sctpFd) (j : Fin n) :
    (Function.update s.workers i ⟨w, none⟩ j).st.sctpFd.map (s.workerConnAt j) =
      (s.adopted j).getLast? := by
  by_cases hj : j = i
  · subst hj; simpa [hw] using h j
  · simpa [hj] using h j

theorem Holding.step (h : s.Inv) (hs : Step s s') : s'.Holding := by
  have hh := h.holding
  cases hs with
  | connect i fd hphase hfd => exact hh.update rfl
  | ready i hphase => exact hh.update rfl
  | hear i msgId sm rest hphase hq => exact hh.update rfl
  | workerLeave i hphase => exact hh.update rfl
  | adopt i c rest fd hphase hq hfd =>
    intro j
    by_cases hj : j = i
    · subst hj; simp [Worker.sctpFd, Worker.adopted]
    · simpa [hj] using hh j
  | _ => exact hh

theorem Distinct.snoc (h : s.Distinct) (hs : s'.sctpBacklog = s.sctpBacklog ++ [s.nextConn])
    (hn : s'.nextConn = s.nextConn + 1) (ha : s'.accepted = s.accepted) : s'.Distinct := by
  have hall : s'.accepted ++ s'.sctpBacklog = (s.accepted ++ s.sctpBacklog) ++ [s.nextConn] := by
    rw [hs, ha, List.append_assoc]
  constructor
  · rw [hall]
    refine List.nodup_append.2 ⟨h.nodup, by simp, ?_⟩
    intro a hm b hb
    obtain rfl : b = s.nextConn := by simpa using hb
    exact (h.old a hm).ne
  · intro c hc
    rw [hn]
    rw [hall] at hc
    rcases List.mem_append.1 hc with hc | hc
    · exact Nat.lt_succ_of_lt (h.old c hc)
    · obtain rfl : c = s.nextConn := by simpa using hc
      exact Nat.lt_succ_self _

theorem Distinct.step (h : s.Inv) (hs : Step s s') : s'.Distinct := by
  have hd := h.distinct
  cases hs with
  | sctpAccept c rest fd hctl he hq hfd =>
    have hall : s.accepted ++ [c] ++ rest = s.accepted ++ s.sctpBacklog := by simp [hq]
    exact ⟨by rw [hall]; exact hd.nodup, by rw [hall]; exact hd.old⟩
  | tester e he hg =>
    unfold testerNext
    dsimp only
    split_ifs
    · exact hd.snoc rfl rfl rfl
    · exact ⟨hd.nodup, hd.old⟩
  | clientConnect => exact hd.snoc rfl rfl rfl
  | _ => exact ⟨hd.nodup, hd.old⟩

/-! ## Runs -/

theorem Inv.step (h : s.Inv) (hs : Step s s') : s'.Inv :=
  ⟨.step h hs, .step h hs, .step h hs, .step h hs, .step h hs, .step h hs⟩

variable {S : Start n} {es : List (ProxyEv n)}

/-- The master starts with the listener for its workers. -/
theorem Start.master_st (S : Start n) :
    (init S).master.st = (Master.connected S.pid S.workersPid S.boot).listening S.boot.listen := by
  have hup := S.up
  have hpos : S.workersPid.pids ≠ [] := fun e => by
    have := S.length_pids
    have := S.pos
    simp_all
  rcases Master.construct_cases S.pid S.workersPid S.boot with
    ⟨e, m, he⟩ | ⟨-, ⟨-, -, hrun⟩ | ⟨hw, -⟩⟩
  · rw [Master.init, Process.exec_error he] at hup
    cases hup
  · exact congrArg Process.st (Process.exec_ok hrun)
  · exact absurd hw hpos

theorem Inv.init (S : Start n) : (init S).Inv := by
  obtain ⟨hs, -⟩ := Master.init_started S.possible S.up
  have hst := S.master_st
  have hep : (Proxy.init S).master.st.sctpEndpoint = none := by rw [hst]; rfl
  have hconn : (Proxy.init S).master.st.workersSocketConnect = ∅ := by rw [hst]; rfl
  have hcounted : ∀ i, ¬ (Proxy.init S).Counted i := fun i hc => hc.1.1 rfl
  exact {
    procs := {
      worker := fun i => ⟨rfl, Worker.Inv.blank, rfl⟩
      master := hs.inv
      masterGone := hs.gone
      toWorker := nofun
      fromTester := nofun }
    joined := {
      size := by rw [show (Proxy.init S).master.st.workersPid = _ from hs.workersPid]; exact S.length_pids
      nodup := List.nodup_nil
      backlog := fun i => by simp [Proxy.init, Worker.init, Worker.blank]
      linked := nofun
      only := fun fd hfd => by simp [hconn] at hfd
      inj := nofun
      toMaster := fun i => Or.inl rfl
      counted := fun i hi => absurd hi (hcounted i)
      count := by
        rw [show (Proxy.init S).master.st.workerCount = _ from hs.workerCount]
        simp [hcounted]
      endpoint := fun he => by simp [hep] at he }
    offering := .of_ctl fun fd rest hc => nomatch hc.symm.trans hs.ctl
    telling := {
      silent := fun _ => rfl
      up := fun _ => ⟨S.up, hs.isMasterTerminated, fun hc => nomatch hc.symm.trans hs.ctl⟩
      toTester := nofun
      isSutReady := nofun
      listener := fun ep he => by simp [hep] at he }
    holding := fun i => rfl
    distinct := ⟨List.nodup_nil, nofun⟩ }

/-- **The invariant holds in every state that the system reaches.** -/
theorem inv_run (hc : (machine n).Can (Proxy.init S) es) :
    ((machine n).run (Proxy.init S) es).Inv :=
  hc.inv (Inv.init S) fun _ _ h he => h.step (h.step_of_can he)

end Proxy

end ProxyBroker
