/-
  The barrier of `worker_msg_handler`: after every message, the count of
  WORKER_READY messages is compared with the number of workers.

  * `hits`: the places in a sequence of messages at which the comparison
    succeeds; in a run, each is a call of `master_ready_forwork`
    (`run_counted`).
  * `Orderly` says when there is one such place at most
    (`card_hits_le_one`), and none before as many workers are ready
    (`le_card`); `orderly_of_hits` is the converse.
  * `masterReadyForwork_once_iff` is the same for the runs of the master.
-/
import ProxyBroker.MasterRuns

namespace ProxyBroker

/-- The id of a message, with the connection that it came on. -/
abbrev WorkerMsg := Fd × Word

/-- The messages that the events of a run handle. -/
def workerMsgs (es : List MasterEv) : List WorkerMsg := es.filterMap MasterEv.workerMsg?

/-- The connections that WORKER_READY came on, in order. -/
def readySenders (msgs : List WorkerMsg) : List Fd :=
  (msgs.filter fun x => x.2 = workerReadyMsgId).map Prod.fst

/-- The number of WORKER_READY messages. -/
def readies (msgs : List WorkerMsg) : ℕ := msgs.countP fun x => x.2 = workerReadyMsgId

/-- **When the barrier is in order**, for `n` workers: the first `n`
    WORKER_READY messages come from different workers, the message handled next
    is another WORKER_READY, and the count does not come back to `n`. -/
structure Orderly (n : ℕ) (msgs : List WorkerMsg) : Prop where
  distinct : n ≤ readies msgs → ((readySenders msgs).take n).Nodup
  next : ∀ pre x, pre ++ [x] <+: msgs → readies pre = n → x.2 = workerReadyMsgId
  few : readies msgs < 2 ^ 32 + n

/-- The places after which the count, an `int`, is `n`. -/
def hits (n : ℕ) (msgs : List WorkerMsg) : Finset ℕ :=
  {j ∈ Finset.range msgs.length | readies (msgs.take (j + 1)) % 2 ^ 32 = n}

variable {n : ℕ} {msgs pre : List WorkerMsg} {x : WorkerMsg}

theorem readies_snoc : readies (msgs ++ [x]) =
    readies msgs + if x.2 = workerReadyMsgId then 1 else 0 := by
  simp [readies, List.countP_append, List.countP_singleton]

theorem length_readySenders : (readySenders msgs).length = readies msgs := by
  simp [readySenders, readies, List.countP_eq_length_filter]

theorem readySenders_prefix (h : pre <+: msgs) : readySenders pre <+: readySenders msgs := by
  obtain ⟨rest, rfl⟩ := h
  simp [readySenders]

theorem readies_mono (h : pre <+: msgs) : readies pre ≤ readies msgs := h.sublist.countP_le

theorem mem_hits {j : ℕ} : j ∈ hits n msgs ↔
    j < msgs.length ∧ readies (msgs.take (j + 1)) % 2 ^ 32 = n := by simp [hits]

theorem card_hits_snoc : (hits n (msgs ++ [x])).card =
    (hits n msgs).card + if readies (msgs ++ [x]) % 2 ^ 32 = n then 1 else 0 := by
  have hold : (Finset.range msgs.length).filter
      (fun j => readies ((msgs ++ [x]).take (j + 1)) % 2 ^ 32 = n) = hits n msgs :=
    Finset.filter_congr fun j hj => by
      rw [List.take_append_of_le_length (Finset.mem_range.1 hj)]
  have hlast : (msgs ++ [x]).take (msgs.length + 1) = msgs ++ [x] :=
    List.take_of_length_le (by simp)
  rw [hits, List.length_append, List.length_singleton, Finset.range_add_one, Finset.filter_insert,
    hold, hlast]
  split_ifs
  · exact Finset.card_insert_of_notMem fun h => by simp [mem_hits] at h
  · rfl

/-- Every count up to the last one is that of some place. -/
theorem exists_readies {k : ℕ} (hk : k ≤ readies msgs) :
    ∃ i ≤ msgs.length, readies (msgs.take i) = k := by
  induction msgs using List.reverseRecOn with
  | nil => exact ⟨0, le_rfl, (Nat.le_zero.1 hk).symm⟩
  | append_singleton msgs x ih =>
    by_cases hle : k ≤ readies msgs
    · obtain ⟨i, hi, rfl⟩ := ih hle
      exact ⟨i, by simp; omega, by rw [List.take_append_of_le_length hi]⟩
    · refine ⟨(msgs ++ [x]).length, le_rfl, ?_⟩
      rw [List.take_length]
      rw [readies_snoc] at hk ⊢
      split_ifs at hk ⊢ <;> omega

/-- A place that the count is `n` at is a hit, if `n` is positive. -/
theorem exists_hit {k : ℕ} (hk₀ : 0 < k) (hk : k ≤ readies msgs) (hkn : k % 2 ^ 32 = n) :
    ∃ j ∈ hits n msgs, readies (msgs.take (j + 1)) = k := by
  obtain ⟨i, hi, hik⟩ := exists_readies hk
  have hi₀ : i ≠ 0 := by rintro rfl; simp [readies] at hik; omega
  obtain ⟨j, rfl⟩ := Nat.exists_eq_succ_of_ne_zero hi₀
  exact ⟨j, mem_hits.2 ⟨hi, by rw [hik, hkn]⟩, hik⟩

/-! ## When the barrier is in order -/

namespace Orderly

variable (h : Orderly n msgs)
include h

/-- While the count does not come back to `n`, a hit is a count of `n`. -/
theorem readies_eq (hp : pre <+: msgs) (hn : readies pre % 2 ^ 32 = n) : readies pre = n := by
  have := readies_mono hp
  have := h.few
  omega

theorem card_hits_le_one : (hits n msgs).card ≤ 1 := by
  have hpre (i : ℕ) : msgs.take i <+: msgs := List.take_prefix i msgs
  have hlt : ∀ a ∈ hits n msgs, ∀ c ∈ hits n msgs, ¬ a < c := by
    intro a ha c hc hac
    obtain ⟨-, ha⟩ := mem_hits.1 ha
    obtain ⟨hclt, hc⟩ := mem_hits.1 hc
    have ha := h.readies_eq (hpre _) ha
    have hc := h.readies_eq (hpre _) hc
    -- the message after place `a` is another WORKER_READY
    have hsnoc : msgs.take (a + 1) ++ [msgs[a + 1]] = msgs.take (a + 2) :=
      List.take_append_getElem (by omega)
    have hready := h.next _ msgs[a + 1] (hsnoc ▸ hpre _) ha
    have hcount : readies (msgs.take (a + 2)) = n + 1 := by
      rw [← hsnoc, readies_snoc, if_pos hready, ha]
    have := readies_mono (List.take_prefix_take_left (l := msgs) (show a + 2 ≤ c + 1 by omega))
    omega
  refine Finset.card_le_one.2 ?_
  intro a ha c hc
  exact le_antisymm (not_lt.1 (hlt c hc a ha)) (not_lt.1 (hlt a ha c hc))

/-- A hit comes after WORKER_READY from `n` different workers. -/
theorem le_card (hp : pre <+: msgs) (hh : (hits n pre).Nonempty) :
    n ≤ (readySenders pre).toFinset.card := by
  obtain ⟨j, hj⟩ := hh
  have hpre : pre.take (j + 1) <+: pre := List.take_prefix _ _
  have hle : n ≤ readies pre :=
    h.readies_eq (hpre.trans hp) (mem_hits.1 hj).2 ▸ readies_mono hpre
  have hlen : ((readySenders pre).take n).length = n := by
    rw [List.length_take, length_readySenders, min_eq_left hle]
  have htake : (readySenders pre).take n = (readySenders msgs).take n := by
    obtain ⟨rest, hrest⟩ := readySenders_prefix hp
    rw [← hrest, List.take_append_of_le_length (by rwa [length_readySenders])]
  have hnodup : ((readySenders pre).take n).Nodup :=
    htake ▸ h.distinct (hle.trans (readies_mono hp))
  calc n = ((readySenders pre).take n).toFinset.card := by
        rw [List.toFinset_card_of_nodup hnodup, hlen]
    _ ≤ (readySenders pre).toFinset.card := Finset.card_le_card fun a ha =>
        List.mem_toFinset.2 (List.mem_of_mem_take (List.mem_toFinset.1 ha))

end Orderly

theorem orderly_of_hits (hn₀ : 0 < n) (hn : n < 2 ^ 32) (h : (hits n msgs).card ≤ 1)
    (hd : ∀ pre, pre <+: msgs → (hits n pre).Nonempty → n ≤ (readySenders pre).toFinset.card) :
    Orderly n msgs where
  distinct hle := by
    obtain ⟨i, hi, hin⟩ := exists_readies hle
    have hp : msgs.take i <+: msgs := List.take_prefix i msgs
    have hlen : (readySenders (msgs.take i)).length = n := by rw [length_readySenders, hin]
    obtain ⟨j, hj, -⟩ : ∃ j ∈ hits n (msgs.take i), _ :=
      exists_hit hn₀ hin.ge (Nat.mod_eq_of_lt hn)
    have hcard := hd _ hp ⟨j, hj⟩
    have htake : (readySenders msgs).take n = readySenders (msgs.take i) := by
      obtain ⟨rest, hrest⟩ := readySenders_prefix hp
      rw [← hrest, List.take_append_of_le_length hlen.ge, List.take_of_length_le hlen.le]
    rw [htake]
    refine Multiset.coe_nodup.1 (Multiset.toFinset_card_eq_card_iff_nodup.1 ?_)
    exact le_antisymm (Multiset.toFinset_card_le _) (by simpa [hlen] using hcard)
  next pre x hp hpre := by
    by_contra hx
    have hlen := hp.length_le
    have hpos : 0 < pre.length := by
      have : readies pre ≤ pre.length := List.countP_le_length
      omega
    have htake : ∀ k ≤ pre.length + 1, msgs.take k = (pre ++ [x]).take k := by
      intro k hk
      obtain ⟨rest, rfl⟩ := hp
      exact List.take_append_of_le_length (by simpa using hk)
    simp only [List.length_append, List.length_singleton] at hlen
    -- both the place of the last WORKER_READY and that of `x` are hits
    have h₁ : pre.length - 1 ∈ hits n msgs := by
      refine mem_hits.2 ⟨by omega, ?_⟩
      rw [show pre.length - 1 + 1 = pre.length by omega, htake _ (by omega), List.take_left' rfl,
        hpre, Nat.mod_eq_of_lt hn]
    have h₂ : pre.length ∈ hits n msgs := by
      refine mem_hits.2 ⟨by omega, ?_⟩
      rw [htake _ le_rfl, List.take_of_length_le (by simp), readies_snoc, if_neg hx, add_zero,
        hpre, Nat.mod_eq_of_lt hn]
    have := Finset.card_le_one.1 h _ h₁ _ h₂
    omega
  few := by
    by_contra hfew
    have hmod : (2 ^ 32 + n) % 2 ^ 32 = n := by omega
    obtain ⟨i, hi, hin⟩ : ∃ i ∈ hits n msgs, readies (msgs.take (i + 1)) = n :=
      exists_hit hn₀ (by omega) (Nat.mod_eq_of_lt hn)
    obtain ⟨j, hj, hjn⟩ : ∃ j ∈ hits n msgs, readies (msgs.take (j + 1)) = 2 ^ 32 + n :=
      exists_hit (by omega) (not_lt.1 hfew) hmod
    rw [Finset.card_le_one.1 h _ hi _ hj] at hin
    omega

/-! ## The runs of the master -/

namespace Master

variable {m : Master} {msgId : Word} {pid : Word} {workers : WorkersPid} {b : Boot}
  {es : List MasterEv}

theorem workerCount_counted (m : Master) (msgId : Word) : (m.counted msgId).workerCount =
    if msgId = workerReadyMsgId then m.workerCount + 1 else m.workerCount := by
  unfold counted; split_ifs <;> rfl

/-- What a run has counted. -/
structure Counted (workers : WorkersPid) (es : List MasterEv) (p : Process Master) : Prop where
  readyCalls : p.st.readyCalls = (hits workers.pids.length (workerMsgs es)).card
  inv : p.halted = none → p.st.Inv
  workersPid : p.halted = none → p.st.workersPid = workers
  workerCount : p.halted = none → p.st.workerCount = BitVec.ofNat 32 (readies (workerMsgs es))

theorem barrier_counted_iff (hw : m.workersPid = workers) {msgs : List WorkerMsg} {fd : Fd}
    (hc : m.workerCount = BitVec.ofNat 32 (readies msgs)) :
    (m.counted msgId).Barrier ↔
      readies (msgs ++ [(fd, msgId)]) % 2 ^ 32 = workers.pids.length := by
  rw [barrier_iff, workerCount_counted, workersPid_counted, hw, hc, readies_snoc, eq_comm]
  split_ifs
  · rw [show (1 : Word) = BitVec.ofNat 32 1 from rfl, ← BitVec.ofNat_add, BitVec.toNat_ofNat]
  · rw [BitVec.toNat_ofNat, Nat.add_zero]

theorem Counted.step {p : Process Master} (h : Counted workers es p) {e : MasterEv}
    (he : machine.can p e) : Counted workers (es ++ [e]) (machine.next p e) := by
  have hinv := h.inv he.1
  have hmsgs : workerMsgs (es ++ [e]) = workerMsgs es ++ e.workerMsg?.toList := by
    simp [workerMsgs, List.filterMap_append, List.filterMap_cons]
    cases e.workerMsg? <;> rfl
  have hcalls : p.st.readyCalls + p.st.calls e =
      (hits workers.pids.length (workerMsgs (es ++ [e]))).card := by
    rw [hmsgs, h.readyCalls, calls]
    rcases hm : e.workerMsg? with _ | ⟨fd, msgId⟩
    · simp
    · rw [Option.toList_some, card_hits_snoc]
      exact congrArg _ (if_congr (barrier_counted_iff (h.workersPid he.1) (h.workerCount he.1))
        rfl rfl)
  rcases code_cases hinv he.2 with ⟨-, m', hrun, hinv', ht⟩ | ⟨-, e', m', hrun, hc⟩
  · have hnext : machine.next p e = ⟨m', p.halted⟩ := Process.exec_ok hrun
    rw [hnext]
    refine ⟨ht.readyCalls.trans hcalls, fun _ => hinv',
      fun _ => ht.workersPid.trans (h.workersPid he.1), fun _ => ?_⟩
    rw [ht.workerCount, h.workerCount he.1, hmsgs]
    rcases e.workerMsg? with _ | ⟨fd, msgId⟩
    · simp
    · rw [Option.toList_some, readies_snoc]
      by_cases hid : msgId = workerReadyMsgId <;> simp [hid, BitVec.ofNat_add]
  · have hnext : machine.next p e = ⟨m', some e'⟩ := Process.exec_error hrun
    rw [hnext]
    exact ⟨hc.trans hcalls, by simp, by simp, by simp⟩

theorem run_counted (hb : b.Possible) (hw : 0 < workers.pids.length)
    (hinit : (init pid workers b).halted = none) (hc : machine.Can (init pid workers b) es) :
    Counted workers es (machine.run (init pid workers b) es) := by
  obtain ⟨hs, -⟩ := init_started hb hinit
  refine hc.inv_hist (I := Counted workers) ?_ fun es p e h he => h.step he
  refine ⟨?_, fun _ => hs.inv, fun _ => hs.workersPid, fun _ => hs.workerCount⟩
  rw [hs.readyCalls, if_neg (List.ne_nil_of_length_pos hw)]
  rfl

/-- **The master gets ready once, and with every worker ready,** exactly when
    the messages of its workers are orderly: `master_ready_forwork` is called at
    most once in the run, and not before WORKER_READY has come from as many
    different workers as there are. -/
theorem masterReadyForwork_once_iff (hb : b.Possible) (hw : 0 < workers.pids.length)
    (hinit : (init pid workers b).halted = none) (hc : machine.Can (init pid workers b) es) :
    ((machine.run (init pid workers b) es).st.readyCalls ≤ 1 ∧
      ∀ es', es' <+: es → 0 < (machine.run (init pid workers b) es').st.readyCalls →
        workers.pids.length ≤ (readySenders (workerMsgs es')).toFinset.card) ↔
    Orderly workers.pids.length (workerMsgs es) := by
  have hlt : workers.pids.length < 2 ^ 32 := workers.length_lt.trans (by norm_num)
  have hcalls : ∀ es', es' <+: es → (machine.run (init pid workers b) es').st.readyCalls =
      (hits workers.pids.length (workerMsgs es')).card := by
    rintro es' ⟨rest, rfl⟩
    exact (run_counted hb hw hinit (Machine.all_append.1 hc).1).readyCalls
  rw [hcalls es (List.prefix_refl es)]
  constructor
  · rintro ⟨hone, hall⟩
    refine orderly_of_hits hw hlt hone fun pre ⟨rest, hrest⟩ hh => ?_
    obtain ⟨es', es'', rfl, rfl, -⟩ := List.filterMap_eq_append_iff.1 hrest.symm
    exact hall es' (List.prefix_append ..) (hcalls es' (List.prefix_append ..) ▸ hh.card_pos)
  · intro h
    refine ⟨h.card_hits_le_one, fun es' hp hpos => h.le_card ?_ ?_⟩
    · obtain ⟨rest, rfl⟩ := hp
      exact ⟨workerMsgs rest, by simp [workerMsgs]⟩
    · exact Finset.card_pos.1 (hcalls es' hp ▸ hpos)

/-- Two workers connect and are ready, each once. -/
def twoReadyEvents : List MasterEv :=
  [.call 4 (.workerConnect 5), .call 4 (.workerConnect 6),
    .call 5 (.workerMsg (some (SerializedMsg.ofMsg ⟨workerReadyMsgId, 101⟩).bytes) ⟨-1, true, true⟩),
    .call 6 (.workerMsg (some (SerializedMsg.ofMsg ⟨workerReadyMsgId, 102⟩).bytes) ⟨7, true, true⟩)]

theorem masterReadyForwork_once_two :
    (machine.run (init 100 twoWorkers boot) twoReadyEvents).st.readyCalls ≤ 1 ∧
      ∀ es', es' <+: twoReadyEvents →
        0 < (machine.run (init 100 twoWorkers boot) es').st.readyCalls →
        2 ≤ (readySenders (workerMsgs es')).toFinset.card := by
  refine (masterReadyForwork_once_iff (by decide) (by decide) (by decide) (by decide)).2
    ⟨fun _ => by decide, fun pre x hp hpre => ?_, by decide⟩
  have hlen : (workerMsgs twoReadyEvents).length = 2 := by decide
  have hle : readies pre ≤ pre.length := List.countP_le_length
  have := hp.length_le
  simp only [List.length_append, List.length_singleton, hlen] at this
  have : readies pre = 2 := hpre
  omega

/-- The worker is ready, and sends another message. -/
def readyAndMore : List MasterEv :=
  [.call 4 (.workerConnect 5),
    .call 5 (.workerMsg (some (SerializedMsg.ofMsg ⟨workerReadyMsgId, 101⟩).bytes) ⟨6, true, true⟩),
    .call 5 (.workerMsg (some (SerializedMsg.ofMsg ⟨7, 101⟩).bytes) ⟨7, true, true⟩)]

/-- A message that the master does not know, after the barrier, makes it ready
    again. -/
theorem masterReadyForwork_twice :
    ¬ ∀ (pid : Word) (workers : WorkersPid) (b : Boot) (es : List MasterEv), b.Possible →
      0 < workers.pids.length → (init pid workers b).halted = none →
      machine.Can (init pid workers b) es →
      (machine.run (init pid workers b) es).st.readyCalls ≤ 1 ∧
        ∀ es', es' <+: es → 0 < (machine.run (init pid workers b) es').st.readyCalls →
          workers.pids.length ≤ (readySenders (workerMsgs es')).toFinset.card := by
  intro h
  exact absurd (h 100 oneWorker boot readyAndMore (by decide) (by decide) (by decide)
    (by decide)).1 (by decide)

end Master

end ProxyBroker
