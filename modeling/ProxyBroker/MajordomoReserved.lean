/-
  The names that the broker of `officialMajordomo` reserves.

  The broker looks for `mmi.` with `find_first_of`, which finds the first of
  these four characters, and where a worker is ready it looks at the sender
  instead of the service.

  `judges_iff`: when both tests come out right.
-/
import ProxyBroker.MajordomoKeeps

namespace ProxyBroker.Majordomo

open Proc Zmsg

/-- The name is in the reserved namespace. -/
def StartsMmi (name : Bytes) : Prop := lit ['m', 'm', 'i', '.'] <+: name

instance (name : Bytes) : Decidable (StartsMmi name) := inferInstanceAs (Decidable (_ <+: _))

namespace Broker

variable {s : Broker} {sender name : Bytes} {part b command : Bytes} {body rest : Zmsg} {addr : Ptr}
  {junk : BitVec 64} {sv : Service}

/-- What the test looks at is the first character. -/
theorem reserved_iff : Reserved name ↔
    4 ≤ name.length ∧ ∃ c ∈ name.head?, c ∈ lit ['m', 'i', '.'] := by
  refine and_congr_right fun hlen => ?_
  cases name with
  | nil => simp at hlen
  | cons c cs =>
    have hmem : (lit ['m', 'm', 'i', '.']).contains c = true ↔ c ∈ lit ['m', 'i', '.'] := by
      simp [lit]
    simp only [List.head?_cons, Option.mem_def, Option.some.injEq, exists_eq_left', ← hmem]
    simp [List.findIdx?_cons]

/-- The reserved namespace passes the test. -/
theorem StartsMmi.reserved (h : StartsMmi name) : Reserved name := by
  obtain ⟨cs, rfl⟩ := h
  rw [reserved_iff]
  simp [lit]

/-! ## Runs that begin with a happening -/

/-- The log has grown, and this happened first. -/
def Opens (h : Happening) (s s' : Broker) : Prop := ∃ l, s'.log = s.log ++ h :: l

theorem Opens.not_logs {h : Happening} {s' : Broker} {G : Happening → Prop} (ho : Opens h s s')
    (hh : ¬ G h) : ¬ OnTables (Logs G) s s' := by
  rintro ⟨l, hl, hg⟩
  obtain ⟨l', hl'⟩ := ho
  have heq : h :: l' = l := List.append_cancel_left (hl'.symm.trans hl)
  exact hh (hg h (heq ▸ List.mem_cons_self))

theorem allows_true : Allows (Logs fun _ => True) :=
  Usual.allows ⟨fun _ => trivial, fun _ _ _ => trivial, fun _ _ _ _ => trivial⟩

theorem run_eq_final {α : Type} {p q : Proc Broker α} {s s' : Broker} (h : p.run s = q.run s') :
    p.final s = q.final s' := by rw [final, final, h]

/-- It happened first in what ran first. -/
theorem Opens.bind {α β : Type} {h : Happening} {p : Proc Broker α} {f : α → Proc Broker β}
    (ho : Opens h s (p.final s)) (hf : ∀ a, Keeps (OnTables (Logs fun _ => True)) (f a)) :
    Opens h s ((p >>= f).final s) := by
  obtain ⟨l, hl⟩ := ho
  obtain ⟨l', hl', -⟩ := Keeps.after hf p s
  exact ⟨l ++ l', by rw [hl', hl, List.append_assoc, List.cons_append]⟩

/-! ## Clients -/

/-- A request that is queued is noted first. -/
theorem serviceDispatch_opens {msg : Zmsg} (hsv : s.mServices name = some sv) :
    Opens (.queued name msg) s ((serviceDispatch name (some msg)).final s) := by
  rw [run_eq_final (serviceDispatch_run hsv)]
  obtain ⟨l, hl, -⟩ := serviceDispatch_keeps allows_true name
    { s with toTables := s.toTables.queue name sv msg }
  refine ⟨l, hl.trans ?_⟩
  simp [Tables.queue]

/-- Happenings that queue nothing. -/
def QueuesNothing : Happening → Prop
  | .queued .. => False
  | .workerSend .. | .sent _ | .made _ | .replied _ | .deleted .. => True

/-- `client_process` answers a request for a service of the reserved namespace
    itself, and queues any other. -/
def JudgesClient (s : Broker) (sender part b : Bytes) (body : Zmsg) (junk : BitVec 64) : Prop :=
  (clientProcess sender (part :: b :: body) junk).run s =
    (if StartsMmi (cStr part) then serviceInternal (cStr part) (addressed sender (b :: body))
    else serviceDispatch (cStr part) (some (addressed sender (b :: body)))).run
      { s with toTables := require s.toTables (cStr part) junk }

theorem judgesClient_iff : JudgesClient s sender part b body junk ↔
    cStr part ≠ [] ∧ (Reserved (cStr part) ↔ StartsMmi (cStr part)) := by
  let s' : Broker := { s with toTables := require s.toTables (cStr part) junk }
  let req := addressed sender (b :: body)
  have hqueued : Opens (.queued (cStr part) req) s'
      ((serviceDispatch (cStr part) (some req)).final s') :=
    serviceDispatch_opens (mServices_require ..)
  constructor
  · intro h
    rcases eq_or_ne (cStr part) [] with hname | hname
    · have hmmi : ¬ StartsMmi (cStr part) := by
        rw [hname]
        decide
      rw [JudgesClient, if_neg hmmi] at h
      have hfinal := (run_eq_final h).symm.trans (clientProcess_nameless hname)
      have hlog := congrArg (fun u : Broker => u.log) hfinal
      exact absurd (Logs.of_eq hlog) (hqueued.not_logs (G := fun _ => False) id)
    refine ⟨hname, fun hres => ?_, StartsMmi.reserved⟩
    by_contra hmmi
    rw [JudgesClient, clientProcess_run hname, if_pos hres, if_neg hmmi] at h
    rw [← run_eq_final h] at hqueued
    exact hqueued.not_logs (G := QueuesNothing) id
      (serviceInternal_keeps (fun _ _ => .note trivial) (cStr part) req s')
  · rintro ⟨hname, hiff⟩
    rw [JudgesClient, clientProcess_run hname]
    simp only [hiff]

/-! ## Workers -/

/-- Happenings that tell no worker to disconnect. -/
def DisconnectsNobody : Happening → Prop
  | .workerSend _ _ command _ => command ≠ mdpwDisconnect
  | .queued .. | .sent _ | .made _ | .replied _ | .deleted .. => True

theorem allows_disconnectsNobody : Allows (Logs DisconnectsNobody) :=
  Usual.allows ⟨fun _ => trivial, fun _ _ _ => by simp [DisconnectsNobody, mdpwRequest, mdpwDisconnect],
    fun _ _ _ _ => trivial⟩

/-- A worker that is refused is told so first. -/
theorem workerDelete_opens {w : Worker} (hw : s.heap addr = some w) :
    Opens (.workerSend addr w mdpwDisconnect none) s ((workerDelete addr true).final s) := by
  have hsplit : workerDelete addr true =
      (do workerSend addr mdpwDisconnect [] none; workerDelete addr false) := rfl
  rw [hsplit]
  refine Opens.bind ?_ fun _ => workerDelete_keeps allows_true addr
  rw [run_eq_final (workerSend_run hw mdpwDisconnect none)]
  obtain ⟨l, hl, -⟩ := send_keeps (R := Logs fun _ => True) (fun _ _ => .note trivial) _
    { s with toTables := s.toTables.note (.workerSend addr w mdpwDisconnect none) }
  exact ⟨l, hl.trans (by simp)⟩

/-- `worker_process` refuses a worker that is new and ready if its service is in
    the reserved namespace, and lets any other join. -/
def JudgesWorker (s : Broker) (sender command part : Bytes) (rest : Zmsg) (addr : Ptr)
    (junk : BitVec 64) : Prop :=
  (workerProcess sender (command :: part :: rest) addr junk).run s =
    (if StartsMmi (cStr part) then workerDelete addr true
    else workerJoins addr (part :: rest) junk).run
      { s with toTables := s.toTables.addWorker addr sender }

theorem judgesWorker_iff (hready : cStr command = mdpwReady) (hnew : s.mWorkers sender = none) :
    JudgesWorker s sender command part rest addr junk ↔
      sender ≠ [] ∧ (Reserved sender ↔ StartsMmi (cStr part)) := by
  let s' : Broker := { s with toTables := s.toTables.addWorker addr sender }
  have hrefused : Opens (.workerSend addr ⟨sender, none, 0⟩ mdpwDisconnect none) s'
      ((workerDelete addr true).final s') :=
    workerDelete_opens (by simp [s', Tables.addWorker])
  have hjoins : OnTables (Logs DisconnectsNobody) s'
      ((workerJoins addr (part :: rest) junk).final s') :=
    workerJoins_keeps_at allows_disconnectsNobody fun _ _ _ => .of_eq rfl
  have hmade : ∀ u : Broker, (∃ l, u.log = s'.log ++ l) → u ≠ s := by
    rintro u ⟨l, hl⟩ rfl
    have hlen := congrArg List.length hl
    simp [s', Tables.addWorker] at hlen
  constructor
  · intro h
    rcases eq_or_ne sender [] with rfl | hsender
    · have hparts : ¬ Zmsg.parts (command :: part :: rest) < 1 := by simp [parts]
      have hstop : (workerProcess [] (command :: part :: rest) addr junk).final s = s := by
        simp [final, workerProcess, hparts, popFront, workerRequire]
      have hfinal := (run_eq_final h).symm.trans hstop
      refine absurd hfinal (hmade _ ?_)
      split_ifs
      · obtain ⟨l, hl⟩ := hrefused
        exact ⟨_, hl⟩
      · obtain ⟨l, hl, -⟩ := hjoins
        exact ⟨l, hl⟩
    refine ⟨hsender, ?_⟩
    rw [JudgesWorker, workerProcess_run hsender hready hnew] at h
    have hne : (workerDelete addr true).final s' ≠ (workerJoins addr (part :: rest) junk).final s' := by
      intro he
      rw [he] at hrefused
      exact hrefused.not_logs (G := DisconnectsNobody) (fun hd => hd rfl) hjoins
    constructor
    · intro hres
      by_contra hmmi
      rw [if_pos hres, if_neg hmmi] at h
      exact hne (run_eq_final h)
    · intro hmmi
      by_contra hres
      rw [if_neg hres, if_pos hmmi] at h
      exact hne (run_eq_final h).symm
  · rintro ⟨hsender, hiff⟩
    rw [JudgesWorker, workerProcess_run hsender hready hnew]
    simp only [hiff]

/-- **The tests for reserved names come out right exactly if** a request names a
    service and what passes the first test starts with `mmi.`, and if the
    second test, which is made of the sender, says what one of the service
    would. -/
theorem judges_iff {client : Bytes} (hready : cStr command = mdpwReady)
    (hnew : s.mWorkers sender = none) :
    (JudgesClient s client part b body junk ↔
      cStr part ≠ [] ∧ (Reserved (cStr part) ↔ StartsMmi (cStr part))) ∧
    (JudgesWorker s sender command part rest addr junk ↔
      sender ≠ [] ∧ (Reserved sender ↔ StartsMmi (cStr part))) :=
  ⟨judgesClient_iff, judgesWorker_iff hready hnew⟩

/-- A client asks for `echo`, which a worker is ready to serve. -/
theorem judges_iff_echo :
    let s := (Majordomo.init 0).st
    let echo := lit ['e', 'c', 'h', 'o']
    (JudgesClient s [67] echo [72] [] 0 ↔
      cStr echo ≠ [] ∧ (Reserved (cStr echo) ↔ StartsMmi (cStr echo))) ∧
    (JudgesWorker s [87] mdpwReady echo [] 7 0 ↔
      [87] ≠ ([] : Bytes) ∧ (Reserved [87] ↔ StartsMmi (cStr echo))) :=
  judges_iff (by decide) rfl

/-- A request for `mail` is not queued. -/
theorem judges_mail : ¬ ∀ (now : ℤ) (es : List Round), machine.Can (Majordomo.init now) es →
    ∀ (client part b : Bytes) (body : Zmsg) (junk : BitVec 64), cStr part ≠ [] →
      JudgesClient (machine.run (Majordomo.init now) es).st client part b body junk := by
  intro h
  have hmail := h 0 [] trivial [67] (lit ['m', 'a', 'i', 'l']) [72] [] 0 (by decide)
  exact absurd (judgesClient_iff.1 hmail).2 (by decide)

end Broker

end ProxyBroker.Majordomo
