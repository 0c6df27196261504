/-
  What a round of the broker of `officialMajordomo` passes to `send`.

  * `Puts P outs`: the messages `outs` and what workers are told, and nothing
    else; `P` holds of the workers in memory (`Staff`).
  * `PutsOne P C`: at most one message besides, and it meets `C`.
  * `Answer`: what is sent besides: the answer to a question that the broker
    answers itself, or a reply that is passed on.
  * `code_puts`: each round sends at most one answer.
-/
import ProxyBroker.MajordomoCount
import ProxyBroker.MajordomoQueue
import ProxyBroker.MajordomoReserved

namespace ProxyBroker.Majordomo

open Proc Zmsg

variable {t u v : Tables} {l l' : List Happening} {outs outs' : List Zmsg} {h : Happening}
  {wrk : Ptr} {w : Worker} {srv name : Bytes} {sv : Service} {msg : Zmsg}

/-! ## Messages in the log -/

/-- A message that is passed to `send`. -/
def Happening.message : Happening → Option Zmsg
  | .sent msg => some msg
  | .queued .. | .workerSend .. | .made _ | .replied _ | .deleted .. => none

/-- What a worker is told. -/
def Happening.tale : Happening → Option (Worker × Bytes × Option Zmsg)
  | .workerSend _ w command msg => some (w, command, msg)
  | .queued .. | .sent _ | .made _ | .replied _ | .deleted .. => none

/-- The messages that have been passed to `send`. -/
def sents (log : List Happening) : List Zmsg := log.filterMap Happening.message

/-- What workers have been told. -/
def tales (log : List Happening) : List (Worker × Bytes × Option Zmsg) :=
  log.filterMap Happening.tale

/-- What workers are told: of a request, or a command without a message. -/
inductive Told : Bytes → Option Zmsg → Prop
  | request (msg : Zmsg) : Told mdpwRequest (some msg)
  | heartbeat : Told mdpwHeartbeat none
  | disconnect : Told mdpwDisconnect none

/-- The message that tells it. -/
def telling (x : Worker × Bytes × Option Zmsg) : Zmsg := Broker.toWorker x.1 x.2.1 x.2.2

@[simp] theorem sents_append : sents (l ++ l') = sents l ++ sents l' := List.filterMap_append

@[simp] theorem tales_append : tales (l ++ l') = tales l ++ tales l' := List.filterMap_append

/-- Every worker in memory meets `P`, of its identity and its service. -/
def Staff (P : Bytes → Option Bytes → Prop) (t : Tables) : Prop :=
  ∀ wrk w, t.heap wrk = some w → P w.mIdentity w.mService

variable {P : Bytes → Option Bytes → Prop}

theorem Staff.setWorker (hs : Staff P t) {w' : Worker} (hw : P w'.mIdentity w'.mService) :
    Staff P (t.setWorker wrk w') := by
  intro wrk' w₀ h
  rcases eq_or_ne wrk' wrk with rfl | hne
  · obtain rfl : w' = w₀ := by simpa using h
    exact hw
  · exact hs wrk' w₀ (by simpa [hne] using h)

theorem Staff.release (hs : Staff P t) (wrk : Ptr) (id : Bytes) : Staff P (t.release wrk id) := by
  intro wrk' w₀ h
  rcases eq_or_ne wrk' wrk with rfl | hne
  · simp [Tables.release] at h
  · exact hs wrk' w₀ (by simpa [Tables.release, hne] using h)

/-- If the workers in memory meet `P` they still do, and the messages `outs`
    have been sent and what workers were told, in some order. -/
def Puts (P : Bytes → Option Bytes → Prop) (outs : List Zmsg) (t u : Tables) : Prop :=
  Staff P t → Staff P u ∧ ∃ l, u.log = t.log ++ l ∧
    (sents l).Perm (outs ++ (tales l).map telling) ∧
      ∀ x ∈ tales l, P x.1.mIdentity x.1.mService ∧ Told x.2.1 x.2.2

/-- The log is as before. -/
theorem Puts.of_eq (hlog : u.log = t.log) (hs : Staff P t → Staff P u) : Puts P [] t u := fun h =>
  ⟨hs h, [], by simp [hlog], .refl _, by simp [tales]⟩

/-- Something is logged that sends nothing. -/
theorem Puts.note_quiet (hm : h.message = none) (ht : h.tale = none) : Puts P [] t (t.note h) :=
  fun hs => ⟨hs, [h], rfl, by simp [sents, tales, hm, ht], by simp [tales, ht]⟩

/-- A message is sent. -/
theorem Puts.note_sent (msg : Zmsg) : Puts P [msg] t (t.note (.sent msg)) := fun hs =>
  ⟨hs, [.sent msg], rfl, by simp [sents, tales, Happening.message, Happening.tale],
    by simp [tales, Happening.tale]⟩

theorem Puts.trans (h : Puts P outs t u) (h' : Puts P outs' u v) :
    Puts P (outs ++ outs') t v := by
  intro hs
  obtain ⟨hu, l, hl, hsent, htold⟩ := h hs
  obtain ⟨hv, l', hl', hsent', htold'⟩ := h' hu
  refine ⟨hv, l ++ l', by rw [hl', hl, List.append_assoc], ?_, ?_⟩
  · rw [sents_append, tales_append, List.map_append]
    refine (hsent.append hsent').trans ?_
    rw [List.append_assoc, List.append_assoc]
    exact .append_left outs (List.perm_append_comm_assoc ..)
  · intro x hx
    rw [tales_append, List.mem_append] at hx
    exact hx.elim (htold x) (htold' x)

theorem puts_queue (t : Tables) (srv : Bytes) (sv : Service) (msg : Zmsg) :
    Puts P [] t (t.queue srv sv msg) := by
  let t' := t.setService srv { sv with mRequests := sv.mRequests ++ [msg] }
  have hservice : Puts P [] t t' := .of_eq rfl id
  exact hservice.trans (.note_quiet rfl rfl)

instance (P : Bytes → Option Bytes → Prop) : IsPreorder Tables (Puts P []) where
  refl _ := .of_eq rfl id
  trans _ _ _ h h' := h.trans h'

/-- Telling workers sends what they are told. -/
theorem puts_hands (P : Bytes → Option Bytes → Prop) :
    Broker.Hands Told (Puts P []) where
  tells {t wrk w command msg} hc hw hs := by
    let out := Broker.toWorker w command msg
    have htales : tales [.workerSend wrk w command msg, .sent out] = [(w, command, msg)] := rfl
    refine ⟨hs, [.workerSend wrk w command msg, .sent out], by simp [Tables.note, out], ?_, ?_⟩
    · rw [htales]
      exact .refl _
    · rw [htales]
      simpa using ⟨hs wrk w hw, hc⟩
  waiting _ _ := .of_eq rfl id
  waits {t wrk w srv sv} expiry hw _ _ := by
    refine .of_eq rfl fun hs => ?_
    let t' := { t with mWaiting := t.mWaiting.insert wrk }.setService srv
      { sv with mWaiting := sv.mWaiting ++ [wrk] }
    show Staff P (t'.setWorker wrk { w with mExpiry := expiry })
    exact Staff.setWorker hs (hs wrk w hw)
  service _ _ := .of_eq rfl id
  release {t wrk w} hw hs :=
    have hnote := Puts.note_quiet (P := P)
      (t := { t.release wrk w.mIdentity with log := t.log }) (h := .deleted wrk ..) rfl rfl
    hnote (hs.release wrk w.mIdentity)

/-- At most one message is sent besides what workers are told, and it meets
    `C`. -/
def PutsOne (P : Bytes → Option Bytes → Prop) (C : Zmsg → Prop) (t u : Tables) : Prop :=
  ∃ out : Option Zmsg, Puts P out.toList t u ∧ ∀ m ∈ out, C m

variable {C C' : Zmsg → Prop}

theorem Puts.one (h : Puts P [] t u) : PutsOne P C t u := ⟨none, h, by simp⟩

theorem PutsOne.refl (t : Tables) : PutsOne P C t t := Puts.one (refl_of (Puts P []) t)

theorem PutsOne.imp (h : PutsOne P C t u) (hC : ∀ m, C m → C' m) : PutsOne P C' t u := by
  obtain ⟨out, hout, hm⟩ := h
  exact ⟨out, hout, fun m hmem => hC m (hm m hmem)⟩

theorem PutsOne.after (h : Puts P [] t u) (h' : PutsOne P C u v) : PutsOne P C t v := by
  obtain ⟨out, hout, hm⟩ := h'
  exact ⟨out, h.trans hout, hm⟩

theorem PutsOne.before (h : PutsOne P C t u) (h' : Puts P [] u v) : PutsOne P C t v := by
  obtain ⟨out, hout, hm⟩ := h
  have hall := hout.trans h'
  rw [List.append_nil] at hall
  exact ⟨out, hall, hm⟩

namespace Broker

variable {s : Broker} {sender empty header command part b : Bytes} {rest body : Zmsg} {addr : Ptr}
  {junk : BitVec 64}

theorem send_tables (msg : Zmsg) (s : Broker) :
    ((send msg).final s).toTables = s.toTables.note (.sent msg) := by
  rw [send, upd, final_modify_bind, final_zoom]

theorem puts_heartbeats : Keeps (OnTables (Puts P [])) heartbeats :=
  (puts_hands P).heartbeats .heartbeat

theorem puts_require (t : Tables) (name : Bytes) (junk : BitVec 64) :
    Puts P [] t (require t name junk) := .of_eq rfl id

/-! ## Clients -/

/-- What the broker may answer itself. -/
def statuses (name : Bytes) : List Bytes :=
  if name = mmiService then [lit ['2', '0', '0'], lit ['4', '0', '4']] else [lit ['5', '0', '1']]

/-- A message to a client. -/
def toClient (client name : Bytes) (body : Zmsg) : Zmsg :=
  client :: [] :: mdpcClient :: name :: body

theorem serviceInternal_puts (sender : Bytes) (hb : body ≠ []) (s : Broker) :
    PutsOne P (fun m => ∃ status ∈ statuses name,
        m = toClient (cStr sender) (cStr name) (body.dropLast ++ [status]))
      s.toTables ((serviceInternal name (addressed (cStr sender) body)).final s).toTables := by
  obtain ⟨parts, part, rfl⟩ : ∃ parts part, body = parts ++ [part] :=
    ⟨body.dropLast, body.getLast hb, (List.dropLast_append_getLast hb).symm⟩
  have hanswer : ∀ status ∈ statuses name, cStr status = status →
      PutsOne P (fun m => ∃ status ∈ statuses name,
          m = toClient (cStr sender) (cStr name) ((parts ++ [part]).dropLast ++ [status]))
        s.toTables
        ((unwrap (Zmsg.bodySet (cStr sender :: [] :: (parts ++ [part])) status) >>= fun r =>
          send ((r.2.wrap mdpcClient (some name)).wrap r.1 (some []))).final s).toTables := by
    intro status hmem hstatus
    have hmdpc : cStr mdpcClient = mdpcClient := by decide
    refine ⟨some (toClient (cStr sender) (cStr name) (parts ++ [status])), ?_, ?_⟩
    · rw [bodySet_request, unwrap_cons, pure_bind, send_tables]
      simp only [unwrapped, if_true, wrap, pushFront, cStr_cStr, hmdpc, hstatus,
        show cStr [] = [] from rfl]
      exact .note_sent _
    · rintro m ⟨⟩
      exact ⟨status, hmem, by simp⟩
  rw [addressed_cStr, serviceInternal]
  by_cases hname : name = mmiService
  · rw [if_pos hname, body_request]
    simp only [Option.bind_some, final_get_bind]
    cases s.mServices (cStr part) with
    | none => exact .refl _
    | some sv =>
      by_cases hw : sv.mWorkers ≠ 0
      · simp only [if_pos hw, pure_bind]
        exact hanswer _ (by simp [statuses, hname]) (by decide)
      · simp only [if_neg hw, pure_bind]
        exact hanswer _ (by simp [statuses, hname]) (by decide)
  · rw [if_neg hname]
    exact hanswer _ (by simp [statuses, hname]) (by decide)

/-- A request for an internal service that is answered. -/
def Internal (sender : Bytes) (msg m : Zmsg) : Prop :=
  ∃ part body, msg = part :: body ∧ body ≠ [] ∧ Reserved (cStr part) ∧
    ∃ status ∈ statuses (cStr part),
      m = toClient (cStr sender) (cStr part) (body.dropLast ++ [status])

theorem clientProcess_puts (sender : Bytes) (msg : Zmsg) (junk : BitVec 64) (s : Broker) :
    PutsOne P (Internal sender msg) s.toTables
      ((clientProcess (cStr sender) msg junk).final s).toTables := by
  rcases msg with _ | ⟨part, _ | ⟨b, body⟩⟩
  · exact .refl _
  · exact .refl _
  rcases eq_or_ne (cStr part) [] with hname | hname
  · rw [clientProcess_nameless hname]
    exact .refl _
  rw [run_eq_final (clientProcess_run hname)]
  refine .after (puts_require s.toTables (cStr part) junk) ?_
  split_ifs with hres
  · refine (serviceInternal_puts (P := P) sender (List.cons_ne_nil b body)
      { s with toTables := require s.toTables (cStr part) junk }).imp ?_
    rintro m ⟨status, hmem, rfl⟩
    exact ⟨part, b :: body, rfl, List.cons_ne_nil b body, hres, status, hmem, by rw [cStr_cStr]⟩
  · rw [run_eq_final (serviceDispatch_run (mServices_require ..))]
    let t := (require s.toTables (cStr part) junk).queue (cStr part)
      (required s.toTables (cStr part) junk) (addressed (cStr sender) (b :: body))
    have hqueue : Puts P [] (require s.toTables (cStr part) junk) t := puts_queue _ _ _ _
    exact Puts.one (hqueue.trans ((puts_hands P).serviceDispatch .request (cStr part)
      { s with toTables := t }))

/-! ## Workers -/

/-- The reply of a worker that is passed on. -/
def PassedOn (t : Tables) (w : Worker) (msg m : Zmsg) : Prop :=
  ∃ client rest srv sv, msg = client :: rest ∧ w.mService = some srv ∧
    t.mServices srv = some sv ∧ m = toClient (cStr client) (cStr sv.mName) (unwrapped rest)

theorem workerReplies_puts (hw : s.heap wrk = some w) (msg : Zmsg) :
    PutsOne P (PassedOn s.toTables w msg) s.toTables
      ((workerReplies wrk msg).final s).toTables := by
  have hderef : (deref wrk).run s = .ok w s := by simp [deref, hw]
  rcases msg with _ | ⟨client, rest⟩
  · exact .refl _
  rw [workerReplies, unwrap_cons, pure_bind, final_bind_ok hderef]
  cases hs : w.mService with
  | none => exact .refl _
  | some srv =>
    cases hsv : s.mServices srv with
    | none =>
      have hstop : (derefService srv).run s = .error .abort s := by simp [derefService, hsv]
      rw [final_bind_error hstop]
      exact .refl _
    | some sv =>
      have hservice : (derefService srv).run s = .ok sv s := by simp [derefService, hsv]
      let out := toClient (cStr client) (cStr sv.mName) (unwrapped rest)
      have hout : ((unwrapped rest).wrap mdpcClient (some sv.mName)).wrap (cStr client)
          (some []) = out := by
        conv_rhs => rw [show out = toClient (cStr client) _ _ from rfl, ← cStr_cStr client]
        rfl
      have hreplied : Puts P [] s.toTables (s.toTables.note (.replied wrk)) := .note_quiet rfl rfl
      have hsent : Puts P [out] (s.toTables.note (.replied wrk))
          ((s.toTables.note (.replied wrk)).note (.sent out)) := .note_sent out
      have hwaits := Keeps.after (fun _ => (puts_hands P).workerWaiting .request wrk) (send out)
        { s with toTables := s.toTables.note (.replied wrk) }
      rw [OnTables, send_tables] at hwaits
      rw [final_bind_ok hservice, hout]
      refine .after hreplied ⟨some out, hsent.trans hwaits, ?_⟩
      rintro m ⟨⟩
      exact ⟨client, rest, srv, sv, rfl, hs, hsv, rfl⟩

/-- A worker joins the service that it names. -/
theorem workerJoins_puts (hw : s.heap wrk = some w) {msg : Zmsg}
    (hP : ∀ part ∈ msg.head?, P w.mIdentity (some (cStr part))) (junk : BitVec 64) :
    OnTables (Puts P []) s ((workerJoins wrk msg junk).final s) := by
  rcases msg with _ | ⟨part, msg⟩
  · exact refl_of (OnTables (Puts P [])) s
  simp only [workerJoins, popFront, pure_bind]
  rcases eq_or_ne (cStr part) [] with hname | hname
  · rw [hname]
    exact refl_of (OnTables (Puts P [])) s
  let t := require s.toTables (cStr part) junk
  have hderef : (deref wrk).run { s with toTables := t } = .ok w { s with toTables := t } := by
    have hheap : t.heap wrk = some w := hw
    simp [deref, hheap]
  have hattach : Puts P [] t (t.setWorker wrk { w with mService := some (cStr part) }) :=
    .of_eq rfl fun hs => Staff.setWorker hs (hP part rfl)
  have hrest := derefService_keeps (R := Puts P [])
    (fun s sv (_ : s.mServices (cStr part) = some sv) =>
      Keeps.bind_at (p := upd (·.setService (cStr part) { sv with mWorkers := sv.mWorkers + 1 }))
        (f := fun _ => workerWaiting wrk) (Puts.of_eq rfl id) fun _ =>
          (puts_hands P).workerWaiting .request wrk)
  rw [final_bind_ok (serviceRequire_run hname junk s), final_bind_ok hderef]
  exact (puts_require s.toTables (cStr part) junk).trans (hattach.trans
    (hrest { s with toTables := t.setWorker wrk { w with mService := some (cStr part) } }))

/-- What `worker_process` does with a worker that is registered. -/
theorem workerProcess_known_run (hsender : sender ≠ []) (hwrk : s.mWorkers sender = some wrk) :
    (workerProcess sender (command :: rest) addr junk).run s =
      (if cStr command = mdpwReady then workerDelete wrk true
      else if cStr command = mdpwReply then workerReplies wrk rest
      else if cStr command = mdpwHeartbeat then do
        let now ← sClock
        let w ← deref wrk
        upd (·.setWorker wrk { w with mExpiry := now + heartbeatExpiry })
      else if cStr command = mdpwDisconnect then workerDelete wrk false
      else return).run s := by
  have hparts : ¬ Zmsg.parts (command :: rest) < 1 := by simp [parts]
  have hlen : ¬ sender.length = 0 := by simpa using hsender
  simp only [workerProcess, if_neg hparts, popFront, EStateM.run_bind, EStateM.run_pure,
    EStateM.run_get, workerRequire, if_neg hlen, hwrk, Option.isSome_some, if_true]

/-- What `worker_process` does with a worker that is new. -/
theorem workerProcess_new_run (hsender : sender ≠ []) (hnew : s.mWorkers sender = none) :
    (workerProcess sender (command :: rest) addr junk).run s =
      (if cStr command = mdpwReady then
        if Reserved sender then workerDelete addr true else workerJoins addr rest junk
      else if cStr command = mdpwReply then workerDelete addr true
      else if cStr command = mdpwHeartbeat then workerDelete addr true
      else if cStr command = mdpwDisconnect then workerDelete addr false
      else return).run { s with toTables := s.toTables.addWorker addr sender } := by
  have hparts : ¬ Zmsg.parts (command :: rest) < 1 := by simp [parts]
  have hlen : ¬ sender.length = 0 := by simpa using hsender
  simp only [workerProcess, if_neg hparts, popFront, EStateM.run_bind, EStateM.run_pure,
    EStateM.run_get, workerRequire, if_neg hlen, hnew, Option.isSome_none, Bool.false_eq_true,
    if_false, upd, EStateM.run_modify]

/-- The reply of a worker that is registered is passed on. -/
def Replies (t : Tables) (sender : Bytes) (msg m : Zmsg) : Prop :=
  ∃ command rest wrk w, msg = command :: rest ∧ cStr command = mdpwReply ∧
    t.mWorkers sender = some wrk ∧ t.heap wrk = some w ∧ PassedOn t w rest m

/-- A worker that is registered keeps its service. -/
theorem workerProcess_known_puts (hsender : sender ≠ []) (hwrk : s.mWorkers sender = some wrk)
    (command : Bytes) (rest : Zmsg) (addr : Ptr) (junk : BitVec 64) :
    PutsOne P (Replies s.toTables sender (command :: rest)) s.toTables
      ((workerProcess sender (command :: rest) addr junk).final s).toTables := by
  have hands := puts_hands P
  rw [run_eq_final (workerProcess_known_run hsender hwrk)]
  split_ifs with _ hreply
  · exact Puts.one (hands.workerDelete_told .disconnect wrk true s)
  · cases hw : s.heap wrk with
    | none =>
      have hstop : (workerReplies wrk rest).final s = s := by
        rcases rest with _ | ⟨client, rest⟩
        · rfl
        · simp [final, workerReplies, unwrap_cons, deref, hw]
      rw [hstop]
      exact .refl _
    | some w =>
      exact (workerReplies_puts hw rest).imp fun m hm =>
        ⟨command, rest, wrk, w, rfl, hreply, hwrk, hw, hm⟩
  · have hseen : Keeps (OnTables (Puts P [])) (do
        let now ← sClock
        let w ← deref wrk
        upd (·.setWorker wrk { w with mExpiry := now + heartbeatExpiry })) := by
      refine sClock_keeps.bind fun now s' => deref_bind fun w hw => ?_
      exact Puts.of_eq rfl fun hs => Staff.setWorker hs (hs wrk w hw)
    exact Puts.one (hseen s)
  · exact Puts.one (hands.workerDelete wrk s)
  · exact .refl _

theorem workerProcess_puts (hnew : P sender none) {msg : Zmsg} (hready : ∀ command part rest,
      msg = command :: part :: rest → cStr command = mdpwReady → P sender (some (cStr part)))
    (addr : Ptr) (junk : BitVec 64) (s : Broker) :
    PutsOne P (Replies s.toTables sender msg) s.toTables
      ((workerProcess sender msg addr junk).final s).toTables := by
  rcases msg with _ | ⟨command, rest⟩
  · exact .refl _
  rcases eq_or_ne sender [] with rfl | hsender
  · exact .refl _
  have hands := puts_hands P
  have hdelete : ∀ wrk, Keeps (OnTables (Puts P [])) (workerDelete wrk true) := fun wrk =>
    hands.workerDelete_told .disconnect wrk true
  cases hwrk : s.mWorkers sender with
  | none =>
    let s' : Broker := { s with toTables := s.toTables.addWorker addr sender }
    have hmade : Puts P [] s.toTables s'.toTables := by
      let t : Tables := { s.toTables.setWorker addr ⟨sender, none, 0⟩ with
        mWorkers := Function.update s.mWorkers sender (some addr) }
      have hset : Puts P [] s.toTables t := .of_eq rfl fun hs => Staff.setWorker hs hnew
      exact hset.trans (.note_quiet rfl rfl)
    have hw : s'.heap addr = some ⟨sender, none, 0⟩ := by simp [s', Tables.addWorker]
    rw [run_eq_final (workerProcess_new_run hsender hwrk)]
    refine .after hmade ?_
    split_ifs with hcommand
    · exact Puts.one (hdelete addr s')
    · refine Puts.one (workerJoins_puts hw (fun part hpart => ?_) junk)
      obtain ⟨rest, rfl⟩ : ∃ l, rest = part :: l := ⟨_, List.eq_cons_of_mem_head? hpart⟩
      exact hready command part rest rfl hcommand
    · exact Puts.one (hdelete addr s')
    · exact Puts.one (hdelete addr s')
    · exact Puts.one (hands.workerDelete addr s')
    · exact .refl _
  | some wrk => exact workerProcess_known_puts hsender hwrk command rest addr junk

/-! ## Rounds -/

/-- The worker that a message comes from meets `P` when it has been registered
    and when it has joined a service. -/
def Admits (P : Bytes → Option Bytes → Prop) (parts : Zmsg) : Prop :=
  ∀ sender empty header msg, parts = sender :: empty :: header :: msg → cStr header = mdpwWorker →
    P (cStr sender) none ∧ ∀ command part rest, msg = command :: part :: rest →
      cStr command = mdpwReady → P (cStr sender) (some (cStr part))

/-- What a message makes the broker send besides what workers are told. -/
inductive Answer (t : Tables) : Zmsg → Zmsg → Prop
  | internal {sender empty header part : Bytes} {body : Zmsg} {status : Bytes}
      (hheader : cStr header = mdpcClient) (hb : body ≠ []) (hres : Reserved (cStr part))
      (hstatus : status ∈ statuses (cStr part)) :
      Answer t (sender :: empty :: header :: part :: body)
        (toClient (cStr sender) (cStr part) (body.dropLast ++ [status]))
  | reply {sender empty header command client : Bytes} {rest : Zmsg} {wrk : Ptr} {w : Worker}
      {srv : Bytes} (hheader : cStr header = mdpwWorker) (hcommand : cStr command = mdpwReply)
      (hwrk : t.mWorkers (cStr sender) = some wrk) (hw : t.heap wrk = some w)
      (hs : w.mService = some srv) :
      Answer t (sender :: empty :: header :: command :: client :: rest)
        (toClient (cStr client) (cStr srv) (unwrapped rest))

theorem receive_puts (hi : Inv s.toTables) {frames : List Bytes} (hne : frames ≠ [])
    (ha : Admits P (frames.map recvPart)) (addr : Ptr) (junk : BitVec 64) :
    PutsOne P (Answer s.toTables (frames.map recvPart)) s.toTables
      ((receive frames addr junk).final s).toTables := by
  rw [receive, ofSocket_encode hne]
  rcases hparts : frames.map recvPart with _ | ⟨sender, _ | ⟨empty, _ | ⟨header, msg⟩⟩⟩
  · exact .refl _
  · exact .refl _
  · exact .refl _
  simp only [popFront, pure_bind]
  split_ifs with hclient hworker
  · refine (clientProcess_puts sender msg junk s).imp ?_
    rintro m ⟨part, body, rfl, hb, hres, status, hstatus, rfl⟩
    exact .internal hclient hb hres hstatus
  · obtain ⟨hnew, hready⟩ := ha sender empty header msg hparts hworker
    refine (workerProcess_puts hnew hready addr junk s).imp ?_
    rintro m ⟨command, rest, wrk, w, rfl, hreply, hwrk, hw, client, rest, srv, sv, rfl, hs, hsv, rfl⟩
    rw [(hi.listed srv sv hsv).1]
    exact .reply hworker hreply hwrk hw hs
  · exact .refl _

/-- **A round sends at most one answer**, and what workers are told. -/
theorem code_puts (hi : Inv s.toTables) {e : Round} (hne : e.frames ≠ some [])
    (ha : ∀ frames ∈ e.frames, Admits P (frames.map recvPart)) :
    PutsOne P (fun m => ∃ frames ∈ e.frames, Answer s.toTables (frames.map recvPart) m) s.toTables
      ((code e).final s).toTables := by
  let s₁ : Broker := { s with clock := e.clock }
  rw [code, final_modify_bind]
  rcases hf : e.frames with _ | frames
  · exact Puts.one (puts_heartbeats s₁)
  · have hframes : frames ≠ [] := fun h => hne (by rw [hf, h])
    have hbeat := Keeps.after (R := OnTables (Puts P [])) (fun _ => puts_heartbeats)
      (receive frames e.addr e.junk) s₁
    refine PutsOne.before ?_ hbeat
    exact (receive_puts (s := s₁) hi hframes (ha frames hf) e.addr e.junk).imp fun m hm =>
      ⟨frames, rfl, hm⟩

end Broker

end ProxyBroker.Majordomo
