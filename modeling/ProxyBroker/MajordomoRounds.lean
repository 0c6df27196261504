/-
  What a round of the broker does to its tables, and when it returns.

  `Course x` is the course of a round in which the work `x` comes in, and
  `Cut x` that of a round that ends the process.
-/
import ProxyBroker.MajordomoSteps

namespace ProxyBroker.Majordomo

open Proc Zmsg

/-- The service that work is for. -/
def Trigger.service : Trigger → Option Bytes
  | .none => Option.none
  | .queue srv _ | .wait _ srv => some srv

/-- The course of a round: the service that the work is for is settled. -/
def Course (x : Trigger) (t u : Tables) : Prop :=
  ∃ v v', Path t v ∧ Fires v x v' ∧ Path v' u ∧ ∀ srv ∈ x.service, SettledAt srv u

/-- The course of a round that ends the process. -/
def Cut (x : Trigger) (t u : Tables) : Prop :=
  ∃ v v', Path t v ∧ Fires v x v' ∧ Broker.Stops v' u

section
variable {t u v : Tables} {x : Trigger}

theorem Course.quiet (hp : Path t u) : Course .none t u :=
  ⟨t, t, .refl, rfl, hp, by simp [Trigger.service]⟩

theorem Cut.quiet (hp : Path t u) : Cut .none t u :=
  ⟨t, t, .refl, rfl, u, hp, .stopped⟩

theorem Course.after (hp : Path t u) (h : Course x u v) : Course x t v := by
  obtain ⟨z, z', hz, hf, hv, hset⟩ := h
  exact ⟨z, z', hp.trans hz, hf, hv, hset⟩

theorem Cut.after (hp : Path t u) (h : Cut x u v) : Cut x t v := by
  obtain ⟨z, z', hz, hf, hv⟩ := h
  exact ⟨z, z', hp.trans hz, hf, hv⟩

theorem Course.before (h : Course x t u) (hp : Path u v) : Course x t v := by
  obtain ⟨z, z', hz, hf, hu, hset⟩ := h
  exact ⟨z, z', hz, hf, hu.trans hp, fun srv hx => hp.settledAt (hset srv hx)⟩

theorem Course.inv (h : Course x t u) (hi : Inv t) : Inv u := by
  obtain ⟨z, z', hz, hf, hu, -⟩ := h
  exact hu.inv (hf.inv (hz.inv hi))

theorem Cut.inv (h : Cut x t u) (hi : Inv t) : Inv u := by
  obtain ⟨z, z', hz, hf, y, hy, he⟩ := h
  exact he.inv (hy.inv (hf.inv (hz.inv hi)))

end

namespace Broker

variable {s : Broker} {t : Tables} {wrk : Ptr} {w : Worker} {srv name sender : Bytes}
  {sv : Service} {msg body : Zmsg}

/-! ## Services -/

/-- The service `name` when it is required. -/
def required (t : Tables) (name : Bytes) (junk : BitVec 64) : Service :=
  (t.mServices name).getD ⟨name, [], [], junk⟩

/-- The tables after a service has been required. -/
def require (t : Tables) (name : Bytes) (junk : BitVec 64) : Tables :=
  t.setService name (required t name junk)

theorem require_of_some (junk : BitVec 64) (h : t.mServices name = some sv) :
    require t name junk = t := by
  rw [require, required, h, Tables.setService, Option.getD_some, ← h, Function.update_eq_self]

theorem require_path (t : Tables) (name : Bytes) (junk : BitVec 64) :
    Path t (require t name junk) := by
  cases h : t.mServices name with
  | none =>
    rw [require, required, h]
    exact .single (.service name junk h)
  | some sv => rw [require_of_some junk h]

@[simp] theorem mServices_require (t : Tables) (name : Bytes) (junk : BitVec 64) :
    (require t name junk).mServices name = some (required t name junk) := by simp [require]

theorem serviceRequire_wp (name : Bytes) (junk : BitVec 64) (s : Broker) :
    (serviceRequire name junk).wp
      (fun n s' => n = name ∧ s' = { s with toTables := require s.toTables name junk } ∧ name ≠ [])
      (fun s' => s' = s ∧ name = []) s := by
  by_cases hn : name = []
  · simp [serviceRequire, hn]
  · cases h : s.mServices name with
    | none => simp [serviceRequire, hn, h, require, required]
    | some sv => simp [serviceRequire, hn, h, require_of_some junk h]

/-! ## Courses -/

/-- From `s`, `p` takes its course with work that meets `W`, and returns if `R`
    holds. -/
def Runs (p : Proc Broker Unit) (W : Trigger → Prop) (R : Prop) (s : Broker) : Prop :=
  p.wp (fun _ s' => (∃ x, W x ∧ Course x s.toTables s'.toTables) ∧ R)
    (fun s' => (∃ x, W x ∧ Cut x s.toTables s'.toTables) ∧ ¬ R) s

section
variable {p : Proc Broker Unit} {W W' : Trigger → Prop} {R R' : Prop}

/-- Code that brings in no work and always returns. -/
theorem Runs.of_path (h : p.wp (fun _ s' => Path s.toTables s'.toTables) (fun _ => False) s)
    (hW : W .none) (hR : R) : Runs p W R s :=
  h.mono (fun _ _ hp => ⟨⟨.none, hW, .quiet hp⟩, hR⟩) fun _ h => h.elim

/-- Code that ends the process at once. -/
theorem Runs.stop (h : p.wp (fun _ _ => False) (fun s' => s' = s) s) (hW : W .none) (hR : ¬ R) :
    Runs p W R s :=
  h.mono (fun _ _ h => h.elim) fun _ h => ⟨⟨.none, hW, h ▸ .quiet .refl⟩, hR⟩

theorem Runs.imp (h : Runs p W R s) (hW : ∀ x, W x → W' x) (hR : R' ↔ R) : Runs p W' R' s := by
  refine wp.mono h ?_ ?_
  · intro _ s' h
    exact ⟨h.1.imp fun x hx => ⟨hW x hx.1, hx.2⟩, hR.2 h.2⟩
  · intro s' h
    exact ⟨h.1.imp fun x hx => ⟨hW x hx.1, hx.2⟩, fun h' => h.2 (hR.1 h')⟩

/-- Code that runs after a path. -/
theorem Runs.after {s₁ : Broker} (h : Runs p W R s₁) (hp : Path s.toTables s₁.toTables) :
    p.wp (fun _ s' => (∃ x, W x ∧ Course x s.toTables s'.toTables) ∧ R)
      (fun s' => (∃ x, W x ∧ Cut x s.toTables s'.toTables) ∧ ¬ R) s₁ := by
  refine wp.mono h ?_ ?_
  · rintro _ s' ⟨⟨x, hx, hcourse⟩, hR⟩
    exact ⟨⟨x, hx, hcourse.after hp⟩, hR⟩
  · rintro s' ⟨⟨x, hx, hcut⟩, hR⟩
    exact ⟨⟨x, hx, hcut.after hp⟩, hR⟩

end

/-! ## Clients -/

/-- A request to the internal service `name` can be answered. -/
def Answers (t : Tables) (name : Bytes) (body : Zmsg) : Prop :=
  (name = mmiService →
    ∀ part ∈ body.getLast?, cStr part = name ∨ (t.mServices (cStr part)).isSome) ∧
    Sendable body.dropLast

theorem answers_require (junk : BitVec 64) :
    Answers (require t name junk) name body ↔ Answers t name body := by
  have hiff : ∀ part, (cStr part = name ∨ ((require t name junk).mServices (cStr part)).isSome) ↔
      (cStr part = name ∨ (t.mServices (cStr part)).isSome) := by
    intro part
    by_cases h : cStr part = name
    · simp [h]
    · simp [require, h]
  simp only [Answers, hiff]

/-- An answer to a client is sent unless a part cannot be sent. -/
theorem answer_wp (client serviceName : Bytes) (parts : Zmsg) (s : Broker) :
    (send ((parts.wrap mdpcClient (some serviceName)).wrap client (some []))).wp
      (fun _ s' => ∃ fs out, s' = { s with toTables := s.toTables.note (.sent out), socket := fs } ∧
        Sendable parts)
      (fun s' => ∃ fs out, s' = { s with toTables := s.toTables.note (.sent out), socket := fs } ∧
        ¬ Sendable parts) s := by
  refine (send_wp _ s).mono ?_ ?_
  · rintro _ _ ⟨fs, rfl, h⟩
    exact ⟨fs, _, rfl, by simpa [wrap, pushFront] using h⟩
  · rintro _ ⟨fs, rfl, h⟩
    exact ⟨fs, _, rfl, by simpa [wrap, pushFront] using h⟩

/-- The body of a request to an internal service is its last part. -/
theorem body_request (sender part : Bytes) (parts : Zmsg) :
    Zmsg.body (sender :: [] :: (parts ++ [part])) = some (cStr part) := by
  simp [Zmsg.body, List.getLast?_cons_of_ne_nil]

theorem bodySet_request (sender part status : Bytes) (parts : Zmsg) :
    Zmsg.bodySet (sender :: [] :: (parts ++ [part])) status =
      sender :: [] :: (parts ++ [cStr status]) := by
  simp [bodySet, List.dropLast_cons_of_ne_nil]

theorem serviceInternal_wp (sender : Bytes) (hname : s.mServices name = some sv) (hb : body ≠ []) :
    (serviceInternal name (sender :: [] :: body)).wp
      (fun _ s' => Path s.toTables s'.toTables ∧ Answers s.toTables name body)
      (fun s' => Path s.toTables s'.toTables ∧ ¬ Answers s.toTables name body) s := by
  obtain ⟨parts, part, rfl⟩ : ∃ parts part, body = parts ++ [part] :=
    ⟨body.dropLast, body.getLast hb, (List.dropLast_append_getLast hb).symm⟩
  have hsend : ∀ status,
      (send ((wrap (parts ++ [cStr status]) mdpcClient (some name)).wrap (cStr sender)
        (some []))).wp
        (fun _ s' => Path s.toTables s'.toTables ∧ Sendable parts)
        (fun s' => Path s.toTables s'.toTables ∧ ¬ Sendable parts) s := by
    intro status
    have hiff : Sendable (parts ++ [cStr status]) ↔ Sendable parts := by
      simp [Sendable, or_imp, forall_and]
    refine (answer_wp (cStr sender) name (parts ++ [cStr status]) s).mono ?_ ?_
    · rintro _ _ ⟨fs, out, rfl, h⟩
      exact ⟨.single (.idle _ trivial), hiff.1 h⟩
    · rintro _ ⟨fs, out, rfl, h⟩
      exact ⟨.single (.idle _ trivial), fun h' => h (hiff.2 h')⟩
  by_cases hn : name = mmiService
  · simp only [serviceInternal, if_pos hn, wp_bind, wp_get, body_request, Option.bind_some]
    cases hsv : s.mServices (cStr part) with
    | none =>
      refine ⟨.refl, ?_⟩
      intro h
      rcases h.1 hn part (by simp) with he | hsome
      · exact absurd (hname.symm.trans (he ▸ hsv)) (by simp)
      · simp [hsv] at hsome
    | some sv' =>
      have hiff : Answers s.toTables name (parts ++ [part]) ↔ Sendable parts := by
        simp [Answers, hsv]
      simp only [hiff]
      split_ifs
      · simp only [wp_pure, bodySet_request, wp_bind, wp_unwrap_cons]
        exact hsend _
      · simp only [wp_pure, bodySet_request, wp_bind, wp_unwrap_cons]
        exact hsend _
  · have hiff : Answers s.toTables name (parts ++ [part]) ↔ Sendable parts := by
      simp [Answers, hn]
    simp only [serviceInternal, if_neg hn, hiff, wp_bind, wp_pure, bodySet_request, wp_unwrap_cons]
    exact hsend _

/-- The work that a client brings in. -/
def clientWork (sender : Bytes) : Zmsg → Trigger
  | part :: body =>
    if cStr part = [] ∨ body = [] ∨ Reserved (cStr part) then .none
    else .queue (cStr part) (cStr sender :: [] :: body)
  | [] => .none

/-- `client_process` returns. -/
def ClientReturns (s : Broker) : Zmsg → Prop
  | part :: body => cStr part ≠ [] ∧ body ≠ [] ∧
    if Reserved (cStr part) then Answers s.toTables (cStr part) body
    else ∀ sv, s.mServices (cStr part) = some sv →
      (∃ wrk ∈ sv.mWaiting, wrk ∉ culled s.toTables (s.clock 0)) → Sendable body
  | [] => False

theorem serviceDispatch_some {Q : Unit → Broker → Prop} {E : Broker → Prop}
    (hsv : s.mServices srv = some sv) :
    (serviceDispatch srv (some msg)).wp Q E s ↔
      (serviceDispatch srv none).wp Q E { s with toTables := s.toTables.queue srv sv msg } := by
  simp only [serviceDispatch, wp_bind, wp_derefService hsv, wp_upd]
  rfl

/-- A request for a service that is not internal goes out, or waits in the
    queue. -/
theorem clientReturns_iff {part b : Bytes} (junk : BitVec 64) (hname : cStr part ≠ [])
    (hres : ¬ Reserved (cStr part)) :
    ClientReturns s (part :: b :: body) ↔
      ((∃ wrk ∈ (required s.toTables (cStr part) junk).mWaiting,
        wrk ∉ culled (require s.toTables (cStr part) junk) (s.clock 0)) →
          Sendable (cStr sender :: [] :: b :: body)) := by
  rw [show culled (require s.toTables (cStr part) junk) (s.clock 0) =
    culled s.toTables (s.clock 0) from rfl]
  cases hsv : s.mServices (cStr part) with
  | none => simp [ClientReturns, hname, hres, hsv, required]
  | some sv => simp [ClientReturns, hname, hres, hsv, required]

theorem clientProcess_runs (hi : Inv s.toTables) (hset : ∀ srv, SettledAt srv s.toTables)
    (sender : Bytes) (msg : Zmsg) (junk : BitVec 64) :
    Runs (clientProcess sender msg junk) (fun x => x = clientWork sender msg) (ClientReturns s msg)
      s := by
  rcases msg with _ | ⟨part, _ | ⟨b, body⟩⟩
  · exact .stop rfl rfl fun h => h
  · exact .stop rfl (by simp [clientWork]) fun h => h.2.1 rfl
  have hparts : ¬ Zmsg.parts (part :: b :: body) < 2 := by simp [parts]
  simp only [Runs, clientProcess, if_neg hparts, wp_bind, wp_popFront_cons]
  refine (serviceRequire_wp (cStr part) junk s).mono ?_ ?_
  · rintro _ _ ⟨rfl, rfl, hname⟩
    have hp := require_path s.toTables (cStr part) junk
    have hsv := mServices_require s.toTables (cStr part) junk
    by_cases hres : Reserved (cStr part)
    · have hwork : clientWork sender (part :: b :: body) = .none := by simp [clientWork, hres]
      have hret : ClientReturns s (part :: b :: body) ↔
          Answers (require s.toTables (cStr part) junk) (cStr part) (b :: body) := by
        simp [ClientReturns, hname, hres, answers_require]
      rw [if_pos hres, hwork, hret]
      refine (serviceInternal_wp (s := { s with toTables := require s.toTables (cStr part) junk })
        (cStr sender) hsv (List.cons_ne_nil b body)).mono ?_ ?_
      · intro _ s' h
        exact ⟨⟨_, rfl, .quiet (hp.trans h.1)⟩, h.2⟩
      · intro s' h
        exact ⟨⟨_, rfl, .quiet (hp.trans h.1)⟩, h.2⟩
    · let t := require s.toTables (cStr part) junk
      let req : Zmsg := cStr sender :: [] :: b :: body
      have hwork : clientWork sender (part :: b :: body) = .queue (cStr part) req := by
        simp [clientWork, hres, hname, req]
      let u := t.queue (cStr part) (required s.toTables (cStr part) junk) req
      have hret : ClientReturns s (part :: b :: body) ↔ Dispatches u (s.clock 0) (cStr part) := by
        rw [dispatches_queue (hp.settledAt (hset _)) hsv]
        exact clientReturns_iff junk hname hres
      have hq : Fires t (.queue (cStr part) req) u := ⟨_, hsv, rfl⟩
      rw [if_neg hres, serviceDispatch_some hsv, hret, hwork]
      refine (serviceDispatch_wp (s := { s with toTables := u }) (hq.inv (hp.inv hi))
        (Function.update_self ..)).mono ?_ ?_
      · rintro _ s' ⟨hp', hset', hd⟩
        refine ⟨⟨_, rfl, t, u, hp, hq, hp', ?_⟩, hd⟩
        rintro srv ⟨⟩
        exact hset'
      · rintro s' ⟨hstop, hd⟩
        exact ⟨⟨_, rfl, t, u, hp, hq, hstop⟩, hd⟩
  · rintro _ ⟨rfl, hname⟩
    have hwork : clientWork sender (part :: b :: body) = .none := by simp [clientWork, hname]
    exact ⟨⟨.none, hwork.symm, .quiet .refl⟩, fun h => h.1 hname⟩

/-! ## Workers -/

/-- A worker that begins to wait at `srv` is purged at once, or the first
    request, if there is one, can be sent to it. -/
def Serves (s : Broker) (srv : Bytes) : Prop :=
  s.clock 1 < s.clock 0 + heartbeatExpiry →
    ∀ sv, s.mServices srv = some sv → ∀ msg ∈ sv.mRequests.head?, Sendable msg

theorem workerWaiting_runs (hi : Inv s.toTables) (hset : SettledAt srv s.toTables)
    (hw : s.heap wrk = some w) (hs : w.mService = some srv) (hfree : busy wrk s.log = false) :
    Runs (workerWaiting wrk) (fun x => x = .wait wrk srv) (Serves s srv) s := by
  obtain ⟨sv, hsv⟩ := Option.isSome_iff_exists.1 (hi.attached wrk w srv hw hs)
  obtain ⟨identity, service, expiry⟩ := w
  obtain rfl : service = some srv := hs
  let t := s.toTables.wait wrk ⟨identity, some srv, expiry⟩ srv sv (s.clock 0 + heartbeatExpiry)
  have hfire : Fires s.toTables (.wait wrk srv) t := ⟨_, sv, _, hw, rfl, hsv, hfree, rfl⟩
  have hret : Serves s srv ↔ Dispatches t (s.clock 1) srv := by
    rw [dispatches_wait hset hsv, Serves]
    constructor
    · intro h hlt
      exact h hlt sv hsv
    · rintro h hlt sv' hsv'
      obtain rfl : sv = sv' := Option.some.inj (hsv.symm.trans hsv')
      exact h hlt
  simp only [Runs, workerWaiting, deref, derefService, wp_bind, wp_upd, wp_get, wp_pure, wp_sClock,
    hw, hsv, hret]
  refine (serviceDispatch_wp (s := { s with toTables := t, clock := fun n => s.clock (n + 1) })
    (hfire.inv hi) (Function.update_self ..)).mono ?_ ?_
  · rintro _ s' ⟨hp, hset', hd⟩
    refine ⟨⟨_, rfl, s.toTables, t, .refl, hfire, hp, ?_⟩, hd⟩
    rintro srv ⟨⟩
    exact hset'
  · rintro s' ⟨hstop, hd⟩
    exact ⟨⟨_, rfl, s.toTables, t, .refl, hfire, hstop⟩, hd⟩

/-- A reply that is passed on: it has the address of a client, and the rest can
    be sent. -/
def Passes : Zmsg → Prop
  | part :: rest => cStr part = mdpwReply ∧ rest ≠ [] ∧ Sendable (unwrapped rest.tail)
  | [] => False

instance : ∀ msg, Decidable (Passes msg)
  | _ :: _ => inferInstanceAs (Decidable (_ ∧ _ ∧ _))
  | [] => isFalse id

/-- The work that a worker brings in: one that is new, or has replied, waits. -/
def WorkerWork (s : Broker) (sender : Bytes) (msg : Zmsg) : Trigger → Prop
  | .none => True
  | .queue .. => False
  | .wait wrk _ => s.heap wrk = none ∨ Passes msg ∧ s.mWorkers sender = some wrk

/-- `worker_process` returns. -/
def WorkerReturns (s : Broker) (sender : Bytes) : Zmsg → Prop
  | [] => False
  | part :: rest => sender ≠ [] ∧
    (cStr part = mdpwReady → s.mWorkers sender = none → ¬ Reserved sender →
      ∃ name ∈ rest.head?, cStr name ≠ [] ∧ Serves s (cStr name)) ∧
    (cStr part = mdpwReply → ∀ wrk, s.mWorkers sender = some wrk → rest ≠ [] ∧
      ∃ w srv, s.heap wrk = some w ∧ w.mService = some srv ∧ Sendable (unwrapped rest.tail) ∧
        Serves s srv)

variable {part : Bytes} {rest : Zmsg}

/-- A worker that has replied waits again. -/
theorem workerReplies_runs (hi : Inv s.toTables) (hset : ∀ srv, SettledAt srv s.toTables)
    (hw : s.heap wrk = some w) (msg : Zmsg) :
    Runs (workerReplies wrk msg)
      (fun x => x = .none ∨ (∃ srv, x = .wait wrk srv) ∧ msg ≠ [] ∧ Sendable (unwrapped msg.tail))
      (msg ≠ [] ∧ ∃ srv, w.mService = some srv ∧ Sendable (unwrapped msg.tail) ∧ Serves s srv)
      s := by
  rcases msg with _ | ⟨client, msg⟩
  · exact .stop rfl (Or.inl rfl) fun h => h.1 rfl
  cases hs : w.mService with
  | none =>
    refine .stop ?_ (Or.inl rfl) (by simp)
    simp only [workerReplies, wp_bind, wp_unwrap_cons, deref, wp_get, hw, wp_pure, hs, wp_halt]
  | some srv =>
    obtain ⟨sv, hsv⟩ := Option.isSome_iff_exists.1 (hi.attached wrk w srv hw hs)
    have hret : (client :: msg ≠ [] ∧ ∃ srv', some srv = some srv' ∧
        Sendable (unwrapped (client :: msg).tail) ∧ Serves s srv') ↔
        Sendable (unwrapped msg) ∧ Serves s srv := by simp
    have h₁ : Change s.toTables (s.toTables.note (.replied wrk)) := .idle _ trivial
    simp only [Runs, workerReplies, wp_bind, wp_unwrap_cons, deref, wp_get, hw, wp_pure, hs,
      derefService, hsv, wp_upd, hret]
    have hp : ∀ out, Path s.toTables ((s.toTables.note (.replied wrk)).note (.sent out)) :=
      fun out => (Relation.ReflTransGen.single h₁).tail (.idle _ trivial)
    refine (answer_wp (cStr client) sv.mName (unwrapped msg) _).mono ?_ ?_
    · rintro _ _ ⟨fs, out, rfl, hsend⟩
      have hfree : busy wrk ((s.toTables.note (.replied wrk)).note (.sent out)).log = false := by
        rw [Tables.log_note, busy_append, Tables.log_note, busy_append]
        simp [Happening.busy]
      have hwait := workerWaiting_runs (s := { s with toTables := _, socket := fs })
        ((hp out).inv hi) ((hp out).settledAt (hset srv)) hw hs hfree
      refine Runs.after (hwait.imp ?_ ?_) (hp out)
      · rintro x rfl
        exact Or.inr ⟨⟨srv, rfl⟩, List.cons_ne_nil _ _, hsend⟩
      · exact and_iff_right hsend
    · rintro _ ⟨fs, out, rfl, hsend⟩
      exact ⟨⟨.none, Or.inl rfl, .quiet (hp out)⟩, fun h => hsend h.1⟩

/-- A worker that is registered. -/
theorem workerProcess_known (hi : Inv s.toTables) (hset : ∀ srv, SettledAt srv s.toTables)
    (hsender : sender ≠ []) (hwrk : s.mWorkers sender = some wrk) (addr : Ptr) (junk : BitVec 64) :
    Runs (workerProcess sender (part :: rest) addr junk) (WorkerWork s sender (part :: rest))
      (WorkerReturns s sender (part :: rest)) s := by
  obtain ⟨w, hw, -⟩ := hi.alive sender wrk hwrk
  have hparts : ¬ Zmsg.parts (part :: rest) < 1 := by simp [parts]
  have hlen : ¬ sender.length = 0 := by simpa using hsender
  simp only [Runs, workerProcess, if_neg hparts, wp_bind, wp_popFront_cons, wp_get, workerRequire,
    if_neg hlen, hwrk, wp_pure, Option.isSome_some, if_true]
  have hquiet : cStr part ≠ mdpwReply → WorkerReturns s sender (part :: rest) := fun h =>
    ⟨hsender, fun _ hnone => absurd (hwrk.symm.trans hnone) (by simp), fun he => absurd he h⟩
  by_cases hready : cStr part = mdpwReady
  · rw [if_pos hready]
    exact Runs.of_path (workerDelete_wp hi hw true) trivial (hquiet (by rw [hready]; decide))
  rw [if_neg hready]
  by_cases hreply : cStr part = mdpwReply
  · rw [if_pos hreply]
    have hret : WorkerReturns s sender (part :: rest) ↔ rest ≠ [] ∧ ∃ srv, w.mService = some srv ∧
        Sendable (unwrapped rest.tail) ∧ Serves s srv := by
      simp [WorkerReturns, hsender, hwrk, hreply, mdpwReply, mdpwReady, hw]
    refine (workerReplies_runs hi hset hw rest).imp ?_ hret
    rintro x (rfl | ⟨⟨srv, rfl⟩, hpasses⟩)
    · trivial
    · exact Or.inr ⟨⟨hreply, hpasses⟩, hwrk⟩
  rw [if_neg hreply]
  by_cases hbeat : cStr part = mdpwHeartbeat
  · rw [if_pos hbeat]
    refine Runs.of_path ?_ trivial (hquiet hreply)
    simp only [wp_bind, wp_sClock, deref, wp_get, hw, wp_pure, wp_upd]
    exact .single (.seen wrk w _ hw)
  rw [if_neg hbeat]
  by_cases hdisc : cStr part = mdpwDisconnect
  · rw [if_pos hdisc]
    exact Runs.of_path (workerDelete_wp hi hw false) trivial (hquiet hreply)
  · rw [if_neg hdisc]
    exact Runs.of_path .refl trivial (hquiet hreply)

/-- A new worker joins a service and waits there. -/
theorem workerJoins_runs (hi : Inv s.toTables) (hset : ∀ srv, SettledAt srv s.toTables)
    (hw : s.heap wrk = some w) (hs : w.mService = none) (hfree : busy wrk s.log = false)
    (msg : Zmsg) (junk : BitVec 64) :
    Runs (workerJoins wrk msg junk) (fun x => x = .none ∨ ∃ srv, x = .wait wrk srv)
      (∃ name ∈ msg.head?, cStr name ≠ [] ∧ Serves s (cStr name)) s := by
  rcases msg with _ | ⟨part, msg⟩
  · exact .stop rfl (Or.inl rfl) (by simp)
  have hret : (∃ name ∈ (part :: msg).head?, cStr name ≠ [] ∧ Serves s (cStr name)) ↔
      cStr part ≠ [] ∧ Serves s (cStr part) := by simp
  simp only [Runs, workerJoins, wp_bind, wp_popFront_cons, hret]
  refine (serviceRequire_wp (cStr part) junk s).mono ?_ ?_
  · rintro _ _ ⟨rfl, rfl, hname⟩
    have hp := require_path s.toTables (cStr part) junk
    let sv := required s.toTables (cStr part) junk
    let t := (require s.toTables (cStr part) junk).attach wrk w (cStr part) sv
    have hsv : (require s.toTables (cStr part) junk).mServices (cStr part) = some sv :=
      mServices_require ..
    have hp' : Path s.toTables t := hp.tail (.attached wrk w (cStr part) sv hw hs hsv)
    have hw' : t.heap wrk = some { w with mService := some (cStr part) } := by
      simp [t, Tables.attach]
    have hserves : Serves { s with toTables := t } (cStr part) ↔ Serves s (cStr part) := by
      cases hsv' : s.mServices (cStr part) <;>
        simp [Serves, hsv', t, Tables.attach, sv, required]
    have hheap : (require s.toTables (cStr part) junk).heap wrk = some w := hw
    simp only [deref, wp_bind, wp_get, hheap, wp_pure, wp_upd, derefService,
      Tables.mServices_setWorker, hsv]
    have hwait := workerWaiting_runs (s := { s with toTables := t }) (hp'.inv hi)
      (hp'.settledAt (hset (cStr part))) hw' rfl hfree
    refine Runs.after (hwait.imp ?_ ?_) hp'
    · rintro x rfl
      exact Or.inr ⟨_, rfl⟩
    · rw [hserves, and_iff_right hname]
  · rintro _ ⟨rfl, hname⟩
    exact ⟨⟨.none, Or.inl rfl, .quiet .refl⟩, fun h => h.1 hname⟩

/-- A worker that is not registered: only one that is ready is kept. -/
theorem workerProcess_new (hi : Inv s.toTables) (hset : ∀ srv, SettledAt srv s.toTables)
    (hsender : sender ≠ []) (hnew : s.mWorkers sender = none) {addr : Ptr}
    (haddr : s.heap addr = none) (junk : BitVec 64) :
    Runs (workerProcess sender (part :: rest) addr junk) (WorkerWork s sender (part :: rest))
      (WorkerReturns s sender (part :: rest)) s := by
  let t := s.toTables.addWorker addr sender
  let w : Worker := ⟨sender, none, 0⟩
  have hp : Path s.toTables t := .single (.worker addr sender haddr hnew)
  have hw : t.heap addr = some w := by simp [t, Tables.addWorker, w]
  have hparts : ¬ Zmsg.parts (part :: rest) < 1 := by simp [parts]
  have hlen : ¬ sender.length = 0 := by simpa using hsender
  simp only [Runs, workerProcess, if_neg hparts, wp_bind, wp_popFront_cons, wp_get, workerRequire,
    if_neg hlen, hnew, wp_pure, wp_upd, Option.isSome_none, Bool.false_eq_true, if_false]
  have hquiet : cStr part ≠ mdpwReady ∨ Reserved sender →
      WorkerReturns s sender (part :: rest) := fun h =>
    ⟨hsender, fun he _ hres => absurd h (by simp [he, hres]), fun _ wrk hwrk =>
      absurd (hnew.symm.trans hwrk) (by simp)⟩
  have hdelete : ∀ disconnect, cStr part ≠ mdpwReady ∨ Reserved sender →
      (workerDelete addr disconnect).wp
        (fun _ s' => (∃ x, WorkerWork s sender (part :: rest) x ∧ Course x s.toTables s'.toTables) ∧
          WorkerReturns s sender (part :: rest))
        (fun s' => (∃ x, WorkerWork s sender (part :: rest) x ∧ Cut x s.toTables s'.toTables) ∧
          ¬ WorkerReturns s sender (part :: rest)) { s with toTables := t } := by
    intro disconnect h
    have hdel := workerDelete_wp (s := { s with toTables := t }) (hp.inv hi) hw disconnect
    exact (Runs.of_path hdel trivial (hquiet h)).after hp
  by_cases hready : cStr part = mdpwReady
  · rw [if_pos hready]
    by_cases hres : Reserved sender
    · rw [if_pos hres]
      exact hdelete true (Or.inr hres)
    rw [if_neg hres]
    have hret : WorkerReturns s sender (part :: rest) ↔
        ∃ name ∈ rest.head?, cStr name ≠ [] ∧ Serves s (cStr name) := by
      simp [WorkerReturns, hsender, hnew, hready, hres]
    have hjoins := workerJoins_runs (s := { s with toTables := t }) (hp.inv hi)
      (fun srv => hp.settledAt (hset srv)) hw rfl (by simp [t, Tables.addWorker, Happening.busy])
      rest junk
    refine Runs.after (hjoins.imp ?_ hret) hp
    rintro x (rfl | ⟨srv, rfl⟩)
    · trivial
    · exact Or.inl haddr
  rw [if_neg hready]
  split_ifs
  · exact hdelete true (Or.inl hready)
  · exact hdelete true (Or.inl hready)
  · exact hdelete false (Or.inl hready)
  · exact ⟨⟨.none, trivial, .quiet hp⟩, hquiet (Or.inl hready)⟩

theorem workerProcess_runs (hi : Inv s.toTables) (hset : ∀ srv, SettledAt srv s.toTables)
    (sender : Bytes) (msg : Zmsg) {addr : Ptr} (haddr : s.heap addr = none) (junk : BitVec 64) :
    Runs (workerProcess sender msg addr junk) (WorkerWork s sender msg)
      (WorkerReturns s sender msg) s := by
  rcases msg with _ | ⟨part, rest⟩
  · exact .stop rfl trivial fun h => h
  rcases eq_or_ne sender [] with rfl | hsender
  · exact .stop rfl trivial fun h => h.1 rfl
  cases h : s.mWorkers sender with
  | none => exact workerProcess_new hi hset hsender h haddr junk
  | some wrk => exact workerProcess_known hi hset hsender h addr junk

/-! ## Messages -/

/-- The work that a message brings in. -/
def Brings (s : Broker) (frames : List Bytes) (x : Trigger) : Prop :=
  match frames.map recvPart with
  | sender :: _ :: header :: msg =>
    if cStr header = mdpcClient then x = clientWork (cStr sender) msg
    else if cStr header = mdpwWorker then WorkerWork s (cStr sender) msg x
    else x = .none
  | _ => x = .none

/-- `receive` returns. -/
def Returns (s : Broker) (frames : List Bytes) : Prop :=
  match frames.map recvPart with
  | sender :: _ :: header :: msg =>
    if cStr header = mdpcClient then ClientReturns s msg
    else if cStr header = mdpwWorker then WorkerReturns s (cStr sender) msg
    else True
  | _ => False

theorem receive_runs (hi : Inv s.toTables) (hset : ∀ srv, SettledAt srv s.toTables)
    {frames : List Bytes} (hne : frames ≠ []) {addr : Ptr} (haddr : s.heap addr = none)
    (junk : BitVec 64) :
    Runs (receive frames addr junk) (Brings s frames) (Returns s frames) s := by
  simp only [Runs, receive, Zmsg.ofSocket_encode hne, Brings, Returns]
  rcases frames.map recvPart with _ | ⟨sender, _ | ⟨empty, _ | ⟨header, msg⟩⟩⟩
  · exact Runs.stop rfl rfl id
  · exact Runs.stop rfl rfl id
  · exact Runs.stop rfl rfl id
  simp only [wp_bind, wp_popFront_cons]
  by_cases hclient : cStr header = mdpcClient
  · simp only [if_pos hclient]
    exact clientProcess_runs hi hset (cStr sender) msg junk
  simp only [if_neg hclient]
  by_cases hworker : cStr header = mdpwWorker
  · simp only [if_pos hworker]
    exact workerProcess_runs hi hset (cStr sender) msg haddr junk
  · simp only [if_neg hworker]
    exact Runs.of_path .refl rfl trivial

/-! ## Rounds -/

theorem heartbeats_wp (hi : Inv s.toTables) :
    heartbeats.wp (fun _ s' => Path s.toTables s'.toTables) (fun _ => False) s := by
  simp only [heartbeats, wp_bind, wp_sClock, wp_get]
  split_ifs
  · simp only [wp_bind, wp_get]
    refine (purgeWorkers_wp (s := { s with clock := fun n => s.clock (n + 1) }) hi).mono ?_
      fun _ h => h
    rintro _ _ ⟨t, rfl, hp, -⟩
    let I : List Ptr → Broker → Prop := fun l s' =>
      Path s.toTables s'.toTables ∧ ∀ wrk ∈ l, ∃ w, s'.heap wrk = some w
    refine (wp_forM (I := I) ?_ ⟨hp, fun wrk h => (hp.inv hi).live h⟩).mono ?_ fun _ h => h
    · rintro wrk l s' ⟨hp', hl⟩
      obtain ⟨w, hw⟩ := hl wrk List.mem_cons_self
      refine (workerSend_wp mdpwHeartbeat none hw).mono ?_ ?_
      · rintro _ _ ⟨fs, out, rfl, -⟩
        have hidle : (Happening.workerSend wrk w mdpwHeartbeat none).Idle := by
          simp [Happening.Idle, mdpwHeartbeat, mdpwRequest]
        exact ⟨(hp'.tail (.idle _ hidle)).tail (.idle (.sent out) trivial),
          fun p h => hl p (List.mem_cons_of_mem _ h)⟩
      · rintro _ ⟨fs, out, -, h⟩
        exact h sendable_nil
    · intro _ s' h
      exact h.1
  · exact .refl

/-- The state in which a round begins. -/
def opening (s : Broker) (e : Round) : Broker := { s with clock := e.clock }

/-- The work that a round brings in. -/
def RoundBrings (s : Broker) (e : Round) (x : Trigger) : Prop :=
  match e.frames with
  | some frames => Brings (opening s e) frames x
  | none => x = .none

/-- **What a round does.** -/
theorem code_wp (hi : Inv s.toTables) (hset : ∀ srv, SettledAt srv s.toTables) {e : Round}
    (hne : e.frames ≠ some []) (haddr : s.heap e.addr = none) :
    (code e).wp (fun _ s' => ∃ x, RoundBrings s e x ∧ Course x s.toTables s'.toTables)
      (fun s' => ∃ x, RoundBrings s e x ∧ Cut x s.toTables s'.toTables) s := by
  simp only [code, RoundBrings, wp_bind, wp_modify]
  rcases hf : e.frames with _ | frames
  · refine (heartbeats_wp (s := opening s e) hi).mono ?_ fun _ h => h.elim
    intro _ s' hp
    exact ⟨.none, rfl, .quiet hp⟩
  · simp only [wp_bind]
    refine wp.mono (receive_runs (s := opening s e) hi hset (fun h => hne (by rw [hf, h])) haddr
      e.junk) ?_ ?_
    · rintro _ s₁ ⟨⟨x, hx, hcourse⟩, -⟩
      refine (heartbeats_wp (hcourse.inv hi)).mono ?_ fun _ h => h.elim
      intro _ s' hp
      exact ⟨x, hx, hcourse.before hp⟩
    · rintro s₁ ⟨⟨x, hx, hcut⟩, -⟩
      exact ⟨x, hx, hcut⟩

end Broker

end ProxyBroker.Majordomo
