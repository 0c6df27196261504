/-
  The network over the `send` of `zmsg.hpp` that `officialMajordomo` has, which
  leaves out the first part of each message.

  `nothing_answered`: then no worker is ever registered, nothing is ever sent to
  a client, and whatever call returns has found nothing.
-/
import ProxyBroker.NetworkCalls

namespace ProxyBroker.Majordomo

open Proc Zmsg

variable {ι κ : Type}

/-! ## The broker -/

/-- A message that the broker takes for invalid. -/
def Invalid (parts : Zmsg) : Prop :=
  ∀ sender empty header rest, parts = sender :: empty :: header :: rest →
    cStr header ≠ mdpcClient ∧ cStr header ≠ mdpwWorker

namespace Broker

variable {s : Broker}

theorem receive_invalid {frames : List Bytes} (h : Invalid (frames.map recvPart)) (addr : Ptr)
    (junk : BitVec 64) : (receive frames addr junk).final s = s := by
  rcases eq_or_ne frames [] with rfl | hne
  · rfl
  rw [receive, ofSocket_encode hne]
  rcases hparts : frames.map recvPart with _ | ⟨sender, _ | ⟨empty, _ | ⟨header, msg⟩⟩⟩
  · rfl
  · rfl
  · rfl
  obtain ⟨hclient, hworker⟩ := h sender empty header msg hparts
  simp only [popFront, pure_bind, if_neg hclient, if_neg hworker]
  rfl

/-- Nobody waits, so nobody gets a heartbeat. -/
theorem heartbeats_nobody (hs : s.mWaiting = .empty) :
    (heartbeats.final s).toTables = s.toTables := by
  let same (s' : Broker) : Prop := s'.toTables = s.toTables
  have hwp : heartbeats.wp (fun _ => same) same s := by
    simp only [heartbeats, wp_bind, wp_sClock, wp_get]
    split_ifs
    · have hnone : SortedSet.empty.toList = ([] : List Ptr) := rfl
      simp [purgeWorkers, expired, hs, hnone, same]
    · rfl
  exact wp_final.1 hwp

/-- **A round with an invalid message leaves the tables as they are.** -/
theorem code_invalid (hs : s.mWaiting = .empty) {e : Round}
    (h : ∀ frames ∈ e.frames, Invalid (frames.map recvPart)) :
    ((code e).final s).toTables = s.toTables := by
  let s₁ : Broker := { s with clock := e.clock }
  have hbeat : (heartbeats.final s₁).toTables = s.toTables := heartbeats_nobody (s := s₁) hs
  rw [code, final_modify_bind]
  rcases hf : e.frames with _ | frames
  · exact hbeat
  · have hsame : (receive frames e.addr e.junk).final s₁ = s₁ :=
      receive_invalid (h frames hf) e.addr e.junk
    cases hr : (receive frames e.addr e.junk).run s₁ with
    | ok a s' =>
      obtain rfl : s' = s₁ := by rw [← hsame, final_ok hr]
      change ((receive frames e.addr e.junk >>= fun _ => heartbeats).final s₁).toTables = _
      rw [final_bind_ok hr]
      exact hbeat
    | error halt s' =>
      obtain rfl : s' = s₁ := by rw [← hsame, final_error hr]
      change ((receive frames e.addr e.junk >>= fun _ => heartbeats).final s₁).toTables = _
      rw [final_bind_error hr]

end Broker

/-! ## Runs -/

/-- The name of the service does not look like a protocol header. -/
def Call.Plain (call : Call) : Prop :=
  brokerName call.service ≠ mdpcClient ∧ brokerName call.service ≠ mdpwWorker

instance (call : Call) : Decidable call.Plain := inferInstanceAs (Decidable (_ ∧ _))

namespace Network

/-- Nobody hears anything. -/
structure Mute (n : Network ι κ) : Prop where
  tables : n.broker.st.toTables = (Broker.init 0).toTables
  client : ∀ i c, n.clients i = some c →
    (∀ x ∈ c.call, x.1.Plain) ∧ ∀ x ∈ c.returned, x.2 = none
  worker : ∀ k w, n.workers k = some w → w.job = none
  up : ∀ m ∈ n.up, Invalid (received m)
  down : n.down = 0

theorem init_mute (now : ℤ) : Mute (init now : Network ι κ) where
  tables := rfl
  client _ _ h := by cases h
  worker _ _ h := by cases h
  up _ h := absurd h (Multiset.notMem_zero _)
  down := rfl

variable {n : Network ι κ} {i : ι} {k : κ} {c c' : ClientProgram} {w w' : WorkerProgram}
  {l : List Zmsg}

theorem Mute.takes (h : Mute n) (id : Bytes) (mail : Option Zmsg) : Mute (n.takes id mail) where
  tables := h.tables
  client := h.client
  worker := h.worker
  up := h.up
  down := by rw [Network.takes, h.down, zero_tsub]

/-- What gets on the socket of messages is what is left of some of them. -/
theorem passed_code {l : List Zmsg} {m : Zmsg} (hm : m ∈ Link.code.passed l) :
    ∃ m' ∈ l, m = m'.drop 1 := by
  obtain ⟨m', hm', rfl⟩ := List.mem_map.1 ((List.takeWhile_sublist _).subset hm)
  exact ⟨m', hm', rfl⟩

/-- The name of the service is where the header should be. -/
theorem invalid_request {call : Call} (h : call.Plain) (id : RandomId) :
    Invalid (received (setId id, [] :: call.message.drop 1)) := by
  intro sender empty header rest hparts
  have hreceived : received (setId id, [] :: call.message.drop 1) =
      setId id :: [] :: arrival (cStr call.service) :: call.request.map arrival := by
    rw [received_setId]
    rfl
  rw [hreceived] at hparts
  simp only [List.cons.injEq] at hparts
  obtain ⟨-, -, rfl, -⟩ := hparts
  exact h

/-- The command is where the header should be. -/
theorem invalid_registers {service : Bytes} {m : Zmsg} (h : Mdwrk.Registers service m)
    (id : RandomId) : Invalid (received (setId id, m.drop 1)) := by
  have hcommand : ∀ command ∈ [mdpwReady, mdpwHeartbeat], ∀ rest : Zmsg,
      Invalid (received (setId id, mdpwWorker :: command :: rest)) := by
    intro command hc rest sender empty header rest' hparts
    rw [received_setId] at hparts
    simp only [List.map_cons, List.cons.injEq] at hparts
    obtain ⟨-, -, rfl, -⟩ := hparts
    revert hc
    revert command
    decide
  cases h with
  | ready => exact hcommand mdpwReady (by decide) _
  | heartbeat => exact hcommand mdpwHeartbeat (by decide) _

theorem Mute.clientNext [DecidableEq ι] (h : Mute n) (hcall : ∀ x ∈ c'.call, x.1.Plain)
    (hreturned : ∀ x ∈ c'.returned, x.2 = none) (hsent : c'.session.sent = c.session.sent ++ l)
    (hl : ∀ m ∈ l, ∃ call : Call, call.Plain ∧ m = call.message) :
    Mute (n.clientNext .code i c c') where
  tables := h.tables
  client j c₀ hj := by
    rcases eq_or_ne j i with rfl | hne
    · obtain rfl : _ = c₀ := by simpa [Network.clientNext] using hj
      exact ⟨hcall, hreturned⟩
    · exact h.client j c₀ (by simpa [Network.clientNext, hne] using hj)
  worker := h.worker
  up m hm := by
    rcases Multiset.mem_add.1 hm with hm | hm
    · exact h.up m hm
    · obtain ⟨x, hx, rfl⟩ := List.mem_map.1 (Multiset.mem_coe.1 hm)
      obtain ⟨m', hm', rfl⟩ := passed_code hx
      obtain ⟨call, hplain, rfl⟩ := hl m' (by simpa [hsent] using hm')
      exact invalid_request hplain _
  down := h.down

/-- A call has returned nothing. -/
theorem Mute.client_quits [DecidableEq ι] (h : Mute n) {call : Call}
    (hreturned : ∀ x ∈ c.returned, x.2 = none) (hc' : c' = c.ends call none) :
    Mute (n.clientNext .code i c c') := by
  subst hc'
  refine h.clientNext (l := []) (by simp [ClientProgram.ends]) ?_ (by simp [ClientProgram.ends])
    (by simp)
  intro x hx
  rcases List.mem_append.1 hx with hx | hx
  · exact hreturned x hx
  · obtain rfl := List.mem_singleton.1 hx
    rfl

theorem Mute.client_goes [DecidableEq ι] (h : Mute n) {call : Call} (hplain : call.Plain)
    {r : RandomId} (hcall : ∀ x ∈ c.call, x.1.Plain) (hreturned : ∀ x ∈ c.returned, x.2 = none)
    (hg : ClientProgram.Goes call r c c') : Mute (n.clientNext .code i c c') := by
  have hl : ∀ m ∈ [call.message], ∃ call : Call, call.Plain ∧ m = call.message := fun m hm =>
    ⟨call, hplain, List.mem_singleton.1 hm⟩
  cases hg with
  | sends s left hreq hid hsent hc' =>
    subst hc'
    refine h.clientNext ?_ hreturned hsent hl
    rintro x ⟨⟩
    exact hplain
  | fails s halt hreq hid hsent hc' =>
    subst hc'
    exact h.clientNext hcall hreturned hsent hl
  | quits hc' => exact h.client_quits hreturned hc'

/-- A call over a socket that still awaits a reply sends nothing. -/
theorem Mute.client_refused [DecidableEq ι] (h : Mute n) {call : Call} (hplain : call.Plain)
    (hcall : ∀ x ∈ c.call, x.1.Plain) (hreturned : ∀ x ∈ c.returned, x.2 = none)
    (hr : ClientProgram.Refused call c c') : Mute (n.clientNext .code i c c') := by
  cases hr with
  | waits left hc' =>
    subst hc'
    refine h.clientNext (l := []) ?_ hreturned (by simp) (by simp)
    rintro x ⟨⟩
    exact hplain
  | fails halt hc' =>
    subst hc'
    exact h.clientNext (l := []) hcall hreturned (by simp) (by simp)
  | quits hc' => exact h.client_quits hreturned hc'

theorem Mute.worker_talks [DecidableEq κ] (h : Mute n) {r : RandomId} {s : Mdwrk}
    (hids : ∀ j, w.session.ids j = r) (ht : Mdwrk.Talks r w.session s) :
    Mute (n.workerNext .code k w (w.waits s)) where
  tables := h.tables
  client := h.client
  worker j w₀ hj := by
    rcases eq_or_ne j k with rfl | hne
    · obtain rfl : _ = w₀ := by simpa [Network.workerNext] using hj
      rfl
    · exact h.worker j w₀ (by simpa [Network.workerNext, hne] using hj)
  up m hm := by
    obtain ⟨-, -, -, l, hl, hall⟩ := ht hids
    rcases Multiset.mem_add.1 hm with hm | hm
    · exact h.up m hm
    · obtain ⟨x, hx, rfl⟩ := List.mem_map.1 (Multiset.mem_coe.1 hm)
      obtain ⟨m', hm', rfl⟩ := passed_code hx
      have hsent : (w.waits s).session.sent = w.session.sent ++ l := hl
      exact invalid_registers (hall m' (by simpa [hsent] using hm')) _
  down := h.down

variable [DecidableEq ι] [DecidableEq κ] {pr : Programs κ} {e : NetworkEv ι κ}
  {es : List (NetworkEv ι κ)} {now : ℤ}

theorem Mute.step (h : Mute n) (hplain : e.Calls Call.Plain) (he : (system .code pr).can n e) :
    Mute ((system .code pr).next n e) := by
  cases e with
  | broker mail clock addr junk =>
    obtain ⟨hmail, hround⟩ := he
    let e := round mail clock addr junk
    have hinvalid : ∀ frames ∈ e.frames, Invalid (frames.map recvPart) := by
      intro frames hframes
      obtain ⟨m, hm, rfl⟩ := Option.map_eq_some_iff.1 hframes
      exact h.up m (hmail m hm)
    have hst : (machine.next n.broker e).st = (code e).final n.broker.st := Process.st_exec _ _
    have hwaiting : n.broker.st.mWaiting = .empty := by rw [h.tables]; rfl
    have htables : (machine.next n.broker e).st.toTables = n.broker.st.toTables := by
      rw [hst, Broker.code_invalid hwaiting hinvalid]
    have hsents : sents ((machine.next n.broker e).st.log.drop n.broker.st.log.length) = [] := by
      rw [htables, List.drop_length]
      rfl
    refine ⟨htables.trans h.tables, h.client, h.worker, fun m hm => ?_, ?_⟩
    · exact h.up m (Multiset.mem_of_le tsub_le_self hm)
    · simp only [system, next, brokerNext]
      rw [hsents, h.down]
      rfl
  | clientStarts i id retries =>
    exact h.clientNext (c := (clientInit id retries).1) (l := []) (by rintro x ⟨⟩)
      (by rintro x ⟨⟩) rfl (by simp)
  | clientCalls i call =>
    obtain ⟨c, hc, -⟩ := he
    obtain ⟨hcall, hreturned⟩ := h.client i c hc
    simp only [system, next, Option.mem_def.1 hc]
    cases ha : c.session.awaits with
    | false => exact h.client_goes hplain hcall hreturned (ClientProgram.run_begins ha call)
    | true => exact h.client_refused hplain hcall hreturned (ClientProgram.run_refused ha call)
  | clientPolls i mail id =>
    obtain ⟨c, hc, -, hcall, hmail, -⟩ := he
    obtain ⟨⟨call, left⟩, hcall⟩ := Option.ne_none_iff_exists'.1 hcall
    obtain ⟨hcalls, hreturned⟩ := h.client i c hc
    simp only [system, next, Option.mem_def.1 hc, hcall]
    rcases mail with _ | m
    · let c₀ : ClientProgram := { c with
        session := { c.session with ids := fun _ => id }
        call := some (call, left) }
      have hcalls₀ : ∀ x ∈ c₀.call, x.1.Plain := by
        rintro x ⟨⟩
        exact hcalls _ hcall
      exact (h.takes _ _).client_goes (c := c₀) (hcalls _ hcall) hcalls₀ hreturned
        (c₀.run_nothing call left)
    · have hm := hmail m rfl
      rw [h.down] at hm
      exact absurd hm (Multiset.notMem_zero _)
  | workerStarts k id clock =>
    obtain ⟨s, htalks, -, hs⟩ := WorkerProgram.run_init (pr.service k) id clock
    simp only [system, next, hs]
    exact h.worker_talks (fun _ => rfl) htalks
  | workerPolls k mail id clock =>
    obtain ⟨w, hw, -, -, hmail, -⟩ := he
    simp only [system, next, Option.mem_def.1 hw]
    rcases mail with _ | m
    · let w₀ : WorkerProgram := { w with session := { w.session with clock, ids := fun _ => id } }
      obtain ⟨s, htalks, hs⟩ := WorkerProgram.run_polls id none (by simp) w₀
      rw [hs]
      exact (h.takes _ _).worker_talks (w := w₀) (fun _ => rfl) htalks
    · have hm := hmail m rfl
      rw [h.down] at hm
      exact absurd hm (Multiset.notMem_zero _)
  | workerReplies k reply =>
    obtain ⟨w, hw, -, request, hjob, -⟩ := he
    rw [h.worker k w hw] at hjob
    cases hjob
  | lost up down =>
    refine ⟨h.tables, h.client, h.worker, fun m hm => h.up m (Multiset.mem_of_le he.1 hm), ?_⟩
    have hle : down ≤ 0 := h.down ▸ he.2
    exact Multiset.le_zero.1 hle

/-- **Over the `send` of `officialMajordomo` nothing is ever answered**: the
    broker does nothing, and a call that returns returns nothing, unless a
    service has the name of a protocol header. -/
theorem nothing_answered (hc : (system .code pr).Can (init now) es)
    (hes : ∀ e ∈ es, e.Calls Call.Plain) :
    let n := (system .code pr).run (init now) es
    n.broker.st.log = [] ∧ n.down = 0 ∧
      ∀ i c, n.clients i = some c → ∀ x ∈ c.returned, x.2 = none := by
  have hall := hc.and (Machine.All.of_mem (M := system .code pr) (s := init now) hes)
  have h : Mute ((system .code pr).run (init now) es) :=
    hall.inv (init_mute now) fun _ _ h he => h.step he.2 he.1
  exact ⟨by rw [h.tables]; rfl, h.down, fun i c hi => (h.client i c hi).2⟩

/-- The client calls the worker and waits once; so it does again, over a socket
    that still awaits the first reply. -/
def muteRun : List (NetworkEv Unit Unit) :=
  let finds (m : Mail) (addr : Ptr) : NetworkEv Unit Unit := .broker (some m) (fun _ => 0) addr 0
  [.workerStarts () (.ofNat 0) (fun _ => 0),
    finds (setId (.ofNat 0), [mdpwWorker, mdpwReady, [2]]) 7,
    .clientStarts () (.ofNat 1) 1,
    .clientCalls () ⟨[2], [[4]]⟩,
    finds (setId (.ofNat 1), [[], [2], [4]]) 8,
    .clientPolls () none (.ofNat 2),
    .clientCalls () ⟨[2], [[5]]⟩,
    .clientPolls () none (.ofNat 3)]

/-- Both calls of the client return nothing. -/
theorem nothing_answered_one :
    let n := (system .code echo).run (init 0) muteRun
    (∃ c ∈ n.clients (), c.returned = [(⟨[2], [[4]]⟩, none), (⟨[2], [[5]]⟩, none)]) ∧
      n.broker.st.log = [] ∧ n.down = 0 ∧
        ∀ i c, n.clients i = some c → ∀ x ∈ c.returned, x.2 = none := by
  have hcalls : Call.Plain ⟨[2], [[4]]⟩ ∧ Call.Plain ⟨[2], [[5]]⟩ := by decide
  exact ⟨by decide +kernel,
    nothing_answered (by decide +kernel) (by simpa [muteRun, NetworkEv.Calls] using hcalls)⟩

end Network

end ProxyBroker.Majordomo
