/-
  Rounds that the broker of `officialMajordomo` survives.

  A worker that is registered without a service ends the broker when it
  replies, and so does a request that cannot be sent.

  * `Posted`: between two rounds every worker has a service, as long as workers
    give the commands of the protocol (`code_posted`).
  * `Sound.requests_pending`: the requests that a service holds are pending.
  * `code_survives`: a round that finds a message with `Returns` returns.
-/
import ProxyBroker.MajordomoPending

namespace ProxyBroker.Majordomo

open Proc Zmsg

/-! ## Requests -/

/-- What a service holds is pending. -/
theorem Sound.requests_pending {p : Process Broker} (h : Sound p) {srv : Bytes} {sv : Service}
    (hsv : p.st.mServices srv = some sv) {msg : Zmsg} (hmsg : msg ∈ sv.mRequests) :
    (srv, msg) ∈ pending p.st.log := by
  have hacc := h.accounted srv
  rw [account, requests_of_some hsv, handed_eq, queued_eq] at hacc
  have hcount := congrArg (fun l : List Zmsg => (l : Multiset Zmsg).count msg) hacc
  simp only [← Multiset.coe_add, Multiset.count_add] at hcount
  have hpos : 0 < (sv.mRequests : Multiset Zmsg).count msg := Multiset.count_pos.2 hmsg
  rw [pending, ← Multiset.count_pos, Multiset.count_sub, count_ofService, count_ofService]
  dsimp only
  omega

/-! ## Workers with a service -/

/-- A worker has a service. -/
def Posted (_ : Bytes) (service : Option Bytes) : Prop := service ≠ none

/-- The commands that workers give. -/
def Commands : List Bytes := [mdpwReady, mdpwReply, mdpwHeartbeat, mdpwDisconnect]

namespace Broker

variable {s : Broker} {wrk addr : Ptr} {w : Worker} {sender command : Bytes} {rest : Zmsg}
  {junk : BitVec 64}

/-- When the worker has been deleted, those that are left have a service. -/
theorem workerDelete_posted (hw : s.heap wrk = some w) (hs : w.mService = none)
    (hrest : ∀ p ≠ wrk, ∀ v, s.heap p = some v → v.mService ≠ none) (disconnect : Bool) :
    (workerDelete wrk disconnect).wp (fun _ s' => Staff Posted s'.toTables) (fun _ => False) s := by
  have hreleased : ∀ (t : Tables), t.heap = s.heap → Staff Posted (t.release wrk w.mIdentity) := by
    intro t ht p v hv
    rcases eq_or_ne p wrk with rfl | hne
    · simp [Tables.release] at hv
    · exact hrest p hne v (by simpa [Tables.release, hne, ht] using hv)
  have hdelete : ∀ s' : Broker, s'.heap = s.heap →
      (workerDelete wrk false).wp (fun _ s' => Staff Posted s'.toTables) (fun _ => False) s' := by
    intro s' hs'
    have hw' : s'.heap wrk = some w := by rw [hs', hw]
    simp only [workerDelete, Bool.false_eq_true, if_false, wp_bind, wp_deref hw', hs, wp_upd]
    exact hreleased _ hs'
  cases disconnect with
  | false => exact hdelete s rfl
  | true =>
    have hsplit : workerDelete wrk true =
        (do workerSend wrk mdpwDisconnect [] none; workerDelete wrk false) := rfl
    rw [hsplit, wp_bind]
    refine (workerSend_wp mdpwDisconnect none hw).mono ?_ ?_
    · rintro _ s' ⟨fs, out, rfl, -⟩
      exact hdelete _ rfl
    · rintro s' ⟨fs, out, -, h⟩
      exact h sendable_nil

/-- A worker that has joined has a service. -/
theorem workerJoins_posted (hw : s.heap wrk = some w)
    (hrest : ∀ p ≠ wrk, ∀ v, s.heap p = some v → v.mService ≠ none) (msg : Zmsg) (junk : BitVec 64) :
    (workerJoins wrk msg junk).wp (fun _ s' => Staff Posted s'.toTables) (fun _ => True) s := by
  rcases msg with _ | ⟨part, msg⟩
  · trivial
  simp only [workerJoins, wp_bind, wp_popFront_cons]
  refine (serviceRequire_wp (cStr part) junk s).mono ?_ fun _ _ => trivial
  rintro _ _ ⟨rfl, rfl, -⟩
  have hheap : (require s.toTables (cStr part) junk).heap wrk = some w := hw
  have hsv := mServices_require s.toTables (cStr part) junk
  simp only [deref, wp_bind, wp_get, hheap, wp_pure, wp_upd, derefService,
    Tables.mServices_setWorker, hsv]
  refine (wp_final.2 ?_).mono (fun _ _ h => h) fun _ _ => trivial
  refine ((puts_hands Posted).workerWaiting .request wrk _ ?_).1
  intro p v hv
  rcases eq_or_ne p wrk with rfl | hne
  · obtain rfl : _ = v := by simpa using hv
    exact Option.some_ne_none _
  · exact hrest p hne v (by simpa [hne, require] using hv)

theorem workerProcess_posted (hp : Staff Posted s.toTables) {msg : Zmsg}
    (hcommand : ∀ command ∈ msg.head?, cStr command ∈ Commands) (sender : Bytes) (addr : Ptr)
    (junk : BitVec 64) :
    (workerProcess sender msg addr junk).wp (fun _ s' => Staff Posted s'.toTables) (fun _ => True)
      s := by
  rcases msg with _ | ⟨command, rest⟩
  · trivial
  rcases eq_or_ne sender [] with rfl | hsender
  · trivial
  cases hwrk : s.mWorkers sender with
  | some wrk =>
    obtain ⟨out, hputs, -⟩ :=
      workerProcess_known_puts (P := Posted) hsender hwrk command rest addr junk
    exact (wp_final.2 (hputs hp).1).mono (fun _ _ h => h) fun _ _ => trivial
  | none =>
    let s' : Broker := { s with toTables := s.toTables.addWorker addr sender }
    have hw : s'.heap addr = some ⟨sender, none, 0⟩ := by simp [s', Tables.addWorker]
    have hrest : ∀ p ≠ addr, ∀ v, s'.heap p = some v → v.mService ≠ none := by
      intro p hne v hv
      exact hp p v (by simpa [s', Tables.addWorker, hne] using hv)
    have hdelete : ∀ disconnect, (workerDelete addr disconnect).wp
        (fun _ s' => Staff Posted s'.toTables) (fun _ => True) s' := fun disconnect =>
      (workerDelete_posted hw rfl hrest disconnect).mono (fun _ _ h => h) fun _ _ => trivial
    rw [wp, workerProcess_new_run hsender hwrk]
    split_ifs with _ _ _ _ hnone
    · exact hdelete true
    · exact workerJoins_posted hw hrest rest junk
    · exact hdelete true
    · exact hdelete true
    · exact hdelete false
    · have hmem := hcommand command rfl
      simp_all [Commands]

/-- A worker gives one of the commands. -/
def Obeys (parts : Zmsg) : Prop :=
  ∀ sender empty header command rest, parts = sender :: empty :: header :: command :: rest →
    cStr header = mdpwWorker → cStr command ∈ Commands

theorem receive_posted (hp : Staff Posted s.toTables) {frames : List Bytes} (hne : frames ≠ [])
    (ho : Obeys (frames.map recvPart)) (addr : Ptr) (junk : BitVec 64) :
    (receive frames addr junk).wp (fun _ s' => Staff Posted s'.toTables) (fun _ => True) s := by
  rw [receive, ofSocket_encode hne]
  rcases hparts : frames.map recvPart with _ | ⟨sender, _ | ⟨empty, _ | ⟨header, msg⟩⟩⟩
  · trivial
  · trivial
  · trivial
  simp only [wp_bind, wp_popFront_cons]
  split_ifs with hclient hworker
  · obtain ⟨out, hputs, -⟩ := clientProcess_puts (P := Posted) sender msg junk s
    exact (wp_final.2 (hputs hp).1).mono (fun _ _ h => h) fun _ _ => trivial
  · refine workerProcess_posted hp (fun command hc => ?_) (cStr sender) addr junk
    obtain ⟨rest, rfl⟩ : ∃ l, msg = command :: l := ⟨_, List.eq_cons_of_mem_head? hc⟩
    exact ho sender empty header command rest hparts hworker
  · exact hp

/-- **After a round every worker has a service**, as it had before. -/
theorem code_posted (hp : Staff Posted s.toTables) {e : Round} (hne : e.frames ≠ some [])
    (ho : ∀ frames ∈ e.frames, Obeys (frames.map recvPart)) :
    (code e).wp (fun _ s' => Staff Posted s'.toTables) (fun _ => True) s := by
  have hbeat : ∀ s' : Broker, Staff Posted s'.toTables →
      heartbeats.wp (fun _ s' => Staff Posted s'.toTables) (fun _ => True) s' := fun s' hs' =>
    (wp_final.2 (puts_heartbeats s' hs').1).mono (fun _ _ h => h) fun _ _ => trivial
  simp only [code, wp_bind, wp_modify]
  rcases hf : e.frames with _ | frames
  · exact hbeat { s with clock := e.clock } hp
  · have hframes : frames ≠ [] := fun h => hne (by rw [hf, h])
    simp only [wp_bind]
    exact (receive_posted (s := { s with clock := e.clock }) hp hframes (ho frames hf) e.addr
      e.junk).mono (fun _ s' hs' => hbeat s' hs') fun _ h => h

/-- A round returns if the message that it finds does not end the broker. -/
theorem code_returns (hi : Inv s.toTables) (hset : ∀ srv, SettledAt srv s.toTables) {e : Round}
    (hne : e.frames ≠ some []) (haddr : s.heap e.addr = none)
    (hr : ∀ frames ∈ e.frames, Returns (opening s e) frames) :
    (code e).wp (fun _ _ => True) (fun _ => False) s := by
  simp only [code, wp_bind, wp_modify]
  rcases hf : e.frames with _ | frames
  · exact (heartbeats_wp (s := opening s e) hi).mono (fun _ _ _ => trivial) fun _ h => h
  · simp only [wp_bind]
    refine wp.mono (receive_runs (s := opening s e) hi hset (fun h => hne (by rw [hf, h])) haddr
      e.junk) ?_ ?_
    · rintro _ s₁ ⟨⟨x, -, hcourse⟩, -⟩
      exact (heartbeats_wp (hcourse.inv hi)).mono (fun _ _ _ => trivial) fun _ h => h
    · rintro s₁ ⟨-, hnot⟩
      exact hnot (hr frames hf)

/-- **A round that the broker survives**, and its workers have services then. -/
theorem code_survives {p : Process Broker} (hl : Live p) (hp : Staff Posted p.st.toTables)
    {e : Round} (he : machine.can p e)
    (hr : ∀ frames ∈ e.frames, Returns (opening p.st e) frames ∧ Obeys (frames.map recvPart)) :
    (machine.next p e).halted = none ∧ Staff Posted (machine.next p e).st.toTables := by
  obtain ⟨hh, hne, haddr⟩ := he
  have hreturns := code_returns hl.inv (hl.settled hh) hne haddr fun frames hf => (hr frames hf).1
  have hposted := code_posted hp hne fun frames hf => (hr frames hf).2
  cases hrun : (code e).run p.st with
  | ok a s' =>
    rw [show machine.next p e = _ from Process.exec_ok hrun]
    exact ⟨hh, (wp_ok hrun).1 hposted⟩
  | error halt s' => exact ((wp_error hrun).1 hreturns).elim

end Broker

end ProxyBroker.Majordomo
