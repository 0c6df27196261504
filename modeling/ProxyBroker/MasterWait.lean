/-
  The end of the master (`master::wait_until_workers_closed` in `master.cpp`).

  The children that have not been waited for are listed in the order in which
  `wait` will report them; the loop may run a given number of times.  Each call
  of `wait` is noted, with what was then removed from `workers_pid`.

  `waitUntilWorkersClosed_run`: the loop returns, and no call of `wait` fails.
-/
import ProxyBroker.Master

namespace ProxyBroker

/-- A call of `wait`: the pid it returned, and the pid that was then erased. -/
structure Waited where
  pid : ℤ
  erased : Option ℤ
  deriving DecidableEq, Repr

/-- The master with its children. -/
structure Parent where
  master : Master
  unreaped : List ℤ
  waits : List Waited

namespace Parent

/-- `workers_pid`. -/
abbrev pids (p : Parent) : List ℤ := p.master.workersPid.pids

/-- `workers_pid.erase(it)`, where `it` is at position `i`. -/
def erase (p : Parent) (i : ℕ) : Parent :=
  { p with master := { p.master with workersPid :=
    { pids := p.pids.eraseIdx i
      nodup := p.master.workersPid.nodup.sublist (List.eraseIdx_sublist _ _)
      isPid := fun q hq =>
        p.master.workersPid.isPid q ((List.eraseIdx_sublist _ _).subset hq) } } }

def note (p : Parent) (w : Waited) : Parent := { p with waits := p.waits ++ [w] }

@[simp] theorem pids_erase (p : Parent) (i : ℕ) : (p.erase i).pids = p.pids.eraseIdx i := rfl
@[simp] theorem unreaped_erase (p : Parent) (i : ℕ) : (p.erase i).unreaped = p.unreaped := rfl
@[simp] theorem waits_erase (p : Parent) (i : ℕ) : (p.erase i).waits = p.waits := rfl
@[simp] theorem pids_note (p : Parent) (w : Waited) : (p.note w).pids = p.pids := rfl
@[simp] theorem unreaped_note (p : Parent) (w : Waited) : (p.note w).unreaped = p.unreaped := rfl
@[simp] theorem waits_note (p : Parent) (w : Waited) : (p.note w).waits = p.waits ++ [w] := rfl

/-- `wait` fails when there is no child. -/
def wait : Proc Parent ℤ := do
  let p ← get
  match p.unreaped with
  | [] => return -1
  | pid :: pids => do
    set { p with unreaped := pids }
    return pid

/-- The body of the loop. -/
def waitOnce : Proc Parent Unit := do
  let pid ← wait
  let p ← get
  match p.pids.findIdx? (· = pid) with
  | some it => set ((p.erase it).note ⟨pid, p.pids[it]?⟩)
  | none => set (p.note ⟨pid, none⟩)

/-- `wait_until_workers_closed`, which may run its loop `n` times; `false` if
    it has not returned then. -/
def waitUntilWorkersClosed : ℕ → Proc Parent Bool
  | 0 => return (← get).pids.length = 0
  | n + 1 => do
    if (← get).pids.length = 0 then return true
    waitOnce
    waitUntilWorkersClosed n

/-- What the calls `ws` of `wait` have done: each reported a child, the
    next in turn, and what was erased is what was reported. -/
structure Reaps (p : Parent) (ws : List Waited) (p' : Parent) : Prop where
  waits : p'.waits = p.waits ++ ws
  unreaped : p.unreaped = ws.map Waited.pid ++ p'.unreaped
  erased : ∀ w ∈ ws, ∀ pid ∈ w.erased, pid = w.pid
  pids : (ws.filterMap Waited.erased ++ p'.pids).Perm p.pids

theorem Reaps.refl (p : Parent) : p.Reaps [] p where
  waits := (List.append_nil _).symm
  unreaped := rfl
  erased _ h := absurd h List.not_mem_nil
  pids := .refl _

theorem Reaps.trans {p q r : Parent} {ws ws' : List Waited} (h : p.Reaps ws q)
    (h' : q.Reaps ws' r) : p.Reaps (ws ++ ws') r where
  waits := by rw [h'.waits, h.waits, List.append_assoc]
  unreaped := by rw [h.unreaped, h'.unreaped, List.map_append, List.append_assoc]
  erased w hw := by
    rcases List.mem_append.1 hw with hw | hw
    · exact h.erased w hw
    · exact h'.erased w hw
  pids := by
    rw [List.filterMap_append, List.append_assoc]
    exact (h'.pids.append_left _).trans h.pids

variable {p : Parent} {pid : ℤ} {rest : List ℤ}

/-- Every pid that is listed is that of a child that is not reaped. -/
def Awaits (p : Parent) : Prop := ∀ pid ∈ p.pids, pid ∈ p.unreaped

/-- While a worker is listed there is a child to wait for. -/
theorem Awaits.exists_cons (h : p.Awaits) (hne : p.pids ≠ []) :
    ∃ pid rest, p.unreaped = pid :: rest := by
  obtain ⟨q, qs, hq⟩ := List.exists_cons_of_ne_nil hne
  have hmem : q ∈ p.unreaped := h q (by simp [hq])
  exact List.exists_cons_of_ne_nil (List.ne_nil_of_mem hmem)

/-- **One turn of the loop**: the next child is reported, and it is taken off
    the list if it is there. -/
theorem waitOnce_run (h : p.Awaits) (hun : p.unreaped = pid :: rest) :
    ∃ p' w, waitOnce.run p = .ok () p' ∧ p.Reaps [w] p' ∧ p'.Awaits ∧ p'.unreaped = rest := by
  have hrest : ∀ q ∈ p.pids, q ≠ pid → q ∈ rest := by
    intro q hq hne
    have hmem := h q hq
    rw [hun] at hmem
    exact (List.mem_cons.1 hmem).resolve_left hne
  cases hf : p.pids.findIdx? (· = pid) with
  | none =>
    have hno : ∀ q ∈ p.pids, q ≠ pid := by
      intro q hq
      simpa using List.findIdx?_eq_none_iff.1 hf q hq
    refine ⟨{ p with unreaped := rest }.note ⟨pid, none⟩, ⟨pid, none⟩, ?_, ?_, ?_, rfl⟩
    · simp [waitOnce, wait, hun, hf]
    · exact ⟨rfl, hun, by simp, .refl _⟩
    · intro q hq
      exact hrest q hq (hno q hq)
  | some i =>
    obtain ⟨hi, hpid, -⟩ := List.findIdx?_eq_some_iff_getElem.1 hf
    have hpid' : p.pids[i] = pid := by simpa using hpid
    have hget : p.pids[i]? = some pid := by rw [List.getElem?_eq_getElem hi, hpid']
    have hperm := List.getElem_cons_eraseIdx_perm hi
    rw [hpid'] at hperm
    have hnot : pid ∉ p.pids.eraseIdx i :=
      (List.nodup_cons.1 (hperm.nodup_iff.2 p.master.workersPid.nodup)).1
    refine ⟨({ p with unreaped := rest }.erase i).note ⟨pid, some pid⟩, ⟨pid, some pid⟩, ?_, ?_, ?_,
      rfl⟩
    · simp [waitOnce, wait, hun, hf, hget]
    · exact ⟨rfl, hun, by simp, hperm⟩
    · intro q hq
      refine hrest q ((List.eraseIdx_sublist _ _).subset hq) ?_
      rintro rfl
      exact hnot hq

/-- **The loop returns**: in each of its turns `wait` reports a child, each
    listed pid is erased once, when it is reported, and in the end none is
    left. -/
theorem waitUntilWorkersClosed_run {n : ℕ} (h : p.Awaits) (hn : p.unreaped.length ≤ n) :
    ∃ p' ws, (waitUntilWorkersClosed n).run p = .ok true p' ∧ p'.pids = [] ∧ p.Reaps ws p' := by
  induction n generalizing p with
  | zero =>
    have hnil : p.pids = [] := by
      by_contra hne
      obtain ⟨pid, rest, hun⟩ := h.exists_cons hne
      simp [hun] at hn
    exact ⟨p, [], by simp [waitUntilWorkersClosed, hnil], hnil, .refl p⟩
  | succ n ih =>
    by_cases hnil : p.pids = []
    · exact ⟨p, [], by simp [waitUntilWorkersClosed, hnil], hnil, .refl p⟩
    obtain ⟨pid, rest, hun⟩ := h.exists_cons hnil
    obtain ⟨q, w, hq, hreaps, hawaits, hrest⟩ := waitOnce_run h hun
    have hlen : q.unreaped.length ≤ n := by simpa [hrest, hun] using hn
    obtain ⟨p', ws, hrun, hdone, hreaps'⟩ := ih hawaits hlen
    exact ⟨p', w :: ws, by simp [waitUntilWorkersClosed, hnil, hq, hrun], hdone,
      hreaps.trans hreaps'⟩

/-- A master of two workers that has a third child. -/
def three : Parent where
  master := Master.blank 1 ⟨[11, 12], by decide, by decide⟩
  unreaped := [12, 13, 11]
  waits := []

/-- The exit of the third child changes nothing. -/
theorem waitUntilWorkersClosed_run_three : three.Awaits ∧
    ∃ p' ws, (waitUntilWorkersClosed 3).run three = .ok true p' ∧ p'.pids = [] ∧
      three.Reaps ws p' := by
  have h : three.Awaits := by
    intro pid hpid
    rcases List.mem_cons.1 (show pid ∈ [11, 12] from hpid) with rfl | hpid
    · decide
    · rw [List.mem_singleton.1 hpid]
      decide
  exact ⟨h, waitUntilWorkersClosed_run h (by decide)⟩

end Parent

end ProxyBroker
