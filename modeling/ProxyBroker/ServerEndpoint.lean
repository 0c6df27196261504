/-
  `DomainSocketServerEndpoint` (`comm/DomainSocketServerEndpoint.cpp`), as a
  machine.

  The endpoint accepts clients on a domain socket, registers each with the
  `IoMultiplex` that it shares with others, and publishes messages to all of
  them.  `conn_client_fds`, the registry and the open descriptors of the
  process each hold the clients; the end of a client's stream takes it out of
  the registry alone, and the destructor takes nothing out of it.  A client that
  has hung up ends the process when it is published to.

  * `Inv`: the registry is what the others have in it, the listener, and the
    clients that have not ended.
  * `sound_iff`: when the three agree and `publish_msg` reaches every client.
-/
import ProxyBroker.Kernel
import ProxyBroker.Machine
import ProxyBroker.Registry
import ProxyBroker.Wp

namespace ProxyBroker

/-- The callbacks in the shared `IoMultiplex`. -/
inductive ServerCb where
  /-- calls `domain_accept` -/
  | accept
  /-- calls `domain_receive` -/
  | receive
  /-- a callback of another user -/
  | other (id : ℕ)
  deriving DecidableEq, Repr

structure ServerEndpoint where
  kernel : Kernel
  ioMulti : Registry Fd ServerCb
  listenFd : Fd
  connClientFds : List Fd
  /-- `msg_handler` has been set -/
  msgHandler : Bool
  /-- what `msg_handler` has been called with, and for which connection -/
  handled : List (Fd × List Byte)
  /-- the calls of `send` that `publish_msg` has made -/
  sends : List (Fd × List Byte)
  /-- the destructor has run -/
  destroyed : Bool

namespace ServerEndpoint

/-- Run code over what the kernel keeps for the process. -/
def sys {α : Type} (p : Proc Kernel α) : Proc ServerEndpoint α :=
  Proc.zoom ServerEndpoint.kernel (fun s k => { s with kernel := k }) p

def registerFd (fd : Fd) (cb : ServerCb) : Proc ServerEndpoint Unit :=
  modify fun s => { s with ioMulti := s.ioMulti.register fd cb }

def deregisterFd (fd : Fd) : Proc ServerEndpoint Unit :=
  modify fun s => { s with ioMulti := s.ioMulti.deregister fd }

/-! ## The code -/

/-- `domain_listen`: `fd` is what `socket` returns, and `ok` that `bind` and
    `listen` succeed.  A failure leaves `listen_fd` at -1 or at 0. -/
def domainListen (fd : Fd) (ok : Bool) : Proc ServerEndpoint Unit := do
  modify fun s => { s with listenFd := fd }
  if 0 ≤ fd then
    sys (modify (·.opened fd))
    if !ok then
      sys (modify (·.closed fd))
      modify fun s => { s with listenFd := 0 }

/-- The constructor, which does not look at the result of `domain_listen`. -/
def construct (fd : Fd) (ok : Bool) : Proc ServerEndpoint Unit := do
  domainListen fd ok
  registerFd (← get).listenFd .accept

/-- `domain_accept`, where `accept` returns `connFd`. -/
def domainAccept (connFd : Fd) : Proc ServerEndpoint Unit := do
  if connFd < 0 then return
  sys (modify (·.opened connFd))
  registerFd connFd .receive
  modify fun s => { s with connClientFds := s.connClientFds ++ [connFd] }

/-- `domain_receive`: after an error the vector is made from a range that ends
    before it begins, which throws. -/
def domainReceive (sockFd : Fd) (r : Option (List Byte)) : Proc ServerEndpoint Unit :=
  match r with
  | none => Proc.halt .abort
  | some [] => deregisterFd sockFd
  | some bs => do
    if (← get).msgHandler then modify fun s => { s with handled := s.handled ++ [(sockFd, bs)] }
    else Proc.halt .abort

/-- `register_handler`. -/
def registerHandler : Proc ServerEndpoint Unit := modify fun s => { s with msgHandler := true }

/-- `send(fd, msg, .., 0)`: the result is only reported, but nothing ignores
    SIGPIPE. -/
def send (fd : Fd) (msg : List Byte) : Proc ServerEndpoint Unit := do
  modify fun s => { s with sends := s.sends ++ [(fd, msg)] }
  if fd ∈ (← get).kernel.gone then Proc.halt .sigpipe

/-- The loop of `publish_msg`. -/
def publishLoop (msg : List Byte) : List Fd → Proc ServerEndpoint Unit
  | [] => return
  | fd :: fds => do
    send fd msg
    publishLoop msg fds

/-- `publish_msg`. -/
def publishMsg (msg : List Byte) : Proc ServerEndpoint Unit := do
  publishLoop msg (← get).connClientFds

/-- The loop of `domain_close`. -/
def closeLoop : List Fd → Proc ServerEndpoint Unit
  | [] => return
  | fd :: fds => do
    sys (modify (·.closed fd))
    closeLoop fds

/-- `domain_close`. -/
def domainClose : Proc ServerEndpoint Unit := do
  let s ← get
  if 0 < s.listenFd then
    sys (modify (·.closed s.listenFd))
    modify fun s => { s with listenFd := 0 }
  closeLoop s.connClientFds

/-- The destructor. -/
def destroy : Proc ServerEndpoint Unit := do
  domainClose
  modify fun s => { s with destroyed := true }

/-- Before the constructor: the others have their descriptors open and
    registered. -/
def blank (others : Registry Fd ℕ) : ServerEndpoint where
  kernel := { Kernel.start with openFds := Kernel.start.openFds ∪ others.fds.toFinset }
  ioMulti := others.map fun p => (p.1, .other p.2)
  listenFd := 0
  connClientFds := []
  msgHandler := false
  handled := []
  sends := []
  destroyed := false

def init (others : Registry Fd ℕ) (fd : Fd) (ok : Bool) : Process ServerEndpoint :=
  Process.exec (construct fd ok) ⟨blank others, none⟩

end ServerEndpoint

/-! ## The machine -/

inductive ServerEv where
  /-- `Poll` calls the callback of the listener; `accept` returns `connFd` -/
  | accept (fd connFd : Fd)
  /-- `Poll` calls the callback of a client; `r` is the result of `recv` -/
  | receive (fd : Fd) (r : Option (List Byte))
  | registerHandler
  | publish (msg : List Byte)
  | destroy
  /-- the other end of `fd` is closed -/
  | hangUp (fd : Fd)
  deriving DecidableEq

namespace ServerEndpoint

/-- The code that an event runs; the callback of the listener looks at the
    descriptor that it is called with. -/
def code : ServerEv → Proc ServerEndpoint Unit
  | .accept fd connFd => do
    if fd = (← get).listenFd then domainAccept connFd
  | .receive fd r => domainReceive fd r
  | .registerHandler => registerHandler
  | .publish msg => publishMsg msg
  | .destroy => destroy
  | .hangUp fd => sys (modify (·.hangUp fd))

/-- The event can happen. -/
def Enabled (s : ServerEndpoint) : ServerEv → Prop
  | .accept fd connFd => (Registry.machine Fd ServerCb).can s.ioMulti (.call fd .accept) ∧
      s.kernel.MayReturn connFd
  | .receive fd _ => (Registry.machine Fd ServerCb).can s.ioMulti (.call fd .receive)
  | .registerHandler | .publish _ | .destroy => True
  | .hangUp fd => fd ∈ s.kernel.openFds

instance (s : ServerEndpoint) : ∀ e, Decidable (s.Enabled e)
  | .accept fd _ => inferInstanceAs (Decidable ((fd, ServerCb.accept) ∈ s.ioMulti ∧ _))
  | .receive fd _ => inferInstanceAs (Decidable ((fd, ServerCb.receive) ∈ s.ioMulti))
  | .registerHandler | .publish _ | .destroy => isTrue trivial
  | .hangUp _ => inferInstanceAs (Decidable (_ ∈ _))

/-- The endpoint as a machine, until its destructor has run. -/
def machine : Machine (Process ServerEndpoint) ServerEv where
  can p e := p.halted = none ∧ p.st.destroyed = false ∧ p.st.Enabled e
  next p e := Process.exec (code e) p

instance (p : Process ServerEndpoint) (e : ServerEv) : Decidable (machine.can p e) :=
  inferInstanceAs (Decidable (_ ∧ _ ∧ _))

/-! ## What the code does -/

@[simp] theorem run_sys {α : Type} (p : Proc Kernel α) (s : ServerEndpoint) :
    (sys p).run s = Proc.mapState (fun k => { s with kernel := k }) (p.run s.kernel) := rfl

variable {s s' : ServerEndpoint} {others : Registry Fd ℕ} {live : List Fd} {fd connFd : Fd}

theorem send_run (fd : Fd) (msg : List Byte) (s : ServerEndpoint) :
    (send fd msg).run s =
      if fd ∈ s.kernel.gone then .error .sigpipe { s with sends := s.sends ++ [(fd, msg)] }
      else .ok () { s with sends := s.sends ++ [(fd, msg)] } := by
  by_cases h : fd ∈ s.kernel.gone <;> simp [send, h]

/-- While no client has hung up the loop sends to each of them. -/
theorem publishLoop_run (msg : List Byte) : ∀ {fds : List Fd} {s : ServerEndpoint},
    (∀ fd ∈ fds, fd ∉ s.kernel.gone) → (publishLoop msg fds).run s =
      .ok () { s with sends := s.sends ++ fds.map fun fd => (fd, msg) }
  | [], s, _ => by simp [publishLoop]
  | fd :: fds, s, h => by
    have hthere : ∀ a ∈ fds, a ∉ s.kernel.gone := fun a ha => h a (List.mem_cons_of_mem _ ha)
    have hrest := publishLoop_run msg (s := { s with sends := s.sends ++ [(fd, msg)] }) hthere
    simp [publishLoop, send_run, h fd List.mem_cons_self, hrest]

/-- A client that has hung up ends the process. -/
theorem publishLoop_ends (msg : List Byte) : ∀ {fds : List Fd} {s : ServerEndpoint},
    (∃ fd ∈ fds, fd ∈ s.kernel.gone) → ∃ s', (publishLoop msg fds).run s = .error .sigpipe s'
  | [], s, h => by simp at h
  | fd :: fds, s, h => by
    by_cases hfd : fd ∈ s.kernel.gone
    · exact ⟨_, by simp [publishLoop, send_run, hfd]; rfl⟩
    · obtain ⟨a, ha, hgone⟩ := h
      have hmem : a ∈ fds := (List.mem_cons.1 ha).resolve_left fun e => hfd (e ▸ hgone)
      obtain ⟨s', hs'⟩ := publishLoop_ends msg
        (s := { s with sends := s.sends ++ [(fd, msg)] }) ⟨a, hmem, hgone⟩
      exact ⟨s', by simp [publishLoop, send_run, hfd, hs']⟩

/-- However the loop ends, it changes nothing but what has been sent. -/
theorem publishLoop_final (msg : List Byte) : ∀ (fds : List Fd) (s : ServerEndpoint),
    ∃ sends, (publishLoop msg fds).final s = { s with sends := sends }
  | [], s => ⟨s.sends, rfl⟩
  | fd :: fds, s => by
    have hrun := send_run fd msg s
    split_ifs at hrun
    · exact ⟨_, Proc.final_bind_error hrun _⟩
    · obtain ⟨sends, h⟩ := publishLoop_final msg fds { s with sends := s.sends ++ [(fd, msg)] }
      exact ⟨sends, (Proc.final_bind_ok hrun _).trans h⟩

theorem closeLoop_run : ∀ (fds : List Fd) (s : ServerEndpoint),
    ∃ k, (closeLoop fds).run s = .ok () { s with kernel := k }
  | [], s => ⟨s.kernel, rfl⟩
  | fd :: fds, s => by
    obtain ⟨k, hk⟩ := closeLoop_run fds { s with kernel := s.kernel.closed fd }
    exact ⟨k, by simp [closeLoop, hk]⟩

/-- The destructor leaves the registry as it is. -/
theorem destroy_run (s : ServerEndpoint) :
    ∃ k l, destroy.run s = .ok () { s with kernel := k, listenFd := l, destroyed := true } := by
  by_cases hl : 0 < s.listenFd
  · obtain ⟨k, hk⟩ := closeLoop_run s.connClientFds
      { s with kernel := s.kernel.closed s.listenFd, listenFd := 0 }
    exact ⟨k, 0, by simp [destroy, domainClose, hl, hk]⟩
  · obtain ⟨k, hk⟩ := closeLoop_run s.connClientFds s
    exact ⟨k, s.listenFd, by simp [destroy, domainClose, hl, hk]⟩

/-! ## What holds between two events -/

/-- What is registered besides the clients. -/
def base (s : ServerEndpoint) (others : Registry Fd ℕ) : Registry Fd ServerCb :=
  (others.map fun p => (p.1, .other p.2)) ++ [(s.listenFd, .accept)]

/-- What holds until the destructor runs; `live` are the clients whose streams
    have not ended. -/
structure Inv (others : Registry Fd ℕ) (live : List Fd) (s : ServerEndpoint) : Prop where
  destroyed : s.destroyed = false
  ioMulti : s.ioMulti = s.base others ++ live.map fun fd => (fd, .receive)
  sublist : live.Sublist s.connClientFds
  nodup : s.connClientFds.Nodup
  opened : ∀ fd ∈ s.connClientFds, fd ∈ s.kernel.openFds
  listenFd : s.listenFd = -1 ∨ s.listenFd ∈ s.kernel.openFds
  shared : ∀ fd ∈ others.fds, fd ∈ s.kernel.openFds
  distinct : ∀ fd ∈ s.connClientFds, fd ≠ s.listenFd ∧ fd ∉ others.fds
  gone : s.kernel.gone ⊆ s.kernel.openFds

theorem mem_base {p : Fd × ServerCb} : p ∈ s.base others ↔
    (∃ q ∈ others, (q.1, .other q.2) = p) ∨ p = (s.listenFd, .accept) := by
  simp [base]

/-- The pairs of the endpoint's clients. -/
theorem Inv.mem_receive (h : Inv others live s) :
    (fd, .receive) ∈ s.ioMulti ↔ fd ∈ live := by
  simp [h.ioMulti, mem_base]

theorem Inv.mem_accept (h : Inv others live s) (hm : (fd, .accept) ∈ s.ioMulti) :
    fd = s.listenFd := by
  simpa [h.ioMulti, mem_base] using hm

/-- Nothing else is registered for a client. -/
theorem Inv.ne_of_mem_base (h : Inv others live s) (hfd : fd ∈ s.connClientFds) :
    ∀ p ∈ s.base others, p.1 ≠ fd := by
  obtain ⟨hl, ho⟩ := h.distinct fd hfd
  intro p hp
  rcases mem_base.1 hp with ⟨q, hq, rfl⟩ | rfl
  · rintro rfl
    exact ho (Registry.mem_fds.2 ⟨q.2, hq⟩)
  · exact hl.symm

/-- A client has been accepted. -/
def accepted (s : ServerEndpoint) (fd : Fd) : ServerEndpoint :=
  { s with
    kernel := s.kernel.opened fd
    ioMulti := s.ioMulti.register fd .receive
    connClientFds := s.connClientFds ++ [fd] }

theorem domainAccept_run (hfd : 0 ≤ connFd) :
    (domainAccept connFd).run s = .ok () (s.accepted connFd) := by
  simp [domainAccept, not_lt.2 hfd, registerFd, accepted]

theorem Inv.accepted (h : Inv others live s) (hfd : s.kernel.Fresh fd) :
    Inv others (live ++ [fd]) (s.accepted fd) where
  destroyed := h.destroyed
  ioMulti := by simp [ServerEndpoint.accepted, h.ioMulti, Registry.register, base]
  sublist := h.sublist.append (List.Sublist.refl _)
  nodup := by
    have hnew : ∀ a ∈ s.connClientFds, a ≠ fd := by
      rintro a ha rfl
      exact hfd.2 (h.opened a ha)
    simpa [ServerEndpoint.accepted, List.nodup_append] using ⟨h.nodup, hnew⟩
  opened a ha := by
    rcases List.mem_append.1 ha with ha | ha
    · exact Finset.mem_insert_of_mem (h.opened a ha)
    · rw [List.mem_singleton.1 ha]
      exact Finset.mem_insert_self ..
  listenFd := h.listenFd.imp_right Finset.mem_insert_of_mem
  shared a ha := Finset.mem_insert_of_mem (h.shared a ha)
  distinct a ha := by
    rcases List.mem_append.1 ha with ha | ha
    · exact h.distinct a ha
    · obtain rfl := List.mem_singleton.1 ha
      refine ⟨fun (heq : a = s.listenFd) => ?_, fun ho => hfd.2 (h.shared a ho)⟩
      rcases h.listenFd with hl | hl
      · exact absurd hfd.1 (by rw [heq, hl]; decide)
      · exact hfd.2 (heq ▸ hl)
  gone := h.gone.trans (Finset.subset_insert _ _)

/-- The end of a client's stream. -/
theorem Inv.ended (h : Inv others live s) (hfd : fd ∈ live) :
    Inv others (live.erase fd) { s with ioMulti := s.ioMulti.deregister fd } where
  destroyed := h.destroyed
  ioMulti := by
    have hbase := h.ne_of_mem_base (h.sublist.subset hfd)
    have herase : (live.map fun a => (a, ServerCb.receive)).eraseP (fun p => p.1 = fd) =
        (live.erase fd).map fun a => (a, .receive) := by
      rw [List.eraseP_map, List.erase_eq_eraseP]
      congr 2
      funext a
      simp [beq_eq_decide, eq_comm]
    rw [h.ioMulti, Registry.deregister, List.eraseP_append_right _ (by simpa using hbase), herase]
    rfl
  sublist := List.erase_sublist.trans h.sublist
  nodup := h.nodup
  opened := h.opened
  listenFd := h.listenFd
  shared := h.shared
  distinct := h.distinct
  gone := h.gone

/-- Code that does not touch the clients. -/
theorem Inv.of_eq (h : Inv others live s) (hio : s'.ioMulti = s.ioMulti)
    (hl : s'.listenFd = s.listenFd) (hconn : s'.connClientFds = s.connClientFds)
    (hk : s'.kernel.openFds = s.kernel.openFds) (hg : s'.kernel.gone ⊆ s.kernel.openFds)
    (hd : s'.destroyed = s.destroyed) : Inv others live s' where
  destroyed := hd.trans h.destroyed
  ioMulti := by rw [hio, h.ioMulti, base, base, hl]
  sublist := hconn ▸ h.sublist
  nodup := hconn ▸ h.nodup
  opened := by simpa only [hconn, hk] using h.opened
  listenFd := by simpa only [hl, hk] using h.listenFd
  shared := by simpa only [hk] using h.shared
  distinct := by simpa only [hconn, hl] using h.distinct
  gone := hk ▸ hg

/-! ## When the endpoint is sound -/

/-- A client connection that is open and registered. -/
def Client (s : ServerEndpoint) (fd : Fd) : Prop :=
  fd ∈ s.kernel.openFds ∧ (fd, .receive) ∈ s.ioMulti

/-- `conn_client_fds` holds exactly the clients, each once. -/
def Agrees (s : ServerEndpoint) : Prop :=
  s.connClientFds.Nodup ∧ ∀ fd, fd ∈ s.connClientFds ↔ s.Client fd

/-- `publish_msg` sends to every client once, and to nobody else. -/
def Publishes (s : ServerEndpoint) : Prop :=
  ∀ msg, ∃ calls, (publishMsg msg).run s = .ok () { s with sends := s.sends ++ calls } ∧
    calls.Nodup ∧ ∀ c, c ∈ calls ↔ c.2 = msg ∧ s.Client c.1

/-- While the endpoint is there it knows its clients, and afterwards none of
    its callbacks is left. -/
def Sound (s : ServerEndpoint) : Prop :=
  (s.destroyed = false → s.Agrees ∧ s.Publishes) ∧
    (s.destroyed = true → ∀ fd cb, (fd, cb) ∈ s.ioMulti → ∃ id, cb = .other id)

/-- No client that is listed has hung up. -/
def AllThere (s : ServerEndpoint) : Prop := ∀ fd ∈ s.connClientFds, fd ∉ s.kernel.gone

/-- The endpoint that has its list right publishes to every client while all of
    them are there. -/
theorem Agrees.publishes_iff (h : s.Agrees) : s.Publishes ↔ s.AllThere := by
  constructor
  · intro hp fd hfd hgone
    obtain ⟨calls, hrun, -⟩ := hp []
    obtain ⟨s', hs'⟩ := publishLoop_ends [] ⟨fd, hfd, hgone⟩
    have hs' : (publishMsg []).run s = .error .sigpipe s' := hs'
    cases hrun.symm.trans hs'
  · intro hall msg
    refine ⟨s.connClientFds.map fun fd => (fd, msg), publishLoop_run msg hall, ?_, ?_⟩
    · exact h.1.map fun a b hab => (Prod.ext_iff.1 hab).1
    · rintro ⟨fd, m⟩
      simp only [List.mem_map, Prod.mk.injEq, ← h.2]
      constructor
      · rintro ⟨a, ha, rfl, rfl⟩
        exact ⟨rfl, ha⟩
      · rintro ⟨rfl, ha⟩
        exact ⟨fd, ha, rfl, rfl⟩

theorem Inv.agrees_iff (h : Inv others live s) : s.Agrees ↔ live = s.connClientFds := by
  constructor
  · intro ha
    have hsub : s.connClientFds ⊆ live := fun fd hfd => h.mem_receive.1 ((ha.2 fd).1 hfd).2
    exact h.sublist.eq_of_length_le (h.nodup.subperm hsub).length_le
  · rintro hl
    refine ⟨h.nodup, ?_⟩
    intro fd
    rw [Client, h.mem_receive, hl]
    exact ⟨fun hfd => ⟨h.opened fd hfd, hfd⟩, fun hfd => hfd.2⟩

/-- The event leaves the endpoint in order: it is not the end of a client's
    stream, nor the destructor, and no client hangs up. -/
def KeepsOrder (s : ServerEndpoint) : ServerEv → Prop
  | .receive _ r => r ≠ some []
  | .destroy => False
  | .hangUp fd => fd ∉ s.connClientFds
  | .accept .. | .registerHandler | .publish _ => True

instance (s : ServerEndpoint) : ∀ e, Decidable (s.KeepsOrder e)
  | .receive _ r => inferInstanceAs (Decidable (r ≠ some []))
  | .destroy => isFalse id
  | .hangUp fd => inferInstanceAs (Decidable (fd ∉ s.connClientFds))
  | .accept .. | .registerHandler | .publish _ => isTrue trivial

/-- What a run leaves, where `good` says that all its events kept the endpoint
    in order: then the clients are all live and there, and the callback of the
    listener is there even after the destructor. -/
structure Ran (others : Registry Fd ℕ) (good : Prop) (s : ServerEndpoint) : Prop where
  up : s.destroyed = false → ∃ live, Inv others live s ∧
    (live = s.connClientFds ∧ s.AllThere ↔ good)
  down : s.destroyed = true → ¬ good ∧ ∃ fd, (fd, .accept) ∈ s.ioMulti

variable {es : List ServerEv} {e : ServerEv} {good : Prop}

/-- The state that an event leaves while the endpoint is there. -/
inductive Change (s : ServerEndpoint) : ServerEv → ServerEndpoint → Prop
  | accepted {fd connFd : Fd} (hfd : s.kernel.Fresh connFd) :
      Change s (.accept fd connFd) (s.accepted connFd)
  | ended {fd : Fd} (hreg : (fd, .receive) ∈ s.ioMulti) :
      Change s (.receive fd (some [])) { s with ioMulti := s.ioMulti.deregister fd }
  | quiet {e : ServerEv} {s' : ServerEndpoint} (hkeeps : s.KeepsOrder e)
      (hio : s'.ioMulti = s.ioMulti) (hl : s'.listenFd = s.listenFd)
      (hconn : s'.connClientFds = s.connClientFds) (hk : s'.kernel = s.kernel)
      (hdest : s'.destroyed = s.destroyed) : Change s e s'
  | hungUp {fd : Fd} (hfd : fd ∈ s.kernel.openFds) :
      Change s (.hangUp fd) { s with kernel := s.kernel.hangUp fd }
  | destroyed {s' : ServerEndpoint} (hio : s'.ioMulti = s.ioMulti) (hd : s'.destroyed = true) :
      Change s .destroy s'

/-- **What an event does**, also when it ends the process. -/
theorem code_change (h : Inv others live s) (he : s.Enabled e) :
    s.Change e ((code e).final s) := by
  cases e with
  | accept fd connFd =>
    obtain rfl := h.mem_accept he.1
    by_cases hfd : 0 ≤ connFd
    · have hfresh : s.kernel.Fresh connFd := he.2.fresh hfd
      have hrun : (code (.accept s.listenFd connFd)).run s = .ok () (s.accepted connFd) := by
        simp [code, domainAccept_run hfd]
      rw [Proc.final_ok hrun]
      exact .accepted hfresh
    · have hrun : (code (.accept s.listenFd connFd)).run s = .ok () s := by
        simp [code, domainAccept, not_le.1 hfd]
      rw [Proc.final_ok hrun]
      exact .quiet trivial rfl rfl rfl rfl rfl
  | receive fd r =>
    rcases r with _ | ⟨_ | ⟨b, bs⟩⟩
    · exact .quiet (by simp [KeepsOrder]) rfl rfl rfl rfl rfl
    · exact .ended he
    · have hkeeps : s.KeepsOrder (.receive fd (some (b :: bs))) := by simp [KeepsOrder]
      cases hm : s.msgHandler <;> refine .quiet hkeeps ?_ ?_ ?_ ?_ ?_ <;>
        simp [Proc.final, code, domainReceive, hm]
  | registerHandler => exact .quiet trivial rfl rfl rfl rfl rfl
  | publish msg =>
    obtain ⟨sends, hfinal⟩ := publishLoop_final msg s.connClientFds s
    rw [show (code (.publish msg)).final s = _ from hfinal]
    exact .quiet trivial rfl rfl rfl rfl rfl
  | destroy =>
    obtain ⟨k, l, hrun⟩ := destroy_run s
    rw [show (code .destroy).final s = _ from Proc.final_ok hrun]
    exact .destroyed rfl rfl
  | hangUp fd => exact .hungUp he

theorem Ran.step (h : Ran others good s) (hup : s.destroyed = false) (hc : s.Change e s') :
    Ran others (good ∧ s.KeepsOrder e) s' := by
  obtain ⟨live, hinv, hlive⟩ := h.up hup
  have hnot : ∀ {t : ServerEndpoint}, t.destroyed = s.destroyed → t.destroyed ≠ true := by
    intro t ht hd
    exact absurd (hup.symm.trans (ht.symm.trans hd)) (by simp)
  rw [← hlive]
  cases hc with
  | @accepted fd connFd hfd =>
    refine ⟨fun _ => ⟨_, hinv.accepted hfd, ?_⟩, fun hd => absurd hd (hnot rfl)⟩
    have hnew : connFd ∉ s.kernel.gone := fun hgone => hfd.2 (hinv.gone hgone)
    simp [ServerEndpoint.accepted, AllThere, KeepsOrder, or_imp, forall_and, hnew]
  | @ended fd hreg =>
    -- a client that has ended stays in `conn_client_fds`
    have hfd := hinv.mem_receive.1 hreg
    refine ⟨fun _ => ⟨_, hinv.ended hfd, ?_⟩, fun hd => absurd hd (hnot rfl)⟩
    refine iff_of_false (fun heq => ?_) (fun hr => hr.2 rfl)
    have hlen : (live.erase fd).length = s.connClientFds.length := congrArg List.length heq.1
    have hle := hinv.sublist.length_le
    rw [List.length_erase_of_mem hfd] at hlen
    have hpos := List.length_pos_of_mem hfd
    omega
  | quiet hkeeps hio hl hconn hk hdest =>
    refine ⟨fun _ => ⟨live, hinv.of_eq hio hl hconn (by rw [hk]) (hk ▸ hinv.gone) hdest, ?_⟩,
      fun hd => absurd hd (hnot hdest)⟩
    simp [AllThere, hconn, hk, hkeeps]
  | @hungUp fd hfd =>
    refine ⟨fun _ => ⟨live, hinv.of_eq rfl rfl rfl rfl ?_ rfl, ?_⟩,
      fun hd => absurd hd (hnot rfl)⟩
    · exact Finset.insert_subset hfd hinv.gone
    · have hthere : ({ s with kernel := s.kernel.hangUp fd } : ServerEndpoint).AllThere ↔
          s.AllThere ∧ fd ∉ s.connClientFds := by
        simp only [AllThere, Kernel.gone_hangUp, Finset.mem_insert, not_or, forall_and]
        refine and_comm.trans (and_congr_right' ?_)
        exact ⟨fun hne hm => hne fd hm rfl, fun hno a ha heq => hno (heq ▸ ha)⟩
      rw [hthere, KeepsOrder, and_assoc]
  | destroyed hio hd =>
    refine ⟨fun hd' => absurd (hd'.symm.trans hd) (by simp), fun _ => ⟨fun hr => hr.2, ?_⟩⟩
    refine ⟨s.listenFd, ?_⟩
    rw [hio, hinv.ioMulti]
    exact List.mem_append_left _ (mem_base.2 (Or.inr rfl))

theorem init_ran (others : Registry Fd ℕ) (ok : Bool)
    (hfd : (blank others).kernel.MayReturn fd) : Ran others True (init others fd ok).st := by
  obtain ⟨k, l, hrun, hl, hk, hg⟩ : ∃ k l, (construct fd ok).run (blank others) = .ok ()
      { blank others with
        kernel := k, listenFd := l, ioMulti := (blank others).ioMulti.register l .accept } ∧
      (l = -1 ∨ l ∈ k.openFds) ∧ (∀ a ∈ others.fds, a ∈ k.openFds) ∧ k.gone = ∅ := by
    have hothers : ∀ a ∈ others.fds, a ∈ (blank others).kernel.openFds := fun a ha =>
      Finset.mem_union_right _ (List.mem_toFinset.2 ha)
    rcases hfd with rfl | hfd
    · exact ⟨_, -1, by simp [construct, domainListen, registerFd], Or.inl rfl, hothers, rfl⟩
    · have hzero : (0 : Fd) ∈ (blank others).kernel.openFds := Finset.mem_union_left _ (by decide)
      cases ok with
      | true =>
        exact ⟨_, fd, by simp [construct, domainListen, registerFd, hfd.1]; rfl,
          Or.inr (Finset.mem_insert_self ..), fun a ha => Finset.mem_insert_of_mem (hothers a ha),
          rfl⟩
      | false =>
        have hne : ∀ a ∈ (blank others).kernel.openFds, a ≠ fd := by
          rintro a ha rfl
          exact hfd.2 ha
        have hmem : ∀ a ∈ (blank others).kernel.openFds,
            a ∈ (((blank others).kernel.opened fd).closed fd).openFds := fun a ha =>
          Finset.mem_erase.2 ⟨hne a ha, Finset.mem_insert_of_mem ha⟩
        exact ⟨_, 0, by simp [construct, domainListen, registerFd, hfd.1],
          Or.inr (hmem 0 hzero), fun a ha => hmem a (hothers a ha), rfl⟩
  rw [init, Process.exec_ok hrun]
  refine ⟨fun _ => ⟨[], ?_, by simp [blank, AllThere]⟩, fun hd => absurd hd (by simp [blank])⟩
  exact ⟨rfl, by simp [blank, base, Registry.register], List.Sublist.refl _, List.nodup_nil,
    by simp [blank], hl, hk, by simp [blank], by simp [hg]⟩

theorem run_ran {ok : Bool} (hfd : (blank others).kernel.MayReturn fd)
    (hc : machine.Can (init others fd ok) es) :
    Ran others (machine.All (fun p e => p.st.KeepsOrder e) (init others fd ok) es)
      (machine.run (init others fd ok) es).st := by
  induction es using List.reverseRecOn with
  | nil => exact init_ran others ok hfd
  | append_singleton es e ih =>
    obtain ⟨hes, he⟩ := Machine.all_snoc.1 hc
    have hran := ih hes
    obtain ⟨live, hinv, -⟩ := hran.up he.2.1
    rw [Machine.all_snoc, Machine.run_append, Machine.run_cons, Machine.run_nil,
      show (machine.next _ e).st = (code e).final _ from Process.st_exec _ _]
    exact hran.step he.2.1 (code_change hinv he.2.2)

/-- **The endpoint is sound exactly as long as** no client has hung up, the end
    of no client's stream has been read, and its destructor has not run. -/
theorem sound_iff {ok : Bool} (hfd : (blank others).kernel.MayReturn fd)
    (hc : machine.Can (init others fd ok) es) :
    (machine.run (init others fd ok) es).st.Sound ↔
      machine.All (fun p e => p.st.KeepsOrder e) (init others fd ok) es := by
  have hran := run_ran hfd hc
  cases hd : (machine.run (init others fd ok) es).st.destroyed with
  | false =>
    obtain ⟨live, hinv, hlive⟩ := hran.up hd
    rw [← hlive, ← hinv.agrees_iff]
    constructor
    · intro hs
      obtain ⟨ha, hp⟩ := hs.1 hd
      exact ⟨ha, ha.publishes_iff.1 hp⟩
    · rintro ⟨ha, hall⟩
      exact ⟨fun _ => ⟨ha, ha.publishes_iff.2 hall⟩, fun ht => absurd (hd.symm.trans ht) (by simp)⟩
  | true =>
    obtain ⟨hgood, a, ha⟩ := hran.down hd
    refine iff_of_false (fun hs => ?_) hgood
    obtain ⟨id, hid⟩ := hs.2 hd a _ ha
    cases hid

/-- Another user has descriptor 3 in the multiplexer.  Two clients connect to
    the listener, which is descriptor 4, and a message is published; the other
    end of the other user's descriptor is closed. -/
def twoClients : List ServerEv :=
  [.registerHandler, .accept 4 5, .accept 4 6, .receive 5 (some [104]), .publish [105], .hangUp 3]

theorem sound_iff_twoClients : (machine.run (init [(3, 0)] 4 true) twoClients).st.Sound :=
  (sound_iff (by decide) (by decide)).2 (by decide)

/-- A client that has ended is still published to. -/
theorem sound_ended :
    ¬ ∀ (others : Registry Fd ℕ) (fd : Fd) (ok : Bool) (es : List ServerEv),
      (blank others).kernel.MayReturn fd → machine.Can (init others fd ok) es →
      (machine.run (init others fd ok) es).st.Sound := by
  intro h
  have hs := h [(3, 0)] 4 true (twoClients ++ [.receive 5 (some [])]) (by decide) (by decide)
  have hmem := ((hs.1 (by decide)).1.2 5).1 (by decide)
  exact absurd hmem.2 (by decide)

end ServerEndpoint

end ProxyBroker
