/-
  `DomainSocketClientEndpoint` (`comm/DomainSocketClientEndpoint.cpp`), as a
  machine, and what it and the server endpoint pass on to their handlers.

  The client connects to a server and registers the connection with the
  `IoMultiplex` that it shares with others.  Its `domain_receive` is that of the
  server but for the end of the stream, which ends the process.

  `endpoints_deliver_iff`: when the two endpoints handle what they receive.
-/
import ProxyBroker.Delivery
import ProxyBroker.ServerEndpoint

namespace ProxyBroker

/-- The callbacks in the shared `IoMultiplex`. -/
inductive ClientCb where
  /-- calls `domain_receive` -/
  | receive
  /-- a callback of another user -/
  | other (id : ℕ)
  deriving DecidableEq, Repr

structure ClientEndpoint where
  kernel : Kernel
  ioMulti : Registry Fd ClientCb
  connFd : Fd
  /-- `msg_handler` has been set -/
  msgHandler : Bool
  /-- what `msg_handler` has been called with, and for which connection -/
  handled : List (Fd × List Byte)
  /-- the calls of `send` that `send_msg` has made -/
  sends : List (Fd × List Byte)
  /-- the destructor has run -/
  destroyed : Bool

namespace ClientEndpoint

/-- Run code over what the kernel keeps for the process. -/
def sys {α : Type} (p : Proc Kernel α) : Proc ClientEndpoint α :=
  Proc.zoom ClientEndpoint.kernel (fun s k => { s with kernel := k }) p

def registerFd (fd : Fd) (cb : ClientCb) : Proc ClientEndpoint Unit :=
  modify fun s => { s with ioMulti := s.ioMulti.register fd cb }

/-! ## The code -/

/-- `domain_connect`: `fd` is what `socket` returns, and the others whether
    `bind` and `connect` succeed. -/
def domainConnect (fd : Fd) (bound connected : Bool) : Proc ClientEndpoint Fd := do
  if fd < 0 then return -1
  sys (modify (·.opened fd))
  if bound ∧ connected then return fd
  sys (modify (·.closed fd))
  return if bound then -4 else -2

/-- The constructor. -/
def construct (fd : Fd) (bound connected : Bool) : Proc ClientEndpoint Unit := do
  let connFd ← domainConnect fd bound connected
  modify fun s => { s with connFd }
  if connFd < 0 then Proc.halt (.exit 0)
  registerFd connFd .receive

/-- `domain_receive`: after an error the vector is made from a range that ends
    before it begins, which throws. -/
def domainReceive (sockFd : Fd) (r : Option (List Byte)) : Proc ClientEndpoint Unit :=
  match r with
  | none => Proc.halt .abort
  | some [] => Proc.halt (.exit 0)
  | some bs => do
    if (← get).msgHandler then modify fun s => { s with handled := s.handled ++ [(sockFd, bs)] }
    else Proc.halt .abort

/-- `register_handler`. -/
def registerHandler : Proc ClientEndpoint Unit := modify fun s => { s with msgHandler := true }

/-- `send_msg`; the result of `send` is only reported, but nothing ignores
    SIGPIPE. -/
def sendMsg (msg : List Byte) : Proc ClientEndpoint Unit := do
  modify fun s => { s with sends := s.sends ++ [(s.connFd, msg)] }
  let s ← get
  if s.connFd ∈ s.kernel.gone then Proc.halt .sigpipe

/-- The destructor, which calls `domain_close`. -/
def destroy : Proc ClientEndpoint Unit := do
  sys (modify (·.closed (← get).connFd))
  modify fun s => { s with destroyed := true }

/-- Before the constructor: the others have their descriptors open and
    registered. -/
def blank (others : Registry Fd ℕ) : ClientEndpoint where
  kernel := { Kernel.start with openFds := Kernel.start.openFds ∪ others.fds.toFinset }
  ioMulti := others.map fun p => (p.1, .other p.2)
  connFd := 0
  msgHandler := false
  handled := []
  sends := []
  destroyed := false

def init (others : Registry Fd ℕ) (fd : Fd) (bound connected : Bool) : Process ClientEndpoint :=
  Process.exec (construct fd bound connected) ⟨blank others, none⟩

end ClientEndpoint

/-! ## The machine -/

inductive ClientEv where
  /-- `Poll` calls the callback of the connection; `r` is the result of `recv` -/
  | receive (fd : Fd) (r : Option (List Byte))
  | registerHandler
  | sendMsg (msg : List Byte)
  | destroy
  /-- the other end of `fd` is closed -/
  | hangUp (fd : Fd)
  deriving DecidableEq

namespace ClientEndpoint

/-- The code that an event runs. -/
def code : ClientEv → Proc ClientEndpoint Unit
  | .receive fd r => domainReceive fd r
  | .registerHandler => registerHandler
  | .sendMsg msg => sendMsg msg
  | .destroy => destroy
  | .hangUp fd => sys (modify (·.hangUp fd))

/-- The event can happen. -/
def Enabled (s : ClientEndpoint) : ClientEv → Prop
  | .receive fd _ => (Registry.machine Fd ClientCb).can s.ioMulti (.call fd .receive)
  | .registerHandler | .sendMsg _ | .destroy => True
  | .hangUp fd => fd ∈ s.kernel.openFds

instance (s : ClientEndpoint) : ∀ e, Decidable (s.Enabled e)
  | .receive fd _ => inferInstanceAs (Decidable ((fd, ClientCb.receive) ∈ s.ioMulti))
  | .registerHandler | .sendMsg _ | .destroy => isTrue trivial
  | .hangUp _ => inferInstanceAs (Decidable (_ ∈ _))

/-- The endpoint as a machine, until its destructor has run. -/
def machine : Machine (Process ClientEndpoint) ClientEv where
  can p e := p.halted = none ∧ p.st.destroyed = false ∧ p.st.Enabled e
  next p e := Process.exec (code e) p

instance (p : Process ClientEndpoint) (e : ClientEv) : Decidable (machine.can p e) :=
  inferInstanceAs (Decidable (_ ∧ _ ∧ _))

/-! ## What the code does -/

variable {s : ClientEndpoint} {fd : Fd} {bs : List Byte}

theorem domainReceive_run (hne : bs ≠ []) (hm : s.msgHandler = true) :
    (domainReceive fd (some bs)).run s = .ok () { s with handled := s.handled ++ [(fd, bs)] } := by
  obtain ⟨b, bs, rfl⟩ := List.exists_cons_of_ne_nil hne
  simp [domainReceive, hm]

theorem domainReceive_throws (hne : bs ≠ []) (hm : ¬ s.msgHandler = true) :
    (domainReceive fd (some bs)).run s = .error .abort s := by
  obtain ⟨b, bs, rfl⟩ := List.exists_cons_of_ne_nil hne
  simp [domainReceive, hm]

/-- What an event receives. -/
def outcome : ClientEv → Option (Fd × Option (List Byte))
  | .receive fd r => some (fd, r)
  | .registerHandler | .sendMsg _ | .destroy | .hangUp _ => none

/-- Only bytes are handled. -/
theorem handled_final {e : ClientEv} (h : ∀ fd r, outcome e = some (fd, r) → r = some []) :
    ((code e).final s).handled = s.handled := by
  cases e with
  | receive fd r =>
    obtain rfl := h fd r rfl
    rfl
  | sendMsg msg =>
    by_cases hgone : s.connFd ∈ s.kernel.gone <;> simp [Proc.final, code, sendMsg, hgone]
  | registerHandler | destroy | hangUp fd => rfl

theorem outcome_eq {e : ClientEv} {r : Option (List Byte)} :
    outcome e = some (fd, r) ↔ e = .receive fd r := by
  cases e <;> simp [outcome]

def delivery : Delivery machine Fd Byte where
  code := code
  next _ _ := rfl
  live hc := hc.1
  outcome := outcome
  handled := ClientEndpoint.handled
  ready s := s.msgHandler = true
  connected s fd := (fd, .receive) ∈ s.ioMulti
  quiet := handled_final
  fails ho s := by
    obtain rfl := outcome_eq.1 ho
    rfl
  passes ho hne hm := by
    obtain rfl := outcome_eq.1 ho
    exact ⟨_, domainReceive_run hne hm, rfl⟩
  refuses ho hne hm := by
    obtain rfl := outcome_eq.1 ho
    exact domainReceive_throws hne hm

theorem handled_init (others : Registry Fd ℕ) (fd : Fd) (bound connected : Bool) :
    (init others fd bound connected).st.handled = [] := by
  rw [init, Process.st_exec]
  by_cases hfd : fd < 0
  · simp [Proc.final, construct, domainConnect, hfd, blank]
  · cases bound <;> cases connected <;>
      simp [Proc.final, construct, domainConnect, hfd, blank, sys, registerFd]

end ClientEndpoint

/-! ## The server -/

namespace ServerEndpoint

variable {s : ServerEndpoint} {fd : Fd} {bs : List Byte}

theorem domainReceive_run (hne : bs ≠ []) (hm : s.msgHandler = true) :
    (domainReceive fd (some bs)).run s = .ok () { s with handled := s.handled ++ [(fd, bs)] } := by
  obtain ⟨b, bs, rfl⟩ := List.exists_cons_of_ne_nil hne
  simp [domainReceive, hm]

theorem domainReceive_throws (hne : bs ≠ []) (hm : ¬ s.msgHandler = true) :
    (domainReceive fd (some bs)).run s = .error .abort s := by
  obtain ⟨b, bs, rfl⟩ := List.exists_cons_of_ne_nil hne
  simp [domainReceive, hm]

/-- What an event receives. -/
def outcome : ServerEv → Option (Fd × Option (List Byte))
  | .receive fd r => some (fd, r)
  | .accept .. | .registerHandler | .publish _ | .destroy | .hangUp _ => none

/-- Only bytes are handled. -/
theorem handled_final {e : ServerEv} (h : ∀ fd r, outcome e = some (fd, r) → r = some []) :
    ((code e).final s).handled = s.handled := by
  cases e with
  | accept fd connFd =>
    by_cases hl : fd = s.listenFd
    · by_cases hfd : connFd < 0 <;>
        simp [Proc.final, code, hl, domainAccept, hfd, registerFd]
    · simp [Proc.final, code, hl]
  | receive fd r =>
    obtain rfl := h fd r rfl
    rfl
  | publish msg =>
    obtain ⟨sends, hfinal⟩ := publishLoop_final msg s.connClientFds s
    rw [show (code (.publish msg)).final s = _ from hfinal]
  | destroy =>
    obtain ⟨k, l, hrun⟩ := destroy_run s
    rw [code, Proc.final_ok hrun]
  | registerHandler | hangUp fd => rfl

theorem outcome_eq {e : ServerEv} {r : Option (List Byte)} :
    outcome e = some (fd, r) ↔ e = .receive fd r := by
  cases e <;> simp [outcome]

def delivery : Delivery machine Fd Byte where
  code := code
  next _ _ := rfl
  live hc := hc.1
  outcome := outcome
  handled := ServerEndpoint.handled
  ready s := s.msgHandler = true
  connected s fd := (fd, .receive) ∈ s.ioMulti
  quiet := handled_final
  fails ho s := by
    obtain rfl := outcome_eq.1 ho
    rfl
  passes ho hne hm := by
    obtain rfl := outcome_eq.1 ho
    exact ⟨_, domainReceive_run hne hm, rfl⟩
  refuses ho hne hm := by
    obtain rfl := outcome_eq.1 ho
    exact domainReceive_throws hne hm

theorem handled_init (others : Registry Fd ℕ) (fd : Fd) (ok : Bool) :
    (init others fd ok).st.handled = [] := by
  rw [init, Process.st_exec]
  by_cases hfd : 0 ≤ fd
  · cases ok <;> simp [Proc.final, construct, domainListen, hfd, blank, registerFd]
  · simp [Proc.final, construct, domainListen, hfd, blank, registerFd]

end ServerEndpoint

/-! ## Both endpoints -/

variable {others others' : Registry Fd ℕ} {fd fd' : Fd} {ok bound connected : Bool}

/-- **An endpoint delivers exactly if** no `recv` fails and its handler is set
    when bytes arrive. -/
theorem endpoints_deliver_iff {es : List ServerEv} {es' : List ClientEv}
    (hc : ServerEndpoint.machine.Can (ServerEndpoint.init others fd ok) es)
    (hc' : ClientEndpoint.machine.Can (ClientEndpoint.init others' fd' bound connected) es') :
    (ServerEndpoint.delivery.Delivers (ServerEndpoint.init others fd ok) es ↔
      ServerEndpoint.machine.All ServerEndpoint.delivery.Good (ServerEndpoint.init others fd ok)
        es) ∧
    (ClientEndpoint.delivery.Delivers (ClientEndpoint.init others' fd' bound connected) es' ↔
      ClientEndpoint.machine.All ClientEndpoint.delivery.Good
        (ClientEndpoint.init others' fd' bound connected) es') :=
  ⟨ServerEndpoint.delivery.delivers_iff (ServerEndpoint.handled_init others fd ok) hc,
    ClientEndpoint.delivery.delivers_iff (ClientEndpoint.handled_init ..) hc'⟩

/-- Another user has descriptor 3 in the multiplexer of a client, whose
    connection is descriptor 4; a message comes, and then the end. -/
def oneClient : List ClientEv :=
  [.registerHandler, .receive 4 (some [105]), .sendMsg [104], .receive 4 (some [])]

theorem endpoints_deliver_iff_clients :
    (ServerEndpoint.delivery.Delivers (ServerEndpoint.init [(3, 0)] 4 true)
        ServerEndpoint.twoClients ↔
      ServerEndpoint.machine.All ServerEndpoint.delivery.Good (ServerEndpoint.init [(3, 0)] 4 true)
        ServerEndpoint.twoClients) ∧
    (ClientEndpoint.delivery.Delivers (ClientEndpoint.init [(3, 0)] 4 true true) oneClient ↔
      ClientEndpoint.machine.All ClientEndpoint.delivery.Good
        (ClientEndpoint.init [(3, 0)] 4 true true) oneClient) :=
  endpoints_deliver_iff (by decide) (by decide)

/-- An error on a connection ends the server, also if its handler is set. -/
theorem server_throws : ¬ ∀ (others : Registry Fd ℕ) (fd : Fd) (ok : Bool) (es : List ServerEv),
    ServerEndpoint.machine.Can (ServerEndpoint.init others fd ok) (.registerHandler :: es) →
      ServerEndpoint.delivery.Delivers (ServerEndpoint.init others fd ok)
        (.registerHandler :: es) := by
  intro h
  have hd := h [(3, 0)] 4 true [.accept 4 5, .receive 5 none] (by decide)
  exact absurd (hd.2.2.2.1 5 rfl).1 (by decide)

end ProxyBroker
