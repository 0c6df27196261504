/-
  The broker with the programs over its two APIs: clients that call `send`
  (`mdclient.cpp`) and workers that call `recv` (`mdworker.cpp`).

  Each process is run by its own code.  Between them are the messages on the
  way, which may overtake each other and get lost.  What the sockets do is
  stated here: the broker's puts the identity of the peer in front of what it
  receives and sends to the identity in front; that of a client puts an empty
  part in front and takes it off again.  A new socket has an identity that no
  socket had before: the random ones that `s_set_id` draws are assumed to differ.

  `link` tells how `zmsg::send` puts a message on a socket; the two copies of
  `zmsg.hpp` differ in it.
-/
import ProxyBroker.MajordomoPending
import ProxyBroker.MajordomoTrip
import ProxyBroker.Mdcli

namespace ProxyBroker.Majordomo

open Proc Zmsg

/-! ## Sockets -/

/-- The parts of a message that get on the socket. -/
def Link.parts : Link → Zmsg → Zmsg
  | .each, m => m
  | .code, m => m.drop 1

/-- What gets on the socket of messages that are passed to `send`, up to the
    first that ends the process. -/
def Link.passed (link : Link) (ms : List Zmsg) : List Zmsg :=
  (ms.map link.parts).takeWhile fun m => Sendable m

/-- How a process has ended when it has sent messages. -/
def Link.ended (link : Link) (ms : List Zmsg) (halted : Option Halt) : Option Halt :=
  if ∀ m ∈ ms, Sendable (link.parts m) then halted else some .abort

/-- A message on the way, and the identity of the socket that it comes from or
    goes to. -/
abbrev Mail := Bytes × Zmsg

/-- The frames of a message on the way. -/
def wire (m : Zmsg) : List Bytes := m.map sentFrame

/-- The broker's socket sends to the identity in front. -/
def route : Zmsg → Option Mail
  | id :: m => some (sentFrame id, m)
  | [] => none

/-- What `poll` finds. -/
def polled : Option Zmsg → Poll
  | some m => .arrived (wire m)
  | none => .nothing

/-! ## Programs -/

/-- A call of `mdcli::send`. -/
structure Call where
  service : Bytes
  request : Zmsg
  deriving DecidableEq

/-- A program that calls `mdcli::send` again and again. -/
structure ClientProgram where
  session : Mdcli
  halted : Option Halt
  /-- the call under way, and the retries left -/
  call : Option (Call × ℤ)
  /-- the calls that have returned, and what -/
  returned : List (Call × Option Zmsg)

/-- A program that calls `mdwrk::recv` again and again. -/
structure WorkerProgram where
  session : Mdwrk
  halted : Option Halt
  /-- the request that `recv` has returned; without one it is in `recv` -/
  job : Option Zmsg

/-- The services of the workers, and the replies that they may give to a
    request. -/
structure Programs (κ : Type) where
  service : κ → Bytes
  serve : κ → Zmsg → Zmsg → Prop

/-- The clients are named by `ι`, the workers by `κ`. -/
structure Network (ι κ : Type) where
  broker : Process Broker
  clients : ι → Option ClientProgram
  workers : κ → Option WorkerProgram
  /-- whose socket has or had the identity -/
  owner : Bytes → Option (ι ⊕ κ)
  /-- to the broker -/
  up : Multiset Mail
  /-- from the broker -/
  down : Multiset Mail

inductive NetworkEv (ι κ : Type) where
  /-- a round of the broker, and the message that it finds -/
  | broker (mail : Option Mail) (clock : ℕ → ℤ) (addr : Ptr) (junk : BitVec 64)
  | clientStarts (i : ι) (id : RandomId) (retries : ℤ)
  | clientCalls (i : ι) (call : Call)
  | clientPolls (i : ι) (mail : Option Zmsg) (id : RandomId)
  | workerStarts (k : κ) (id : RandomId) (clock : ℕ → ℤ)
  | workerPolls (k : κ) (mail : Option Zmsg) (id : RandomId) (clock : ℕ → ℤ)
  | workerReplies (k : κ) (reply : Zmsg)
  /-- only these messages are left on the way -/
  | lost (up down : Multiset Mail)

/-- A random identity for each small number. -/
def RandomId.ofNat (n : ℕ) : RandomId := (0, Fin.ofNat _ n)

/-- Before its constructor, a client has no socket. -/
def Mdcli.blank (id : RandomId) (retries : ℤ) : Mdcli := ⟨(0, 0), retries, fun _ => id, [], [], false⟩

/-- Before its constructor, a worker has no socket. -/
def Mdwrk.blank (service : Bytes) (id : RandomId) (clock : ℕ → ℤ) : Mdwrk :=
  ⟨service, (0, 0), 0, 0, 2500, false, [], clock, fun _ => id, [], []⟩

/-- The constructor and the beginning of the first `recv`. -/
def Mdwrk.starts : Proc Mdwrk (Option Zmsg) := do
  connectToBroker
  sendReply none
  return none

/-- The beginning of a `recv` with a reply. -/
def Mdwrk.replies (reply : Zmsg) : Proc Mdwrk (Option Zmsg) := do
  sendReply (some reply)
  return none

/-- The code runs in the session of a client; the call goes on or returns. -/
def ClientProgram.run (c : ClientProgram) (call : Call) (p : Proc Mdcli Mdcli.Turn) :
    ClientProgram :=
  match p.run c.session with
  | .ok (.waits retriesLeft) s => { c with session := s, call := some (call, retriesLeft) }
  | .ok (.returns reply) s =>
    { c with session := s, call := none, returned := c.returned ++ [(call, reply)] }
  | .error h s => { c with session := s, halted := some h }

/-- The code runs in the session of a worker; it may return a request. -/
def WorkerProgram.run (w : WorkerProgram) (p : Proc Mdwrk (Option Zmsg)) : WorkerProgram :=
  match p.run w.session with
  | .ok job s => { w with session := s, job }
  | .error h s => { w with session := s, halted := some h }

namespace Network

variable {ι κ : Type} [DecidableEq ι] [DecidableEq κ]

/-! ## The steps -/

section
variable (link : Link) (n : Network ι κ)

/-- The round of the broker in which it finds a message. -/
def round (mail : Option Mail) (clock : ℕ → ℤ) (addr : Ptr) (junk : BitVec 64) : Round :=
  ⟨mail.map fun m => m.1 :: wire m.2, clock, addr, junk⟩

/-- The broker takes a message, and sends. -/
def brokerNext (mail : Option Mail) (e : Round) : Network ι κ :=
  let p := machine.next n.broker e
  let ms := sents (p.st.log.drop n.broker.st.log.length)
  { n with
    broker := ⟨p.st, link.ended ms p.halted⟩
    up := n.up - mail.toList
    down := n.down + (link.passed ms).filterMap route }

/-- A client has run from `c` to `c'`, and has sent. -/
def clientNext (i : ι) (c c' : ClientProgram) : Network ι κ :=
  let ms := c'.session.sent.drop c.session.sent.length
  let id := c'.session.identity
  { n with
    clients := Function.update n.clients i (some { c' with halted := link.ended ms c'.halted })
    owner := Function.update n.owner id (some (.inl i))
    up := n.up + (link.passed ms).map fun m => (id, [] :: m) }

/-- A worker has run from `w` to `w'`, and has sent. -/
def workerNext (k : κ) (w w' : WorkerProgram) : Network ι κ :=
  let ms := w'.session.sent.drop w.session.sent.length
  let id := w'.session.identity
  { n with
    workers := Function.update n.workers k (some { w' with halted := link.ended ms w'.halted })
    owner := Function.update n.owner id (some (.inr k))
    up := n.up + (link.passed ms).map fun m => (id, m) }

/-- The message for the socket is taken off the way. -/
def takes (id : Bytes) (mail : Option Zmsg) : Network ι κ :=
  { n with down := n.down - (mail.map fun m => (id, m)).toList }

end

/-- A client in its constructor. -/
def clientInit (id : RandomId) (retries : ℤ) : ClientProgram × ClientProgram :=
  let c : ClientProgram := ⟨.blank id retries, none, none, []⟩
  (c, { c with session := Mdcli.connectToBroker.final c.session })

/-- A worker in its constructor, and when it waits in its first `recv`. -/
def workerInit (service : Bytes) (id : RandomId) (clock : ℕ → ℤ) : WorkerProgram × WorkerProgram :=
  let w : WorkerProgram := ⟨.blank service id clock, none, none⟩
  (w, w.run Mdwrk.starts)

def next (link : Link) (pr : Programs κ) (n : Network ι κ) : NetworkEv ι κ → Network ι κ
  | .broker mail clock addr junk => n.brokerNext link mail (round mail clock addr junk)
  | .clientStarts i id retries =>
    let c := clientInit id retries
    n.clientNext link i c.1 c.2
  | .clientCalls i call =>
    match n.clients i with
    | some c => n.clientNext link i c (c.run call (Mdcli.begins call.service call.request))
    | none => n
  | .clientPolls i mail id =>
    match n.clients i with
    | some c =>
      match c.call with
      | some (call, retriesLeft) =>
        let c := { c with session := { c.session with ids := fun _ => id } }
        (n.takes c.session.identity (mail.map ([] :: ·))).clientNext link i c
          (c.run call (Mdcli.round call.service call.request retriesLeft (polled mail)))
      | none => n
    | none => n
  | .workerStarts k id clock =>
    let w := workerInit (pr.service k) id clock
    n.workerNext link k w.1 w.2
  | .workerPolls k mail id clock =>
    match n.workers k with
    | some w =>
      let w := { w with session := { w.session with clock, ids := fun _ => id } }
      (n.takes w.session.identity mail).workerNext link k w (w.run (Mdwrk.round (polled mail)))
    | none => n
  | .workerReplies k reply =>
    match n.workers k with
    | some w => n.workerNext link k w (w.run (Mdwrk.replies reply))
    | none => n
  | .lost up down => { n with up, down }

/-- No socket has had the identity. -/
def Unused (n : Network ι κ) (id : RandomId) : Prop := n.owner (setId id) = none

def can (pr : Programs κ) (n : Network ι κ) : NetworkEv ι κ → Prop
  | .broker mail clock addr junk =>
    (∀ m ∈ mail, m ∈ n.up) ∧ machine.can n.broker (round mail clock addr junk)
  | .clientStarts i id _ => n.clients i = none ∧ n.Unused id
  | .clientCalls i _ => ∃ c ∈ n.clients i, c.halted = none ∧ c.call = none
  | .clientPolls i mail id => ∃ c ∈ n.clients i, c.halted = none ∧ c.call ≠ none ∧
    (∀ m ∈ mail, (c.session.identity, [] :: m) ∈ n.down) ∧ n.Unused id
  | .workerStarts k id _ => n.workers k = none ∧ n.Unused id
  | .workerPolls k mail id _ => ∃ w ∈ n.workers k, w.halted = none ∧ w.job = none ∧
    (∀ m ∈ mail, (w.session.identity, m) ∈ n.down) ∧ n.Unused id
  | .workerReplies k reply => ∃ w ∈ n.workers k, w.halted = none ∧
    ∃ request ∈ w.job, pr.serve k request reply
  | .lost up down => up ≤ n.up ∧ down ≤ n.down

instance (pr : Programs κ) [∀ k request reply, Decidable (pr.serve k request reply)]
    (n : Network ι κ) : ∀ e, Decidable (can pr n e)
  | .broker .. => inferInstanceAs (Decidable (_ ∧ _))
  | .clientStarts .. => inferInstanceAs (Decidable (_ ∧ _ = none))
  | .clientCalls .. => inferInstanceAs (Decidable (∃ c ∈ n.clients _, _ ∧ _))
  | .clientPolls .. => inferInstanceAs (Decidable (∃ c ∈ n.clients _, _ ∧ _ ∧ _ ∧ _ = none))
  | .workerStarts .. => inferInstanceAs (Decidable (_ ∧ _ = none))
  | .workerPolls .. => inferInstanceAs (Decidable (∃ w ∈ n.workers _, _ ∧ _ ∧ _ ∧ _ = none))
  | .workerReplies .. => inferInstanceAs (Decidable (∃ w ∈ n.workers _, _ ∧ ∃ r ∈ _, _))
  | .lost .. => inferInstanceAs (Decidable (_ ∧ _))

/-- The network as a machine. -/
def system (link : Link) (pr : Programs κ) : Machine (Network ι κ) (NetworkEv ι κ) where
  can := can pr
  next := next link pr

instance (link : Link) (pr : Programs κ) [∀ k request reply, Decidable (pr.serve k request reply)]
    (n : Network ι κ) (e : NetworkEv ι κ) : Decidable ((system link pr).can n e) :=
  inferInstanceAs (Decidable (can pr n e))

/-- A client whose call has returned nothing makes no further call, as in
    `mdclient.cpp`. -/
def Stops (n : Network ι κ) : NetworkEv ι κ → Prop
  | .clientCalls i _ => ∀ c ∈ n.clients i, ∀ r ∈ c.returned, r.2 ≠ none
  | .broker .. | .clientStarts .. | .clientPolls .. | .workerStarts .. | .workerPolls .. |
    .workerReplies .. | .lost .. => True

instance (n : Network ι κ) : ∀ e, Decidable (Stops n e)
  | .clientCalls .. => inferInstanceAs (Decidable (∀ c ∈ n.clients _, ∀ r ∈ _, _))
  | .broker .. | .clientStarts .. | .clientPolls .. | .workerStarts .. | .workerPolls .. |
    .workerReplies .. | .lost .. => inferInstanceAs (Decidable True)

/-- Only the broker is there, and `s_clock` has returned `now`. -/
def init (now : ℤ) : Network ι κ :=
  ⟨Majordomo.init now, fun _ => none, fun _ => none, fun _ => none, 0, 0⟩

end Network

end ProxyBroker.Majordomo
