/-
  What the kernel keeps for one process, as far as the sockets of the proxy
  use it.

  The numbers and results that the kernel chooses are arguments of the calls:
  the descriptor that `accept` or `socket` returns, the bytes that `recv`
  delivers.  A number handed out is never one that is open (`Fresh`).  What a
  process sends is recorded in `sent`, for the processes at the other ends.
-/
import ProxyBroker.Common
import ProxyBroker.Process

namespace ProxyBroker

/-- A successful send. -/
inductive Act where
  /-- bytes on a domain socket -/
  | sendMsg (sock : Fd) (sm : SerializedMsg)
  /-- the descriptor `fd` on a domain socket, with its dummy byte -/
  | sendFd (sock fd : Fd)
  /-- an SCTP connection request to a port -/
  | sctpConnect (sock : Fd) (port : ℕ)
  /-- a message on a stream of an SCTP connection -/
  | sctpSend (sock : Fd) (stream : ℕ) (msg : List Byte)
  deriving DecidableEq

/-- A byte in the stream of a domain socket, with the descriptor that was sent
    with it, if any. -/
abbrev Cell := Byte × Option Fd

/-- The dummy byte that `domain_send_fd` sends with a descriptor: `'$'`. -/
def dummyByte : Byte := 36

/-- What a send has put on the connection `sock`. -/
def Act.cells (sock : Fd) : Act → List Cell
  | .sendMsg s sm => if s = sock then sm.bytes.map fun b => (b, none) else []
  | .sendFd s fd => if s = sock then [(dummyByte, some fd)] else []
  | .sctpConnect .. | .sctpSend .. => []

structure Kernel where
  /-- the descriptors that are open in the process -/
  openFds : Finset Fd
  /-- its connections whose other end has been closed -/
  gone : Finset Fd
  /-- its bound SCTP sockets, with their ports -/
  ports : Finset (Fd × ℕ)
  sent : List Act

namespace Kernel

/-- A process starts with its three standard descriptors. -/
def start : Kernel := ⟨{0, 1, 2}, ∅, ∅, []⟩

/-- A number that the kernel may give to a new descriptor. -/
def Fresh (k : Kernel) (fd : Fd) : Prop := 0 ≤ fd ∧ fd ∉ k.openFds

instance (k : Kernel) (fd : Fd) : Decidable (k.Fresh fd) := inferInstanceAs (Decidable (_ ∧ _))

/-- What a call may return that makes a descriptor: `-1`, or a fresh number. -/
def MayReturn (k : Kernel) (fd : Fd) : Prop := fd = -1 ∨ k.Fresh fd

instance (k : Kernel) (fd : Fd) : Decidable (k.MayReturn fd) :=
  inferInstanceAs (Decidable (_ ∨ _))

/-- A call that has not failed has returned a fresh number. -/
theorem MayReturn.fresh {k : Kernel} {fd : Fd} (h : k.MayReturn fd) (h₀ : 0 ≤ fd) : k.Fresh fd := by
  refine h.resolve_left ?_
  rintro rfl
  exact absurd h₀ (by decide)

/-- A send on `sock` reaches the other end. -/
def Live (k : Kernel) (sock : Fd) : Prop := sock ∈ k.openFds ∧ sock ∉ k.gone

instance (k : Kernel) (sock : Fd) : Decidable (k.Live sock) := inferInstanceAs (Decidable (_ ∧ _))

def opened (k : Kernel) (fd : Fd) : Kernel := { k with openFds := insert fd k.openFds }

/-- `close(fd)`: the number is free again, and with it what was known of it. -/
def closed (k : Kernel) (fd : Fd) : Kernel :=
  { k with
    openFds := k.openFds.erase fd
    gone := k.gone.erase fd
    ports := k.ports.filter fun p => p.1 ≠ fd }

def send (k : Kernel) (a : Act) : Kernel := { k with sent := k.sent ++ [a] }

/-- The other end of `fd` is closed. -/
def hangUp (k : Kernel) (fd : Fd) : Kernel := { k with gone := insert fd k.gone }

def bind (k : Kernel) (fd : Fd) (port : ℕ) : Kernel := { k with ports := insert (fd, port) k.ports }

/-- The stream that the process has sent on `sock`. -/
def wire (k : Kernel) (sock : Fd) : List Cell := k.sent.flatMap (Act.cells sock)

variable (k : Kernel) (fd : Fd)

@[simp] theorem openFds_opened : (k.opened fd).openFds = insert fd k.openFds := rfl

@[simp] theorem gone_opened : (k.opened fd).gone = k.gone := rfl

@[simp] theorem ports_opened : (k.opened fd).ports = k.ports := rfl

@[simp] theorem sent_opened : (k.opened fd).sent = k.sent := rfl

@[simp] theorem openFds_closed : (k.closed fd).openFds = k.openFds.erase fd := rfl

@[simp] theorem gone_closed : (k.closed fd).gone = k.gone.erase fd := rfl

@[simp] theorem ports_closed : (k.closed fd).ports = k.ports.filter fun p => p.1 ≠ fd := rfl

@[simp] theorem sent_closed : (k.closed fd).sent = k.sent := rfl

@[simp] theorem openFds_send (a : Act) : (k.send a).openFds = k.openFds := rfl

@[simp] theorem gone_send (a : Act) : (k.send a).gone = k.gone := rfl

@[simp] theorem ports_send (a : Act) : (k.send a).ports = k.ports := rfl

@[simp] theorem sent_send (a : Act) : (k.send a).sent = k.sent ++ [a] := rfl

@[simp] theorem openFds_hangUp : (k.hangUp fd).openFds = k.openFds := rfl

@[simp] theorem gone_hangUp : (k.hangUp fd).gone = insert fd k.gone := rfl

@[simp] theorem ports_hangUp : (k.hangUp fd).ports = k.ports := rfl

@[simp] theorem sent_hangUp : (k.hangUp fd).sent = k.sent := rfl

@[simp] theorem openFds_bind (p : ℕ) : (k.bind fd p).openFds = k.openFds := rfl

@[simp] theorem gone_bind (p : ℕ) : (k.bind fd p).gone = k.gone := rfl

@[simp] theorem ports_bind (p : ℕ) : (k.bind fd p).ports = insert (fd, p) k.ports := rfl

@[simp] theorem sent_bind (p : ℕ) : (k.bind fd p).sent = k.sent := rfl

end Kernel

end ProxyBroker
