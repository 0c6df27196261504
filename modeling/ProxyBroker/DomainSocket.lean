/-
  `DomainSocket` (`comm/DomainSocket.cpp`): messages and descriptors over a
  SOCK_STREAM domain socket.

  The result of a receive call is an argument: `none` for `-1`, `some []` for
  the end of the stream, otherwise the bytes it delivered.  For `recvmsg` the
  descriptor that came with them, if any, is given by its new number.
-/
import ProxyBroker.Kernel

namespace ProxyBroker

structure DomainSocket where
  sockFd : Fd
  deriving DecidableEq, Repr

namespace DomainSocket

/-- The constructor that creates a socket: `fd` is what `socket` returns, and
    `ok` that binding and then listening or connecting succeed. -/
def create (fd : Fd) (ok : Bool) : Proc Kernel DomainSocket := do
  if fd < 0 then Proc.halt (.exit (-1))
  modify (·.opened fd)
  if !ok then Proc.halt (.exit (-1))
  return ⟨fd⟩

/-- `domain_accept`, where `accept` returns `connFd`. -/
def domainAccept (connFd : Fd) : Proc Kernel Fd := do
  if connFd < 0 then Proc.halt (.exit (-1))
  modify (·.opened connFd)
  return connFd

/-- `domain_close`, which the destructor calls. -/
def domainClose (s : DomainSocket) : Proc Kernel Unit := do
  if 0 < s.sockFd then modify (·.closed s.sockFd)

/-- `domain_read`. -/
def domainRead (r : Option (List Byte)) : Proc Kernel (Option SerializedMsg) :=
  match r with
  | some [] => return none
  | none => Proc.halt (.exit (-1))
  | some bs => return some ⟨bs⟩

/-- `domain_write`: a failed send is only reported.  `msg` is null once another
    call has taken it. -/
def domainWrite (s : DomainSocket) (msg : Option SerializedMsg) : Proc Kernel Unit :=
  match msg with
  | none => Proc.halt .abort
  | some sm => do
    if (← get).Live s.sockFd then modify (·.send (.sendMsg s.sockFd sm))

/-- `domain_send_msg`. -/
def domainSendMsg (s : DomainSocket) (msg : Option SerializedMsg) : Proc Kernel Unit :=
  match msg with
  | none => Proc.halt .abort
  | some sm => do
    if (← get).Live s.sockFd then modify (·.send (.sendMsg s.sockFd sm))
    else Proc.halt (.exit (-1))

/-- `domain_send_fd`. -/
def domainSendFd (s : DomainSocket) (fd : Fd) : Proc Kernel Unit := do
  let k ← get
  if k.Live s.sockFd ∧ fd ∈ k.openFds then modify (·.send (.sendFd s.sockFd fd))
  else Proc.halt (.exit (-1))

/-- `domain_recv_msg(recvfd)`: `buf` is what its buffer holds before the call,
    and the message it returns has the size of the buffer. -/
def domainRecvMsg (r : Option (List Byte × Option Fd)) (buf : Vector Byte maxBuffer)
    (recvfd : Fd) : Proc Kernel (Fd × Option SerializedMsg) :=
  match r with
  | some ([], _) => return (recvfd, none)
  | none => Proc.halt (.exit (-1))
  | some (_, some fd) => do
    modify (·.opened fd)
    return (fd, none)
  | some (bs, none) => return (recvfd, some ⟨bs ++ buf.toList.drop bs.length⟩)

theorem create_run {fd : Fd} {ok : Bool} (hfd : 0 ≤ fd) (hok : ok) (k : Kernel) :
    (create fd ok).run k = .ok ⟨fd⟩ (k.opened fd) := by
  simp [create, not_lt.2 hfd, hok]

theorem create_fails {fd : Fd} {ok : Bool} (h : ¬ (0 ≤ fd ∧ ok)) (k : Kernel) :
    ∃ k', (create fd ok).run k = .error (.exit (-1)) k' := by
  by_cases hfd : fd < 0
  · simp [create, hfd]
  · have hok : ok = false := by simpa using fun hok => h ⟨not_lt.1 hfd, hok⟩
    simp [create, hfd, hok]

/-- What `domain_write` leaves: a message is on the wire if the other end is
    there. -/
def wrote (k : Kernel) (s : DomainSocket) (sm : SerializedMsg) : Kernel :=
  if k.Live s.sockFd then k.send (.sendMsg s.sockFd sm) else k

@[simp] theorem domainWrite_run (s : DomainSocket) (sm : SerializedMsg) (k : Kernel) :
    (s.domainWrite (some sm)).run k = .ok () (wrote k s sm) := by
  simp only [domainWrite, EStateM.run_bind, EStateM.run_get, wrote]
  split_ifs <;> rfl

@[simp] theorem domainWrite_null (s : DomainSocket) (k : Kernel) :
    (s.domainWrite none).run k = .error .abort k := rfl

end DomainSocket

end ProxyBroker
