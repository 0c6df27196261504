/-
  The closed system: one tester, one master and `n` workers.

  Each process is its own machine.  Between them the system has the messages
  and descriptors on the domain sockets, the workers and the SCTP connections
  that wait to be accepted, and what a descriptor of a process stands for.  It
  records which connections the master has accepted and which ones each worker
  has adopted.

  A step of the system is a step of one process (or of a client), with results
  that the system can give to it (`MasterGets`, `WorkerGets`, `TesterGets`):
  every message is read on its own, and a descriptor comes with its dummy byte
  only.  The system calls of the master and of the workers succeed, and none of
  them reads something that ends a worker.
-/
import ProxyBroker.MasterSteps
import ProxyBroker.Tester
import ProxyBroker.Worker

namespace ProxyBroker

/-- An SCTP connection to the master's port. -/
abbrev Conn := ℕ

/-- What is on its way to a worker. -/
inductive Item where
  | msg (sm : SerializedMsg)
  /-- a descriptor for the connection `c` -/
  | conn (c : Conn)
  deriving DecidableEq

/-- The result of `recvmsg` that reads the item. -/
def Item.Gives : Item → Option (List Byte × Option Fd) → Prop
  | .msg sm, r => r = some (sm.bytes, none)
  | .conn _, some (bs, some _) => bs = [dummyByte]
  | .conn _, _ => False

instance : ∀ (x : Item) (r : Option (List Byte × Option Fd)), Decidable (x.Gives r)
  | .msg sm, r => inferInstanceAs (Decidable (r = some (sm.bytes, none)))
  | .conn _, some (bs, some _) => inferInstanceAs (Decidable (bs = [dummyByte]))
  | .conn _, none | .conn _, some (_, none) => isFalse nofun

/-- The connection that an item is a descriptor for. -/
def Item.conn? : Item → Option Conn
  | .conn c => some c
  | .msg _ => none

/-- The message that a send has put on the connection `sock`. -/
def Act.msgOn (sock : Fd) : Act → Option SerializedMsg
  | .sendMsg s sm => if s = sock then some sm else none
  | _ => none

/-- The act opens an SCTP connection to the port. -/
def Act.Connects (port : ℕ) : Act → Prop
  | .sctpConnect _ p => p = port
  | _ => False

instance (port : ℕ) : ∀ a : Act, Decidable (a.Connects port)
  | .sctpConnect _ p => inferInstanceAs (Decidable (p = port))
  | .sendMsg .. | .sendFd .. | .sctpSend .. => isFalse nofun

/-- What a process has sent from the state `k` of its kernel to `k'`. -/
def Kernel.sentSince (k k' : Kernel) : List Act := k'.sent.drop k.sent.length

theorem Kernel.sentSince_eq {k k' : Kernel} {acts : List Act} (h : k'.sent = k.sent ++ acts) :
    k.sentSince k' = acts := by
  simp [sentSince, h]

structure Proxy (n : ℕ) where
  master : Process Master
  workers : Fin n → Process Worker
  tester : Process Tester
  /-- the tester has not accepted the master's connection -/
  testBacklog : Bool
  /-- the workers that the master has not accepted, first one first -/
  backlog : List (Fin n)
  /-- the master's descriptor for the connection of a worker -/
  link : Fin n → Option Fd
  toMaster : Fin n → List SerializedMsg
  toWorker : Fin n → List Item
  toTester : List SerializedMsg
  fromTester : List SerializedMsg
  /-- the SCTP connections that the master has not accepted, first one first -/
  sctpBacklog : List Conn
  nextConn : Conn
  /-- the connection that a descriptor of the master is for -/
  connAt : Fd → Conn
  /-- the connection that a descriptor of a worker is for -/
  workerConnAt : Fin n → Fd → Conn
  /-- the SCTP connections that the master has accepted, in order -/
  accepted : List Conn
  /-- the connections that a worker has made endpoints for, in order -/
  adopted : Fin n → List Conn
  /-- the connections that their clients have closed -/
  clientClosed : Finset Conn

inductive ProxyEv (n : ℕ) where
  | master (e : MasterEv)
  | worker (i : Fin n) (e : WorkerEv)
  | tester (e : TesterEv)
  /-- a client opens an SCTP connection -/
  | clientConnect
  /-- the client of `c` closes it -/
  | clientClose (c : Conn)

namespace Proxy

variable {n : ℕ}

/-! ## What the processes get -/

/-- The master gets what is on the way to it, and its system calls succeed. -/
def MasterGets (s : Proxy n) : MasterEv → Prop
  | .call _ (.testMsg bytes) => ∃ sm ∈ s.fromTester.head?, bytes = some sm.bytes
  | .call _ (.workerConnect connFd) => s.backlog ≠ [] ∧ 0 ≤ connFd
  | .call fd (.workerMsg bytes r) =>
    (∃ i, s.link i = some fd ∧ ∃ sm ∈ (s.toMaster i).head?, bytes = some sm.bytes) ∧
      0 ≤ r.fd ∧ r.optSet ∧ r.ok
  | .call _ (.sctpMsg connFd) => s.sctpBacklog ≠ [] ∧ 0 ≤ connFd
  | .offer | .leave _ => True
  | .hangUp _ => False

/-- So does a worker. -/
def WorkerGets (s : Proxy n) (i : Fin n) : WorkerEv → Prop
  | .connect fd ok => 0 ≤ fd ∧ ok
  | .call _ (.masterMsg r _) => ∃ x ∈ (s.toWorker i).head?, x.Gives r
  | .call _ (.sctpMsg _ r buf) => SctpClientEndpoint.Survives r buf
  | .ready | .leave => True
  | .hangUp _ => False

/-- The tester gets what is on the way to it; its other system calls may fail. -/
def TesterGets (s : Proxy n) : TesterEv → Prop
  | .call _ (.sutConnect _) => s.testBacklog
  | .call _ (.sutMsg recv _ _) => ∃ sm ∈ s.toTester.head?, recv = some (sm.bytes, none)
  | .call _ (.userCmd ..) | .call _ (.sctpMsg ..) | .leave _ => True

instance (s : Proxy n) : ∀ e, Decidable (s.MasterGets e)
  | .call _ (.testMsg bytes) =>
    inferInstanceAs (Decidable (∃ sm ∈ s.fromTester.head?, bytes = some sm.bytes))
  | .call _ (.workerConnect _) | .call _ (.sctpMsg _) => inferInstanceAs (Decidable (_ ≠ [] ∧ _))
  | .call fd (.workerMsg bytes _) => inferInstanceAs (Decidable
      ((∃ i, s.link i = some fd ∧ ∃ sm ∈ (s.toMaster i).head?, bytes = some sm.bytes) ∧ _))
  | .offer | .leave _ => isTrue trivial
  | .hangUp _ => isFalse nofun

instance (s : Proxy n) (i : Fin n) : ∀ e, Decidable (s.WorkerGets i e)
  | .connect _ _ => inferInstanceAs (Decidable (_ ∧ _))
  | .call _ (.masterMsg r _) =>
    inferInstanceAs (Decidable (∃ x ∈ (s.toWorker i).head?, x.Gives r))
  | .call _ (.sctpMsg _ r buf) => inferInstanceAs (Decidable (SctpClientEndpoint.Survives r buf))
  | .ready | .leave => isTrue trivial
  | .hangUp _ => isFalse nofun

instance (s : Proxy n) : ∀ e, Decidable (s.TesterGets e)
  | .call _ (.sutConnect _) => inferInstanceAs (Decidable (s.testBacklog = true))
  | .call _ (.sutMsg recv _ _) =>
    inferInstanceAs (Decidable (∃ sm ∈ s.toTester.head?, recv = some (sm.bytes, none)))
  | .call _ (.userCmd ..) | .call _ (.sctpMsg ..) | .leave _ => isTrue trivial

/-! ## The steps -/

/-- What the master takes from the system in an event. -/
def masterTakes (s : Proxy n) : MasterEv → Proxy n
  | .call _ (.testMsg _) => { s with fromTester := s.fromTester.tail }
  | .call _ (.workerConnect connFd) =>
    match s.backlog with
    | i :: rest => { s with backlog := rest, link := Function.update s.link i (some connFd) }
    | [] => s
  | .call fd (.workerMsg ..) =>
    { s with toMaster := fun i => if s.link i = some fd then (s.toMaster i).tail else s.toMaster i }
  | .call _ (.sctpMsg connFd) =>
    match s.sctpBacklog with
    | c :: rest =>
      { s with
        sctpBacklog := rest
        accepted := s.accepted ++ [c]
        connAt := Function.update s.connAt connFd c }
    | [] => s
  | .offer | .leave _ | .hangUp _ => s

/-- What an act of the master puts on the way to a worker, whose connection is
    `link`. -/
def itemFor (link : Option Fd) (connAt : Fd → Conn) : Act → Option Item
  | .sendMsg sock sm => if link = some sock then some (.msg sm) else none
  | .sendFd sock fd => if link = some sock then some (.conn (connAt fd)) else none
  | .sctpConnect .. | .sctpSend .. => none

def masterNext (s : Proxy n) (e : MasterEv) : Proxy n :=
  let p := Master.machine.next s.master e
  let acts := s.master.st.kernel.sentSince p.st.kernel
  let t := s.masterTakes e
  { t with
    master := p
    toTester := t.toTester ++ acts.filterMap (Act.msgOn p.st.testSocketClient.sockFd)
    toWorker := fun i => t.toWorker i ++ acts.filterMap (itemFor (t.link i) t.connAt) }

/-- What the worker `i` takes from the system in an event that leads to the
    state `w`; it has adopted a connection if it has made an endpoint. -/
def workerTakes (s : Proxy n) (i : Fin n) (w : Worker) : WorkerEv → Proxy n
  | .connect .. => { s with backlog := s.backlog ++ [i] }
  | .call _ (.masterMsg r _) =>
    let s' := { s with toWorker := Function.update s.toWorker i (s.toWorker i).tail }
    match s.toWorker i, r with
    | .conn c :: _, some (_, some fd) =>
      { s' with
        workerConnAt :=
          Function.update s.workerConnAt i (Function.update (s.workerConnAt i) fd c)
        adopted := Function.update s.adopted i
          (s.adopted i ++ if w.nextObj = (s.workers i).st.nextObj then [] else [c]) }
    | _, _ => s'
  | .ready | .call _ (.sctpMsg ..) | .leave | .hangUp _ => s

def workerNext (s : Proxy n) (i : Fin n) (e : WorkerEv) : Proxy n :=
  let p := Worker.machine.next (s.workers i) e
  let acts := (s.workers i).st.kernel.sentSince p.st.kernel
  let t := s.workerTakes i p.st e
  { t with
    workers := Function.update s.workers i p
    toMaster := Function.update s.toMaster i
      (s.toMaster i ++ acts.filterMap (Act.msgOn p.st.masterSocketClient.sockFd)) }

/-- What the tester sends to the master. -/
def testerMsgs (t : Tester) (acts : List Act) : List SerializedMsg :=
  match t.testSocketServerConnect with
  | some sock => acts.filterMap (Act.msgOn sock.sockFd)
  | none => []

/-- What the tester sends in an event. -/
def testerActs (s : Proxy n) (e : TesterEv) : List Act :=
  s.tester.st.kernel.sentSince (Tester.machine.next s.tester e).st.kernel

/-- The step of the tester; a connection that it opens is there unless that has
    ended the process. -/
def testerNext (s : Proxy n) (e : TesterEv) : Proxy n :=
  let p := Tester.machine.next s.tester e
  let acts := s.testerActs e
  let connects : Bool := p.halted = none ∧ ∃ a ∈ acts, a.Connects myPortNum
  { s with
    tester := p
    testBacklog := match e with
      | .call _ (.sutConnect _) => false
      | _ => s.testBacklog
    toTester := match e with
      | .call _ (.sutMsg ..) => s.toTester.tail
      | _ => s.toTester
    fromTester := s.fromTester ++ testerMsgs p.st acts
    sctpBacklog := if connects then s.sctpBacklog ++ [s.nextConn] else s.sctpBacklog
    nextConn := if connects then s.nextConn + 1 else s.nextConn }

/-- **The system as a machine**; clients connect once there is a listener. -/
def machine (n : ℕ) : Machine (Proxy n) (ProxyEv n) where
  can
    | s, .master e => Master.machine.can s.master e ∧ s.MasterGets e
    | s, .worker i e => Worker.machine.can (s.workers i) e ∧ s.WorkerGets i e
    | s, .tester e => Tester.machine.can s.tester e ∧ s.TesterGets e
    | s, .clientConnect => s.master.halted = none ∧ s.master.st.sctpEndpoint.isSome
    | s, .clientClose c => c < s.nextConn
  next
    | s, .master e => s.masterNext e
    | s, .worker i e => s.workerNext i e
    | s, .tester e => s.testerNext e
    | s, .clientConnect =>
      { s with sctpBacklog := s.sctpBacklog ++ [s.nextConn], nextConn := s.nextConn + 1 }
    | s, .clientClose c => { s with clientClosed := insert c s.clientClosed }

instance (s : Proxy n) : ∀ e, Decidable ((machine n).can s e)
  | .master _ | .worker _ _ | .tester _ | .clientConnect => inferInstanceAs (Decidable (_ ∧ _))
  | .clientClose c => inferInstanceAs (Decidable (c < s.nextConn))

/-! ## The start -/

/-- How the system starts: with `n` workers at least one of which there is, a
    master whose constructor has succeeded, and the listener of the tester. -/
structure Start (n : ℕ) where
  pid : Word
  workersPid : WorkersPid
  length_pids : workersPid.pids.length = n
  pos : 0 < n
  boot : Master.Boot
  possible : boot.Possible
  up : (Master.init pid workersPid boot).halted = none
  listen : Fd
  fresh : Kernel.start.Fresh listen

def init (S : Start n) : Proxy n where
  master := Master.init S.pid S.workersPid S.boot
  workers i := Worker.init (BitVec.ofInt 32 (S.workersPid.pids.get (i.cast S.length_pids.symm)))
  tester := Tester.init S.listen
  testBacklog := true
  backlog := []
  link _ := none
  toMaster _ := []
  toWorker _ := []
  toTester := []
  fromTester := []
  sctpBacklog := []
  nextConn := 0
  connAt _ := 0
  workerConnAt _ _ := 0
  accepted := []
  adopted _ := []
  clientClosed := ∅

end Proxy

end ProxyBroker
