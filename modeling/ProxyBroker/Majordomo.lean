/-
  The broker of `officialMajordomo` (`mdbroker.cpp`, `mdp.h`).

  The broker keeps its workers by identity, and those that wait for work in a
  set of its own and in a list of their service; all three hold pointers.
  `Tables` is what it keeps, and with it a log of what has happened that the
  code does not read.  A pointer to a service is the name of the service, as
  services are never deleted while the broker runs.

  Addresses of new workers, the values of fields that are not initialised and
  the readings of the clock are arguments.
-/
import ProxyBroker.Machine
import ProxyBroker.SortedSet
import ProxyBroker.Zmsg

namespace ProxyBroker.Majordomo

/-! ## Constants -/

/-- `MDPC_CLIENT` -/
def mdpcClient : Bytes := lit ['M', 'D', 'P', 'C', '0', '1']

/-- `MDPW_WORKER` -/
def mdpwWorker : Bytes := lit ['M', 'D', 'P', 'W', '0', '1']

/-- `MDPW_READY` -/
def mdpwReady : Bytes := [1]

/-- `MDPW_REQUEST` -/
def mdpwRequest : Bytes := [2]

/-- `MDPW_REPLY` -/
def mdpwReply : Bytes := [3]

/-- `MDPW_HEARTBEAT` -/
def mdpwHeartbeat : Bytes := [4]

/-- `MDPW_DISCONNECT` -/
def mdpwDisconnect : Bytes := [5]

/-- The internal service that tells whether a service has workers. -/
def mmiService : Bytes := lit ['m', 'm', 'i', '.', 's', 'e', 'r', 'v', 'i', 'c', 'e']

/-- `HEARTBEAT_INTERVAL` -/
def heartbeatInterval : ℤ := 2500

/-- `HEARTBEAT_EXPIRY` -/
def heartbeatExpiry : ℤ := heartbeatInterval * 3

/-! ## Data -/

/-- The address of a worker. -/
abbrev Ptr := ℕ

structure Worker where
  mIdentity : Bytes
  mService : Option Bytes
  mExpiry : ℤ
  deriving DecidableEq, Repr

/-- The constructor leaves `m_workers` as it finds it. -/
structure Service where
  mName : Bytes
  mRequests : List Zmsg
  mWaiting : List Ptr
  mWorkers : BitVec 64
  deriving DecidableEq, Repr

/-- What is logged. -/
inductive Happening where
  /-- `service_dispatch` queues a message -/
  | queued (srv : Bytes) (msg : Zmsg)
  /-- `worker_send` is called for a worker -/
  | workerSend (wrk : Ptr) (w : Worker) (command : Bytes) (msg : Option Zmsg)
  /-- a message is sent -/
  | sent (msg : Zmsg)
  /-- a worker has been made -/
  | made (wrk : Ptr)
  /-- a worker has replied -/
  | replied (wrk : Ptr)
  /-- a worker has been deleted, and what the containers held then -/
  | deleted (wrk : Ptr) (mServices : Bytes → Option Service) (mWorkers : Bytes → Option Ptr)
      (mWaiting : SortedSet Ptr)

structure Tables where
  /-- the workers in memory -/
  heap : Ptr → Option Worker
  mServices : Bytes → Option Service
  mWorkers : Bytes → Option Ptr
  mWaiting : SortedSet Ptr
  log : List Happening

structure Broker extends Tables where
  heartbeatAt : ℤ
  /-- what `s_clock` will return -/
  clock : ℕ → ℤ
  /-- what has been passed on to the socket -/
  socket : List (Frame Bytes)

namespace Tables

def note (t : Tables) (h : Happening) : Tables := { t with log := t.log ++ [h] }

def setWorker (t : Tables) (wrk : Ptr) (w : Worker) : Tables :=
  { t with heap := Function.update t.heap wrk (some w) }

def setService (t : Tables) (name : Bytes) (srv : Service) : Tables :=
  { t with mServices := Function.update t.mServices name (some srv) }

/-- A new worker. -/
def addWorker (t : Tables) (wrk : Ptr) (identity : Bytes) : Tables :=
  ({ t.setWorker wrk ⟨identity, none, 0⟩ with
    mWorkers := Function.update t.mWorkers identity (some wrk) }).note (.made wrk)

/-- A worker is taken out of the containers of the broker and deleted. -/
def release (t : Tables) (wrk : Ptr) (identity : Bytes) : Tables :=
  let mWorkers := Function.update t.mWorkers identity none
  let mWaiting := t.mWaiting.erase wrk
  ({ t with heap := Function.update t.heap wrk none, mWorkers, mWaiting }).note
    (.deleted wrk t.mServices mWorkers mWaiting)

end Tables

/-! ## The code -/

namespace Broker

/-- Change the tables. -/
def upd (f : Tables → Tables) : Proc Broker Unit :=
  modify fun s => { s with toTables := f s.toTables }

/-- `*wrk`. -/
def deref (wrk : Ptr) : Proc Broker Worker := do
  match (← get).heap wrk with
  | some w => return w
  | none => Proc.halt .abort

/-- `*srv`. -/
def derefService (srv : Bytes) : Proc Broker Service := do
  match (← get).mServices srv with
  | some sv => return sv
  | none => Proc.halt .abort

/-- `s_clock`. -/
def sClock : Proc Broker ℤ := do
  let s ← get
  set { s with clock := fun n => s.clock (n + 1) }
  return s.clock 0

/-- `msg->send (*m_socket)`. -/
def send (msg : Zmsg) : Proc Broker Unit := do
  upd (·.note (.sent msg))
  Proc.zoom Broker.socket (fun s fs => { s with socket := fs }) msg.send

/-- `worker_send`. -/
def workerSend (worker : Ptr) (command option : Bytes) (msg : Option Zmsg) : Proc Broker Unit := do
  let w ← deref worker
  upd (·.note (.workerSend worker w command msg))
  let m := msg.getD []
  let m := if 0 < option.length then m.pushFront option else m
  let m := (m.pushFront command).pushFront mdpwWorker
  send (m.wrap w.mIdentity (some []))

/-- `worker_delete`. -/
def workerDelete (wrk : Ptr) (disconnect : Bool) : Proc Broker Unit := do
  if disconnect then workerSend wrk mdpwDisconnect [] none
  let w ← deref wrk
  match w.mService with
  | some srv => do
    let sv ← derefService srv
    upd (·.setService srv { sv with
      mWaiting := sv.mWaiting.filter (· ≠ wrk), mWorkers := sv.mWorkers - 1 })
  | none => pure ()
  upd (·.release wrk w.mIdentity)

/-- The first loop of `purge_workers`: the expired workers. -/
def expired (now : ℤ) : List Ptr → Proc Broker (List Ptr)
  | [] => return []
  | wrk :: wrks => do
    let w ← deref wrk
    let toCull ← expired now wrks
    return if w.mExpiry ≤ now then wrk :: toCull else toCull

/-- `purge_workers`. -/
def purgeWorkers : Proc Broker Unit := do
  let now ← sClock
  let toCull ← expired now (← get).mWaiting.toList
  forM toCull fun wrk => workerDelete wrk false

/-- `service_require`. -/
def serviceRequire (name : Bytes) (junk : BitVec 64) : Proc Broker Bytes := do
  if name.length = 0 then Proc.halt .abort
  if (← get).mServices name = none then upd (·.setService name ⟨name, [], [], junk⟩)
  return name

/-- The choice of a worker in `service_dispatch`: `wrk` is the position of the
    best so far and `at` what is there, `next` the position of the first of
    those left. -/
def mostRecent (wrk : ℕ) (best : Ptr) (next : ℕ) : List Ptr → Proc Broker (ℕ × Ptr)
  | [] => return (wrk, best)
  | p :: ps => do
    let w ← deref best
    let n ← deref p
    if w.mExpiry < n.mExpiry then mostRecent next p (next + 1) ps
    else mostRecent wrk best (next + 1) ps

/-- The loop of `service_dispatch`, where each round takes one of the `n`
    requests. -/
def dispatchLoop (srv : Bytes) : ℕ → Proc Broker Unit
  | 0 => return
  | n + 1 => do
    let sv ← derefService srv
    match sv.mWaiting, sv.mRequests with
    | p :: ps, msg :: requests => do
      let (wrk, worker) ← mostRecent 0 p 1 ps
      upd (·.setService srv { sv with mRequests := requests })
      workerSend worker mdpwRequest [] (some msg)
      upd fun t => { t with mWaiting := t.mWaiting.erase worker }
      let sv ← derefService srv
      upd (·.setService srv { sv with mWaiting := sv.mWaiting.eraseIdx wrk })
      dispatchLoop srv n
    | [], _ | _, [] => return

/-- `service_dispatch`. -/
def serviceDispatch (srv : Bytes) (msg : Option Zmsg) : Proc Broker Unit := do
  match msg with
  | some m => do
    let sv ← derefService srv
    upd fun t =>
      (t.setService srv { sv with mRequests := sv.mRequests ++ [m] }).note (.queued srv m)
  | none => pure ()
  purgeWorkers
  dispatchLoop srv (← derefService srv).mRequests.length

/-- `service_internal`: an unknown service makes `at` throw. -/
def serviceInternal (serviceName : Bytes) (msg : Zmsg) : Proc Broker Unit := do
  let msg ← if serviceName = mmiService then
      match msg.body.bind (← get).mServices with
      | none => Proc.halt .abort
      | some srv =>
        if srv.mWorkers ≠ 0 then pure (msg.bodySet (lit ['2', '0', '0']))
        else pure (msg.bodySet (lit ['4', '0', '4']))
    else pure (msg.bodySet (lit ['5', '0', '1']))
  let (client, msg) ← msg.unwrap
  send ((msg.wrap mdpcClient (some serviceName)).wrap client (some []))

/-- `worker_require`, where a new worker has the address `wrk`. -/
def workerRequire (identity : Bytes) (wrk : Ptr) : Proc Broker Ptr := do
  if identity.length = 0 then Proc.halt .abort
  match (← get).mWorkers identity with
  | some wrk => return wrk
  | none => do
    upd (·.addWorker wrk identity)
    return wrk

/-- `worker_waiting`. -/
def workerWaiting (worker : Ptr) : Proc Broker Unit := do
  upd fun t => { t with mWaiting := t.mWaiting.insert worker }
  let w ← deref worker
  match w.mService with
  | none => Proc.halt .abort
  | some srv => do
    let sv ← derefService srv
    upd (·.setService srv { sv with mWaiting := sv.mWaiting ++ [worker] })
    let now ← sClock
    upd (·.setWorker worker { w with mExpiry := now + heartbeatExpiry })
    serviceDispatch srv none

/-- The test for a reserved name: `find_first_of` looks for the first of the
    characters of its argument. -/
def Reserved (name : Bytes) : Prop :=
  4 ≤ name.length ∧ name.findIdx? (lit ['m', 'm', 'i', '.']).contains = some 0

instance (name : Bytes) : Decidable (Reserved name) := inferInstanceAs (Decidable (_ ∧ _))

/-- `client_process`. -/
def clientProcess (sender : Bytes) (msg : Zmsg) (junk : BitVec 64) : Proc Broker Unit := do
  if msg.parts < 2 then Proc.halt .abort
  let (part, msg) ← msg.popFront
  let serviceName := cStr part
  let srv ← serviceRequire serviceName junk
  let msg := msg.wrap sender (some [])
  if Reserved serviceName then serviceInternal serviceName msg
  else serviceDispatch srv (some msg)

/-- The branch of `worker_process` where a new worker is ready. -/
def workerJoins (wrk : Ptr) (msg : Zmsg) (junk : BitVec 64) : Proc Broker Unit := do
  let (part, _) ← msg.popFront
  let srv ← serviceRequire (cStr part) junk
  let w ← deref wrk
  upd (·.setWorker wrk { w with mService := some srv })
  let sv ← derefService srv
  upd (·.setService srv { sv with mWorkers := sv.mWorkers + 1 })
  workerWaiting wrk

/-- The branch of `worker_process` where a worker has replied. -/
def workerReplies (wrk : Ptr) (msg : Zmsg) : Proc Broker Unit := do
  let (client, msg) ← msg.unwrap
  let w ← deref wrk
  match w.mService with
  | none => Proc.halt .abort
  | some srv => do
    let sv ← derefService srv
    upd (·.note (.replied wrk))
    send ((msg.wrap mdpcClient (some sv.mName)).wrap client (some []))
    workerWaiting wrk

/-- `worker_process`. -/
def workerProcess (sender : Bytes) (msg : Zmsg) (addr : Ptr) (junk : BitVec 64) :
    Proc Broker Unit := do
  if msg.parts < 1 then Proc.halt .abort
  let (part, msg) ← msg.popFront
  let command := cStr part
  let workerReady := ((← get).mWorkers sender).isSome
  let wrk ← workerRequire sender addr
  if command = mdpwReady then
    if workerReady then workerDelete wrk true
    else if Reserved sender then workerDelete wrk true
    else workerJoins wrk msg junk
  else if command = mdpwReply then
    if workerReady then workerReplies wrk msg
    else workerDelete wrk true
  else if command = mdpwHeartbeat then
    if workerReady then
      let now ← sClock
      let w ← deref wrk
      upd (·.setWorker wrk { w with mExpiry := now + heartbeatExpiry })
    else workerDelete wrk true
  else if command = mdpwDisconnect then workerDelete wrk false
  else return

/-- The branch of `start_brokering` that receives a message. -/
def receive (frames : List Bytes) (addr : Ptr) (junk : BitVec 64) : Proc Broker Unit := do
  match Zmsg.ofSocket (Frame.encode frames) with
  | none => return
  | some (msg, _) => do
    let (sender, msg) ← msg.popFront
    let (_, msg) ← msg.popFront
    let (header, msg) ← msg.popFront
    if cStr header = mdpcClient then clientProcess (cStr sender) msg junk
    else if cStr header = mdpwWorker then workerProcess (cStr sender) msg addr junk
    else return

/-- The end of a round of `start_brokering`. -/
def heartbeats : Proc Broker Unit := do
  let now ← sClock
  if (← get).heartbeatAt ≤ now then
    purgeWorkers
    forM (← get).mWaiting.toList fun wrk => workerSend wrk mdpwHeartbeat [] none
    modify fun s => { s with heartbeatAt := s.heartbeatAt + heartbeatInterval }
    let _ ← sClock

/-- Before the first round, where `s_clock` has returned `now`. -/
def init (now : ℤ) : Broker where
  heap _ := none
  mServices _ := none
  mWorkers _ := none
  mWaiting := .empty
  log := []
  heartbeatAt := now + heartbeatInterval
  clock _ := 0
  socket := []

end Broker

/-! ## The machine -/

/-- A round of `start_brokering`: the message that `poll` finds, if any, what
    `s_clock` returns, the address of a new worker and what is in the memory of
    a new service. -/
structure Round where
  frames : Option (List Bytes)
  clock : ℕ → ℤ
  addr : Ptr
  junk : BitVec 64

/-- The code of a round. -/
def code (e : Round) : Proc Broker Unit := do
  modify fun s => { s with clock := e.clock }
  match e.frames with
  | some frames => Broker.receive frames e.addr e.junk
  | none => pure ()
  Broker.heartbeats

/-- The broker as a machine. -/
def machine : Machine (Process Broker) Round where
  can p e := p.halted = none ∧ e.frames ≠ some [] ∧ p.st.heap e.addr = none
  next p e := Process.exec (code e) p

instance (p : Process Broker) (e : Round) : Decidable (machine.can p e) :=
  inferInstanceAs (Decidable (_ ∧ _ ∧ _))

def init (now : ℤ) : Process Broker := ⟨.init now, none⟩

/-! ## Some rounds -/

namespace Round

/-- A message arrives; the address `addr` is free. -/
def receives (frames : List Bytes) (addr : Ptr) : Round := ⟨some frames, fun _ => 0, addr, 0⟩

/-- A worker is ready. -/
def ready (worker service : Bytes) (addr : Ptr) : Round :=
  receives [worker, [], mdpwWorker, mdpwReady, service] addr

/-- A worker replies to a client. -/
def reply (worker client body : Bytes) (addr : Ptr) : Round :=
  receives [worker, [], mdpwWorker, mdpwReply, client, [], body] addr

/-- A client makes a request. -/
def request (client service body : Bytes) (addr : Ptr) : Round :=
  receives [client, [], mdpcClient, service, body] addr

end Round

end ProxyBroker.Majordomo
