/-
  Messages over the byte stream of a domain socket.

  A SOCK_STREAM connection keeps the bytes in order but not where one send
  ended: `recv` and `recvmsg` may return any piece of them.  `DomainSocket`
  takes each result for one message, so what the reader obtains is what was
  sent exactly when each result holds what one call sent:

  * `readAll_iff`, for messages read with `domain_read`;
  * `recvAll_iff`, for messages and descriptors read with `domain_recv_msg`,
    whose results may hold the bytes sent before a descriptor together with it,
    and nothing sent after it.

  A descriptor is named by the open file it stands for, on both sides.

  `receivedBoth_same_iff` compares what the two calls return for the same
  bytes.
-/
import ProxyBroker.DomainSocket
import ProxyBroker.Segments

namespace ProxyBroker

/-! ## What is on the wire -/

/-- The calls that send on a connection. -/
inductive SendCall where
  | domainWrite (msg : InternalMsg)
  | domainSendMsg (msg : InternalMsg)
  | domainSendFd (fd : Fd)
  deriving DecidableEq

namespace SendCall

def run (s : DomainSocket) : SendCall → Proc Kernel Unit
  | .domainWrite msg => s.domainWrite (some (.ofMsg msg))
  | .domainSendMsg msg => s.domainSendMsg (some (.ofMsg msg))
  | .domainSendFd fd => s.domainSendFd fd

/-- The message of a call that sends one. -/
def msg? : SendCall → Option InternalMsg
  | .domainWrite msg | .domainSendMsg msg => some msg
  | .domainSendFd _ => none

/-- What one call puts on the wire. -/
def cells : SendCall → List Cell
  | .domainWrite msg | .domainSendMsg msg => (SerializedMsg.ofMsg msg).bytes.map fun b => (b, none)
  | .domainSendFd fd => [(dummyByte, some fd)]

end SendCall

def sendAll (s : DomainSocket) : List SendCall → Proc Kernel Unit
  | [] => pure ()
  | c :: cs => do
    c.run s
    sendAll s cs

variable {s : DomainSocket} {k k' : Kernel}

/-- A call on a live connection succeeds, and sends its cells. -/
theorem SendCall.run_live (hk : k.Live s.sockFd) {c : SendCall}
    (hc : ∀ fd, c = .domainSendFd fd → fd ∈ k.openFds) :
    ∃ a, (c.run s).run k = .ok () (k.send a) ∧ a.cells s.sockFd = c.cells := by
  cases c with
  | domainWrite msg =>
    exact ⟨.sendMsg s.sockFd (.ofMsg msg), by simp [SendCall.run, DomainSocket.domainWrite, hk],
      by simp [Act.cells, SendCall.cells]⟩
  | domainSendMsg msg =>
    exact ⟨.sendMsg s.sockFd (.ofMsg msg), by simp [SendCall.run, DomainSocket.domainSendMsg, hk],
      by simp [Act.cells, SendCall.cells]⟩
  | domainSendFd fd =>
    exact ⟨.sendFd s.sockFd fd, by simp [SendCall.run, DomainSocket.domainSendFd, hk, hc fd rfl],
      by simp [Act.cells, SendCall.cells]⟩

/-- The calls put their cells on the wire, in order. -/
theorem sendAll_wire : ∀ {cs : List SendCall} {k : Kernel}, k.Live s.sockFd →
    (∀ fd, .domainSendFd fd ∈ cs → fd ∈ k.openFds) →
    ∃ k', (sendAll s cs).run k = .ok () k' ∧
      k'.wire s.sockFd = k.wire s.sockFd ++ cs.flatMap SendCall.cells
  | [], k, _, _ => ⟨k, rfl, by simp⟩
  | c :: cs, k, hk, hfd => by
    obtain ⟨a, ha, hcells⟩ := c.run_live hk fun fd h => hfd fd (by simp [h])
    obtain ⟨k', hk', hw⟩ : ∃ k', (sendAll s cs).run (k.send a) = .ok () k' ∧
        k'.wire s.sockFd = (k.send a).wire s.sockFd ++ cs.flatMap SendCall.cells :=
      sendAll_wire hk fun fd h => hfd fd (List.mem_cons_of_mem _ h)
    refine ⟨k', by simp [sendAll, ha, hk'], ?_⟩
    rw [hw]
    simp [Kernel.wire, hcells]

/-- On a fresh connection, the cells of the calls are all there is. -/
theorem sent_wire (hk : k.Live s.sockFd) (hw : k.wire s.sockFd = []) {cs : List SendCall}
    (hfd : ∀ fd, .domainSendFd fd ∈ cs → fd ∈ k.openFds)
    (hsend : (sendAll s cs).run k = .ok () k') :
    k'.wire s.sockFd = cs.flatMap SendCall.cells := by
  obtain ⟨k'', hrun, hwire⟩ := sendAll_wire hk hfd
  cases hrun.symm.trans hsend
  rw [hwire, hw, List.nil_append]

/-! ## Reading with `domain_read` -/

/-- `domain_read` for each of the results `segs` of `recv`, and the message that
    `deserialized_data` of each points to. -/
def readAll (segs : List (List Byte)) : Proc Kernel (List (Option InternalMsg)) :=
  segs.mapM fun seg => do
    let serialMsg ← DomainSocket.domainRead (some seg)
    return serialMsg.bind (·.deserializedData)

theorem readAll_run {segs : List (List Byte)} (h : ∀ seg ∈ segs, seg ≠ []) (k : Kernel) :
    ∃ k', (readAll segs).run k =
      .ok (segs.map fun seg => (⟨seg⟩ : SerializedMsg).deserializedData) k' :=
  Proc.run_mapM (fun seg hseg k => ⟨k, by
    cases seg with
    | nil => exact absurd rfl (h _ hseg)
    | cons b bs => simp [DomainSocket.domainRead]⟩) k

/-- Calls that send messages put the bytes of the messages on the wire. -/
theorem msgs_of_calls : ∀ {cs : List SendCall}, (∀ c ∈ cs, c.msg?.isSome) →
    ∃ msgs : List InternalMsg, cs.map SendCall.msg? = msgs.map some ∧
      (cs.flatMap SendCall.cells).map Prod.fst =
        (msgs.map fun msg => (SerializedMsg.ofMsg msg).bytes).flatten
  | [], _ => ⟨[], rfl, rfl⟩
  | c :: cs, h => by
    obtain ⟨msgs, hm, hb⟩ := msgs_of_calls fun c hc => h c (List.mem_cons_of_mem _ hc)
    have hc := h c List.mem_cons_self
    cases c with
    | domainWrite msg | domainSendMsg msg =>
      refine ⟨msg :: msgs, by simp [hm, SendCall.msg?], ?_⟩
      rw [List.flatMap_cons, List.map_append, hb]
      simp [SendCall.cells, Function.comp_def]
    | domainSendFd fd => simp [SendCall.msg?] at hc

/-- **Messages read with `domain_read`.**  Whatever messages are sent on a
    connection and however its bytes are split into results of `recv`, the
    reader obtains the messages sent, each from the bytes received for it,
    exactly when every result has the size of a message. -/
theorem readAll_iff {cs : List SendCall} {segs : List (List Byte)} {kr : Kernel}
    (hk : k.Live s.sockFd) (hw : k.wire s.sockFd = []) (hcs : ∀ c ∈ cs, c.msg?.isSome)
    (hsend : (sendAll s cs).run k = .ok () k')
    (hsegs : Segmentation maxBuffer ((k'.wire s.sockFd).map Prod.fst) segs) :
    (∃ kr', (readAll segs).run kr = .ok (cs.map SendCall.msg?) kr') ↔
      ∀ seg ∈ segs, seg.length = InternalMsg.size := by
  obtain ⟨msgs, hmsgs, hbytes⟩ := msgs_of_calls hcs
  have hflat : segs.flatten = (msgs.map fun msg => (SerializedMsg.ofMsg msg).bytes).flatten := by
    rw [hsegs.flatten, sent_wire hk hw (fun fd hfd => by simpa [SendCall.msg?] using hcs _ hfd)
      hsend, hbytes]
  obtain ⟨kr', hread⟩ := readAll_run hsegs.nonempty kr
  have hres : (∃ kr', (readAll segs).run kr = .ok (cs.map SendCall.msg?) kr') ↔
      (segs.map fun seg => (⟨seg⟩ : SerializedMsg).deserializedData) = msgs.map some := by
    rw [hread, hmsgs]
    constructor
    · rintro ⟨_, h⟩; exact (EStateM.Result.ok.inj h).1
    · intro h; exact ⟨kr', by rw [h]⟩
  rw [hres]
  constructor
  · intro h
    -- each result is long enough for a message, and together they are no longer
    have hall : List.Forall₂ (fun seg bytes => bytes.length ≤ seg.length) segs
        (msgs.map fun msg => (SerializedMsg.ofMsg msg).bytes) := by
      exact List.forall₂_map_right_iff.2 <| (map_eq_map_iff_forall₂.1 h).imp fun seg msg hd =>
        (SerializedMsg.deserializedData_isSome ⟨seg⟩).1 (by simp [hd])
    rw [eq_of_flatten_eq_of_length_le hall hflat]
    simp
  · intro h
    rw [eq_of_flatten_eq_of_length_eq (n := InternalMsg.size) (by decide) h (by simp) hflat,
      List.map_map]
    exact List.map_congr_left fun msg _ => SerializedMsg.deserializedData_ofMsg msg

/-- A connection from a process whose descriptor 3 is its end of it. -/
def connected : Kernel := Kernel.start.opened 3

/-- Two workers' messages on one connection. -/
def twoReady : List SendCall :=
  [.domainWrite ⟨workerReadyMsgId, 101⟩, .domainSendMsg ⟨workerReadyMsgId, 102⟩]

def twoReadySent : Kernel :=
  (connected.send (.sendMsg 3 (.ofMsg ⟨workerReadyMsgId, 101⟩))).send
    (.sendMsg 3 (.ofMsg ⟨workerReadyMsgId, 102⟩))

theorem twoReady_sent : (sendAll ⟨3⟩ twoReady).run connected = .ok () twoReadySent := rfl

/-- Received one by one, the two messages are read. -/
theorem readAll_iff_separate :
    ∃ kr', (readAll [(SerializedMsg.ofMsg ⟨workerReadyMsgId, 101⟩).bytes,
        (SerializedMsg.ofMsg ⟨workerReadyMsgId, 102⟩).bytes]).run Kernel.start =
      .ok (twoReady.map SendCall.msg?) kr' := by
  have hk : connected.Live (DomainSocket.mk 3).sockFd := by decide
  exact (readAll_iff hk rfl (by decide) twoReady_sent ⟨rfl, by decide, by decide⟩).2 (by decide)

/-- Received together, the second message is lost. -/
theorem readAll_coalesced :
    ¬ ∀ (s : DomainSocket) (k k' kr : Kernel) (cs : List SendCall) (segs : List (List Byte)),
      k.Live s.sockFd → k.wire s.sockFd = [] → (∀ c ∈ cs, c.msg?.isSome) →
      (sendAll s cs).run k = .ok () k' →
      Segmentation maxBuffer ((k'.wire s.sockFd).map Prod.fst) segs →
      ∃ kr', (readAll segs).run kr = .ok (cs.map SendCall.msg?) kr' := by
  intro h
  obtain ⟨kr', hr⟩ := h ⟨3⟩ connected twoReadySent Kernel.start twoReady
    [(SerializedMsg.ofMsg ⟨workerReadyMsgId, 101⟩).bytes ++
      (SerializedMsg.ofMsg ⟨workerReadyMsgId, 102⟩).bytes]
    (by decide) rfl (by decide) twoReady_sent ⟨rfl, by decide, by decide⟩
  have := congrArg List.length (EStateM.Result.ok.inj hr).1
  exact absurd this (by decide)

/-! ## Reading with `domain_recv_msg` -/

/-- The results of `recvmsg` that a domain socket allows: a descriptor comes
    with the last byte of a result, as nothing sent after it is joined to it. -/
structure Grouping (cells : List Cell) (groups : List (List Cell)) : Prop
    extends Segmentation maxBuffer cells groups where
  fdLast : ∀ g ∈ groups, ∀ c ∈ g.dropLast, c.2 = none

/-- What `recvmsg` returns for a group: its bytes, and the descriptor among them. -/
def recvmsg (g : List Cell) : List Byte × Option Fd := (g.map Prod.fst, g.getLast?.bind Prod.snd)

/-- `domain_recv_msg` for each group in turn, each with what its buffer holds
    before: the descriptor and the message it yields. -/
def recvAll (reads : List (List Cell × Vector Byte maxBuffer)) :
    Proc Kernel (List (Fd × Option (Option InternalMsg))) :=
  reads.mapM fun r => do
    let (fd, serialMsg) ← DomainSocket.domainRecvMsg (some (recvmsg r.1)) r.2 (-1)
    return (fd, serialMsg.map (·.deserializedData))

/-- What the reader has to obtain for a call: the descriptor and no message, or
    the message and no descriptor. -/
def SendCall.yield : SendCall → Fd × Option (Option InternalMsg)
  | .domainWrite msg | .domainSendMsg msg => (-1, some (some msg))
  | .domainSendFd fd => (fd, none)

/-- What one call of `domain_recv_msg` yields. -/
def recvYield (r : List Cell × Vector Byte maxBuffer) : Fd × Option (Option InternalMsg) :=
  match r.1.getLast?.bind Prod.snd with
  | some fd => (fd, none)
  | none => (-1, some (SerializedMsg.deserializedData
      ⟨r.1.map Prod.fst ++ r.2.toList.drop r.1.length⟩))

theorem recvAll_run {reads : List (List Cell × Vector Byte maxBuffer)}
    (h : ∀ r ∈ reads, r.1 ≠ []) (k : Kernel) :
    ∃ k', (recvAll reads).run k = .ok (reads.map recvYield) k' :=
  Proc.run_mapM (fun r hr k => by
    obtain ⟨g, buf⟩ := r
    cases g with
    | nil => exact absurd rfl (h _ hr)
    | cons c cs =>
      cases hfd : (c :: cs).getLast?.bind Prod.snd with
      | some fd =>
        exact ⟨k.opened fd, by simp [DomainSocket.domainRecvMsg, recvmsg, recvYield, hfd]⟩
      | none => exact ⟨k, by simp [DomainSocket.domainRecvMsg, recvmsg, recvYield, hfd]⟩) k

/-- A group that holds what one call sent yields it. -/
theorem recvYield_cells (c : SendCall) (buf : Vector Byte maxBuffer) :
    recvYield (c.cells, buf) = c.yield := by
  cases c with
  | domainSendFd fd => rfl
  | domainWrite msg | domainSendMsg msg =>
    have hlast : (SendCall.cells (.domainWrite msg)).getLast?.bind Prod.snd = none := by
      simp [SendCall.cells, List.getLast?_map]
    have hbytes : (SendCall.cells (.domainWrite msg)).map Prod.fst =
        (SerializedMsg.ofMsg msg).bytes := by
      simp [SendCall.cells, Function.comp_def]
    change recvYield (SendCall.cells (.domainWrite msg), buf) = _
    simp only [recvYield, hlast, hbytes, SerializedMsg.deserializedData_ofMsg_append,
      SendCall.yield]

/-- Bytes that a message is read from, but that were not received, would have
    to be in the buffer. -/
theorem le_of_deserializedData_append {bs junk : List Byte} {msg : InternalMsg}
    (h : (⟨bs ++ junk⟩ : SerializedMsg).deserializedData = some msg)
    (hlt : bs.length < InternalMsg.size) :
    junk.head? = (SerializedMsg.ofMsg msg).bytes[bs.length]? := by
  rw [← SerializedMsg.take_of_deserializedData h, List.getElem?_take_of_lt hlt,
    List.getElem?_append_right le_rfl, Nat.sub_self, List.head?_eq_getElem?]

/-- A group that yields what a call sent, whatever the buffer holds, is at
    least as long as what the call sent. -/
theorem length_cells_le {g : List Cell} {c : SendCall} (hg : g ≠ [])
    (h : ∀ buf, recvYield (g, buf) = c.yield) : c.cells.length ≤ g.length := by
  have key : ∀ msg, c.yield = (-1, some (some msg)) → InternalMsg.size ≤ g.length := by
    intro msg hc
    by_contra hlt
    -- a buffer of zeros and one of ones would put their byte into the message
    have hjunk : ∀ b : Byte, some b = (SerializedMsg.ofMsg msg).bytes[g.length]? := by
      intro b
      have hb := h (Vector.replicate maxBuffer b)
      rw [hc] at hb
      unfold recvYield at hb
      split at hb
      · cases hb
      · have hd := Option.some.inj (Prod.mk.inj hb).2
        have := le_of_deserializedData_append hd (by simpa using not_le.1 hlt)
        rw [List.length_map, Vector.toList_replicate, List.drop_replicate,
          List.head?_replicate, if_neg] at this
        · exact this
        · have : g.length < maxBuffer := (not_le.1 hlt).trans (by decide)
          exact (Nat.sub_pos_of_lt this).ne'
    exact absurd ((hjunk 0).trans (hjunk 1).symm) (by decide)
  cases c with
  | domainWrite msg => simpa [SendCall.cells] using key msg rfl
  | domainSendMsg msg => simpa [SendCall.cells] using key msg rfl
  | domainSendFd fd => exact List.length_pos_iff.2 hg

/-- **Messages and descriptors read with `domain_recv_msg`.**  Whatever is sent
    on a connection and however it is grouped into results of `recvmsg`, the
    reader obtains every message and every descriptor once and in order,
    whatever its buffers hold before, exactly when each result holds what one
    call sent. -/
theorem recvAll_iff {cs : List SendCall} {groups : List (List Cell)} {kr : Kernel}
    (hk : k.Live s.sockFd) (hw : k.wire s.sockFd = [])
    (hfd : ∀ fd, .domainSendFd fd ∈ cs → fd ∈ k.openFds)
    (hsend : (sendAll s cs).run k = .ok () k') (hgroups : Grouping (k'.wire s.sockFd) groups) :
    (∀ reads : List (List Cell × Vector Byte maxBuffer), reads.map Prod.fst = groups →
      ∃ kr', (recvAll reads).run kr = .ok (cs.map SendCall.yield) kr') ↔
      groups = cs.map SendCall.cells := by
  have hflat : groups.flatten = (cs.map SendCall.cells).flatten := by
    rw [hgroups.flatten, sent_wire hk hw hfd hsend, List.flatMap_def]
  have hne : ∀ reads : List (List Cell × Vector Byte maxBuffer), reads.map Prod.fst = groups →
      ∀ r ∈ reads, r.1 ≠ [] := by
    rintro reads rfl r hr
    exact hgroups.nonempty _ (List.mem_map_of_mem hr)
  constructor
  · intro h
    have hall : List.Forall₂ (fun g c => ∀ buf, recvYield (g, buf) = c.yield) groups cs := by
      have hlen : groups.length = cs.length := by
        have hreads : (groups.map fun g => (g, Vector.replicate maxBuffer (0 : Byte))).map
            Prod.fst = groups := by simp [Function.comp_def]
        obtain ⟨k₁, h₁⟩ := h _ hreads
        obtain ⟨k₂, h₂⟩ := recvAll_run (hne _ hreads) kr
        simpa using congrArg List.length (EStateM.Result.ok.inj (h₂.symm.trans h₁)).1
      refine List.forall₂_iff_get.2 ⟨hlen, ?_⟩
      intro i hi hi' buf
      have hreads : (groups.map fun g => (g, buf)).map Prod.fst = groups := by
        simp [Function.comp_def]
      obtain ⟨k₁, h₁⟩ := h _ hreads
      obtain ⟨k₂, h₂⟩ := recvAll_run (hne _ hreads) kr
      have := congrArg (·[i]?) (EStateM.Result.ok.inj (h₂.symm.trans h₁)).1
      simpa [List.getElem?_eq_getElem hi, List.getElem?_eq_getElem hi'] using this
    refine eq_of_flatten_eq_of_length_le (List.forall₂_map_right_iff.2 ?_) hflat
    refine List.forall₂_iff_get.2 ⟨hall.length_eq, ?_⟩
    intro i hi hi'
    exact length_cells_le (hgroups.nonempty _ (List.get_mem ..)) (hall.get hi hi')
  · rintro rfl reads hreads
    obtain ⟨k₁, h₁⟩ := recvAll_run (hne _ hreads) kr
    refine ⟨k₁, h₁.trans ?_⟩
    rw [map_eq_map_iff_forall₂.2 ((map_eq_map_iff_forall₂.1 hreads).imp fun r c hr => ?_)]
    rw [← recvYield_cells c r.2, ← hr]

/-- A message, and a descriptor after it: descriptor 0 stands in for a
    connection. -/
def readyFd : List SendCall := [.domainSendMsg ⟨workerTerminateMsgId, 7⟩, .domainSendFd 0]

def readyFdSent : Kernel :=
  (connected.send (.sendMsg 3 (.ofMsg ⟨workerTerminateMsgId, 7⟩))).send (.sendFd 3 0)

theorem readyFd_sent : (sendAll ⟨3⟩ readyFd).run connected = .ok () readyFdSent := rfl

/-- Received one by one, the message and the descriptor are read. -/
theorem recvAll_iff_separate :
    ∃ kr', (recvAll (readyFd.map fun c => (c.cells, .replicate maxBuffer 0))).run Kernel.start =
      .ok (readyFd.map SendCall.yield) kr' := by
  have hk : connected.Live (DomainSocket.mk 3).sockFd := by decide
  have hfd : ∀ fd, .domainSendFd fd ∈ readyFd → fd ∈ connected.openFds := by
    simp [readyFd, connected, Kernel.start]
  have hg : Grouping (readyFdSent.wire (DomainSocket.mk 3).sockFd) (readyFd.map SendCall.cells) :=
    ⟨⟨rfl, by decide, by decide⟩, by decide⟩
  exact (recvAll_iff hk rfl hfd readyFd_sent hg).2 rfl _ (by simp)

/-- Received together with the descriptor sent after it, the message is lost. -/
theorem recvAll_joined :
    ¬ ∀ (s : DomainSocket) (k k' kr : Kernel) (cs : List SendCall) (groups : List (List Cell)),
      k.Live s.sockFd → k.wire s.sockFd = [] →
      (∀ fd, .domainSendFd fd ∈ cs → fd ∈ k.openFds) → (sendAll s cs).run k = .ok () k' →
      Grouping (k'.wire s.sockFd) groups →
      ∀ reads : List (List Cell × Vector Byte maxBuffer), reads.map Prod.fst = groups →
        ∃ kr', (recvAll reads).run kr = .ok (cs.map SendCall.yield) kr' := by
  intro h
  have hg : Grouping (readyFdSent.wire (DomainSocket.mk 3).sockFd)
      [(readyFd.map SendCall.cells).flatten] := ⟨⟨rfl, by decide, by decide⟩, by decide⟩
  obtain ⟨kr', hr⟩ := h ⟨3⟩ connected readyFdSent Kernel.start readyFd _ (by decide) rfl
    (by simp [readyFd, connected, Kernel.start]) readyFd_sent hg
    [((readyFd.map SendCall.cells).flatten, Vector.replicate maxBuffer 0)] rfl
  have := congrArg List.length (EStateM.Result.ok.inj hr).1
  exact absurd this (by decide)

/-! ## The two ways to receive -/

/-- Bytes are read as the same message with others after them if they hold a
    message. -/
theorem deserializedData_append_iff {bs junk : List Byte}
    (hlen : InternalMsg.size ≤ (bs ++ junk).length) :
    (⟨bs ++ junk⟩ : SerializedMsg).deserializedData = (⟨bs⟩ : SerializedMsg).deserializedData ↔
      InternalMsg.size ≤ bs.length := by
  have hsome := SerializedMsg.deserializedData_isSome ⟨bs⟩
  constructor
  · intro h
    rw [← hsome, ← h]
    exact (SerializedMsg.deserializedData_isSome _).2 hlen
  · intro h
    obtain ⟨msg, hmsg⟩ := Option.isSome_iff_exists.1 (hsome.2 h)
    have hbs : bs = (SerializedMsg.ofMsg msg).bytes ++ bs.drop InternalMsg.size := by
      rw [← SerializedMsg.take_of_deserializedData hmsg]
      exact (List.take_append_drop _ _).symm
    rw [hmsg, hbs, List.append_assoc, SerializedMsg.deserializedData_ofMsg_append]

/-- The bytes are received by `domain_read`, and by `domain_recv_msg` with the
    buffer `buf`. -/
def ReceivedBoth (bs : List Byte) (buf : Vector Byte maxBuffer) (sm sm' : SerializedMsg) : Prop :=
  ∀ recvfd k, (DomainSocket.domainRead (some bs)).run k = .ok (some sm) k ∧
    (DomainSocket.domainRecvMsg (some (bs, none)) buf recvfd).run k = .ok (recvfd, some sm') k

theorem receivedBoth_iff {bs : List Byte} (hne : bs ≠ []) {buf : Vector Byte maxBuffer}
    {sm sm' : SerializedMsg} :
    ReceivedBoth bs buf sm sm' ↔ sm = ⟨bs⟩ ∧ sm' = ⟨bs ++ buf.toList.drop bs.length⟩ := by
  obtain ⟨b, bs, rfl⟩ := List.exists_cons_of_ne_nil hne
  simp only [ReceivedBoth, DomainSocket.domainRead, DomainSocket.domainRecvMsg, EStateM.run_pure,
    EStateM.Result.ok.injEq, Prod.mk.injEq, Option.some.injEq, true_and, and_true]
  exact ⟨fun h => ⟨(h 0 Kernel.start).1.symm, (h 0 Kernel.start).2.symm⟩,
    fun h _ _ => ⟨h.1.symm, h.2.symm⟩⟩

/-- **Both calls return the bytes received exactly if they fill the buffer**;
    what they return is read as the same message exactly if the bytes hold
    one. -/
theorem receivedBoth_same_iff {bs : List Byte} (hne : bs ≠ []) (hlen : bs.length ≤ maxBuffer)
    (buf : Vector Byte maxBuffer) :
    (ReceivedBoth bs buf ⟨bs⟩ ⟨bs⟩ ↔ bs.length = maxBuffer) ∧
      ((∃ sm sm', ReceivedBoth bs buf sm sm' ∧ sm.deserializedData = sm'.deserializedData) ↔
        InternalMsg.size ≤ bs.length) := by
  constructor
  · rw [receivedBoth_iff hne, and_iff_right rfl, SerializedMsg.mk.injEq, List.self_eq_append_right,
      List.drop_eq_nil_iff, Vector.length_toList]
    omega
  · have hfull : InternalMsg.size ≤ (bs ++ buf.toList.drop bs.length).length := by
      rw [List.length_append, List.length_drop, Vector.length_toList, InternalMsg.size]
      simp only [maxBuffer] at hlen ⊢
      omega
    rw [← deserializedData_append_iff hfull]
    constructor
    · rintro ⟨sm, sm', h, he⟩
      obtain ⟨rfl, rfl⟩ := (receivedBoth_iff hne).1 h
      exact he.symm
    · intro h
      exact ⟨_, _, (receivedBoth_iff hne).2 ⟨rfl, rfl⟩, h.symm⟩

/-- A message of the proxy, received into a buffer that is zero. -/
theorem receivedBoth_same_iff_ready :
    let bs := (SerializedMsg.ofMsg ⟨workerReadyMsgId, 7⟩).bytes
    (ReceivedBoth bs (.replicate maxBuffer 0) ⟨bs⟩ ⟨bs⟩ ↔ bs.length = maxBuffer) ∧
      ((∃ sm sm', ReceivedBoth bs (.replicate maxBuffer 0) sm sm' ∧
        sm.deserializedData = sm'.deserializedData) ↔ InternalMsg.size ≤ bs.length) :=
  receivedBoth_same_iff (by decide) (by decide) _

/-- A message of the proxy comes with what the buffer held before. -/
theorem receivedBoth_padded : ¬ ∀ (bs : List Byte) (buf : Vector Byte maxBuffer), bs ≠ [] →
    bs.length ≤ maxBuffer → ReceivedBoth bs buf ⟨bs⟩ ⟨bs⟩ := by
  intro h
  have hb := h (SerializedMsg.ofMsg ⟨workerReadyMsgId, 7⟩).bytes (.replicate maxBuffer 0) (by decide)
    (by decide)
  have hlen := congrArg List.length (SerializedMsg.mk.inj ((receivedBoth_iff (by decide)).1 hb).2)
  rw [List.length_append, List.length_drop, Vector.length_toList] at hlen
  exact absurd hlen (by decide)

end ProxyBroker
