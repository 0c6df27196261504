/-
  What the client of `control_stream` sends (`SctpClientEndpoint.cpp`), and how
  its server reads it.

  Each send passes `MAX_BUFFER` bytes on from where a string begins, however
  long the string is.  The storage of a string holds its characters, a null
  byte and what is spare; what lies behind it in memory is an argument too.

  `sendMsg_texts_iff`: when the sends stay inside the storage and the server
  reads what the user typed.
-/
import ProxyBroker.ControlStream

namespace ProxyBroker.ControlStream

/-! ## The text of a message -/

/-- A text is read up to the null byte that ends it. -/
theorem msgpayload_append {text : List Byte} (h0 : 0 ∉ text) (rest : List Byte) :
    msgpayload (text ++ 0 :: rest) = some text := by
  have hne : ∀ b ∈ text, decide (b ≠ 0) = true := by
    intro b hb
    have hb0 : b ≠ 0 := fun h => h0 (h ▸ hb)
    simpa using hb0
  rw [msgpayload, if_pos (by simp), List.takeWhile_append_of_pos hne]
  simp

/-! ## The client -/

/-- The flags of a send. -/
inductive SendFlags where
  | none
  | abort
  | eof
  deriving DecidableEq, Repr

/-- A call of `sctp_sendmsg`, and how many bytes the storage has that it reads
    from. -/
structure Send extends Sent where
  flags : SendFlags
  storage : ℕ
  deriving DecidableEq, Repr

/-- The send reads no byte outside of the storage. -/
def Send.Inside (x : Send) : Prop := x.bytes.length ≤ x.storage

/-- The memory behind a string: what is spare in its storage, and what follows
    the storage. -/
structure Behind where
  spare : List Byte
  beyond : Vector Byte maxBuffer

structure SctpClientEndpoint where
  continuepoll : Bool
  sent : List Send
  deriving DecidableEq, Repr

namespace SctpClientEndpoint

/-- The call of `sctp_sendmsg` with `text.c_str()`, to `MY_PORT_NUM` of the
    same host. -/
def send (text : List Byte) (mem : Behind) (flags : SendFlags) : Send where
  ip := "127.0.0.1"
  port := 18002
  stream := 1
  bytes := (text ++ 0 :: (mem.spare ++ mem.beyond.toList)).take maxBuffer
  flags := flags
  storage := (text ++ 0 :: mem.spare).length

def sctpSendmsg (text : List Byte) (mem : Behind) (flags : SendFlags) :
    Proc SctpClientEndpoint Unit :=
  modify fun c => { c with sent := c.sent ++ [send text mem flags] }

/-- `std::to_string` of a digit. -/
def toStr (i : ℕ) : List Byte := [BitVec.ofNat 8 ('0'.toNat + i)]

/-- `newMsg`. -/
def newMsg (message : List Byte) (i : ℕ) : List Byte := message ++ toStr i

/-- `SendMsg`: `option` and `message` are read from the standard input, and
    `mem i` is behind the string of the send `i`. -/
def sendMsg (option : ℤ) (message : List Byte) (mem : ℕ → Behind) :
    Proc SctpClientEndpoint Unit :=
  if option = 1 then
    forM (List.range 5) fun i => sctpSendmsg (newMsg message i) (mem i) .none
  else if option = 0 then sctpSendmsg [] (mem 0) .abort
  else if option = 2 then sctpSendmsg [] (mem 0) .eof
  else return

/-- `ReadUserCmd`: `buf` is the character read. -/
def readUserCmd (buf : Char) (option : ℤ) (message : List Byte) (mem : ℕ → Behind) :
    Proc SctpClientEndpoint Unit := do
  match buf with
  | '0' => modify fun c => { c with continuepoll := false }
  | '1' => sendMsg option message mem
  | _ => return

end SctpClientEndpoint

/-! ## What the server reads -/

open ProxyBroker.ControlStream.SctpClientEndpoint

/-- The texts that the server reads for some sends, where `buf i` is what its
    buffer holds before it receives the send `i`. -/
def texts (sent : List Send) (buf : ℕ → Vector Byte (maxBuffer + 1)) : List (Option (List Byte)) :=
  sent.mapIdx fun i x => msgpayload (x.bytes ++ (buf i).toList.drop x.bytes.length)

variable {message text : List Byte} {mem : ℕ → Behind} {c : SctpClientEndpoint} {behind : Behind}

theorem length_send (text : List Byte) (behind : Behind) (flags : SendFlags) :
    (send text behind flags).bytes.length = maxBuffer := by
  have hlen : behind.beyond.toList.length = maxBuffer := behind.beyond.length_toList
  simp only [send, List.length_take, List.length_append, List.length_cons, hlen]
  omega

theorem send_inside (flags : SendFlags) :
    (send text behind flags).Inside ↔ maxBuffer ≤ text.length + 1 + behind.spare.length := by
  rw [Send.Inside, length_send]
  simp only [send, List.length_append, List.length_cons]
  omega

/-- A text that is sent with its null byte is read. -/
theorem msgpayload_send (h0 : 0 ∉ text) (hlen : text.length < maxBuffer) (flags : SendFlags)
    (tail : List Byte) : msgpayload ((send text behind flags).bytes ++ tail) = some text := by
  have htake : (send text behind flags).bytes =
      text ++ 0 :: (behind.spare ++ behind.beyond.toList).take (maxBuffer - text.length - 1) := by
    obtain ⟨n, hn⟩ : ∃ n, maxBuffer - text.length = n + 1 := ⟨maxBuffer - text.length - 1, by omega⟩
    simp only [send]
    rw [List.take_append, List.take_of_length_le hlen.le, hn, List.take_succ_cons,
      Nat.add_sub_cancel]
  rw [htake, List.append_assoc, List.cons_append, msgpayload_append h0]

/-- Of a text that is too long, no null byte is sent. -/
theorem msgpayload_send_long (h0 : 0 ∉ text) (hlen : maxBuffer ≤ text.length) (flags : SendFlags)
    {tail : List Byte} (ht : 0 ∉ tail) :
    msgpayload ((send text behind flags).bytes ++ tail) = none := by
  have htake : (send text behind flags).bytes = text.take maxBuffer := by
    simp only [send]
    exact List.take_append_of_le_length hlen
  rw [msgpayload, if_neg]
  rw [htake, List.contains_iff_mem, List.mem_append, not_or]
  exact ⟨fun h => h0 (List.take_subset _ _ h), ht⟩

theorem zero_notMem_newMsg (h0 : 0 ∉ message) {i : ℕ} (hi : i < 5) : 0 ∉ newMsg message i := by
  rw [newMsg, List.mem_append, not_or]
  refine ⟨h0, ?_⟩
  interval_cases i <;> decide

/-- What option 1 sends. -/
theorem sendMsg_normal (message : List Byte) (mem : ℕ → Behind) (c : SctpClientEndpoint) :
    (sendMsg 1 message mem).run c = .ok () { c with
      sent := c.sent ++ (List.range 5).map fun i => send (newMsg message i) (mem i) .none } := by
  have hloop : ∀ (is : List ℕ) (c : SctpClientEndpoint),
      (forM is fun i => sctpSendmsg (newMsg message i) (mem i) .none).run c = .ok () { c with
        sent := c.sent ++ is.map fun i => send (newMsg message i) (mem i) .none } := by
    intro is
    induction is with
    | nil => simp
    | cons i is ih =>
      intro c
      rw [List.forM_cons, sctpSendmsg, EStateM.run_bind, EStateM.run_modify]
      simp [ih]
  exact hloop (List.range 5) c

/-- The word that the user typed is sent from inside the strings, and the
    server reads it with each of the digits, whatever its buffer holds. -/
def Carried (message : List Byte) (sent : List Send) : Prop :=
  (∀ x ∈ sent, x.Inside) ∧
    ∀ buf, texts sent buf = (List.range 5).map fun i => some (newMsg message i)

/-- **A word is carried exactly if** it is not too long for the buffer of the
    server and the storage of each string is not too short for the send. -/
theorem sendMsg_texts_iff (h0 : 0 ∉ message) (mem : ℕ → Behind) (c : SctpClientEndpoint) :
    (∃ sent, (sendMsg 1 message mem).run c = .ok () { c with sent := c.sent ++ sent } ∧
      Carried message sent) ↔
      message.length ≤ 510 ∧ ∀ i < 5, 512 ≤ message.length + 2 + (mem i).spare.length := by
  have hlen : ∀ i, (newMsg message i).length = message.length + 1 := fun i => by
    simp [newMsg, toStr]
  have hsent : (∃ sent, (sendMsg 1 message mem).run c =
      .ok () { c with sent := c.sent ++ sent } ∧ Carried message sent) ↔
      Carried message ((List.range 5).map fun i => send (newMsg message i) (mem i) .none) := by
    simp [sendMsg_normal]
  have hin : (∀ x ∈ (List.range 5).map fun i => send (newMsg message i) (mem i) .none, x.Inside) ↔
      ∀ i < 5, 512 ≤ message.length + 2 + (mem i).spare.length := by
    rw [List.forall_mem_map]
    simp only [List.mem_range, send_inside, hlen, maxBuffer]
  rw [hsent, Carried, hin, and_comm]
  refine and_congr_left fun _ => ?_
  constructor
  · intro h
    by_contra hlong
    have hone : 0 ∉ (Vector.replicate (maxBuffer + 1) 1#8).toList.drop maxBuffer := by
      simp [Vector.toList_replicate]
    have hmax : maxBuffer ≤ (newMsg message 0).length := by
      rw [hlen, maxBuffer]
      omega
    have h₀ := congrArg List.head? (h fun _ => .replicate _ 1#8)
    simp only [texts, List.range_succ_eq_map, List.map_cons, List.mapIdx_cons, List.head?_cons,
      length_send] at h₀
    rw [msgpayload_send_long (zero_notMem_newMsg h0 (by decide)) hmax _ hone] at h₀
    cases h₀
  · intro hshort buf
    refine List.ext_getElem (by simp [texts]) ?_
    intro i hi _
    have hi5 : i < 5 := by simpa [texts] using hi
    simp only [texts, List.getElem_mapIdx, List.getElem_map, List.getElem_range]
    refine msgpayload_send (zero_notMem_newMsg h0 hi5) ?_ _ _
    rw [hlen, maxBuffer]
    omega

/-- A string of up to 15 characters that is kept in the object itself. -/
def small (n : ℕ) : Behind := ⟨List.replicate (15 - n) 0, .replicate _ 0⟩

/-- A word of 510 letters is carried, and the word `Hi` is not. -/
theorem sendMsg_texts_iff_hi :
    let word : List Byte := List.replicate 510 72
    let full : Behind := ⟨[], .replicate _ 0⟩
    (∃ sent, (sendMsg 1 word fun _ => full).run ⟨true, []⟩ = .ok () ⟨true, [] ++ sent⟩ ∧
      Carried word sent) ∧
      ¬ ∃ sent, (sendMsg 1 [72, 105] fun _ => small 3).run ⟨true, []⟩ = .ok () ⟨true, [] ++ sent⟩ ∧
        Carried [72, 105] sent := by
  intro word full
  have hword : 0 ∉ word := fun h => absurd (List.eq_of_mem_replicate h) (by decide)
  refine ⟨(sendMsg_texts_iff hword (fun _ => full) ⟨true, []⟩).2 ?_, fun h => ?_⟩
  · have hlen : word.length = 510 := List.length_replicate
    rw [hlen]
    exact ⟨le_rfl, fun _ _ => le_rfl⟩
  · obtain ⟨-, hroom⟩ := (sendMsg_texts_iff (by decide) (fun _ => small 3) ⟨true, []⟩).1 h
    exact absurd (hroom 0 (by decide)) (by decide)

/-- The sends of a short word read what is behind the string. -/
theorem sendMsg_reads_on : ¬ ∀ message : List Byte, 0 ∉ message →
    ∀ (mem : ℕ → Behind) (c : SctpClientEndpoint), ∃ sent,
      (sendMsg 1 message mem).run c = .ok () { c with sent := c.sent ++ sent } ∧
        Carried message sent := by
  intro h
  obtain ⟨sent, hrun, hin, -⟩ := h [72, 105] (by decide) (fun _ => small 3) ⟨true, []⟩
  rw [sendMsg_normal, EStateM.Result.ok.injEq, SctpClientEndpoint.mk.injEq] at hrun
  obtain rfl := List.append_cancel_left hrun.2.2
  have h₀ := hin (send (newMsg [72, 105] 0) (small 3) .none) (by simp [List.range_succ_eq_map])
  exact absurd ((send_inside _).1 h₀) (by decide)

end ProxyBroker.ControlStream
