/-
  What every process of the SCTP proxy shares (`include/common.hpp`, and
  `SerializedMsg` of `include/DomainSocket.hpp`).

  * `InternalMsg` is the union of the messages between tester, master and
    worker: a message id and one word, which is a pid or a placeholder that no
    sender sets.
  * `SerializedMsg` holds the bytes of a message on the wire.  Reading an
    `InternalMsg` back casts the pointer to the bytes, whatever their number.
    `deserializedData` is `none` when reading the whole message reads past them,
    `headerMsgId` when reading just its id does.
-/
import Mathlib.Data.List.Basic
import Mathlib.Data.BitVec

namespace ProxyBroker

/-- A descriptor, or the `-1` a failed call returns instead of one. -/
abbrev Fd := ℤ

abbrev Byte := BitVec 8

/-- An `int`. -/
abbrev Word := BitVec 32

/-- `MAX_BUFFER`. -/
def maxBuffer : ℕ := 256

/-- `MY_PORT_NUM`. -/
def myPortNum : ℕ := 18005

def masterReadyMsgId : Word := 0

def workerReadyMsgId : Word := 1

def masterTerminateMsgId : Word := 2

def workerTerminateMsgId : Word := 3

/-! ## Words as bytes -/

/-- The bytes of an `int` in memory, lowest first. -/
def Word.bytes (w : Word) : List Byte :=
  [w.extractLsb' 0 8, w.extractLsb' 8 8, w.extractLsb' 16 8, w.extractLsb' 24 8]

/-- The `int` stored in four bytes. -/
def Word.ofBytes (b₀ b₁ b₂ b₃ : Byte) : Word := b₃ ++ b₂ ++ b₁ ++ b₀

@[simp] theorem Word.length_bytes (w : Word) : w.bytes.length = 4 := rfl

theorem Word.ofBytes_bytes (w : Word) :
    Word.ofBytes (w.extractLsb' 0 8) (w.extractLsb' 8 8) (w.extractLsb' 16 8)
      (w.extractLsb' 24 8) = w := by
  refine BitVec.eq_of_getLsbD_eq ?_
  intro i hi
  simp only [Word.ofBytes, BitVec.getLsbD_append, BitVec.getLsbD_extractLsb']
  split_ifs
  · simp [*]
  · rw [show 8 + (i - 8) = i by omega]; simp; omega
  · rw [show 16 + (i - 8 - 8) = i by omega]; simp; omega
  · rw [show 24 + (i - 8 - 8 - 8) = i by omega]; simp; omega

theorem Word.bytes_ofBytes (b₀ b₁ b₂ b₃ : Byte) :
    (Word.ofBytes b₀ b₁ b₂ b₃).bytes = [b₀, b₁, b₂, b₃] := by
  simp only [Word.bytes, Word.ofBytes, List.cons.injEq, and_true]
  refine ⟨?_, ?_, ?_, ?_⟩ <;> refine BitVec.eq_of_getLsbD_eq fun i hi => ?_ <;>
    simp only [BitVec.getLsbD_append, BitVec.getLsbD_extractLsb', hi, decide_true, Bool.true_and]
  · simp [hi]
  · rw [if_neg (by omega), if_pos (by omega), Nat.add_sub_cancel_left]
  · rw [if_neg (by omega), if_neg (by omega), if_pos (by omega)]; congr 1; omega
  · rw [if_neg (by omega), if_neg (by omega), if_neg (by omega)]; congr 1; omega

/-! ## Messages -/

/-- `internal_msg`: `header.msg_id`, and the word all its variants have after
    it (`master_pid`, `worker_pid` or a placeholder). -/
structure InternalMsg where
  msgId : Word
  word : Word
  deriving DecidableEq, Repr

/-- `sizeof(internal_msg)`. -/
def InternalMsg.size : ℕ := 8

/-- `SerializedMsg<internal_msg>`: the bytes `serial_msg` points to. -/
structure SerializedMsg where
  bytes : List Byte
  deriving DecidableEq, Repr

/-- `SerializedMsg(msg_type msg)`. -/
def SerializedMsg.ofMsg (msg : InternalMsg) : SerializedMsg := ⟨msg.msgId.bytes ++ msg.word.bytes⟩

/-- `deserialized_data` and reading the whole message it points to. -/
def SerializedMsg.deserializedData (sm : SerializedMsg) : Option InternalMsg :=
  match sm.bytes with
  | b₀ :: b₁ :: b₂ :: b₃ :: c₀ :: c₁ :: c₂ :: c₃ :: _ =>
    some ⟨Word.ofBytes b₀ b₁ b₂ b₃, Word.ofBytes c₀ c₁ c₂ c₃⟩
  | _ => none

/-- `deserialized_data` and reading `header.msg_id` of the message. -/
def SerializedMsg.headerMsgId (sm : SerializedMsg) : Option Word :=
  match sm.bytes with
  | b₀ :: b₁ :: b₂ :: b₃ :: _ => some (Word.ofBytes b₀ b₁ b₂ b₃)
  | _ => none

@[simp] theorem SerializedMsg.length_ofMsg (msg : InternalMsg) :
    (ofMsg msg).bytes.length = InternalMsg.size := rfl

/-- What was written is read back, also with other bytes after it. -/
theorem SerializedMsg.deserializedData_ofMsg_append (msg : InternalMsg) (bs : List Byte) :
    deserializedData ⟨(ofMsg msg).bytes ++ bs⟩ = some msg := by
  simp [deserializedData, ofMsg, Word.bytes, Word.ofBytes_bytes]

@[simp] theorem SerializedMsg.deserializedData_ofMsg (msg : InternalMsg) :
    (ofMsg msg).deserializedData = some msg := by
  simpa using deserializedData_ofMsg_append msg []

/-- Where the whole message can be read, its id can. -/
theorem SerializedMsg.headerMsgId_of_deserializedData {sm : SerializedMsg} {msg : InternalMsg}
    (h : sm.deserializedData = some msg) : sm.headerMsgId = some msg.msgId := by
  unfold deserializedData at h
  split at h
  · rename_i hb
    cases h
    simp [headerMsgId, hb]
  · cases h

@[simp] theorem SerializedMsg.headerMsgId_ofMsg (msg : InternalMsg) :
    (ofMsg msg).headerMsgId = some msg.msgId :=
  headerMsgId_of_deserializedData (deserializedData_ofMsg msg)

/-- The message read is the one whose bytes come first. -/
theorem SerializedMsg.take_of_deserializedData {sm : SerializedMsg} {msg : InternalMsg}
    (h : sm.deserializedData = some msg) :
    sm.bytes.take InternalMsg.size = (ofMsg msg).bytes := by
  unfold deserializedData at h
  split at h
  · rename_i hb
    cases h
    simp [hb, ofMsg, Word.bytes_ofBytes, InternalMsg.size]
  · cases h

/-- The cast stays inside the bytes exactly when there are `sizeof(internal_msg)`
    of them. -/
theorem SerializedMsg.deserializedData_isSome (sm : SerializedMsg) :
    sm.deserializedData.isSome ↔ InternalMsg.size ≤ sm.bytes.length := by
  unfold deserializedData InternalMsg.size
  split
  · rename_i h; simp [h]
  · rename_i h
    simp only [Option.isSome_none, Bool.false_eq_true, false_iff, not_le]
    by_contra hlen
    match hb : sm.bytes, hlen with
    | b₀ :: b₁ :: b₂ :: b₃ :: c₀ :: c₁ :: c₂ :: c₃ :: bs, _ => exact h _ _ _ _ _ _ _ _ bs hb
    | [], h' | [_], h' | [_, _], h' | [_, _, _], h' | [_, _, _, _], h' | [_, _, _, _, _], h'
    | [_, _, _, _, _, _], h' | [_, _, _, _, _, _, _], h' => simp at h'

end ProxyBroker
