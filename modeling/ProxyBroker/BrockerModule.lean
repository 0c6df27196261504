/-
  The messages of `brockerModule` (`zmsg.hpp`, and the loop of `mdbroker.cpp`).

  A `zmsg` is sent part by part, and the next one is read until a part comes
  that has no more to follow.

  * `send_eq`, `recvLoop_eq`: the two loops are the coding of a message by frames.
  * `startBrocking_sends`: the messages read are those sent.
-/
import ProxyBroker.Common
import ProxyBroker.Multipart

namespace ProxyBroker.BrockerModule

abbrev Str := List Byte

/-- The frames that are on their way from a socket to its peer. -/
abbrev Pipe := List (Frame Str)

/-- `zmsg`: both constructors leave a part in it, and nothing removes one. -/
structure Zmsg where
  mPartData : List Str
  nonempty : mPartData ≠ []
  deriving DecidableEq, Repr

namespace Zmsg

/-- `zmsg(std::string str)`. -/
def ofStr (str : Str) : Zmsg := ⟨[str], by simp⟩

/-- `s_send`. -/
def sSend (pipe : Pipe) (sendStr : Str) (more : Bool) : Pipe := pipe ++ [⟨sendStr, more⟩]

/-- The loop of `send` from `part_nbr` on.  Its body runs only when there is a
    part, so that `size() - 1` does not wrap. -/
def sendLoop (mPartData : List Str) (partNbr : ℕ) (pipe : Pipe) : Pipe :=
  if h : partNbr < mPartData.length then
    sendLoop mPartData (partNbr + 1)
      (sSend pipe mPartData[partNbr] (partNbr < mPartData.length - 1))
  else pipe
termination_by mPartData.length - partNbr

/-- `send`. -/
def send (z : Zmsg) (pipe : Pipe) : Pipe := sendLoop z.mPartData 0 pipe

/-- The loop of `recv`, which waits (`none`) when no frame is there. -/
def recvLoop (mPartData : List Str) : Pipe → Option (Zmsg × Pipe)
  | [] => none
  | message :: pipe =>
    if message.more then recvLoop (mPartData ++ [message.data]) pipe
    else some (⟨mPartData ++ [message.data], by simp⟩, pipe)

/-- `zmsg(zmq::socket_t &socket)`, which calls `recv`. -/
def ofSocket (pipe : Pipe) : Option (Zmsg × Pipe) := recvLoop [] pipe

end Zmsg

/-- Messages sent one after another. -/
def sends : List Zmsg → Pipe → Pipe
  | [], pipe => pipe
  | z :: zs, pipe => sends zs (z.send pipe)

/-- `n` rounds of the loop of `start_brocking`. -/
def startBrocking : ℕ → Pipe → Option (List Zmsg × Pipe)
  | 0, pipe => some ([], pipe)
  | n + 1, pipe => do
    let (z, pipe) ← Zmsg.ofSocket pipe
    let (zs, pipe) ← startBrocking n pipe
    return (z :: zs, pipe)

variable {parts : List Str} {pipe pipe' : Pipe} {n : ℕ}

/-- What is left to send from a part on. -/
theorem Zmsg.sendLoop_eq (parts : List Str) (n : ℕ) (pipe : Pipe) :
    sendLoop parts n pipe = pipe ++ Frame.encode (parts.drop n) := by
  induction n, pipe using sendLoop.induct parts with
  | case1 n pipe h ih =>
    rw [sendLoop, dif_pos h, ih, sSend, List.drop_eq_getElem_cons h, List.append_assoc]
    congr 1
    rcases Nat.lt_or_ge (n + 1) parts.length with hn | hn
    · have hne : parts.drop (n + 1) ≠ [] := List.ne_nil_of_length_pos (by simp; omega)
      have hlt : n < parts.length - 1 := by omega
      rw [Frame.encode_cons _ hne, decide_eq_true hlt]
      rfl
    · have hlt : ¬ n < parts.length - 1 := by omega
      rw [List.drop_eq_nil_of_le hn, decide_eq_false hlt]
      rfl
  | case2 n pipe h =>
    rw [sendLoop, dif_neg h, List.drop_eq_nil_of_le (by omega)]
    simp [Frame.encode]

/-- `send` codes the message. -/
theorem Zmsg.send_eq (z : Zmsg) (pipe : Pipe) : z.send pipe = pipe ++ Frame.encode z.mPartData := by
  rw [send, sendLoop_eq, List.drop_zero]

/-- Parts that are there already stay in front of those that come. -/
theorem Zmsg.recvLoop_eq (parts : List Str) (pipe : Pipe) :
    (recvLoop parts pipe).map (fun p => (p.1.mPartData, p.2)) =
      (Frame.split pipe).map fun p => (parts ++ p.1, p.2) := by
  induction pipe generalizing parts with
  | nil => rfl
  | cons f pipe ih =>
    rw [recvLoop, Frame.split]
    split
    · simp [ih, Function.comp_def]
    · rfl

/-- `recv` takes the first message off. -/
theorem Zmsg.ofSocket_eq (pipe : Pipe) :
    (ofSocket pipe).map (fun p => (p.1.mPartData, p.2)) = Frame.split pipe := by
  simp [ofSocket, recvLoop_eq]

theorem sends_eq (zs : List Zmsg) (pipe : Pipe) :
    sends zs pipe = pipe ++ (zs.map Zmsg.mPartData).flatMap Frame.encode := by
  induction zs generalizing pipe with
  | nil => simp [sends]
  | cons z zs ih => simp [sends, ih, Zmsg.send_eq]

theorem startBrocking_eq (n : ℕ) (pipe : Pipe) :
    (startBrocking n pipe).map (fun p => (p.1.map Zmsg.mPartData, p.2)) = Frame.splits n pipe := by
  induction n generalizing pipe with
  | zero => rfl
  | succ n ih =>
    rw [startBrocking, Frame.splits, ← Zmsg.ofSocket_eq]
    cases Zmsg.ofSocket pipe with
    | none => rfl
    | some p =>
      simp only [Option.map_some, Option.bind_eq_bind, Option.bind_some, ← ih p.2]
      cases startBrocking n p.2 <;> rfl

/-- **The messages read are the messages sent**: the broker that has read as
    many messages as were sent has read their parts, and nothing is left. -/
theorem startBrocking_sends (zs : List Zmsg) :
    (startBrocking zs.length (sends zs [])).map (fun p => (p.1.map Zmsg.mPartData, p.2)) =
      some (zs.map Zmsg.mPartData, []) := by
  have hne : ∀ l ∈ zs.map Zmsg.mPartData, l ≠ [] := by
    intro l hl
    obtain ⟨z, -, rfl⟩ := List.mem_map.1 hl
    exact z.nonempty
  have h := Frame.splits_encode hne []
  rw [List.length_map, List.append_nil] at h
  rw [startBrocking_eq, sends_eq, List.nil_append, h]

end ProxyBroker.BrockerModule
