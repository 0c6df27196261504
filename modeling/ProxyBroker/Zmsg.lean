/-
  The messages of `officialMajordomo` (`zmsg.hpp`).

  A `zmsg` holds its parts as strings that may contain any bytes; many of its
  functions pass them on as C strings, which end at the first null byte.  A
  binary identity is kept in printed form: `recv` prints it, and `send` reads
  it back.
-/
import ProxyBroker.Common
import ProxyBroker.Multipart
import ProxyBroker.Wp

namespace ProxyBroker.Majordomo

/-- `std::string` and `ustring`. -/
abbrev Bytes := List Byte

/-- A string literal. -/
def lit (cs : List Char) : Bytes := cs.map fun c => BitVec.ofNat 8 c.toNat

/-- The string that `c_str` points to. -/
def cStr (s : Bytes) : Bytes := s.takeWhile (· ≠ 0)

/-! ## Identities -/

/-- `hex_char`. -/
def hexChar (n : ℕ) : Byte :=
  (lit ['0', '1', '2', '3', '4', '5', '6', '7', '8', '9', 'A', 'B', 'C', 'D', 'E', 'F']).getD n 0

/-- `hex_to_bin`, where the entries that are -1 fill the byte. -/
def hexToBin (c : ℕ) : Byte :=
  if 48 ≤ c ∧ c ≤ 57 then BitVec.ofNat 8 (c - 48)
  else if 65 ≤ c ∧ c ≤ 70 then BitVec.ofNat 8 (c - 55)
  else if 97 ≤ c ∧ c ≤ 102 then BitVec.ofNat 8 (c - 87)
  else 0xFF

/-- `encode_uuid`, for 17 bytes of which the first is 0. -/
def encodeUuid (data : Bytes) : Bytes :=
  BitVec.ofNat 8 '@'.toNat ::
    data.tail.flatMap fun b => [hexChar (b.toNat / 16), hexChar (b.toNat % 16)]

/-- The bytes that pairs of hexadecimal digits print. -/
def decodePairs : Bytes → Bytes
  | c :: d :: cs =>
    ((hexToBin (c.toNat % 128) <<< 4) + hexToBin (d.toNat % 128)) :: decodePairs cs
  | [] | [_] => []

/-- `decode_uuid`. -/
def decodeUuid {σ : Type} (uuidstr : Bytes) : Proc σ Bytes := do
  if (cStr uuidstr).length ≠ 33 then Proc.halt .abort
  if uuidstr.head? ≠ some (BitVec.ofNat 8 '@'.toNat) then Proc.halt .abort
  return 0 :: decodePairs uuidstr.tail

/-! ## Messages -/

/-- `zmsg`: `m_part_data`. -/
abbrev Zmsg := List Bytes

namespace Zmsg

variable {σ : Type}

/-- The part that `recv` makes of a frame. -/
def recvPart (message : Bytes) : Bytes :=
  if message.length = 17 ∧ message.head? = some 0 then cStr (encodeUuid message) else message

/-- The loop of `recv`, which waits (`none`) when no frame is there. -/
def recvLoop (mPartData : Zmsg) : List (Frame Bytes) → Option (Zmsg × List (Frame Bytes))
  | [] => none
  | message :: frames =>
    if message.more then recvLoop (mPartData ++ [recvPart message.data]) frames
    else some (mPartData ++ [recvPart message.data], frames)

/-- `zmsg(zmq::socket_t &socket)`, which calls `recv`. -/
def ofSocket (frames : List (Frame Bytes)) : Option (Zmsg × List (Frame Bytes)) :=
  recvLoop [] frames

/-- A part in the loop of `send`. -/
def sendPart (data : Bytes) (more : Bool) : Proc (List (Frame Bytes)) Unit := do
  if data.length = 33 ∧ data.head? = some (BitVec.ofNat 8 '@'.toNat) then
    let uuidbin ← decodeUuid data
    modify (· ++ [⟨uuidbin, more⟩])
  else modify (· ++ [⟨data, more⟩])

/-- The loop of `send` over the parts that are left; all but the last are sent
    with `ZMQ_SNDMORE`. -/
def sendLoop : List Bytes → Proc (List (Frame Bytes)) Unit
  | [] => return
  | data :: parts => do
    sendPart data (!parts.isEmpty)
    sendLoop parts

/-- `send`, which begins with part 1. -/
def send (m : Zmsg) : Proc (List (Frame Bytes)) Unit := sendLoop (m.drop 1)

/-- `parts`. -/
def parts (m : Zmsg) : ℕ := m.length

/-- `push_front`. -/
def pushFront (m : Zmsg) (part : Bytes) : Zmsg := cStr part :: m

/-- `body_set`. -/
def bodySet (m : Zmsg) (body : Bytes) : Zmsg := m.dropLast ++ [cStr body]

/-- `body`, a null pointer when there is no part. -/
def body (m : Zmsg) : Option Bytes := m.getLast?.map cStr

/-- `pop_front`: without a part, a string is made from a null pointer. -/
def popFront : Zmsg → Proc σ (Bytes × Zmsg)
  | [] => Proc.halt .abort
  | part :: m => return (part, m)

/-- `wrap`. -/
def wrap (m : Zmsg) (address : Bytes) (delim : Option Bytes) : Zmsg :=
  (match delim with
    | some d => m.pushFront d
    | none => m).pushFront address

/-- `unwrap`: without a part, a string is made from a null pointer.  An empty
    part after the address is dropped. -/
def unwrap (m : Zmsg) : Proc σ (Bytes × Zmsg) := do
  if m.length = 0 then Proc.halt .abort
  let (addr, m) ← m.popFront
  match m with
  | part :: rest =>
    if cStr part = [] then return (cStr addr, rest)
    else return (cStr addr, m)
  | [] => return (cStr addr, m)

end Zmsg

/-! ## What the functions do -/

theorem zero_notMem_cStr (s : Bytes) : 0 ∉ cStr s := by
  intro h
  simpa using List.mem_takeWhile_imp h

theorem cStr_eq_self {s : Bytes} (h : 0 ∉ s) : cStr s = s :=
  List.takeWhile_eq_self_iff.2 fun b hb => by
    have hne : b ≠ 0 := fun h0 => h (h0 ▸ hb)
    simpa using hne

@[simp] theorem cStr_cStr (s : Bytes) : cStr (cStr s) = cStr s :=
  cStr_eq_self (zero_notMem_cStr s)

/-- A string is as long as its C string if it contains no null byte. -/
theorem length_cStr {s : Bytes} : (cStr s).length = s.length ↔ 0 ∉ s := by
  constructor
  · intro h
    have heq : cStr s = s := (List.takeWhile_prefix _).eq_of_length h
    exact heq ▸ zero_notMem_cStr s
  · intro h
    exact congrArg List.length (cStr_eq_self h)

/-- A part that `send` takes for a printed identity though it contains a null
    byte. -/
def Broken (part : Bytes) : Prop :=
  part.length = 33 ∧ part.head? = some (BitVec.ofNat 8 '@'.toNat) ∧ 0 ∈ part

instance (part : Bytes) : Decidable (Broken part) := inferInstanceAs (Decidable (_ ∧ _))

@[simp] theorem not_broken_cStr (s : Bytes) : ¬ Broken (cStr s) :=
  fun h => zero_notMem_cStr s h.2.2

@[simp] theorem not_broken_nil : ¬ Broken [] := by decide

/-- The frame that `send` makes of a part. -/
def sentFrame (part : Bytes) : Bytes :=
  if part.length = 33 ∧ part.head? = some (BitVec.ofNat 8 '@'.toNat) then
    0 :: decodePairs part.tail
  else part

/-- All of the parts can be sent. -/
def Sendable (parts : List Bytes) : Prop := ∀ part ∈ parts, ¬ Broken part

instance (parts : List Bytes) : Decidable (Sendable parts) :=
  inferInstanceAs (Decidable (∀ _ ∈ _, _))

@[simp] theorem sendable_nil : Sendable [] := by simp [Sendable]

@[simp] theorem sendable_cons {part : Bytes} {parts : List Bytes} :
    Sendable (part :: parts) ↔ ¬ Broken part ∧ Sendable parts := List.forall_mem_cons

namespace Zmsg

open Proc

variable {σ : Type} {Q : Bytes × Zmsg → σ → Prop} {E : σ → Prop} {s : σ} {part : Bytes} {m : Zmsg}

@[simp] theorem wp_popFront_nil : (popFront [] : Proc σ _).wp Q E s ↔ E s := Iff.rfl

@[simp] theorem wp_popFront_cons :
    (popFront (part :: m) : Proc σ _).wp Q E s ↔ Q (part, m) s := Iff.rfl

/-- What `unwrap` leaves after the address. -/
def unwrapped : Zmsg → Zmsg
  | part :: rest => if cStr part = [] then rest else part :: rest
  | [] => []

@[simp] theorem wp_unwrap_nil : (unwrap [] : Proc σ _).wp Q E s ↔ E s := Iff.rfl

theorem unwrap_cons (part : Bytes) (m : Zmsg) :
    (unwrap (part :: m) : Proc σ _) = pure (cStr part, unwrapped m) := by
  cases m with
  | nil => simp [unwrap, unwrapped, popFront]
  | cons part' rest => by_cases h : cStr part' = [] <;> simp [unwrap, unwrapped, popFront, h]

@[simp] theorem wp_unwrap_cons :
    (unwrap (part :: m) : Proc σ _).wp Q E s ↔ Q (cStr part, unwrapped m) s := by
  rw [unwrap_cons, wp_pure]

section
variable {R : σ → σ → Prop} [IsPreorder σ R]

theorem popFront_keeps : ∀ m : Zmsg, Keeps R (popFront m : Proc σ _)
  | [] => keeps_halt _
  | _ :: _ => keeps_pure _

theorem unwrap_keeps : ∀ m : Zmsg, Keeps R (unwrap m : Proc σ _)
  | [] => keeps_halt _
  | part :: m => by
    rw [unwrap_cons]
    exact keeps_pure _

end

/-- A part is sent unless it is broken. -/
theorem sendPart_wp (data : Bytes) (more : Bool) (fs : List (Frame Bytes)) :
    (sendPart data more).wp (fun _ fs' => fs' = fs ++ [⟨sentFrame data, more⟩] ∧ ¬ Broken data)
      (fun _ => Broken data) fs := by
  by_cases h : data.length = 33 ∧ data.head? = some (BitVec.ofNat 8 '@'.toNat)
  · by_cases h0 : 0#8 ∈ data
    · have hlen : (cStr data).length ≠ 33 := fun he => length_cStr.1 (he.trans h.1.symm) h0
      simp [sendPart, decodeUuid, Broken, h, hlen, h0]
    · have hlen : (cStr data).length = 33 := (length_cStr.2 h0).trans h.1
      simp [sendPart, decodeUuid, Broken, sentFrame, h, hlen, h0]
  · have hb : ¬ Broken data := fun hb => h ⟨hb.1, hb.2.1⟩
    simp only [sendPart, if_neg h, wp_modify, sentFrame, true_and]
    exact hb

/-- The loop of `send` puts the frames of a message on the socket. -/
theorem sendLoop_wp (parts : List Bytes) (fs : List (Frame Bytes)) :
    (sendLoop parts).wp
      (fun _ fs' => fs' = fs ++ Frame.encode (parts.map sentFrame) ∧ Sendable parts)
      (fun _ => ¬ Sendable parts) fs := by
  induction parts generalizing fs with
  | nil => simp [sendLoop, Frame.encode]
  | cons data parts ih =>
    rw [sendLoop, wp_bind]
    refine (sendPart_wp data _ fs).mono ?_ fun _ hd => by simp [hd]
    rintro _ _ ⟨rfl, hd⟩
    refine (ih _).mono ?_ fun _ h => by simp [h]
    rintro _ _ ⟨rfl, h⟩
    refine ⟨?_, by simp [hd, h]⟩
    rcases eq_or_ne parts [] with rfl | hne
    · simp [Frame.encode]
    · simp [Frame.encode_cons _ (mt List.map_eq_nil_iff.1 hne), hne]

/-- The frames that are on the socket when the loop of `send` returns. -/
theorem sendLoop_run_iff {parts frames : List Bytes} :
    (sendLoop parts).run [] = .ok () (Frame.encode frames) ↔
      frames = parts.map sentFrame ∧ Sendable parts := by
  have hwp := sendLoop_wp parts []
  cases hr : (sendLoop parts).run [] with
  | ok a fs =>
    obtain ⟨rfl, hs⟩ := (wp_ok hr).1 hwp
    rw [EStateM.Result.ok.injEq, List.nil_append, Frame.encode_inj, eq_comm (b := frames),
      and_iff_left hs]
    exact and_iff_right rfl
  | error e fs =>
    have hs := (wp_error hr).1 hwp
    exact iff_of_false (by simp) fun h => hs h.2

/-- A message is sent unless one of its parts after the first is broken. -/
theorem send_wp (m : Zmsg) (fs : List (Frame Bytes)) :
    (send m).wp (fun _ _ => Sendable (m.drop 1)) (fun _ => ¬ Sendable (m.drop 1)) fs :=
  (sendLoop_wp (m.drop 1) fs).mono (fun _ _ h => h.2) fun _ h => h

/-- A message is received part by part. -/
theorem ofSocket_encode {frames : List Bytes} (h : frames ≠ []) :
    ofSocket (Frame.encode frames) = some (frames.map recvPart, []) := by
  have hloop : ∀ (frames : List Bytes) (m : Zmsg), frames ≠ [] →
      recvLoop m (Frame.encode frames) = some (m ++ frames.map recvPart, []) := by
    intro frames
    induction frames with
    | nil => exact fun _ h => absurd rfl h
    | cons f frames ih =>
      intro m _
      rcases eq_or_ne frames [] with rfl | hne
      · simp [Frame.encode, recvLoop]
      · simp [Frame.encode_cons f hne, recvLoop, ih _ hne]
  simpa [ofSocket] using hloop frames [] h

end Zmsg

end ProxyBroker.Majordomo
