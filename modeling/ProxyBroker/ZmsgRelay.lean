/-
  Relaying a message through a `zmsg` (`zmsg.hpp`): `recv` prints binary
  identities, and `send` reads them back.

  * `decodePairs_encodeUuid`: what `encode_uuid` prints is read back.
  * `sentFrame_recvPart`: which frames come out as they went in.
  * `carried_recvPart`: which of them arrive as they are kept.
  * `uuid_coding`: `encode_uuid` and `decode_uuid` as a coding.
  * `relays_iff`: `send` begins with part 1, so no message is relayed.
-/
import ProxyBroker.Zmsg

namespace ProxyBroker.Majordomo

open Zmsg

/-! ## Printed identities -/

/-- A binary identity, which `recv` prints. -/
def Binary (frame : Bytes) : Prop := frame.length = 17 ∧ frame.head? = some 0

instance (frame : Bytes) : Decidable (Binary frame) := inferInstanceAs (Decidable (_ ∧ _))

/-- What `send` takes for a printed identity. -/
def Printed (part : Bytes) : Prop :=
  part.length = 33 ∧ part.head? = some (BitVec.ofNat 8 '@'.toNat)

instance (part : Bytes) : Decidable (Printed part) := inferInstanceAs (Decidable (_ ∧ _))

variable {frame part data : Bytes} {frames : List Bytes}

/-- The two digits of a byte give the byte. -/
theorem hexToBin_hexChar : ∀ b : Byte, (hexToBin ((hexChar (b.toNat / 16)).toNat % 128) <<< 4) +
    hexToBin ((hexChar (b.toNat % 16)).toNat % 128) = b := by decide +kernel

theorem hexChar_ne_zero : ∀ b : Byte, hexChar (b.toNat / 16) ≠ 0 ∧ hexChar (b.toNat % 16) ≠ 0 := by
  decide +kernel

/-- **What `encode_uuid` prints is read back.** -/
theorem decodePairs_encodeUuid (data : Bytes) :
    decodePairs (encodeUuid data).tail = data.tail := by
  simp only [encodeUuid, List.tail_cons]
  induction data.tail with
  | nil => rfl
  | cons b bs ih => simp [decodePairs, hexToBin_hexChar, ih]

theorem zero_notMem_encodeUuid (data : Bytes) : 0 ∉ encodeUuid data := by
  simp only [encodeUuid, List.mem_cons, List.mem_flatMap, not_or, not_exists, not_and]
  refine ⟨by decide, ?_⟩
  intro b _
  obtain ⟨hhi, hlo⟩ := hexChar_ne_zero b
  exact ⟨hhi.symm, hlo.symm, List.not_mem_nil⟩

theorem length_encodeUuid (data : Bytes) :
    (encodeUuid data).length = 2 * (data.length - 1) + 1 := by
  simp only [encodeUuid, List.length_cons, List.length_flatMap]
  simp [Nat.mul_comm]

theorem recvPart_of_binary (h : Binary frame) : recvPart frame = encodeUuid frame :=
  (if_pos h).trans (cStr_eq_self (zero_notMem_encodeUuid frame))

theorem recvPart_of_not_binary (h : ¬ Binary frame) : recvPart frame = frame := if_neg h

theorem Printed.not_binary (h : Printed part) : ¬ Binary part := by
  intro hb
  have hlen := h.1.symm.trans hb.1
  omega

/-- A binary identity is printed as one. -/
theorem Binary.printed (h : Binary frame) : Printed (encodeUuid frame) :=
  ⟨by rw [length_encodeUuid, h.1], rfl⟩

theorem sentFrame_of_printed (h : Printed part) : sentFrame part = 0 :: decodePairs part.tail :=
  if_pos h

theorem sentFrame_of_not_printed (h : ¬ Printed part) : sentFrame part = part := if_neg h

theorem length_decodePairs : ∀ cs : Bytes, (decodePairs cs).length = cs.length / 2
  | [] => rfl
  | [_] => by simp [decodePairs]
  | _ :: _ :: cs => by
    rw [decodePairs, List.length_cons, length_decodePairs cs, List.length_cons, List.length_cons]
    omega

/-- A printed identity is sent in 17 bytes. -/
theorem Printed.length_sentFrame (h : Printed part) : (sentFrame part).length = 17 := by
  rw [sentFrame_of_printed h, List.length_cons, length_decodePairs, List.length_tail, h.1]

/-! ## Frames that are relayed -/

/-- **A frame comes out as it went in** unless it looks like a printed
    identity already. -/
theorem sentFrame_recvPart :
    sentFrame (recvPart frame) = frame ∧ ¬ Broken (recvPart frame) ↔ ¬ Printed frame := by
  constructor
  · rintro ⟨hsent, -⟩ hp
    rw [recvPart_of_not_binary hp.not_binary] at hsent
    have hlen := hp.length_sentFrame
    rw [hsent, hp.1] at hlen
    omega
  · intro hp
    by_cases hb : Binary frame
    · obtain ⟨bs, rfl⟩ := List.head?_eq_some_iff.1 hb.2
      rw [recvPart_of_binary hb, sentFrame_of_printed hb.printed, decodePairs_encodeUuid]
      exact ⟨rfl, fun h => zero_notMem_encodeUuid _ h.2.2⟩
    · rw [recvPart_of_not_binary hb, sentFrame_of_not_printed hp]
      exact ⟨rfl, fun h => hp ⟨h.1, h.2.1⟩⟩

/-! ## Parts that arrive -/

/-- The digits that `encode_uuid` prints. -/
def hexDigits : Bytes :=
  lit ['0', '1', '2', '3', '4', '5', '6', '7', '8', '9', 'A', 'B', 'C', 'D', 'E', 'F']

/-- If the part looks like a printed identity, it is as `encode_uuid` prints
    it. -/
def Canonical (part : Bytes) : Prop := Printed part → ∀ c ∈ part.tail, c ∈ hexDigits

instance (part : Bytes) : Decidable (Canonical part) := inferInstanceAs (Decidable (_ → _))

theorem hexChar_mem : ∀ b : Byte, hexChar (b.toNat / 16) ∈ hexDigits ∧
    hexChar (b.toNat % 16) ∈ hexDigits := by decide +kernel

/-- The byte of two digits gives the digits. -/
theorem hexChar_hexToBin : ∀ c ∈ hexDigits, ∀ d ∈ hexDigits,
    hexChar (((hexToBin (c.toNat % 128) <<< 4) + hexToBin (d.toNat % 128)).toNat / 16) = c ∧
    hexChar (((hexToBin (c.toNat % 128) <<< 4) + hexToBin (d.toNat % 128)).toNat % 16) = d := by
  decide +kernel

/-- Digits that are read as bytes and printed again. -/
theorem flatMap_decodePairs : ∀ cs : Bytes, cs.length % 2 = 0 →
    (((decodePairs cs).flatMap fun b => [hexChar (b.toNat / 16), hexChar (b.toNat % 16)]) = cs ↔
      ∀ c ∈ cs, c ∈ hexDigits)
  | [], _ => by simp [decodePairs]
  | [_], h => by simp at h
  | c :: d :: cs, h => by
    have hlen : cs.length % 2 = 0 := by
      rw [List.length_cons, List.length_cons] at h
      omega
    have ih := flatMap_decodePairs cs hlen
    simp only [decodePairs, List.flatMap_cons, List.cons_append, List.nil_append, List.cons.injEq,
      ih, List.forall_mem_cons]
    constructor
    · rintro ⟨hc, hd, hcs⟩
      obtain ⟨h₁, h₂⟩ := hexChar_mem
        ((hexToBin (c.toNat % 128) <<< 4) + hexToBin (d.toNat % 128))
      exact ⟨hc ▸ h₁, hd ▸ h₂, hcs⟩
    · rintro ⟨hc, hd, hcs⟩
      obtain ⟨h₁, h₂⟩ := hexChar_hexToBin c hc d hd
      exact ⟨h₁, h₂, hcs⟩

/-- **Which strings are printed again** when they have been read. -/
theorem encodeUuid_decodePairs (h : Printed part) :
    encodeUuid (0 :: decodePairs part.tail) = part ↔ ∀ c ∈ part.tail, c ∈ hexDigits := by
  obtain ⟨cs, rfl⟩ := List.head?_eq_some_iff.1 h.2
  have hlen : cs.length = 32 := by simpa using h.1
  rw [encodeUuid, List.cons.injEq, and_iff_right rfl]
  exact flatMap_decodePairs cs (by rw [hlen])

/-- A part as it arrives. -/
def arrival (part : Bytes) : Bytes := recvPart (sentFrame part)

/-- The part arrives as it was passed to `send`. -/
def Carried (part : Bytes) : Prop := ¬ Broken part ∧ arrival part = part

theorem binary_decodePairs (h : Printed part) : Binary (0 :: decodePairs part.tail) := by
  refine ⟨?_, rfl⟩
  rw [← h.length_sentFrame, sentFrame_of_printed h]

/-- What looks like a printed identity arrives as one. -/
theorem arrival_of_printed (h : Printed part) :
    arrival part = encodeUuid (0 :: decodePairs part.tail) := by
  rw [arrival, sentFrame_of_printed h, recvPart_of_binary (binary_decodePairs h)]

theorem arrival_of_not_printed (h : ¬ Printed part) : arrival part = recvPart part := by
  rw [arrival, sentFrame_of_not_printed h]

/-- **A frame that has been received arrives again** exactly if it is not a
    misprinted identity. -/
theorem carried_recvPart : Carried (recvPart frame) ↔ Canonical frame := by
  by_cases hp : Printed frame
  · have hsame : arrival frame = frame ↔ ∀ c ∈ frame.tail, c ∈ hexDigits := by
      rw [arrival_of_printed hp, encodeUuid_decodePairs hp]
    rw [recvPart_of_not_binary hp.not_binary, Carried, Canonical, forall_prop_of_true hp, hsame]
    refine and_iff_right_of_imp fun hdigits hb => ?_
    obtain ⟨cs, rfl⟩ := List.head?_eq_some_iff.1 hp.2
    rcases List.mem_cons.1 hb.2.2 with h | h
    · exact absurd h (by decide)
    · exact absurd (hdigits 0 h) (by decide)
  · obtain ⟨hsent, hb⟩ := sentFrame_recvPart.2 hp
    exact iff_of_true ⟨hb, by rw [arrival, hsent]⟩ fun h => absurd h hp

/-- A part arrives as it was passed to `send` unless it is a binary identity or
    a misprinted one. -/
theorem carried_iff : Carried part ↔ Canonical part ∧ ¬ Binary part := by
  by_cases hb : Binary part
  · have hp : ¬ Printed part := fun hp => hp.not_binary hb
    refine iff_of_false (fun h => ?_) fun h => h.2 hb
    have hlen := congrArg List.length h.2
    rw [arrival_of_not_printed hp, recvPart_of_binary hb, hb.printed.1, hb.1] at hlen
    omega
  · rw [and_iff_left hb, ← carried_recvPart, recvPart_of_not_binary hb]

/-- A part without null bytes arrives in a form that arrives again. -/
theorem carried_arrival (h : 0 ∉ part) : 0 ∉ arrival part ∧ Carried (arrival part) := by
  by_cases hp : Printed part
  · have hb := binary_decodePairs hp
    have hcarried : Carried (recvPart (0 :: decodePairs part.tail)) :=
      carried_recvPart.2 fun h' => absurd hb h'.not_binary
    rw [arrival, sentFrame_of_printed hp]
    refine ⟨?_, hcarried⟩
    rw [recvPart_of_binary hb]
    exact zero_notMem_encodeUuid _
  · have hnb : ¬ Binary part := fun hb => h (List.mem_of_mem_head? hb.2)
    have hsame : arrival part = part := by
      rw [arrival_of_not_printed hp, recvPart_of_not_binary hnb]
    rw [hsame]
    exact ⟨h, fun hb => h hb.2.2, hsame⟩

/-- No frame that is sent is a misprinted identity. -/
theorem canonical_sentFrame : Canonical (sentFrame part) := by
  intro hp
  by_cases hpart : Printed part
  · have hlen := hpart.length_sentFrame
    rw [hp.1] at hlen
    omega
  · rw [sentFrame_of_not_printed hpart] at hp
    exact absurd hp hpart

/-- A part that has arrived arrives again as it is. -/
theorem arrival_arrival (part : Bytes) : arrival (arrival part) = arrival part :=
  (carried_recvPart.2 canonical_sentFrame).2

/-- A frame is received without null bytes if it has none, or is a binary
    identity. -/
theorem zero_notMem_recvPart : 0 ∉ recvPart frame ↔ Binary frame ∨ 0 ∉ frame := by
  by_cases hb : Binary frame
  · rw [recvPart_of_binary hb]
    exact iff_of_true (zero_notMem_encodeUuid frame) (Or.inl hb)
  · rw [recvPart_of_not_binary hb, or_iff_right hb]

theorem recvPart_eq_nil : recvPart frame = [] ↔ frame = [] := by
  by_cases hb : Binary frame
  · rw [recvPart_of_binary hb]
    refine iff_of_false (List.cons_ne_nil _ _) ?_
    rintro rfl
    cases hb.2
  · rw [recvPart_of_not_binary hb]

theorem arrival_eq_nil : arrival part = [] ↔ part = [] := by
  by_cases hp : Printed part
  · rw [arrival_of_printed hp]
    refine iff_of_false (List.cons_ne_nil _ _) ?_
    rintro rfl
    cases hp.2
  · rw [arrival_of_not_printed hp, recvPart_eq_nil]

/-- The parts of a message arrive as they were passed to `send`. -/
theorem carried_parts {parts : Zmsg} :
    (parts.map arrival = parts ∧ Sendable parts) ↔ ∀ part ∈ parts, Carried part := by
  have hall : parts.map arrival = parts ↔ ∀ part ∈ parts, arrival part = part := by
    conv_lhs => rhs; rw [← List.map_id parts]
    exact List.map_inj_left
  rw [hall, and_comm, Sendable, ← forall₂_and]
  rfl

/-! ## The coding -/

theorem decodeUuid_run {σ : Type} (h : Printed part) (h0 : 0 ∉ part) (s : σ) :
    (decodeUuid part).run s = .ok (0 :: decodePairs part.tail) s := by
  have hlen : (cStr part).length = 33 := (length_cStr.2 h0).trans h.1
  simp [decodeUuid, hlen, h.2]

/-- What has been printed is read as it was. -/
theorem decodePairs_of_binary (h : Binary data) :
    0 :: decodePairs (encodeUuid data).tail = data := by
  obtain ⟨bs, rfl⟩ := List.head?_eq_some_iff.1 h.2
  rw [decodePairs_encodeUuid, List.tail_cons]

/-- **`encode_uuid` and `decode_uuid` code identities**: an identity is read
    back as it was, a string is printed again exactly if it has only digits
    that `encode_uuid` prints, and each such string is printed of exactly one
    identity. -/
theorem uuid_coding {σ : Type} (s : σ) :
    (∀ data, Binary data → (decodeUuid (encodeUuid data)).run s = .ok data s) ∧
      (∀ uuidstr, Printed uuidstr → 0 ∉ uuidstr →
        ∃ data, Binary data ∧ (decodeUuid uuidstr).run s = .ok data s ∧
          (encodeUuid data = uuidstr ↔ ∀ c ∈ uuidstr.tail, c ∈ hexDigits)) ∧
      Set.BijOn encodeUuid {data | Binary data}
        {uuidstr | Printed uuidstr ∧ ∀ c ∈ uuidstr.tail, c ∈ hexDigits} := by
  refine ⟨fun data h => ?_, fun uuidstr h h0 => ?_, ?_⟩
  · rw [decodeUuid_run h.printed (zero_notMem_encodeUuid data), decodePairs_of_binary h]
  · exact ⟨_, binary_decodePairs h, decodeUuid_run h h0 s, encodeUuid_decodePairs h⟩
  · refine ⟨?_, ?_, ?_⟩
    · intro data h
      refine ⟨h.printed, (encodeUuid_decodePairs h.printed).1 ?_⟩
      rw [decodePairs_of_binary h]
    · intro data h data' h' heq
      rw [← decodePairs_of_binary h, heq, decodePairs_of_binary h']
    · intro uuidstr h
      exact ⟨_, binary_decodePairs h.1, (encodeUuid_decodePairs h.1).2 h.2⟩

/-- The identity of 16 bytes 0xAB. -/
theorem uuid_coding_one :
    let data : Bytes := 0 :: List.replicate 16 0xAB
    (decodeUuid (encodeUuid data)).run () = .ok data () ∧
      ∃ data', (decodeUuid (encodeUuid data)).run () = .ok data' () ∧
        (encodeUuid data' = encodeUuid data ↔ ∀ c ∈ (encodeUuid data).tail, c ∈ hexDigits) := by
  intro data
  obtain ⟨hread, hprint, -⟩ := uuid_coding ()
  obtain ⟨data', -, hrun, hiff⟩ := hprint (encodeUuid data) (by decide) (by decide)
  exact ⟨hread data (by decide), data', hrun, hiff⟩

/-! ## Messages -/

/-- The frames `out` come out when a message is received and sent on. -/
def Relays (frames : List Bytes) (out : List (Frame Bytes)) : Prop :=
  ∃ m, ofSocket (Frame.encode frames) = some (m, []) ∧ (send m).run [] = .ok () out

/-- What is sent on is made of the frames after the first. -/
theorem relays_encode {out : List Bytes} (h : frames ≠ []) :
    Relays frames (Frame.encode out) ↔
      out = (frames.drop 1).map (fun f => sentFrame (recvPart f)) ∧
        ∀ f ∈ frames.drop 1, ¬ Broken (recvPart f) := by
  have hmap : (frames.map recvPart).drop 1 = (frames.drop 1).map recvPart := List.map_drop.symm
  have hsend : Sendable ((frames.drop 1).map recvPart) ↔
      ∀ f ∈ frames.drop 1, ¬ Broken (recvPart f) := List.forall_mem_map
  simp only [Relays, ofSocket_encode h, Option.some.injEq, Prod.mk.injEq, and_true,
    exists_eq_left', send, hmap]
  rw [sendLoop_run_iff, hsend, List.map_map]
  rfl

/-- **No message is relayed**: its first frame is lost.  The frames after it
    come out unchanged exactly if none of them looks like a printed identity. -/
theorem relays_iff (h : frames ≠ []) :
    ¬ Relays frames (Frame.encode frames) ∧
      (Relays frames (Frame.encode (frames.drop 1)) ↔ ∀ f ∈ frames.drop 1, ¬ Printed f) := by
  constructor
  · intro hr
    have hlen := congrArg List.length ((relays_encode h).1 hr).1
    have hpos := List.length_pos_iff.2 h
    rw [List.length_map, List.length_drop] at hlen
    omega
  · have hall : frames.drop 1 = (frames.drop 1).map (fun f => sentFrame (recvPart f)) ↔
        ∀ f ∈ frames.drop 1, sentFrame (recvPart f) = f := by
      conv_lhs => lhs; rw [← List.map_id (frames.drop 1)]
      rw [List.map_inj_left]
      exact forall₂_congr fun f _ => eq_comm
    rw [relays_encode h, hall, ← forall₂_and]
    exact forall₂_congr fun f _ => sentFrame_recvPart

/-- A request of a client to `echo`, as it comes to the broker. -/
theorem relays_iff_request :
    let frames := [lit ['C', '1'], [], lit ['M', 'D', 'P', 'C', '0', '1'],
      lit ['e', 'c', 'h', 'o'], lit ['H', 'i']]
    ¬ Relays frames (Frame.encode frames) ∧
      (Relays frames (Frame.encode (frames.drop 1)) ↔ ∀ f ∈ frames.drop 1, ¬ Printed f) :=
  relays_iff (List.cons_ne_nil _ _)

/-- A message of one frame is received, and nothing is sent. -/
theorem relay_drops : ¬ ∀ frames : List Bytes, frames ≠ [] →
    Relays frames (Frame.encode frames) := by
  intro h
  obtain ⟨m, hm, hs⟩ := h [[65]] (List.cons_ne_nil _ _)
  obtain rfl : [[65]] = m := congrArg Prod.fst (Option.some.inj hm)
  cases hs

end ProxyBroker.Majordomo
