/-
  Messages over an SCTP connection (`SctpSocket::sctp_write` and `sctp_read`).

  SCTP hands a message on in pieces that fit the buffer of the reader.  The
  payload that `sctp_read` returns is the whole of its buffer, whatever the
  number of bytes read, so no message that reaches the reader comes out as it
  was sent (`readPieces_iff`).
-/
import ProxyBroker.SctpSocket
import ProxyBroker.Segments

namespace ProxyBroker

/-- The messages that the process has sent on the SCTP connection `sock`. -/
def Kernel.sctpSent (k : Kernel) (sock : Fd) : List (List Byte) :=
  k.sent.filterMap fun
    | .sctpSend s _ msg => if s = sock then some msg else none
    | _ => none

/-- `SctpClientEndpoint::SendMsg`. -/
def SctpClientEndpoint.sendMsg (ep : SctpClientEndpoint) (msg : List Byte) : Proc Kernel Unit :=
  ep.sctpSocket.sctpWrite msg

/-- `sctp_read` for each of the results `rs` of `sctp_recvmsg`, with what its
    buffer holds before. -/
def readPieces (rs : List (SctpRecv × Vector Byte (maxBuffer + 1))) :
    Proc Kernel (List (Option SctpMessageEnvelope)) :=
  rs.mapM fun r => SctpSocket.sctpRead (some r.1) r.2

/-- The payloads of the messages read, one after the other. -/
def payloads (msgs : List (Option SctpMessageEnvelope)) : List Byte :=
  (msgs.filterMap id).flatMap SctpMessageEnvelope.payload

variable {k k' : Kernel} {ep : SctpClientEndpoint} {msg : List Byte}
  {r : SctpRecv} {rs : List (SctpRecv × Vector Byte (maxBuffer + 1))}

theorem sctpSent_sendMsg (hk : k.Live ep.sctpSocket.sockFd)
    (hsend : (ep.sendMsg msg).run k = .ok () k') :
    k'.sctpSent ep.sctpSocket.sockFd = k.sctpSent ep.sctpSocket.sockFd ++ [msg] := by
  rw [SctpClientEndpoint.sendMsg, SctpSocket.sctpWrite_run, if_pos hk] at hsend
  cases hsend
  simp [Kernel.sctpSent]

theorem readPieces_run (hr : ∀ r ∈ rs, SctpSocket.Readable (some r.1)) (k : Kernel) :
    ∃ k', (readPieces rs).run k = .ok (rs.map fun r => some (envelope r.1 r.2)) k' :=
  Proc.run_mapM (fun r hm k => ⟨k, sctpRead_run (hr r hm) r.2⟩) k

theorem payloads_envelope : payloads (rs.map fun r => some (envelope r.1 r.2)) =
    (rs.map fun r => (envelope r.1 r.2).payload).flatten := by
  rw [payloads, List.filterMap_map]
  simp [Function.comp_def, List.flatMap_def]

/-- The payload has the size of the buffer. -/
theorem length_payload (hr : r.bytes.length ≤ maxBuffer) (buf : Vector Byte (maxBuffer + 1)) :
    (envelope r buf).payload.length = maxBuffer + 1 := by
  rw [envelope, List.length_append, List.length_drop, Vector.length_toList]
  omega

/-- So the payloads together are longer than what was sent. -/
theorem length_flatten_lt (hne : rs ≠ []) (hle : ∀ r ∈ rs, r.1.bytes.length ≤ maxBuffer) :
    (rs.map fun r => r.1.bytes).flatten.length <
      (rs.map fun r => (envelope r.1 r.2).payload).flatten.length := by
  have hlt : ∀ rs : List (SctpRecv × Vector Byte (maxBuffer + 1)),
      (∀ r ∈ rs, r.1.bytes.length ≤ maxBuffer) →
      (rs.map fun r => r.1.bytes).flatten.length + rs.length ≤
        (rs.map fun r => (envelope r.1 r.2).payload).flatten.length := by
    intro rs
    induction rs with
    | nil => simp
    | cons r rs ih =>
      intro hle
      have hr := hle r List.mem_cons_self
      have hrs := ih fun r hm => hle r (List.mem_cons_of_mem _ hm)
      simp only [List.map_cons, List.flatten_cons, List.length_append, List.length_cons,
        length_payload hr]
      omega
  have hpos := List.length_pos_iff.2 hne
  have := hlt rs hle
  omega

/-- **A message read from SCTP.**  However its bytes are handed to the reader,
    the payloads are the message that was sent only if there was nothing to
    send. -/
theorem readPieces_iff {kr : Kernel} (hk : k.Live ep.sctpSocket.sockFd)
    (hw : k.sctpSent ep.sctpSocket.sockFd = []) (hsend : (ep.sendMsg msg).run k = .ok () k')
    (hsegs : Segmentation maxBuffer (k'.sctpSent ep.sctpSocket.sockFd).flatten
      (rs.map fun r => r.1.bytes))
    (hr : ∀ r ∈ rs, SctpSocket.Readable (some r.1)) :
    (∃ msgs kr', (readPieces rs).run kr = .ok msgs kr' ∧ payloads msgs = msg) ↔ msg = [] := by
  obtain ⟨kr', hrun⟩ := readPieces_run hr kr
  have hflat : (rs.map fun r => r.1.bytes).flatten = msg := by
    rw [hsegs.flatten, sctpSent_sendMsg hk hsend, hw]
    simp
  constructor
  · rintro ⟨msgs, k'', hrun', hp⟩
    cases hrun.symm.trans hrun'
    rw [payloads_envelope] at hp
    by_contra hne
    have hrs : rs ≠ [] := by
      rintro rfl
      exact hne hflat.symm
    have hlt := length_flatten_lt hrs fun r hm => hsegs.bounded _ (List.mem_map_of_mem hm)
    rw [hp, hflat] at hlt
    exact lt_irrefl _ hlt
  · rintro rfl
    have hnil : rs = [] := by
      cases rs with
      | nil => rfl
      | cons r rs =>
        have hr := hsegs.nonempty r.1.bytes (by simp)
        simp only [List.map_cons, List.flatten_cons, List.append_eq_nil_iff] at hflat
        exact absurd hflat.1 hr
    subst hnil
    exact ⟨[], kr, rfl, rfl⟩

/-- An endpoint whose connection is descriptor 5, and the kernel with it. -/
def sender : SctpClientEndpoint := ⟨0, ⟨5⟩⟩

def sending : Kernel := Kernel.start.opened 5

/-- The two bytes of a message, and what its reader gets: one piece. -/
def greeting : List Byte := [104, 105]

def onePiece : List (SctpRecv × Vector Byte (maxBuffer + 1)) :=
  [(⟨greeting, some ⟨afInet, 0, 0⟩, none, 0⟩, .replicate (maxBuffer + 1) 0)]

theorem segmentation_onePiece : Segmentation maxBuffer
    ((sending.send (.sctpSend 5 1 greeting)).sctpSent 5).flatten
    (onePiece.map fun r => r.1.bytes) :=
  ⟨by decide, by decide, by decide⟩

theorem readable_onePiece : ∀ r ∈ onePiece, SctpSocket.Readable (some r.1) := by
  intro r hr
  cases List.mem_singleton.1 hr
  decide

theorem readPieces_iff_onePiece : (∃ msgs kr',
    (readPieces onePiece).run Kernel.start = .ok msgs kr' ∧ payloads msgs = greeting) ↔
      greeting = [] := by
  have hlive : sending.Live sender.sctpSocket.sockFd := by decide
  exact readPieces_iff hlive rfl rfl segmentation_onePiece readable_onePiece

/-- The two bytes come out as the whole buffer. -/
theorem readPieces_greeting :
    ¬ ∀ (k k' kr : Kernel) (ep : SctpClientEndpoint) (msg : List Byte)
      (rs : List (SctpRecv × Vector Byte (maxBuffer + 1))), k.Live ep.sctpSocket.sockFd →
      k.sctpSent ep.sctpSocket.sockFd = [] → (ep.sendMsg msg).run k = .ok () k' →
      Segmentation maxBuffer (k'.sctpSent ep.sctpSocket.sockFd).flatten
        (rs.map fun r => r.1.bytes) →
      (∀ r ∈ rs, SctpSocket.Readable (some r.1)) →
      ∃ msgs kr', (readPieces rs).run kr = .ok msgs kr' ∧ payloads msgs = msg := by
  intro h
  obtain ⟨msgs, kr', hrun, hp⟩ := h sending _ .start sender greeting onePiece (by decide) rfl rfl
    segmentation_onePiece readable_onePiece
  obtain ⟨kr'', hrun'⟩ := readPieces_run readable_onePiece Kernel.start
  cases hrun'.symm.trans hrun
  have hne : onePiece ≠ [] := List.cons_ne_nil _ _
  have hlt := length_flatten_lt hne fun r hr =>
    segmentation_onePiece.bounded _ (List.mem_map_of_mem hr)
  rw [payloads_envelope] at hp
  rw [hp] at hlt
  exact absurd hlt (by decide)

end ProxyBroker
