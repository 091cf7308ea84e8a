import Bora.DatagramLog

/-! The writes to the packet buffer: in `encode_fragment`, in `append_ack` and where `packet_send`
puts the port; and which packets leave room for all of them. -/
namespace Bora

open ByteMemory Checked

/-- `len` bytes from offset `off` of `SendData.data`. -/
structure PacketWrite where
  off : ℕ
  len : ℕ
deriving DecidableEq, Repr

namespace PacketWrite

def Fits (w : PacketWrite) : Prop := w.off + w.len ≤ packetSize

instance (w : PacketWrite) : Decidable w.Fits :=
  inferInstanceAs (Decidable (w.off + w.len ≤ packetSize))

theorem Fits.lt {w : PacketWrite} (h : w.Fits) {k : ℕ} (hk : k < w.len) : w.off + k < packetSize :=
  Nat.lt_of_lt_of_le (Nat.add_lt_add_left hk _) h

end PacketWrite

def encodeFragmentWrites (fragment : FragmentData) : List PacketWrite :=
  [⟨0, 1⟩, ⟨1, 2⟩, ⟨3, 4⟩, ⟨7, 2⟩, ⟨9, 2⟩, ⟨11, 2⟩, ⟨headerSize, fragment.length.toNat⟩]

def appendAckWrites (d : SendData) : List PacketWrite := [⟨d.length, ackSize⟩]

def numberedLength (d : SendData) : ℕ :=
  if hasBit d.flags needAck then d.length + ackSize else d.length

/-- The writes of `packet_send` from send_d on, those of `append_ack` among them. -/
def sendDWrites (d : SendData) (z : Bool) : List PacketWrite :=
  (if hasBit d.flags needAck then appendAckWrites d else []) ++ (if z then [⟨0, 1⟩] else []) ++
    if byteAt (wireBody d z) 0 = 0 then [] else [⟨numberedLength d, 2⟩]

def sendtoLength (d : SendData) (z : Bool) : ℕ :=
  numberedLength d + if byteAt (wireBody d z) 0 = 0 then 0 else 2

/-- The encoder fails where it writes behind the buffer, and nowhere else. -/
theorem encodeFragment_ok_iff (fragment : FragmentData) :
    (∃ d, encodeFragment fragment = .ok d) ↔ ∀ w ∈ encodeFragmentWrites fragment, w.Fits := by
  constructor
  · rintro ⟨d, hd⟩
    have hlen := (encodeFragment_ok hd).2
    simp only [encodeFragmentWrites, List.forall_mem_cons, PacketWrite.Fits]
    refine ⟨by decide, by decide, by decide, by decide, by decide, by decide, hlen, by simp⟩
  · intro h
    exact ⟨_, dif_pos (h ⟨headerSize, fragment.length.toNat⟩ (by simp [encodeFragmentWrites]))⟩

theorem numbered_length {d d' : SendData} {seq : UInt16} {z : Bool}
    (h : d'.data = wireBody d z ++ if hasBit d.flags needAck then store16 seq else []) :
    d'.length = numberedLength d := by
  rw [SendData.length, h, List.length_append, wireBody_length, numberedLength]
  split <;> simp [ackSize]

theorem sendD_length {n n' : NackTable} {d w : SendData} {tEnd : Timeval} {bandwidth : UInt64}
    {z : Bool} {natPort : UInt16} (hpos : 0 < d.length)
    (h : sendD n d tEnd bandwidth z natPort = .ok (n', w)) : w.length = sendtoLength d z := by
  have himage := (sendD_image hpos h).1
  rw [SendData.length, himage, List.length_append, List.length_append, wireBody_length]
  unfold sendtoLength numberedLength
  split <;> split <;> simp [ackSize]

/-- The writes of `packet_send` stay in the buffer exactly where the length at the end does. -/
theorem sendDWrites_fit_iff {d : SendData} (z : Bool) :
    (∀ w ∈ sendDWrites d z, w.Fits) ↔ sendtoLength d z ≤ packetSize := by
  have hflag : (⟨0, 1⟩ : PacketWrite).Fits := by decide
  have hfits := d.fits
  rw [← SendData.length] at hfits
  simp only [sendDWrites, List.forall_mem_append]
  have hz : ∀ w ∈ (if z then [⟨0, 1⟩] else [] : List PacketWrite), w.Fits := by
    cases z
    · simp
    · simpa using hflag
  rw [and_iff_left hz]
  unfold sendtoLength
  by_cases hask : hasBit d.flags needAck = true
  · by_cases hport : byteAt (wireBody d z) 0 = 0
    · simp [hask, hport, appendAckWrites, numberedLength, PacketWrite.Fits]
    · simp [hask, hport, appendAckWrites, numberedLength, PacketWrite.Fits]
      omega
  · by_cases hport : byteAt (wireBody d z) 0 = 0
    · simpa [hask, hport, numberedLength] using hfits
    · simp [hask, hport, numberedLength, PacketWrite.Fits]

theorem sendD_ok_iff (n : NackTable) {d : SendData} (hpos : 0 < d.length) (tEnd : Timeval)
    {bandwidth : UInt64} (hb : bandwidth ≠ 0) (z : Bool) (natPort : UInt16) :
    (∃ n' w, sendD n d tEnd bandwidth z natPort = .ok (n', w)) ↔ ∀ w ∈ sendDWrites d z, w.Fits := by
  rw [sendDWrites_fit_iff]
  constructor
  · rintro ⟨n', w, h⟩
    rw [← sendD_length hpos h]
    exact w.fits
  · intro hlen
    have hnumbered : ∃ n' d', numbered n d tEnd
        (UInt64.ofNat (1000000 * d.length) / bandwidth) = .ok (n', d') := by
      unfold numbered
      split
      · rename_i hask
        obtain ⟨d', hd', -⟩ := append_of_le (d := d) (b := store16 (n.seqNum + 1)) (by
          rw [sendtoLength, numberedLength, if_pos hask] at hlen
          rw [store16_length]
          exact le_trans (Nat.le_add_right _ _) hlen)
        exact ⟨_, d', by simp only [appendAck, hd', ok_bind]; rfl⟩
      · exact ⟨n, d, rfl⟩
    obtain ⟨n', d', hnum⟩ := hnumbered
    have himage := flagged_data hpos (numbered_image hnum).1 z
    have hlength := numbered_length himage
    have hflags : (if z then d'.setFlags (d'.flags ||| blockConsecutive) else d').flags =
        byteAt (wireBody d z) 0 := by
      rw [SendData.flags, himage, byteAt_append _ (by rw [wireBody_length]; exact hpos)]
    have hsleep : packetSleeptime bandwidth d =
        .ok (UInt64.ofNat (1000000 * d.length) / bandwidth) := if_neg hb
    simp only [sendD, hsleep, ok_bind, hnum]
    generalize (if z then d'.setFlags (d'.flags ||| blockConsecutive) else d') = d₁ at *
    rw [hflags]
    split
    · exact ⟨n', d₁, rfl⟩
    · rename_i hport
      obtain ⟨d₂, hd₂, -⟩ := append_of_le (d := d₁) (b := store16 natPort) (by
        rw [sendtoLength, if_neg hport] at hlen
        rw [hlength, store16_length]
        exact hlen)
      exact ⟨n', d₂, by rw [hd₂]; rfl⟩

/-- Number and port fit behind the packet. -/
def SendData.Roomy (d : SendData) : Prop := d.length + ackSize + 2 ≤ packetSize

namespace SendData

variable {d : SendData}

theorem Roomy.setFlags (h : d.Roomy) (f : UInt8) : (d.setFlags f).Roomy := by
  rw [Roomy, setFlags_length]
  exact h

theorem roomy_resent : KeptByResending Roomy := by
  intro d d' h hd
  rw [(resent_eq h).1]
  exact hd.setFlags _

theorem roomy_bogusData (addr : SockAddr) : (bogusData addr).Roomy := by
  simp only [Roomy, length, bogusData, List.length_cons, List.length_replicate]
  decide

theorem roomy_ackFor (seq cons : UInt16) (ts : Timeval) (addr : SockAddr) :
    (ackFor seq cons ts addr).Roomy := by
  show (AckPacket.bytes _).length + ackSize + 2 ≤ packetSize
  rw [AckPacket.bytes_length]
  decide

theorem roomy_encodeBw (bw : UInt32) (host : SockAddr) : ((encodeBw bw).setDest host).Roomy := by
  show (bwMsg :: store32 (htonl bw)).length + ackSize + 2 ≤ packetSize
  rw [List.length_cons, store32_length]
  decide

theorem roomy_sendRaw {messageString : Bytes} {host : Option UInt32} {portNum : ℤ}
    (h : sendRaw messageString host portNum = some d) : d.Roomy := by
  obtain ⟨hlen, hdata⟩ := sendRaw_some h
  rw [Roomy, length, hdata, List.length_cons]
  unfold ackSize packetSize
  omega

theorem Roomy.sends (h : d.Roomy) (z : Bool) :
    (∀ w ∈ sendDWrites d z, w.Fits) ∧ sendtoLength d z ≤ packetSize := by
  have hlen : sendtoLength d z ≤ packetSize := by
    unfold Roomy at h
    unfold sendtoLength numberedLength
    split <;> split <;> omega
  exact ⟨(sendDWrites_fit_iff z).mpr hlen, hlen⟩

theorem roomy_iff (hask : hasBit d.flags needAck = true) (z : Bool) :
    (∀ w ∈ sendDWrites d z, w.Fits) ↔ d.Roomy := by
  have hport := wireBody_ne_zero (ne_zero_of_hasBit hask) z
  rw [sendDWrites_fit_iff, sendtoLength, numberedLength, if_pos hask, if_neg hport]
  exact Iff.rfl

end SendData

end Bora
