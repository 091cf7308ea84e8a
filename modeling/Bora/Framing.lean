import Bora.Lengths
import Bora.PacketSend

/-! The trailers of a packet: what `packet_send` puts behind the body on the wire, and what
`packet_processor` takes off again before validators and decoders see it. -/
namespace Bora

open ByteMemory Checked Processing

/-- The body on the wire: the packet, flagged if it is the second of a pair. -/
def wireBody (d : SendData) (z : Bool) : Bytes :=
  if z then d.data.set 0 (d.flags ||| blockConsecutive) else d.data

@[simp] theorem wireBody_length (d : SendData) (z : Bool) : (wireBody d z).length = d.length := by
  cases z <;> simp [wireBody, SendData.length]

theorem data_ne_nil {d : SendData} (h : d.flags ≠ 0) : 0 < d.data.length := by
  by_contra hlen
  have hnil : d.data = [] := List.eq_nil_of_length_eq_zero (by omega)
  exact h (by simp [SendData.flags, hnil, byteAt])

theorem consecutive_ne_zero (f : UInt8) : f ||| blockConsecutive ≠ 0 :=
  flags_forall (P := fun f => f ||| blockConsecutive ≠ 0) (by decide +kernel) f

theorem hasBit_consecutive (f : UInt8) :
    hasBit (f ||| blockConsecutive) needAck = hasBit f needAck :=
  flags_forall (P := fun f => hasBit (f ||| blockConsecutive) needAck = hasBit f needAck)
    (by decide +kernel) f

theorem byteAt_append {m : Bytes} (rest : Bytes) (h : 0 < m.length) :
    byteAt (m ++ rest) 0 = byteAt m 0 := by
  simp [byteAt, List.getD_eq_getElem?_getD, List.getElem?_append_left h]

theorem wireBody_first {d : SendData} (h : 0 < d.length) (z : Bool) :
    byteAt (wireBody d z) 0 = if z then d.flags ||| blockConsecutive else d.flags := by
  rw [SendData.length] at h
  cases z
  · rfl
  · simp [wireBody, byteAt, List.getD_eq_getElem?_getD, h]

theorem wireBody_flags {d : SendData} (h : d.flags ≠ 0) (z : Bool) :
    byteAt (wireBody d z) 0 = if z then d.flags ||| blockConsecutive else d.flags :=
  wireBody_first (data_ne_nil h) z

theorem wireBody_ne_zero {d : SendData} (h : d.flags ≠ 0) (z : Bool) :
    byteAt (wireBody d z) 0 ≠ 0 := by
  rw [wireBody_flags h]
  cases z
  · exact h
  · exact consecutive_ne_zero _

theorem numbered_image {n n' : NackTable} {d d' : SendData} {tEnd : Timeval} {sleeptime : UInt64}
    (h : numbered n d tEnd sleeptime = .ok (n', d')) :
    d'.data = d.data ++ (if hasBit d.flags needAck then store16 n'.seqNum else []) ∧
      d'.dest = d.dest := by
  unfold numbered at h
  split at h
  · rename_i hbit
    obtain ⟨-, hdata, hdest, -⟩ := appendAck_ok h
    exact ⟨by rw [hdata, if_pos hbit], hdest⟩
  · rename_i hbit
    cases h
    exact ⟨by rw [if_neg hbit, List.append_nil], rfl⟩

theorem flagged_data {d d' : SendData} {rest : Bytes} (hpos : 0 < d.length)
    (h : d'.data = d.data ++ rest) (z : Bool) :
    (if z then d'.setFlags (d'.flags ||| blockConsecutive) else d').data =
      wireBody d z ++ rest := by
  have hdpos : 0 < d.data.length := hpos
  have hflags : d'.flags = d.flags := by
    rw [SendData.flags, h]
    exact byteAt_append _ hdpos
  cases z
  · exact h
  · simp only [if_true, SendData.setFlags_data, hflags, wireBody, h]
    rw [List.set_append_left _ _ hdpos]

/-- What `sendto` is given: body, number if one is wanted, port if there are flags. -/
theorem sendD_image {n n' : NackTable} {d w : SendData} {tEnd : Timeval} {bandwidth : UInt64}
    {z : Bool} {natPort : UInt16} (hpos : 0 < d.length)
    (h : sendD n d tEnd bandwidth z natPort = .ok (n', w)) :
    w.data = wireBody d z ++ (if hasBit d.flags needAck then store16 n'.seqNum else []) ++
        (if byteAt (wireBody d z) 0 = 0 then [] else store16 natPort) ∧ w.dest = d.dest := by
  obtain ⟨sleeptime, -, h⟩ := bind_eq_ok.mp h
  obtain ⟨⟨n₁, d₁⟩, hnum, h⟩ := bind_eq_ok.mp h
  obtain ⟨hdata, hdest⟩ := numbered_image hnum
  simp only at h
  have hz := flagged_data hpos hdata z
  have hzdest : (if z then d₁.setFlags (d₁.flags ||| blockConsecutive) else d₁).dest = d.dest := by
    cases z
    · exact hdest
    · exact hdest
  have hzflags : (if z then d₁.setFlags (d₁.flags ||| blockConsecutive) else d₁).flags =
      byteAt (wireBody d z) 0 := by
    rw [SendData.flags, hz, byteAt_append _ (by rw [wireBody_length]; exact hpos)]
  generalize (if z then d₁.setFlags (d₁.flags ||| blockConsecutive) else d₁) = d₂ at *
  rw [hzflags] at h
  split at h
  · rename_i hzero
    cases h
    exact ⟨by rw [hz, if_pos hzero, List.append_nil], hzdest⟩
  · rename_i hne
    obtain ⟨d₃, happ, h⟩ := bind_eq_ok.mp h
    obtain ⟨hdata₃, hdest₃⟩ := SendData.append_ok happ
    cases h
    exact ⟨by rw [hdata₃, hz, if_neg hne], hdest₃.trans hzdest⟩

theorem sendD_wire {n n' : NackTable} {d w : SendData} {tEnd : Timeval} {bandwidth : UInt64}
    {z : Bool} {natPort : UInt16} (hf : d.flags ≠ 0)
    (h : sendD n d tEnd bandwidth z natPort = .ok (n', w)) :
    w.data = wireBody d z ++ (if hasBit d.flags needAck then store16 n'.seqNum else []) ++
        store16 natPort ∧ w.dest = d.dest := by
  obtain ⟨hdata, hdest⟩ := sendD_image (data_ne_nil hf) h
  exact ⟨by rw [hdata, if_neg (wireBody_ne_zero hf z)], hdest⟩

/-- The length that the validators are given: in front of the number, if one is expected. -/
def seenLength (p : Processing) : ℕ :=
  if hasBit p.data.flags needAck then subSize p.data.buflen ackSize else p.data.buflen

/-- Numbering only takes bytes off; what the decoders get is what the validators saw, if they
accepted it. -/
theorem needAckStage_kept (p : Processing)
    (h : hasBit p.data.flags needAck = true → validateBlock p.data.buf (seenLength p) = true) :
    p.needAckStage.data.buf = p.data.buf ∧ p.needAckStage.data.buflen = seenLength p ∧
      p.needAckStage.data.source = p.data.source := by
  unfold seenLength at h ⊢
  by_cases hbit : hasBit p.data.flags needAck = true
  · have hvalid := h hbit
    rw [if_pos hbit] at hvalid ⊢
    rw [needAckStage_asked hbit hvalid, (answer_frame _).1]
    exact ⟨rfl, rfl, rfl⟩
  · rw [needAckStage_unasked (Bool.eq_false_iff.mpr hbit), if_neg hbit]
    exact ⟨rfl, rfl, rfl⟩

/-- The trailer taken off is the one put on: `p` is the datagram behind the port stage, `n'`
the sender's table after it numbered the packet. -/
structure Unframed (d : SendData) (z : Bool) (n' : NackTable) (portN : UInt16)
    (data : IncomingData) (p : Processing) : Prop where
  body : p.data.buf.take d.length = wireBody d z
  length : seenLength p = d.length
  seq : hasBit d.flags needAck = true → stripAck p.data.buf p.data.buflen = n'.seqNum
  port : p.data.source.sin_port = if portN = 0 then data.source.sin_port else setNatPort portN
  host : p.data.source.sin_addr = data.source.sin_addr
  decoded : (hasBit d.flags needAck = true → validateBlock p.data.buf d.length = true) →
    p.needAckStage.data.buf = p.data.buf ∧ p.needAckStage.data.buflen = d.length ∧
      p.needAckStage.data.source = p.data.source

theorem portByte_zero_iff (portN : UInt16) : UInt8.ofNat (portN.toNat / 256) = 0 ↔ portN < 256 := by
  have hp := portN.toNat_lt
  rw [← UInt8.toNat_inj, UInt8.toNat_ofNat', UInt16.lt_iff_toNat_lt]
  simp
  omega

theorem subSize_two_ne {a : ℕ} (h : a ≤ packetSize) : subSize a 2 ≠ a ∨ a = 0 := by
  unfold subSize packetSize at *
  split <;> omega

section Framing

variable {n n' : NackTable} {d w : SendData} {tEnd : Timeval} {bandwidth : UInt64} {z : Bool}
  {portN : UInt16}

/-- A datagram that carries the bytes of `w`, with anything behind them in the buffer. -/
def Carries (data : IncomingData) (w : SendData) : Prop :=
  data.buflen = w.data.length ∧ ∃ rest, data.buf = w.data ++ rest

/-- What is known of a datagram that carries the wire image of `d`. -/
structure WireImage (d : SendData) (z : Bool) (n' : NackTable) (portN : UInt16)
    (data : IncomingData) : Prop where
  buflen : data.buflen = d.length + (if hasBit d.flags needAck = true then 2 else 0) + 2
  buf : ∃ rest, data.buf = wireBody d z ++
    ((if hasBit d.flags needAck = true then store16 n'.seqNum else []) ++
      (store16 (setNatPort portN) ++ rest))
  flags : data.flags = if z then d.flags ||| blockConsecutive else d.flags

theorem wireImage_of_carries (hf : d.flags ≠ 0)
    (h : sendD n d tEnd bandwidth z (setNatPort portN) = .ok (n', w)) {data : IncomingData}
    (hdata : Carries data w) : WireImage d z n' portN data := by
  obtain ⟨hlen, rest, hbuf⟩ := hdata
  have hw := (sendD_wire hf h).1
  rw [hw, List.append_assoc, List.append_assoc] at hbuf
  refine ⟨?_, ⟨rest, hbuf⟩, ?_⟩
  · rw [hlen, hw, List.length_append, List.length_append, wireBody_length, store16_length]
    split <;> simp
  · rw [IncomingData.flags, hbuf, byteAt_append _ (by rw [wireBody_length]; exact data_ne_nil hf),
      wireBody_flags hf]

section WireImage

variable {data : IncomingData}

theorem WireImage.flags_ne (h : WireImage d z n' portN data) (hf : d.flags ≠ 0) :
    data.flags ≠ 0 := by
  rw [h.flags]
  cases z
  · exact hf
  · exact consecutive_ne_zero _

theorem WireImage.asks (h : WireImage d z n' portN data) :
    hasBit data.flags needAck = hasBit d.flags needAck := by
  rw [h.flags]
  cases z
  · rfl
  · exact hasBit_consecutive _

theorem WireImage.body (h : WireImage d z n' portN data) :
    data.buf.take d.length = wireBody d z := by
  obtain ⟨rest, hbuf⟩ := h.buf
  rw [hbuf, List.take_append_of_le_length (by rw [wireBody_length]), List.take_of_length_le]
  rw [wireBody_length]

/-- The port byte is the high byte of the port, which stands first on the wire. -/
theorem WireImage.portByte (h : WireImage d z n' portN data) :
    data.portByte = UInt8.ofNat (portN.toNat / 256) := by
  obtain ⟨rest, hbuf⟩ := h.buf
  have hport : store16 (setNatPort portN) =
      [UInt8.ofNat (portN.toNat / 256), UInt8.ofNat (portN.toNat % 256)] := store16_htons portN
  have hlen : (wireBody d z ++ if hasBit d.flags needAck = true then store16 n'.seqNum
      else []).length = data.buflen - 2 := by
    rw [h.buflen, List.length_append, wireBody_length]
    split <;> simp
  rw [IncomingData.portByte, hbuf, hport, ← List.append_assoc, byteAt, List.getD_eq_getElem?_getD,
    List.getElem?_append_right (le_of_eq hlen), hlen, Nat.sub_self]
  rfl

theorem WireImage.number (h : WireImage d z n' portN data) (hb : hasBit d.flags needAck = true) :
    stripAck data.buf (d.length + 2) = n'.seqNum := by
  obtain ⟨rest, hbuf⟩ := h.buf
  rw [stripAck, subSize_of_le (by omega), Nat.add_sub_cancel, hbuf, if_pos hb,
    load16_append _ _ _ (by rw [wireBody_length]), wireBody_length, Nat.sub_self]
  exact load16_store16 _ _

theorem WireImage.below (h : WireImage d z n' portN data) (hf : d.flags ≠ 0) (hport : portN < 256)
    (node : Node) : Unframed d z n' portN data (⟨node, data, [], none⟩ : Processing).portStage ↔
      portN = 0 ∨ data.source.sin_port = setNatPort portN := by
  have hlen := h.buflen
  have hzero : data.portByte = 0 := by
    rw [h.portByte]
    exact (portByte_zero_iff portN).mpr hport
  obtain ⟨-, hpflags, hpbuf, -, hstay, -⟩ :=
    portStage_eq (p := ⟨node, data, [], none⟩) (h.flags_ne hf) (by simp only; omega)
  obtain ⟨hplen, hpsource, -⟩ := hstay hzero
  simp only at hpflags hpbuf hplen hpsource
  have hseen : seenLength (⟨node, data, [], none⟩ : Processing).portStage = d.length := by
    unfold seenLength
    rw [hpflags, h.asks, hplen, hlen]
    split
    · rw [subSize_of_le (by simp only [ackSize]; omega)]
      simp only [ackSize]
      omega
    · omega
  constructor
  · intro hun
    have hsource := hun.port
    rw [hpsource] at hsource
    by_cases hz : portN = 0
    · exact Or.inl hz
    · rw [if_neg hz] at hsource
      exact Or.inr hsource
  · intro hcond
    refine ⟨by rw [hpbuf]; exact h.body, hseen, ?_, ?_, by rw [hpsource], ?_⟩
    · intro hb
      rw [hpbuf, hplen, hlen, if_pos hb]
      exact h.number hb
    · rw [hpsource]
      by_cases hz : portN = 0
      · rw [if_pos hz]
      · rw [if_neg hz]
        exact hcond.resolve_left hz
    · intro hvalid
      have hkept := needAckStage_kept (⟨node, data, [], none⟩ : Processing).portStage
        (by rw [hpflags, h.asks, hseen]; exact hvalid)
      rw [hseen] at hkept
      exact hkept

theorem WireImage.above (h : WireImage d z n' portN data) (hf : d.flags ≠ 0)
    (hport : ¬ portN < 256) (node : Node) :
    ¬ Unframed d z n' portN data (⟨node, data, [], none⟩ : Processing).portStage := by
  have hlen := h.buflen
  have hpos : 0 < d.length := data_ne_nil hf
  have hne : data.portByte ≠ 0 := by
    rw [h.portByte]
    exact fun hz => hport ((portByte_zero_iff portN).mp hz)
  obtain ⟨-, hpflags, -, -, -, hset⟩ :=
    portStage_eq (p := ⟨node, data, [], none⟩) (h.flags_ne hf) (by simp only; omega)
  have hplen := (hset hne).1
  simp only at hpflags hplen
  intro hun
  have hseen := hun.length
  unfold seenLength at hseen
  rw [hpflags, h.asks, hplen, hlen] at hseen
  have hsub : subSize d.length 2 ≠ d.length := (subSize_two_ne d.fits).resolve_right hpos.ne'
  by_cases hb : hasBit d.flags needAck = true
  · have hle : 2 ≤ d.length + 2 := Nat.le_add_left 2 _
    rw [if_pos hb, if_pos hb, Nat.add_sub_cancel, subSize_of_le hle, Nat.add_sub_cancel] at hseen
    exact hsub hseen
  · rw [if_neg hb, if_neg hb, Nat.add_sub_cancel] at hseen
    exact hsub hseen

end WireImage

/-- For every packet with flags, every number, every port and every datagram that carries its
wire image: the trailer taken off is the one put on exactly when no port is announced, or one
below 256 that the datagram comes from anyway. -/
theorem unframed_iff (hf : d.flags ≠ 0)
    (h : sendD n d tEnd bandwidth z (setNatPort portN) = .ok (n', w)) {data : IncomingData}
    (hdata : Carries data w) (node : Node) :
    Unframed d z n' portN data (⟨node, data, [], none⟩ : Processing).portStage ↔
      portN = 0 ∨ portN < 256 ∧ data.source.sin_port = setNatPort portN := by
  have himage := wireImage_of_carries hf h hdata
  by_cases hport : portN < 256
  · rw [himage.below hf hport node]
    constructor
    · exact Or.imp_right (fun hsource => ⟨hport, hsource⟩)
    · exact Or.imp_right And.right
  · constructor
    · intro hun
      exact absurd hun (himage.above hf hport node)
    · rintro (hz | ⟨hlt, -⟩)
      · rw [hz] at hport
        exact absurd (by decide) hport
      · exact absurd hlt hport

end Framing

def twoByteFragment : SendData where
  data := fragmentPacket blkBlockAck ⟨1, 1, 0, 1, 2, [8, 9], rfl⟩
  dest := ⟨1, 1⟩
  fits := by decide

theorem unframed_first :
    ∃ n w, sendD NackTable.init twoByteFragment default 1000000 false (setNatPort 0) = .ok (n, w) ∧
      ∀ data, Carries data w → ∀ node,
        Unframed twoByteFragment false n 0 data (⟨node, data, [], none⟩ : Processing).portStage := by
  have hbit : hasBit twoByteFragment.flags needAck = true := by decide
  have hsend : (sendD NackTable.init twoByteFragment default 1000000 false
      (setNatPort 0)).toOption.isSome = true := by decide +kernel
  cases hr : sendD NackTable.init twoByteFragment default 1000000 false (setNatPort 0) with
  | error e => simp [hr, Except.toOption] at hsend
  | ok r =>
    refine ⟨r.1, r.2, rfl, fun data hdata node => ?_⟩
    exact (unframed_iff (by decide) hr hdata node).mpr (Or.inl rfl)

/-- With port 4660 the body arrives without its last two bytes, whatever it comes from. -/
theorem framing_loses_bytes :
    let data := slotOf (fragmentPacket blkBlockAck ⟨1, 1, 0, 1, 2, [8, 9], rfl⟩ ++ store16 1 ++
      store16 (setNatPort 4660)) (by decide)
    (sendD NackTable.init twoByteFragment default 1000000 false (setNatPort 4660)).toOption.map
        (fun r => (r.1.seqNum, r.2.data)) = some (1, data.buf.take data.buflen) ∧
      seenLength (⟨Node.init, data, [], none⟩ : Processing).portStage + 2 =
        twoByteFragment.length ∧
      ∀ n, ¬ Unframed twoByteFragment false n 4660 data
        (⟨Node.init, data, [], none⟩ : Processing).portStage := by
  have hseen : seenLength (⟨Node.init, slotOf (fragmentPacket blkBlockAck
      ⟨1, 1, 0, 1, 2, [8, 9], rfl⟩ ++ store16 1 ++ store16 (setNatPort 4660)) (by decide), [],
      none⟩ : Processing).portStage = 13 := by decide +kernel
  have hlen : twoByteFragment.length = 15 := by decide
  refine ⟨by decide +kernel, by rw [hseen, hlen], fun n hun => ?_⟩
  have hlength := hun.length
  rw [hseen, hlen] at hlength
  exact absurd hlength (by decide)

end Bora
