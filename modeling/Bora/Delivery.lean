import Bora.Framing
import Bora.Retransmission

/-! What `packet_processor` does with the two kinds of datagrams that nodes without a port of
their own exchange: a numbered fragment is answered and stored, and an acknowledgement is
handed to `pop_ack` and `ack_received`. -/
namespace Bora

open ByteMemory Checked Processing

/-- BLK_BLOCK_ACK under the two marks the sender may add. -/
def AckFlags (f : UInt8) : Prop :=
  f &&& blockMaskConsecutive &&& blockMaskRetransmission = blkBlockAck

instance (f : UInt8) : Decidable (AckFlags f) :=
  inferInstanceAs (Decidable (f &&& blockMaskConsecutive &&& blockMaskRetransmission = blkBlockAck))

theorem ackFlags_bits {f : UInt8} (h : AckFlags f) :
    fragmentFlags f = true ∧ hasBit f needAck = true ∧
      f &&& maskBlockAck &&& blockMaskConsecutive &&& blockMaskRetransmission = 0 ∧
      AckFlags (f ||| blockConsecutive) ∧ AckFlags (resentFlags f) := by
  revert h
  exact flags_forall (P := fun f =>
    f &&& blockMaskConsecutive &&& blockMaskRetransmission = blkBlockAck →
      fragmentFlags f = true ∧ hasBit f needAck = true ∧
      f &&& maskBlockAck &&& blockMaskConsecutive &&& blockMaskRetransmission = 0 ∧
      (f ||| blockConsecutive) &&& blockMaskConsecutive &&& blockMaskRetransmission = blkBlockAck ∧
      resentFlags f &&& blockMaskConsecutive &&& blockMaskRetransmission = blkBlockAck)
    (by decide +kernel) f

theorem fragmentFlags_bits {f : UInt8} (h : fragmentFlags f = true) :
    hasBit f blkBlock = true ∧ hasBit f blkAck = false ∧ hasBit f bwMsg = false ∧ f ≠ 0 := by
  simp only [fragmentFlags, Bool.and_eq_true, Bool.not_eq_true'] at h
  refine ⟨h.1.1, h.1.2, h.2, ?_⟩
  rintro rfl
  exact absurd h.1.1 (by decide)

/-- The buffer holds `body` and behind it the trailer of a node without a port. -/
structure Arrives (data : IncomingData) (body : Bytes) : Prop where
  buflen : data.buflen = body.length + 2
  buf : ∃ rest, data.buf = body ++ (store16 0 ++ rest)

section Arrives

variable {data : IncomingData} {body : Bytes}

theorem Arrives.flags (h : Arrives data body) (hpos : 0 < body.length) :
    data.flags = byteAt body 0 := by
  obtain ⟨rest, hbuf⟩ := h.buf
  rw [IncomingData.flags, hbuf, byteAt_append _ hpos]

theorem Arrives.portStage (h : Arrives data body) (hpos : 0 < body.length)
    (hf : byteAt body 0 ≠ 0) (node : Node) :
    (⟨node, data, [], none⟩ : Processing).portStage =
      (⟨node, data, [], none⟩ : Processing).sub 2 := by
  have hlen := h.buflen
  apply portStage_zero
  · show data.flags ≠ 0
    rwa [h.flags hpos]
  · show 1 < data.buflen
    omega
  · obtain ⟨rest, hbuf⟩ := h.buf
    have hidx : data.buflen - 2 = body.length := by omega
    have hzero : store16 0 = [0, 0] := rfl
    simp [IncomingData.portByte, hidx, hbuf, byteAt, hzero, List.getD_eq_getElem?_getD]

theorem Arrives.subLen (h : Arrives data body) (node : Node) :
    ((⟨node, data, [], none⟩ : Processing).sub 2).data.buflen = body.length := by
  have hlen := h.buflen
  rw [sub_buflen, subSize_of_le (by simp only; omega)]
  simp only
  omega

end Arrives

theorem andThen_none {p : Processing} (h : p.fault = none) (stage : Processing → Processing) :
    p.andThen stage = stage p := by
  simp only [andThen, h]

theorem fragmentAdded_frame (p : Processing) (fragment : FragmentData) (r : AddResult) :
    (p.fragmentAdded fragment r).node.cache = p.node.cache ∧
      (p.fragmentAdded fragment r).node.ack = p.node.ack ∧
      (p.fragmentAdded fragment r).fault = p.fault := by
  cases r with
  | added =>
    simp only [fragmentAdded]
    split <;> exact ⟨rfl, rfl, rfl⟩
  | duplicate => exact ⟨rfl, rfl, rfl⟩
  | fragmentsMismatch => exact ⟨rfl, rfl, rfl⟩
  | fragmentidOutOfBounds => exact ⟨rfl, rfl, rfl⟩
  | badLen => exact ⟨rfl, rfl, rfl⟩

def ackFor (seq cons : UInt16) (ts : Timeval) (addr : SockAddr) : SendData :=
  (appendAckTs (appendAckCons (encodeAck seq) cons) ts).sendData addr

theorem queueOf_ackFor (seq cons : UInt16) (ts : Timeval) (addr : SockAddr) :
    queueOf (ackFor seq cons ts addr) = .prio := by
  have hflags : (ackFor seq cons ts addr).flags = blkAck := rfl
  have hbit : hasBit blkAck blkAck = true := by decide
  simp [queueOf, hflags, hbit]

section Fragments

variable {p : Processing} {flags : UInt8} {f : FragmentData} {seq cons : UInt16} {rest : Bytes}

/-- What is known of a numbered fragment before and behind the stage of the port. -/
theorem Arrives.numbered {data : IncomingData} (hf : AckFlags flags)
    (h : Arrives data (fragmentPacket flags f ++ store16 seq)) (node : Node) :
    data.flags = flags ∧ 1 < data.buflen ∧
      (⟨node, data, [], none⟩ : Processing).portStage =
        (⟨node, data, [], none⟩ : Processing).sub 2 ∧
      ((⟨node, data, [], none⟩ : Processing).sub 2).data.buflen =
        headerSize + f.length.toNat + 2 ∧
      ∃ rest, data.buf = fragmentPacket flags f ++ (store16 seq ++ (store16 0 ++ rest)) := by
  have hne := (fragmentFlags_bits (ackFlags_bits hf).1).2.2.2
  have hbody : (fragmentPacket flags f ++ store16 seq).length =
      headerSize + f.length.toNat + 2 := by
    rw [List.length_append, fragmentPacket_length, store16_length]
  have hpos : 0 < (fragmentPacket flags f ++ store16 seq).length := by omega
  have hfirst : byteAt (fragmentPacket flags f ++ store16 seq) 0 = flags := by simp
  obtain ⟨rest, hbuf⟩ := h.buf
  rw [List.append_assoc] at hbuf
  exact ⟨(h.flags hpos).trans hfirst, by rw [h.buflen]; omega,
    h.portStage hpos (by rw [hfirst]; exact hne) node, (h.subLen node).trans hbody, rest, hbuf⟩

theorem needAckStage_fragment (hf : AckFlags flags)
    (hbuf : p.data.buf = fragmentPacket flags f ++ (store16 seq ++ rest))
    (hlen : p.data.buflen = headerSize + f.length.toNat + 2)
    (hcons : getConsecutives p.node.cache f.fragmentID = .ok cons) :
    p.needAckStage = ((((p.noteSub ackSize).sub ackSize).addStat .data ackSize).sendData
      (ackFor seq cons p.data.tv p.data.source)) := by
  obtain ⟨hfrag, hask, hmask, -, -⟩ := ackFlags_bits hf
  have hblk := (fragmentFlags_bits hfrag).1
  have hflags : p.data.flags = flags := by
    rw [IncomingData.flags, hbuf]
    exact fragmentPacket_flags flags f _
  have hsub : subSize p.data.buflen ackSize = headerSize + f.length.toNat := by
    rw [hlen, subSize_of_le (by simp [ackSize])]
    rfl
  have hvalid : validateBlock p.data.buf (subSize p.data.buflen ackSize) = true := by
    rw [hsub, hbuf]
    exact validateBlock_packet hmask f _
  have hstrip : stripAck p.data.buf p.data.buflen = seq := by
    rw [stripAck, show subSize p.data.buflen 2 = _ from hsub, hbuf, load16_append _ _ _ (by simp)]
    simp
  have hid : getFragmentId p.data.buf (subSize p.data.buflen ackSize) = f.fragmentID := by
    rw [hsub, hbuf]
    exact getFragmentId_packet hblk f _
  rw [needAckStage_asked (hflags ▸ hask) hvalid, hstrip, answer]
  have hcount : getConsecutives (((p.noteSub ackSize).sub ackSize).addStat .data ackSize).node.cache
      (getFragmentId (((p.noteSub ackSize).sub ackSize).addStat .data ackSize).data.buf
        (((p.noteSub ackSize).sub ackSize).addStat .data ackSize).data.buflen) = .ok cons := by
    show getConsecutives p.node.cache
      (getFragmentId p.data.buf (subSize p.data.buflen ackSize)) = .ok cons
    rw [hid, hcons]
  simp only [hcount]
  rfl

theorem blockStage_fragment (hf : AckFlags flags)
    (hbuf : p.data.buf = fragmentPacket flags f ++ rest)
    (hlen : p.data.buflen = headerSize + f.length.toNat) (junk : UInt16) {cache : Cache}
    {r : AddResult}
    (hadd : addfragment p.node.cache f p.data.source p.data.tv junk = .ok (cache, r)) :
    p.blockStage junk = fragmentAdded { p with node := { p.node with cache := cache } } f r := by
  obtain ⟨hfrag, -, hmask, -, -⟩ := ackFlags_bits hf
  have hblk := (fragmentFlags_bits hfrag).1
  have hflags : p.data.flags = flags := by
    rw [IncomingData.flags, hbuf]
    exact fragmentPacket_flags flags f _
  have hvalid : validateBlock p.data.buf p.data.buflen = true := by
    rw [hlen, hbuf]
    exact validateBlock_packet hmask f _
  have hdec : decodeFragment p.data.buf p.data.buflen = some f := by
    rw [hlen, hbuf]
    exact decodeFragment_packet hblk f _
  simp [blockStage, hflags, hblk, hvalid, hdec, hadd]

/-- A numbered fragment is answered out of the cache as it was, and then stored. -/
theorem packetProcessor_fragment {node : Node} {data : IncomingData} (junk : UInt16)
    (hf : AckFlags flags) (h : Arrives data (fragmentPacket flags f ++ store16 seq))
    (hcons : getConsecutives node.cache f.fragmentID = .ok cons) {cache : Cache} {r : AddResult}
    (hadd : addfragment node.cache f data.source data.tv junk = .ok (cache, r)) :
    (packetProcessor node data junk).fault = none ∧
      (packetProcessor node data junk).node.cache = cache ∧
      (packetProcessor node data junk).node.ack = node.ack.setQueues
        (node.ack.queues.sendData (ackFor seq cons data.tv data.source)).1 := by
  obtain ⟨-, hnack, hnbw, -⟩ := fragmentFlags_bits (ackFlags_bits hf).1
  obtain ⟨hflags, hbuflen, hport, hlen, rest, hbuf⟩ := h.numbered hf node
  have hfault₀ : ((⟨node, data, [], none⟩ : Processing).sub 2).fault = none := rfl
  have hneed : ((⟨node, data, [], none⟩ : Processing).sub 2).needAckStage =
      (((((⟨node, data, [], none⟩ : Processing).sub 2).noteSub ackSize).sub ackSize).addStat .data
        ackSize).sendData (ackFor seq cons data.tv data.source) :=
    needAckStage_fragment hf hbuf hlen hcons
  -- Behind the trailers only the cache and the queues change.
  generalize hp : (((((⟨node, data, [], none⟩ : Processing).sub 2).noteSub ackSize).sub
    ackSize).addStat .data ackSize).sendData (ackFor seq cons data.tv data.source) = p at hneed
  have hfault : p.fault = none := by rw [← hp]; rfl
  have hpflags : p.data.flags = flags := by rw [← hp]; exact hflags
  have hack : p.ackStage = p := by simp [ackStage, hpflags, hnack]
  have hbw : p.bwStage = p := by simp [bwStage, hpflags, hnbw]
  have hblock : p.blockStage junk =
      fragmentAdded { p with node := { p.node with cache := cache } } f r := by
    have hpbuf : p.data.buf = fragmentPacket flags f ++ (store16 seq ++ (store16 0 ++ rest)) := by
      rw [← hp]
      exact hbuf
    have hplen : p.data.buflen = headerSize + f.length.toNat := by
      rw [← hp]
      show subSize ((⟨node, data, [], none⟩ : Processing).sub 2).data.buflen ackSize = _
      rw [hlen, subSize_of_le (by simp [ackSize])]
      rfl
    exact blockStage_fragment hf hpbuf hplen junk (by rw [← hp]; exact hadd)
  obtain ⟨hcache, htables, hfault'⟩ :=
    fragmentAdded_frame { p with node := { p.node with cache := cache } } f r
  have hrun : packetProcessor node data junk =
      (fragmentAdded { p with node := { p.node with cache := cache } } f r).countStage := by
    unfold packetProcessor
    simp only [hbuflen, if_true, hport]
    rw [andThen_none hfault₀, hneed, andThen_none hfault, hack, andThen_none hfault, hbw,
      andThen_none hfault, hblock, andThen_none (hfault'.trans hfault)]
  rw [hrun]
  refine ⟨hfault'.trans hfault, hcache, ?_⟩
  rw [show ∀ p : Processing, p.countStage.node.ack = p.node.ack from fun _ => rfl, htables, ← hp]
  rfl

end Fragments

namespace Processing

def readAck (p : Processing) : Option AckReceived :=
  if hasBit p.data.flags blkAck && validateAck p.data.buf p.data.buflen then
    decodeAck p.data.buf p.data.buflen
  else none

/-- The entries that `ackStage` removes for good: the popped one and those it covers. -/
def ackedEntries (p : Processing) : List Ack :=
  match p.readAck with
  | none => []
  | some ackR =>
    (p.node.ack.popped ackR p.data.source).toList ++ p.node.ack.lost ackR p.data.source

end Processing

def ackedBy (node : Node) (data : IncomingData) : List Ack :=
  if 1 < data.buflen then
    ((⟨node, data, [], none⟩ : Processing).portStage.andThen needAckStage).ackedEntries
  else []

theorem ackStage_acknowledged {p : Processing} {ackR : AckReceived} (h : p.readAck = some ackR) :
    p.ackStage.node.ack = p.node.ack.acknowledged ackR p.data.tv p.data.source ∧
      p.ackStage.node.cache = p.node.cache ∧ p.ackStage.data = p.data ∧
      p.ackStage.fault = p.fault := by
  unfold readAck at h
  split at h
  · rename_i hvalid
    obtain ⟨hbit, hvalid⟩ := Bool.and_eq_true_iff.mp hvalid
    simp only [ackStage, hbit, hvalid, if_true, addStat_data, h]
    rcases hp : popAck p.node.ack.nacks ackR.seq p.data.source with ⟨nacks, _ | pop⟩
    · simp only [addStat, hp, AckState.acknowledged, and_self]
    · simp only [addStat, setAck, hp, AckState.acknowledged, and_self]
  · cases h

theorem readAck_packet {p : Processing} {seq cons : UInt16} {ts : Timeval} {rest : Bytes}
    (hbuf : p.data.buf = (appendAckTs (appendAckCons (encodeAck seq) cons) ts).bytes ++ rest)
    (hlen : p.data.buflen = ackPacketSize) (hflags : p.data.flags = blkAck) :
    p.readAck = some ⟨blkAck, seq, (UInt32.ofInt ts.tv_sec).toInt32,
      (UInt32.ofInt ts.tv_usec).toInt32, cons⟩ := by
  have hbit : hasBit blkAck blkAck = true := by decide
  have hvalid : validateAck p.data.buf p.data.buflen = true := by
    rw [hbuf, hlen]
    exact validateAck_packet seq cons ts rest
  simp only [readAck, hflags, hbit, hvalid, Bool.and_self, if_true]
  rw [hbuf, hlen]
  exact decodeAck_packet seq cons ts rest

theorem stages_ack {p : Processing} {ackR : AckReceived} (junk : UInt16)
    (hflags : p.data.flags = blkAck) (h : p.readAck = some ackR) :
    p.needAckStage = p ∧ p.ackStage.bwStage = p.ackStage ∧
      p.ackStage.blockStage junk = p.ackStage := by
  obtain ⟨-, -, hdata, -⟩ := ackStage_acknowledged h
  have hbits : hasBit blkAck needAck = false ∧ hasBit blkAck bwMsg = false ∧
      hasBit blkAck blkBlock = false := ⟨by decide, by decide, by decide⟩
  refine ⟨?_, ?_, ?_⟩
  · exact needAckStage_unasked (hflags ▸ hbits.1)
  · simp [bwStage, hdata, hflags, hbits]
  · simp [blockStage, hdata, hflags, hbits]

/-- An acknowledgement is handed on as it is. -/
theorem packetProcessor_ack (node : Node) {data : IncomingData} (junk : UInt16)
    {seq cons : UInt16} {ts : Timeval} {addr : SockAddr}
    (h : Arrives data (ackFor seq cons ts addr).data) :
    ∃ ackR : AckReceived, ackR.seq = seq ∧ ackR.cons = cons ∧
      (packetProcessor node data junk).fault = none ∧
      (packetProcessor node data junk).node.cache = node.cache ∧
      (packetProcessor node data junk).node.ack =
        node.ack.acknowledged ackR data.tv data.source ∧
      ackedBy node data =
        (node.ack.popped ackR data.source).toList ++ node.ack.lost ackR data.source := by
  have hbytes : (ackFor seq cons ts addr).data =
      (appendAckTs (appendAckCons (encodeAck seq) cons) ts).bytes := rfl
  rw [hbytes] at h
  have hbody : (appendAckTs (appendAckCons (encodeAck seq) cons) ts).bytes.length = ackPacketSize :=
    AckPacket.bytes_length _
  have hpos : 0 < (appendAckTs (appendAckCons (encodeAck seq) cons) ts).bytes.length := by
    rw [hbody]
    decide
  have hport := h.portStage hpos (by show blkAck ≠ 0; decide) node
  have hlen := h.subLen node
  have hflags : data.flags = blkAck := h.flags hpos
  have hbuflen : 1 < data.buflen := by rw [h.buflen]; omega
  obtain ⟨rest, hbuf⟩ := h.buf
  generalize hp₁ : (⟨node, data, [], none⟩ : Processing).sub 2 = p₁ at hport hlen
  have hbuf₁ : p₁.data.buf = data.buf := by rw [← hp₁]; rfl
  have hflags₁ : p₁.data.flags = blkAck := by rw [← hp₁]; exact hflags
  have hsource₁ : p₁.data.source = data.source := by rw [← hp₁]; rfl
  have htv₁ : p₁.data.tv = data.tv := by rw [← hp₁]; rfl
  have hnode₁ : p₁.node = node := by rw [← hp₁]; rfl
  have hfault₁ : p₁.fault = none := by rw [← hp₁]; rfl
  have hread := readAck_packet (hbuf₁.trans hbuf) (hlen.trans hbody) hflags₁
  obtain ⟨hacked, hcache, -, hfault⟩ := ackStage_acknowledged hread
  obtain ⟨hneed, hbw, hblock⟩ := stages_ack junk hflags₁ hread
  have hfault₂ : p₁.ackStage.fault = none := hfault.trans hfault₁
  have hrun : packetProcessor node data junk = p₁.ackStage.countStage := by
    unfold packetProcessor
    simp only [hbuflen, if_true, hport]
    rw [andThen_none hfault₁, hneed, andThen_none hfault₁, andThen_none hfault₂, hbw,
      andThen_none hfault₂, hblock, andThen_none hfault₂]
  refine ⟨⟨blkAck, seq, (UInt32.ofInt ts.tv_sec).toInt32, (UInt32.ofInt ts.tv_usec).toInt32, cons⟩,
    rfl, rfl, ?_, ?_, ?_, ?_⟩
  · rw [hrun]
    exact hfault₂
  · rw [hrun]
    exact hcache.trans (by rw [hnode₁])
  · rw [hrun]
    exact hacked.trans (by rw [hnode₁, hsource₁, htv₁])
  · simp only [ackedBy, hbuflen, if_true, hport]
    rw [andThen_none hfault₁, hneed]
    simp only [ackedEntries, hread, hnode₁, hsource₁]

end Bora
