import Bora.Completion
import Bora.Retransmission

/-! What a datagram does to the tables for acknowledgements: it answers, or hands an
acknowledgement to `pop_ack`, or leaves them. -/
namespace Bora

open ByteMemory Checked Processing

/-- The acknowledgement that a datagram carries and the peer it is taken to come from. -/
def receivedAck (data : IncomingData) : Option (AckReceived × SockAddr) :=
  if 1 < data.buflen then
    (stripped Node.init data).readAck.map
      (fun ackR => (ackR, (stripped Node.init data).data.source))
  else none

section Datagram

variable {p : Processing}

theorem bwStage_ack (p : Processing) : p.bwStage.node.ack = p.node.ack := by
  unfold bwStage
  split
  · split
    · split <;> rfl
    · rfl
  · rfl

theorem blockStage_ack (p : Processing) (junk : UInt16) :
    (p.blockStage junk).node.ack = p.node.ack := by
  unfold blockStage
  split
  · split
    · split
      · rfl
      · split
        · rfl
        · exact (fragmentAdded_frame _ _ _).2.1
    · rfl
  · rfl

theorem stripped_data (node : Node) (data : IncomingData) :
    (stripped node data).data = (stripped Node.init data).data := by
  have hport : ((⟨node, data, [], none⟩ : Processing).sub 2).portByte =
      ((⟨Node.init, data, [], none⟩ : Processing).sub 2).portByte := rfl
  simp only [stripped, portStage, hport]
  split
  · split <;> rfl
  · split <;> rfl

theorem stripped_tv (node : Node) (data : IncomingData) :
    (stripped node data).data.tv = data.tv := by
  unfold stripped portStage
  split
  · split <;> rfl
  · simp only
    split <;> rfl

theorem andThen_tables {stage : Processing → Processing}
    (hstage : ∀ p : Processing, (stage p).node.ack = p.node.ack) :
    (p.andThen stage).node.ack = p.node.ack := by
  unfold andThen
  split
  · exact hstage p
  · rfl

theorem ackStage_unread (h : p.readAck = none) : p.ackStage.node.ack = p.node.ack := by
  unfold readAck at h
  unfold ackStage
  split
  · rename_i hbit
    split
    · rename_i hvalid
      simp only [hbit, hvalid, Bool.and_self, if_true] at h
      simp only [addStat_data, h]
      rfl
    · rfl
  · rfl

theorem readAck_flags {ackR : AckReceived} (h : p.readAck = some ackR) :
    p.data.flags = blkAck ∧ p.data.buflen = ackPacketSize ∧
      decodeAck p.data.buf ackPacketSize = some ackR := by
  unfold readAck at h
  split at h
  · rename_i hvalid
    obtain ⟨-, hvalid⟩ := Bool.and_eq_true_iff.mp hvalid
    unfold validateAck at hvalid
    split at hvalid
    · rename_i hlen
      rw [hlen] at h
      exact ⟨UInt8.xor_eq_zero_iff.mp (beq_iff_eq.mp hvalid), hlen, h⟩
    · cases hvalid
  · cases h

theorem answer_tables (seq : UInt16) :
    (p.answer seq).node.ack = p.node.ack ∨
      ∃ cons, (p.answer seq).node.ack = p.node.ack.setQueues
        (p.node.ack.queues.sendData (ackFor seq cons p.data.tv p.data.source)).1 := by
  cases hcons : getConsecutives p.node.cache (getFragmentId p.data.buf p.data.buflen) with
  | error e =>
    left
    simp only [answer, hcons]
    rfl
  | ok cons =>
    right
    exact ⟨cons, by rw [answer_ok seq hcons]; rfl⟩

theorem beforeBlock_tables (node : Node) (data : IncomingData) :
    (∃ ackR, (stripped node data).readAck = some ackR ∧
      (beforeBlock node data).node.ack =
        node.ack.acknowledged ackR data.tv (stripped node data).data.source) ∨
    (stripped node data).readAck = none ∧
      ((beforeBlock node data).node.ack = node.ack ∨
        ∃ seq cons tv addr, (beforeBlock node data).node.ack =
          node.ack.setQueues (node.ack.queues.sendData (ackFor seq cons tv addr)).1) := by
  obtain ⟨-, hfault, hflags, hack⟩ := stripped_frame node data
  cases hask : hasBit data.flags needAck with
  | true =>
    have hnone : (stripped node data).readAck = none := by
      cases hread : (stripped node data).readAck with
      | none => rfl
      | some ackR =>
        rw [← hflags, (readAck_flags hread).1] at hask
        exact absurd hask (by decide)
    refine Or.inr ⟨hnone, ?_⟩
    cases hvalid : validateBlock (stripped node data).data.buf
        (subSize (stripped node data).data.buflen ackSize) with
    | true =>
      rw [(beforeBlock_asked hask hvalid).1,
        needAckStage_asked (by rw [hflags]; exact hask) hvalid]
      rcases answer_tables (p := ((stripped node data).noteSub ackSize).sub ackSize |>.addStat .data
        ackSize) (stripAck (stripped node data).data.buf (stripped node data).data.buflen) with
        h | ⟨cons, h⟩
      · exact Or.inl (h.trans hack)
      · exact Or.inr ⟨_, cons, _, _, h.trans (by rw [← hack]; rfl)⟩
    | false =>
      -- The flags are cleared, and the stages behind find nothing.
      left
      rw [beforeBlock]
      show ((((stripped node data).andThen needAckStage).andThen ackStage).andThen
        bwStage).node.ack = _
      rw [andThen_none hfault, needAckStage_rejected (by rw [hflags]; exact hask) hvalid]
      have hread : ((stripped node data).noteSub ackSize).reject.readAck = none := by
        simp only [readAck, reject_flags, show hasBit 0 blkAck = false from by decide,
          Bool.false_and, Bool.false_eq_true, if_false]
      rw [andThen_tables bwStage_ack]
      unfold andThen
      split
      · rw [ackStage_unread hread]
        exact hack
      · exact hack
  | false =>
    have hstage : beforeBlock node data = ((stripped node data).ackStage).andThen bwStage := by
      rw [beforeBlock]
      show (((stripped node data).andThen needAckStage).andThen ackStage).andThen bwStage = _
      rw [andThen_none hfault, needAckStage_unasked (by rw [hflags]; exact hask),
        andThen_none hfault]
    rw [hstage, andThen_tables bwStage_ack]
    cases hread : (stripped node data).readAck with
    | some ackR =>
      left
      exact ⟨ackR, rfl, by rw [(ackStage_acknowledged hread).1, hack, stripped_tv]⟩
    | none =>
      right
      exact ⟨rfl, Or.inl (by rw [ackStage_unread hread, hack])⟩

/-- All that a datagram does to the tables: the acknowledgement it carries is handed on, or it is
answered, or they stay. -/
theorem packetProcessor_tables (node : Node) (data : IncomingData) (junk : UInt16) :
    (∃ ackR source, receivedAck data = some (ackR, source) ∧
      (packetProcessor node data junk).node.ack = node.ack.acknowledged ackR data.tv source) ∨
    receivedAck data = none ∧
      ((packetProcessor node data junk).node.ack = node.ack ∨
        ∃ seq cons tv addr, (packetProcessor node data junk).node.ack =
          node.ack.setQueues (node.ack.queues.sendData (ackFor seq cons tv addr)).1) := by
  have hcount : ∀ p : Processing, p.countStage.node.ack = p.node.ack := fun _ => rfl
  rw [packetProcessor_eq, andThen_tables hcount]
  by_cases hl : 1 < data.buflen
  · have hread : (stripped node data).readAck = (stripped Node.init data).readAck := by
      simp only [readAck, stripped_data node data]
    rw [if_pos hl, andThen_tables (fun p => blockStage_ack p junk), receivedAck, if_pos hl, ← hread,
      ← stripped_data node data]
    rcases beforeBlock_tables node data with ⟨ackR, hackR, h⟩ | ⟨hnone, h⟩
    · exact Or.inl ⟨ackR, _, by rw [hackR]; rfl, h⟩
    · exact Or.inr ⟨by rw [hnone]; rfl, h⟩
  · rw [if_neg hl, receivedAck, if_neg hl]
    exact Or.inr ⟨rfl, Or.inl rfl⟩

end Datagram

end Bora
