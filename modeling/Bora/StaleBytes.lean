import Bora.CompletionRing

/-! The slots of the receive buffer are used again and again, and behind a datagram are the bytes
of the ones before it. No stage of the processing looks at them. -/
namespace Bora

open ByteMemory Processing

/-- The values of the dictionary. The time is turned into a floating point number. -/
structure IncomingDict where
  host : UInt32
  port : UInt16
  message : Bytes
  ts : Timeval
deriving DecidableEq

structure BiterTuple where
  s : Int32
  b : Int32
  incomingDict : Option IncomingDict
deriving DecidableEq

def IncomingData.incomingDict (d : IncomingData) : IncomingDict where
  host := d.source.sin_addr
  port := ntohs d.source.sin_port
  message := slice d.buf 1 (subSize d.buflen 1)
  ts := d.tv

def BiterItem.tuple (x : BiterItem) : BiterTuple := ⟨x.s, x.b, x.d.map IncomingData.incomingDict⟩

section Reads

variable {a b : Bytes} {m l : ℕ}

theorem fragmentHeader_of_take (h : a.take m = b.take m) (hm : headerSize ≤ m) :
    fragmentHeader a = fragmentHeader b := by
  rw [headerSize] at hm
  simp only [fragmentHeader, byteAt_of_take h (show 0 < m by omega),
    load16_of_take h (show 1 + 2 ≤ m by omega), load32_of_take h (show 3 + 4 ≤ m by omega),
    load16_of_take h (show 7 + 2 ≤ m by omega), load16_of_take h (show 9 + 2 ≤ m by omega),
    load16_of_take h (show 11 + 2 ≤ m by omega)]

theorem ackPacket_of_take (h : a.take m = b.take m) (hm : ackPacketSize ≤ m) :
    ackPacket a = ackPacket b := by
  rw [ackPacketSize] at hm
  simp only [ackPacket, byteAt_of_take h (show 0 < m by omega),
    load16_of_take h (show 1 + 2 ≤ m by omega), load32_of_take h (show 3 + 4 ≤ m by omega),
    load32_of_take h (show 7 + 4 ≤ m by omega), load16_of_take h (show 11 + 2 ≤ m by omega)]

/-- The lengths that processing meets: of the datagram or a part of it, or wrapped and longer than
any packet. -/
def Met (m l : ℕ) : Prop := l ≤ m ∨ headerSize + 2 ^ 16 ≤ l

theorem Met.le (h : Met m l) (hl : l < headerSize + 2 ^ 16) : l ≤ m := by
  rcases h with h | h
  · exact h
  · exact absurd hl (by omega)

/-- Wrapped lengths are not valid. -/
theorem validateBlock_bounds (h : validateBlock a l = true) :
    headerSize ≤ l ∧ l < headerSize + 2 ^ 16 := by
  have hmtu : mtu = 1400 := rfl
  have hlen := (htons (fragmentHeader a).length).toNat_lt
  simp only [validateBlock] at h
  split at h
  · rename_i hvalid
    omega
  · split at h
    · omega
    · cases h

theorem validateBlock_of_take (h : a.take m = b.take m) (hl : Met m l) :
    validateBlock a l = validateBlock b l := by
  by_cases hm : l ≤ m ∧ headerSize ≤ l
  · have hle := hm.2.trans hm.1
    have hpos : 0 < m := lt_of_lt_of_le (by decide) hle
    rw [validateBlock, validateBlock, fragmentHeader_of_take h hle, byteAt_of_take h hpos]
  · have hno : ∀ blob : Bytes, validateBlock blob l = false := by
      intro blob
      by_contra hvalid
      obtain ⟨hsize, hlt⟩ := validateBlock_bounds (by simpa using hvalid : validateBlock blob l = true)
      exact hm ⟨hl.le hlt, hsize⟩
    rw [hno a, hno b]

theorem getFragmentId_of_take (h : a.take m = b.take m) (hl : l ≤ m) :
    getFragmentId a l = getFragmentId b l := by
  simp only [getFragmentId]
  by_cases hshort : l < headerSize
  · simp only [hshort, if_true]
  · rw [fragmentHeader_of_take h (by omega)]

theorem decodeFragment_of_take (h : a.take m = b.take m) (hl : l ≤ m) :
    decodeFragment a l = decodeFragment b l := by
  by_cases hshort : l < headerSize
  · simp only [decodeFragment, hshort, if_true]
  have hheader := fragmentHeader_of_take h (by omega)
  by_cases hlen : l = (ntohs (fragmentHeader b).length).toNat + headerSize
  · have hread := readBytes_of_take h
      (show headerSize + (ntohs (fragmentHeader b).length).toNat ≤ m by omega)
    simp only [decodeFragment, hheader, hread]
  · simp only [decodeFragment, hheader, hlen, ne_eq, not_false_eq_true, if_true]

theorem validateAck_of_take (h : a.take m = b.take m) (hl : Met m l) :
    validateAck a l = validateAck b l := by
  simp only [validateAck]
  by_cases hsize : l = ackPacketSize
  · have hle : l ≤ m := hl.le (by rw [hsize]; decide)
    rw [ackPacket_of_take h (hsize ▸ hle)]
  · simp only [hsize, if_false]

theorem validateBw_of_take (h : a.take m = b.take m) (hl : Met m l) :
    validateBw a l = validateBw b l := by
  simp only [validateBw]
  by_cases hsize : l = bwPacketSize
  · have hle : l ≤ m := hl.le (by rw [hsize]; decide)
    have hpos : 0 < m := lt_of_lt_of_le (by rw [hsize]; decide) hle
    simp only [ackPacket, byteAt_of_take h hpos]
  · simp only [hsize, if_false]

theorem decodeAck_of_take (h : a.take m = b.take m) (hl : l ≤ m) :
    decodeAck a l = decodeAck b l := by
  simp only [decodeAck]
  by_cases hshort : l < ackPacketSize
  · simp only [hshort, if_true]
  · rw [ackPacket_of_take h (by omega)]

theorem decodeBwmsg_of_take (h : a.take m = b.take m) (hl : l ≤ m) :
    decodeBwmsg a l = decodeBwmsg b l := by
  simp only [decodeBwmsg]
  by_cases hshort : l < bwPacketSize
  · simp only [hshort, if_true]
  · rw [bwPacketSize] at hshort
    rw [load32_of_take h (by omega)]

theorem set_of_take (h : a.take m = b.take m) (x : UInt8) :
    (a.set 0 x).take m = (b.set 0 x).take m := by
  rw [List.take_set, List.take_set, h]

end Reads

/-- The slots hold the same datagram of `m` bytes, or what is left of it. -/
structure IncomingData.Alike (m : ℕ) (d e : IncomingData) : Prop where
  source : d.source = e.source
  buf : d.buf.take m = e.buf.take m
  buflen : d.buflen = e.buflen
  tv : d.tv = e.tv

/-- Only what messages carry behind their ends differs. -/
structure Node.Same (n k : Node) : Prop where
  cache : n.cache = k.cache
  ack : n.ack = k.ack
  statsR : n.statsR = k.statsR
  estimations : n.estimations = k.estimations
  bwmlist : n.bwmlist = k.bwmlist
  completed : n.completed.map (fun c => c.item.tuple) = k.completed.map (fun c => c.item.tuple)

theorem Node.Same.refl (n : Node) : n.Same n := ⟨rfl, rfl, rfl, rfl, rfl, rfl⟩

structure Twin (m : ℕ) (p q : Processing) : Prop where
  node : p.node.Same q.node
  data : p.data.Alike m q.data
  fault : p.fault = q.fault
  left : p.data.buflen ≤ m ∨ 2 ^ 17 ≤ p.data.buflen

theorem IncomingData.Alike.incomingDict {m : ℕ} {d e : IncomingData} (h : d.Alike m e)
    (hpos : 0 < d.buflen) (hl : d.buflen ≤ m) : d.incomingDict = e.incomingDict := by
  have hmessage : slice d.buf 1 (d.buflen - 1) = slice e.buf 1 (d.buflen - 1) :=
    slice_of_take h.buf (by omega)
  have hsub : subSize d.buflen 1 = d.buflen - 1 := subSize_of_le hpos
  simp only [IncomingData.incomingDict, ← h.source, ← h.buflen, ← h.tv, hsub, hmessage]

namespace Twin

variable {m : ℕ} {p q : Processing}

theorem flags (h : Twin m p q) (hm : 0 < m) : p.data.flags = q.data.flags :=
  byteAt_of_take h.data.buf hm

theorem addStat (h : Twin m p q) (c : InCounter) (k : ℕ) :
    Twin m (p.addStat c k) (q.addStat c k) where
  node := { h.node with
    statsR := by
      show Function.update _ _ _ = Function.update _ _ _
      rw [h.node.statsR] }
  data := h.data
  fault := h.fault
  left := h.left

theorem met (h : Twin m p q) : Met m p.data.buflen := by
  rcases h.left with hl | hl
  · exact Or.inl hl
  · exact Or.inr (le_trans (by decide) hl)

theorem met_sub (h : Twin m p q) : Met m (subSize p.data.buflen ackSize) := by
  have hleft := h.left
  rw [Met, subSize, headerSize, ackSize]
  split <;> omega

theorem sub (h : Twin m p q) {k : ℕ}
    (hleft : subSize p.data.buflen k ≤ m ∨ 2 ^ 17 ≤ subSize p.data.buflen k) :
    Twin m (p.sub k) (q.sub k) where
  node := h.node
  data := { h.data with buflen := congrArg (fun l => subSize l k) h.data.buflen }
  fault := h.fault
  left := hleft

theorem setPort (h : Twin m p q) (port : UInt16) : Twin m (p.setPort port) (q.setPort port) where
  node := h.node
  data := { h.data with
    source := congrArg (fun s : SockAddr => { s with sin_port := port }) h.data.source }
  fault := h.fault
  left := h.left

theorem setAck (h : Twin m p q) (ack : AckState) : Twin m (p.setAck ack) (q.setAck ack) where
  node := { h.node with ack := rfl }
  data := h.data
  fault := h.fault
  left := h.left

theorem fail (h : Twin m p q) (e : Fault) : Twin m (p.fail e) (q.fail e) where
  node := h.node
  data := h.data
  fault := rfl
  left := h.left

theorem complete (h : Twin m p q) {c d : Completion} (hc : c.item.tuple = d.item.tuple) :
    Twin m (p.complete c) (q.complete d) where
  node := { h.node with
    completed := by
      simp only [Processing.complete, List.map_append, h.node.completed, List.map_cons, hc,
        List.map_nil] }
  data := h.data
  fault := h.fault
  left := h.left

theorem reject (h : Twin m p q) : Twin m p.reject q.reject := by
  have hstat := h.addStat .garbage p.data.buflen
  unfold Processing.reject
  rw [← h.data.buflen]
  exact ⟨hstat.node, { h.data with buf := set_of_take h.data.buf 0 }, h.fault, h.left⟩

/-- The length is that of the datagram still, and so the byte of the port is in it. -/
theorem portStage (h : Twin m p q) (hl : p.data.buflen = m) (hm : 1 < m) :
    Twin m p.portStage q.portStage := by
  have hsub : subSize p.data.buflen 2 = m - 2 := by rw [hl]; exact subSize_of_le hm
  have hport : (p.sub 2).portByte = (q.sub 2).portByte := by
    show byteAt p.data.buf (subSize p.data.buflen 2) = byteAt q.data.buf (subSize q.data.buflen 2)
    rw [← h.data.buflen, hsub]
    exact byteAt_of_take h.data.buf (by omega)
  unfold Processing.portStage
  rw [← h.flags (by omega), ← h.data.buflen]
  split
  · split
    · rename_i hlong
      refine h.complete ?_
      have hdict := h.data.incomingDict (by omega) hl.le
      simp only [BiterItem.tuple, Completion.item, Completion.data, Completion.streamid,
        Completion.blockid, Option.map_some, hdict]
    · exact h
  · have htaken : Twin m (p.sub 2) (q.sub 2) := h.sub (Or.inl (by rw [hsub]; omega))
    simp only
    rw [← hport]
    split
    · refine (htaken.setPort _).sub ?_
      show subSize (subSize p.data.buflen 2) 2 ≤ m ∨ 2 ^ 17 ≤ subSize (subSize p.data.buflen 2) 2
      rw [hsub, subSize]
      split <;> omega
    · exact htaken

theorem answer (h : Twin m p q) (hl : p.data.buflen ≤ m) (seq : UInt16) :
    Twin m (p.answer seq) (q.answer seq) := by
  unfold Processing.answer
  rw [← h.node.cache, ← h.data.buflen, ← getFragmentId_of_take h.data.buf hl, ← h.data.tv,
    ← h.data.source]
  split
  · exact h.fail _
  · unfold Processing.sendData
    rw [← h.node.ack]
    exact h.setAck _

theorem room (h : Twin m p q) (hvalid : validateBlock p.data.buf (subSize p.data.buflen ackSize)) :
    ackSize ≤ p.data.buflen ∧ p.data.buflen ≤ m := by
  obtain ⟨hsize, hlt⟩ := validateBlock_bounds hvalid
  have hleft := h.left
  rw [subSize, headerSize, ackSize] at *
  split at hlt <;> omega

theorem needAckStage (h : Twin m p q) (hm : 0 < m) : Twin m p.needAckStage q.needAckStage := by
  have hnoted : Twin m (p.noteSub ackSize) (q.noteSub ackSize) := ⟨h.node, h.data, h.fault, h.left⟩
  unfold Processing.needAckStage
  rw [← h.flags hm]
  split
  · simp only
    have hvalidate : validateBlock (p.noteSub ackSize).data.buf
        (subSize (p.noteSub ackSize).data.buflen ackSize) =
        validateBlock (q.noteSub ackSize).data.buf
          (subSize (q.noteSub ackSize).data.buflen ackSize) := by
      rw [← hnoted.data.buflen]
      exact validateBlock_of_take h.data.buf h.met_sub
    rw [← hvalidate]
    split
    · rename_i hvalid
      obtain ⟨hroom, hle⟩ := h.room hvalid
      have hsub : subSize p.data.buflen ackSize = p.data.buflen - ackSize := subSize_of_le hroom
      have hseq : stripAck p.data.buf p.data.buflen = stripAck q.data.buf q.data.buflen := by
        rw [ackSize] at hroom hsub
        rw [← h.data.buflen, stripAck, stripAck, hsub]
        exact load16_of_take h.data.buf (by omega)
      have hstripped : Twin m ((p.noteSub ackSize).sub ackSize) ((q.noteSub ackSize).sub ackSize) :=
        hnoted.sub (Or.inl (by show subSize p.data.buflen ackSize ≤ m; omega))
      show Twin m (Processing.answer _ (stripAck p.data.buf p.data.buflen))
        (Processing.answer _ (stripAck q.data.buf q.data.buflen))
      rw [hseq]
      refine (hstripped.addStat .data ackSize).answer ?_ _
      show subSize p.data.buflen ackSize ≤ m
      omega
    · exact hnoted.reject
  · exact h

theorem validateBlock (h : Twin m p q) :
    Bora.validateBlock p.data.buf p.data.buflen = Bora.validateBlock q.data.buf q.data.buflen := by
  rw [← h.data.buflen]
  exact validateBlock_of_take h.data.buf h.met

theorem validateAck (h : Twin m p q) :
    Bora.validateAck p.data.buf p.data.buflen = Bora.validateAck q.data.buf q.data.buflen := by
  rw [← h.data.buflen]
  exact validateAck_of_take h.data.buf h.met

theorem validateBw (h : Twin m p q) :
    Bora.validateBw p.data.buf p.data.buflen = Bora.validateBw q.data.buf q.data.buflen := by
  rw [← h.data.buflen]
  exact validateBw_of_take h.data.buf h.met

theorem decodeAck (h : Twin m p q) (hle : p.data.buflen ≤ m) :
    Bora.decodeAck p.data.buf p.data.buflen = Bora.decodeAck q.data.buf q.data.buflen := by
  rw [← h.data.buflen]
  exact decodeAck_of_take h.data.buf hle

theorem ackStage (h : Twin m p q) (hm : 0 < m) : Twin m p.ackStage q.ackStage := by
  unfold Processing.ackStage
  rw [← h.flags hm, ← h.validateAck]
  split
  · split
    · rename_i hvalid
      have hle : p.data.buflen ≤ m := by
        unfold Bora.validateAck at hvalid
        split at hvalid
        · rename_i hsize
          exact h.met.le (by rw [hsize]; decide)
        · cases hvalid
      have hcounted : Twin m ((p.addStat .ack 1).addStat .ackData p.data.buflen)
          ((q.addStat .ack 1).addStat .ackData q.data.buflen) := by
        rw [← h.data.buflen]
        exact (h.addStat .ack 1).addStat .ackData p.data.buflen
      have hlen : ((p.addStat .ack 1).addStat .ackData p.data.buflen).data.buflen ≤ m := hle
      generalize (p.addStat .ack 1).addStat .ackData p.data.buflen = p' at hcounted hlen ⊢
      generalize (q.addStat .ack 1).addStat .ackData q.data.buflen = q' at hcounted ⊢
      simp only
      rw [← hcounted.decodeAck hlen, ← hcounted.data.buflen, ← hcounted.node.ack,
        ← hcounted.data.source, ← hcounted.data.tv]
      split
      · exact hcounted.fail _
      · split
        · exact hcounted.setAck _
        · exact (hcounted.addStat .garbage _).addStat .badAck 1
    · exact h.reject
  · exact h

theorem bwStage (h : Twin m p q) (hm : 0 < m) : Twin m p.bwStage q.bwStage := by
  unfold Processing.bwStage
  rw [← h.flags hm, ← h.validateBw]
  split
  · split
    · rename_i hvalid
      have hle : p.data.buflen ≤ m := by
        unfold Bora.validateBw at hvalid
        split at hvalid
        · rename_i hsize
          exact h.met.le (by rw [hsize]; decide)
        · cases hvalid
      rw [← h.data.buflen, ← decodeBwmsg_of_take h.data.buf hle, ← h.data.tv, ← h.data.source,
        ← h.node.bwmlist]
      split
      · exact h.reject
      · exact ⟨{ h.node with bwmlist := rfl }, h.data, h.fault, h.left⟩
    · exact h.reject
  · exact h

theorem fragmentAdded (h : Twin m p q) (hm : 0 < m) (fragment : FragmentData) (r : AddResult) :
    Twin m (p.fragmentAdded fragment r) (q.fragmentAdded fragment r) := by
  unfold Processing.fragmentAdded
  rw [← h.data.buflen]
  cases r with
  | duplicate => exact (h.addStat .dupe 1).addStat .dupeData p.data.buflen
  | fragmentidOutOfBounds => exact h.addStat .garbage p.data.buflen
  | fragmentsMismatch => exact h.addStat .garbage p.data.buflen
  | badLen => exact h.addStat .garbage p.data.buflen
  | added =>
    simp only
    have hcomplete : iscomplete p.node.cache fragment.id = iscomplete q.node.cache fragment.id := by
      rw [h.node.cache]
    rw [← h.flags hm, ← h.data.source, ← h.data.tv, ← hcomplete, ← h.node.estimations]
    have hrecorded : ∀ es, Twin m { p with node := { p.node with estimations := es } }
        { q with node := { q.node with estimations := es } } := fun es =>
      ⟨{ h.node with estimations := rfl }, h.data, h.fault, h.left⟩
    split
    · exact (hrecorded _).complete rfl
    · exact hrecorded _

theorem blockStage (h : Twin m p q) (hm : 0 < m) (junk : UInt16) :
    Twin m (p.blockStage junk) (q.blockStage junk) := by
  unfold Processing.blockStage
  rw [← h.flags hm, ← h.validateBlock]
  split
  · split
    · rename_i hvalid
      have hle : p.data.buflen ≤ m := h.met.le (validateBlock_bounds hvalid).2
      rw [← h.data.buflen, ← decodeFragment_of_take h.data.buf hle, ← h.data.tv, ← h.data.source,
        ← h.node.cache]
      split
      · exact h.reject
      · rename_i fragment _
        split
        · exact h.fail _
        · rename_i cache r _
          have hcached : Twin m { p with node := { p.node with cache := cache } }
              { q with node := { q.node with cache := cache } } :=
            ⟨{ h.node with cache := rfl }, h.data, h.fault, h.left⟩
          exact hcached.fragmentAdded hm fragment r
    · exact h.reject
  · exact h

theorem countStage (h : Twin m p q) : Twin m p.countStage q.countStage := by
  unfold Processing.countStage
  rw [← h.data.buflen]
  exact (h.addStat .data p.data.buflen).addStat .pkg 1

end Twin

end Bora
