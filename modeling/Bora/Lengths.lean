import Bora.PacketReceiver

/-! The length arithmetic of `packet_processor`: which datagrams are long enough for the
trailers their bytes announce, and what a datagram adds to the length counters. -/
namespace Bora

open ByteMemory Processing

namespace Processing

variable {p : Processing}

@[simp] theorem addStat_data (c : InCounter) (k : ℕ) : (p.addStat c k).data = p.data := rfl
@[simp] theorem addStat_subs (c : InCounter) (k : ℕ) : (p.addStat c k).subs = p.subs := rfl
@[simp] theorem addStat_fault (c : InCounter) (k : ℕ) : (p.addStat c k).fault = p.fault := rfl
@[simp] theorem noteSub_data (k : ℕ) : (p.noteSub k).data = p.data := rfl
@[simp] theorem noteSub_subs (k : ℕ) : (p.noteSub k).subs = p.subs ++ [(p.data.buflen, k)] := rfl
@[simp] theorem noteSub_node (k : ℕ) : (p.noteSub k).node = p.node := rfl
@[simp] theorem sub_subs (k : ℕ) : (p.sub k).subs = p.subs ++ [(p.data.buflen, k)] := rfl
@[simp] theorem sub_buflen (k : ℕ) : (p.sub k).data.buflen = subSize p.data.buflen k := rfl
@[simp] theorem sub_buf (k : ℕ) : (p.sub k).data.buf = p.data.buf := rfl
@[simp] theorem sub_flags (k : ℕ) : (p.sub k).data.flags = p.data.flags := rfl
@[simp] theorem sub_node (k : ℕ) : (p.sub k).node = p.node := rfl
@[simp] theorem setPort_subs (port : UInt16) : (p.setPort port).subs = p.subs := rfl
@[simp] theorem setPort_node (port : UInt16) : (p.setPort port).node = p.node := rfl
@[simp] theorem setPort_buflen (port : UInt16) : (p.setPort port).data.buflen = p.data.buflen := rfl
@[simp] theorem setPort_flags (port : UInt16) : (p.setPort port).data.flags = p.data.flags := rfl
@[simp] theorem reject_subs : p.reject.subs = p.subs := rfl
@[simp] theorem reject_buflen : p.reject.data.buflen = p.data.buflen := rfl

theorem clearFlags_flags (data : IncomingData) : data.clearFlags.flags = 0 := by
  have hpos : 0 < data.buf.length := by rw [data.size]; decide
  simp [IncomingData.clearFlags, IncomingData.flags, byteAt, List.getD_eq_getElem?_getD, hpos]

@[simp] theorem reject_flags : p.reject.data.flags = 0 := clearFlags_flags p.data

theorem answer_frame (seq : UInt16) :
    (p.answer seq).data = p.data ∧ (p.answer seq).subs = p.subs ∧
      (p.answer seq).node.statsR = p.node.statsR := by
  unfold answer
  split <;> exact ⟨rfl, rfl, rfl⟩

theorem ackStage_subs : p.ackStage.subs = p.subs := by
  unfold ackStage
  split
  · split
    · simp only
      split
      · rfl
      · split <;> rfl
    · rfl
  · rfl

theorem bwStage_subs : p.bwStage.subs = p.subs := by
  unfold bwStage
  split
  · split
    · split <;> rfl
    · rfl
  · rfl

theorem fragmentAdded_subs (fragment : FragmentData) (r : AddResult) :
    (p.fragmentAdded fragment r).subs = p.subs := by
  cases r with
  | added =>
    simp only [fragmentAdded]
    split <;> rfl
  | duplicate => rfl
  | fragmentsMismatch => rfl
  | fragmentidOutOfBounds => rfl
  | badLen => rfl

theorem blockStage_subs (junk : UInt16) : (p.blockStage junk).subs = p.subs := by
  unfold blockStage
  split
  · split
    · split
      · rfl
      · split
        · rfl
        · exact fragmentAdded_subs _ _
    · rfl
  · rfl

theorem andThen_subs {stage : Processing → Processing} (h : ∀ p, (stage p).subs = p.subs) :
    (p.andThen stage).subs = p.subs := by
  unfold andThen
  split
  · exact h p
  · rfl

end Processing

/-- The byte behind which `packet_processor` suspects a port. -/
def IncomingData.portByte (data : IncomingData) : UInt8 := byteAt data.buf (data.buflen - 2)

/-- The bytes that processing takes off the end of a datagram. -/
def IncomingData.trailer (data : IncomingData) : ℕ :=
  2 + (if data.portByte ≠ 0 then 2 else 0) + (if hasBit data.flags needAck then 2 else 0)

theorem sub_portByte {p : Processing} (hl : 1 < p.data.buflen) :
    (p.sub 2).portByte = p.data.portByte := by
  have hsub : subSize p.data.buflen 2 = p.data.buflen - 2 := subSize_of_le hl
  simp [Processing.portByte, IncomingData.portByte, hsub]

theorem portStage_zero {p : Processing} (hf : p.data.flags ≠ 0) (hl : 1 < p.data.buflen)
    (hz : p.data.portByte = 0) : p.portStage = p.sub 2 := by
  unfold portStage
  rw [if_neg hf]
  simp [sub_portByte hl, hz]

theorem portStage_eq {p : Processing} (hf : p.data.flags ≠ 0) (hl : 1 < p.data.buflen) :
    p.portStage.node = p.node ∧ p.portStage.data.flags = p.data.flags ∧
      p.portStage.data.buf = p.data.buf ∧ p.portStage.fault = p.fault ∧
      (p.data.portByte = 0 →
        p.portStage.data.buflen = p.data.buflen - 2 ∧
          p.portStage.data.source = p.data.source ∧
          p.portStage.subs = p.subs ++ [(p.data.buflen, 2)]) ∧
      (p.data.portByte ≠ 0 →
        p.portStage.data.buflen = subSize (p.data.buflen - 2) 2 ∧
          p.portStage.data.source = { p.data.source with sin_port := p.data.portByte.toUInt16 } ∧
          p.portStage.subs = p.subs ++ [(p.data.buflen, 2), (p.data.buflen - 2, 2)]) := by
  have hsub : subSize p.data.buflen 2 = p.data.buflen - 2 := subSize_of_le hl
  have hport := sub_portByte hl
  by_cases hz : p.data.portByte = 0
  · rw [portStage_zero hf hl hz]
    exact ⟨rfl, rfl, rfl, rfl, fun _ => ⟨hsub, rfl, rfl⟩, fun h => absurd hz h⟩
  · have hp : p.portStage = ((p.sub 2).setPort p.data.portByte.toUInt16).sub 2 := by
      unfold portStage
      rw [if_neg hf]
      simp [hport, hz]
    rw [hp]
    refine ⟨rfl, rfl, rfl, rfl, fun h => absurd h hz, fun _ => ⟨?_, rfl, ?_⟩⟩
    · simp [hsub]
    · simp [hsub]

theorem needAckStage_asked {p : Processing} (hask : hasBit p.data.flags needAck = true)
    (hvalid : validateBlock p.data.buf (subSize p.data.buflen ackSize) = true) :
    p.needAckStage = (((p.noteSub ackSize).sub ackSize).addStat .data ackSize).answer
      (stripAck p.data.buf p.data.buflen) := by
  simp [needAckStage, hask, hvalid]

theorem needAckStage_rejected {p : Processing} (hask : hasBit p.data.flags needAck = true)
    (hvalid : validateBlock p.data.buf (subSize p.data.buflen ackSize) = false) :
    p.needAckStage = (p.noteSub ackSize).reject := by
  simp [needAckStage, hask, hvalid]

theorem needAckStage_unasked {p : Processing} (hask : hasBit p.data.flags needAck = false) :
    p.needAckStage = p := by
  simp [needAckStage, hask]

theorem needAckStage_subs (p : Processing) :
    p.subs <+: p.needAckStage.subs ∧
      (hasBit p.data.flags needAck = true → (p.data.buflen, 2) ∈ p.needAckStage.subs) ∧
      ∀ s ∈ p.needAckStage.subs, s ∈ p.subs ∨
        hasBit p.data.flags needAck = true ∧ s = (p.data.buflen, 2) := by
  by_cases hbit : hasBit p.data.flags needAck = true
  · by_cases hvalid : validateBlock p.data.buf (subSize p.data.buflen ackSize) = true
    · rw [needAckStage_asked hbit hvalid, (answer_frame _).2.1]
      refine ⟨⟨[(p.data.buflen, 2), (p.data.buflen, 2)], ?_⟩, fun _ => ?_, fun s hs => ?_⟩
      · simp [ackSize]
      · simp [ackSize]
      · simp only [addStat_subs, sub_subs, noteSub_subs, noteSub_data, List.mem_append,
          List.mem_singleton] at hs
        rcases hs with (hs | hs) | hs
        · exact Or.inl hs
        · exact Or.inr ⟨hbit, hs⟩
        · exact Or.inr ⟨hbit, hs⟩
    · rw [needAckStage_rejected hbit (Bool.eq_false_iff.mpr hvalid)]
      refine ⟨⟨[(p.data.buflen, 2)], rfl⟩, fun _ => ?_, fun s hs => ?_⟩
      · simp [ackSize]
      · simp only [reject_subs, noteSub_subs, List.mem_append, List.mem_singleton] at hs
        rcases hs with hs | hs
        · exact Or.inl hs
        · exact Or.inr ⟨hbit, hs⟩
  · rw [needAckStage_unasked (Bool.eq_false_iff.mpr hbit)]
    exact ⟨List.prefix_refl _, fun h => absurd h hbit, fun s hs => Or.inl hs⟩

/-- All subtractions of a datagram are made in the first two stages. -/
theorem packetProcessor_subs (node : Node) (data : IncomingData) (junk : UInt16) :
    (packetProcessor node data junk).subs =
      if 1 < data.buflen then
        ((⟨node, data, [], none⟩ : Processing).portStage.andThen needAckStage).subs
      else [] := by
  unfold packetProcessor
  simp only
  rw [andThen_subs (show ∀ p, (countStage p).subs = p.subs from fun _ => rfl)]
  split
  · rw [andThen_subs (fun _ => blockStage_subs junk), andThen_subs (fun _ => bwStage_subs),
      andThen_subs (fun _ => ackStage_subs)]
  · rfl

/-- The datagram is too short to be looked at, has no flags, or has room for the trailers it
announces. -/
def IncomingData.HasRoom (data : IncomingData) : Prop :=
  data.buflen ≤ 1 ∨ data.flags = 0 ∨ data.trailer ≤ data.buflen

theorem portStage_noFlags {p : Processing} (hf : p.data.flags = 0) :
    p.portStage.subs = p.subs ∧ p.portStage.fault = p.fault ∧ p.portStage.data = p.data ∧
      p.portStage.node.statsR = p.node.statsR := by
  unfold portStage
  rw [if_pos hf]
  split <;> exact ⟨rfl, rfl, rfl, rfl⟩

theorem subs_of_hasRoom (node : Node) {data : IncomingData} (junk : UInt16) (h : data.HasRoom) :
    ∀ s ∈ (packetProcessor node data junk).subs, s.2 ≤ s.1 ∧ s.1 ≤ data.buflen := by
  rw [packetProcessor_subs]
  by_cases hl : 1 < data.buflen
  · rw [if_pos hl]
    intro s hs
    by_cases hf : data.flags = 0
    · obtain ⟨hsubs, hfault, hdata, -⟩ := portStage_noFlags (p := ⟨node, data, [], none⟩) hf
      simp only [andThen, hfault] at hs
      rcases (needAckStage_subs _).2.2 s hs with hs | ⟨hbit, -⟩
      · simp [hsubs] at hs
      · rw [hdata, show data.flags = 0 from hf] at hbit
        exact absurd hbit (by decide)
    · have hle : data.trailer ≤ data.buflen := by
        rcases h with h | h | h
        · omega
        · exact absurd h hf
        · exact h
      obtain ⟨-, hflags, -, hfault, hzero, hset⟩ :=
        portStage_eq (p := ⟨node, data, [], none⟩) hf hl
      simp only at hzero hset
      simp only [andThen, hfault] at hs
      have honly := (needAckStage_subs _).2.2 s hs
      rw [hflags] at honly
      unfold IncomingData.trailer at hle
      by_cases hz : data.portByte = 0
      · obtain ⟨hlen, -, hsubs⟩ := hzero hz
        rw [hlen, hsubs] at honly
        simp only [hz, ne_eq, not_true_eq_false, if_false] at hle
        rcases honly with hs | ⟨hbit, rfl⟩
        · simp only [List.nil_append, List.mem_singleton] at hs
          subst s
          exact ⟨hl, le_rfl⟩
        · rw [if_pos hbit] at hle
          exact ⟨by simp only; omega, Nat.sub_le _ _⟩
      · obtain ⟨hlen, -, hsubs⟩ := hset hz
        rw [hlen, hsubs] at honly
        simp only [hz, ne_eq, not_false_eq_true, if_true] at hle
        rw [subSize_of_le (by omega)] at honly
        rcases honly with hs | ⟨hbit, rfl⟩
        · simp only [List.nil_append, List.mem_cons, List.not_mem_nil, or_false] at hs
          rcases hs with rfl | rfl
          · exact ⟨hl, le_rfl⟩
          · exact ⟨by simp only; omega, Nat.sub_le _ _⟩
        · rw [if_pos hbit] at hle
          exact ⟨by simp only; omega, by simp only; omega⟩
  · rw [if_neg hl]
    intro s hs
    simp at hs

theorem hasRoom_of_subs (node : Node) (data : IncomingData) (junk : UInt16)
    (h : ∀ s ∈ (packetProcessor node data junk).subs, s.2 ≤ s.1) : data.HasRoom := by
  rw [packetProcessor_subs] at h
  by_cases hl : 1 < data.buflen
  · by_cases hf : data.flags = 0
    · exact Or.inr (Or.inl hf)
    rw [if_pos hl] at h
    obtain ⟨-, hflags, -, hfault, hzero, hset⟩ :=
      portStage_eq (p := ⟨node, data, [], none⟩) hf hl
    simp only at hzero hset
    simp only [andThen, hfault] at h
    obtain ⟨hpre, hmem, -⟩ := needAckStage_subs (⟨node, data, [], none⟩ : Processing).portStage
    rw [hflags] at hmem
    refine Or.inr (Or.inr ?_)
    unfold IncomingData.trailer
    by_cases hz : data.portByte = 0
    · obtain ⟨hlen, -, -⟩ := hzero hz
      simp only [hz, ne_eq, not_true_eq_false, if_false]
      by_cases hbit : hasBit data.flags needAck = true
      · have hack : 2 ≤ data.buflen - 2 := hlen ▸ h _ (hmem hbit)
        rw [if_pos hbit]
        omega
      · rw [if_neg hbit]
        omega
    · obtain ⟨hlen, -, hsubs⟩ := hset hz
      simp only [hz, ne_eq, not_false_eq_true, if_true]
      have hport : 2 ≤ data.buflen - 2 := h (data.buflen - 2, 2) (hpre.subset (by rw [hsubs]; simp))
      by_cases hbit : hasBit data.flags needAck = true
      · have hack : 2 ≤ subSize (data.buflen - 2) 2 := hlen ▸ h _ (hmem hbit)
        rw [subSize_of_le hport] at hack
        rw [if_pos hbit]
        omega
      · rw [if_neg hbit]
        omega
  · exact Or.inl (by omega)

def lengthCounters : List InCounter := [.data, .garbage, .ackData, .dupeData]

/-- `k` is what a datagram of length `l`, come in at `node₀`, has added so far: never more
than its length, and to the data counter never more than was taken off it. -/
structure Ledger (node₀ : Node) (l : ℕ) (p : Processing) (k : InCounter → ℕ) : Prop where
  stats : ∀ c ∈ lengthCounters, p.node.statsR c = node₀.statsR c + UInt64.ofNat (k c)
  bound : ∀ c, k c ≤ l
  data : k .data + p.data.buflen ≤ l

section Ledger

variable {node₀ : Node} {l : ℕ} {p p' : Processing} {k : InCounter → ℕ}

theorem Ledger.frame (h : Ledger node₀ l p k) (hstats : p'.node.statsR = p.node.statsR)
    (hlen : p'.data.buflen = p.data.buflen) : Ledger node₀ l p' k where
  stats := by rw [hstats]; exact h.stats
  bound := h.bound
  data := by rw [hlen]; exact h.data

theorem Ledger.buflen_le (h : Ledger node₀ l p k) : p.data.buflen ≤ l := by
  have hdata := h.data
  omega

theorem Ledger.addOther (h : Ledger node₀ l p k) {c : InCounter} (hc : c ∉ lengthCounters)
    (n : ℕ) : Ledger node₀ l (p.addStat c n) k where
  stats := by
    intro c' hc'
    have hne : c' ≠ c := fun he => hc (he ▸ hc')
    simp only [addStat, Function.update_of_ne hne]
    exact h.stats c' hc'
  bound := h.bound
  data := h.data

/-- A first addition of at most the current length to a counter other than the data counter. -/
theorem Ledger.addFirst (h : Ledger node₀ l p k) {c : InCounter} (hc : c ≠ .data)
    (hk : k c = 0) : Ledger node₀ l (p.addStat c p.data.buflen)
      (Function.update k c p.data.buflen) where
  stats := by
    intro c' hc'
    by_cases hcc : c' = c
    · subst c'
      simp only [addStat, Function.update_self]
      rw [h.stats c hc', hk]
      simp
    · simp only [addStat, Function.update_of_ne hcc]
      exact h.stats c' hc'
  bound := by
    intro c'
    by_cases hcc : c' = c
    · subst c'
      rw [Function.update_self]
      exact h.buflen_le
    · rw [Function.update_of_ne hcc]
      exact h.bound c'
  data := by
    rw [Function.update_of_ne (Ne.symm hc)]
    exact h.data

/-- The data counter, which is charged once for the stripped number and once at the end. -/
theorem Ledger.addData (h : Ledger node₀ l p k) {n b : ℕ} (hn : k .data + n + b ≤ l)
    (hb : p'.data.buflen = b) (hstats : p'.node.statsR = (p.addStat .data n).node.statsR) :
    Ledger node₀ l p' (Function.update k .data (k .data + n)) where
  stats := by
    intro c hc
    rw [hstats]
    by_cases hcc : c = .data
    · subst c
      simp only [addStat, Function.update_self]
      rw [h.stats _ hc, UInt64.ofNat_add, UInt64.add_assoc]
    · simp only [addStat, Function.update_of_ne hcc]
      exact h.stats c hc
  bound := by
    intro c
    by_cases hcc : c = .data
    · subst c
      rw [Function.update_self]
      omega
    · rw [Function.update_of_ne hcc]
      exact h.bound c
  data := by
    rw [Function.update_self, hb]
    exact hn

/-- Between two stages: the ledger so far, no entry yet for the counters `later`, and no
garbage unless the flags no longer have any of the bits `bits`. -/
def Charged (node₀ : Node) (l : ℕ) (later : List InCounter) (bits : List UInt8)
    (p : Processing) : Prop :=
  ∃ k, Ledger node₀ l p k ∧ (∀ c ∈ later, k c = 0) ∧
    (k .garbage = 0 ∨ ∀ b ∈ bits, hasBit p.data.flags b = false)

theorem Charged.weaken {later later' : List InCounter} {bits bits' : List UInt8}
    (h : Charged node₀ l later bits p) (hl : ∀ c ∈ later', c ∈ later)
    (hb : ∀ b ∈ bits', b ∈ bits) : Charged node₀ l later' bits' p := by
  obtain ⟨k, hk, hlater, hgarbage⟩ := h
  exact ⟨k, hk, fun c hc => hlater c (hl c hc),
    hgarbage.imp_right (fun hbits b hb' => hbits b (hb b hb'))⟩

theorem hasBit_zero (b : UInt8) : hasBit 0 b = false := by simp [hasBit]

theorem ne_zero_of_hasBit {f bit : UInt8} (h : hasBit f bit = true) : f ≠ 0 := by
  rintro rfl
  rw [hasBit_zero] at h
  cases h

theorem Ledger.reject (h : Ledger node₀ l p k) (hg : k .garbage = 0) {later : List InCounter}
    (hlater : ∀ c ∈ later, k c = 0) (hno : InCounter.garbage ∉ later) (bits : List UInt8) :
    Charged node₀ l later bits p.reject := by
  refine ⟨_, (h.addFirst (c := .garbage) (by decide) hg).frame rfl rfl, ?_, Or.inr ?_⟩
  · intro c hc
    rw [Function.update_of_ne (by rintro rfl; exact hno hc)]
    exact hlater c hc
  · intro b _
    rw [reject_flags]
    exact hasBit_zero b

theorem needAckStage_charged (h : Ledger node₀ l p (fun _ => 0))
    (hlen : hasBit p.data.flags needAck = true → 2 ≤ p.data.buflen) :
    Charged node₀ l [.ackData, .dupeData] [blkAck, bwMsg, blkBlock] p.needAckStage := by
  by_cases hbit : hasBit p.data.flags needAck = true
  · have hle := hlen hbit
    have hb := h.buflen_le
    by_cases hvalid : validateBlock p.data.buf (subSize p.data.buflen ackSize) = true
    · obtain ⟨hdata, -, hstats⟩ := answer_frame (p := ((p.noteSub ackSize).sub ackSize).addStat
        .data ackSize) (stripAck p.data.buf p.data.buflen)
      rw [needAckStage_asked hbit hvalid]
      refine ⟨_, h.addData (n := ackSize) (b := p.data.buflen - 2) ?_ ?_ (by rw [hstats]; rfl), ?_,
        Or.inl ?_⟩
      · simp only [ackSize]
        omega
      · rw [hdata]
        exact subSize_of_le hle
      · intro c hc
        rw [Function.update_of_ne]
        rintro rfl
        simp at hc
      · exact Function.update_of_ne (by decide) _ _
    · rw [needAckStage_rejected hbit (Bool.eq_false_iff.mpr hvalid)]
      have hframe : Ledger node₀ l (p.noteSub ackSize) (fun _ => 0) := h.frame rfl rfl
      exact hframe.reject rfl (fun _ _ => rfl) (by decide) _
  · rw [needAckStage_unasked (Bool.eq_false_iff.mpr hbit)]
    exact ⟨_, h, fun _ _ => rfl, Or.inl rfl⟩

theorem xor_eq_zero_iff (f g : UInt8) : (f ^^^ g == 0) = true ↔ f = g :=
  beq_iff_eq.trans UInt8.xor_eq_zero_iff

theorem validateAck_flags {blob : Bytes} {n : ℕ} (h : validateAck blob n = true) :
    byteAt blob 0 = blkAck := by
  unfold validateAck at h
  split at h
  · exact (xor_eq_zero_iff _ _).mp h
  · cases h

theorem ackStage_charged (h : Charged node₀ l [.ackData, .dupeData] [blkAck, bwMsg, blkBlock] p) :
    Charged node₀ l [.dupeData] [bwMsg, blkBlock] p.ackStage := by
  by_cases hbit : hasBit p.data.flags blkAck = true
  · obtain ⟨k, hk, hlater, hgarbage⟩ := h
    have hg : k .garbage = 0 := hgarbage.resolve_right (fun hall => by simp [hall blkAck] at hbit)
    by_cases hvalid : validateAck p.data.buf p.data.buflen = true
    · have hack := (hk.addOther (c := .ack) (by decide) 1).addFirst (c := .ackData) (by decide)
        (hlater .ackData (by simp))
      have hflags : ∀ b ∈ [bwMsg, blkBlock], hasBit p.data.flags b = false := by
        rw [IncomingData.flags, validateAck_flags hvalid]
        simp only [List.forall_mem_cons]
        exact ⟨rfl, rfl, fun _ hb => absurd hb List.not_mem_nil⟩
      have hdupe : ∀ c ∈ [InCounter.dupeData],
          Function.update k .ackData p.data.buflen c = 0 := by
        intro c hc
        rw [Function.update_of_ne (by rintro rfl; simp at hc)]
        exact hlater c (List.mem_cons_of_mem _ hc)
      simp only [ackStage, hbit, hvalid, if_true]
      split
      · exact ⟨_, hack.frame rfl rfl, hdupe, Or.inr hflags⟩
      · split
        · exact ⟨_, hack.frame rfl rfl, hdupe, Or.inr hflags⟩
        · -- The packet answers nothing outstanding: garbage, with flags that end the matter.
          have hgarb := hack.addFirst (c := .garbage) (by decide)
            (by rw [Function.update_of_ne (by decide)]; exact hg)
          refine ⟨_, hgarb.addOther (by decide) 1, ?_, Or.inr hflags⟩
          intro c hc
          rw [Function.update_of_ne (by rintro rfl; simp at hc)]
          exact hdupe c hc
    · have hstage : p.ackStage = p.reject := by simp [ackStage, hbit, hvalid]
      rw [hstage]
      exact Ledger.reject hk hg (fun c hc => hlater c (List.mem_cons_of_mem _ hc)) (by decide) _
  · have hstage : p.ackStage = p := by simp [ackStage, hbit]
    rw [hstage]
    exact h.weaken (by simp) (by simp)

theorem bwStage_charged (h : Charged node₀ l [.dupeData] [bwMsg, blkBlock] p) :
    Charged node₀ l [.dupeData] [blkBlock] p.bwStage := by
  by_cases hbit : hasBit p.data.flags bwMsg = true
  · obtain ⟨k, hk, hlater, hgarbage⟩ := h
    have hg : k .garbage = 0 := hgarbage.resolve_right (fun hall => by simp [hall bwMsg] at hbit)
    have hreject : Charged node₀ l [.dupeData] [blkBlock] p.reject :=
      Ledger.reject hk hg hlater (by decide) _
    by_cases hvalid : validateBw p.data.buf p.data.buflen = true
    · simp only [bwStage, hbit, hvalid, if_true]
      split
      · exact hreject
      · exact ⟨k, hk.frame rfl rfl, hlater, Or.inl hg⟩
    · have hstage : p.bwStage = p.reject := by simp [bwStage, hbit, hvalid]
      rw [hstage]
      exact hreject
  · have hstage : p.bwStage = p := by simp [bwStage, hbit]
    rw [hstage]
    exact h.weaken (by simp) (by simp)

theorem fragmentAdded_charged (h : Ledger node₀ l p k) (hg : k .garbage = 0)
    (hd : k .dupeData = 0) (fragment : FragmentData) (r : AddResult) :
    Charged node₀ l [] [] (p.fragmentAdded fragment r) := by
  have hgarbage : Charged node₀ l [] [] (p.addStat .garbage p.data.buflen) :=
    ⟨_, h.addFirst (by decide) hg, by simp, Or.inr (by simp)⟩
  cases r with
  | added =>
    simp only [fragmentAdded]
    split
    · exact ⟨k, h.frame rfl rfl, by simp, Or.inl hg⟩
    · exact ⟨k, h.frame rfl rfl, by simp, Or.inl hg⟩
  | duplicate =>
    have hone := h.addOther (c := .dupe) (by decide) 1
    exact ⟨_, hone.addFirst (c := .dupeData) (by decide) hd, by simp, Or.inr (by simp)⟩
  | fragmentsMismatch => exact hgarbage
  | fragmentidOutOfBounds => exact hgarbage
  | badLen => exact hgarbage

theorem blockStage_charged (h : Charged node₀ l [.dupeData] [blkBlock] p) (junk : UInt16) :
    Charged node₀ l [] [] (p.blockStage junk) := by
  by_cases hbit : hasBit p.data.flags blkBlock = true
  · obtain ⟨k, hk, hlater, hgarbage⟩ := h
    have hg : k .garbage = 0 := hgarbage.resolve_right (fun hall => by simp [hall blkBlock] at hbit)
    have hreject : Charged node₀ l [] [] p.reject :=
      Ledger.reject hk hg (by simp) (by simp) _
    by_cases hvalid : validateBlock p.data.buf p.data.buflen = true
    · simp only [blockStage, hbit, hvalid, if_true]
      split
      · exact hreject
      · split
        · exact ⟨k, hk.frame rfl rfl, by simp, Or.inl hg⟩
        · rename_i cache r _
          have hframe : Ledger node₀ l { p with node := { p.node with cache := cache } } k :=
            hk.frame rfl rfl
          exact fragmentAdded_charged hframe hg (hlater _ (by simp)) _ _
    · have hstage : p.blockStage junk = p.reject := by simp [blockStage, hbit, hvalid]
      rw [hstage]
      exact hreject
  · have hstage : p.blockStage junk = p := by simp [blockStage, hbit]
    rw [hstage]
    exact h.weaken (by simp) (by simp)

theorem andThen_charged {Before After : Processing → Prop} {stage : Processing → Processing}
    (h : Before p) (hstage : ∀ p, Before p → After (stage p)) (hskip : ∀ p, Before p → After p) :
    After (p.andThen stage) := by
  unfold andThen
  split
  · exact hstage p h
  · exact hskip p h

theorem countStage_charged (h : Charged node₀ l [] [] p) :
    ∃ k : InCounter → ℕ, (∀ c ∈ lengthCounters,
      p.countStage.node.statsR c = node₀.statsR c + UInt64.ofNat (k c)) ∧ ∀ c, k c ≤ l := by
  obtain ⟨k, hk, -, -⟩ := h
  have hdata := hk.data
  -- Charged as if the remaining bytes were taken off together with the addition.
  have hcount : Ledger node₀ l { p.countStage with data := { p.data with buflen := 0 } }
      (Function.update k .data (k .data + p.data.buflen)) :=
    Ledger.addOther (p := { p.addStat .data p.data.buflen with
      data := { p.data with buflen := 0 } }) (hk.addData (by omega) rfl rfl) (by decide) 1
  exact ⟨_, hcount.stats, hcount.bound⟩

theorem start (node : Node) (data : IncomingData) :
    Ledger node data.buflen ⟨node, data, [], none⟩ (fun _ => 0) :=
  ⟨fun c _ => by simp, fun _ => Nat.zero_le _, by simp⟩

/-- With room, the port trailer leaves the ack cookie that the flags announce. -/
theorem portStage_charged (node : Node) {data : IncomingData} (h : data.HasRoom)
    (hl : 1 < data.buflen) :
    Ledger node data.buflen (⟨node, data, [], none⟩ : Processing).portStage (fun _ => 0) ∧
      (hasBit (⟨node, data, [], none⟩ : Processing).portStage.data.flags needAck = true →
        2 ≤ (⟨node, data, [], none⟩ : Processing).portStage.data.buflen) ∧
      (⟨node, data, [], none⟩ : Processing).portStage.fault = none := by
  have hstart := start node data
  by_cases hf : data.flags = 0
  · obtain ⟨-, hfault, hdata, hstats⟩ := portStage_noFlags (p := ⟨node, data, [], none⟩) hf
    refine ⟨hstart.frame hstats (by rw [hdata]), ?_, hfault⟩
    intro hbit
    rw [hdata, show data.flags = 0 from hf] at hbit
    exact absurd hbit (by decide)
  · have hle : data.trailer ≤ data.buflen := by
      rcases h with h | h | h
      · omega
      · exact absurd h hf
      · exact h
    obtain ⟨hnode, hflags, -, hfault, hzero, hset⟩ :=
      portStage_eq (p := ⟨node, data, [], none⟩) hf hl
    simp only at hzero hset
    rw [hflags]
    unfold IncomingData.trailer at hle
    by_cases hz : data.portByte = 0
    · have hlen := (hzero hz).1
      simp only [hz, ne_eq, not_true_eq_false, if_false] at hle
      refine ⟨⟨by rw [hnode]; exact hstart.stats, hstart.bound, ?_⟩, ?_, hfault⟩
      · rw [hlen]
        simp
      · intro hbit
        rw [if_pos hbit] at hle
        rw [hlen]
        exact Nat.le_sub_of_add_le hle
    · have hlen := (hset hz).1
      simp only [hz, ne_eq, not_false_eq_true, if_true] at hle
      rw [subSize_of_le (by omega)] at hlen
      refine ⟨⟨by rw [hnode]; exact hstart.stats, hstart.bound, ?_⟩, ?_, hfault⟩
      · rw [hlen]
        omega
      · intro hbit
        rw [if_pos hbit] at hle
        rw [hlen]
        omega

theorem packetProcessor_charged (node : Node) {data : IncomingData} (junk : UInt16)
    (h : data.HasRoom) :
    ∃ p, Charged node data.buflen [] [] p ∧
      (packetProcessor node data junk = p.countStage ∨ packetProcessor node data junk = p) := by
  have hend : ∀ p : Processing, p.andThen countStage = p.countStage ∨ p.andThen countStage = p := by
    intro p
    unfold andThen
    split
    · exact Or.inl rfl
    · exact Or.inr rfl
  refine ⟨_, ?_, hend _⟩
  split
  · rename_i hl
    obtain ⟨hledger, hlen, hfault⟩ := portStage_charged node h hl
    have hack : Charged node data.buflen [.ackData, .dupeData] [blkAck, bwMsg, blkBlock]
        ((⟨node, data, [], none⟩ : Processing).portStage.andThen needAckStage) := by
      simp only [andThen, hfault]
      exact needAckStage_charged hledger hlen
    have hanswered := andThen_charged hack (fun p hp => ackStage_charged hp)
      (fun p hp => hp.weaken (by simp) (by simp))
    have hmessage := andThen_charged hanswered (fun p hp => bwStage_charged hp)
      (fun p hp => hp.weaken (by simp) (by simp))
    exact andThen_charged hmessage (fun p hp => blockStage_charged hp junk)
      (fun p hp => hp.weaken (by simp) (by simp))
  · exact ⟨_, start node data, by simp, Or.inl rfl⟩

end Ledger

/-- The lengths of one datagram: no subtraction wraps, `buflen` never exceeds the length that
came in, and no length counter grows by more than it. -/
structure LengthsHold (node : Node) (data : IncomingData) (junk : UInt16) : Prop where
  subs : ∀ s ∈ (packetProcessor node data junk).subs, s.2 ≤ s.1 ∧ s.1 ≤ data.buflen
  last : (packetProcessor node data junk).data.buflen ≤ data.buflen
  counters : ∀ c ∈ lengthCounters,
    ((packetProcessor node data junk).node.statsR c - node.statsR c).toNat ≤ data.buflen

theorem sub_toNat_le (a : UInt64) (k l : ℕ) (h : k ≤ l) : (a + UInt64.ofNat k - a).toNat ≤ l := by
  have he : a + UInt64.ofNat k - a = UInt64.ofNat k := by
    rw [UInt64.add_comm, UInt64.add_sub_cancel]
  rw [he, UInt64.toNat_ofNat']
  exact le_trans (Nat.mod_le _ _) h

/-- For every datagram in every state, the lengths hold exactly when there is room for the
trailers that its flags and its port byte announce. -/
theorem lengths_hold_iff (node : Node) (data : IncomingData) (junk : UInt16) :
    LengthsHold node data junk ↔ data.HasRoom := by
  constructor
  · intro h
    exact hasRoom_of_subs node data junk (fun s hs => (h.subs s hs).1)
  · intro h
    obtain ⟨p, hcharged, hp⟩ := packetProcessor_charged node junk h
    refine ⟨subs_of_hasRoom node junk h, ?_, ?_⟩
    · obtain ⟨k, hk, -, -⟩ := hcharged
      have hle := hk.buflen_le
      rcases hp with hp | hp
      · rw [hp]
        exact hle
      · rw [hp]
        exact hle
    · intro c hc
      rcases hp with hp | hp
      · obtain ⟨k, hstats, hbound⟩ := countStage_charged hcharged
        rw [hp, hstats c hc]
        exact sub_toNat_le _ _ _ (hbound c)
      · obtain ⟨k, hk, -, -⟩ := hcharged
        rw [hp, hk.stats c hc]
        exact sub_toNat_le _ _ _ (hk.bound c)

/-- A slot of the receive buffer that holds the given bytes, zeros behind them. -/
def slotOf (bytes : Bytes) (h : bytes.length ≤ packetSize) : IncomingData where
  source := default
  buf := bytes ++ List.replicate (packetSize - bytes.length) 0
  buflen := bytes.length
  tv := default
  size := by rw [List.length_append, List.length_replicate]; omega

def Node.init : Node :=
  ⟨[], ⟨AckTable.init, NackTable.init, SendQueues.init, Cookies.init⟩, fun _ => 0, [], [], []⟩

/-- Two bytes, both not zero: the port bytes are taken off an empty packet. -/
theorem lengths_wrap : ¬ LengthsHold Node.init (slotOf [1, 1] (by decide)) 0 := by
  have hsubs : (packetProcessor Node.init (slotOf [1, 1] (by decide)) 0).subs = [(2, 2), (0, 2)] := by
    decide +kernel
  intro h
  have hwrap := (h.subs (0, 2) (by rw [hsubs]; simp)).1
  exact absurd hwrap (by decide)

end Bora
