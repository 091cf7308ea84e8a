import Bora.NodeTables

/-! The statistics of a peer against the packets recorded for it: acknowledged, resent and
outstanding packets together are never more than `append_ack` was called for, and an
acknowledgement that popped its entry finds nothing when it comes again. -/
namespace Bora

open ByteMemory Checked Processing Transition

namespace AckTable

/-- `total_acked` and `total_errors` of a peer together; nothing before its first ack. -/
def accounted (t : AckTable) (addr : SockAddr) : ℕ :=
  match t.findPeerByHost addr with
  | none => 0
  | some peer => peer.totalAcked.toNat + peer.totalErrors.toNat

/-- The list of values that `bora_BWIter_iternext` takes out of each peer's record. -/
def drain (t : AckTable) : AckTable :=
  { t with peeracklist := t.peeracklist.map (fun peer => { peer with ackStore := [] }) }

def releaseAckStore (t : AckTable) : AckTable where
  peeracklist := t.peeracklist.map (fun peer => { peer with lastAcked := 0, lastError := 0 })
  highestSeq := none

theorem accounted_map (t : AckTable) {g : PeerAckStore → PeerAckStore}
    (haddr : ∀ p, (g p).addr = p.addr) (hacked : ∀ p, (g p).totalAcked = p.totalAcked)
    (herrors : ∀ p, (g p).totalErrors = p.totalErrors) {u : AckTable}
    (hu : u.peeracklist = t.peeracklist.map g) (addr : SockAddr) :
    u.accounted addr = t.accounted addr := by
  have hfind : u.findPeerByHost addr = (t.findPeerByHost addr).map g := by
    simp only [findPeerByHost, hu, List.find?_map, Function.comp_def, haddr]
  unfold accounted
  rw [hfind]
  cases t.findPeerByHost addr with
  | none => rfl
  | some p => simp only [Option.map_some, hacked, herrors]

@[simp] theorem drain_accounted (t : AckTable) (addr : SockAddr) :
    t.drain.accounted addr = t.accounted addr :=
  accounted_map t (g := fun peer => { peer with ackStore := [] }) (fun _ => rfl) (fun _ => rfl)
    (fun _ => rfl) rfl addr

@[simp] theorem releaseAckStore_accounted (t : AckTable) (addr : SockAddr) :
    t.releaseAckStore.accounted addr = t.accounted addr :=
  accounted_map t (g := fun peer => { peer with lastAcked := 0, lastError := 0 }) (fun _ => rfl)
    (fun _ => rfl) (fun _ => rfl) rfl addr

@[simp] theorem raise_peeracklist (t : AckTable) (store : AckStore) :
    (t.raise store).peeracklist = t.peeracklist := by
  unfold raise
  split
  · rfl
  · split <;> rfl

end AckTable

def getAckStore (t : AckTable) : List PeerAckStore × Option AckStore :=
  (t.peeracklist, t.highestSeq)

theorem PeerAckStore.acked_totals (peer : PeerAckStore) (store : AckStore) (errors : ℕ) :
    (peer.acked store errors).addr = peer.addr ∧
      (peer.acked store errors).totalAcked.toNat + (peer.acked store errors).totalErrors.toNat ≤
        peer.totalAcked.toNat + peer.totalErrors.toNat + (1 + errors) := by
  have hacked : (peer.totalAcked + 1).toNat ≤ peer.totalAcked.toNat + 1 := by
    rw [UInt64.toNat_add]
    exact Nat.mod_le _ _
  have herrors : (peer.totalErrors + UInt64.ofNat errors).toNat ≤
      peer.totalErrors.toNat + errors := by
    rw [UInt64.toNat_add, UInt64.toNat_ofNat']
    omega
  unfold acked
  by_cases h : 0 < errors
  · simp only [h, if_true, true_and]
    omega
  · simp only [h, if_false, true_and]
    omega

section AckReceived

variable {s : AckState} (pop : Ack) (ackR : AckReceived) (received : Timeval) {source : SockAddr}

theorem ackReceived_peers_new (h : s.acks.findPeerByHost source = none) :
    ∃ peer : PeerAckStore, peer.addr = source ∧ peer.totalAcked = 1 ∧ peer.totalErrors = 0 ∧
      peer.lastAcked = 1 ∧ peer.lastError = 0 ∧
      peer.minRTT = (ackStoreOf pop ackR received source).RTT ∧
      peer.minSTT = (ackStoreOf pop ackR received source).STT ∧
      (ackReceived s pop ackR received source).acks.peeracklist = peer :: s.acks.peeracklist := by
  simp only [ackReceived, h, newPeer]
  split
  · exact ⟨_, rfl, rfl, rfl, rfl, rfl, rfl, rfl, by rw [AckTable.raise_peeracklist]⟩
  · exact ⟨_, rfl, rfl, rfl, rfl, rfl, rfl, rfl, by rw [AckTable.raise_peeracklist]⟩

theorem ackReceived_peers_known (h : s.acks.findPeerByHost source ≠ none) :
    (ackReceived s pop ackR received source).acks.peeracklist =
      FirstMatch.modify (fun p => p.addr = source)
        (fun p => p.acked (ackStoreOf pop ackR received source)
          ((s.nacks.unselected pop.d.dest (covered pop ackR.cons)).selected pop.d.dest
            (sentBefore pop)).length) s.acks.peeracklist := by
  obtain ⟨peer, hp⟩ := Option.ne_none_iff_exists'.mp h
  simp only [ackReceived, hp, knownPeer, removeLostAcks_eq, resendOooNacks_eq]
  split
  · exact AckTable.raise_peeracklist _ _
  · exact AckTable.raise_peeracklist _ _

theorem ackReceived_accounted_new (h : s.acks.findPeerByHost source = none) (addr : SockAddr) :
    (ackReceived s pop ackR received source).acks.accounted addr =
      if addr = source then 1 else s.acks.accounted addr := by
  obtain ⟨peer, haddr, hacked, herrors, -, -, -, -, hpeers⟩ :=
    ackReceived_peers_new pop ackR received h
  simp only [AckTable.accounted, AckTable.findPeerByHost, hpeers, List.find?_cons, haddr]
  by_cases hsource : addr = source
  · simp [hsource, hacked, herrors]
  · simp [hsource, Ne.symm hsource]

theorem ackReceived_accounted_known (h : s.acks.findPeerByHost source ≠ none) (addr : SockAddr) :
    (ackReceived s pop ackR received source).acks.accounted addr ≤
      s.acks.accounted addr + if addr = source then
        1 + ((s.nacks.unselected pop.d.dest (covered pop ackR.cons)).selected pop.d.dest
          (sentBefore pop)).length else 0 := by
  have hpeers := ackReceived_peers_known pop ackR received h
  generalize ((s.nacks.unselected pop.d.dest (covered pop ackR.cons)).selected pop.d.dest
    (sentBefore pop)).length = errors at hpeers ⊢
  generalize ackStoreOf pop ackR received source = store at hpeers
  simp only [AckTable.accounted, AckTable.findPeerByHost, hpeers]
  by_cases hsource : addr = source
  · subst addr
    rw [if_pos rfl, FirstMatch.find?_modify_same
      (fun p hp => by simpa [(p.acked_totals store errors).1] using hp)]
    cases s.acks.peeracklist.find? (fun p => p.addr = source) with
    | none => exact Nat.zero_le _
    | some p => exact (p.acked_totals store errors).2
  · rw [if_neg hsource, FirstMatch.find?_modify_other (fun p _ hp => by
      have haddr : p.addr = source := by simpa using hp
      simp [(p.acked_totals store errors).1, haddr, Ne.symm hsource])]
    exact le_rfl

/-- What leaves the list of the peer is what its statistics grow by, but for the one packet that
the acknowledgement was for. -/
theorem ackReceived_accounted (hpop : pop.d.dest = source) (addr : SockAddr) :
    (ackReceived s pop ackR received source).acks.accounted addr +
        ((ackReceived s pop ackR received source).nacks.nacksOf addr).length ≤
      s.acks.accounted addr + (s.nacks.nacksOf addr).length + if addr = source then 1 else 0 := by
  cases hpeer : s.acks.findPeerByHost source with
  | none =>
    obtain ⟨hn, -⟩ := ackReceived_new s pop ackR received source hpeer
    have hdrop := (NackTable.unselected_sublist s.nacks pop.d.dest (sentBefore pop) addr).length_le
    rw [hn, ackReceived_accounted_new pop ackR received hpeer]
    split <;> omega
  | some peer =>
    have hknown : s.acks.findPeerByHost source ≠ none := by simp [hpeer]
    obtain ⟨hn, -⟩ := ackReceived_known s pop ackR received source hknown
    have hacc := ackReceived_accounted_known pop ackR received hknown addr
    have hlost := (NackTable.unselected_sublist s.nacks pop.d.dest (covered pop ackR.cons)
      addr).length_le
    generalize s.nacks.unselected pop.d.dest (covered pop ackR.cons) = nacks at hn hacc hlost
    rw [hn]
    by_cases hsource : addr = source
    · have hsplit := List.length_eq_length_filter_add (l := nacks.nacksOf addr) (sentBefore pop)
      rw [if_pos hsource] at hacc ⊢
      rw [NackTable.selected, hpop, ← hsource] at hacc
      rw [NackTable.nacksOf_unselected, hpop, ← hsource, Function.update_self]
      omega
    · have hdrop := (NackTable.unselected_sublist nacks pop.d.dest (sentBefore pop) addr).length_le
      rw [if_neg hsource] at hacc ⊢
      omega

end AckReceived

theorem AckState.acknowledged_accounted {s : AckState} {ackR : AckReceived} {received : Timeval}
    {source : SockAddr} (hdest : ∀ a ∈ s.nacks.nacksOf source, a.d.dest = source)
    (addr : SockAddr) :
    (s.acknowledged ackR received source).acks.accounted addr +
        ((s.acknowledged ackR received source).nacks.nacksOf addr).length ≤
      s.acks.accounted addr + (s.nacks.nacksOf addr).length := by
  rcases hp : popAck s.nacks ackR.seq source with ⟨nacks, _ | pop⟩
  · simp only [acknowledged, hp, le_refl]
  obtain ⟨hfind, -, hnacks⟩ := popAck_some hp
  have hmem := List.mem_of_find?_eq_some hfind
  have hack : s.acknowledged ackR received source =
      ackReceived { s with nacks := nacks } pop ackR received source := by
    simp only [acknowledged, hp]
  have hle := ackReceived_accounted (s := { s with nacks := nacks }) pop ackR received
    (hdest pop hmem) addr
  rw [hack]
  refine hle.trans ?_
  simp only [hnacks]
  by_cases hsource : addr = source
  · subst addr
    rw [if_pos rfl, Function.update_self, List.length_eraseP_of_mem hmem (List.find?_some hfind)]
    have hpos := List.length_pos_of_mem hmem
    omega
  · rw [if_neg hsource, Function.update_of_ne hsource]
    exact le_rfl

/-- Besides the steps of the node: the bandwidth iterator empties the lists of values, and
`bws_set` clears what was counted since it was called last. -/
inductive AccountingAction
  | ship (a : ShippingAction)
  | drain
  | release

namespace Shipping

def setAcks (s : Shipping) (acks : AckTable) : Shipping :=
  { s with box := { s.box with tables := { s.box.tables with acks := acks } } }

def accountingStep (s : Shipping) : AccountingAction → Option Shipping
  | .ship a => s.step a
  | .drain => some (s.setAcks s.box.tables.acks.drain)
  | .release => some (s.setAcks s.box.tables.acks.releaseAckStore)

end Shipping

def accounting : System Shipping AccountingAction where
  init := shipping.init
  step := Shipping.accountingStep

namespace Outbox

/-- The packets that `append_ack` was called for with a destination. -/
def recordedFor (s : Outbox) (addr : SockAddr) : ℕ := s.recorded.countP (fun d => d.dest = addr)

/-- No packet is accounted for twice. -/
structure Books (s : Outbox) : Prop where
  addressed : s.Addressed
  le : ∀ addr, s.tables.acks.accounted addr + (s.tables.nacks.nacksOf addr).length ≤
    s.recordedFor addr

variable {s t : Outbox}

theorem books_init : init.Books where
  addressed := addressed_init
  le _ := le_rfl

theorem Books.congr (h : s.Books) (hst : Alike t s) : t.Books where
  addressed := by rw [Addressed, hst.tables]; exact h.addressed
  le := by rw [hst.tables, show t.recordedFor = s.recordedFor from
    funext fun addr => by rw [recordedFor, recordedFor, hst.recorded]]; exact h.le

theorem step_acks {a : OutboxAction} (ha : ∀ ackR received source, a ≠ .ack ackR received source)
    (hs : s.step a = some t) : t.tables.acks = s.tables.acks := by
  cases a with
  | sendData d => cases hs; rfl
  | fetch q =>
    obtain ⟨-, queues, d, -, rfl⟩ := step_fetch hs
    rfl
  | cookie addr =>
    obtain ⟨-, rfl⟩ := step_cookie hs
    rfl
  | transmit tEnd bandwidth z natPort =>
    obtain ⟨d, nacks, w, -, -, rfl⟩ := step_transmit hs
    rfl
  | ack ackR received source => exact absurd rfl (ha ackR received source)
  | timeout now => cases hs; rfl

theorem Books.step (h : s.Books) {a : OutboxAction} (hs : s.step a = some t) : t.Books := by
  refine ⟨(step_listMove hs).addressed h.addressed, fun addr => ?_⟩
  by_cases ha : ∃ ackR received source, a = .ack ackR received source
  · obtain ⟨ackR, received, source, rfl⟩ := ha
    cases hs
    exact (AckState.acknowledged_accounted (h.addressed source) addr).trans (h.le addr)
  · rw [step_acks (fun ackR received source he => ha ⟨ackR, received, source, he⟩) hs]
    have hle := h.le addr
    cases step_listMove hs with
    | @append d _ _ _ _ hrecorded _ hnacks =>
      rw [hnacks, recordedFor, hrecorded, List.countP_cons]
      rw [recordedFor] at hle
      by_cases hd : addr = d.dest
      · subst addr
        rw [Function.update_self, List.length_cons, if_pos (by simp)]
        omega
      · rw [Function.update_of_ne hd]
        omega
    | shrink hrecorded _ hnacks =>
      have hlen := (hnacks addr).length_le
      rw [recordedFor, hrecorded]
      rw [recordedFor] at hle
      omega

end Outbox

namespace Shipping

variable {s t : Shipping}

theorem accountingStep_box {a : AccountingAction} (hs : s.accountingStep a = some t) :
    (t.box.tables.nacks = s.box.tables.nacks ∧ t.box.recorded = s.box.recorded ∧
      ∀ addr, t.box.tables.acks.accounted addr = s.box.tables.acks.accounted addr) ∨
    ∃ a' box, s.box.step a' = some box ∧ Outbox.Alike t.box box := by
  cases a with
  | ship a =>
    rcases step_outbox hs with halike | ⟨a', box, hbox, halike, -⟩
    · exact Or.inl ⟨by rw [halike.tables], halike.recorded, fun _ => by rw [halike.tables]⟩
    · exact Or.inr ⟨a', box, hbox, halike⟩
  | drain =>
    cases hs
    exact Or.inl ⟨rfl, rfl, AckTable.drain_accounted _⟩
  | release =>
    cases hs
    exact Or.inl ⟨rfl, rfl, AckTable.releaseAckStore_accounted _⟩

theorem accountingStep_listMove {a : AccountingAction} (hs : s.accountingStep a = some t) :
    Outbox.ListMove s.box t.box := by
  rcases accountingStep_box hs with ⟨hnacks, hrecorded, -⟩ | ⟨a', box, hbox, halike⟩
  · exact .same hrecorded hnacks
  · exact (Outbox.step_listMove hbox).congr ⟨halike.tables.symm, halike.hand.symm,
      halike.recorded.symm⟩

theorem books_reachable (h : Reachable accounting s) : s.box.Books := by
  apply h.invariant
  · rintro s ⟨hbox, -⟩
    rw [hbox]
    exact Outbox.books_init
  · intro s a t hb _ hs
    rcases accountingStep_box hs with ⟨hnacks, hrecorded, hacc⟩ | ⟨a', box, hbox, halike⟩
    · refine ⟨by rw [Outbox.Addressed, hnacks]; exact hb.addressed, fun addr => ?_⟩
      rw [hacc, hnacks, Outbox.recordedFor, hrecorded]
      exact hb.le addr
    · exact (hb.step hbox).congr halike

end Shipping

namespace Outbox

variable {s t : Outbox} {source : SockAddr} {k : UInt16}

/-- Before the counter wraps, numbers are given out in order and each once. -/
structure Numbered (s : Outbox) : Prop where
  seq : s.tables.nacks.seqNum.toNat = s.recorded.length
  range : ∀ addr, ∀ a ∈ s.tables.nacks.nacksOf addr, a.seq.toNat ≤ s.recorded.length
  distinct : ∀ addr, ((s.tables.nacks.nacksOf addr).map Ack.seq).Nodup

/-- The number was given out, and no entry of the peer carries it any more. -/
structure Spent (source : SockAddr) (k : UInt16) (s : Outbox) : Prop where
  given : k.toNat ≤ s.recorded.length
  gone : ∀ a ∈ s.tables.nacks.nacksOf source, a.seq ≠ k

theorem numbered_init : init.Numbered where
  seq := rfl
  range := by
    intro addr a ha
    simp [init, AckState.init, NackTable.nacksOf, NackTable.findByHost, NackTable.init] at ha
  distinct _ := List.nodup_nil

theorem ListMove.recorded_le (hm : ListMove s t) : s.recorded.length ≤ t.recorded.length := by
  cases hm with
  | append _ _ hrecorded _ _ =>
    rw [hrecorded]
    exact Nat.le_succ _
  | shrink hrecorded _ _ => rw [hrecorded]

theorem Numbered.next (h : s.Numbered) {d : SendData} (hrecorded : t.recorded = d :: s.recorded)
    (hseq : t.tables.nacks.seqNum = s.tables.nacks.seqNum + 1)
    (hlen : t.recorded.length < 65536) :
    t.tables.nacks.seqNum.toNat = s.recorded.length + 1 := by
  rw [hrecorded, List.length_cons] at hlen
  rw [hseq, UInt16.toNat_add, UInt16.toNat_one, h.seq, Nat.mod_eq_of_lt hlen]

theorem Numbered.move (h : s.Numbered) (hm : ListMove s t) (hlen : t.recorded.length < 65536) :
    t.Numbered := by
  cases hm with
  | @append d tEnd sleeptime _ _ hrecorded hseq hnacks =>
    have hnext := h.next hrecorded hseq hlen
    have hlength : t.recorded.length = s.recorded.length + 1 := by rw [hrecorded, List.length_cons]
    refine ⟨hnext.trans hlength.symm, ?_, ?_⟩
    · rw [hnacks, hlength]
      exact (Function.forall_update_iff _ (fun _ (l : List Ack) =>
        ∀ a ∈ l, a.seq.toNat ≤ s.recorded.length + 1)).mpr
          ⟨List.forall_mem_cons.mpr ⟨hnext.le, fun a ha => (h.range _ a ha).trans (Nat.le_succ _)⟩,
            fun addr _ a ha => (h.range addr a ha).trans (Nat.le_succ _)⟩
    · rw [hnacks]
      refine (Function.forall_update_iff _ (fun _ (l : List Ack) => (l.map Ack.seq).Nodup)).mpr
        ⟨?_, fun addr _ => h.distinct addr⟩
      rw [List.map_cons, List.nodup_cons]
      refine ⟨fun hmem => ?_, h.distinct d.dest⟩
      obtain ⟨a, ha, hseqa⟩ := List.mem_map.mp hmem
      have hle := h.range d.dest a ha
      rw [hseqa, hnext] at hle
      omega
  | shrink hrecorded hseq hnacks =>
    refine ⟨by rw [hseq, hrecorded]; exact h.seq, ?_, ?_⟩
    · intro addr a ha
      rw [hrecorded]
      exact h.range addr a ((hnacks addr).subset ha)
    · intro addr
      exact ((hnacks addr).map Ack.seq).nodup (h.distinct addr)

theorem Spent.move (h : Spent source k s) (hn : s.Numbered) (hm : ListMove s t)
    (hlen : t.recorded.length < 65536) : Spent source k t := by
  refine ⟨h.given.trans hm.recorded_le, ?_⟩
  cases hm with
  | @append d tEnd sleeptime _ _ hrecorded hseq hnacks =>
    have hnext := hn.next hrecorded hseq hlen
    have hne : t.tables.nacks.seqNum ≠ k := by
      rintro rfl
      have hle := h.given
      omega
    intro a ha
    rw [hnacks] at ha
    by_cases hd : source = d.dest
    · subst source
      rw [Function.update_self] at ha
      rcases List.mem_cons.mp ha with rfl | ha
      · exact hne
      · exact h.gone a ha
    · rw [Function.update_of_ne hd] at ha
      exact h.gone a ha
  | shrink _ _ hnacks => exact fun a ha => h.gone a ((hnacks source).subset ha)

theorem spent_of_pop {nacks : List Ack} (hd : (nacks.map Ack.seq).Nodup) {pop : Ack}
    (hfind : nacks.find? (fun a => a.seq = k) = some pop) :
    ∀ a ∈ nacks.eraseP (fun a => a.seq = k), a.seq ≠ k := by
  have hpop : pop.seq = k := by simpa using List.find?_some hfind
  obtain ⟨b, l₁, l₂, hl₁, hb, hl, herase⟩ :=
    List.exists_of_eraseP (p := fun a : Ack => decide (a.seq = k))
      (List.mem_of_find?_eq_some hfind) (decide_eq_true hpop)
  have hbk : b.seq = k := of_decide_eq_true hb
  rw [hl, List.map_append, List.map_cons] at hd
  have hnot := (List.nodup_cons.mp (List.nodup_append.mp hd).2.1).1
  rw [herase]
  intro a ha hk
  rcases List.mem_append.mp ha with ha | ha
  · exact hl₁ a ha (by simpa using hk)
  · exact hnot (List.mem_map.mpr ⟨a, ha, hk.trans hbk.symm⟩)

end Outbox

theorem popAck_none {n : NackTable} {seq : UInt16} {source : SockAddr}
    (h : ∀ a ∈ n.nacksOf source, a.seq ≠ seq) : popAck n seq source = (n, none) := by
  unfold popAck
  unfold NackTable.nacksOf at h
  split at h
  · rfl
  · rename_i peer _
    have hnone : peer.nacks.find? (fun a => a.seq = seq) = none :=
      List.find?_eq_none.mpr (fun a ha => by simpa using h a ha)
    simp only [hnone]

theorem AckState.acknowledged_unfound {s : AckState} {ackR : AckReceived} {source : SockAddr}
    (h : ∀ a ∈ s.nacks.nacksOf source, a.seq ≠ ackR.seq) (received : Timeval) :
    s.acknowledged ackR received source = s := by
  simp only [acknowledged, popAck_none h]

/-- Two datagrams with the same bytes from the same source; the time they were received at and
what the slot of the buffer held before may differ. -/
structure SameDatagram (data data' : IncomingData) : Prop where
  source : data'.source = data.source
  buflen : data'.buflen = data.buflen
  bytes : data'.buf.take data.buflen = data.buf.take data.buflen

section SameDatagram

variable {data data' : IncomingData}

theorem SameDatagram.byteAt (h : SameDatagram data data') {i : ℕ} (hi : i < data.buflen) :
    byteAt data'.buf i = ByteMemory.byteAt data.buf i := by
  rw [← byteAt_take hi, h.bytes, byteAt_take hi]

theorem ackPacket_take {m : Bytes} {n : ℕ} (h : ackPacketSize ≤ n) :
    ackPacket (m.take n) = ackPacket m := by
  unfold ackPacketSize at h
  simp only [ackPacket, load16, load32, byteAt_take (m := m) (show 0 < n by omega),
    slice_take (m := m) (show 1 + 2 ≤ n by omega), slice_take (m := m) (show 3 + 4 ≤ n by omega),
    slice_take (m := m) (show 7 + 4 ≤ n by omega), slice_take (m := m) (show 11 + 2 ≤ n by omega)]

theorem SameDatagram.stripped (h : SameDatagram data data') (hl : 1 < data.buflen)
    (hf : data.flags ≠ 0) :
    data'.flags = data.flags ∧
      (stripped Node.init data').data.source = (Bora.stripped Node.init data).data.source ∧
      (Bora.stripped Node.init data').data.buflen =
        (Bora.stripped Node.init data).data.buflen := by
  have hflags : data'.flags = data.flags := h.byteAt (by omega)
  have hport : data'.portByte = data.portByte := by
    rw [IncomingData.portByte, h.buflen]
    exact h.byteAt (by omega)
  obtain ⟨-, -, -, -, hzero, hset⟩ := portStage_eq (p := ⟨Node.init, data, [], none⟩) hf hl
  obtain ⟨-, -, -, -, hzero', hset'⟩ := portStage_eq (p := ⟨Node.init, data', [], none⟩)
    (by rw [hflags]; exact hf) (by rw [h.buflen]; exact hl)
  simp only [hport, h.buflen, h.source] at hzero' hset'
  refine ⟨hflags, ?_⟩
  by_cases hz : data.portByte = 0
  · obtain ⟨hlen, hsource, -⟩ := hzero hz
    obtain ⟨hlen', hsource', -⟩ := hzero' hz
    exact ⟨hsource'.trans hsource.symm, hlen'.trans hlen.symm⟩
  · obtain ⟨hlen, hsource, -⟩ := hset hz
    obtain ⟨hlen', hsource', -⟩ := hset' hz
    exact ⟨hsource'.trans hsource.symm, hlen'.trans hlen.symm⟩

theorem stripped_ack_length (hl : 1 < data.buflen) (hf : data.flags ≠ 0)
    (hlen : (stripped Node.init data).data.buflen = ackPacketSize) :
    ackPacketSize ≤ data.buflen := by
  obtain ⟨-, -, -, -, hzero, hset⟩ := portStage_eq (p := ⟨Node.init, data, [], none⟩) hf hl
  unfold ackPacketSize at *
  by_cases hz : data.portByte = 0
  · have h := (hzero hz).1
    rw [show (⟨Node.init, data, [], none⟩ : Processing).portStage.data.buflen = 13 from hlen] at h
    dsimp only at h
    omega
  · have h := (hset hz).1
    rw [show (⟨Node.init, data, [], none⟩ : Processing).portStage.data.buflen = 13 from hlen] at h
    dsimp only [subSize] at h
    split at h <;> omega

theorem readAck_eq {p : Processing} (hf : p.data.flags = blkAck)
    (hlen : p.data.buflen = ackPacketSize) : p.readAck = decodeAck p.data.buf ackPacketSize := by
  have hbit : hasBit blkAck blkAck = true := by decide
  have hvalid : validateAck p.data.buf ackPacketSize = true := by
    rw [validateAck, if_pos rfl, beq_iff_eq, UInt8.xor_eq_zero_iff]
    exact hf
  rw [readAck, hf, hlen, hbit, hvalid, Bool.and_self, if_pos rfl]

theorem SameDatagram.receivedAck (h : SameDatagram data data') {r : AckReceived × SockAddr}
    (hr : receivedAck data = some r) : Bora.receivedAck data' = some r := by
  unfold Bora.receivedAck at hr ⊢
  split at hr
  · rename_i hl
    obtain ⟨ackR, hread, rfl⟩ := Option.map_eq_some_iff.mp hr
    obtain ⟨hflags, hlen, hdec⟩ := readAck_flags hread
    rw [(stripped_frame Node.init data).2.2.1] at hflags
    have hf : data.flags ≠ 0 := by rw [hflags]; decide
    obtain ⟨hflags', hsource, hlen'⟩ := h.stripped hl hf
    have hsize := stripped_ack_length hl hf hlen
    have hbuf : (Bora.stripped Node.init data).data.buf = data.buf :=
      (portStage_eq (p := ⟨Node.init, data, [], none⟩) hf hl).2.2.1
    have hbuf' : (Bora.stripped Node.init data').data.buf = data'.buf :=
      (portStage_eq (p := ⟨Node.init, data', [], none⟩) (by rw [hflags']; exact hf)
        (by rw [h.buflen]; exact hl)).2.2.1
    have hpacket : ackPacket data'.buf = ackPacket data.buf := by
      rw [← ackPacket_take hsize, h.bytes, ackPacket_take hsize]
    have hread' : (Bora.stripped Node.init data').readAck = some ackR := by
      rw [readAck_eq (by rw [(stripped_frame Node.init data').2.2.1, hflags', hflags])
        (hlen'.trans hlen), hbuf', ← hdec, hbuf]
      simp only [decodeAck, hpacket]
    rw [if_pos (by rw [h.buflen]; exact hl), hread', hsource]
    rfl
  · cases hr

end SameDatagram

def poppedBy (node : Node) (data : IncomingData) : Option Ack :=
  match receivedAck data with
  | none => none
  | some (ackR, source) => node.ack.popped ackR source

def accountingFrom (t : Shipping) : System Shipping AccountingAction where
  init s := s = t
  step := Shipping.accountingStep

namespace Shipping

variable {s t u : Shipping} {source : SockAddr} {k : UInt16}

theorem numbered_reachable (h : Reachable accounting s) (hlen : s.box.recorded.length < 65536) :
    s.box.Numbered := by
  revert hlen
  apply h.invariant
  · rintro s ⟨hbox, -⟩ -
    rw [hbox]
    exact Outbox.numbered_init
  · intro s a t hinv _ hs hlen
    have hm := accountingStep_listMove hs
    exact (hinv (lt_of_le_of_lt hm.recorded_le hlen)).move hm hlen

theorem spent_later (hn : t.box.recorded.length < 65536 → t.box.Numbered)
    (hspent : t.box.recorded.length < 65536 → Outbox.Spent source k t.box)
    (h : Reachable (accountingFrom t) u) (hlen : u.box.recorded.length < 65536) :
    Outbox.Spent source k u.box := by
  have hboth : u.box.recorded.length < 65536 → u.box.Numbered ∧ Outbox.Spent source k u.box := by
    apply h.invariant
    · rintro _ rfl hlen
      exact ⟨hn hlen, hspent hlen⟩
    · intro s a u hinv _ hs hlen
      have hm := accountingStep_listMove hs
      obtain ⟨hnum, hsp⟩ := hinv (lt_of_le_of_lt hm.recorded_le hlen)
      exact ⟨hnum.move hm hlen, hsp.move hnum hm hlen⟩
  exact (hboth hlen).2

/-- A datagram that pops an entry spends the number it carries. -/
theorem spent_datagram (h : Reachable accounting s) {data : IncomingData} {junk : UInt16}
    (hs : s.step (.datagram data junk) = some t) {a : Ack} (hpop : poppedBy s.node data = some a)
    (hlen : t.box.recorded.length < 65536) :
    ∃ ackR source, receivedAck data = some (ackR, source) ∧
      Outbox.Spent source ackR.seq t.box := by
  have hm := accountingStep_listMove (a := .ship (.datagram data junk)) hs
  have hnum := numbered_reachable h (lt_of_le_of_lt hm.recorded_le hlen)
  unfold poppedBy at hpop
  split at hpop
  · cases hpop
  rename_i ackR source hread
  refine ⟨ackR, source, hread, ?_⟩
  have hfind := AckState.popped_find hpop
  obtain rfl := datagram_some hs
  rcases packetProcessor_tables s.node data junk with ⟨ackR', source', hread', htables⟩ |
    ⟨hnone, -⟩
  · obtain ⟨rfl, rfl⟩ := Prod.mk.inj (Option.some.inj (hread.symm.trans hread'))
    have ha : a ∈ s.box.tables.nacks.nacksOf source := List.mem_of_find?_eq_some hfind
    have hseq : a.seq = ackR.seq := by simpa using List.find?_some hfind
    refine ⟨by rw [← hseq]; exact hnum.range source a ha, ?_⟩
    obtain ⟨-, hsub⟩ := s.node.ack.acknowledged_sublist_popAck ackR data.tv source source
    rcases hp : popAck s.node.ack.nacks ackR.seq source with ⟨nacks, r⟩
    rw [AckState.popped, hp] at hpop
    obtain rfl : r = some a := hpop
    obtain ⟨-, -, hnacks⟩ := popAck_some hp
    rw [hp, hnacks, Function.update_self] at hsub
    intro x hx
    rw [htables] at hx
    exact Outbox.spent_of_pop (hnum.distinct source) hfind x (hsub.subset hx)
  · rw [hread] at hnone
    cases hnone

/-- In every run: for every peer the packets counted as acknowledged, those counted as resent and
those outstanding are together at most those that `append_ack` was called for; and before the
counter wraps, a datagram that popped an entry changes nothing when it is processed again. -/
theorem accounted_once (h : Reachable accounting s) :
    (∀ addr, s.box.tables.acks.accounted addr + (s.box.tables.nacks.nacksOf addr).length ≤
      s.box.recordedFor addr) ∧
    ∀ data junk t a, accounting.step s (.ship (.datagram data junk)) = some t →
      poppedBy s.node data = some a →
      ∀ u, Reachable (accountingFrom t) u → u.box.recorded.length < 65536 →
        ∀ data' junk', SameDatagram data data' →
          (packetProcessor u.node data' junk').node.ack = u.box.tables := by
  refine ⟨(books_reachable h).le, ?_⟩
  intro data junk t a hs hpop u hu hlen data' junk' hsame
  have hmono : t.box.recorded.length ≤ u.box.recorded.length := by
    apply hu.invariant
    · rintro _ rfl
      exact le_rfl
    · intro s a u hle _ hs
      exact hle.trans (accountingStep_listMove hs).recorded_le
  have htlen := lt_of_le_of_lt hmono hlen
  obtain ⟨ackR, source, hread, hspent⟩ := spent_datagram h hs hpop htlen
  have hlater := spent_later (fun hl => numbered_reachable (h.step trivial hs) hl)
    (fun _ => hspent) hu hlen
  rcases packetProcessor_tables u.node data' junk' with ⟨ackR', source', hread', htables⟩ |
    ⟨hnone, -⟩
  · have heq := (hsame.receivedAck hread).symm.trans hread'
    obtain ⟨rfl, rfl⟩ := Prod.mk.inj (Option.some.inj heq)
    exact htables.trans (AckState.acknowledged_unfound hlater.gone data'.tv)
  · rw [hsame.receivedAck hread] at hnone
    cases hnone

def firstAck : IncomingData :=
  { slotOf ((ackFor 1 0 default ⟨1, 1⟩).data ++ store16 0) (by decide) with source := ⟨2, 1⟩ }

/-- One packet, acknowledged; the acknowledgement comes once more. -/
theorem accounted_once_again :
    ∃ s t a, Reachable accounting s ∧
      accounting.step s (.ship (.datagram firstAck 0)) = some t ∧
      poppedBy s.node firstAck = some a ∧ t.box.tables.acks.accounted ⟨2, 1⟩ = 1 ∧
      (packetProcessor t.node firstAck 0).node.ack = t.box.tables ∧
      t.box.tables.acks.accounted ⟨2, 1⟩ + (t.box.tables.nacks.nacksOf ⟨2, 1⟩).length ≤
        t.box.recordedFor ⟨2, 1⟩ := by
  have hrun : (accounting.runIf (fun _ _ => True) oneBlock
      [.ship (.sendblock ⟨1, 1⟩ ⟨2, 1⟩ 0), .ship (.outbox (.fetch .send)),
        .ship (.outbox (.transmit ⟨1, 0⟩ 1000000 false 0))]).bind
      (fun s => (s.accountingStep (.ship (.datagram firstAck 0))).map
        (fun t => ((poppedBy s.node firstAck).isSome, t.box.tables.acks.accounted ⟨2, 1⟩,
          t.box.recorded.length))) = some (true, 1, 1) := by
    decide +kernel
  obtain ⟨s, hs, hnext⟩ := Option.bind_eq_some_iff.mp hrun
  obtain ⟨t, ht, hstate⟩ := Option.map_eq_some_iff.mp hnext
  obtain ⟨hpop, hstate⟩ := Prod.mk.inj hstate
  obtain ⟨hacked, hrecorded⟩ := Prod.mk.inj hstate
  obtain ⟨a, ha⟩ := Option.isSome_iff_exists.mp hpop
  have hinit : Reachable accounting oneBlock := .init ⟨rfl, rfl⟩
  have hreach : Reachable accounting s := hinit.runIf hs
  have hstep : accounting.step s (.ship (.datagram firstAck 0)) = some t := ht
  have htreach : Reachable accounting t := hreach.step trivial hstep
  have hlen : t.box.recorded.length < 65536 := by
    rw [hrecorded]
    decide
  refine ⟨s, t, a, hreach, hstep, ha, hacked, ?_, (accounted_once htreach).1 _⟩
  exact (accounted_once hreach).2 firstAck 0 t a hstep ha t (.init rfl) hlen firstAck 0
    ⟨rfl, rfl, rfl⟩

end Shipping

end Bora
