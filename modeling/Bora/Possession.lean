import Bora.Receiver

/-! A numbered fragment is answered before it is stored: which of the acknowledged fragments the
cache holds when their datagram has been processed. -/
namespace Bora

open ByteMemory Checked Processing Transition

/-- The length that a fragment of its index must have. -/
def FragmentData.HasBlockLength (f : FragmentData) : Prop :=
  (f.fragmentid.toNat + 1 = f.fragments.toNat → f.length.toNat ≤ mtu) ∧
    (f.fragmentid.toNat + 1 ≠ f.fragments.toNat → f.length.toNat = mtu)

/-- The fragment is held after the datagram, with its own bytes or with those that were held
before under the same count. -/
def Possessed (cache cache' : Cache) (f : FragmentData) : Prop :=
  ∃ b', findblock cache' f.id = some b' ∧ b'.heldAt f.fragmentid.toNat = true ∧
    (b'.fragmentBytes f.fragmentid.toNat = f.data ∨
      ∃ b, findblock cache f.id = some b ∧ b.heldAt f.fragmentid.toNat = true ∧
        b.fs.fn = f.fragments ∧
        b'.fragmentBytes f.fragmentid.toNat = b.fragmentBytes f.fragmentid.toNat)

/-- The fragments that the cache takes or has: a new one needs an index, a count and a length
that go together, one that is held already the count or the bytes of the cached block. -/
def Accepted (cache : Cache) (f : FragmentData) : Prop :=
  match findblock cache f.id with
  | none => f.fragmentid < f.fragments ∧ f.HasBlockLength
  | some b => f.fragmentid < b.fs.fn ∧
      (b.heldAt f.fragmentid.toNat = true →
        b.fs.fn = f.fragments ∨ b.fragmentBytes f.fragmentid.toNat = f.data) ∧
      (b.heldAt f.fragmentid.toNat = false → b.fs.fn = f.fragments ∧ f.HasBlockLength)

section Possession

variable {cache cache' : Cache} {b b' : Block} {f : FragmentData} {junk : UInt16} {r : AddResult}

theorem accepted_none (h : findblock cache f.id = none) :
    Accepted cache f ↔ f.fragmentid < f.fragments ∧ f.HasBlockLength := by
  simp only [Accepted, h]

theorem accepted_some (h : findblock cache f.id = some b) :
    Accepted cache f ↔ f.fragmentid < b.fs.fn ∧
      (b.heldAt f.fragmentid.toNat = true →
        b.fs.fn = f.fragments ∨ b.fragmentBytes f.fragmentid.toNat = f.data) ∧
      (b.heldAt f.fragmentid.toNat = false → b.fs.fn = f.fragments ∧ f.HasBlockLength) := by
  simp only [Accepted, h]

theorem Accepted.inBounds (h : Accepted cache f) : InBounds cache f := by
  unfold InBounds
  split
  · rename_i hfind
    obtain ⟨hi, hlen⟩ := (accepted_none hfind).mp h
    exact ⟨hi, hlen.1⟩
  · rename_i b hfind
    obtain ⟨hi, -, hnew⟩ := (accepted_some hfind).mp h
    exact ⟨hi, fun hheld _ => (hnew hheld).2.1⟩

theorem Stores.hasBlockLength (h : Stores f b b') (hn : b.fs.fn = f.fragments)
    (hsize : b.content.data.length = mtu * b.fs.fn.toNat)
    (hlen : f.fragmentid.toNat + 1 = f.fragments.toNat ∨ f.length.toNat = mtu) :
    f.HasBlockLength := by
  refine ⟨fun hlast => ?_, fun hinner => hlen.resolve_left hinner⟩
  have hfits := h.fits
  rw [hsize, hn, f.data_length] at hfits
  exact (fits_iff hlast).mp hfits

theorem Stores.possessed (h : Stores f b b') (hn : b.fs.fn = f.fragments)
    (hlen : f.fragmentid.toNat + 1 = f.fragments.toNat ∨ f.length.toNat = mtu)
    (hfind : findblock cache' f.id = some b') : Possessed cache cache' f :=
  ⟨b', hfind, h.heldAt_self, Or.inl (h.fragmentBytes hn hlen)⟩

/-- Of the outcomes of `addfragment`, those that leave the fragment held are the accepted ones. -/
theorem Outcome.possessed_iff (hroom : RoomyCache cache) (h : Outcome cache f junk cache' r) :
    Possessed cache cache' f ↔ Accepted cache f := by
  have hunheld : ∀ b, findblock cache f.id = some b → b.heldAt f.fragmentid.toNat = false →
      ¬ Possessed cache cache f := by
    rintro b hfind hheld ⟨b', hfind', hheld', -⟩
    obtain rfl : b = b' := Option.some.inj (hfind.symm.trans hfind')
    rw [hheld] at hheld'
    cases hheld'
  cases h with
  | @duplicate b hfind hheld =>
    rw [accepted_some hfind]
    constructor
    · rintro ⟨b', hfind', -, hbytes⟩
      obtain rfl : b = b' := Option.some.inj (hfind.symm.trans hfind')
      refine ⟨UInt16.lt_iff_toNat_lt.mpr (Block.heldAt_lt hheld), fun _ => ?_, fun hno => ?_⟩
      · rcases hbytes with hbytes | ⟨b', hfind'', -, hn, -⟩
        · exact Or.inr hbytes
        · obtain rfl : b = b' := Option.some.inj (hfind.symm.trans hfind'')
          exact Or.inl hn
      · rw [hheld] at hno
        cases hno
    · rintro ⟨-, hsame, -⟩
      refine ⟨b, hfind, hheld, ?_⟩
      rcases hsame hheld with hn | hbytes
      · exact Or.inr ⟨b, hfind, hheld, hn, rfl⟩
      · exact Or.inl hbytes
  | @mismatch b hfind hi hheld hn =>
    rw [accepted_some hfind]
    exact ⟨fun hp => absurd hp (hunheld b hfind hheld), fun ha => absurd (ha.2.2 hheld).1 hn⟩
  | @refused b hfind hi hheld hn hinner hlen =>
    rw [accepted_some hfind]
    exact ⟨fun hp => absurd hp (hunheld b hfind hheld),
      fun ha => absurd ((ha.2.2 hheld).2.2 hinner) hlen⟩
  | @stored b b' hfind hi hheld hn hlen hs =>
    rw [accepted_some hfind]
    have hfind' := (storeBlock_find hfind (hs.id_eq.trans (findblock_id hfind))).1
    have hsize := (hroom b (List.mem_of_find?_eq_some hfind)).resolve_left
      (fun hall => by simp [hall _ hi] at hheld)
    refine ⟨fun _ => ⟨UInt16.lt_iff_toNat_lt.mpr hi, fun hyes => ?_, fun _ => ?_⟩,
      fun _ => hs.possessed hn hlen hfind'⟩
    · rw [hheld] at hyes
      cases hyes
    · exact ⟨hn, hs.hasBlockLength hn hsize hlen⟩
  | refusedNew hfind hi hinner hlen =>
    rw [accepted_none hfind]
    constructor
    · rintro ⟨b', hfind', -⟩
      rw [hfind] at hfind'
      cases hfind'
    · exact fun ha => absurd (ha.2.2 hinner) hlen
  | @created b' hfind hi hlen hs =>
    rw [accepted_none hfind]
    have hid : b'.id = f.id := hs.id_eq
    have hfind' : findblock (b' :: cache) f.id = some b' := by rw [findblock_cons, if_pos hid]
    have hsize : (emptyBlock f.id f.fragments junk).content.data.length =
        mtu * (emptyBlock f.id f.fragments junk).fs.fn.toNat := by simp [emptyBlock]
    exact ⟨fun _ => ⟨UInt16.lt_iff_toNat_lt.mpr hi, hs.hasBlockLength rfl hsize hlen⟩,
      fun _ => hs.possessed rfl hlen hfind'⟩

end Possession

/-- Processing the datagram put an acknowledgement in the queue. -/
def AckQueued (node : Node) (data : IncomingData) (junk : UInt16) : Prop :=
  ∃ d : SendData, hasBit d.flags blkAck = true ∧
    (packetProcessor node data junk).node.ack.queues.queued .prio =
      node.ack.queues.queued .prio ++ [d]

section Acknowledged

variable {node : Node} {data : IncomingData} {junk : UInt16}

theorem not_ackQueued (h : (packetProcessor node data junk).node.ack = node.ack) :
    ¬ AckQueued node data junk := by
  rintro ⟨d, -, hqueue⟩
  rw [h] at hqueue
  simpa using congrArg List.length hqueue

theorem andThen_noFlags {p : Processing} (h : p.data.flags = 0) :
    ((p.andThen ackStage).andThen bwStage).andThen (blockStage junk) = p := by
  have hack : p.ackStage = p := by simp [ackStage, h, hasBit_zero]
  have hbw : p.bwStage = p := by simp [bwStage, h, hasBit_zero]
  have hblock : p.blockStage junk = p := by simp [blockStage, h, hasBit_zero]
  rw [andThen_unmoved hack, andThen_unmoved hbw, andThen_unmoved hblock]

theorem answer_fault {p : Processing} {seq : UInt16} {e : Fault} (hp : p.fault = none)
    (h : (p.answer seq).fault = some e) : (p.answer seq).node = p.node := by
  unfold answer at h ⊢
  split
  · rfl
  · rename_i cons hcons
    simp only [hcons] at h
    rw [show (p.sendData _).fault = p.fault from rfl, hp] at h
    cases h

theorem countStage_ack (p : Processing) : (p.andThen countStage).node.ack = p.node.ack := by
  unfold andThen
  split <;> rfl

theorem AckQueued.answered (h : AckQueued node data junk)
    (hask : hasBit data.flags needAck = true) :
    1 < data.buflen ∧ validateBlock (stripped node data).data.buf
      (subSize (stripped node data).data.buflen ackSize) = true ∧
      (beforeBlock node data).fault = none := by
  obtain ⟨-, hfault, hflags, hack⟩ := stripped_frame node data
  have hask' : hasBit (stripped node data).data.flags needAck = true := by
    rw [hflags]
    exact hask
  have hl : 1 < data.buflen := by
    by_contra hl
    refine not_ackQueued ?_ h
    rw [packetProcessor_eq, if_neg hl, countStage_ack]
  have hvalid : validateBlock (stripped node data).data.buf
      (subSize (stripped node data).data.buflen ackSize) = true := by
    by_contra hinvalid
    refine not_ackQueued ?_ h
    have hreject := needAckStage_rejected hask' (Bool.eq_false_iff.mpr hinvalid)
    have hrun : (beforeBlock node data).andThen (blockStage junk) =
        ((stripped node data).noteSub ackSize).reject := by
      show ((((stripped node data).andThen needAckStage).andThen ackStage).andThen
        bwStage).andThen (blockStage junk) = _
      rw [andThen_none hfault, hreject]
      exact andThen_noFlags reject_flags
    rw [packetProcessor_eq, if_pos hl, countStage_ack, hrun]
    exact hack
  refine ⟨hl, hvalid, ?_⟩
  obtain ⟨hbefore, -⟩ := beforeBlock_asked hask hvalid
  cases he : (beforeBlock node data).fault with
  | none => rfl
  | some e =>
    refine absurd h (not_ackQueued ?_)
    have hrun : (beforeBlock node data).andThen (blockStage junk) = beforeBlock node data := by
      simp only [andThen, he]
    rw [packetProcessor_eq, if_pos hl, countStage_ack, hrun]
    rw [hbefore, needAckStage_asked hask' hvalid] at he ⊢
    rw [answer_fault (p := ((((stripped node data).noteSub ackSize).sub ackSize).addStat .data
      ackSize)) hfault he]
    exact hack

/-- For every reachable receiver and every datagram that carries a fragment and is answered: its
processing ends with the fragment held exactly if the cache accepts the fragment. -/
theorem acked_possessed_iff {s : Receiver} (h : Reachable receiver s)
    (hask : hasBit data.flags needAck = true) (hblk : hasBit data.flags blkBlock = true)
    (hack : AckQueued s.node data junk) :
    ∃ f, receivedFragment s.node data = some f ∧
      ((packetProcessor s.node data junk).fault = none ∧
          Possessed s.node.cache (packetProcessor s.node data junk).node.cache f ↔
        Accepted s.node.cache f) := by
  have hroom := blockcache_roomy (receiver_cache h)
  obtain ⟨hl, hvalid, hfault⟩ := hack.answered hask
  obtain ⟨f, hf, -⟩ := receivedFragment_asked hl hask hblk hvalid
  obtain ⟨hbad, hgood⟩ := packetProcessor_received junk hf hfault
  refine ⟨f, hf, ?_⟩
  cases hadd : addfragment s.node.cache f (beforeBlock s.node data).data.source
      (beforeBlock s.node data).data.tv junk with
  | error e =>
    rw [hbad e hadd]
    constructor
    · rintro ⟨hno, -⟩
      cases hno
    · intro ha
      obtain ⟨res, hres⟩ := (addfragment_safe_iff hroom).mpr ha.inBounds
      rw [hadd] at hres
      cases hres
  | ok result =>
    obtain ⟨hend, hcache, -⟩ := hgood result.1 result.2 hadd
    rw [hcache, ← (addfragment_outcome hadd).possessed_iff hroom]
    exact and_iff_right hend

end Acknowledged

/-- The only fragment of a block, numbered 5. -/
def numberedFragment : IncomingData :=
  slotOf [0x81, 0, 1, 0, 0, 0, 1, 0, 0, 0, 1, 0, 2, 8, 9, 5, 0, 0, 0] (by decide)

theorem acked_possessed_only :
    ∃ f, receivedFragment Node.init numberedFragment = some f ∧
      Possessed Node.init.cache (packetProcessor Node.init numberedFragment 0).node.cache f := by
  have hack : AckQueued Node.init numberedFragment 0 :=
    ⟨ackFor 5 0 default default, by decide, by decide +kernel⟩
  have hinit : Reachable receiver ⟨Node.init, []⟩ := .init ⟨rfl, rfl, rfl⟩
  obtain ⟨f, hf, hiff⟩ := acked_possessed_iff hinit (by decide +kernel) (by decide +kernel) hack
  dsimp only at hf hiff
  have hreceived : receivedFragment Node.init numberedFragment =
      some ⟨1, 1, 0, 1, 2, [8, 9], rfl⟩ := by decide +kernel
  obtain rfl := Option.some.inj (hreceived.symm.trans hf)
  have haccepted : Accepted Node.init.cache ⟨1, 1, 0, 1, 2, [8, 9], rfl⟩ := by
    rw [accepted_none rfl]
    exact ⟨by decide, fun _ => by decide, fun h => absurd rfl h⟩
  exact ⟨_, hf, (hiff.mpr haccepted).2⟩

/-- Fragment 0 of 2, one byte long, numbered 5. -/
def shortFragment : IncomingData :=
  slotOf [0x81, 0, 1, 0, 0, 0, 1, 0, 0, 0, 2, 0, 1, 8, 5, 0, 0, 0] (by decide)

/-- It is acknowledged, but refused by `addfragment`. -/
theorem short_fragment_acked :
    Reachable receiver ⟨Node.init, []⟩ ∧ hasBit shortFragment.flags needAck = true ∧
      hasBit shortFragment.flags blkBlock = true ∧ AckQueued Node.init shortFragment 0 ∧
      receivedFragment Node.init shortFragment = some ⟨1, 1, 0, 2, 1, [8], rfl⟩ ∧
      ¬ Possessed [] (packetProcessor Node.init shortFragment 0).node.cache
        ⟨1, 1, 0, 2, 1, [8], rfl⟩ := by
  have hcache : (packetProcessor Node.init shortFragment 0).node.cache = [] := by decide +kernel
  refine ⟨.init ⟨rfl, rfl, rfl⟩, by decide +kernel, by decide +kernel,
    ⟨ackFor 5 0 default default, by decide, by decide +kernel⟩, by decide +kernel, ?_⟩
  rw [hcache]
  rintro ⟨b, hfind, -⟩
  cases hfind

end Bora
