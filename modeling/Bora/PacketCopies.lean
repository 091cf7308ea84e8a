import Bora.DatagramTables

/-! How many packets of one fragment there are between `sendblock` and the wire: in the queues,
in the lists of what is outstanding and in the hand of the sender thread. -/
namespace Bora

open ByteMemory Checked Processing Transition

def SendQueues.copies (s : SendQueues) (k : SendData → Bool) : ℕ :=
  (s.queued .prio).countP k + (s.queued .retr).countP k + (s.queued .send).countP k

def NackTable.copies (n : NackTable) (k : SendData → Bool) : ℕ :=
  (n.nacklist.map (fun p => p.nacks.countP (fun a => k a.d))).sum

def AckState.copies (a : AckState) (k : SendData → Bool) : ℕ := a.queues.copies k + a.nacks.copies k

/-- A resent packet counts as the packet it was. -/
def ResentAlike (k : SendData → Bool) : Prop := ∀ x y, resent x = some y → k y = k x

section Queues

variable {s t : SendQueues} {k : SendData → Bool}

theorem SendQueues.copies_congr (h : t.ring = s.ring) : t.copies k = s.copies k := by
  simp only [SendQueues.copies, SendQueues.queued_congr h]

theorem SendQueues.copies_sendData (hs : s.Valid) (d : SendData) :
    (s.sendData d).1.copies k =
      s.copies k + if (s.sendData d).2 = true ∧ k d = true then 1 else 0 := by
  obtain ⟨-, hqueued⟩ := SendQueues.sendData_spec hs d
  cases hacc : (s.sendData d).2 with
  | false => simp [SendQueues.copies, hqueued, hacc]
  | true =>
    simp only [SendQueues.copies, hqueued, hacc, true_and]
    cases hq : queueOf d <;> cases hk : k d <;> simp [hk] <;> omega

theorem SendQueues.copies_fetch (hs : s.Valid) {q : QueueName} {d : SendData}
    (h : s.fetch q = some (t, d)) : t.copies k + (if k d = true then 1 else 0) = s.copies k := by
  obtain ⟨-, hq, hother⟩ := SendQueues.fetch_some hs h
  cases q with
  | prio =>
    simp only [SendQueues.copies, hq, hother .retr (by decide), hother .send (by decide),
      List.countP_cons]
    omega
  | retr =>
    simp only [SendQueues.copies, hq, hother .prio (by decide), hother .send (by decide),
      List.countP_cons]
    omega
  | send =>
    simp only [SendQueues.copies, hq, hother .prio (by decide), hother .retr (by decide),
      List.countP_cons]
    omega

/-- A sweep queues at most one packet for each entry it takes from a list. -/
theorem SendQueues.copies_resends (hk : ResentAlike k) (hs : s.Valid) (nacks : List Ack) :
    (nacks.foldl resendNack s).copies k ≤ s.copies k + nacks.countP (fun a => k a.d) := by
  induction nacks generalizing s with
  | nil => exact Nat.le_add_right _ _
  | cons cur rest ih =>
    have hvalid : (resendNack s cur).Valid := (resends_spec hs [cur]).1
    have hstep : (resendNack s cur).copies k ≤ s.copies k + if k cur.d = true then 1 else 0 := by
      unfold resendNack
      split
      · exact Nat.le_add_right _ _
      · rename_i d hd
        rw [SendQueues.copies_sendData hs, hk cur.d d hd]
        split <;> split <;> simp_all
    have hrest := ih hvalid
    rw [List.foldl_cons, List.countP_cons]
    omega

end Queues

section Lists

variable {n n' : NackTable} {addr : SockAddr} {k : SendData → Bool}

theorem NackTable.copies_modifyNacks (n : NackTable) (addr : SockAddr) (k : SendData → Bool)
    {g : List Ack → List Ack} (hg : n.findByHost addr = none → g [] = []) :
    (n.modifyNacks addr g).copies k + (n.nacksOf addr).countP (fun a => k a.d) =
      n.copies k + (g (n.nacksOf addr)).countP (fun a => k a.d) := by
  cases hfind : n.findByHost addr with
  | none =>
    have hsame : (n.modifyNacks addr g).nacklist = n.nacklist :=
      FirstMatch.modify_of_find?_none _ hfind
    simp [NackTable.copies, hsame, NackTable.nacksOf, hfind, hg hfind]
  | some p =>
    have hnacks : n.nacksOf addr = p.nacks := by simp only [NackTable.nacksOf, hfind]
    rw [hnacks]
    exact FirstMatch.sum_modify (fun p : NackPeer => p.nacks.countP (fun a => k a.d)) hfind

theorem NackTable.copies_unselected (n : NackTable) (addr : SockAddr) (sel : Ack → Bool) :
    (n.unselected addr sel).copies k + (n.selected addr sel).countP (fun a => k a.d) =
      n.copies k := by
  have hmod := NackTable.copies_modifyNacks n addr k (g := List.filter (fun a => !sel a))
    (fun _ => rfl)
  have hsplit := List.countP_eq_countP_filter_add (n.nacksOf addr) (fun a => k a.d) sel
  rw [NackTable.unselected, NackTable.selected]
  omega

theorem NackTable.copies_ensurePeer (n : NackTable) (addr : SockAddr) :
    (n.ensurePeer addr).copies k = n.copies k := by
  unfold NackTable.ensurePeer
  split
  · simp [NackTable.copies]
  · rfl

theorem copies_appendAck {d d' : SendData} {sendtime : Timeval} {sleeptime : UInt32}
    (h : appendAck n d sendtime sleeptime = .ok (n', d')) :
    n'.copies k = n.copies k + if k d = true then 1 else 0 := by
  obtain ⟨d₁, -, h⟩ := bind_eq_ok.mp h
  cases h
  have hmod := NackTable.copies_modifyNacks ({ n with seqNum := n.seqNum + 1 }.ensurePeer d.dest)
    d.dest k (g := (⟨n.seqNum + 1, sendtime, sleeptime, d⟩ :: ·))
    (fun hnone => absurd hnone (NackTable.ensurePeer_find _ _))
  have hseq : NackTable.copies { n with seqNum := n.seqNum + 1 } k = n.copies k := rfl
  rw [NackTable.copies_ensurePeer, hseq, List.countP_cons] at hmod
  dsimp only at hmod
  omega

theorem copies_popAck (n : NackTable) (seq : UInt16) (source : SockAddr) :
    (popAck n seq source).1.copies k ≤ n.copies k := by
  unfold popAck
  split
  · exact le_rfl
  split
  · exact le_rfl
  · have hmod := NackTable.copies_modifyNacks n source k (g := List.eraseP (fun a => a.seq = seq))
      (fun _ => rfl)
    have hle := ((n.nacksOf source).eraseP_sublist (p := fun a => a.seq = seq)).countP_le
      (p := fun a => k a.d)
    simp only
    omega

theorem copies_timeouts (n : NackTable) (q : SendQueues) (timeout : SockAddr → UInt64)
    (now : Timeval) :
    (resendTimeoutNacks n q timeout now).1.copies k +
      (n.timedOutNacks timeout (timeToUsec now)).countP (fun a => k a.d) = n.copies k := by
  simp only [resendTimeoutNacks, resendTimeoutLoop_eq, NackTable.copies, NackTable.timedOutNacks]
  induction n.nacklist with
  | nil => rfl
  | cons p rest ih =>
    have hsplit := List.countP_eq_countP_filter_add p.nacks (fun a => k a.d)
      (timedOut (timeToUsec now) (timeout p.addr))
    simp only [List.map_cons, List.sum_cons, List.flatMap_cons, List.countP_append] at ih ⊢
    omega

end Lists

/-- The queues are valid, each holds what `send_data` puts there, and together with the lists
they hold at most `m` packets that satisfy `k`. -/
structure Within (k : SendData → Bool) (m : ℕ) (a : AckState) : Prop where
  valid : a.queues.Valid
  sorted : ∀ q, ∀ d ∈ a.queues.queued q, queueOf d = q
  le : a.copies k ≤ m

section Operations

variable {k : SendData → Bool} {m : ℕ} {a : AckState}

theorem sorted_sendData {s : SendQueues} (hs : s.Valid)
    (h : ∀ q, ∀ d ∈ s.queued q, queueOf d = q) (d : SendData) :
    ∀ q, ∀ x ∈ (s.sendData d).1.queued q, queueOf x = q := by
  intro q x hx
  rw [(SendQueues.sendData_spec hs d).2 q] at hx
  rcases List.mem_append.mp hx with hx | hx
  · exact h q x hx
  · split at hx
    · rename_i hacc
      rw [List.mem_singleton.mp hx, hacc.2]
    · simp at hx

theorem sorted_resends {s : SendQueues} (hs : s.Valid)
    (h : ∀ q, ∀ d ∈ s.queued q, queueOf d = q) (nacks : List Ack) :
    ∀ q, ∀ x ∈ (nacks.foldl resendNack s).queued q, queueOf x = q := by
  induction nacks generalizing s with
  | nil => exact h
  | cons cur rest ih =>
    refine ih (resends_spec hs [cur]).1 ?_
    unfold resendNack
    split
    · exact h
    · exact sorted_sendData hs h _

theorem Within.sendData (h : Within k m a) {d : SendData} (hd : k d = false) :
    Within k m (a.setQueues (a.queues.sendData d).1) where
  valid := (SendQueues.sendData_spec h.valid d).1
  sorted := sorted_sendData h.valid h.sorted d
  le := by
    have hle := h.le
    simp only [AckState.copies, AckState.setQueues, SendQueues.copies_sendData h.valid, hd,
      Bool.false_eq_true, and_false, if_false] at hle ⊢
    exact hle

theorem Within.ackReceived (hk : ResentAlike k) (h : Within k m a) (pop : Ack)
    (ackR : AckReceived) (received : Timeval) (source : SockAddr) :
    Within k m (ackReceived a pop ackR received source) := by
  have hle := h.le
  unfold AckState.copies at hle
  cases hpeer : a.acks.findPeerByHost source with
  | none =>
    obtain ⟨hn, hq⟩ := ackReceived_new a pop ackR received source hpeer
    have hdrop := NackTable.copies_unselected (k := k) a.nacks pop.d.dest (sentBefore pop)
    refine ⟨by rw [hq]; exact h.valid, by rw [hq]; exact h.sorted, ?_⟩
    rw [AckState.copies, hn, hq]
    omega
  | some peer =>
    obtain ⟨hn, hq⟩ := ackReceived_known a pop ackR received source (by simp [hpeer])
    have hlost := NackTable.copies_unselected (k := k) a.nacks pop.d.dest (covered pop ackR.cons)
    have hover := NackTable.copies_unselected (k := k)
      (a.nacks.unselected pop.d.dest (covered pop ackR.cons)) pop.d.dest (sentBefore pop)
    have hqueue := SendQueues.copies_resends hk h.valid
      ((a.nacks.unselected pop.d.dest (covered pop ackR.cons)).selected pop.d.dest (sentBefore pop))
    refine ⟨by rw [hq]; exact (resends_spec h.valid _).1,
      by rw [hq]; exact sorted_resends h.valid h.sorted _, ?_⟩
    rw [AckState.copies, hn, hq]
    omega

theorem Within.acknowledged (hk : ResentAlike k) (h : Within k m a) (ackR : AckReceived)
    (received : Timeval) (source : SockAddr) :
    Within k m (a.acknowledged ackR received source) := by
  have hpop := copies_popAck (k := k) a.nacks ackR.seq source
  have hle := h.le
  unfold AckState.copies at hle
  unfold AckState.acknowledged
  split
  · rename_i nacks pop hp
    rw [hp] at hpop
    dsimp only at hpop
    have hin : Within k m { a with nacks := nacks } :=
      ⟨h.valid, h.sorted, by simp only [AckState.copies]; omega⟩
    exact hin.ackReceived hk pop ackR received source
  · exact h

theorem Within.sweepTimeouts (hk : ResentAlike k) (h : Within k m a) (now : Timeval) :
    Within k m (a.sweepTimeouts now) := by
  have hle := h.le
  unfold AckState.copies at hle
  have hlists := copies_timeouts (k := k) a.nacks a.queues a.acks.getTimeoutValue now
  have hq : (a.sweepTimeouts now).queues = (a.timedOut now).foldl resendNack a.queues :=
    (resendTimeoutNacks_spec a.nacks a.queues a.acks.getTimeoutValue now).2.1
  have hqueue := SendQueues.copies_resends hk h.valid (a.timedOut now)
  refine ⟨by rw [hq]; exact (resends_spec h.valid _).1,
    by rw [hq]; exact sorted_resends h.valid h.sorted _, ?_⟩
  rw [AckState.copies, hq]
  have hn : (a.sweepTimeouts now).nacks.copies k + (a.timedOut now).countP (fun a => k a.d) =
      a.nacks.copies k := hlists
  omega

end Operations

/-- A fragment on its way to a destination. -/
structure Parcel where
  dest : SockAddr
  id : BlockID
  fragmentid : UInt16
deriving DecidableEq

def Parcel.inPacket (K : Parcel) (d : SendData) : Bool :=
  blockFragment d && d.dest == K.dest && (getFragmentId d.data d.length).id == K.id &&
    (getFragmentId d.data d.length).fragmentid == K.fragmentid

theorem Parcel.not_inPacket (K : Parcel) {d : SendData} (h : blockFragment d = false) :
    K.inPacket d = false := by simp [Parcel.inPacket, h]

theorem resentFlags_alike {f : UInt8} (h : hasBit (f &&& blockMaskConsecutive) blkBlockAck = true) :
    hasBit f blkBlockAck = true ∧ hasBit (resentFlags f) blkBlock = hasBit f blkBlock ∧
      fragmentFlags (resentFlags f) = fragmentFlags f := by
  revert h
  exact flags_forall (P := fun f => hasBit (f &&& blockMaskConsecutive) blkBlockAck = true →
    hasBit f blkBlockAck = true ∧ hasBit (resentFlags f) blkBlock = hasBit f blkBlock ∧
      fragmentFlags (resentFlags f) = fragmentFlags f) (by decide +kernel) f

theorem Parcel.resentAlike (K : Parcel) : ResentAlike K.inPacket := by
  intro x y h
  unfold resent at h
  simp only at h
  split at h
  · rename_i hbit
    obtain ⟨hback, hblk, hfrag⟩ := resentFlags_alike hbit
    have hy : y = x.setFlags (resentFlags x.flags) := (Option.some.inj h).symm
    have hflags : y.flags = resentFlags x.flags := by
      rw [hy]
      exact SendData.setFlags_flags x _ (hasBit_length hback)
    have hid : getFragmentId y.data y.length = getFragmentId x.data x.length := by
      rw [hy]
      exact getFragmentId_setFlags hblk
    have hdest : y.dest = x.dest := by rw [hy]; rfl
    simp only [Parcel.inPacket, blockFragment, hflags, hfrag, hid, hdest]
  · cases h

theorem Parcel.prio_none (K : Parcel) {s : SendQueues}
    (h : ∀ q, ∀ d ∈ s.queued q, queueOf d = q) : (s.queued .prio).countP K.inPacket = 0 := by
  rw [List.countP_eq_zero]
  intro d hd
  have hq := h .prio d hd
  have hno : blockFragment d = false := by
    cases hack : hasBit d.flags blkAck with
    | true => simp [blockFragment, fragmentFlags, hack]
    | false =>
      cases hbw : hasBit d.flags bwMsg with
      | true => simp [blockFragment, fragmentFlags, hbw]
      | false =>
        exfalso
        simp only [queueOf, hack, hbw, Bool.or_self, Bool.false_eq_true, if_false] at hq
        split at hq <;> cases hq
  simp [K.not_inPacket hno]

theorem blockFragment_ackFor (seq cons : UInt16) (ts : Timeval) (addr : SockAddr) :
    blockFragment (ackFor seq cons ts addr) = false := by
  show fragmentFlags blkAck = false
  decide

/-- No datagram, whatever it holds, adds a packet of a fragment. -/
theorem packetProcessor_within {K : Parcel} {m : ℕ} {node : Node}
    (h : Within K.inPacket m node.ack) (data : IncomingData) (junk : UInt16) :
    Within K.inPacket m (packetProcessor node data junk).node.ack := by
  rcases packetProcessor_tables node data junk with ⟨ackR, source, -, hack⟩ | ⟨-, hack | hack⟩
  · rw [hack]
    exact h.acknowledged K.resentAlike ackR data.tv source
  · rw [hack]
    exact h
  · obtain ⟨seq, cons, tv, addr, hack⟩ := hack
    rw [hack]
    exact h.sendData (K.not_inPacket (blockFragment_ackFor seq cons tv addr))

/-- The sender with the node it belongs to, and the packets of fragments that `sendblock` has
put in a queue so far. -/
structure Shipping where
  box : Outbox
  rest : Node
  enqueued : List SendData

namespace Shipping

/-- The tables for acks are those of the sender. -/
def node (s : Shipping) : Node := { s.rest with ack := s.box.tables }

/-- The packets of a fragment in the data and the retransmission queue, in the lists of what is
outstanding, and in the sender thread's hand. -/
def packets (s : Shipping) (K : Parcel) : ℕ :=
  (s.box.tables.queues.queued .send).countP K.inPacket +
    (s.box.tables.queues.queued .retr).countP K.inPacket +
    s.box.tables.nacks.copies K.inPacket + s.box.hand.toList.countP K.inPacket

end Shipping

/-- `sendblock` is one iteration of its loop; `outbox` hands packets of other kinds to `send_data`,
runs `packet_send` and sweeps for timeouts; `elsewhere` is what the rest of the program does. -/
inductive ShippingAction
  | sendblock (id : BlockID) (dest : SockAddr) (i : ℕ)
  | outbox (a : OutboxAction)
  | datagram (data : IncomingData) (junk : UInt16)
  | elsewhere (rest : Node)

def OutboxAction.handsFragment : OutboxAction → Bool
  | .sendData d => blockFragment d
  | _ => false

namespace Shipping

def step (s : Shipping) : ShippingAction → Option Shipping
  | .sendblock id dest i =>
    match findblock s.rest.cache id with
    | none => none
    | some block =>
      if i < block.fs.fn.toNat then
        match sendPacket block dest i with
        | .error _ => none
        | .ok d =>
          let (queues, accepted) := s.box.tables.queues.sendData d
          some { s with box := s.box.setQueues queues
                        enqueued := if accepted then d :: s.enqueued else s.enqueued }
      else none
  | .outbox a =>
    if a.handsFragment then none else (s.box.step a).map (fun box => { s with box := box })
  | .datagram data junk =>
    if (packetProcessor s.node data junk).fault = none then
      some { s with box := { s.box with tables := (packetProcessor s.node data junk).node.ack }
                    rest := (packetProcessor s.node data junk).node }
    else none
  | .elsewhere rest => some { s with rest := rest }

end Shipping

def shipping : System Shipping ShippingAction where
  init s := s.box = Outbox.init ∧ s.enqueued = []
  step := Shipping.step

namespace Shipping

variable {s t : Shipping} {K : Parcel} {m : ℕ}

theorem sendblock_some {id : BlockID} {dest : SockAddr} {i : ℕ}
    (hs : s.step (.sendblock id dest i) = some t) :
    ∃ block d, findblock s.rest.cache id = some block ∧ i < block.fs.fn.toNat ∧
      sendPacket block dest i = .ok d ∧
      t = { s with
        box := s.box.setQueues (s.box.tables.queues.sendData d).1
        enqueued := if (s.box.tables.queues.sendData d).2 then d :: s.enqueued
          else s.enqueued } := by
  simp only [step] at hs
  split at hs
  · cases hs
  rename_i block hfind
  split at hs
  · rename_i hi
    split at hs
    · cases hs
    · rename_i d hpacket
      cases hs
      exact ⟨block, d, hfind, hi, hpacket, rfl⟩
  · cases hs

theorem outbox_some {a : OutboxAction} (hs : s.step (.outbox a) = some t) :
    a.handsFragment = false ∧ ∃ box, s.box.step a = some box ∧ t = { s with box := box } := by
  simp only [step] at hs
  split at hs
  · cases hs
  · rename_i hno
    obtain ⟨box, hbox, rfl⟩ := Option.map_eq_some_iff.mp hs
    exact ⟨by simpa using hno, box, hbox, rfl⟩

theorem datagram_some {data : IncomingData} {junk : UInt16}
    (hs : s.step (.datagram data junk) = some t) :
    t = { s with
      box := { s.box with tables := (packetProcessor s.node data junk).node.ack }
      rest := (packetProcessor s.node data junk).node } := by
  simp only [step] at hs
  split at hs
  · cases hs
    rfl
  · cases hs

/-- At most `m` packets, of which the sender thread may hold one. -/
structure Bound (K : Parcel) (m : ℕ) (s : Shipping) : Prop where
  valid : s.box.tables.queues.Valid
  sorted : ∀ q, ∀ d ∈ s.box.tables.queues.queued q, queueOf d = q
  le : s.box.tables.copies K.inPacket + s.box.hand.toList.countP K.inPacket ≤ m

theorem packets_eq (h : ∀ q, ∀ d ∈ s.box.tables.queues.queued q, queueOf d = q) :
    s.packets K = s.box.tables.copies K.inPacket + s.box.hand.toList.countP K.inPacket := by
  have hprio := K.prio_none h
  simp only [packets, AckState.copies, SendQueues.copies]
  omega

theorem Bound.sendblock (h : s.Bound K m) {id : BlockID} {dest : SockAddr} {i : ℕ}
    (hs : s.step (.sendblock id dest i) = some t) :
    t.Bound K (m + (t.enqueued.countP K.inPacket - s.enqueued.countP K.inPacket)) ∧
      s.enqueued.countP K.inPacket ≤ t.enqueued.countP K.inPacket := by
  obtain ⟨block, d, -, -, -, rfl⟩ := sendblock_some hs
  have hle := h.le
  have hadd := SendQueues.copies_sendData (k := K.inPacket) h.valid d
  refine ⟨⟨(SendQueues.sendData_spec h.valid d).1, sorted_sendData h.valid h.sorted d, ?_⟩, ?_⟩
  · simp only [AckState.copies, Outbox.setQueues, AckState.setQueues, hadd] at hle ⊢
    cases hacc : (s.box.tables.queues.sendData d).2 with
    | false => simpa [hacc] using hle
    | true =>
      simp only [true_and, if_true, List.countP_cons]
      omega
  · simp only
    split
    · rw [List.countP_cons]
      exact Nat.le_add_right _ _
    · exact le_rfl

theorem Bound.outbox (h : s.Bound K m) {a : OutboxAction}
    (hs : s.step (.outbox a) = some t) : t.Bound K m := by
  have hin : Within K.inPacket (m - s.box.hand.toList.countP K.inPacket) s.box.tables :=
    ⟨h.valid, h.sorted, Nat.le_sub_of_add_le h.le⟩
  have hle := h.le
  have hback : ∀ {box : Outbox}, box.hand = s.box.hand →
      Within K.inPacket (m - s.box.hand.toList.countP K.inPacket) box.tables →
      Bound K m { s with box := box } := by
    intro box hhand hw
    have hle' := hw.le
    refine ⟨hw.valid, hw.sorted, ?_⟩
    simp only [hhand]
    omega
  obtain ⟨hno, box, hbox, rfl⟩ := outbox_some hs
  cases a with
  | sendData d =>
    cases hbox
    exact hback rfl (hin.sendData (K.not_inPacket hno))
  | ack ackR received source =>
    cases hbox
    exact hback rfl (hin.acknowledged K.resentAlike ackR received source)
  | timeout now =>
    cases hbox
    exact hback rfl (hin.sweepTimeouts K.resentAlike now)
  | fetch q =>
    obtain ⟨hhand, queues, d, hfetch, rfl⟩ := Outbox.step_fetch hbox
    obtain ⟨hvalid, hq, hother⟩ := SendQueues.fetch_some h.valid hfetch
    have hcopies := SendQueues.copies_fetch (k := K.inPacket) h.valid hfetch
    refine ⟨hvalid, ?_, ?_⟩
    · intro q' x hx
      by_cases hqq : q' = q
      · subst q'
        exact h.sorted q x (by rw [hq]; exact List.mem_cons_of_mem _ hx)
      · exact h.sorted q' x (by rw [← hother q' hqq]; exact hx)
    · simp only [AckState.copies, Outbox.setQueues, AckState.setQueues, hhand, Option.toList_none,
        Option.toList_some, List.countP_nil, List.countP_cons] at hle ⊢
      omega
  | cookie addr =>
    obtain ⟨-, rfl⟩ := Outbox.step_cookie hbox
    have hflags : blockFragment (bogusData addr) = false :=
      show fragmentFlags (needAck ||| cookieMsg) = false by decide
    have hbogus : K.inPacket (bogusData addr) = false := K.not_inPacket hflags
    refine ⟨h.valid, h.sorted, ?_⟩
    simp only [AckState.copies, Outbox.setQueues, AckState.setQueues, Option.toList_some,
      List.countP_cons, List.countP_nil, hbogus, Bool.false_eq_true, if_false] at hle ⊢
    exact le_trans (Nat.le_add_right _ _) hle
  | transmit tEnd bandwidth z natPort =>
    obtain ⟨d, nacks, w, hhand, hsend, rfl⟩ := Outbox.step_transmit hbox
    have hcount : nacks.copies K.inPacket ≤
        s.box.tables.nacks.copies K.inPacket + if K.inPacket d = true then 1 else 0 := by
      obtain ⟨sleeptime, d', hnum⟩ := sendD_numbered hsend
      unfold numbered at hnum
      split at hnum
      · exact (copies_appendAck hnum).le
      · cases hnum
        exact Nat.le_add_right _ _
    have hqueues : s.box.tables.queues.postEmpty.copies K.inPacket =
        s.box.tables.queues.copies K.inPacket :=
      SendQueues.copies_congr (SendQueues.postEmpty_ring _)
    refine ⟨SendQueues.valid_congr (SendQueues.postEmpty_ring _) h.valid, ?_, ?_⟩
    · intro q x hx
      rw [SendQueues.queued_congr (SendQueues.postEmpty_ring _)] at hx
      exact h.sorted q x hx
    · simp only [AckState.copies, hqueues, hhand, Option.toList_none, Option.toList_some,
        List.countP_nil, List.countP_cons] at hle ⊢
      omega

theorem Bound.step (h : s.Bound K m) {a : ShippingAction}
    (ha : ∀ id dest i, a ≠ .sendblock id dest i) (hs : s.step a = some t) : t.Bound K m := by
  cases a with
  | sendblock id dest i => exact absurd rfl (ha id dest i)
  | outbox a => exact h.outbox hs
  | elsewhere rest =>
    cases hs
    exact ⟨h.valid, h.sorted, h.le⟩
  | datagram data junk =>
    obtain rfl := datagram_some hs
    have hin : Within K.inPacket (m - s.box.hand.toList.countP K.inPacket) s.node.ack :=
      ⟨h.valid, h.sorted, Nat.le_sub_of_add_le h.le⟩
    have hle := h.le
    have hout := packetProcessor_within hin data junk
    have hle' := hout.le
    refine ⟨hout.valid, hout.sorted, ?_⟩
    simp only
    omega

theorem step_enqueued {a : ShippingAction} (ha : ∀ id dest i, a ≠ .sendblock id dest i)
    (hs : s.step a = some t) : t.enqueued = s.enqueued := by
  cases a with
  | sendblock id dest i => exact absurd rfl (ha id dest i)
  | outbox a =>
    obtain ⟨-, box, -, rfl⟩ := outbox_some hs
    rfl
  | elsewhere rest =>
    cases hs
    rfl
  | datagram data junk =>
    rw [datagram_some hs]

theorem bound_reachable (h : Reachable shipping s) :
    s.Bound K (s.enqueued.countP K.inPacket) := by
  apply h.invariant
  · rintro s ⟨hbox, henq⟩
    rw [henq]
    refine ⟨by rw [hbox]; exact SendQueues.valid_init, ?_, ?_⟩
    · rw [hbox]
      intro q d hd
      rw [show Outbox.init.tables.queues = SendQueues.init from rfl, SendQueues.queued_init] at hd
      simp at hd
    · rw [hbox]
      rfl
  · intro s a t hb _ hs
    by_cases ha : ∃ id dest i, a = .sendblock id dest i
    · obtain ⟨id, dest, i, rfl⟩ := ha
      obtain ⟨hbound, hmono⟩ := hb.sendblock hs
      rwa [Nat.add_sub_cancel' hmono] at hbound
    · have hno : ∀ id dest i, a ≠ .sendblock id dest i :=
        fun id dest i he => ha ⟨id, dest, i, he⟩
      rw [step_enqueued hno hs]
      exact hb.step hno hs

/-- In every run there are at most as many packets of a fragment as `sendblock` has queued for
its destination, and no other step can make them more. -/
theorem not_multiplied (h : Reachable shipping s) (K : Parcel) :
    s.packets K ≤ s.enqueued.countP K.inPacket ∧
      ∀ a t, (∀ id dest i, a ≠ .sendblock id dest i) → shipping.step s a = some t →
        t.packets K ≤ s.packets K := by
  have hb := bound_reachable (K := K) h
  refine ⟨by rw [packets_eq hb.sorted]; exact hb.le, ?_⟩
  intro a t ha hs
  have hself : s.Bound K (s.packets K) :=
    ⟨hb.valid, hb.sorted, (packets_eq hb.sorted).symm.le⟩
  have hafter := hself.step ha hs
  rw [packets_eq hafter.sorted]
  exact hafter.le

theorem not_multiplied_resent :
    ∃ s, shipping.runIf (fun _ _ => True)
        ⟨Outbox.init, { Node.init with cache := [contentBlock ⟨1, 1⟩ [7]] }, []⟩
        [.sendblock ⟨1, 1⟩ ⟨2, 1⟩ 0, .outbox (.fetch .send),
          .outbox (.transmit ⟨1, 0⟩ 1000000 false 0), .outbox (.timeout ⟨2, 0⟩)] = some s ∧
      (s.box.tables.queues.queued .retr).countP (Parcel.inPacket ⟨⟨2, 1⟩, ⟨1, 1⟩, 0⟩) = 1 ∧
      s.packets ⟨⟨2, 1⟩, ⟨1, 1⟩, 0⟩ ≤ 1 := by
  have hrun : (shipping.runIf (fun _ _ => True)
      ⟨Outbox.init, { Node.init with cache := [contentBlock ⟨1, 1⟩ [7]] }, []⟩
      [.sendblock ⟨1, 1⟩ ⟨2, 1⟩ 0, .outbox (.fetch .send),
        .outbox (.transmit ⟨1, 0⟩ 1000000 false 0), .outbox (.timeout ⟨2, 0⟩)]).map
      (fun s => ((s.box.tables.queues.queued .retr).countP
          (Parcel.inPacket ⟨⟨2, 1⟩, ⟨1, 1⟩, 0⟩),
        s.enqueued.countP (Parcel.inPacket ⟨⟨2, 1⟩, ⟨1, 1⟩, 0⟩))) = some (1, 1) := by
    decide +kernel
  obtain ⟨s, hs, hstate⟩ := Option.map_eq_some_iff.mp hrun
  obtain ⟨hretr, henq⟩ := Prod.mk.inj hstate
  have hinit : Reachable shipping
      ⟨Outbox.init, { Node.init with cache := [contentBlock ⟨1, 1⟩ [7]] }, []⟩ := .init ⟨rfl, rfl⟩
  have hle := (not_multiplied (hinit.runIf hs) ⟨⟨2, 1⟩, ⟨1, 1⟩, 0⟩).1
  rw [henq] at hle
  exact ⟨s, hs, hretr, hle⟩

end Shipping

end Bora
