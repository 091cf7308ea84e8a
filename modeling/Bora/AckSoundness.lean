import Bora.Delivery
import Bora.IndexSafety
import Bora.Swarm

/-! Two nodes and a network that loses, duplicates and reorders: what the sender strikes off
its list as acknowledged, the receiver holds. -/
namespace Bora

open ByteMemory Checked Transition

/-- A node, and the packet its sender thread holds with the queue it came from. -/
structure Station where
  node : Node
  hand : Option (SendData × QueueName)

namespace Station

def init : Station := ⟨Node.init, none⟩

def setAck (st : Station) (ack : AckState) : Station :=
  { st with node := { st.node with ack := ack } }

def setCache (st : Station) (cache : Cache) : Station :=
  { st with node := { st.node with cache := cache } }

def sendAll (st : Station) (ds : List SendData) : Station :=
  st.setAck (st.node.ack.setQueues (ds.foldl (fun q d => (q.sendData d).1) st.node.ack.queues))

def fetch (st : Station) (q : QueueName) : Option Station :=
  match st.hand with
  | some _ => none
  | none =>
    (st.node.ack.queues.fetch q).map
      (fun r => { st.setAck (st.node.ack.setQueues r.1) with hand := some (r.2, q) })

/-- The packet in hand and what goes on the wire for it. The node announces no port, and `z`
is only set for packets of the data queue. -/
def transmit (st : Station) (tEnd : Timeval) (bandwidth : UInt64) (z : Bool) :
    Option (Station × SendData × SendData) :=
  match st.hand with
  | none => none
  | some (d, q) =>
    match sendD st.node.ack.nacks d tEnd bandwidth (z && q == .send) (setNatPort 0) with
    | .error _ => none
    | .ok (nacks, wire) =>
      some ({ st.setAck { st.node.ack with
        nacks := nacks, queues := st.node.ack.queues.postEmpty } with hand := none }, d, wire)

def receive (st : Station) (data : IncomingData) (junk : UInt16) : Option Station :=
  let p := packetProcessor st.node data junk
  match p.fault with
  | some _ => none
  | none => some { st with node := p.node }

/-- The queues are in order, and what they and the hand hold satisfies `P`. -/
structure Carries (st : Station) (P : QueueName → SendData → Prop) : Prop where
  valid : st.node.ack.queues.Valid
  queued : ∀ q, ∀ d ∈ st.node.ack.queues.queued q, P q d
  inHand : ∀ d q, st.hand = some (d, q) → P q d

variable {st t : Station} {P : QueueName → SendData → Prop}

theorem Carries.mono (h : st.Carries P) {Q : QueueName → SendData → Prop}
    (hPQ : ∀ q d, P q d → Q q d) : st.Carries Q where
  valid := h.valid
  queued q d hd := hPQ q d (h.queued q d hd)
  inHand d q hd := hPQ q d (h.inHand d q hd)

theorem Carries.fetch (h : st.Carries P) {q : QueueName} (hf : st.fetch q = some t) :
    t.Carries P ∧ t.node.cache = st.node.cache ∧ t.node.ack.nacks = st.node.ack.nacks := by
  unfold Station.fetch at hf
  split at hf
  · cases hf
  obtain ⟨⟨queues, d⟩, hq, rfl⟩ := Option.map_eq_some_iff.mp hf
  obtain ⟨hvalid, hself, hother⟩ := SendQueues.fetch_some h.valid hq
  refine ⟨⟨hvalid, ?_, ?_⟩, rfl, rfl⟩
  · intro q' x hx
    have hx' : x ∈ queues.queued q' := hx
    by_cases hqq : q' = q
    · subst q'
      exact h.queued q x (by rw [hself]; exact List.mem_cons_of_mem _ hx')
    · exact h.queued q' x (by rw [← hother q' hqq]; exact hx')
  · intro x q' hx
    cases hx
    exact h.queued q d (by rw [hself]; exact List.mem_cons_self)

theorem Carries.setQueues (h : st.Carries P) {ack : AckState} (hv : ack.queues.Valid)
    (hq : ∀ q, ∀ d ∈ ack.queues.queued q, P q d) : (st.setAck ack).Carries P where
  valid := hv
  queued := hq
  inHand := h.inHand

theorem queued_sendAll {q₀ : SendQueues} (hv : q₀.Valid) (hq : ∀ q, ∀ d ∈ q₀.queued q, P q d)
    {ds : List SendData} (hds : ∀ d ∈ ds, P (queueOf d) d) :
    (ds.foldl (fun q d => (q.sendData d).1) q₀).Valid ∧
      ∀ q, ∀ d ∈ (ds.foldl (fun q d => (q.sendData d).1) q₀).queued q, P q d := by
  induction ds generalizing q₀ with
  | nil => exact ⟨hv, hq⟩
  | cons d ds ih =>
    obtain ⟨hvalid, hqueued⟩ := SendQueues.sendData_spec hv d
    apply ih hvalid
    · intro q x hx
      rw [hqueued] at hx
      rcases List.mem_append.mp hx with hx | hx
      · exact hq q x hx
      · split at hx
        · rename_i hcond
          rw [List.mem_singleton.mp hx, hcond.2]
          exact hds d List.mem_cons_self
        · simp at hx
    · exact fun x hx => hds x (List.mem_cons_of_mem _ hx)

theorem Carries.transmit (h : st.Carries P) {tEnd : Timeval} {bandwidth : UInt64} {z : Bool}
    {d w : SendData} (ht : st.transmit tEnd bandwidth z = some (t, d, w)) :
    ∃ q, P q d ∧ t.Carries P ∧ t.node.cache = st.node.cache ∧
      sendD st.node.ack.nacks d tEnd bandwidth (z && q == .send) (setNatPort 0) =
        .ok (t.node.ack.nacks, w) := by
  unfold Station.transmit at ht
  split at ht
  · cases ht
  rename_i d' q hhand
  split at ht
  · cases ht
  rename_i nacks wire hsend
  cases ht
  refine ⟨q, h.inHand d q hhand, ⟨?_, ?_, by simp⟩, rfl, hsend⟩
  · exact SendQueues.valid_congr (SendQueues.postEmpty_ring _) h.valid
  · intro q' x hx
    have hx' : x ∈ st.node.ack.queues.postEmpty.queued q' := hx
    rw [SendQueues.queued_congr (SendQueues.postEmpty_ring _)] at hx'
    exact h.queued q' x hx'

end Station

/-- Datagrams put on the network stay there. `sent` are the packets that were numbered, in
order, and `acked` the entries that acks removed. -/
structure Link where
  sender : Station
  receiver : Station
  toReceiver : List SendData
  toSender : List SendData
  sent : List SendData
  acked : List Ack

/-- The first seven are steps of the sender. `stale` is what a receive buffer held before. -/
inductive LinkAction
  | addblock (id : BlockID)
  | deleteblock (id : BlockID)
  | sendblock (id : BlockID)
  | fetch (q : QueueName)
  | transmit (tEnd : Timeval) (bandwidth : UInt64) (z : Bool)
  | timeout (now : Timeval)
  | deliverAck (k : ℕ) (tv : Timeval) (stale : Bytes) (junk : UInt16)
  | addOwn (id : BlockID)
  | deliver (k : ℕ) (tv : Timeval) (stale : Bytes) (junk : UInt16)
  | fetchAck (q : QueueName)
  | transmitAck (tEnd : Timeval) (bandwidth : UInt64) (z : Bool)

def datagram (w : SendData) (source : SockAddr) (tv : Timeval) (stale : Bytes) : IncomingData where
  source := source
  buf := (w.data ++ (stale ++ List.replicate packetSize 0)).take packetSize
  buflen := w.length
  tv := tv
  size := by
    simp only [List.length_take, List.length_append, List.length_replicate]
    omega

theorem datagram_arrives {w : SendData} {body : Bytes} (h : w.data = body ++ store16 0)
    (source : SockAddr) (tv : Timeval) (stale : Bytes) :
    Arrives (datagram w source tv stale) body where
  buflen := by
    show w.data.length = body.length + 2
    rw [h, List.length_append, store16_length]
  buf := by
    refine ⟨(stale ++ List.replicate packetSize 0).take (packetSize - w.data.length), ?_⟩
    show (w.data ++ (stale ++ List.replicate packetSize 0)).take packetSize = _
    rw [List.take_append, List.take_of_length_le w.fits, h, List.append_assoc]

namespace Link

def start : Link := ⟨Station.init, Station.init, [], [], [], []⟩

/-- Each block is added with its one content; the receiver deletes none. -/
def step (o : Origins) (senderAddr receiverAddr : SockAddr) (s : Link) : LinkAction → Option Link
  | .addblock id =>
    some { s with sender := s.sender.setCache (addblock s.sender.node.cache id (o.content id)).1 }
  | .deleteblock id =>
    some { s with sender := s.sender.setCache (deleteblock s.sender.node.cache id).1 }
  | .sendblock id =>
    match sendblock s.sender.node.cache id receiverAddr with
    | .error _ => none
    | .ok (ds, _) => some { s with sender := s.sender.sendAll ds }
  | .fetch q => (s.sender.fetch q).map (fun st => { s with sender := st })
  | .transmit tEnd bandwidth z =>
    (s.sender.transmit tEnd bandwidth z).map (fun (st, d, w) =>
      { s with
        sender := st
        toReceiver := s.toReceiver ++ [w]
        sent := if hasBit d.flags needAck then s.sent ++ [d] else s.sent })
  | .timeout now =>
    some { s with sender := s.sender.setAck (s.sender.node.ack.sweepTimeouts now) }
  | .deliverAck k tv stale junk =>
    match s.toSender[k]? with
    | none => none
    | some w =>
      (s.sender.receive (datagram w receiverAddr tv stale) junk).map (fun st =>
        { s with
          sender := st
          acked := ackedBy s.sender.node (datagram w receiverAddr tv stale) ++ s.acked })
  | .addOwn id =>
    some { s with
      receiver := s.receiver.setCache (addblock s.receiver.node.cache id (o.content id)).1 }
  | .deliver k tv stale junk =>
    match s.toReceiver[k]? with
    | none => none
    | some w =>
      (s.receiver.receive (datagram w senderAddr tv stale) junk).map
        (fun st => { s with receiver := st })
  | .fetchAck q => (s.receiver.fetch q).map (fun st => { s with receiver := st })
  | .transmitAck tEnd bandwidth z =>
    (s.receiver.transmit tEnd bandwidth z).map (fun (st, _, w) =>
      { s with receiver := st, toSender := s.toSender ++ [w] })

end Link

def link (o : Origins) (senderAddr receiverAddr : SockAddr) : System Link LinkAction where
  init s := s = Link.start
  step := Link.step o senderAddr receiverAddr

def Link.receiverHolds (s : Link) (d : SendData) : Bool :=
  let fragment := getFragmentId d.data d.length
  cacheHolds s.receiver.node.cache fragment.id fragment.fragmentid.toNat

structure PacketOf (o : Origins) (dest : SockAddr) (id : BlockID) (i : ℕ) (d : SendData) :
    Prop where
  index : i < (o.original id).fs.fn.toNat
  dest : d.dest = dest
  data : ∃ f flags, sendFragment (o.original id) i = .ok f ∧ AckFlags flags ∧
    d.data = fragmentPacket flags f

section PacketOf

variable {o : Origins} {dest : SockAddr} {id : BlockID} {i : ℕ} {d : SendData}

theorem PacketOf.flags (h : PacketOf o dest id i d) : AckFlags d.flags := by
  obtain ⟨f, flags, -, hflags, hdata⟩ := h.data
  have hfirst : d.flags = flags := by
    have hp := fragmentPacket_flags flags f []
    rw [List.append_nil] at hp
    rw [SendData.flags, hdata, hp]
  rwa [hfirst]

theorem PacketOf.asks (h : PacketOf o dest id i d) : hasBit d.flags needAck = true :=
  (ackFlags_bits h.flags).2.1

theorem PacketOf.fragmentId (h : PacketOf o dest id i d) :
    (getFragmentId d.data d.length).id = id ∧
      (getFragmentId d.data d.length).fragmentid.toNat = i := by
  obtain ⟨f, flags, hf, hflags, hdata⟩ := h.data
  obtain ⟨hid, hfid, -⟩ := sendFragment_fields h.index hf
  have hbit := (fragmentFlags_bits (ackFlags_bits hflags).1).1
  have hget := getFragmentId_packet hbit f []
  rw [List.append_nil] at hget
  rw [SendData.length, hdata, fragmentPacket_length, hget]
  exact ⟨hid, hfid⟩

theorem packetOf_sendPacket (hi : i < (o.original id).fs.fn.toNat)
    (h : sendPacket (o.original id) dest i = .ok d) : PacketOf o dest id i d := by
  obtain ⟨f, hf, hdata, hdest⟩ := sendPacket_ok h
  exact ⟨hi, hdest, f, blkBlockAck, hf, by decide, hdata⟩

theorem PacketOf.resent (h : PacketOf o dest id i d) {d' : SendData} (hr : resent d = some d') :
    PacketOf o dest id i d' := by
  obtain ⟨f, flags, hf, hflags, hdata⟩ := h.data
  have hd' : d' = d.setFlags (resentFlags d.flags) := by
    unfold Bora.resent at hr
    simp only at hr
    split at hr
    · cases hr
      rfl
    · cases hr
  subst d'
  refine ⟨h.index, h.dest, f, resentFlags d.flags, hf, (ackFlags_bits h.flags).2.2.2.2, ?_⟩
  rw [SendData.setFlags_data, hdata, fragmentPacket_set]

theorem PacketOf.wire (h : PacketOf o dest id i d) {n n' : NackTable} {w : SendData}
    {tEnd : Timeval} {bandwidth : UInt64} {z : Bool}
    (hs : sendD n d tEnd bandwidth z (setNatPort 0) = .ok (n', w)) :
    ∃ f flags, sendFragment (o.original id) i = .ok f ∧ AckFlags flags ∧
      w.data = (fragmentPacket flags f ++ store16 n'.seqNum) ++ store16 0 := by
  obtain ⟨f, flags, hf, hflags, hdata⟩ := h.data
  have hne := (fragmentFlags_bits (ackFlags_bits h.flags).1).2.2.2
  obtain ⟨hw, -⟩ := sendD_wire hne hs
  rw [if_pos h.asks, show setNatPort 0 = 0 from rfl] at hw
  cases z with
  | false => exact ⟨f, flags, hf, hflags, by rw [hw, wireBody, hdata]; rfl⟩
  | true =>
    refine ⟨f, d.flags ||| blockConsecutive, hf, (ackFlags_bits h.flags).2.2.2.1, ?_⟩
    rw [hw, wireBody, if_pos rfl, hdata, fragmentPacket_set]

end PacketOf

theorem consecutivesBelow_run {b : Block} {n : ℕ} (hn : n ≤ b.fs.fn.toNat) :
    ∃ k ≤ n, consecutivesBelow b n = .ok k ∧ ∀ j < n, n - j ≤ k → b.heldAt j = true := by
  induction n with
  | zero => exact ⟨0, le_rfl, rfl, fun j hj => absurd hj (Nat.not_lt_zero j)⟩
  | succ n ih =>
    obtain ⟨k, hk, hrun, hheld⟩ := ih (by omega)
    have hread := Block.readHave_of_lt (b := b) (i := n) (by omega)
    cases hn : b.heldAt n with
    | false =>
      refine ⟨0, Nat.zero_le _, by simp [consecutivesBelow, hread, hn], ?_⟩
      intro j hj hle
      omega
    | true =>
      refine ⟨k + 1, by omega, by simp [consecutivesBelow, hread, hn, hrun], ?_⟩
      intro j hj hle
      by_cases hjn : j = n
      · rwa [hjn]
      · exact hheld j (by omega) (by omega)

theorem getConsecutives_run {b₀ : Block} {cache : Cache} (hc : CacheCopy b₀ cache)
    (fragment : FragmentID) (hid : fragment.id = b₀.id)
    (hi : fragment.fragmentid.toNat < b₀.fs.fn.toNat) :
    ∃ cons, getConsecutives cache fragment = .ok cons ∧
      ∀ j < fragment.fragmentid.toNat, fragment.fragmentid.toNat - j ≤ cons.toNat →
        cacheHolds cache b₀.id j = true := by
  cases hb : findblock cache b₀.id with
  | none =>
    refine ⟨0, by simp [getConsecutives, hid, hb], ?_⟩
    intro j hj hle
    simp only [UInt16.toNat_zero] at hle
    omega
  | some b =>
    have hfn := (hc b hb).fn_eq
    obtain ⟨k, hk, hrun, hheld⟩ := consecutivesBelow_run (b := b)
      (n := fragment.fragmentid.toNat) (by rw [hfn]; omega)
    have hbound := fragment.fragmentid.toNat_lt
    refine ⟨UInt16.ofNat k, by simp [getConsecutives, hid, hb, hrun, Except.map], ?_⟩
    intro j hj hle
    rw [UInt16.toNat_ofNat', Nat.mod_eq_of_lt (by omega)] at hle
    simp only [cacheHolds, hb]
    exact hheld j hj hle

theorem addblock_holds {cache : Cache} (id₀ : BlockID) (c : Bytes) {id : BlockID} {i : ℕ}
    (h : cacheHolds cache id i = true) : cacheHolds (addblock cache id₀ c).1 id i = true := by
  cases hb : findblock cache id₀ with
  | some b => simpa [addblock, hb] using h
  | none =>
    have hne : id₀ ≠ id := by
      rintro rfl
      simp [cacheHolds, hb] at h
    have hfind : findblock (addblock cache id₀ c).1 id = findblock cache id := by
      simp only [addblock, hb, findblock_cons]
      exact if_neg hne
    simpa only [cacheHolds, hfind] using h

namespace Link

variable (o : Origins) (receiverAddr : SockAddr)

def Holds (s : Link) (id : BlockID) (i : ℕ) : Prop :=
  cacheHolds s.receiver.node.cache id i = true

/-- An ack with the number `seq` and the count `cons` says nothing wrong: the packet with this
number carries a fragment that the receiver holds, with the `cons` fragments in front of it. -/
def Sound (s : Link) (seq cons : UInt16) : Prop :=
  ∃ d id i, s.sent[seq.toNat - 1]? = some d ∧ PacketOf o receiverAddr id i d ∧ s.Holds id i ∧
    ∀ j < i, i - j ≤ cons.toNat → s.Holds id j

def SoundAck (s : Link) (d : SendData) : Prop :=
  ∃ seq cons ts addr, s.Sound o receiverAddr seq cons ∧ d = ackFor seq cons ts addr

def FragmentWire (s : Link) (w : SendData) : Prop :=
  ∃ seq d id i f flags, s.sent[seq.toNat - 1]? = some d ∧ PacketOf o receiverAddr id i d ∧
    sendFragment (o.original id) i = .ok f ∧ AckFlags flags ∧
    w.data = (fragmentPacket flags f ++ store16 seq) ++ store16 0

structure SenderInv (st : Station) (sent : List SendData) : Prop where
  blocks : ∀ b ∈ st.node.cache, b = o.original b.id
  carries : st.Carries (fun _ d => ∃ id i, PacketOf o receiverAddr id i d)
  seqNum : st.node.ack.nacks.seqNum.toNat = sent.length
  outstanding : ∀ addr, ∀ a ∈ st.node.ack.nacks.nacksOf addr,
    a.d.dest = addr ∧ (∃ id i, PacketOf o receiverAddr id i a.d) ∧
      sent[a.seq.toNat - 1]? = some a.d

structure Inv (s : Link) : Prop where
  sender : SenderInv o receiverAddr s.sender s.sent
  fragments : ∀ w ∈ s.toReceiver, s.FragmentWire o receiverAddr w
  copies : ∀ b ∈ s.receiver.node.cache, CopyOf (o.original b.id) b
  answers : s.receiver.Carries (fun q d => q = .prio ∧ s.SoundAck o receiverAddr d)
  acks : ∀ w ∈ s.toSender, ∃ d, s.SoundAck o receiverAddr d ∧ w.data = d.data ++ store16 0
  acked : ∀ a ∈ s.acked, ∃ id i, PacketOf o receiverAddr id i a.d ∧ s.Holds id i

/-- Numbered packets keep their numbers, and what the receiver holds it keeps. -/
structure Grows (s t : Link) : Prop where
  sent : ∀ (k : ℕ) (d : SendData), s.sent[k]? = some d → t.sent[k]? = some d
  holds : ∀ id i, s.Holds id i → t.Holds id i

variable {o receiverAddr} {s t : Link}

theorem Grows.sound (h : Grows s t) {seq cons : UInt16} (hs : s.Sound o receiverAddr seq cons) :
    t.Sound o receiverAddr seq cons := by
  obtain ⟨d, id, i, hsent, hd, hi, hrun⟩ := hs
  exact ⟨d, id, i, h.sent _ _ hsent, hd, h.holds _ _ hi, fun j hj hle => h.holds _ _ (hrun j hj hle)⟩

theorem Grows.soundAck (h : Grows s t) {d : SendData} (hd : s.SoundAck o receiverAddr d) :
    t.SoundAck o receiverAddr d := by
  obtain ⟨seq, cons, ts, addr, hs, rfl⟩ := hd
  exact ⟨seq, cons, ts, addr, h.sound hs, rfl⟩

theorem Grows.fragmentWire (h : Grows s t) {w : SendData} (hw : s.FragmentWire o receiverAddr w) :
    t.FragmentWire o receiverAddr w := by
  obtain ⟨seq, d, id, i, f, flags, hsent, hrest⟩ := hw
  exact ⟨seq, d, id, i, f, flags, h.sent _ _ hsent, hrest⟩

theorem Inv.grow (h : s.Inv o receiverAddr) (hg : Grows s t)
    (hsender : SenderInv o receiverAddr t.sender t.sent)
    (hfragments : ∀ w ∈ t.toReceiver, w ∈ s.toReceiver ∨ t.FragmentWire o receiverAddr w)
    (hcopies : ∀ b ∈ t.receiver.node.cache, CopyOf (o.original b.id) b)
    (hanswers : t.receiver.Carries (fun q d => q = .prio ∧ t.SoundAck o receiverAddr d))
    (hacks : ∀ w ∈ t.toSender, w ∈ s.toSender ∨
      ∃ d, t.SoundAck o receiverAddr d ∧ w.data = d.data ++ store16 0)
    (hacked : ∀ a ∈ t.acked, a ∈ s.acked ∨
      ∃ id i, PacketOf o receiverAddr id i a.d ∧ t.Holds id i) : t.Inv o receiverAddr where
  sender := hsender
  fragments w hw := (hfragments w hw).elim (fun hw => hg.fragmentWire (h.fragments w hw)) id
  copies := hcopies
  answers := hanswers
  acks w hw := by
    rcases hacks w hw with hw | hw
    · obtain ⟨d, hd, hdata⟩ := h.acks w hw
      exact ⟨d, hg.soundAck hd, hdata⟩
    · exact hw
  acked a ha := by
    rcases hacked a ha with ha | ha
    · obtain ⟨id, i, hp, hi⟩ := h.acked a ha
      exact ⟨id, i, hp, hg.holds id i hi⟩
    · exact ha

theorem Inv.senderStep (h : s.Inv o receiverAddr) {st : Station}
    (hst : SenderInv o receiverAddr st s.sent) :
    Inv o receiverAddr { s with sender := st } :=
  h.grow ⟨fun _ _ hd => hd, fun _ _ hi => hi⟩ hst (fun _ hw => Or.inl hw) h.copies
    h.answers (fun _ hw => Or.inl hw) (fun _ ha => Or.inl ha)

theorem Inv.receiverStep (h : s.Inv o receiverAddr) {st : Station}
    (hholds : ∀ id i, cacheHolds s.receiver.node.cache id i = true →
      cacheHolds st.node.cache id i = true)
    (hcopies : ∀ b ∈ st.node.cache, CopyOf (o.original b.id) b)
    (hanswers : st.Carries
      (fun q d => q = .prio ∧ SoundAck o receiverAddr { s with receiver := st } d)) :
    Inv o receiverAddr { s with receiver := st } :=
  h.grow ⟨fun _ _ hd => hd, hholds⟩ h.sender (fun _ hw => Or.inl hw) hcopies hanswers
    (fun _ hw => Or.inl hw) (fun _ ha => Or.inl ha)

theorem inv_start : start.Inv o receiverAddr where
  sender :=
    { blocks := by simp [start, Station.init, Node.init]
      carries := ⟨SendQueues.valid_init, fun q d hd => by
        simp [start, Station.init, Node.init] at hd, fun d q hd => by
        simp [start, Station.init] at hd⟩
      seqNum := rfl
      outstanding := by
        intro addr a ha
        simp [start, Station.init, Node.init, NackTable.nacksOf, NackTable.findByHost,
          NackTable.init] at ha }
  fragments := by simp [start]
  copies := by simp [start, Station.init, Node.init]
  answers := ⟨SendQueues.valid_init, fun q d hd => by
    simp [start, Station.init, Node.init] at hd, fun d q hd => by simp [start, Station.init] at hd⟩
  acks := by simp [start]
  acked := by simp [start]

section Sender

variable {st st' : Station} {sent : List SendData}

theorem SenderInv.complete (h : SenderInv o receiverAddr st sent) :
    (∀ b ∈ st.node.cache, CopyOf (o.original b.id) b) ∧
      ∀ id, iscomplete st.node.cache id = true := by
  constructor
  · intro b hb
    have heq := h.blocks b hb
    rw [← heq]
    have hcopy := contentBlock_copyOf b.id (o.content b.id)
    rwa [show contentBlock b.id (o.content b.id) = b from heq.symm] at hcopy
  · intro id
    cases hb : findblock st.node.cache id with
    | none => simp only [iscomplete, hb]
    | some b =>
      have heq := h.blocks b (List.mem_of_find?_eq_some hb)
      simp only [iscomplete, hb]
      rw [blockComplete_iff, heq]
      intro i hi
      exact (contentBlock_heldAt b.id (o.content b.id) i).trans (decide_eq_true hi)

theorem SenderInv.setCache (h : SenderInv o receiverAddr st sent) {cache : Cache}
    (hc : ∀ b ∈ cache, b = o.original b.id) : SenderInv o receiverAddr (st.setCache cache) sent where
  blocks := hc
  carries := ⟨h.carries.valid, h.carries.queued, h.carries.inHand⟩
  seqNum := h.seqNum
  outstanding := h.outstanding

theorem SenderInv.addblock (h : SenderInv o receiverAddr st sent) (id : BlockID) :
    SenderInv o receiverAddr (st.setCache (addblock st.node.cache id (o.content id)).1) sent := by
  apply h.setCache
  intro b hb
  unfold Bora.addblock at hb
  split at hb
  · exact h.blocks b hb
  · rcases List.mem_cons.mp hb with rfl | hb
    · rfl
    · exact h.blocks b hb

theorem SenderInv.sendblock (h : SenderInv o receiverAddr st sent) {id : BlockID}
    {ds : List SendData} {n : ℕ}
    (hs : sendblock st.node.cache id receiverAddr = .ok (ds, n)) :
    SenderInv o receiverAddr (st.sendAll ds) sent := by
  obtain ⟨hcopies, hcomplete⟩ := h.complete
  obtain ⟨ds', n', hs', hpackets⟩ := sendblock_complete hcopies (hcomplete id) receiverAddr
  rw [hs] at hs'
  cases hs'
  have hds : ∀ d ∈ ds, ∃ id i, PacketOf o receiverAddr id i d := by
    intro d hd
    obtain ⟨i, hi, hp⟩ := hpackets d hd
    exact ⟨id, i, packetOf_sendPacket hi hp⟩
  obtain ⟨hvalid, hqueued⟩ := Station.queued_sendAll h.carries.valid h.carries.queued hds
  exact ⟨h.blocks, h.carries.setQueues hvalid hqueued, h.seqNum, h.outstanding⟩

theorem SenderInv.fetch (h : SenderInv o receiverAddr st sent) {q : QueueName}
    (hf : st.fetch q = some st') : SenderInv o receiverAddr st' sent := by
  obtain ⟨hcarries, hcache, hnacks⟩ := h.carries.fetch hf
  exact ⟨by rw [hcache]; exact h.blocks, hcarries, by rw [hnacks]; exact h.seqNum,
    by rw [hnacks]; exact h.outstanding⟩

theorem SenderInv.resend (h : SenderInv o receiverAddr st sent) {nacks : List Ack}
    (hn : ∀ a ∈ nacks, ∃ addr, a ∈ st.node.ack.nacks.nacksOf addr)
    (hq : st'.node.ack.queues = nacks.foldl resendNack st.node.ack.queues)
    (hseq : st'.node.ack.nacks.seqNum = st.node.ack.nacks.seqNum)
    (hback : ∀ addr, ∀ a ∈ st'.node.ack.nacks.nacksOf addr, a ∈ st.node.ack.nacks.nacksOf addr)
    (hcache : st'.node.cache = st.node.cache) (hhand : st'.hand = st.hand) :
    SenderInv o receiverAddr st' sent := by
  obtain ⟨hvalid, -, hnew⟩ := resends_spec h.carries.valid nacks
  refine ⟨by rw [hcache]; exact h.blocks, ⟨by rw [hq]; exact hvalid, ?_, ?_⟩,
    by rw [hseq]; exact h.seqNum, fun addr a ha => h.outstanding addr a (hback addr a ha)⟩
  · intro q d hd
    rw [hq] at hd
    rcases hnew q d hd with hd | ⟨a, ha, hr⟩
    · exact h.carries.queued q d hd
    · obtain ⟨addr, haddr⟩ := hn a ha
      obtain ⟨-, ⟨id, i, hp⟩, -⟩ := h.outstanding addr a haddr
      exact ⟨id, i, hp.resent hr⟩
  · intro d q hd
    exact h.carries.inHand d q (by rw [← hhand]; exact hd)

theorem SenderInv.timeout (h : SenderInv o receiverAddr st sent) (now : Timeval) :
    SenderInv o receiverAddr (st.setAck (st.node.ack.sweepTimeouts now)) sent := by
  obtain ⟨hseq, hq, hnacks⟩ := resendTimeoutNacks_spec st.node.ack.nacks st.node.ack.queues
    st.node.ack.acks.getTimeoutValue now
  have hn : ∀ a ∈ st.node.ack.timedOut now, ∃ addr, a ∈ st.node.ack.nacks.nacksOf addr := by
    intro a ha
    obtain ⟨addr, ha, -⟩ := NackTable.mem_timedOutNacks.mp ha
    exact ⟨addr, ha⟩
  have hback : ∀ addr, ∀ a ∈ (st.node.ack.sweepTimeouts now).nacks.nacksOf addr,
      a ∈ st.node.ack.nacks.nacksOf addr := by
    intro addr a ha
    have ha' : a ∈ (resendTimeoutNacks st.node.ack.nacks st.node.ack.queues
      st.node.ack.acks.getTimeoutValue now).1.nacksOf addr := ha
    rw [hnacks] at ha'
    exact (List.mem_filter.mp ha').1
  exact h.resend hn hq hseq hback rfl rfl

/-- The packet in hand gets the number that its place in the log says. -/
theorem SenderInv.transmit (h : SenderInv o receiverAddr st sent) {tEnd : Timeval}
    {bandwidth : UInt64} {z : Bool} {d w : SendData} (hcount : sent.length + 1 < 65536)
    (ht : st.transmit tEnd bandwidth z = some (st', d, w)) :
    hasBit d.flags needAck = true ∧ SenderInv o receiverAddr st' (sent ++ [d]) ∧
      ∃ seq id i f flags, (sent ++ [d])[seq.toNat - 1]? = some d ∧
        PacketOf o receiverAddr id i d ∧ sendFragment (o.original id) i = .ok f ∧
        AckFlags flags ∧ w.data = (fragmentPacket flags f ++ store16 seq) ++ store16 0 := by
  obtain ⟨q, ⟨id, i, hp⟩, hcarries, hcache, hsend⟩ := h.carries.transmit ht
  obtain ⟨hseq, sleeptime, hnacks⟩ := sendD_recorded hsend hp.asks
  obtain ⟨f, flags, hf, hflags, hwire⟩ := hp.wire hsend
  have hnum : st'.node.ack.nacks.seqNum.toNat = sent.length + 1 := by
    rw [hseq, UInt16.toNat_add, h.seqNum, UInt16.toNat_one]
    omega
  have hnew : (sent ++ [d])[st'.node.ack.nacks.seqNum.toNat - 1]? = some d := by
    rw [hnum, Nat.add_sub_cancel, List.getElem?_append_right le_rfl, Nat.sub_self]
    rfl
  refine ⟨hp.asks, ⟨by rw [hcache]; exact h.blocks, hcarries, ?_, ?_⟩,
    st'.node.ack.nacks.seqNum, id, i, f, flags, hnew, hp, hf, hflags, hwire⟩
  · rw [hnum, List.length_append]
    rfl
  · have hold : ∀ addr, ∀ a ∈ st.node.ack.nacks.nacksOf addr, a.d.dest = addr ∧
        (∃ id i, PacketOf o receiverAddr id i a.d) ∧
        (sent ++ [d])[a.seq.toNat - 1]? = some a.d := by
      intro addr a ha
      obtain ⟨hdest, hpacket, hsent⟩ := h.outstanding addr a ha
      obtain ⟨hlt, -⟩ := List.getElem?_eq_some_iff.mp hsent
      exact ⟨hdest, hpacket, by rw [List.getElem?_append_left hlt]; exact hsent⟩
    rw [hnacks]
    exact (Function.forall_update_iff _ (fun addr (l : List Ack) => ∀ a ∈ l, a.d.dest = addr ∧
      (∃ id i, PacketOf o receiverAddr id i a.d) ∧
      (sent ++ [d])[a.seq.toNat - 1]? = some a.d)).mpr
        ⟨List.forall_mem_cons.mpr ⟨⟨rfl, ⟨id, i, hp⟩, hnew⟩, hold d.dest⟩, fun addr _ => hold addr⟩

end Sender

theorem covered_spec {ack cur : Ack} {cons : UInt16} (h : covered ack cons cur = true) :
    (getFragmentId cur.d.data cur.d.length).id = (getFragmentId ack.d.data ack.d.length).id ∧
      (getFragmentId cur.d.data cur.d.length).fragmentid.toNat <
        (getFragmentId ack.d.data ack.d.length).fragmentid.toNat ∧
      (getFragmentId ack.d.data ack.d.length).fragmentid.toNat -
        (getFragmentId cur.d.data cur.d.length).fragmentid.toNat ≤ cons.toNat := by
  simp only [covered, Bool.and_eq_true, beq_iff_eq, decide_eq_true_eq] at h
  obtain ⟨⟨⟨⟨-, hstream⟩, hblock⟩, hlt⟩, hle⟩ := h
  refine ⟨?_, UInt16.lt_iff_toNat_lt.mp hlt, hle⟩
  simp only [FragmentID.id, hstream, hblock]

/-- The entry an ack pops is the packet with its number, and those it covers lie in the run of
fragments in front of it: the receiver holds all of them. -/
theorem acked_holds (h : s.Inv o receiverAddr) {ackR : AckReceived}
    (hs : s.Sound o receiverAddr ackR.seq ackR.cons) {a : Ack}
    (ha : a ∈ (s.sender.node.ack.popped ackR receiverAddr).toList ++
      s.sender.node.ack.lost ackR receiverAddr) :
    ∃ id i, PacketOf o receiverAddr id i a.d ∧ s.Holds id i := by
  obtain ⟨d, id, i, hsent, hd, hi, hrun⟩ := hs
  have hpop : ∀ pop, s.sender.node.ack.popped ackR receiverAddr = some pop → pop.d = d := by
    intro pop hpop
    have hfind := AckState.popped_find hpop
    have hseq : pop.seq = ackR.seq := by simpa using List.find?_some hfind
    have hlog := (h.sender.outstanding receiverAddr pop (List.mem_of_find?_eq_some hfind)).2.2
    rw [hseq, hsent] at hlog
    exact (Option.some.inj hlog).symm
  rcases List.mem_append.mp ha with ha | ha
  · have hself := hpop a (by simpa using ha)
    exact ⟨id, i, by rw [hself]; exact hd, hi⟩
  · have hdest : ∀ a ∈ s.sender.node.ack.nacks.nacksOf receiverAddr, a.d.dest = receiverAddr :=
      fun a ha => (h.sender.outstanding receiverAddr a ha).1
    obtain ⟨hmem, pop, hp, hcov⟩ := AckState.lost_mem hdest ha
    obtain ⟨-, ⟨id', j, hj⟩, -⟩ := h.sender.outstanding receiverAddr a hmem
    obtain ⟨hid, hlt, hle⟩ := covered_spec hcov
    rw [hpop pop hp] at hid hlt hle
    rw [hj.fragmentId.1, hd.fragmentId.1] at hid
    rw [hj.fragmentId.2, hd.fragmentId.2] at hlt hle
    subst id'
    exact ⟨id, j, hj, hrun j hlt hle⟩

theorem receive_some {st st' : Station} {data : IncomingData} {junk : UInt16}
    (h : st.receive data junk = some st') :
    st'.node = (packetProcessor st.node data junk).node ∧ st'.hand = st.hand := by
  unfold Station.receive at h
  simp only at h
  split at h
  · cases h
  · cases h
    exact ⟨rfl, rfl⟩

variable {senderAddr : SockAddr}

theorem inv_transmit (h : s.Inv o receiverAddr) {tEnd : Timeval} {bandwidth : UInt64} {z : Bool}
    (hs : s.step o senderAddr receiverAddr (.transmit tEnd bandwidth z) = some t)
    (hcount : t.sent.length < 65536) : t.Inv o receiverAddr := by
  obtain ⟨⟨st, d, w⟩, ht, rfl⟩ := Option.map_eq_some_iff.mp hs
  have hless : s.sent.length + 1 < 65536 := by
    obtain ⟨q, ⟨id, i, hp⟩, -⟩ := h.sender.carries.transmit ht
    simpa [hp.asks] using hcount
  obtain ⟨hask, hsender, hwire⟩ := h.sender.transmit hless ht
  have hsent : (if hasBit d.flags needAck = true then s.sent ++ [d] else s.sent) = s.sent ++ [d] :=
    if_pos hask
  simp only [hsent]
  have hg : Grows s
      { s with sender := st, toReceiver := s.toReceiver ++ [w], sent := s.sent ++ [d] } := by
    refine ⟨fun k x hx => ?_, fun _ _ hi => hi⟩
    obtain ⟨hlt, -⟩ := List.getElem?_eq_some_iff.mp hx
    rw [List.getElem?_append_left hlt]
    exact hx
  apply h.grow hg hsender ?_ h.copies ?_ (fun _ hw => Or.inl hw) (fun _ ha => Or.inl ha)
  · intro x hx
    rcases List.mem_append.mp hx with hx | hx
    · exact Or.inl hx
    · obtain ⟨seq, id, i, f, flags, hnew, hrest⟩ := hwire
      rw [List.mem_singleton.mp hx]
      exact Or.inr ⟨seq, d, id, i, f, flags, hnew, hrest⟩
  · exact h.answers.mono (fun q x hx => ⟨hx.1, hg.soundAck hx.2⟩)

theorem inv_deliverAck (h : s.Inv o receiverAddr) {k : ℕ} {tv : Timeval} {stale : Bytes}
    {junk : UInt16}
    (hs : s.step o senderAddr receiverAddr (.deliverAck k tv stale junk) = some t) :
    t.Inv o receiverAddr := by
  simp only [step] at hs
  split at hs
  · cases hs
  rename_i w hw
  obtain ⟨st, hst, rfl⟩ := Option.map_eq_some_iff.mp hs
  obtain ⟨d, ⟨seq, cons, ts, addr, hsound, rfl⟩, hdata⟩ := h.acks w (List.mem_of_getElem? hw)
  obtain ⟨hnode, hhand⟩ := receive_some hst
  obtain ⟨ackR, rfl, rfl, -, hcache, hack, hacked⟩ :=
    packetProcessor_ack s.sender.node junk (datagram_arrives hdata receiverAddr tv stale)
  have hdest : ∀ a ∈ s.sender.node.ack.nacks.nacksOf receiverAddr, a.d.dest = receiverAddr :=
    fun a ha => (h.sender.outstanding receiverAddr a ha).1
  obtain ⟨hseq, hback⟩ := AckState.acknowledged_nacks ackR tv hdest
  have hsender : SenderInv o receiverAddr st s.sent := by
    have hn : ∀ a ∈ s.sender.node.ack.overtaken ackR receiverAddr,
        ∃ addr, a ∈ s.sender.node.ack.nacks.nacksOf addr :=
      fun a ha => ⟨receiverAddr, AckState.overtaken_mem hdest ha⟩
    have hack' : st.node.ack = s.sender.node.ack.acknowledged ackR tv receiverAddr := by
      rw [hnode]
      exact hack
    apply h.sender.resend hn _ _ _ (by rw [hnode]; exact hcache) hhand
    · rw [hack']
      exact AckState.acknowledged_queues _ ackR tv receiverAddr
    · rw [hack']
      exact hseq
    · rw [hack']
      exact hback
  refine h.grow ⟨fun _ _ hd => hd, fun _ _ hi => hi⟩ hsender (fun _ hw => Or.inl hw) h.copies
    h.answers (fun _ hw => Or.inl hw) (fun a ha => ?_)
  rcases List.mem_append.mp ha with ha | ha
  · rw [hacked] at ha
    exact Or.inr (acked_holds h hsound ha)
  · exact Or.inl ha

theorem inv_addOwn (h : s.Inv o receiverAddr) (id : BlockID) :
    Inv o receiverAddr { s with
      receiver := s.receiver.setCache (addblock s.receiver.node.cache id (o.content id)).1 } := by
  apply h.receiverStep
  · exact fun id' i hi => addblock_holds id (o.content id) hi
  · exact copies_addblock h.copies id
  · have hg : Grows s { s with
        receiver := s.receiver.setCache (addblock s.receiver.node.cache id (o.content id)).1 } :=
      ⟨fun _ _ hd => hd, fun _ _ hi => addblock_holds id (o.content id) hi⟩
    refine ⟨h.answers.valid, fun q d hd => ?_, fun d q hd => ?_⟩
    · exact (h.answers.queued q d hd).imp_right hg.soundAck
    · exact (h.answers.inHand d q hd).imp_right hg.soundAck

/-- The receiver answers a fragment with a count of what it held before, then stores it. -/
theorem inv_deliver (h : s.Inv o receiverAddr) {k : ℕ} {tv : Timeval} {stale : Bytes}
    {junk : UInt16} (hs : s.step o senderAddr receiverAddr (.deliver k tv stale junk) = some t) :
    t.Inv o receiverAddr := by
  simp only [step] at hs
  split at hs
  · cases hs
  rename_i w hw
  obtain ⟨st, hst, rfl⟩ := Option.map_eq_some_iff.mp hs
  obtain ⟨seq, d, id, i, f, flags, hsent, hp, hf, hflags, hdata⟩ :=
    h.fragments w (List.mem_of_getElem? hw)
  obtain ⟨hnode, hhand⟩ := receive_some hst
  obtain ⟨hid, hfid, -⟩ := sendFragment_fields hp.index hf
  have hcc := copies_cacheCopy h.copies id
  obtain ⟨cons, hcons, hrun⟩ := getConsecutives_run hcc f.fragmentID hid
    (by rw [show f.fragmentID.fragmentid = f.fragmentid from rfl, hfid]; exact hp.index)
  obtain ⟨cache, r, hadd, -, hheld, hother, hmem⟩ := addfragment_copy (o.sendable id) hcc hp.index
    hf senderAddr tv junk
  obtain ⟨-, hcache, hack⟩ := packetProcessor_fragment junk hflags
    (datagram_arrives hdata senderAddr tv stale) hcons hadd
  rw [← hnode] at hcache hack
  have hholds : ∀ id' j, cacheHolds s.receiver.node.cache id' j = true →
      cacheHolds st.node.cache id' j = true := by
    intro id' j hj
    rw [hcache]
    by_cases hsame : id' = id
    · subst id'
      exact (hheld j).trans (by rw [show (o.original id).id = id from rfl, hj, Bool.or_true])
    · rw [cacheHolds, hother id' hsame]
      exact hj
  have hg : Grows s { s with receiver := st } := ⟨fun _ _ hd => hd, hholds⟩
  apply h.receiverStep hholds
  · intro b hb
    rw [hcache] at hb
    rcases hmem b hb with hb | hb
    · exact h.copies b hb
    · rwa [show b.id = id from hb.id_eq]
  · have hnew : SoundAck o receiverAddr { s with receiver := st }
        (ackFor seq cons tv senderAddr) := by
      refine ⟨seq, cons, tv, senderAddr, ⟨d, id, i, hsent, hp, ?_, ?_⟩, rfl⟩
      · show cacheHolds st.node.cache id i = true
        rw [hcache]
        exact (hheld i).trans (by simp)
      · intro j hj hle
        have hindex : f.fragmentID.fragmentid.toNat = i := hfid
        exact hholds id j (hrun j (by rwa [hindex]) (by rwa [hindex]))
    have hds : ∀ x ∈ [ackFor seq cons tv senderAddr], queueOf x = .prio ∧
        SoundAck o receiverAddr { s with receiver := st } x := by
      intro x hx
      rw [List.mem_singleton.mp hx]
      exact ⟨queueOf_ackFor _ _ _ _, hnew⟩
    obtain ⟨hvalid, hqueued⟩ := Station.queued_sendAll h.answers.valid
      (fun q x hx => (h.answers.queued q x hx).imp_right hg.soundAck) hds
    have hqueues : st.node.ack.queues =
        (s.receiver.node.ack.queues.sendData (ackFor seq cons tv senderAddr)).1 := by
      rw [hack]
      rfl
    refine ⟨by rw [hqueues]; exact hvalid, by rw [hqueues]; exact hqueued, fun x q hx => ?_⟩
    rw [hhand] at hx
    exact (h.answers.inHand x q hx).imp_right hg.soundAck

theorem inv_fetchAck (h : s.Inv o receiverAddr) {q : QueueName}
    (hs : s.step o senderAddr receiverAddr (.fetchAck q) = some t) : t.Inv o receiverAddr := by
  obtain ⟨st, hst, rfl⟩ := Option.map_eq_some_iff.mp hs
  obtain ⟨hcarries, hcache, -⟩ := h.answers.fetch hst
  have hholds : ∀ id i, cacheHolds s.receiver.node.cache id i = true →
      cacheHolds st.node.cache id i = true := by
    rw [hcache]
    exact fun _ _ hi => hi
  have hg : Grows s { s with receiver := st } := ⟨fun _ _ hd => hd, hholds⟩
  exact h.receiverStep hholds (by rw [hcache]; exact h.copies)
    (hcarries.mono (fun q d hd => ⟨hd.1, hg.soundAck hd.2⟩))

/-- An ack is not marked on the wire: it never comes from the data queue. -/
theorem inv_transmitAck (h : s.Inv o receiverAddr) {tEnd : Timeval} {bandwidth : UInt64} {z : Bool}
    (hs : s.step o senderAddr receiverAddr (.transmitAck tEnd bandwidth z) = some t) :
    t.Inv o receiverAddr := by
  obtain ⟨⟨st, d, w⟩, ht, rfl⟩ := Option.map_eq_some_iff.mp hs
  obtain ⟨q, ⟨rfl, hsound⟩, hcarries, hcache, hsend⟩ := h.answers.transmit ht
  have hg : Grows s { s with receiver := st, toSender := s.toSender ++ [w] } :=
    ⟨fun _ _ hd => hd, fun id i hi => by simpa only [Holds, hcache] using hi⟩
  apply h.grow hg h.sender (fun _ hw => Or.inl hw) (by rw [hcache]; exact h.copies)
    (hcarries.mono (fun q x hx => ⟨hx.1, hg.soundAck hx.2⟩)) ?_ (fun _ ha => Or.inl ha)
  intro x hx
  rcases List.mem_append.mp hx with hx | hx
  · exact Or.inl hx
  · rw [List.mem_singleton.mp hx]
    refine Or.inr ⟨d, hg.soundAck hsound, ?_⟩
    obtain ⟨seq, cons, ts, addr, -, rfl⟩ := hsound
    have hflags : (ackFor seq cons ts addr).flags = blkAck := rfl
    have hz : (z && QueueName.prio == QueueName.send) = false := by cases z <;> rfl
    rw [hz] at hsend
    obtain ⟨hw, -⟩ := sendD_wire (by rw [hflags]; decide) hsend
    rw [hw, hflags, if_neg (by decide), List.append_nil]
    rfl

theorem sent_length_le {a : LinkAction} (hs : s.step o senderAddr receiverAddr a = some t) :
    s.sent.length ≤ t.sent.length := by
  cases a with
  | transmit tEnd bandwidth z =>
    obtain ⟨⟨st, d, w⟩, -, rfl⟩ := Option.map_eq_some_iff.mp hs
    simp only
    split
    · rw [List.length_append]
      exact Nat.le_add_right _ _
    · exact le_rfl
  | sendblock id =>
    simp only [step] at hs
    split at hs
    · cases hs
    · cases hs
      exact le_rfl
  | deliverAck k tv stale junk =>
    simp only [step] at hs
    split at hs
    · cases hs
    · obtain ⟨st, -, rfl⟩ := Option.map_eq_some_iff.mp hs
      exact le_rfl
  | deliver k tv stale junk =>
    simp only [step] at hs
    split at hs
    · cases hs
    · obtain ⟨st, -, rfl⟩ := Option.map_eq_some_iff.mp hs
      exact le_rfl
  | fetch q =>
    obtain ⟨st, -, rfl⟩ := Option.map_eq_some_iff.mp hs
    exact le_rfl
  | fetchAck q =>
    obtain ⟨st, -, rfl⟩ := Option.map_eq_some_iff.mp hs
    exact le_rfl
  | transmitAck tEnd bandwidth z =>
    obtain ⟨st, -, rfl⟩ := Option.map_eq_some_iff.mp hs
    exact le_rfl
  | addblock id => cases hs; exact le_rfl
  | deleteblock id => cases hs; exact le_rfl
  | timeout now => cases hs; exact le_rfl
  | addOwn id => cases hs; exact le_rfl

theorem inv_step (h : s.Inv o receiverAddr) {a : LinkAction}
    (hs : s.step o senderAddr receiverAddr a = some t) (hcount : t.sent.length < 65536) :
    t.Inv o receiverAddr := by
  cases a with
  | addblock id =>
    cases hs
    exact h.senderStep (h.sender.addblock id)
  | deleteblock id =>
    cases hs
    exact h.senderStep (h.sender.setCache
      (fun b hb => h.sender.blocks b (deleteblock_subset _ id b hb)))
  | sendblock id =>
    simp only [step] at hs
    split at hs
    · cases hs
    · rename_i ds n hds
      cases hs
      exact h.senderStep (h.sender.sendblock hds)
  | fetch q =>
    obtain ⟨st, hst, rfl⟩ := Option.map_eq_some_iff.mp hs
    exact h.senderStep (h.sender.fetch hst)
  | transmit tEnd bandwidth z => exact inv_transmit h hs hcount
  | timeout now =>
    cases hs
    exact h.senderStep (h.sender.timeout now)
  | deliverAck k tv stale junk => exact inv_deliverAck h hs
  | addOwn id =>
    cases hs
    exact inv_addOwn h id
  | deliver k tv stale junk => exact inv_deliver h hs
  | fetchAck q => exact inv_fetchAck h hs
  | transmitAck tEnd bandwidth z => exact inv_transmitAck h hs

/-- In every run with fewer than 65536 numbered packets: what the sender struck off its list
because an ack popped it or covered it, the receiver holds. -/
theorem acked_held (h : Reachable (link o senderAddr receiverAddr) s)
    (hcount : s.sent.length < 65536) {a : Ack} (ha : a ∈ s.acked) : s.receiverHolds a.d = true := by
  have hinv : s.sent.length < 65536 → s.Inv o receiverAddr := by
    apply h.invariant
    · rintro _ rfl -
      exact inv_start
    · intro s a t hi _ hs hless
      exact inv_step (hi (lt_of_le_of_lt (sent_length_le hs) hless)) hs hless
  obtain ⟨id, i, hp, hi⟩ := (hinv hcount).acked a ha
  simp only [receiverHolds]
  rw [hp.fragmentId.1, hp.fragmentId.2]
  exact hi

def threePieces : Origins where
  origin _ := ⟨1, 1⟩
  content _ := List.replicate 2801 7
  length_pos _ := by rw [List.length_replicate]; decide
  length_le _ := by rw [List.length_replicate]; decide

/-- Three fragments, the first of them received twice. Of the four acks that of the second fragment
comes last, when the one of the third has covered it. -/
def exchanged : List LinkAction :=
  let answer : List LinkAction := [.fetchAck .prio, .transmitAck ⟨3, 0⟩ 1000000 false]
  [.addblock ⟨1, 1⟩, .sendblock ⟨1, 1⟩, .fetch .send, .transmit ⟨1, 0⟩ 1000000 false,
    .fetch .send, .transmit ⟨1, 1⟩ 1000000 true, .fetch .send, .transmit ⟨1, 2⟩ 1000000 false,
    .deliver 0 ⟨2, 0⟩ [] 0, .deliver 0 ⟨2, 5⟩ [9] 0, .deliver 1 ⟨2, 6⟩ [9] 0,
    .deliver 2 ⟨2, 7⟩ [] 0] ++ answer ++ answer ++ answer ++ answer ++
  [.deliverAck 0 ⟨4, 0⟩ [] 0, .deliverAck 3 ⟨4, 1⟩ [] 0, .deliverAck 2 ⟨4, 2⟩ [] 0]

theorem acked_held_exchange :
    ∃ s, (link threePieces ⟨1, 1⟩ ⟨2, 1⟩).runIf (fun _ _ => True) start exchanged = some s ∧
      s.sent.length < 65536 ∧ s.acked.map Ack.seq = [3, 2, 1] ∧
      ∀ a ∈ s.acked, s.receiverHolds a.d = true := by
  have hrun : ((link threePieces ⟨1, 1⟩ ⟨2, 1⟩).runIf (fun _ _ => True) start exchanged).map
      (fun s => (s.sent.length, s.acked.map Ack.seq)) = some (3, [3, 2, 1]) := by
    decide +kernel
  obtain ⟨s, hs, hstate⟩ := Option.map_eq_some_iff.mp hrun
  obtain ⟨hlen, hseqs⟩ := Prod.mk.inj hstate
  have hcount : s.sent.length < 65536 := by rw [hlen]; decide
  exact ⟨s, hs, hcount, hseqs, fun a ha => acked_held ((Reaches.init rfl).runIf hs) hcount ha⟩

end Link

end Bora
