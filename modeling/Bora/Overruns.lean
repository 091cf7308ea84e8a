import Bora.PacketWrites

/-! A node whose packet buffers may overrun: lengths come from `fs.lastlen`, which a block has
from `addblock`, from a peer, or from nobody. -/
namespace Bora

open ByteMemory Checked Transition

/-- Fragment `i` as `sendblock` reads it; behind the content buffer of the block lies `heap`. -/
def readFragment (block : Block) (heap : Bytes) (i : ℕ) : FragmentData where
  streamid := block.id.streamid
  blockid := block.id.blockid
  fragmentid := UInt16.ofNat i
  fragments := block.fs.fn
  length := block.fragmentLength i
  data := readBytes (block.content.data ++ heap) (mtu * i) (block.fragmentLength i).toNat
  data_length := by simp

theorem sendFragment_read {block : Block} {i : ℕ} {fragment : FragmentData}
    (h : sendFragment block i = .ok fragment) (heap : Bytes) :
    fragment = readFragment block heap i := by
  unfold sendFragment at h
  split at h
  · rename_i hle
    cases h
    have hdata : readBytes (block.content.data ++ heap) (mtu * i) (block.fragmentLength i).toNat =
        block.fragmentBytes i := by
      rw [readBytes_eq_slice _ _ _ (by rw [List.length_append]; omega), Block.fragmentBytes,
        slice_append_left _ _ _ _ hle]
    simp only [readFragment, hdata]
  · cases h

theorem encoded_length {block : Block} {heap : Bytes} {i : ℕ} {d : SendData}
    (h : encodeFragment (readFragment block heap i) = .ok d) (dest : SockAddr) (f : UInt8) :
    ((d.setDest dest).setFlags f).length = headerSize + (block.fragmentLength i).toNat := by
  rw [SendData.setFlags_length, SendData.length, SendData.setDest_data, (encodeFragment_ok h).1,
    fragmentPacket_length]
  rfl

/-- The length that the last fragment is sent with leaves room for the header and both trailers. -/
def ShortFragments (block : Block) : Prop :=
  headerSize + block.fs.lastlen.toNat + ackSize + 2 ≤ packetSize

instance (block : Block) : Decidable (ShortFragments block) :=
  inferInstanceAs (Decidable (headerSize + block.fs.lastlen.toNat + ackSize + 2 ≤ packetSize))

theorem shortFragments_le {block : Block} (h : ShortFragments block) (i : ℕ) :
    headerSize + (block.fragmentLength i).toNat + ackSize + 2 ≤ packetSize := by
  unfold Block.fragmentLength
  split
  · exact h
  · decide

/-- A node with the writes to packet buffers and the lengths given to `sendto` so far. After a
write behind the buffer nothing further is said. -/
structure Sending where
  ship : Shipping
  writes : List PacketWrite
  lengths : List ℕ
  overrun : Bool

/-- `sendblock` is one iteration of its loop. -/
inductive SendingAction
  | addblock (id : BlockID) (blockdata : Bytes)
  | deleteblock (id : BlockID)
  | datagram (data : IncomingData) (junk : UInt16)
  | sendblock (id : BlockID) (dest : SockAddr) (i : ℕ) (heap : Bytes)
  | sendRaw (messageString : Bytes) (host : Option UInt32) (portNum : ℤ)
  | sendBwmsg (host : SockAddr) (bw : UInt32)
  | fetch (q : QueueName)
  | cookie (addr : SockAddr)
  | transmit (tEnd : Timeval) (bandwidth : UInt64) (z : Bool) (natPort : UInt16)
  | timeout (now : Timeval)

namespace Sending

def init : Sending := ⟨⟨Outbox.init, Node.init, []⟩, [], [], false⟩

def setCache (s : Sending) (cache : Cache) : Sending :=
  { s with ship := { s.ship with rest := { s.ship.rest with cache := cache } } }

def setShip (s : Sending) (ship : Shipping) : Sending := { s with ship := ship }

def record (s : Sending) (writes : List PacketWrite) (lengths : List ℕ) : Sending :=
  { s with writes := s.writes ++ writes, lengths := s.lengths ++ lengths }

/-- A step that writes to no packet in the functions of interest. -/
def shipStep (s : Sending) (a : ShippingAction) : Option Sending := (s.ship.step a).map s.setShip

def enqueue (s : Sending) (d : SendData) : Sending :=
  { s with ship := { s.ship with
      box := s.ship.box.setQueues (s.ship.box.tables.queues.sendData d).1 } }

def sendFragment (s : Sending) (block : Block) (dest : SockAddr) (i : ℕ) (heap : Bytes) : Sending :=
  let fragment := readFragment block heap i
  let s := s.record (encodeFragmentWrites fragment) []
  match encodeFragment fragment with
  | .error _ => { s with overrun := true }
  | .ok d => s.enqueue ((d.setDest dest).setFlags blkBlockAck)

/-- `packet_send` from send_d on, for the packet in hand. -/
def sendD (s : Sending) (d : SendData) (tEnd : Timeval) (bandwidth : UInt64) (z : Bool)
    (natPort : UInt16) : Sending :=
  let s := s.record (sendDWrites d z) [sendtoLength d z]
  match s.ship.step (.outbox (.transmit tEnd bandwidth z natPort)) with
  | none => { s with overrun := true }
  | some ship => s.setShip ship

def step (s : Sending) (a : SendingAction) : Option Sending :=
  if s.overrun then none
  else
    match a with
    | .addblock id blockdata => some (s.setCache (addblock s.ship.rest.cache id blockdata).1)
    | .deleteblock id => some (s.setCache (deleteblock s.ship.rest.cache id).1)
    | .datagram data junk => s.shipStep (.datagram data junk)
    | .sendblock id dest i heap =>
      match findblock s.ship.rest.cache id with
      | none => none
      | some block =>
        if i < block.fs.fn.toNat then some (s.sendFragment block dest i heap) else none
    | .sendRaw messageString host portNum =>
      (Bora.sendRaw messageString host portNum).map s.enqueue
    | .sendBwmsg host bw => some (s.enqueue ((encodeBw bw).setDest host))
    | .fetch q => s.shipStep (.outbox (.fetch q))
    | .cookie addr => s.shipStep (.outbox (.cookie addr))
    | .transmit tEnd bandwidth z natPort =>
      match s.ship.box.hand with
      | none => none
      | some d => if bandwidth = 0 then none else some (s.sendD d tEnd bandwidth z natPort)
    | .timeout now => s.shipStep (.outbox (.timeout now))

/-- `sendblock` is not called for a block whose `fs.lastlen` leaves too little room. -/
def lastlenFits (s : Sending) : SendingAction → Bool
  | .sendblock id _ _ _ =>
    (findblock s.ship.rest.cache id).all (fun block => decide (ShortFragments block))
  | _ => true

end Sending

def sending : System Sending SendingAction where
  init s := s = Sending.init
  step := Sending.step

/-- A property of every packet that is not a fragment, and that resending keeps. -/
structure ByCallers (P : SendData → Prop) : Prop where
  resent : KeptByResending P
  cookie : ∀ addr, P (bogusData addr)
  ack : ∀ seq cons ts addr, P (ackFor seq cons ts addr)
  bw : ∀ bw host, P ((encodeBw bw).setDest host)
  raw : ∀ {messageString host portNum d}, sendRaw messageString host portNum = some d → P d

theorem SendData.roomy_byCallers : ByCallers SendData.Roomy where
  resent := roomy_resent
  cookie := roomy_bogusData
  ack := roomy_ackFor
  bw := roomy_encodeBw
  raw := roomy_sendRaw

theorem SendData.nonempty_byCallers : ByCallers (fun d => 0 < d.length) where
  resent := by
    intro d d' h hd
    rw [(resent_eq h).1, setFlags_length]
    exact hd
  cookie _ := by simp [length, bogusData]
  ack _ _ _ _ := by
    show 0 < (AckPacket.bytes _).length
    rw [AckPacket.bytes_length]
    decide
  bw _ _ := Nat.succ_pos _
  raw := by
    intro messageString host portNum d h
    rw [length, (sendRaw_some h).2]
    exact Nat.succ_pos _

namespace Sending

variable {P : SendData → Prop} {s t : Sending}

/-- Where nothing is read behind the content buffer, the packet queued is that of `sendblock`. -/
theorem sendFragment_packet {block : Block} {dest : SockAddr} {i : ℕ} {d : SendData}
    (h : sendPacket block dest i = .ok d) (heap : Bytes) :
    s.sendFragment block dest i heap =
      (s.record (encodeFragmentWrites (readFragment block heap i)) []).enqueue d := by
  obtain ⟨fragment, hfragment, h⟩ := bind_eq_ok.mp h
  obtain ⟨d', hd', h⟩ := bind_eq_ok.mp h
  cases h
  rw [sendFragment_read hfragment heap] at hd'
  simp only [sendFragment, hd']

theorem enqueue_every (hc : ByCallers P) (h : s.ship.box.Every P) {d : SendData} (hd : P d) :
    (s.enqueue d).ship.box.Every P := by
  refine h.step hc.resent hc.cookie (a := .sendData d) ?_ rfl
  rintro _ ⟨⟩ -
  exact hd

theorem shipStep_every (hc : ByCallers P) (h : s.ship.box.Every P) {a : ShippingAction}
    (hands : ∀ d, s.ship.Hands a d → P d) (hs : s.shipStep a = some t) :
    t.ship.box.Every P := by
  obtain ⟨ship, hship, rfl⟩ := Option.map_eq_some_iff.mp hs
  show ship.box.Every P
  rcases Shipping.step_outbox hship with halike | ⟨a', box, hbox, halike, ha'⟩
  · exact h.congr halike
  · refine Outbox.Every.congr ?_ halike
    exact h.step hc.resent hc.cookie (fun d hd _ => hands d (ha' d hd)) hbox

theorem sendFragment_every (hc : ByCallers P) (h : s.ship.box.Every P) {block : Block}
    {dest : SockAddr} {i : ℕ} {heap : Bytes}
    (hd : ∀ d, encodeFragment (readFragment block heap i) = .ok d →
      P ((d.setDest dest).setFlags blkBlockAck)) :
    (s.sendFragment block dest i heap).ship.box.Every P := by
  simp only [sendFragment]
  split
  · exact h
  · rename_i d he
    exact enqueue_every hc (s := s.record _ _) h (hd d he)

theorem sendD_every (hc : ByCallers P) (h : s.ship.box.Every P) (d : SendData) (tEnd : Timeval)
    (bandwidth : UInt64) (z : Bool) (natPort : UInt16) :
    (s.sendD d tEnd bandwidth z natPort).ship.box.Every P := by
  unfold sendD
  simp only
  split
  · exact h
  · rename_i ship hship
    refine shipStep_every hc (s := s) h (a := .outbox (.transmit tEnd bandwidth z natPort)) ?_
      (t := s.setShip ship) ?_
    · rintro d ⟨⟨⟩, -⟩
    · rw [shipStep, show s.ship.step (.outbox (.transmit tEnd bandwidth z natPort)) = some ship
        from hship]
      rfl

theorem every_step (hc : ByCallers P) (h : s.ship.box.Every P) {a : SendingAction}
    (hfragment : ∀ id dest i heap block d, a = .sendblock id dest i heap →
      findblock s.ship.rest.cache id = some block → i < block.fs.fn.toNat →
      encodeFragment (readFragment block heap i) = .ok d →
      P ((d.setDest dest).setFlags blkBlockAck))
    (hs : s.step a = some t) : t.ship.box.Every P := by
  unfold step at hs
  split at hs
  · cases hs
  cases a with
  | addblock id blockdata =>
    cases hs
    exact h
  | deleteblock id =>
    cases hs
    exact h
  | datagram data junk =>
    refine shipStep_every hc h ?_ hs
    rintro d ⟨seq, cons, ts, addr, rfl⟩
    exact hc.ack seq cons ts addr
  | sendblock id dest i heap =>
    simp only at hs
    split at hs
    · cases hs
    rename_i block hfind
    split at hs
    · rename_i hi
      cases hs
      exact sendFragment_every hc h (fun d hd => hfragment id dest i heap block d rfl hfind hi hd)
    · cases hs
  | sendRaw messageString host portNum =>
    obtain ⟨d, hd, rfl⟩ := Option.map_eq_some_iff.mp hs
    exact enqueue_every hc h (hc.raw hd)
  | sendBwmsg host bw =>
    cases hs
    exact enqueue_every hc h (hc.bw bw host)
  | fetch q =>
    refine shipStep_every hc h ?_ hs
    rintro d ⟨⟨⟩, -⟩
  | cookie addr =>
    refine shipStep_every hc h ?_ hs
    rintro d ⟨⟨⟩, -⟩
  | transmit tEnd bandwidth z natPort =>
    simp only at hs
    split at hs
    · cases hs
    split at hs
    · cases hs
    · cases hs
      exact sendD_every hc h _ _ _ _ _
  | timeout now =>
    refine shipStep_every hc h ?_ hs
    rintro d ⟨⟨⟩, -⟩

/-- The writes of a step and the lengths it gives to `sendto`. -/
def recordOf (s : Sending) : SendingAction → List PacketWrite × List ℕ
  | .sendblock id _ i heap =>
    match findblock s.ship.rest.cache id with
    | none => ([], [])
    | some block => (encodeFragmentWrites (readFragment block heap i), [])
  | .transmit _ _ z _ =>
    match s.ship.box.hand with
    | none => ([], [])
    | some d => (sendDWrites d z, [sendtoLength d z])
  | _ => ([], [])

structure Recorded (s t : Sending) (r : List PacketWrite × List ℕ) : Prop where
  writes : t.writes = s.writes ++ r.1
  lengths : t.lengths = s.lengths ++ r.2
  overrun : t.overrun = true ↔ ∃ w ∈ r.1, ¬ w.Fits

theorem recorded_nothing (hover : s.overrun = false) (hw : t.writes = s.writes)
    (hl : t.lengths = s.lengths) (ho : t.overrun = s.overrun) : Recorded s t ([], []) where
  writes := by rw [hw, List.append_nil]
  lengths := by rw [hl, List.append_nil]
  overrun := by simp [ho, hover]

theorem recorded_shipStep (hover : s.overrun = false) {a : ShippingAction}
    (hs : s.shipStep a = some t) : Recorded s t ([], []) := by
  obtain ⟨ship, -, rfl⟩ := Option.map_eq_some_iff.mp hs
  exact recorded_nothing hover rfl rfl rfl

theorem recorded_sendFragment (hover : s.overrun = false) (block : Block) (dest : SockAddr)
    (i : ℕ) (heap : Bytes) : Recorded s (s.sendFragment block dest i heap)
      (encodeFragmentWrites (readFragment block heap i), []) := by
  have hiff := encodeFragment_ok_iff (readFragment block heap i)
  simp only [sendFragment]
  split
  · rename_i e he
    refine ⟨rfl, rfl, ?_⟩
    have hno : ¬ ∀ w ∈ encodeFragmentWrites (readFragment block heap i), w.Fits := by
      rw [← hiff, he]
      simp
    simpa using hno
  · rename_i d hd
    refine ⟨rfl, rfl, ?_⟩
    have hfit := hiff.mp ⟨d, hd⟩
    simp only [enqueue, record, hover, Bool.false_eq_true, false_iff, not_exists, not_and,
      not_not]
    exact hfit

theorem recorded_sendD (hover : s.overrun = false) {d : SendData} (hhand : s.ship.box.hand = some d)
    (hpos : 0 < d.length) (tEnd : Timeval) {bandwidth : UInt64} (hb : bandwidth ≠ 0) (z : Bool)
    (natPort : UInt16) : Recorded s (s.sendD d tEnd bandwidth z natPort)
      (sendDWrites d z, [sendtoLength d z]) := by
  have hiff := sendD_ok_iff s.ship.box.tables.nacks hpos tEnd hb z natPort
  have hship : ∀ {ship}, s.ship.step (.outbox (.transmit tEnd bandwidth z natPort)) = ship →
      (ship.isSome = true ↔ ∀ w ∈ sendDWrites d z, w.Fits) := by
    rintro _ rfl
    rw [← hiff]
    simp only [Shipping.step, OutboxAction.handsFragment, Outbox.step, hhand, Bool.false_eq_true,
      if_false, Option.isSome_map]
    split
    · rename_i e he
      simp [he]
    · rename_i nacks w he
      simp [he]
  simp only [sendD]
  split
  · rename_i hnone
    have hno : ¬ ∀ w ∈ sendDWrites d z, w.Fits := by
      rw [← hship hnone]
      decide
    refine ⟨rfl, rfl, ?_⟩
    simpa using hno
  · rename_i ship hsome
    have hfit := (hship hsome).mp rfl
    refine ⟨rfl, rfl, ?_⟩
    simp only [setShip, record, hover, Bool.false_eq_true, false_iff, not_exists, not_and, not_not]
    exact hfit

def HandsBytes (s : Sending) : Prop := s.ship.box.Every (fun d => 0 < d.length)

theorem recorded_step (h : s.HandsBytes) {a : SendingAction} (hs : s.step a = some t) :
    Recorded s t (s.recordOf a) := by
  unfold step at hs
  split at hs
  · cases hs
  rename_i hover
  rw [Bool.not_eq_true] at hover
  cases a with
  | addblock id blockdata =>
    cases hs
    exact recorded_nothing hover rfl rfl rfl
  | deleteblock id =>
    cases hs
    exact recorded_nothing hover rfl rfl rfl
  | datagram data junk => exact recorded_shipStep hover hs
  | sendblock id dest i heap =>
    simp only at hs
    split at hs
    · cases hs
    rename_i block hfind
    split at hs
    · cases hs
      simp only [recordOf, hfind]
      exact recorded_sendFragment hover block dest i heap
    · cases hs
  | sendRaw messageString host portNum =>
    obtain ⟨d, -, rfl⟩ := Option.map_eq_some_iff.mp hs
    exact recorded_nothing hover rfl rfl rfl
  | sendBwmsg host bw =>
    cases hs
    exact recorded_nothing hover rfl rfl rfl
  | fetch q => exact recorded_shipStep hover hs
  | cookie addr => exact recorded_shipStep hover hs
  | transmit tEnd bandwidth z natPort =>
    simp only at hs
    split at hs
    · cases hs
    rename_i d hhand
    split at hs
    · cases hs
    rename_i hb
    cases hs
    simp only [recordOf, hhand]
    exact recorded_sendD hover hhand (h.hand d hhand) tEnd hb z natPort
  | timeout now => exact recorded_shipStep hover hs

theorem handsBytes_step (h : s.HandsBytes) {a : SendingAction} (hs : s.step a = some t) :
    t.HandsBytes := by
  refine every_step SendData.nonempty_byCallers h ?_ hs
  intro id dest i heap block d _ _ _ hd
  rw [encoded_length hd]
  unfold headerSize
  omega

theorem overrun_iff {ok : Sending → SendingAction → Prop} (h : Reaches sending ok s) :
    s.HandsBytes ∧ (s.overrun = true ↔ ∃ w ∈ s.writes, ¬ w.Fits) := by
  apply h.invariant
  · rintro s rfl
    refine ⟨Outbox.every_init, ?_⟩
    simp [init]
  · rintro s a t ⟨hbytes, hover⟩ - hs
    have hbefore : s.overrun = false := by
      change s.step a = some t at hs
      unfold step at hs
      split at hs
      · cases hs
      · rename_i hno
        simpa using hno
    have hrec := recorded_step hbytes hs
    have hfits : ¬ ∃ w ∈ s.writes, ¬ w.Fits := by
      rw [← hover, hbefore]
      decide
    refine ⟨handsBytes_step hbytes hs, ?_⟩
    rw [hrec.overrun, hrec.writes]
    constructor
    · rintro ⟨w, hw, hno⟩
      exact ⟨w, List.mem_append_right _ hw, hno⟩
    · rintro ⟨w, hw, hno⟩
      rcases List.mem_append.mp hw with hw | hw
      · exact absurd ⟨w, hw, hno⟩ hfits
      · exact ⟨w, hw, hno⟩

/-- In the buffers there is room behind every packet, and so far everything stayed inside. -/
structure Bounded (s : Sending) : Prop where
  packets : s.ship.box.Every SendData.Roomy
  writes : ∀ w ∈ s.writes, w.Fits
  lengths : ∀ l ∈ s.lengths, l ≤ packetSize

theorem lastlenFits_block {id : BlockID} {dest : SockAddr} {i : ℕ} {heap : Bytes} {block : Block}
    (h : s.lastlenFits (.sendblock id dest i heap) = true)
    (hfind : findblock s.ship.rest.cache id = some block) : ShortFragments block := by
  simpa [lastlenFits, hfind] using h

theorem recordOf_fits (h : s.ship.box.Every SendData.Roomy) {a : SendingAction}
    (ha : s.lastlenFits a = true) :
    (∀ w ∈ (s.recordOf a).1, w.Fits) ∧ ∀ l ∈ (s.recordOf a).2, l ≤ packetSize := by
  cases a with
  | sendblock id dest i heap =>
    simp only [recordOf]
    split
    · simp
    · rename_i block hfind
      have hlen := shortFragments_le (lastlenFits_block ha hfind) i
      refine ⟨(encodeFragment_ok_iff _).mp ?_, by simp⟩
      exact ⟨_, dif_pos (show headerSize + (block.fragmentLength i).toNat ≤ packetSize by omega)⟩
  | transmit tEnd bandwidth z natPort =>
    simp only [recordOf]
    split
    · simp
    · rename_i d hhand
      obtain ⟨hwrites, hlength⟩ := (h.hand d hhand).sends z
      exact ⟨hwrites, by simpa using hlength⟩
  | _ => simp [recordOf]

theorem Bounded.step (h : s.Bounded) (hbytes : s.HandsBytes) {a : SendingAction}
    (ha : s.lastlenFits a = true) (hs : s.step a = some t) : t.Bounded := by
  have hrec := recorded_step hbytes hs
  obtain ⟨hwrites, hlengths⟩ := recordOf_fits h.packets ha
  refine ⟨?_, ?_, ?_⟩
  · refine every_step SendData.roomy_byCallers h.packets ?_ hs
    rintro id dest i heap block d rfl hfind - hd
    rw [SendData.Roomy, encoded_length hd]
    exact shortFragments_le (lastlenFits_block ha hfind) i
  · rw [hrec.writes]
    exact List.forall_mem_append.mpr ⟨h.writes, hwrites⟩
  · rw [hrec.lengths]
    exact List.forall_mem_append.mpr ⟨h.lengths, hlengths⟩

theorem bounded_of_reaches (h : Reaches sending (fun s a => s.lastlenFits a = true) s) :
    s.Bounded := by
  have hinv : s.HandsBytes ∧ s.Bounded := by
    apply h.invariant
    · rintro s rfl
      exact ⟨Outbox.every_init, Outbox.every_init, by simp [init], by simp [init]⟩
    · rintro s a t ⟨hbytes, hbounded⟩ ha hs
      exact ⟨handsBytes_step hbytes hs, hbounded.step hbytes ha hs⟩
  exact hinv.2

end Sending

/-- In every run that sends no block whose `fs.lastlen` leaves too little room, no byte is written
behind the buffer, and `sendto` is given at most its size. -/
theorem packets_bounded {s : Sending} (h : Reaches sending (fun s a => s.lastlenFits a = true) s) :
    (∀ w ∈ s.writes, ∀ k < w.len, w.off + k < packetSize) ∧ ∀ l ∈ s.lengths, l ≤ packetSize := by
  have hbounded := Sending.bounded_of_reaches h
  exact ⟨fun w hw k hk => (hbounded.writes w hw).lt hk, hbounded.lengths⟩

/-- Without the room, the last fragment overruns its buffer: where it is encoded, or whenever its
packet is sent. -/
theorem lastlen_overruns {block : Block} (hlong : ¬ ShortFragments block)
    (hfn : 0 < block.fs.fn.toNat) (dest : SockAddr) (heap : Bytes) :
    (∃ w ∈ encodeFragmentWrites (readFragment block heap (block.fs.fn.toNat - 1)), ¬ w.Fits) ∨
      ∃ d, encodeFragment (readFragment block heap (block.fs.fn.toNat - 1)) = .ok d ∧
        ∀ z, ∃ w ∈ sendDWrites ((d.setDest dest).setFlags blkBlockAck) z, ¬ w.Fits := by
  have hlast : block.fragmentLength (block.fs.fn.toNat - 1) = block.fs.lastlen :=
    if_pos (Nat.sub_add_cancel hfn)
  by_cases hok : ∃ d, encodeFragment (readFragment block heap (block.fs.fn.toNat - 1)) = .ok d
  · obtain ⟨d, hd⟩ := hok
    have hlen := encoded_length hd dest blkBlockAck
    have hroomy : ¬ ((d.setDest dest).setFlags blkBlockAck).Roomy := by
      rw [SendData.Roomy, hlen, hlast]
      exact hlong
    have hflags : ((d.setDest dest).setFlags blkBlockAck).flags = blkBlockAck := by
      refine SendData.setFlags_flags _ _ ?_
      rw [← SendData.setFlags_length (d.setDest dest) blkBlockAck, hlen]
      unfold headerSize
      omega
    refine Or.inr ⟨d, hd, fun z => ?_⟩
    rw [← SendData.roomy_iff (by rw [hflags]; decide) z] at hroomy
    simpa using hroomy
  · rw [encodeFragment_ok_iff] at hok
    exact Or.inl (by simpa using hok)

/-- A block that is received and sent on: two packets, each with a number and a port. -/
theorem packets_bounded_relayed :
    ∃ s, sending.runIf (fun s a => s.lastlenFits a = true) Sending.init
        [.datagram innerDatagram 65535, .datagram lastDatagram 0, .sendblock ⟨1, 1⟩ ⟨2, 1⟩ 0 [],
          .sendblock ⟨1, 1⟩ ⟨2, 1⟩ 1 [], .fetch .send, .transmit ⟨1, 0⟩ 1000000 false 0,
          .fetch .send, .transmit ⟨1, 0⟩ 1000000 true 0] = some s ∧
      s.lengths = [1417, 19] ∧
      (∀ w ∈ s.writes, ∀ k < w.len, w.off + k < packetSize) ∧ ∀ l ∈ s.lengths, l ≤ packetSize := by
  have hrun : (sending.runIf (fun s a => s.lastlenFits a = true) Sending.init
      [.datagram innerDatagram 65535, .datagram lastDatagram 0, .sendblock ⟨1, 1⟩ ⟨2, 1⟩ 0 [],
        .sendblock ⟨1, 1⟩ ⟨2, 1⟩ 1 [], .fetch .send, .transmit ⟨1, 0⟩ 1000000 false 0,
        .fetch .send, .transmit ⟨1, 0⟩ 1000000 true 0]).map Sending.lengths = some [1417, 19] := by
    decide +kernel
  obtain ⟨s, hs, hlengths⟩ := Option.map_eq_some_iff.mp hrun
  have hinit : Reaches sending (fun s a => s.lastlenFits a = true) Sending.init := .init rfl
  exact ⟨s, hs, hlengths, packets_bounded (hinit.runIf hs)⟩

/-- A block whose last fragment did not come is sent with the length that malloc left. -/
theorem packet_overrun :
    ¬ ∀ s, Reachable sending s →
      (∀ w ∈ s.writes, ∀ k < w.len, w.off + k < packetSize) ∧ ∀ l ∈ s.lengths, l ≤ packetSize := by
  intro hclaim
  have hrun : (sending.runIf (fun _ _ => True) Sending.init
      [.datagram innerDatagram 65535, .sendblock ⟨1, 1⟩ ⟨2, 1⟩ 0 [],
        .sendblock ⟨1, 1⟩ ⟨2, 1⟩ 1 []]).map (fun s => s.writes.contains ⟨13, 65535⟩) =
      some true := by
    decide +kernel
  obtain ⟨s, hs, hwrite⟩ := Option.map_eq_some_iff.mp hrun
  have hinit : Reachable sending Sending.init := .init rfl
  have hlt := (hclaim s (hinit.runIf hs)).1 ⟨13, 65535⟩ (by simpa using hwrite) 1487 (by decide)
  exact absurd hlt (by decide)

end Bora
