import Bora.NodeTables

/-! Retransmission, round after round: what stays true of every packet that the sender has, what
the receiver makes of a packet that was resent, and how it differs on the wire from the packet
that `sendblock` queued. -/
namespace Bora

open ByteMemory Checked Processing Transition

/-- The packets in the queues, in the lists of what is outstanding and in the sender thread's
hand satisfy `P`. -/
structure Outbox.Every (P : SendData → Prop) (s : Outbox) : Prop where
  valid : s.tables.queues.Valid
  addressed : s.Addressed
  queued : ∀ q, ∀ d ∈ s.tables.queues.queued q, P d
  outstanding : ∀ addr, ∀ a ∈ s.tables.nacks.nacksOf addr, P a.d
  hand : ∀ d, s.hand = some d → P d

def KeptByResending (P : SendData → Prop) : Prop := ∀ d d', resent d = some d' → P d → P d'

namespace Outbox

variable {P Q : SendData → Prop} {s t : Outbox}

theorem every_init : init.Every P where
  valid := SendQueues.valid_init
  addressed := addressed_init
  queued := by
    intro q d hd
    rw [show init.tables.queues = SendQueues.init from rfl, SendQueues.queued_init] at hd
    simp at hd
  outstanding := by
    intro addr a ha
    simp [init, AckState.init, NackTable.nacksOf, NackTable.findByHost, NackTable.init] at ha
  hand := by simp [init]

theorem Every.mono (h : s.Every P) (hpq : ∀ d, P d → Q d) : s.Every Q where
  valid := h.valid
  addressed := h.addressed
  queued q d hd := hpq d (h.queued q d hd)
  outstanding addr a ha := hpq a.d (h.outstanding addr a ha)
  hand d hd := hpq d (h.hand d hd)

theorem Every.congr (h : s.Every P) (hst : Alike t s) : t.Every P where
  valid := by rw [hst.tables]; exact h.valid
  addressed := by rw [Addressed, hst.tables]; exact h.addressed
  queued := by rw [hst.tables]; exact h.queued
  outstanding := by rw [hst.tables]; exact h.outstanding
  hand := by rw [hst.hand]; exact h.hand

/-- A step that hands nothing new to `send_data`, given what it does to the queues and the hand. -/
theorem Every.move (h : s.Every P) {a : OutboxAction} (hs : s.step a = some t)
    (hvalid : t.tables.queues.Valid) (hqueued : ∀ q, ∀ d ∈ t.tables.queues.queued q, P d)
    (hhand : ∀ d, t.hand = some d → P d) : t.Every P where
  valid := hvalid
  addressed := (step_listMove hs).addressed h.addressed
  queued := hqueued
  outstanding := by
    cases step_listMove hs with
    | append hd _ _ _ hnacks =>
      rw [hnacks]
      exact (Function.forall_update_iff _ (fun _ (l : List Ack) => ∀ a ∈ l, P a.d)).mpr
        ⟨List.forall_mem_cons.mpr ⟨h.hand _ hd, h.outstanding _⟩, fun addr _ => h.outstanding addr⟩
    | shrink _ _ hnacks => exact fun addr a ha => h.outstanding addr a ((hnacks addr).subset ha)
  hand := hhand

theorem Every.resends (h : s.Every P) (hc : KeptByResending P) (nacks : List Ack)
    (hn : ∀ a ∈ nacks, ∃ addr, a ∈ s.tables.nacks.nacksOf addr) :
    (nacks.foldl resendNack s.tables.queues).Valid ∧
      ∀ q, ∀ d ∈ (nacks.foldl resendNack s.tables.queues).queued q, P d := by
  obtain ⟨hvalid, -, hnew⟩ := resends_spec h.valid nacks
  refine ⟨hvalid, fun q d hd => ?_⟩
  rcases hnew q d hd with hd | ⟨a, ha, hr⟩
  · exact h.queued q d hd
  · obtain ⟨addr, haddr⟩ := hn a ha
    exact hc a.d d hr (h.outstanding addr a haddr)

/-- Every packet keeps the property if resending does, cookies have it, and so has what is
handed to `send_data` and finds room. -/
theorem Every.step (h : s.Every P) (hc : KeptByResending P) (hbogus : ∀ addr, P (bogusData addr))
    {a : OutboxAction}
    (hsend : ∀ d, a = .sendData d → (s.tables.queues.sendData d).2 = true → P d)
    (hs : s.step a = some t) : t.Every P := by
  cases a with
  | sendData d =>
    obtain ⟨hvalid, hqueued⟩ := SendQueues.sendData_spec h.valid d
    cases hs
    refine h.move (a := .sendData d) rfl hvalid ?_ h.hand
    intro q x hx
    rw [show (s.setQueues _).tables.queues = (s.tables.queues.sendData d).1 from rfl,
      hqueued q] at hx
    rcases List.mem_append.mp hx with hx | hx
    · exact h.queued q x hx
    · split at hx
      · rename_i hacc
        rw [List.mem_singleton.mp hx]
        exact hsend d rfl hacc.1
      · simp at hx
  | fetch q =>
    obtain ⟨-, queues, d, hfetch, rfl⟩ := step_fetch hs
    obtain ⟨hvalid, hq, hother⟩ := SendQueues.fetch_some h.valid hfetch
    refine h.move hs hvalid ?_ ?_
    · intro q' x hx
      by_cases hqq : q' = q
      · subst q'
        exact h.queued q x (by rw [hq]; exact List.mem_cons_of_mem _ hx)
      · exact h.queued q' x (by rw [← hother q' hqq]; exact hx)
    · rintro _ ⟨⟩
      exact h.queued q d (by rw [hq]; exact List.mem_cons_self)
  | cookie addr =>
    obtain ⟨-, rfl⟩ := step_cookie hs
    refine h.move hs h.valid h.queued ?_
    rintro _ ⟨⟩
    exact hbogus addr
  | transmit tEnd bandwidth z natPort =>
    obtain ⟨d, nacks, w, -, -, rfl⟩ := step_transmit hs
    refine h.move hs (SendQueues.valid_congr (SendQueues.postEmpty_ring _) h.valid) ?_ (by simp)
    intro q x hx
    rw [SendQueues.queued_congr (SendQueues.postEmpty_ring _)] at hx
    exact h.queued q x hx
  | ack ackR received source =>
    have hq := AckState.acknowledged_queues s.tables ackR received source
    obtain ⟨hvalid, hqueued⟩ := h.resends hc (s.tables.overtaken ackR source)
      (fun a ha => ⟨source, AckState.overtaken_mem (h.addressed source) ha⟩)
    rw [← hq] at hvalid hqueued
    cases hs
    exact h.move (a := .ack ackR received source) rfl hvalid hqueued h.hand
  | timeout now =>
    have hq : (s.tables.sweepTimeouts now).queues =
        (s.tables.timedOut now).foldl resendNack s.tables.queues :=
      (resendTimeoutNacks_spec s.tables.nacks s.tables.queues s.tables.acks.getTimeoutValue now).2.1
    obtain ⟨hvalid, hqueued⟩ := h.resends hc (s.tables.timedOut now) (fun a ha => by
      obtain ⟨addr, haddr, -⟩ := NackTable.mem_timedOutNacks.mp ha
      exact ⟨addr, haddr⟩)
    rw [← hq] at hvalid hqueued
    cases hs
    exact h.move (a := .timeout now) rfl hvalid hqueued h.hand

end Outbox

/-- `validate_block` accepts the bytes, and the stage that looks for the number behind them
answers it. -/
structure BlockAccepted (body : Bytes) : Prop where
  valid : validateBlock body body.length = true
  answered : ∀ (p : Processing) (seq : UInt16) (rest : Bytes),
    p.data.buf = body ++ (store16 seq ++ rest) → p.data.buflen = body.length + ackSize →
    p.needAckStage = ((((p.noteSub ackSize).sub ackSize).addStat .data ackSize).answer seq)

theorem validateBlock_iff (blob : Bytes) (l : ℕ) :
    validateBlock blob l = true ↔
      (headerSize ≤ l ∧ l = headerSize + (htons (fragmentHeader blob).length).toNat ∧
        byteAt blob 0 &&& maskBlockAck &&& blockMaskConsecutive &&& blockMaskRetransmission = 0) ∨
      l = headerSize + mtu ∧ byteAt blob 0 = needAck ||| cookieMsg := by
  have hflags : (fragmentHeader blob).flags = byteAt blob 0 := rfl
  simp only [validateBlock, hflags, blkEmpty, UInt8.xor_zero]
  split
  · rename_i h
    exact ⟨fun _ => Or.inl h, fun _ => rfl⟩
  · rename_i h
    split
    · rename_i hl
      simp only [beq_iff_eq, hl, true_and]
      constructor
      · exact Or.inr
      · rintro (hfrag | hcookie)
        · rw [hl] at h
          exact absurd hfrag h
        · exact hcookie
    · rename_i hl
      simp only [hl, h, false_and, or_self, Bool.false_eq_true]

theorem fragmentHeader_append {body : Bytes} (h : headerSize ≤ body.length) (rest : Bytes) :
    fragmentHeader (body ++ rest) = fragmentHeader body := by
  unfold headerSize at h
  simp only [fragmentHeader, load16, load32, byteAt_append rest (show 0 < body.length by omega),
    slice_append_left body rest 1 2 (by omega), slice_append_left body rest 3 4 (by omega),
    slice_append_left body rest 7 2 (by omega), slice_append_left body rest 9 2 (by omega),
    slice_append_left body rest 11 2 (by omega)]

theorem validateBlock_length {body : Bytes} (h : validateBlock body body.length = true) :
    headerSize ≤ body.length := by
  rcases (validateBlock_iff _ _).mp h with ⟨hl, -⟩ | ⟨hl, -⟩ <;> omega

theorem validateBlock_append {body : Bytes} (h : validateBlock body body.length = true)
    (rest : Bytes) : validateBlock (body ++ rest) body.length = true := by
  have hlen := validateBlock_length h
  have hpos : 0 < body.length := by unfold headerSize at hlen; omega
  rw [validateBlock_iff, fragmentHeader_append hlen, byteAt_append rest hpos]
  exact (validateBlock_iff _ _).mp h

theorem accepted_of_valid {body : Bytes} (h : validateBlock body body.length = true)
    (hask : hasBit (byteAt body 0) needAck = true) : BlockAccepted body where
  valid := h
  answered := by
    intro p seq rest hbuf hlen
    have hpos : 0 < body.length := by
      have := validateBlock_length h
      unfold headerSize at this
      omega
    have hflags : p.data.flags = byteAt body 0 := by
      rw [IncomingData.flags, hbuf, byteAt_append _ hpos]
    have hsub : subSize p.data.buflen ackSize = body.length := by
      rw [hlen, subSize_of_le (Nat.le_add_left _ _), Nat.add_sub_cancel]
    have hvalid : validateBlock p.data.buf (subSize p.data.buflen ackSize) = true := by
      rw [hsub, hbuf]
      exact validateBlock_append h _
    have hseq : stripAck p.data.buf p.data.buflen = seq := by
      rw [stripAck, show subSize p.data.buflen 2 = _ from hsub, hbuf, load16_append _ _ _ le_rfl,
        Nat.sub_self, load16_store16]
    rw [needAckStage_asked (by rw [hflags]; exact hask) hvalid, hseq]

theorem maskedFlags_resent {f : UInt8} (hask : hasBit f needAck = true)
    (hmask : f &&& maskBlockAck &&& blockMaskConsecutive &&& blockMaskRetransmission = 0) :
    hasBit (f &&& blockMaskConsecutive) blkBlockAck = true ∧ f ≠ needAck ||| cookieMsg ∧
      hasBit (resentFlags f) needAck = true ∧
      resentFlags f &&& maskBlockAck &&& blockMaskConsecutive &&& blockMaskRetransmission = 0 ∧
      (f ||| blockConsecutive) &&& maskBlockAck &&& blockMaskConsecutive &&&
        blockMaskRetransmission = 0 := by
  revert hask hmask
  exact flags_forall (P := fun f => hasBit f needAck = true →
    f &&& maskBlockAck &&& blockMaskConsecutive &&& blockMaskRetransmission = 0 →
    hasBit (f &&& blockMaskConsecutive) blkBlockAck = true ∧ f ≠ needAck ||| cookieMsg ∧
      hasBit (resentFlags f) needAck = true ∧
      resentFlags f &&& maskBlockAck &&& blockMaskConsecutive &&& blockMaskRetransmission = 0 ∧
      (f ||| blockConsecutive) &&& maskBlockAck &&& blockMaskConsecutive &&&
        blockMaskRetransmission = 0) (by decide +kernel) f

theorem validateBlock_setFlags {d : SendData} {f : UInt8} (hlen : headerSize ≤ d.length)
    (hl : d.length = headerSize + (htons (fragmentHeader d.data).length).toNat)
    (hf : f &&& maskBlockAck &&& blockMaskConsecutive &&& blockMaskRetransmission = 0) :
    validateBlock (d.data.set 0 f) (d.data.set 0 f).length = true := by
  have hflags : byteAt (d.data.set 0 f) 0 = f :=
    SendData.setFlags_flags d f (by unfold headerSize at hlen; omega)
  rw [validateBlock_iff, List.length_set, fragmentHeader_set, hflags]
  exact Or.inl ⟨hlen, hl, hf⟩

/-- What the receiver makes of the packets that are sent for an entry again: the resent one is as
long as the original and accepted, and so is a fragment marked as the second of a pair. -/
structure ResentAccepted (d : SendData) : Prop where
  resent : ∃ d', resent d = some d' ∧ d'.length = d.length ∧ d'.flags = resentFlags d.flags ∧
    BlockAccepted d'.data
  consecutive : hasBit d.flags blkBlock = true → BlockAccepted (wireBody d true)

theorem resentAccepted_of_fragment {d : SendData} (hask : hasBit d.flags needAck = true)
    (hlen : headerSize ≤ d.length)
    (hl : d.length = headerSize + (htons (fragmentHeader d.data).length).toNat)
    (hmask : d.flags &&& maskBlockAck &&& blockMaskConsecutive &&& blockMaskRetransmission = 0) :
    ResentAccepted d := by
  obtain ⟨hbit, -, hask', hmask', hcons⟩ := maskedFlags_resent hask hmask
  have hpos : 0 < d.length := hasBit_length hask
  have hflags : (d.setFlags (resentFlags d.flags)).flags = resentFlags d.flags :=
    SendData.setFlags_flags d _ hpos
  refine ⟨⟨d.setFlags (resentFlags d.flags), ?_, SendData.setFlags_length d _, hflags, ?_⟩, ?_⟩
  · simp only [Bora.resent, hbit, if_true]
    rfl
  · exact accepted_of_valid (validateBlock_setFlags hlen hl hmask')
      (by rw [show byteAt (d.setFlags (resentFlags d.flags)).data 0 = _ from hflags]; exact hask')
  · intro _
    have hcf : byteAt (d.data.set 0 (d.flags ||| blockConsecutive)) 0 =
        d.flags ||| blockConsecutive := SendData.setFlags_flags d _ hpos
    refine accepted_of_valid (validateBlock_setFlags hlen hl hcons) ?_
    rw [show byteAt (wireBody d true) 0 = _ from hcf, hasBit_consecutive]
    exact hask

/-- Resent, a cookie is no valid packet any more. -/
theorem cookie_not_resentAccepted {d : SendData} (hf : d.flags = needAck ||| cookieMsg) :
    ¬ ResentAccepted d := by
  rintro ⟨⟨d', -, -, hflags, hacc⟩, -⟩
  have hf' : byteAt d'.data 0 = resentFlags (needAck ||| cookieMsg) := by
    rw [← hf]
    exact hflags
  rcases (validateBlock_iff _ _).mp hacc.valid with ⟨-, -, hmask⟩ | ⟨-, hcookie⟩
  · rw [hf'] at hmask
    exact absurd hmask (by decide)
  · rw [hf'] at hcookie
    exact absurd hcookie (by decide)

theorem Shipping.outstanding_asks {s : Shipping} (h : Reachable shipping s) :
    ∀ addr, ∀ a ∈ s.box.tables.nacks.nacksOf addr, hasBit a.d.flags needAck = true := by
  apply h.invariant
  · rintro s ⟨hbox, -⟩ addr a ha
    rw [hbox] at ha
    simp [Outbox.init, AckState.init, NackTable.nacksOf, NackTable.findByHost,
      NackTable.init] at ha
  · intro s a t hinv _ hs
    rcases Shipping.step_outbox hs with halike | ⟨a', box, hbox, halike, -⟩
    · rw [halike.tables]
      exact hinv
    · rw [halike.tables]
      cases Outbox.step_listMove hbox with
      | append _ hask _ _ hnacks =>
        rw [hnacks]
        exact (Function.forall_update_iff _ (fun _ (l : List Ack) =>
          ∀ a ∈ l, hasBit a.d.flags needAck = true)).mpr
            ⟨List.forall_mem_cons.mpr ⟨hask, hinv _⟩, fun addr _ => hinv addr⟩
      | shrink _ _ hnacks => exact fun addr a ha => hinv addr a ((hnacks addr).subset ha)

/-- In every reachable state, for every entry whose packet the receiver accepts: the receiver
accepts the packet that is resent for it, and the form marked as the second of a pair, exactly if
it is not a cookie. -/
theorem resentAccepted_iff {s : Shipping} (h : Reachable shipping s) {addr : SockAddr} {a : Ack}
    (ha : a ∈ s.box.tables.nacks.nacksOf addr)
    (hacc : validateBlock a.d.data a.d.length = true) :
    ResentAccepted a.d ↔ a.d.flags ≠ needAck ||| cookieMsg := by
  have hask := Shipping.outstanding_asks h addr a ha
  rcases (validateBlock_iff _ _).mp hacc with ⟨hlen, hl, hmask⟩ | ⟨-, hcookie⟩
  · exact ⟨fun _ => (maskedFlags_resent hask hmask).2.1,
      fun _ => resentAccepted_of_fragment hask hlen hl hmask⟩
  · exact ⟨fun h => absurd h (cookie_not_resentAccepted hcookie), fun h => absurd hcookie h⟩

/-- The block's only fragment, recorded and then resent by a timeout and recorded again. -/
def sentTwice : List ShippingAction :=
  [.sendblock ⟨1, 1⟩ ⟨2, 1⟩ 0, .outbox (.fetch .send), .outbox (.transmit ⟨1, 0⟩ 1000000 false 0),
    .outbox (.timeout ⟨2, 0⟩), .outbox (.fetch .retr),
    .outbox (.transmit ⟨3, 0⟩ 1000000 false 0)]

theorem resentAccepted_iff_fragment :
    ∃ s a, shipping.runIf (fun _ _ => True) oneBlock sentTwice = some s ∧
      s.box.tables.nacks.nacksOf ⟨2, 1⟩ = [a] ∧ a.d.flags = 0x91 ∧ ResentAccepted a.d := by
  have hrun : (shipping.runIf (fun _ _ => True) oneBlock sentTwice).map
      (fun s => (s.box.tables.nacks.nacksOf ⟨2, 1⟩).map
        (fun a => (a.d.flags, validateBlock a.d.data a.d.length))) = some [(0x91, true)] := by
    decide +kernel
  obtain ⟨s, hs, hentries⟩ := Option.map_eq_some_iff.mp hrun
  obtain ⟨a, hlist, ha⟩ := List.map_eq_singleton_iff.mp hentries
  obtain ⟨hflags, hacc⟩ := Prod.mk.inj ha
  refine ⟨s, a, hs, hlist, hflags, ?_⟩
  have ha : a ∈ s.box.tables.nacks.nacksOf ⟨2, 1⟩ := by
    rw [hlist]
    exact List.mem_singleton_self a
  refine (resentAccepted_iff (oneBlock_reachable.runIf hs) ha hacc).mpr ?_
  rw [hflags]
  decide

/-- The entry of a cookie: the cookie is accepted, the resent one is not, and what would be resent
for that one is the same packet again. -/
theorem cookie_resent_rejected :
    ∃ s a d', Reachable shipping s ∧ a ∈ s.box.tables.nacks.nacksOf ⟨2, 1⟩ ∧
      validateBlock a.d.data a.d.length = true ∧ ¬ ResentAccepted a.d ∧
      resent a.d = some d' ∧ validateBlock d'.data d'.length = false ∧ resent d' = some d' := by
  have hrun : (shipping.runIf (fun _ _ => True) oneBlock
      [.outbox (.sendData ⟨[0, 1, 2, 3], ⟨2, 1⟩, by decide⟩), .outbox (.cookie ⟨2, 1⟩),
        .outbox (.transmit ⟨1, 0⟩ 1000000 false 0)]).map
      (fun s => (s.box.tables.nacks.nacksOf ⟨2, 1⟩).map
        (fun a => decide (a.d = bogusData ⟨2, 1⟩))) = some [true] := by
    decide +kernel
  obtain ⟨s, hs, hentries⟩ := Option.map_eq_some_iff.mp hrun
  obtain ⟨a, hlist, ha⟩ := List.map_eq_singleton_iff.mp hentries
  have had : a.d = bogusData ⟨2, 1⟩ := of_decide_eq_true ha
  have hvalid : validateBlock (bogusData ⟨2, 1⟩).data (bogusData ⟨2, 1⟩).length = true := by
    decide +kernel
  have hresent : resent (bogusData ⟨2, 1⟩) = some ((bogusData ⟨2, 1⟩).setFlags 0x98) := by
    decide +kernel
  have hrejected : validateBlock ((bogusData ⟨2, 1⟩).setFlags 0x98).data
      ((bogusData ⟨2, 1⟩).setFlags 0x98).length = false := by
    decide +kernel
  have hagain : resent ((bogusData ⟨2, 1⟩).setFlags 0x98) =
      some ((bogusData ⟨2, 1⟩).setFlags 0x98) := by
    decide +kernel
  refine ⟨s, a, (bogusData ⟨2, 1⟩).setFlags 0x98, oneBlock_reachable.runIf hs, ?_, ?_, ?_, ?_,
    hrejected, hagain⟩
  · rw [hlist]
    exact List.mem_singleton_self a
  · rw [had]
    exact hvalid
  · rw [had]
    exact cookie_not_resentAccepted rfl
  · rw [had]
    exact hresent

/-- A `sendto`: the packet that `packet_send` took, the datagram, and the number and the port that
were in force. -/
structure Transmission where
  packet : SendData
  datagram : SendData
  seq : UInt16
  natPort : UInt16

def Shipping.sendto (s : Shipping) : ShippingAction → Option Transmission
  | .outbox (.transmit tEnd bandwidth z natPort) =>
    match s.box.hand with
    | none => none
    | some d =>
      match sendD s.box.tables.nacks d tEnd bandwidth z natPort with
      | .error _ => none
      | .ok (nacks, w) => some ⟨d, w, nacks.seqNum, natPort⟩
  | _ => none

structure Wired where
  ship : Shipping
  wire : List Transmission

def wired : System Wired ShippingAction where
  init s := shipping.init s.ship ∧ s.wire = []
  step s a := (s.ship.step a).map (fun ship => ⟨ship, (s.ship.sendto a).toList ++ s.wire⟩)

/-- The packet that `d₀` has become after being resent `n` times. -/
inductive ResentFrom (d₀ : SendData) : ℕ → SendData → Prop
  | queued : ResentFrom d₀ 0 d₀
  | round {n : ℕ} {d d' : SendData} (h : ResentFrom d₀ n d) (hr : resent d = some d') :
      ResentFrom d₀ (n + 1) d'

/-- The datagram is the packet `d₀` with the number and the port behind it and, but for the marks
of the sender, the same first byte. -/
structure OnWire (d₀ : SendData) (x : Transmission) : Prop where
  dest : x.datagram.dest = d₀.dest
  bytes : ∃ f, x.datagram.data = d₀.data.set 0 f ++ (store16 x.seq ++ store16 x.natPort) ∧
    f &&& blockMaskConsecutive &&& blockMaskRetransmission =
      d₀.flags &&& blockMaskConsecutive &&& blockMaskRetransmission
  length : x.datagram.length = d₀.length + 4

theorem resent_eq {d d' : SendData} (h : resent d = some d') :
    d' = d.setFlags (resentFlags d.flags) ∧ hasBit (d.flags &&& blockMaskConsecutive) blkBlockAck =
      true := by
  unfold resent at h
  simp only at h
  split at h
  · rename_i hbit
    exact ⟨(Option.some.inj h).symm, hbit⟩
  · cases h

/-- Through all rounds only the flags change, and those only by the marks. -/
theorem ResentFrom.body {d₀ d : SendData} {n : ℕ} (h : ResentFrom d₀ n d)
    (hf : AckFlags d₀.flags) :
    d.dest = d₀.dest ∧ AckFlags d.flags ∧ d.data = d₀.data.set 0 d.flags := by
  induction h with
  | queued =>
    refine ⟨rfl, hf, ?_⟩
    have hpos := hasBit_length (ackFlags_bits hf).2.1
    rw [SendData.length] at hpos
    have hfirst : d₀.flags = d₀.data[0] := by
      simp [SendData.flags, byteAt, List.getD_eq_getElem?_getD, hpos]
    rw [hfirst, List.set_getElem_self]
  | @round n d d' _ hr ih =>
    obtain ⟨hdest, hflags, hdata⟩ := ih
    obtain ⟨rfl, -⟩ := resent_eq hr
    obtain ⟨-, hask, -, -, hresent⟩ := ackFlags_bits hflags
    have hnew : (d.setFlags (resentFlags d.flags)).flags = resentFlags d.flags :=
      SendData.setFlags_flags d _ (hasBit_length hask)
    refine ⟨hdest, by rw [hnew]; exact hresent, ?_⟩
    rw [hnew, SendData.setFlags_data, hdata, List.set_set]

theorem append_of_le {d : SendData} {b : Bytes} (h : d.length + b.length ≤ packetSize) :
    ∃ d', d.append b = .ok d' ∧ d'.length = d.length + b.length :=
  ⟨_, dif_pos h, List.length_append⟩

theorem numbered_of_le (n : NackTable) {d : SendData} (hd : d.length + 2 ≤ packetSize)
    (tEnd : Timeval) (sleeptime : UInt64) :
    ∃ n' d', numbered n d tEnd sleeptime = .ok (n', d') ∧ d'.length ≤ d.length + 2 := by
  unfold numbered
  split
  · obtain ⟨d', hd', hlen⟩ := append_of_le (d := d) (b := store16 (n.seqNum + 1))
      (by rw [store16_length]; exact hd)
    refine ⟨_, d', by simp only [appendAck, hd', ok_bind]; rfl, ?_⟩
    rw [hlen, store16_length]
  · exact ⟨n, d, rfl, Nat.le_add_right _ _⟩

theorem sendD_of_le (n : NackTable) {d : SendData} (hd : d.length + 4 ≤ packetSize)
    (tEnd : Timeval) {bandwidth : UInt64} (hb : bandwidth ≠ 0) (z : Bool) (natPort : UInt16) :
    ∃ n' w, sendD n d tEnd bandwidth z natPort = .ok (n', w) := by
  have hsleep : packetSleeptime bandwidth d =
      .ok (UInt64.ofNat (1000000 * d.length) / bandwidth) := if_neg hb
  obtain ⟨n', d', hnum, hlen⟩ := numbered_of_le n (d := d) (by omega) tEnd
    (UInt64.ofNat (1000000 * d.length) / bandwidth)
  simp only [sendD, hsleep, ok_bind, hnum]
  generalize hz : (if z then d'.setFlags (d'.flags ||| blockConsecutive) else d') = d₁
  have hlen₁ : d₁.length = d'.length := by
    rw [← hz]
    split
    · exact SendData.setFlags_length _ _
    · rfl
  split
  · exact ⟨n', d₁, rfl⟩
  · obtain ⟨d₂, hd₂, -⟩ := append_of_le (d := d₁) (b := store16 natPort)
      (by rw [hlen₁, store16_length]; omega)
    exact ⟨n', d₂, by rw [hd₂]; rfl⟩

theorem ResentFrom.onWire {d₀ d : SendData} {k : ℕ} (h : ResentFrom d₀ k d)
    (hf : AckFlags d₀.flags) {n n' : NackTable} {w : SendData} {tEnd : Timeval}
    {bandwidth : UInt64} {z : Bool} {natPort : UInt16}
    (hs : sendD n d tEnd bandwidth z natPort = .ok (n', w)) :
    OnWire d₀ ⟨d, w, n'.seqNum, natPort⟩ := by
  obtain ⟨hdest, hflags, hdata⟩ := h.body hf
  obtain ⟨hfrag, hask, -, hcons, -⟩ := ackFlags_bits hflags
  obtain ⟨hw, hwdest⟩ := sendD_wire (fragmentFlags_bits hfrag).2.2.2 hs
  rw [if_pos hask, List.append_assoc] at hw
  have hbody : wireBody d z =
      d₀.data.set 0 (if z then d.flags ||| blockConsecutive else d.flags) := by
    cases z
    · exact hdata
    · show d.data.set 0 (d.flags ||| blockConsecutive) = _
      rw [hdata, List.set_set]
      rfl
  refine ⟨hwdest.trans hdest, ⟨_, by rw [hw, hbody], ?_⟩, ?_⟩
  · cases z
    · exact hflags.trans hf.symm
    · exact hcons.trans hf.symm
  · show w.data.length = _
    rw [hw, hbody, List.length_append, List.length_set, List.length_append, store16_length,
      store16_length]
    rfl

/-- `d` is what has become of the packet `d₀` that `sendblock` queued for fragment `i` of a
block. -/
structure Origin (s : Shipping) (d d₀ : SendData) (block : Block) (i : ℕ) : Prop where
  queued : d₀ ∈ s.enqueued
  cut : sendPacket block d₀.dest i = .ok d₀
  rounds : ∃ n, ResentFrom d₀ n d

def Originated (s : Shipping) (d : SendData) : Prop :=
  blockFragment d = true → ∃ d₀ block i, Origin s d d₀ block i

theorem Originated.resent {s : Shipping} {d d' : SendData} (hr : Bora.resent d = some d')
    (h : Originated s d) : Originated s d' := by
  intro hfrag
  obtain ⟨hd', hbit⟩ := resent_eq hr
  obtain ⟨hback, -, hsame⟩ := resentFlags_alike hbit
  have hflags : d'.flags = resentFlags d.flags := by
    rw [hd']
    exact SendData.setFlags_flags d _ (hasBit_length hback)
  obtain ⟨d₀, block, i, ho⟩ := h (by rw [blockFragment, ← hsame, ← hflags]; exact hfrag)
  obtain ⟨n, hn⟩ := ho.rounds
  exact ⟨d₀, block, i, ho.queued, ho.cut, n + 1, .round hn hr⟩

theorem Originated.mono {s t : Shipping} {d : SendData} (h : Originated s d)
    (hst : ∀ x ∈ s.enqueued, x ∈ t.enqueued) : Originated t d := by
  intro hfrag
  obtain ⟨d₀, block, i, ho⟩ := h hfrag
  exact ⟨d₀, block, i, hst d₀ ho.queued, ho.cut, ho.rounds⟩

theorem Originated.flags {s : Shipping} {d d₀ : SendData} {block : Block} {i : ℕ}
    (h : Origin s d d₀ block i) : AckFlags d₀.flags := by
  rw [sendPacket_flags h.cut]
  decide

namespace Shipping

variable {s t : Shipping}

theorem enqueued_sendblock {id : BlockID} {dest : SockAddr} {i : ℕ}
    (hs : s.step (.sendblock id dest i) = some t) {d : SendData}
    (hd : s.Hands (.sendblock id dest i) d) :
    t.enqueued = if (s.box.tables.queues.sendData d).2 then d :: s.enqueued else s.enqueued := by
  obtain ⟨block, hfind, hi, hpacket⟩ := hd
  simp only [step, hfind, hi, if_true, hpacket] at hs
  cases hs
  rfl

theorem enqueued_mono {a : ShippingAction} (hs : s.step a = some t) :
    ∀ x ∈ s.enqueued, x ∈ t.enqueued := by
  intro x hx
  by_cases ha : ∃ id dest i, a = .sendblock id dest i
  · obtain ⟨id, dest, i, rfl⟩ := ha
    obtain ⟨block, d, -, -, -, rfl⟩ := sendblock_some hs
    simp only
    split
    · exact List.mem_cons_of_mem _ hx
    · exact hx
  · rw [step_enqueued (fun id dest i he => ha ⟨id, dest, i, he⟩) hs]
    exact hx

theorem originated_step (h : s.box.Every (Originated s)) {a : ShippingAction}
    (hs : s.step a = some t) : t.box.Every (Originated t) := by
  have hmono : ∀ d, Originated s d → Originated t d := fun d hd => hd.mono (enqueued_mono hs)
  rcases step_outbox hs with halike | ⟨a', box, hbox, halike, hands⟩
  · exact (h.mono hmono).congr halike
  · refine Outbox.Every.congr ?_ halike
    refine (h.mono hmono).step (fun d d' hr hd => hd.resent hr) ?_ ?_ hbox
    · intro addr hfrag
      exact absurd hfrag (by rw [show blockFragment (bogusData addr) = false from
        show fragmentFlags (needAck ||| cookieMsg) = false by decide]; decide)
    · intro d hd hacc hfrag
      have hh := hands d hd
      cases a with
      | sendblock id dest i =>
        have henq := enqueued_sendblock hs hh
        rw [if_pos hacc] at henq
        obtain ⟨block, -, -, hpacket⟩ := hh
        obtain ⟨f, -, -, hdest⟩ := sendPacket_ok hpacket
        exact ⟨d, block, i, by rw [henq]; exact List.mem_cons_self,
          by rw [hdest]; exact hpacket, 0, .queued⟩
      | outbox a => exact absurd hfrag (by rw [hh.2]; decide)
      | datagram data junk =>
        obtain ⟨seq, cons, tv, addr, rfl⟩ := hh
        exact absurd hfrag (by rw [blockFragment_ackFor]; decide)
      | elsewhere rest => exact hh.elim

theorem sendto_some {a : ShippingAction} {x : Transmission} (h : s.sendto a = some x) :
    s.box.hand = some x.packet ∧ ∃ tEnd bandwidth z n', n'.seqNum = x.seq ∧
      sendD s.box.tables.nacks x.packet tEnd bandwidth z x.natPort = .ok (n', x.datagram) := by
  unfold sendto at h
  split at h
  · rename_i tEnd bandwidth z natPort
    split at h
    · cases h
    rename_i d hd
    split at h
    · cases h
    rename_i n' w hsend
    cases h
    exact ⟨hd, tEnd, bandwidth, z, n', rfl, hsend⟩
  · cases h

end Shipping

/-- The run so far: every packet has its origin, and every datagram is that of the origin. -/
structure Wired.Faithful (s : Wired) : Prop where
  packets : s.ship.box.Every (Originated s.ship)
  wire : ∀ x ∈ s.wire, blockFragment x.packet = true →
    ∃ d₀ block i, Origin s.ship x.packet d₀ block i ∧ OnWire d₀ x

theorem Wired.faithful {s : Wired} (h : Reachable wired s) : s.Faithful := by
  apply h.invariant
  · rintro s ⟨⟨hbox, -⟩, hwire⟩
    refine ⟨by rw [hbox]; exact Outbox.every_init, ?_⟩
    rw [hwire]
    simp
  · intro s a t hinv _ hs
    obtain ⟨ship, hship, rfl⟩ := Option.map_eq_some_iff.mp hs
    refine ⟨Shipping.originated_step hinv.packets hship, ?_⟩
    intro x hx hfrag
    have hmono := Shipping.enqueued_mono hship
    rcases List.mem_append.mp hx with hx | hx
    · obtain ⟨hhand, tEnd, bandwidth, z, n', hseq, hsend⟩ :=
        Shipping.sendto_some (Option.mem_toList.mp hx)
      obtain ⟨d₀, block, i, ho⟩ := hinv.packets.hand x.packet hhand hfrag
      obtain ⟨n, hn⟩ := ho.rounds
      have hw := hn.onWire (Originated.flags ho) hsend
      rw [hseq] at hw
      exact ⟨d₀, block, i, ⟨hmono d₀ ho.queued, ho.cut, ho.rounds⟩, hw⟩
    · obtain ⟨d₀, block, i, ho, hw⟩ := hinv.wire x hx hfrag
      exact ⟨d₀, block, i, ⟨hmono d₀ ho.queued, ho.cut, ho.rounds⟩, hw⟩

theorem sendPacket_length_le {block : Block} {dest : SockAddr} {i : ℕ} {d : SendData}
    (h : sendPacket block dest i = .ok d) (hlast : block.fs.lastlen.toNat ≤ mtu) :
    d.length ≤ headerSize + mtu := by
  obtain ⟨f, hf, hdata, -⟩ := sendPacket_ok h
  have hlen : f.length = block.fragmentLength i := (sendFragment_ok hf).2.2.2.1
  rw [SendData.length, hdata, fragmentPacket_length, hlen]
  unfold Block.fragmentLength
  split
  · omega
  · exact le_rfl

/-- In every run, each datagram of a fragment is the packet that `sendblock` queued, under the
marks of the sender and with a number and a port behind it, however often it was resent; and if
the last fragment of the block has at most MTU bytes, there is room for both in every round. -/
theorem retransmission_preserves {s : Wired} (h : Reachable wired s) :
    (∀ x ∈ s.wire, blockFragment x.packet = true →
      ∃ d₀ block i, Origin s.ship x.packet d₀ block i ∧ OnWire d₀ x) ∧
    ∀ d, s.ship.box.hand = some d → blockFragment d = true →
      ∃ d₀ block i, Origin s.ship d d₀ block i ∧
        (block.fs.lastlen.toNat ≤ mtu → ∀ tEnd bandwidth z natPort, bandwidth ≠ 0 →
          ∃ n w, sendD s.ship.box.tables.nacks d tEnd bandwidth z natPort = .ok (n, w) ∧
            OnWire d₀ ⟨d, w, n.seqNum, natPort⟩ ∧ w.length ≤ packetSize) := by
  have hinv := Wired.faithful h
  refine ⟨hinv.wire, ?_⟩
  intro d hd hfrag
  obtain ⟨d₀, block, i, ho⟩ := hinv.packets.hand d hd hfrag
  refine ⟨d₀, block, i, ho, ?_⟩
  intro hlast tEnd bandwidth z natPort hb
  obtain ⟨n, hn⟩ := ho.rounds
  have hle := sendPacket_length_le ho.cut hlast
  have hlen : d.length = d₀.length := by
    rw [SendData.length, (hn.body (Originated.flags ho)).2.2, List.length_set]
    rfl
  obtain ⟨n', w, hsend⟩ := sendD_of_le s.ship.box.tables.nacks (d := d)
    (by rw [hlen]; unfold headerSize mtu packetSize at *; omega) tEnd hb z natPort
  exact ⟨n', w, hsend, hn.onWire (Originated.flags ho) hsend, w.fits⟩

theorem retransmission_preserves_twice :
    ∃ s, wired.runIf (fun _ _ => True) ⟨oneBlock, []⟩
        [.sendblock ⟨1, 1⟩ ⟨2, 1⟩ 0, .outbox (.fetch .send),
          .outbox (.transmit ⟨1, 0⟩ 1000000 false 0), .outbox (.timeout ⟨2, 0⟩),
          .outbox (.fetch .retr), .outbox (.transmit ⟨3, 0⟩ 1000000 false (setNatPort 4660))] =
        some s ∧
      s.wire.map (fun x => (x.packet.flags, x.datagram.length)) = [(0x91, 18), (0x81, 18)] ∧
      ∀ x ∈ s.wire, blockFragment x.packet = true →
        ∃ d₀ block i, Origin s.ship x.packet d₀ block i ∧ OnWire d₀ x := by
  have hrun : (wired.runIf (fun _ _ => True) ⟨oneBlock, []⟩
      [.sendblock ⟨1, 1⟩ ⟨2, 1⟩ 0, .outbox (.fetch .send),
        .outbox (.transmit ⟨1, 0⟩ 1000000 false 0), .outbox (.timeout ⟨2, 0⟩),
        .outbox (.fetch .retr), .outbox (.transmit ⟨3, 0⟩ 1000000 false (setNatPort 4660))]).map
      (fun s => s.wire.map (fun x => (x.packet.flags, x.datagram.length))) =
        some [(0x91, 18), (0x81, 18)] := by
    decide +kernel
  obtain ⟨s, hs, hwire⟩ := Option.map_eq_some_iff.mp hrun
  have hinit : Reachable wired ⟨oneBlock, []⟩ := .init ⟨⟨rfl, rfl⟩, rfl⟩
  exact ⟨s, hs, hwire, (retransmission_preserves (hinit.runIf hs)).1⟩

end Bora
