import Bora.AckReceived
import Bora.PacketSend
import Bora.Library.Transition

/-! What becomes of a packet that wants an acknowledgement: the sender thread takes it from a
queue and records it, and acks and timeouts remove it or queue it again. -/
namespace Bora

open ByteMemory Checked Transition

def fragmentFlags (f : UInt8) : Bool := hasBit f blkBlock && !hasBit f blkAck && !hasBit f bwMsg

/-- A packet that carries a fragment and is neither an ack nor a bandwidth message. -/
def blockFragment (d : SendData) : Bool := fragmentFlags d.flags

def sameFragment (x d : SendData) : Bool :=
  x.dest == d.dest && (getFragmentId x.data x.length).id == (getFragmentId d.data d.length).id &&
    (getFragmentId x.data x.length).fragmentid == (getFragmentId d.data d.length).fragmentid

theorem sameFragment_dest {x d : SendData} (h : sameFragment x d = true) : x.dest = d.dest := by
  simp only [sameFragment, Bool.and_eq_true, beq_iff_eq] at h
  exact h.1.1

theorem slice_set_zero (m : Bytes) (b : UInt8) {off : ℕ} (h : 0 < off) (len : ℕ) :
    slice (m.set 0 b) off len = slice m off len := by
  apply List.ext_getElem?
  intro i
  rw [slice_getElem?, slice_getElem?, List.getElem?_set_ne (by omega)]

theorem fragmentHeader_set (m : Bytes) (b : UInt8) :
    fragmentHeader (m.set 0 b) =
      { fragmentHeader m with flags := (fragmentHeader (m.set 0 b)).flags } := by
  simp [fragmentHeader, load16, load32, slice_set_zero]

theorem getFragmentId_setFlags {d : SendData} {f : UInt8}
    (h : hasBit f blkBlock = hasBit d.flags blkBlock) :
    getFragmentId (d.setFlags f).data (d.setFlags f).length = getFragmentId d.data d.length := by
  rw [SendData.setFlags_length, SendData.setFlags_data]
  by_cases hlen : d.length < headerSize
  · simp only [getFragmentId, hlen, if_true]
  · have hpos : 0 < d.length := by unfold headerSize at hlen; omega
    have hflags : (fragmentHeader (d.data.set 0 f)).flags = f := SendData.setFlags_flags d f hpos
    have hold : (fragmentHeader d.data).flags = d.flags := rfl
    simp only [getFragmentId, hlen, if_false, hflags, hold, h]
    rw [fragmentHeader_set]

/-- `x` is a packet of the fragment that `d` carries, and wants an acknowledgement. -/
structure StandsFor (x d : SendData) : Prop where
  fragment : blockFragment x = true
  asks : hasBit x.flags needAck = true
  same : sameFragment x d = true

def resentFlags (f : UInt8) : UInt8 := (f &&& blockMaskConsecutive) ||| blockRetransmission

theorem resentFlags_spec {f : UInt8} (hf : fragmentFlags f = true) (ha : hasBit f needAck = true) :
    hasBit (f &&& blockMaskConsecutive) blkBlockAck = true ∧ fragmentFlags (resentFlags f) = true ∧
      hasBit (resentFlags f) needAck = true ∧
      hasBit (resentFlags f) blockRetransmission = true := by
  revert hf ha
  exact flags_forall (P := fun f => fragmentFlags f = true → hasBit f needAck = true →
    hasBit (f &&& blockMaskConsecutive) blkBlockAck = true ∧ fragmentFlags (resentFlags f) = true ∧
      hasBit (resentFlags f) needAck = true ∧
      hasBit (resentFlags f) blockRetransmission = true) (by decide +kernel) f

theorem queueOf_retr {d : SendData} (hf : fragmentFlags d.flags = true)
    (hr : hasBit d.flags blockRetransmission = true) : queueOf d = .retr := by
  simp only [fragmentFlags, Bool.and_eq_true, Bool.not_eq_true'] at hf
  simp [queueOf, hf, hr]

theorem hasBit_length {d : SendData} {bit : UInt8} (h : hasBit d.flags bit = true) :
    0 < d.length := by
  by_contra hlen
  have hnil : d.data = [] := List.eq_nil_of_length_eq_zero (by rw [SendData.length] at hlen; omega)
  simp [SendData.flags, hnil, byteAt, hasBit] at h

theorem StandsFor.resent {x d : SendData} (h : StandsFor x d) :
    ∃ y, resent x = some y ∧ queueOf y = .retr ∧ StandsFor y d := by
  obtain ⟨hbit, hfrag, hasks, hretr⟩ := resentFlags_spec h.fragment h.asks
  have hflags : (x.setFlags (resentFlags x.flags)).flags = resentFlags x.flags :=
    SendData.setFlags_flags x _ (hasBit_length h.asks)
  have hblk : hasBit (resentFlags x.flags) blkBlock = hasBit x.flags blkBlock := by
    have h₁ := h.fragment
    simp only [blockFragment, fragmentFlags, Bool.and_eq_true] at h₁ hfrag
    rw [hfrag.1.1, h₁.1.1]
  refine ⟨x.setFlags (resentFlags x.flags), ?_, queueOf_retr (by rw [hflags]; exact hfrag)
    (by rw [hflags]; exact hretr), ?_, ?_, ?_⟩
  · simp only [Bora.resent, hbit, if_true]
    rfl
  · rw [blockFragment, hflags]
    exact hfrag
  · rw [hflags]
    exact hasks
  · have hsame := h.same
    simp only [sameFragment, getFragmentId_setFlags hblk, SendData.setFlags_dest] at hsame ⊢
    exact hsame

/-- A resent fragment that finds a slot is in the retransmission queue. -/
theorem StandsFor.resent_queued {a : Ack} {d : SendData} (h : StandsFor a.d d)
    {q : SendQueues} (hq : q.Valid)
    {nacks : List Ack} (hacc : resendsAccepted q nacks = true) (ha : a ∈ nacks) :
    ∃ x ∈ (nacks.foldl resendNack q).queued .retr, StandsFor x d := by
  obtain ⟨x, hx, hretr, hstands⟩ := h.resent
  have hmem := resends_accepted hq hacc ha hx
  rw [hretr] at hmem
  exact ⟨x, hmem, hstands⟩

/-- `sem_wait(&sFull)`, then a take from a queue that is not empty. -/
def SendQueues.fetch (s : SendQueues) (q : QueueName) : Option (SendQueues × SendData) :=
  if s.sFull = 0 ∨ s.f q = 0 then none
  else some ({ s.dequeue q with sFull := s.sFull - 1 }, s.front q)

theorem SendQueues.fetch_some {s t : SendQueues} {q : QueueName} {d : SendData} (hs : s.Valid)
    (h : s.fetch q = some (t, d)) :
    t.Valid ∧ s.queued q = d :: t.queued q ∧ ∀ q', q' ≠ q → t.queued q' = s.queued q' := by
  unfold fetch at h
  split at h
  · cases h
  · rename_i hne
    obtain ⟨-, hf⟩ := not_or.mp hne
    cases h
    obtain ⟨hvalid, -, -, -, hq, hother⟩ := dequeue_spec hs (q := q) (Nat.pos_of_ne_zero hf)
    exact ⟨hvalid, hq, hother⟩

/-- The last three fields record the run: what `append_ack` recorded, and what acks of which
peer popped or covered. -/
structure Outbox where
  tables : AckState
  hand : Option SendData
  recorded : List SendData
  popped : List (SockAddr × Ack)
  lost : List (SockAddr × Ack)

inductive OutboxAction
  | sendData (d : SendData)
  | fetch (q : QueueName)
  | cookie (addr : SockAddr)
  | transmit (tEnd : Timeval) (bandwidth : UInt64) (z : Bool) (natPort : UInt16)
  | ack (ackR : AckReceived) (received : Timeval) (source : SockAddr)
  | timeout (now : Timeval)

def AckState.init : AckState := ⟨AckTable.init, NackTable.init, SendQueues.init, Cookies.init⟩

def AckState.setQueues (s : AckState) (queues : SendQueues) : AckState := { s with queues := queues }

namespace Outbox

def init : Outbox := ⟨AckState.init, none, [], [], []⟩

def setQueues (s : Outbox) (queues : SendQueues) : Outbox :=
  { s with tables := s.tables.setQueues queues }

/-- A packet that overflows its buffer, or a bandwidth of 0, ends the run. -/
def step (s : Outbox) : OutboxAction → Option Outbox
  | .sendData d => some (s.setQueues (s.tables.queues.sendData d).1)
  | .fetch q =>
    match s.hand with
    | some _ => none
    | none =>
      (s.tables.queues.fetch q).map (fun r => { s.setQueues r.1 with hand := some r.2 })
  | .cookie addr =>
    if s.hand.isSome || s.tables.queues.sFull == 0 then none
    else
      some { s.setQueues { s.tables.queues with sFull := s.tables.queues.sFull - 1 } with
        hand := some (bogusData addr) }
  | .transmit tEnd bandwidth z natPort =>
    match s.hand with
    | none => none
    | some d =>
      match sendD s.tables.nacks d tEnd bandwidth z natPort with
      | .error _ => none
      | .ok (nacks, _) =>
        some { s with
          tables := { s.tables with nacks := nacks, queues := s.tables.queues.postEmpty }
          hand := none
          recorded := if hasBit d.flags needAck then d :: s.recorded else s.recorded }
  | .ack ackR received source =>
    some { s with
      tables := s.tables.acknowledged ackR received source
      popped := (s.tables.popped ackR source).toList.map (source, ·) ++ s.popped
      lost := (s.tables.lost ackR source).map (source, ·) ++ s.lost }
  | .timeout now => some { s with tables := s.tables.sweepTimeouts now }

end Outbox

def outbox : System Outbox OutboxAction where
  init s := s = Outbox.init
  step := Outbox.step

/-- Every packet that an ack or a timeout resends finds a free slot. -/
def NeverExhausted (s : Outbox) : OutboxAction → Bool
  | .ack ackR _ source => resendsAccepted s.tables.queues (s.tables.overtaken ackR source)
  | .timeout now => resendsAccepted s.tables.queues (s.tables.timedOut now)
  | _ => true

/-- The first ack of a peer finds no fragment outstanding that was sent to the peer before
the acknowledged packet. -/
def FirstAckInOrder (s : Outbox) : OutboxAction → Bool
  | .ack ackR _ source =>
    match s.tables.acks.findPeerByHost source,
      (s.tables.nacks.nacksOf source).find? (fun a => a.seq = ackR.seq) with
    | none, some ack =>
      (s.tables.nacks.nacksOf source).all (fun cur => !(blockFragment cur.d && sentBefore ack cur))
    | _, _ => true
  | _ => true

namespace Outbox

/-- The fragment is outstanding, queued for retransmission or in the sender thread's hand. -/
def holds (s : Outbox) (d : SendData) : Bool :=
  (s.tables.nacks.nacksOf d.dest).any (fun a => sameFragment a.d d) ||
    (s.tables.queues.queued .retr).any (fun x => sameFragment x d) ||
    s.hand.any (fun x => sameFragment x d)

def acked (s : Outbox) (d : SendData) : Bool :=
  s.popped.any (fun (source, a) => source == d.dest && sameFragment a.d d) ||
    s.lost.any (fun (source, a) => source == d.dest && sameFragment a.d d)

/-- Where a recorded fragment is: still with the sender, or acknowledged. -/
inductive Standing (s : Outbox) (d : SendData) : Prop
  | outstanding {a : Ack} (ha : a ∈ s.tables.nacks.nacksOf d.dest) (h : StandsFor a.d d)
  | queued {x : SendData} (hx : x ∈ s.tables.queues.queued .retr) (h : StandsFor x d)
  | inHand {x : SendData} (hx : s.hand = some x) (h : StandsFor x d)
  | popped {a : Ack} (ha : (d.dest, a) ∈ s.popped) (h : StandsFor a.d d)
  | lost {a : Ack} (ha : (d.dest, a) ∈ s.lost) (h : StandsFor a.d d)

structure Inv (s : Outbox) : Prop where
  valid : s.tables.queues.Valid
  addressed : ∀ addr, ∀ a ∈ s.tables.nacks.nacksOf addr, a.d.dest = addr
  standing : ∀ d ∈ s.recorded, blockFragment d = true → s.Standing d

variable {s t : Outbox} {d : SendData}

theorem step_fetch {q : QueueName} (hs : s.step (.fetch q) = some t) :
    s.hand = none ∧ ∃ queues d, s.tables.queues.fetch q = some (queues, d) ∧
      t = { s.setQueues queues with hand := some d } := by
  simp only [step] at hs
  split at hs
  · cases hs
  · rename_i hhand
    obtain ⟨⟨queues, d⟩, hfetch, rfl⟩ := Option.map_eq_some_iff.mp hs
    exact ⟨hhand, queues, d, hfetch, rfl⟩

theorem step_cookie {addr : SockAddr} (hs : s.step (.cookie addr) = some t) :
    s.hand = none ∧ t = { s.setQueues
      { s.tables.queues with sFull := s.tables.queues.sFull - 1 } with
        hand := some (bogusData addr) } := by
  simp only [step] at hs
  split at hs
  · cases hs
  · rename_i hfree
    cases hs
    rw [Bool.or_eq_true, not_or, Bool.not_eq_true, Option.isSome_eq_false_iff,
      Option.isNone_iff_eq_none] at hfree
    exact ⟨hfree.1, rfl⟩

theorem step_transmit {tEnd : Timeval} {bandwidth : UInt64} {z : Bool} {natPort : UInt16}
    (hs : s.step (.transmit tEnd bandwidth z natPort) = some t) :
    ∃ d nacks w, s.hand = some d ∧
      sendD s.tables.nacks d tEnd bandwidth z natPort = .ok (nacks, w) ∧
      t = { s with
        tables := { s.tables with nacks := nacks, queues := s.tables.queues.postEmpty }
        hand := none
        recorded := if hasBit d.flags needAck then d :: s.recorded else s.recorded } := by
  simp only [step] at hs
  split at hs
  · cases hs
  rename_i d hhand
  split at hs
  · cases hs
  rename_i nacks w hsend
  cases hs
  exact ⟨d, nacks, w, hhand, hsend, rfl⟩

theorem inv_init : init.Inv where
  valid := SendQueues.valid_init
  addressed := by
    intro addr a ha
    simp [init, AckState.init, NackTable.nacksOf, NackTable.findByHost, NackTable.init] at ha
  standing := by simp [init]

theorem Standing.holds_or_acked (h : s.Standing d) : s.holds d = true ∨ s.acked d = true := by
  cases h with
  | outstanding ha h =>
    have hany : (s.tables.nacks.nacksOf d.dest).any (fun a => sameFragment a.d d) = true :=
      List.any_eq_true.mpr ⟨_, ha, h.same⟩
    simp [holds, hany]
  | queued hx h =>
    have hany : (s.tables.queues.queued .retr).any (fun x => sameFragment x d) = true :=
      List.any_eq_true.mpr ⟨_, hx, h.same⟩
    simp [holds, hany]
  | inHand hx h => simp [holds, hx, h.same]
  | popped ha h =>
    have hany : s.popped.any (fun (source, a) => source == d.dest && sameFragment a.d d) = true :=
      List.any_eq_true.mpr ⟨_, ha, by simp [h.same]⟩
    simp [acked, hany]
  | lost ha h =>
    have hany : s.lost.any (fun (source, a) => source == d.dest && sameFragment a.d d) = true :=
      List.any_eq_true.mpr ⟨_, ha, by simp [h.same]⟩
    simp [acked, hany]

theorem Standing.mono (h : s.Standing d)
    (hn : ∀ a ∈ s.tables.nacks.nacksOf d.dest, a ∈ t.tables.nacks.nacksOf d.dest)
    (hq : ∀ x ∈ s.tables.queues.queued .retr, x ∈ t.tables.queues.queued .retr)
    (hh : ∀ x, s.hand = some x → t.hand = some x) (hp : t.popped = s.popped)
    (hl : t.lost = s.lost) : t.Standing d := by
  cases h with
  | outstanding ha h => exact .outstanding (hn _ ha) h
  | queued hx h => exact .queued (hq _ hx) h
  | inHand hx h => exact .inHand (hh _ hx) h
  | popped ha h => exact .popped (by rw [hp]; exact ha) h
  | lost ha h => exact .lost (by rw [hl]; exact ha) h

theorem inv_sendData (h : s.Inv) (hs : s.step (.sendData d) = some t) : t.Inv := by
  cases hs
  obtain ⟨hvalid, hqueued⟩ := SendQueues.sendData_spec h.valid d
  refine ⟨hvalid, h.addressed, fun x hx hfrag => (h.standing x hx hfrag).mono ?_ ?_ ?_ rfl rfl⟩
  · exact fun _ ha => ha
  · intro y hy
    have hnew := hqueued .retr
    rw [show (s.setQueues _).tables.queues = (s.tables.queues.sendData d).1 from rfl, hnew]
    exact List.mem_append_left _ hy
  · exact fun _ hx => hx

theorem inv_fetch (h : s.Inv) {q : QueueName} (hs : s.step (.fetch q) = some t) : t.Inv := by
  obtain ⟨hhand, queues, x, hfetch, rfl⟩ := step_fetch hs
  obtain ⟨hvalid, hq, hother⟩ := SendQueues.fetch_some h.valid hfetch
  refine ⟨hvalid, h.addressed, fun d hd hfrag => ?_⟩
  cases h.standing d hd hfrag with
  | outstanding ha h => exact .outstanding ha h
  | @queued y hy h =>
    by_cases hretr : q = .retr
    · subst q
      rw [hq] at hy
      rcases List.mem_cons.mp hy with rfl | hy
      · exact .inHand rfl h
      · exact .queued hy h
    · exact .queued (by rw [← hother .retr (Ne.symm hretr)] at hy; exact hy) h
  | inHand hx h => rw [hhand] at hx; cases hx
  | popped ha h => exact .popped ha h
  | lost ha h => exact .lost ha h

theorem inv_cookie (h : s.Inv) {addr : SockAddr} (hs : s.step (.cookie addr) = some t) : t.Inv := by
  obtain ⟨hhand, rfl⟩ := step_cookie hs
  refine ⟨h.valid, h.addressed, fun d hd hfrag => (h.standing d hd hfrag).mono ?_ ?_ ?_ rfl rfl⟩
  · exact fun _ ha => ha
  · exact fun _ hx => hx
  · intro x hx
    rw [hhand] at hx
    cases hx

theorem inv_transmit (h : s.Inv) {tEnd : Timeval} {bandwidth : UInt64} {z : Bool}
    {natPort : UInt16} (hs : s.step (.transmit tEnd bandwidth z natPort) = some t) : t.Inv := by
  obtain ⟨x, nacks, w, hx, hsend, rfl⟩ := step_transmit hs
  have hqueued : s.tables.queues.postEmpty.queued = s.tables.queues.queued :=
    SendQueues.queued_congr (SendQueues.postEmpty_ring _)
  have hvalid : s.tables.queues.postEmpty.Valid :=
    SendQueues.valid_congr (SendQueues.postEmpty_ring _) h.valid
  by_cases hask : hasBit x.flags needAck = true
  · obtain ⟨-, sleeptime, hnacks⟩ := sendD_recorded hsend hask
    have hkept : ∀ addr, ∀ a ∈ s.tables.nacks.nacksOf addr, a ∈ nacks.nacksOf addr := by
      rw [hnacks]
      exact (Function.forall_update_iff _ (fun addr l =>
        ∀ a ∈ s.tables.nacks.nacksOf addr, a ∈ l)).mpr
          ⟨fun _ ha => List.mem_cons_of_mem _ ha, fun _ _ _ ha => ha⟩
    have hnew : (⟨nacks.seqNum, tEnd, sleeptime, x⟩ : Ack) ∈ nacks.nacksOf x.dest := by
      rw [hnacks, Function.update_self]
      exact List.mem_cons_self
    refine ⟨hvalid, ?_, ?_⟩
    · simp only [hnacks]
      exact (Function.forall_update_iff _ (fun addr (l : List Ack) => ∀ a ∈ l, a.d.dest = addr)).mpr
        ⟨List.forall_mem_cons.mpr ⟨rfl, h.addressed x.dest⟩, fun addr _ => h.addressed addr⟩
    · intro d hd hfrag
      simp only [hask, if_true] at hd
      rcases List.mem_cons.mp hd with rfl | hd
      · exact .outstanding hnew ⟨hfrag, hask, by simp [sameFragment]⟩
      · cases h.standing d hd hfrag with
        | outstanding ha h => exact .outstanding (hkept _ _ ha) h
        | queued hy h => exact .queued (by rw [hqueued]; exact hy) h
        | inHand hy h =>
          rw [hx] at hy
          cases hy
          exact .outstanding (by rw [← sameFragment_dest h.same]; exact hnew) h
        | popped ha h => exact .popped ha h
        | lost ha h => exact .lost ha h
  · have hunasked : hasBit x.flags needAck = false := by simpa using hask
    have hsame := sendD_unrecorded hsend hunasked
    subst hsame
    refine ⟨hvalid, h.addressed, ?_⟩
    intro d hd hfrag
    simp only [hunasked, Bool.false_eq_true, if_false] at hd
    cases h.standing d hd hfrag with
    | outstanding ha h => exact .outstanding ha h
    | queued hy h => exact .queued (by rw [hqueued]; exact hy) h
    | inHand hy h =>
      rw [hx] at hy
      cases hy
      exact absurd h.asks hask
    | popped ha h => exact .popped ha h
    | lost ha h => exact .lost ha h

theorem inv_ack (h : s.Inv) {ackR : AckReceived} {received : Timeval} {source : SockAddr}
    (hroom : NeverExhausted s (.ack ackR received source) = true)
    (horder : FirstAckInOrder s (.ack ackR received source) = true)
    (hs : s.step (.ack ackR received source) = some t) : t.Inv := by
  cases hs
  have hdest := h.addressed source
  obtain ⟨-, hback⟩ := AckState.acknowledged_nacks ackR received hdest
  have hq := AckState.acknowledged_queues s.tables ackR received source
  obtain ⟨hvalid, hkept, -⟩ := resends_spec h.valid (s.tables.overtaken ackR source)
  refine ⟨by simp only [hq]; exact hvalid, fun addr a ha => h.addressed addr a (hback addr a ha), ?_⟩
  intro d hd hfrag
  cases h.standing d hd hfrag with
  | @outstanding a ha h' =>
    rcases AckState.acknowledged_kept ackR received hdest ha with
      hstay | ⟨hsource, hpop | hlost | hover | ⟨hnew, pop, hpop, hbefore⟩⟩
    · exact .outstanding hstay h'
    · exact .popped (List.mem_append_left _ (by simp [hpop, hsource])) h'
    · exact .lost (List.mem_append_left _ (by simp [hlost, hsource])) h'
    · obtain ⟨x, hx, hstands⟩ := h'.resent_queued h.valid hroom hover
      exact .queued (by simp only [hq]; exact hx) hstands
    · -- The branch that drops without resending is the one the condition excludes.
      have hfind := AckState.popped_find hpop
      have hin := List.all_eq_true.mp (by simpa only [FirstAckInOrder, hnew, hfind] using horder) a
        (by rwa [hsource] at ha)
      simp [h'.fragment, hbefore] at hin
  | queued hx h' => exact .queued (by simp only [hq]; exact hkept _ _ hx) h'
  | inHand hx h' => exact .inHand hx h'
  | popped ha h' => exact .popped (List.mem_append_right _ ha) h'
  | lost ha h' => exact .lost (List.mem_append_right _ ha) h'

theorem inv_timeout (h : s.Inv) {now : Timeval} (hroom : NeverExhausted s (.timeout now) = true)
    (hs : s.step (.timeout now) = some t) : t.Inv := by
  cases hs
  obtain ⟨-, hq, hnacks⟩ := resendTimeoutNacks_spec s.tables.nacks s.tables.queues
    s.tables.acks.getTimeoutValue now
  have hqueues : (s.tables.sweepTimeouts now).queues =
      (s.tables.timedOut now).foldl resendNack s.tables.queues := hq
  have hnacks' : ∀ addr, (s.tables.sweepTimeouts now).nacks.nacksOf addr = _ := hnacks
  obtain ⟨hvalid, hkept, -⟩ := resends_spec h.valid (s.tables.timedOut now)
  refine ⟨by simp only [hqueues]; exact hvalid, ?_, ?_⟩
  · intro addr a ha
    simp only [hnacks'] at ha
    exact h.addressed addr a (List.mem_filter.mp ha).1
  · intro d hd hfrag
    cases h.standing d hd hfrag with
    | @outstanding a ha h' =>
      cases hout : timedOut (timeToUsec now) (s.tables.acks.getTimeoutValue d.dest) a with
      | true =>
        obtain ⟨x, hx, hstands⟩ := h'.resent_queued h.valid hroom
          (NackTable.mem_timedOutNacks.mpr ⟨d.dest, ha, hout⟩)
        exact .queued (by simp only [hqueues]; exact hx) hstands
      | false =>
        exact .outstanding
          (by simp only [hnacks']; exact List.mem_filter.mpr ⟨ha, by simp [hout]⟩) h'
    | queued hx h' => exact .queued (by simp only [hqueues]; exact hkept _ _ hx) h'
    | inHand hx h' => exact .inHand hx h'
    | popped ha h' => exact .popped ha h'
    | lost ha h' => exact .lost ha h'

theorem inv_step (h : s.Inv) {a : OutboxAction} (hroom : NeverExhausted s a = true)
    (horder : FirstAckInOrder s a = true) (hs : s.step a = some t) : t.Inv := by
  cases a with
  | sendData d => exact inv_sendData h hs
  | fetch q => exact inv_fetch h hs
  | cookie addr => exact inv_cookie h hs
  | transmit tEnd bandwidth z natPort => exact inv_transmit h hs
  | ack ackR received source => exact inv_ack h hroom horder hs
  | timeout now => exact inv_timeout h hroom hs

/-- In every run that never finds its queues full, and in which no peer's first ack overtakes a
fragment sent to it before: each recorded fragment is with the sender, or its destination
acknowledged it. -/
theorem fragment_not_forgotten
    (h : Reaches outbox (fun s a => NeverExhausted s a = true ∧ FirstAckInOrder s a = true) s)
    (hd : d ∈ s.recorded) (hfrag : blockFragment d = true) :
    s.holds d = true ∨ s.acked d = true := by
  have hinv : s.Inv := by
    apply h.invariant
    · rintro _ rfl
      exact inv_init
    · intro s a t hi ha hs
      exact inv_step hi ha.1 ha.2 hs
  exact (hinv.standing d hd hfrag).holds_or_acked

def fragmentOf (i : UInt16) : SendData where
  data := fragmentPacket blkBlockAck ⟨1, 1, i, 2, 1, [7], rfl⟩
  dest := ⟨2, 1⟩
  fits := by simp [fragmentPacket_length]; decide

def sendBoth : List OutboxAction :=
  [.sendData (fragmentOf 0), .sendData (fragmentOf 1), .fetch .send,
    .transmit ⟨1, 0⟩ 1000000 false 0, .fetch .send, .transmit ⟨2, 0⟩ 1000000 false 0]

def ackOf (seq : UInt16) : OutboxAction := .ack ⟨blkAck, seq, 3, 0, 0⟩ ⟨3, 0⟩ ⟨2, 1⟩

/-- Acks in order, and a third fragment's packet that an ack overtakes: it is queued again. -/
theorem fragment_not_forgotten_overtaken :
    ∃ s, outbox.runIf (fun s a => NeverExhausted s a = true ∧ FirstAckInOrder s a = true) init
        (sendBoth ++ [ackOf 1, .sendData (fragmentOf 0), .fetch .send,
          .transmit ⟨4, 0⟩ 1000000 false 0, ackOf 3]) = some s ∧
      fragmentOf 1 ∈ s.recorded ∧ (s.holds (fragmentOf 1) = true ∨ s.acked (fragmentOf 1) = true) := by
  have hrun : (outbox.runIf (fun s a => NeverExhausted s a = true ∧ FirstAckInOrder s a = true) init
      (sendBoth ++ [ackOf 1, .sendData (fragmentOf 0), .fetch .send,
        .transmit ⟨4, 0⟩ 1000000 false 0, ackOf 3])).map
          (fun s => decide (fragmentOf 1 ∈ s.recorded)) = some true := by
    decide +kernel
  obtain ⟨s, hs, hmem⟩ := Option.map_eq_some_iff.mp hrun
  have hd : fragmentOf 1 ∈ s.recorded := of_decide_eq_true hmem
  exact ⟨s, hs, hd, fragment_not_forgotten ((Reaches.init rfl).runIf hs) hd (by decide)⟩

/-- The first ack of the peer is for the second fragment: the first one is dropped. -/
theorem first_ack_forgets :
    ∃ s, Reaches outbox (fun s a => NeverExhausted s a = true) s ∧
      ∃ d ∈ s.recorded, blockFragment d = true ∧ s.holds d = false ∧ s.acked d = false := by
  have hrun : (outbox.runIf (fun s a => NeverExhausted s a = true) init
      (sendBoth ++ [ackOf 2])).map (fun s => (decide (fragmentOf 0 ∈ s.recorded),
        s.holds (fragmentOf 0), s.acked (fragmentOf 0))) = some (true, false, false) := by
    decide +kernel
  obtain ⟨s, hs, hstate⟩ := Option.map_eq_some_iff.mp hrun
  obtain ⟨hmem, hstate⟩ := Prod.mk.inj hstate
  obtain ⟨hholds, hacked⟩ := Prod.mk.inj hstate
  exact ⟨s, (Reaches.init rfl).runIf hs, fragmentOf 0, of_decide_eq_true hmem, by decide, hholds,
    hacked⟩

end Outbox

end Bora
