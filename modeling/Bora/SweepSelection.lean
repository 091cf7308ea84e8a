import Bora.AckCodec
import Bora.ResendQueueing

/-! What each sweep over the outstanding packets takes out: the entries its rule names, and no
others. -/
namespace Bora

open ByteMemory Checked FirstMatch

def Timeval.Before (a b : Timeval) : Prop :=
  a.tv_sec < b.tv_sec ∨ a.tv_sec = b.tv_sec ∧ a.tv_usec < b.tv_usec

instance (a b : Timeval) : Decidable (a.Before b) := inferInstanceAs (Decidable (_ ∨ _))

def fragmentOf (d : SendData) : Option FragmentID :=
  if headerSize ≤ d.length ∧ hasBit d.flags blkBlock then some (getFragmentId d.data d.length)
  else none

def FragmentID.InFrontOf (g f : FragmentID) (cons : UInt16) : Prop :=
  g.streamid = f.streamid ∧ g.blockid = f.blockid ∧
    (f.fragmentid.toNat : ℤ) - cons.toNat ≤ g.fragmentid.toNat ∧
    (g.fragmentid.toNat : ℤ) ≤ f.fragmentid.toNat - 1

instance (g f : FragmentID) (cons : UInt16) : Decidable (g.InFrontOf f cons) :=
  inferInstanceAs (Decidable (_ ∧ _ ∧ _ ∧ _))

/-- Of the peer of the acknowledged packet, what was sent before it. -/
def sentEarlier (ack : Ack) (addr : SockAddr) (a : Ack) : Bool :=
  decide (addr = ack.d.dest ∧ a.sendtime.Before ack.sendtime)

/-- Of those the fragments that `cons` says arrived. -/
def lostAck (ack : Ack) (cons : UInt16) (addr : SockAddr) (a : Ack) : Bool :=
  sentEarlier ack addr a &&
    match fragmentOf a.d, fragmentOf ack.d with
    | some g, some f => decide (g.InFrontOf f cons)
    | _, _ => false

/-- The time of sending and the timeout together are over, in microseconds. -/
def overdue (timeout : SockAddr → UInt64) (now : Timeval) (addr : SockAddr) (a : Ack) : Bool :=
  decide ((timeToUsec a.sendtime).toNat + (timeout addr).toNat < (timeToUsec now).toNat)

namespace NackTable

def chosen (n : NackTable) (rule : SockAddr → Ack → Bool) : List Ack :=
  n.nacklist.flatMap (fun p => p.nacks.filter (rule p.addr))

/-- The entries have left, the others and all peers stand as they did. -/
structure Swept (n n' : NackTable) (rule : SockAddr → Ack → Bool) : Prop where
  seqNum : n'.seqNum = n.seqNum
  nacklist : n'.nacklist =
    n.nacklist.map (fun p => ⟨p.addr, p.nacks.filter (fun a => !rule p.addr a)⟩)

end NackTable

def SendQueues.RoomFor (q : SendQueues) (ds : List SendData) : Prop :=
  ds.length ≤ q.qEmpty ∧ ∀ name, q.f name + SendQueues.demand ds name ≤ name.capacity

/-- Each entry with a bit of BLK_BLOCK_ACK as it is queued again, once. -/
def retransmissionsOf (nacks : List Ack) : List SendData :=
  (nacks.filter (fun a => hasBit a.d.flags blkBlockAck)).map
    (fun a => a.d.setFlags (resentFlags a.d.flags))

/-- Those packets stand behind what was queued, each in its queue, and nothing else does. -/
def QueuedAgain (q q' : SendQueues) (nacks : List Ack) : Prop :=
  ∀ name, q'.queued name =
    q.queued name ++ (retransmissionsOf nacks).filter (fun d => queueOf d = name)

/-- All four sweeps keep to their rules, and three of them count what they take out. -/
structure SweepsExact (n : NackTable) (q : SendQueues) (ack : Ack) (cons : UInt16)
    (timeout : SockAddr → UInt64) (now : Timeval) : Prop where
  removeOoo : n.Swept (removeOooNacks n ack).1 (sentEarlier ack) ∧
    (removeOooNacks n ack).2 = (n.chosen (sentEarlier ack)).length
  resendOoo : n.Swept (resendOooNacks n q ack).1 (sentEarlier ack) ∧
    QueuedAgain q (resendOooNacks n q ack).2.1 (n.chosen (sentEarlier ack)) ∧
    (resendOooNacks n q ack).2.2 = (n.chosen (sentEarlier ack)).length
  resendTimeout : n.Swept (resendTimeoutNacks n q timeout now).1 (overdue timeout now) ∧
    QueuedAgain q (resendTimeoutNacks n q timeout now).2.1 (n.chosen (overdue timeout now)) ∧
    (resendTimeoutNacks n q timeout now).2.2 = (n.chosen (overdue timeout now)).length
  removeLost : n.Swept (removeLostAcks n ack cons).1 (lostAck ack cons)

/-- No other packet was sent to the peer before fragment 1 to `cons` of stream 0, block 0: what is
no fragment passes for fragment 0 there. -/
def FragmentsOnly (n : NackTable) (ack : Ack) (cons : UInt16) : Prop :=
  ∀ f, fragmentOf ack.d = some f → f.streamid = 0 → f.blockid = 0 → 0 < f.fragmentid.toNat →
    f.fragmentid.toNat ≤ cons.toNat →
      ∀ a ∈ n.nacksOf ack.d.dest, a.sendtime.Before ack.sendtime → fragmentOf a.d ≠ none

/-- No sum of a time and a timeout passes 64 bits and comes out before `now`. -/
def SumsFit (n : NackTable) (timeout : SockAddr → UInt64) (now : Timeval) : Prop :=
  ∀ addr, ∀ a ∈ n.nacksOf addr,
    (timeToUsec a.sendtime).toNat + (timeout addr).toNat < 2 ^ 64 ∨
      (timeToUsec now).toNat + 2 ^ 64 ≤ (timeToUsec a.sendtime).toNat + (timeout addr).toNat

theorem filter_not_eq_iff {α : Type} {l : List α} {p p' : α → Bool} :
    l.filter (fun a => !p a) = l.filter (fun a => !p' a) ↔ ∀ a ∈ l, p a = p' a := by
  constructor
  · intro h a ha
    have hmem : a ∈ l.filter (fun a => !p a) ↔ a ∈ l.filter (fun a => !p' a) := by rw [h]
    simp only [List.mem_filter, ha, true_and] at hmem
    cases hp : p a <;> cases hp' : p' a <;> simp_all
  · intro h
    exact List.filter_congr (fun a ha => by rw [h a ha])

namespace NackTable

variable {n n' : NackTable} {rule rule' : SockAddr → Ack → Bool}

theorem forall_nacklist {P : SockAddr → Ack → Prop} :
    (∀ p ∈ n.nacklist, ∀ a ∈ p.nacks, P p.addr a) ↔ ∀ addr, ∀ a ∈ n.nacksOf addr, P addr a := by
  constructor
  · intro h addr a ha
    unfold nacksOf at ha
    split at ha
    · cases ha
    · rename_i p hp
      have haddr : p.addr = addr := by simpa using List.find?_some hp
      exact haddr ▸ h p (List.mem_of_find?_eq_some hp) a ha
  · intro h p hp a ha
    exact h p.addr a (by rwa [nacksOf_of_mem hp])

theorem Swept.iff (h : n.Swept n' rule) :
    n.Swept n' rule' ↔ ∀ addr, ∀ a ∈ n.nacksOf addr, rule addr a = rule' addr a := by
  rw [← forall_nacklist]
  constructor
  · intro h' p hp
    have hmap := List.map_inj_left.mp (h.nacklist.symm.trans h'.nacklist) p hp
    exact filter_not_eq_iff.mp (congrArg NackPeer.nacks hmap)
  · intro hagree
    refine ⟨h.seqNum, h.nacklist.trans (List.map_congr_left fun p hp => ?_)⟩
    rw [filter_not_eq_iff.mpr (hagree p hp)]

theorem chosen_congr (h : ∀ addr, ∀ a ∈ n.nacksOf addr, rule addr a = rule' addr a) :
    n.chosen rule = n.chosen rule' := by
  apply List.flatMap_congr
  intro p hp
  exact List.filter_congr (forall_nacklist.mpr h p hp)

theorem swept_unselected (n : NackTable) (addr : SockAddr) (sel : Ack → Bool) :
    n.Swept (n.unselected addr sel) (fun addr' a => decide (addr' = addr) && sel a) := by
  refine ⟨rfl, (modify_eq_map n.distinct).trans (List.map_congr_left fun p _ => ?_)⟩
  by_cases haddr : p.addr = addr
  · simp [haddr]
  · simp [haddr]

theorem chosen_selected (n : NackTable) (addr : SockAddr) (sel : Ack → Bool) :
    n.chosen (fun addr' a => decide (addr' = addr) && sel a) = n.selected addr sel := by
  refine flatMap_peer (g := List.filter sel) rfl (fun p _ haddr => ?_) (fun p _ haddr => ?_)
  · simp [haddr]
  · simp [haddr]

end NackTable

theorem timerLt_iff_before (a b : Timeval) : timerLt a b = true ↔ a.Before b := by
  unfold timerLt Timeval.Before
  split <;> simp_all

theorem sentBefore_eq (ack : Ack) (addr : SockAddr) (a : Ack) :
    (decide (addr = ack.d.dest) && sentBefore ack a) = sentEarlier ack addr a := by
  rw [Bool.eq_iff_iff, Bool.and_eq_true, sentBefore, timerLt_iff_before, sentEarlier]
  simp

namespace SendQueues

variable {s : SendQueues} {ds : List SendData}

theorem takes_of_room (hs : s.Valid) (h : s.RoomFor ds) : s.takes ds = ds := by
  induction ds generalizing s with
  | nil => rfl
  | cons d ds ih =>
    obtain ⟨hslots, hroom⟩ := h
    rw [List.length_cons] at hslots
    have hd := hroom (queueOf d)
    rw [demand_cons, if_pos rfl] at hd
    rcases sendData_slots hs d with ⟨-, -, hacc, hq, hf⟩ | ⟨hno, -⟩
    · have hrest : (s.sendData d).1.RoomFor ds := by
        refine ⟨by omega, fun name => ?_⟩
        have hname := hroom name
        rw [demand_cons] at hname
        rw [hf name]
        by_cases hqd : name = queueOf d
        · rw [if_pos hqd]
          rw [if_pos hqd.symm] at hname
          omega
        · rw [if_neg hqd]
          omega
      rw [takes, if_pos hacc, ih (sendData_spec hs d).1 hrest]
    · exact absurd ⟨by omega, by omega⟩ hno

end SendQueues

theorem resentPackets_eq (nacks : List Ack) : resentPackets nacks = retransmissionsOf nacks := by
  unfold resentPackets retransmissionsOf
  induction nacks with
  | nil => rfl
  | cons a nacks ih =>
    rw [List.filterMap_cons, List.filter_cons, resent_eq_ite]
    split <;> simp_all

theorem queuedAgain {q : SendQueues} (hq : q.Valid) {nacks : List Ack}
    (hroom : q.RoomFor (retransmissionsOf nacks)) :
    QueuedAgain q (nacks.foldl resendNack q) nacks := by
  intro name
  rw [foldl_resendNack, resentPackets_eq, SendQueues.sendAll_queued hq,
    SendQueues.takes_of_room hq hroom]

theorem getFragmentId_of_none {d : SendData} (h : fragmentOf d = none) :
    getFragmentId d.data d.length = default := by
  have hno : ¬ (headerSize ≤ d.length ∧ hasBit d.flags blkBlock = true) := by
    intro hyes
    rw [fragmentOf, if_pos hyes] at h
    cases h
  unfold getFragmentId
  by_cases hlen : d.length < headerSize
  · rw [if_pos hlen]
  · have hbit : ¬ hasBit (fragmentHeader d.data).flags blkBlock = true :=
      fun hbit => hno ⟨Nat.not_lt.mp hlen, hbit⟩
    rw [if_neg hlen, if_pos hbit]

theorem getFragmentId_of_some {d : SendData} {f : FragmentID} (h : fragmentOf d = some f) :
    getFragmentId d.data d.length = f := by
  unfold fragmentOf at h
  split at h
  · exact Option.some.inj h
  · cases h

/-- The comparisons of `remove_lost_acks`, whatever `get_fragment_id` answers. -/
theorem covered_iff {ack a : Ack} {cons : UInt16} :
    covered ack cons a = true ↔ a.sendtime.Before ack.sendtime ∧
      (getFragmentId a.d.data a.d.length).InFrontOf (getFragmentId ack.d.data ack.d.length)
        cons := by
  simp only [covered, sentBefore, Bool.and_eq_true, timerLt_iff_before, beq_iff_eq,
    decide_eq_true_eq, FragmentID.InFrontOf, UInt16.lt_iff_toNat_lt, and_assoc]
  refine and_congr_right fun _ => and_congr_right fun _ => and_congr_right fun _ => ?_
  omega

theorem not_inFrontOf_default {g : FragmentID} {cons : UInt16} : ¬ g.InFrontOf default cons := by
  rintro ⟨-, -, -, hle⟩
  have hzero : (default : FragmentID).fragmentid.toNat = 0 := rfl
  omega

theorem default_inFrontOf_iff {f : FragmentID} {cons : UInt16} :
    (default : FragmentID).InFrontOf f cons ↔ f.streamid = 0 ∧ f.blockid = 0 ∧
      0 < f.fragmentid.toNat ∧ f.fragmentid.toNat ≤ cons.toNat := by
  have hzero : (default : FragmentID).fragmentid.toNat = 0 := rfl
  rw [FragmentID.InFrontOf, hzero, eq_comm (b := f.streamid), eq_comm (b := f.blockid)]
  refine and_congr_right fun _ => and_congr_right fun _ => ?_
  omega

/-- The code and the rule differ where a packet that is no fragment was sent before one of the
first fragments of stream 0, block 0. -/
theorem covered_eq_iff {ack a : Ack} {cons : UInt16} :
    covered ack cons a = lostAck ack cons ack.d.dest a ↔
      ∀ f, fragmentOf ack.d = some f → f.streamid = 0 → f.blockid = 0 →
        0 < f.fragmentid.toNat → f.fragmentid.toNat ≤ cons.toNat →
          a.sendtime.Before ack.sendtime → fragmentOf a.d ≠ none := by
  have hlost : lostAck ack cons ack.d.dest a = true ↔ a.sendtime.Before ack.sendtime ∧
      ∃ g f, fragmentOf a.d = some g ∧ fragmentOf ack.d = some f ∧ g.InFrontOf f cons := by
    unfold lostAck sentEarlier
    cases fragmentOf a.d <;> cases fragmentOf ack.d <;> simp
  rw [Bool.eq_iff_iff, covered_iff, hlost]
  cases hack : fragmentOf ack.d with
  | none =>
    rw [getFragmentId_of_none hack]
    simp [not_inFrontOf_default]
  | some f =>
    rw [getFragmentId_of_some hack]
    cases ha : fragmentOf a.d with
    | some g =>
      rw [getFragmentId_of_some ha]
      simp
    | none =>
      rw [getFragmentId_of_none ha, default_inFrontOf_iff]
      constructor
      · intro h f' hf hstream hblock hpos hle hbefore _
        cases hf
        obtain ⟨-, g, -, hg, -⟩ := h.mp ⟨hbefore, hstream, hblock, hpos, hle⟩
        cases hg
      · intro h
        constructor
        · rintro ⟨hbefore, hstream, hblock, hpos, hle⟩
          exact absurd rfl (h f rfl hstream hblock hpos hle hbefore)
        · rintro ⟨-, g, -, hg, -⟩
          cases hg

/-- The sum wraps around at 64 bits. -/
theorem timedOut_eq_overdue_iff {timeout : SockAddr → UInt64} {now : Timeval} {addr : SockAddr}
    {a : Ack} :
    timedOut (timeToUsec now) (timeout addr) a = overdue timeout now addr a ↔
      (timeToUsec a.sendtime).toNat + (timeout addr).toNat < 2 ^ 64 ∨
        (timeToUsec now).toNat + 2 ^ 64 ≤ (timeToUsec a.sendtime).toNat + (timeout addr).toNat := by
  by_cases hfits : (timeToUsec a.sendtime).toNat + (timeout addr).toNat < 2 ^ 64
  · rw [Bool.eq_iff_iff, timedOut_iff_of_lt hfits, overdue, decide_eq_true_iff]
    exact iff_of_true Iff.rfl (Or.inl hfits)
  · have hsent := (timeToUsec a.sendtime).toNat_lt
    have htimeout := (timeout addr).toNat_lt
    have hnow := (timeToUsec now).toNat_lt
    rw [timedOut, overdue, decide_eq_decide, gt_iff_lt, UInt64.lt_iff_toNat_lt, UInt64.toNat_add,
      Nat.mod_eq_sub_mod (not_lt.mp hfits), Nat.mod_eq_of_lt (by omega)]
    omega

section Sweeps

variable (n : NackTable) (ack : Ack) (cons : UInt16) (timeout : SockAddr → UInt64) (now : Timeval)

theorem swept_sentBefore :
    n.Swept (n.unselected ack.d.dest (sentBefore ack)) (sentEarlier ack) :=
  (n.swept_unselected _ _).iff.mpr fun addr a _ => sentBefore_eq ack addr a

theorem chosen_sentEarlier :
    n.chosen (sentEarlier ack) = n.selected ack.d.dest (sentBefore ack) :=
  (NackTable.chosen_congr fun addr a _ => (sentBefore_eq ack addr a).symm).trans
    (n.chosen_selected _ _)

theorem swept_lost_iff :
    n.Swept (removeLostAcks n ack cons).1 (lostAck ack cons) ↔ FragmentsOnly n ack cons := by
  have hsame : (removeLostAcks n ack cons).1 = n.unselected ack.d.dest (covered ack cons) :=
    congrArg Prod.fst (removeLostAcks_eq n ack cons)
  rw [hsame, (n.swept_unselected _ _).iff]
  have hother : ∀ addr, addr ≠ ack.d.dest → ∀ a : Ack,
      (decide (addr = ack.d.dest) && covered ack cons a) = lostAck ack cons addr a := by
    intro addr haddr a
    simp [lostAck, sentEarlier, haddr]
  constructor
  · intro h f hf hstream hblock hpos hle a ha hbefore
    have hagree := h ack.d.dest a ha
    rw [decide_eq_true rfl, Bool.true_and] at hagree
    exact covered_eq_iff.mp hagree f hf hstream hblock hpos hle hbefore
  · intro h addr a ha
    by_cases haddr : addr = ack.d.dest
    · subst haddr
      rw [decide_eq_true rfl, Bool.true_and]
      exact covered_eq_iff.mpr fun f hf hstream hblock hpos hle hbefore =>
        h f hf hstream hblock hpos hle a ha hbefore
    · exact hother addr haddr a

def timedOutAt (addr : SockAddr) (a : Ack) : Bool := timedOut (timeToUsec now) (timeout addr) a

theorem swept_timeouts (q : SendQueues) :
    n.Swept (resendTimeoutNacks n q timeout now).1 (timedOutAt timeout now) where
  seqNum := rfl
  nacklist := by
    simp only [resendTimeoutNacks, resendTimeoutLoop_eq]
    rfl

theorem swept_overdue_iff (q : SendQueues) :
    n.Swept (resendTimeoutNacks n q timeout now).1 (overdue timeout now) ↔
      SumsFit n timeout now := by
  rw [(swept_timeouts n timeout now q).iff]
  exact forall_congr' fun addr => forall_congr' fun a => forall_congr' fun _ =>
    timedOut_eq_overdue_iff

theorem chosen_overdue (h : SumsFit n timeout now) :
    n.chosen (overdue timeout now) = n.timedOutNacks timeout (timeToUsec now) :=
  NackTable.chosen_congr fun addr a ha => (timedOut_eq_overdue_iff.mpr (h addr a ha)).symm

/-- With room in the queues the four sweeps keep to their rules exactly if only fragments are in
the way of `remove_lost_acks`, and no time that the timeout sweep adds up wraps around. -/
theorem sweeps_exact_iff (q : SendQueues) (hq : q.Valid)
    (hooo : q.RoomFor (retransmissionsOf (n.chosen (sentEarlier ack))))
    (htimeout : q.RoomFor (retransmissionsOf (n.chosen (overdue timeout now)))) :
    SweepsExact n q ack cons timeout now ↔
      FragmentsOnly n ack cons ∧ SumsFit n timeout now := by
  constructor
  · intro h
    exact ⟨(swept_lost_iff n ack cons).mp h.removeLost,
      (swept_overdue_iff n timeout now q).mp h.resendTimeout.1⟩
  · rintro ⟨hfragments, hsums⟩
    have hswept := swept_sentBefore n ack
    have hchosen := chosen_sentEarlier n ack
    have hqueues := queuedAgain hq hooo
    refine ⟨?_, ?_, ⟨(swept_overdue_iff n timeout now q).mpr hsums, ?_, ?_⟩,
      (swept_lost_iff n ack cons).mpr hfragments⟩
    · rw [removeOooNacks_eq, hchosen]
      exact ⟨hswept, rfl⟩
    · rw [resendOooNacks_eq]
      rw [hchosen] at hqueues ⊢
      exact ⟨hswept, hqueues, rfl⟩
    · have hresent := queuedAgain hq htimeout
      rw [chosen_overdue n timeout now hsums] at hresent ⊢
      rw [(resendTimeoutNacks_spec n q timeout now).2.1]
      exact hresent
    · rw [chosen_overdue n timeout now hsums]
      simp only [resendTimeoutNacks, resendTimeoutLoop_eq]
      rfl

end Sweeps

def fragmentOfFour (i : UInt8) : SendData :=
  ⟨[blkBlockAck, 0, 0, 0, 0, 0, 0, 0, i, 0, 4, 0, 0], ⟨1, 1⟩, Nat.le_of_ble_eq_true rfl⟩

def twoOutstanding (d d' : SendData) : NackTable :=
  ⟨[⟨⟨1, 1⟩, [⟨0, ⟨0, 1⟩, 0, d⟩, ⟨1, ⟨0, 2⟩, 0, d'⟩]⟩], 2, List.nodup_singleton _⟩

def secondAcked (d' : SendData) : Ack := ⟨1, ⟨0, 2⟩, 0, d'⟩

/-- Fragment 0, sent before fragment 1, when that is acknowledged. -/
theorem sweeps_exact_fragments :
    SweepsExact (twoOutstanding (fragmentOfFour 0) (fragmentOfFour 1)) SendQueues.init
      (secondAcked (fragmentOfFour 1)) 1 (fun _ => 10) ⟨0, 20⟩ := by
  have hentries : ∀ addr,
      ∀ a ∈ (twoOutstanding (fragmentOfFour 0) (fragmentOfFour 1)).nacksOf addr,
        fragmentOf a.d ≠ none ∧
          (timeToUsec a.sendtime).toNat + (10 : UInt64).toNat < 2 ^ 64 :=
    NackTable.forall_nacklist.mp (by decide +kernel)
  exact (sweeps_exact_iff _ _ 1 _ _ SendQueues.init SendQueues.valid_init
    ⟨by decide +kernel, fun name => by cases name <;> decide +kernel⟩
    ⟨by decide +kernel, fun name => by cases name <;> decide +kernel⟩).mpr
      ⟨fun _ _ _ _ _ _ a ha _ => (hentries _ a ha).1,
        fun addr a ha => Or.inl (hentries addr a ha).2⟩

/-- A cookie, sent before fragment 1, leaves as fragment 0 would. -/
theorem sweeps_lose_cookie :
    (twoOutstanding (bogusData ⟨1, 1⟩) (fragmentOfFour 1)).nacksOf ⟨1, 1⟩ =
        [⟨0, ⟨0, 1⟩, 0, bogusData ⟨1, 1⟩⟩, secondAcked (fragmentOfFour 1)] ∧
      (removeLostAcks (twoOutstanding (bogusData ⟨1, 1⟩) (fragmentOfFour 1))
        (secondAcked (fragmentOfFour 1)) 1).1.nacksOf ⟨1, 1⟩ = [secondAcked (fragmentOfFour 1)] ∧
      ¬ SweepsExact (twoOutstanding (bogusData ⟨1, 1⟩) (fragmentOfFour 1)) SendQueues.init
        (secondAcked (fragmentOfFour 1)) 1 (fun _ => 10) ⟨0, 20⟩ := by
  refine ⟨by decide +kernel, by decide +kernel, fun h => ?_⟩
  have honly := (swept_lost_iff _ _ _).mp h.removeLost
  have hfragment : fragmentOf (fragmentOfFour 1) = some ⟨0, 0, 1, 4, 0⟩ := by decide +kernel
  refine honly _ hfragment rfl rfl (by decide) (by decide)
    ⟨0, ⟨0, 1⟩, 0, bogusData ⟨1, 1⟩⟩ ?_ (by decide) (by decide +kernel)
  decide +kernel

end Bora
