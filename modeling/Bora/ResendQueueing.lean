import Bora.Relay
import Bora.ResentPackets

/-! The sweeps that queue packets again, on queues of any fill level: an entry leaves its list
whether `send_data` found a slot for the packet or not. -/
namespace Bora

open ByteMemory Checked FirstMatch

namespace SendQueues

variable {s t : SendQueues} {d : SendData} {ds : List SendData} {q : QueueName}

/-- The packets that find a slot, in the order of the calls. -/
def takes : SendQueues → List SendData → List SendData
  | _, [] => []
  | s, d::ds =>
    if (s.sendData d).2 then d :: takes (s.sendData d).1 ds else takes (s.sendData d).1 ds

theorem sendAll_cons (s : SendQueues) (d : SendData) (ds : List SendData) :
    s.sendAll (d :: ds) = (s.sendData d).1.sendAll ds := rfl

theorem takes_sublist (s : SendQueues) (ds : List SendData) : (s.takes ds).Sublist ds := by
  induction ds generalizing s with
  | nil => exact List.Sublist.refl _
  | cons d ds ih =>
    rw [takes]
    split
    · exact (ih _).cons_cons d
    · exact (ih _).cons d

theorem sendAll_queued (hs : s.Valid) (ds : List SendData) (q : QueueName) :
    (s.sendAll ds).queued q = s.queued q ++ (s.takes ds).filter (fun d => queueOf d = q) := by
  induction ds generalizing s with
  | nil => simp [sendAll, takes]
  | cons d ds ih =>
    obtain ⟨hvalid, hqueued⟩ := sendData_spec hs d
    rw [sendAll_cons, ih hvalid, hqueued, takes, List.append_assoc]
    by_cases hq : q = queueOf d
    · by_cases hacc : (s.sendData d).2 = true
      · simp [hacc, hq]
      · simp [hacc]
    · have hq' : queueOf d ≠ q := fun he => hq he.symm
      by_cases hacc : (s.sendData d).2 = true <;> simp [hacc, hq, hq']

theorem sendData_slots (hs : s.Valid) (d : SendData) :
    (0 < s.qEmpty ∧ s.f (queueOf d) < (queueOf d).capacity ∧ (s.sendData d).2 = true ∧
        (s.sendData d).1.qEmpty + 1 = s.qEmpty ∧
        ∀ q, (s.sendData d).1.f q = s.f q + if q = queueOf d then 1 else 0) ∨
      (¬ (0 < s.qEmpty ∧ s.f (queueOf d) < (queueOf d).capacity) ∧ s.sendData d = (s, false)) := by
  by_cases hslot : 0 < s.qEmpty
  · by_cases hroom : s.f (queueOf d) < (queueOf d).capacity
    · obtain ⟨t, ht, -, -, hq, hqueued⟩ := sendData_room hs hslot hroom
      refine Or.inl ⟨hslot, hroom, by rw [ht], by rw [ht]; exact hq, fun q => ?_⟩
      rw [ht, ← queued_length, hqueued q, List.length_append, queued_length]
      by_cases hqd : q = queueOf d <;> simp [hqd]
    · refine Or.inr ⟨fun h => hroom h.2, ?_⟩
      have hres : s.reserve = some { s with qEmpty := s.qEmpty - 1 } :=
        if_neg (Nat.pos_iff_ne_zero.mp hslot)
      have henq : SendQueues.enqueue { s with qEmpty := s.qEmpty - 1 } d = (s, false) := by
        have hback : s.qEmpty - 1 + 1 = s.qEmpty := Nat.sub_add_cancel hslot
        refine (if_neg hroom).trans ?_
        simp only [hback]
      simp only [sendData, hres, henq]
  · refine Or.inr ⟨fun h => hslot h.1, ?_⟩
    have hres : s.reserve = none := if_pos (Nat.eq_zero_of_not_pos hslot)
    simp only [sendData, hres]

def demand (ds : List SendData) (q : QueueName) : ℕ := ds.countP (fun d => queueOf d = q)

/-- Behind the packets of `before` there is room for another retransmission: they all count,
fragments and cookies, but of those for the priority queue only as many as it has room for. -/
def SlotFor (s : SendQueues) (before : List SendData) : Prop :=
  s.f .retr + demand before .retr < nRetr ∧
    demand before .retr + min (demand before .prio) (nPrio - s.f .prio) < s.qEmpty

def SlotsFor (s : SendQueues) (ds : List SendData) : Prop :=
  ∀ before d after, ds = before ++ d :: after → blockFragment d = true → s.SlotFor before

@[simp] theorem demand_nil (q : QueueName) : demand [] q = 0 := rfl

theorem demand_cons (d : SendData) (ds : List SendData) (q : QueueName) :
    demand (d :: ds) q = demand ds q + if queueOf d = q then 1 else 0 := by
  simp [demand, List.countP_cons]

theorem slotsFor_cons :
    s.SlotsFor (d :: ds) ↔ (blockFragment d = true → s.SlotFor []) ∧
      ∀ before d' after, ds = before ++ d' :: after → blockFragment d' = true →
        s.SlotFor (d :: before) := by
  constructor
  · intro h
    refine ⟨h [] d ds rfl, ?_⟩
    rintro before d' after rfl hd'
    exact h (d :: before) d' after rfl hd'
  · rintro ⟨hfirst, hrest⟩ before d' after heq hd'
    cases before with
    | nil =>
      rw [List.nil_append, List.cons.injEq] at heq
      rw [← heq.1] at hd'
      exact hfirst hd'
    | cons x before =>
      rw [List.cons_append, List.cons.injEq] at heq
      obtain ⟨rfl, heq⟩ := heq
      exact hrest before d' after heq hd'

theorem slotFor_cons (hs : s.Valid) (hsend : queueOf d ≠ .send) (before : List SendData) :
    s.SlotFor (d :: before) ↔ (s.sendData d).1.SlotFor before := by
  have hprio : s.f .prio ≤ nPrio := (hs .prio).f_le
  unfold SlotFor
  rcases sendData_slots hs d with ⟨hpos, hroom, -, hq, hf⟩ | ⟨hno, hsame⟩
  · rw [hf .retr, hf .prio, demand_cons, demand_cons]
    cases hd : queueOf d with
    | prio =>
      rw [hd] at hroom
      have hcap : s.f .prio < nPrio := hroom
      simp only [if_true, reduceCtorEq, if_false, Nat.add_zero]
      omega
    | retr =>
      simp only [if_true, reduceCtorEq, if_false, Nat.add_zero]
      omega
    | send => exact absurd hd hsend
  · rw [hsame, demand_cons, demand_cons]
    cases hd : queueOf d with
    | prio =>
      rw [hd] at hno
      have hno' : ¬ (0 < s.qEmpty ∧ s.f .prio < nPrio) := hno
      simp only [if_true, reduceCtorEq, if_false, Nat.add_zero]
      omega
    | retr =>
      -- Once there is no slot for a retransmission, there is none for those behind it either.
      rw [hd] at hno
      have hno' : ¬ (0 < s.qEmpty ∧ s.f .retr < nRetr) := hno
      simp only [if_true, reduceCtorEq, if_false, Nat.add_zero]
      omega
    | send => exact absurd hd hsend

theorem slotFor_nil_iff (hs : s.Valid) (hretr : queueOf d = .retr) :
    s.SlotFor [] ↔ (s.sendData d).2 = true := by
  simp only [SlotFor, demand_nil, Nat.add_zero, Nat.zero_min]
  rcases sendData_slots hs d with ⟨hpos, hroom, hacc, -⟩ | ⟨hno, hsame⟩
  · rw [hretr] at hroom
    exact iff_of_true ⟨hroom, hpos⟩ hacc
  · rw [hretr] at hno
    refine iff_of_false (fun h => hno ⟨h.2, h.1⟩) ?_
    simp [hsame]

theorem slotsFor_sendData (hs : s.Valid) (hsend : queueOf d ≠ .send) :
    s.SlotsFor (d :: ds) ↔
      (blockFragment d = true → s.SlotFor []) ∧ (s.sendData d).1.SlotsFor ds := by
  rw [slotsFor_cons]
  refine and_congr_right fun _ => ⟨?_, ?_⟩
  · intro h before d' after heq hd'
    exact (slotFor_cons hs hsend before).mp (h before d' after heq hd')
  · intro h before d' after heq hd'
    exact (slotFor_cons hs hsend before).mpr (h before d' after heq hd')

/-- Every fragment of the list is queued, in order, exactly if there are slots for all. -/
theorem takes_fragments_iff (hs : s.Valid) (hsend : ∀ d ∈ ds, queueOf d ≠ .send)
    (hretr : ∀ d ∈ ds, blockFragment d = true → queueOf d = .retr) :
    (s.takes ds).filter blockFragment = ds.filter blockFragment ↔ s.SlotsFor ds := by
  induction ds generalizing s with
  | nil =>
    refine iff_of_true rfl ?_
    intro before d after heq
    cases before <;> cases heq
  | cons d ds ih =>
    rw [List.forall_mem_cons] at hsend hretr
    have hrest := ih (sendData_spec hs d).1 hsend.2 hretr.2
    rw [slotsFor_sendData hs hsend.1, ← hrest, takes]
    cases hfrag : blockFragment d with
    | false =>
      split <;> simp [hfrag]
    | true =>
      rw [slotFor_nil_iff hs (hretr.1 hfrag)]
      cases hacc : (s.sendData d).2 with
      | true => simp [hfrag]
      | false =>
        -- The packet is dropped, and what is queued behind it cannot make up for it.
        refine iff_of_false (fun heq => ?_) (fun h => Bool.noConfusion (h.1 rfl))
        have hle := ((takes_sublist (s.sendData d).1 ds).filter blockFragment).length_le
        simp only [Bool.false_eq_true, if_false] at heq
        rw [heq, List.filter_cons_of_pos hfrag, List.length_cons] at hle
        omega

/-- When only fragments are to be queued again it is their number alone that counts. -/
theorem slotsFor_iff_length (hs : s.Valid)
    (h : ∀ d ∈ ds, blockFragment d = true ∧ queueOf d = .retr) :
    s.SlotsFor ds ↔ ds.length ≤ s.qEmpty ∧ s.f .retr + ds.length ≤ nRetr := by
  have hdemand : ∀ before after, ds = before ++ after →
      demand before .retr = before.length ∧ demand before .prio = 0 := by
    rintro before after rfl
    have hmem : ∀ d ∈ before, queueOf d = .retr := fun d hd => (h d (List.mem_append_left _ hd)).2
    constructor
    · exact List.countP_eq_length.mpr (fun d hd => by simp [hmem d hd])
    · exact List.countP_eq_zero.mpr (fun d hd => by simp [hmem d hd])
  constructor
  · intro hslots
    have hfull : s.f .retr ≤ nRetr := (hs .retr).f_le
    rcases List.eq_nil_or_concat ds with rfl | ⟨before, d, rfl⟩
    · exact ⟨Nat.zero_le _, hfull⟩
    · rw [List.concat_eq_append] at hslots h hdemand ⊢
      obtain ⟨hretr, hprio⟩ := hdemand before [d] rfl
      obtain ⟨hroom, hslot⟩ := hslots before d [] rfl (h d (by simp)).1
      rw [hretr] at hroom hslot
      rw [hprio] at hslot
      rw [List.length_append, List.length_singleton]
      omega
  · rintro ⟨hslot, hroom⟩ before d after rfl -
    obtain ⟨hretr, hprio⟩ := hdemand before _ rfl
    rw [List.length_append, List.length_cons] at hslot hroom
    rw [SlotFor, hretr, hprio]
    omega

end SendQueues

/-- What a sweep hands to `send_data` for its entries. -/
def resentPackets (nacks : List Ack) : List SendData := nacks.filterMap (fun a => resent a.d)

def NackTable.removed (n n' : NackTable) : List Ack :=
  n.nacklist.flatMap (fun p => p.nacks.filter (fun a => a ∉ n'.nacksOf p.addr))

/-- The call placed the packets of the fragments it removed in the retransmission queue: of what
is behind the packets that were there, the fragments are these, in order. -/
def RemovedQueued (n n' : NackTable) (q q' : SendQueues) : Prop :=
  ∃ added, q'.queued .retr = q.queued .retr ++ added ∧
    added.filter blockFragment =
      resentPackets ((n.removed n').filter (fun a => blockFragment a.d))

section Sweeps

variable {n n' : NackTable} {q q' : SendQueues} {addr : SockAddr} {sel : Ack → Bool} {a : Ack}
  {d : SendData} {nacks : List Ack}

theorem foldl_resendNack (q : SendQueues) (nacks : List Ack) :
    nacks.foldl resendNack q = q.sendAll (resentPackets nacks) := by
  induction nacks generalizing q with
  | nil => rfl
  | cons cur rest ih =>
    rw [List.foldl_cons, ih, resendNack]
    cases hr : resent cur.d with
    | none => simp [resentPackets, hr]
    | some d => simp [resentPackets, hr, SendQueues.sendAll_cons]

theorem resent_eq_ite (d : SendData) :
    resent d =
      if hasBit d.flags blkBlockAck then some (d.setFlags (resentFlags d.flags)) else none := by
  have hmask : hasBit (d.flags &&& blockMaskConsecutive) blkBlockAck =
      hasBit d.flags blkBlockAck :=
    flags_forall (P := fun f => hasBit (f &&& blockMaskConsecutive) blkBlockAck =
      hasBit f blkBlockAck) (by decide +kernel) _
  rw [← hmask]
  rfl

theorem resent_isSome_iff (d : SendData) :
    (resent d).isSome = true ↔ hasBit d.flags blkBlockAck = true := by
  rw [resent_eq_ite]
  split <;> simp_all

theorem resent_pos (h : resent a.d = some d) : d.flags = resentFlags a.d.flags := by
  obtain ⟨rfl, hbit⟩ := resent_eq h
  refine SendData.setFlags_flags _ _ (Nat.pos_of_ne_zero ?_)
  intro hlen
  have hnil : a.d.data = [] := List.eq_nil_of_length_eq_zero hlen
  rw [SendData.flags, hnil] at hbit
  exact absurd hbit (by decide)

theorem queueOf_resent (h : resent a.d = some d) : queueOf d ≠ .send := by
  have hmark : hasBit d.flags blockRetransmission = true := by
    rw [resent_pos h]
    exact flags_forall (P := fun f => hasBit (resentFlags f) blockRetransmission = true)
      (by decide +kernel) _
  unfold queueOf
  split <;> decide

theorem blockFragment_resent (h : resent a.d = some d) : blockFragment d = blockFragment a.d := by
  rw [blockFragment, blockFragment, resent_pos h]
  exact flags_forall (P := fun f => fragmentFlags (resentFlags f) = fragmentFlags f)
    (by decide +kernel) _

theorem queueOf_fragment (h : resent a.d = some d) (hfrag : blockFragment d = true) :
    queueOf d = .retr := by
  refine queueOf_retr hfrag ?_
  rw [resent_pos h]
  exact flags_forall (P := fun f => hasBit (resentFlags f) blockRetransmission = true)
    (by decide +kernel) _

theorem resent_of_fragment (h : blockFragment a.d = true) : ∃ d, resent a.d = some d := by
  rw [← Option.isSome_iff_exists, resent_isSome_iff]
  revert h
  exact flags_forall (P := fun f => fragmentFlags f = true → hasBit f blkBlockAck = true)
    (by decide +kernel) _

theorem resentPackets_cons (a : Ack) (nacks : List Ack) :
    resentPackets (a :: nacks) = (resent a.d).toList ++ resentPackets nacks := by
  cases hres : resent a.d <;> simp [resentPackets, hres]

theorem resentPackets_fragments (nacks : List Ack) :
    resentPackets (nacks.filter (fun a => blockFragment a.d)) =
      (resentPackets nacks).filter blockFragment := by
  induction nacks with
  | nil => rfl
  | cons a nacks ih =>
    rw [resentPackets_cons, List.filter_append, ← ih]
    cases hfrag : blockFragment a.d with
    | false =>
      have hnone : (resent a.d).toList.filter blockFragment = [] := by
        refine List.filter_eq_nil_iff.mpr (fun d hd => ?_)
        rw [blockFragment_resent (Option.mem_toList.mp hd), hfrag]
        exact Bool.false_ne_true
      rw [hnone, List.filter_cons_of_neg (by simp [hfrag]), List.nil_append]
    | true =>
      obtain ⟨d, hres⟩ := resent_of_fragment hfrag
      have hd : blockFragment d = true := (blockFragment_resent hres).trans hfrag
      have hkept : (a :: nacks).filter (fun a => blockFragment a.d) =
          a :: nacks.filter (fun a => blockFragment a.d) := List.filter_cons_of_pos hfrag
      rw [hkept, resentPackets_cons, hres, Option.toList_some, List.filter_cons_of_pos hd,
        List.filter_nil]

theorem RemovedQueued.queued_or_outstanding (h : RemovedQueued n n' q q')
    (ha : a ∈ n.nacksOf addr) (hfrag : blockFragment a.d = true) :
    a ∈ n'.nacksOf addr ∨ ∃ d, resent a.d = some d ∧ d ∈ q'.queued .retr := by
  by_cases hkept : a ∈ n'.nacksOf addr
  · exact Or.inl hkept
  · obtain ⟨d, hd⟩ := resent_of_fragment hfrag
    obtain ⟨added, hqueued, hadded⟩ := h
    refine Or.inr ⟨d, hd, ?_⟩
    have hmem : d ∈ added.filter blockFragment := by
      rw [hadded]
      refine List.mem_filterMap.mpr ⟨a, List.mem_filter.mpr ⟨?_, hfrag⟩, hd⟩
      unfold NackTable.nacksOf at ha
      split at ha
      · cases ha
      · rename_i p hp
        have haddr : p.addr = addr := by simpa using List.find?_some hp
        subst addr
        exact List.mem_flatMap.mpr ⟨p, List.mem_of_find?_eq_some hp,
          List.mem_filter.mpr ⟨ha, by simpa using hkept⟩⟩
    rw [hqueued]
    exact List.mem_append_right _ (List.mem_filter.mp hmem).1

theorem removedQueued_iff (hq : q.Valid) (hrem : n.removed n' = nacks) :
    RemovedQueued n n' q (nacks.foldl resendNack q) ↔ q.SlotsFor (resentPackets nacks) := by
  have hpackets : ∀ d ∈ resentPackets nacks, ∃ a : Ack, resent a.d = some d := by
    intro d hd
    obtain ⟨a, -, ha⟩ := List.mem_filterMap.mp hd
    exact ⟨a, ha⟩
  have hsend : ∀ d ∈ resentPackets nacks, queueOf d ≠ .send := fun d hd =>
    (hpackets d hd).elim (fun a ha => queueOf_resent ha)
  have hretr : ∀ d ∈ resentPackets nacks, blockFragment d = true → queueOf d = .retr :=
    fun d hd => (hpackets d hd).elim (fun a ha => queueOf_fragment ha)
  have hadded : ((q.takes (resentPackets nacks)).filter (fun d => queueOf d = .retr)).filter
      blockFragment = (q.takes (resentPackets nacks)).filter blockFragment := by
    rw [List.filter_filter]
    refine List.filter_congr (fun d hd => ?_)
    cases hfrag : blockFragment d with
    | false => rfl
    | true => simp [hretr d ((q.takes_sublist _).subset hd) hfrag]
  rw [← SendQueues.takes_fragments_iff hq hsend hretr, ← hadded, ← resentPackets_fragments,
    RemovedQueued, hrem, foldl_resendNack, SendQueues.sendAll_queued hq]
  constructor
  · rintro ⟨added, hqueued, hsame⟩
    rw [List.append_cancel_left hqueued]
    exact hsame
  · exact fun hsame => ⟨_, rfl, hsame⟩

theorem filter_not_mem_self {α : Type} [DecidableEq α] (l : List α) :
    l.filter (fun a => a ∉ l) = [] := by
  apply List.filter_eq_nil_iff.mpr
  intro a ha
  simpa using ha

theorem filter_not_mem_filter {α : Type} [DecidableEq α] (l : List α) (p : α → Bool) :
    l.filter (fun a => a ∉ l.filter (fun a => !p a)) = l.filter p := by
  apply List.filter_congr
  intro a ha
  cases hp : p a <;> simp [ha, hp]

theorem removed_unselected (n : NackTable) (addr : SockAddr) (sel : Ack → Bool) :
    n.removed (n.unselected addr sel) = n.selected addr sel := by
  refine NackTable.flatMap_peer (g := List.filter sel) rfl (fun p hp haddr => ?_)
    (fun p hp haddr => ?_)
  · rw [NackTable.nacksOf_unselected, Function.update_of_ne haddr, NackTable.nacksOf_of_mem hp]
    exact filter_not_mem_self p.nacks
  · subst addr
    rw [NackTable.nacksOf_unselected, Function.update_self, NackTable.nacksOf_of_mem hp]
    exact filter_not_mem_filter p.nacks sel

theorem removed_resendTimeoutNacks (n : NackTable) (q : SendQueues)
    (timeout : SockAddr → UInt64) (now : Timeval) :
    n.removed (resendTimeoutNacks n q timeout now).1 =
      n.timedOutNacks timeout (timeToUsec now) := by
  rw [NackTable.removed, NackTable.timedOutNacks]
  apply List.flatMap_congr
  intro p hp
  rw [(resendTimeoutNacks_spec n q timeout now).2.2, NackTable.nacksOf_of_mem hp]
  exact filter_not_mem_filter p.nacks _

/-- Both sweeps queue what they remove exactly if `send_data` finds a slot for every fragment. -/
theorem removed_queued_iff (hq : q.Valid) (n : NackTable) :
    (∀ ack, RemovedQueued n (resendOooNacks n q ack).1 q (resendOooNacks n q ack).2.1 ↔
      q.SlotsFor (resentPackets (n.selected ack.d.dest (sentBefore ack)))) ∧
    ∀ timeout now, RemovedQueued n (resendTimeoutNacks n q timeout now).1 q
        (resendTimeoutNacks n q timeout now).2.1 ↔
      q.SlotsFor (resentPackets (n.timedOutNacks timeout (timeToUsec now))) := by
  constructor
  · intro ack
    rw [resendOooNacks_eq]
    exact removedQueued_iff hq (removed_unselected n _ _)
  · intro timeout now
    rw [(resendTimeoutNacks_spec n q timeout now).2.1]
    exact removedQueued_iff hq (removed_resendTimeoutNacks n q timeout now)

end Sweeps

def outstandingFragment : Ack := ⟨1, ⟨0, 1⟩, 0, fragmentTo ⟨1, 1⟩⟩

def oneOutstanding : NackTable := ⟨[⟨⟨1, 1⟩, [outstandingFragment]⟩], 1, List.nodup_singleton _⟩

/-- The retransmission queue is full, the other two are empty. -/
def fullRetr : SendQueues :=
  ⟨Function.update (fun _ => RingBuffer.empty default) .retr ⟨fun _ => default, 0, nRetr⟩, nRetr,
    2 * nSend⟩

theorem fullRetr_valid : fullRetr.Valid := by
  intro q
  cases q with
  | prio => exact RingBuffer.valid_empty (SendQueues.capacity_pos _) _
  | retr => exact ⟨by decide, le_refl nRetr⟩
  | send => exact RingBuffer.valid_empty (SendQueues.capacity_pos _) _

theorem removed_queued_timeout :
    oneOutstanding.timedOutNacks (fun _ => 0) 5 = [outstandingFragment] ∧
      RemovedQueued oneOutstanding
        (resendTimeoutNacks oneOutstanding SendQueues.init (fun _ => 0) ⟨0, 5⟩).1 SendQueues.init
        (resendTimeoutNacks oneOutstanding SendQueues.init (fun _ => 0) ⟨0, 5⟩).2.1 := by
  have hout : oneOutstanding.timedOutNacks (fun _ => 0) 5 = [outstandingFragment] := by
    decide +kernel
  refine ⟨hout, ((removed_queued_iff SendQueues.valid_init oneOutstanding).2 _ _).mpr ?_⟩
  rw [show timeToUsec ⟨0, 5⟩ = 5 from rfl, hout,
    SendQueues.slotsFor_iff_length SendQueues.valid_init (by decide +kernel)]
  decide +kernel

/-- With the retransmission queue full, a fragment that times out leaves the list all the same. -/
theorem removed_unqueued :
    blockFragment outstandingFragment.d = true ∧ fullRetr.Valid ∧
      (resendTimeoutNacks oneOutstanding fullRetr (fun _ => 0) ⟨0, 5⟩).1.nacksOf ⟨1, 1⟩ = [] ∧
      (resendTimeoutNacks oneOutstanding fullRetr (fun _ => 0) ⟨0, 5⟩).2.1 = fullRetr ∧
      ¬ RemovedQueued oneOutstanding
        (resendTimeoutNacks oneOutstanding fullRetr (fun _ => 0) ⟨0, 5⟩).1 fullRetr
        (resendTimeoutNacks oneOutstanding fullRetr (fun _ => 0) ⟨0, 5⟩).2.1 := by
  have hfrag : blockFragment outstandingFragment.d = true := by decide
  have hgone : (resendTimeoutNacks oneOutstanding fullRetr (fun _ => 0) ⟨0, 5⟩).1.nacksOf
      ⟨1, 1⟩ = [] := by decide +kernel
  have hqueues : (resendTimeoutNacks oneOutstanding fullRetr (fun _ => 0) ⟨0, 5⟩).2.1 =
      fullRetr := rfl
  refine ⟨hfrag, fullRetr_valid, hgone, hqueues, fun h => ?_⟩
  have hout : oneOutstanding.timedOutNacks (fun _ => 0) (timeToUsec ⟨0, 5⟩) =
      [outstandingFragment] := by decide +kernel
  obtain ⟨added, hadded, hfragments⟩ := h
  rw [hqueues, List.self_eq_append_right] at hadded
  rw [removed_resendTimeoutNacks, hout, hadded] at hfragments
  exact absurd hfragments (by decide +kernel)

end Bora
