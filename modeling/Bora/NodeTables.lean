import Bora.PacketCopies

/-! What the steps of a node do to the tables for acknowledgements: every step of the whole node
is one of the sender's. -/
namespace Bora

open ByteMemory Checked Processing Transition

section Lists

variable {n : NackTable}

theorem NackTable.unselected_sublist (n : NackTable) (addr : SockAddr) (sel : Ack → Bool)
    (addr' : SockAddr) :
    ((n.unselected addr sel).nacksOf addr').Sublist (n.nacksOf addr') := by
  rw [nacksOf_unselected]
  by_cases h : addr' = addr
  · subst addr'
    rw [Function.update_self]
    exact List.filter_sublist
  · rw [Function.update_of_ne h]

theorem popAck_not_found {n n' : NackTable} {seq : UInt16} {source : SockAddr}
    (h : popAck n seq source = (n', none)) : n' = n := by
  unfold popAck at h
  split at h
  · exact (Prod.mk.inj h).1.symm
  · split at h
    · exact (Prod.mk.inj h).1.symm
    · cases h

theorem popAck_sublist (n : NackTable) (seq : UInt16) (source addr : SockAddr) :
    (popAck n seq source).1.seqNum = n.seqNum ∧
      ((popAck n seq source).1.nacksOf addr).Sublist (n.nacksOf addr) := by
  rcases hp : popAck n seq source with ⟨n', _ | a⟩
  · rw [popAck_not_found hp]
    exact ⟨rfl, List.Sublist.refl _⟩
  · obtain ⟨-, hseq, hnacks⟩ := popAck_some hp
    refine ⟨hseq, ?_⟩
    show (n'.nacksOf addr).Sublist _
    rw [hnacks]
    by_cases h : addr = source
    · subst addr
      rw [Function.update_self]
      exact List.eraseP_sublist
    · rw [Function.update_of_ne h]

theorem AckState.acknowledged_sublist_popAck (s : AckState) (ackR : AckReceived)
    (received : Timeval) (source addr : SockAddr) :
    (s.acknowledged ackR received source).nacks.seqNum =
        (popAck s.nacks ackR.seq source).1.seqNum ∧
      ((s.acknowledged ackR received source).nacks.nacksOf addr).Sublist
        ((popAck s.nacks ackR.seq source).1.nacksOf addr) := by
  rcases hp : popAck s.nacks ackR.seq source with ⟨nacks, _ | pop⟩
  · have hn := popAck_not_found hp
    subst hn
    simp only [acknowledged, hp, List.Sublist.refl, and_self]
  · simp only [acknowledged, hp]
    cases hpeer : s.acks.findPeerByHost source with
    | none =>
      obtain ⟨hn, -⟩ := ackReceived_new { s with nacks := nacks } pop ackR received source hpeer
      rw [hn]
      exact ⟨rfl, NackTable.unselected_sublist nacks _ _ addr⟩
    | some peer =>
      obtain ⟨hn, -⟩ := ackReceived_known { s with nacks := nacks } pop ackR received source
        (by simp [hpeer])
      rw [hn]
      exact ⟨rfl, (NackTable.unselected_sublist _ _ _ addr).trans
        (NackTable.unselected_sublist nacks _ _ addr)⟩

theorem AckState.acknowledged_sublist (s : AckState) (ackR : AckReceived) (received : Timeval)
    (source addr : SockAddr) :
    (s.acknowledged ackR received source).nacks.seqNum = s.nacks.seqNum ∧
      ((s.acknowledged ackR received source).nacks.nacksOf addr).Sublist
        (s.nacks.nacksOf addr) := by
  obtain ⟨hseq, hpopped⟩ := popAck_sublist s.nacks ackR.seq source addr
  obtain ⟨hseq', hrest⟩ := s.acknowledged_sublist_popAck ackR received source addr
  exact ⟨hseq'.trans hseq, hrest.trans hpopped⟩

theorem AckState.sweepTimeouts_sublist (s : AckState) (now : Timeval) (addr : SockAddr) :
    (s.sweepTimeouts now).nacks.seqNum = s.nacks.seqNum ∧
      ((s.sweepTimeouts now).nacks.nacksOf addr).Sublist (s.nacks.nacksOf addr) := by
  obtain ⟨hseq, -, hnacks⟩ := resendTimeoutNacks_spec s.nacks s.queues s.acks.getTimeoutValue now
  refine ⟨hseq, ?_⟩
  rw [show (s.sweepTimeouts now).nacks.nacksOf addr = _ from hnacks addr]
  exact List.filter_sublist

end Lists

namespace Outbox

variable {s t : Outbox}

/-- What a step does to the lists: `append_ack` numbers one packet and puts it first in the list
of its destination, and every other step at most takes entries out. -/
inductive ListMove (s t : Outbox) : Prop
  | append {d : SendData} {tEnd : Timeval} {sleeptime : UInt32}
      (hand : s.hand = some d) (asks : hasBit d.flags needAck = true)
      (recorded : t.recorded = d :: s.recorded)
      (seq : t.tables.nacks.seqNum = s.tables.nacks.seqNum + 1)
      (nacks : t.tables.nacks.nacksOf = Function.update s.tables.nacks.nacksOf d.dest
        (⟨t.tables.nacks.seqNum, tEnd, sleeptime, d⟩ :: s.tables.nacks.nacksOf d.dest))
  | shrink (recorded : t.recorded = s.recorded)
      (seq : t.tables.nacks.seqNum = s.tables.nacks.seqNum)
      (nacks : ∀ addr, (t.tables.nacks.nacksOf addr).Sublist (s.tables.nacks.nacksOf addr))

theorem ListMove.same (hr : t.recorded = s.recorded) (hn : t.tables.nacks = s.tables.nacks) :
    ListMove s t :=
  .shrink hr (by rw [hn]) (fun addr => by rw [hn])

theorem step_listMove {a : OutboxAction} (hs : s.step a = some t) : ListMove s t := by
  cases a with
  | sendData d =>
    cases hs
    exact .same rfl rfl
  | fetch q =>
    obtain ⟨-, queues, d, -, rfl⟩ := step_fetch hs
    exact .same rfl rfl
  | cookie addr =>
    obtain ⟨-, rfl⟩ := step_cookie hs
    exact .same rfl rfl
  | transmit tEnd bandwidth z natPort =>
    obtain ⟨d, nacks, w, hhand, hsend, rfl⟩ := step_transmit hs
    by_cases hask : hasBit d.flags needAck = true
    · obtain ⟨hseq, sleeptime, hnacks⟩ := sendD_recorded hsend hask
      exact .append hhand hask (if_pos hask) hseq hnacks
    · exact .same (if_neg hask) (sendD_unrecorded hsend (by simpa using hask))
  | ack ackR received source =>
    cases hs
    exact .shrink rfl (AckState.acknowledged_sublist _ _ _ _ source).1
      (fun addr => (AckState.acknowledged_sublist _ _ _ _ addr).2)
  | timeout now =>
    cases hs
    exact .shrink rfl (AckState.sweepTimeouts_sublist _ _ default).1
      (fun addr => (AckState.sweepTimeouts_sublist _ _ addr).2)

def Addressed (s : Outbox) : Prop :=
  ∀ addr, ∀ a ∈ s.tables.nacks.nacksOf addr, a.d.dest = addr

theorem addressed_init : init.Addressed := inv_init.addressed

theorem ListMove.addressed (h : s.Addressed) (hm : ListMove s t) : t.Addressed := by
  cases hm with
  | append _ _ _ _ hnacks =>
    simp only [Addressed, hnacks]
    exact (Function.forall_update_iff _ (fun addr (l : List Ack) => ∀ a ∈ l, a.d.dest = addr)).mpr
      ⟨List.forall_mem_cons.mpr ⟨rfl, h _⟩, fun addr _ => h addr⟩
  | shrink _ _ hnacks => exact fun addr a ha => h addr a ((hnacks addr).subset ha)

/-- Tables, hand and record are the same; what was popped and covered may not be. -/
structure Alike (s t : Outbox) : Prop where
  tables : s.tables = t.tables
  hand : s.hand = t.hand
  recorded : s.recorded = t.recorded

theorem Alike.refl (s : Outbox) : Alike s s := ⟨rfl, rfl, rfl⟩

theorem ListMove.congr {t' : Outbox} (h : ListMove s t) (ht : Alike t t') : ListMove s t' := by
  cases h with
  | append hhand hask hr hseq hnacks =>
    rw [ht.tables] at hseq hnacks
    exact .append hhand hask (by rw [← ht.recorded]; exact hr) hseq hnacks
  | shrink hr hseq hnacks =>
    rw [ht.tables] at hseq hnacks
    exact .shrink (by rw [← ht.recorded]; exact hr) hseq hnacks

end Outbox

namespace Shipping

variable {s t : Shipping}

/-- The packets that a step may hand to `send_data`, apart from those it resends. -/
def Hands (s : Shipping) : ShippingAction → SendData → Prop
  | .sendblock id dest i, d => ∃ block, findblock s.rest.cache id = some block ∧
      i < block.fs.fn.toNat ∧ sendPacket block dest i = .ok d
  | .outbox a, d => a = .sendData d ∧ blockFragment d = false
  | .datagram _ _, d => ∃ seq cons tv addr, d = ackFor seq cons tv addr
  | .elsewhere _, _ => False

/-- Every step of the node is one of the sender's, or leaves the sender as it is. -/
theorem step_outbox {a : ShippingAction} (hs : s.step a = some t) :
    Outbox.Alike t.box s.box ∨ ∃ a' box, s.box.step a' = some box ∧ Outbox.Alike t.box box ∧
      ∀ d, a' = .sendData d → s.Hands a d := by
  cases a with
  | sendblock id dest i =>
    obtain ⟨block, d, hfind, hi, hd, rfl⟩ := sendblock_some hs
    refine Or.inr ⟨.sendData d, _, rfl, ⟨rfl, rfl, rfl⟩, ?_⟩
    rintro _ ⟨⟩
    exact ⟨block, hfind, hi, hd⟩
  | outbox a =>
    obtain ⟨hno, box, hbox, rfl⟩ := outbox_some hs
    refine Or.inr ⟨a, box, hbox, Outbox.Alike.refl _, ?_⟩
    rintro d rfl
    exact ⟨rfl, hno⟩
  | datagram data junk =>
    obtain rfl := datagram_some hs
    rcases packetProcessor_tables s.node data junk with ⟨ackR, source, -, h⟩ | ⟨-, h | h⟩
    · refine Or.inr ⟨.ack ackR data.tv source, _, rfl, ⟨h, rfl, rfl⟩, ?_⟩
      rintro d ⟨⟩
    · exact Or.inl ⟨h, rfl, rfl⟩
    · obtain ⟨seq, cons, tv, addr, h⟩ := h
      refine Or.inr ⟨.sendData (ackFor seq cons tv addr), _, rfl, ⟨h, rfl, rfl⟩, ?_⟩
      rintro d ⟨⟩
      exact ⟨seq, cons, tv, addr, rfl⟩
  | elsewhere rest =>
    cases hs
    exact Or.inl ⟨rfl, rfl, rfl⟩

end Shipping

def oneBlock : Shipping := ⟨Outbox.init, { Node.init with cache := [contentBlock ⟨1, 1⟩ [7]] }, []⟩

theorem oneBlock_reachable : Reachable shipping oneBlock := .init ⟨rfl, rfl⟩

end Bora
