import Bora.AckStoreHeap
import Bora.PacketSend
import Bora.PeerStatistics
import Bora.Library.Simulation

/-! The acks between one call of `bwiter.next()` and the next, in memory and on the tables:
`ack_list` is held from the report to the `release_ack_store` of `bws_set`, and every accepted
ack is reported once. -/
namespace Bora

open LinkedList NestedLists Transition

/-- A section under `ack_list`; `report` takes the lock and `release` gives it back. `errors` is
what the sweep of the resent entries returns, `peerAt` and `ackAt` what `malloc` gives. -/
inductive AckReportCall
  | ackReceived (ackS : Ack) (ackR : AckReceived) (received : Timeval) (source : SockAddr)
      (errors peerAt ackAt : ℕ)
  | report
  | release

/-- `held` says that `ack_list` is held; the latest report stands first. -/
structure AckThreads where
  heap : AckStoreHeap
  held : Bool
  reports : List AckReport

structure AckReports where
  table : AckTable
  held : Bool
  reports : List AckReport
  accepted : List AckStore

namespace AckThreads

def init : AckThreads := ⟨AckStoreHeap.init, false, []⟩

/-- The lock is free where it is taken and held where it is given back, and `malloc` gives
addresses that are not in use. -/
def enabled (s : AckThreads) : AckReportCall → Bool
  | .ackReceived _ _ _ _ _ peerAt ackAt =>
    !s.held && (s.heap.peers.read peerAt).isNone && (s.heap.stores.read ackAt).isNone
  | .report => !s.held
  | .release => s.held

def exec (s : AckThreads) : AckReportCall → Option AckThreads
  | .ackReceived ackS ackR received source errors peerAt ackAt => do
    let heap ← s.heap.ackReceived ackS ackR received source errors peerAt ackAt
    -- The pointer that `cookie_received` gets.
    let _ ← heap.storeAt ackAt
    some { s with heap := heap }
  | .report => do
    let (heap, report) ← s.heap.report
    some ⟨heap, true, report :: s.reports⟩
  | .release => do
    let heap ← s.heap.releaseAckStore
    some { s with heap := heap, held := false }

end AckThreads

/-- `none` is the state after a fault: a link that is followed to no cell, a cell that is freed
twice, or a loop without an end. -/
def ackThreads : System (Option AckThreads) AckReportCall where
  init s := s = some AckThreads.init
  step s c := s.bind (fun p => if p.enabled c then some (p.exec c) else none)

def AckReports.init : AckReports := ⟨AckTable.init, false, [], []⟩

def AckReports.step (s : AckReports) : AckReportCall → Option AckReports
  | .ackReceived ackS ackR received source errors _ _ =>
    let store := ackStoreOf ackS ackR received source
    if s.held then none
    else some { s with table := s.table.received store errors, accepted := store :: s.accepted }
  | .report =>
    let (peerStats, lastAck) := getAckStore s.table
    if s.held then none
    else some { s with table := s.table.drain, held := true,
                       reports := ⟨peerStats, lastAck⟩ :: s.reports }
  | .release =>
    if s.held then some { s with table := s.table.releaseAckStore, held := false } else none

def ackReports : System AckReports AckReportCall where
  init s := s = AckReports.init
  step := AckReports.step

def AckTable.listed (t : AckTable) : ℕ := (t.peeracklist.map (fun p => p.ackStore.length)).sum

namespace AckThreads

/-- Behind a report `highest_seq` points nowhere until it is released. -/
def Refines (s : AckThreads) (t : AckReports) : Prop :=
  s.held = t.held ∧ s.reports = t.reports ∧
    if s.held then s.heap.Reported t.table else s.heap.Represents t.table

variable {s : AckThreads} {t : AckReports}

theorem Refines.exec (h : s.Refines t) {c : AckReportCall} (hc : s.enabled c = true) :
    ∃ s' t', s.exec c = some s' ∧ t.step c = some t' ∧ s'.Refines t' := by
  obtain ⟨hheld, hreports, hr⟩ := h
  cases c with
  | ackReceived ackS ackR received source errors peerAt ackAt =>
    simp only [enabled, Bool.and_eq_true, Bool.not_eq_true', Option.isNone_iff_eq_none] at hc
    obtain ⟨⟨hfree, hpeer⟩, hack⟩ := hc
    rw [hfree, if_neg Bool.false_ne_true] at hr
    have hreceived : ∃ h', s.heap.ackReceived ackS ackR received source errors peerAt ackAt =
        some h' ∧ h'.storeAt ackAt = some (ackStoreOf ackS ackR received source) ∧
        h'.Represents (t.table.received (ackStoreOf ackS ackR received source) errors) := by
      cases hfind : t.table.findPeerByHost source with
      | none => exact hr.ackReceived_new hpeer hack hfind
      | some p => exact hr.ackReceived_known hack hfind
    obtain ⟨h', hheap, hstore, hr'⟩ := hreceived
    have ht : t.held = false := hheld ▸ hfree
    refine ⟨{ s with heap := h' },
      { t with table := t.table.received (ackStoreOf ackS ackR received source) errors,
               accepted := ackStoreOf ackS ackR received source :: t.accepted },
      by simp [AckThreads.exec, hheap, hstore], by simp [AckReports.step, ht], hheld, hreports, ?_⟩
    simp only [hfree, Bool.false_eq_true, if_false]
    exact hr'
  | report =>
    have hfree : s.held = false := by simpa [enabled] using hc
    rw [hfree, if_neg Bool.false_ne_true] at hr
    obtain ⟨h', hheap, hr'⟩ := hr.report_eq
    have ht : t.held = false := hheld ▸ hfree
    exact ⟨⟨h', true, ⟨(getAckStore t.table).1, (getAckStore t.table).2⟩ :: s.reports⟩,
      { t with table := t.table.drain, held := true,
               reports := ⟨(getAckStore t.table).1, (getAckStore t.table).2⟩ :: t.reports },
      by simp [AckThreads.exec, hheap], by simp [AckReports.step, ht], rfl, by simp only [hreports],
      hr'⟩
  | release =>
    have hheld' : s.held = true := hc
    rw [hheld', if_pos rfl] at hr
    obtain ⟨h', hheap, hr'⟩ := hr.releaseAckStore_eq
    have ht : t.held = true := hheld ▸ hheld'
    refine ⟨{ s with heap := h', held := false },
      { t with table := t.table.releaseAckStore, held := false },
      by simp [AckThreads.exec, hheap], by simp [AckReports.step, ht], rfl, hreports, ?_⟩
    simpa using hr'

theorem refines_init : init.Refines AckReports.init := ⟨rfl, rfl, AckStoreHeap.represents_init⟩

/-- No fault so far, and the memory holds these tables. -/
def Tracks (s : Option AckThreads) (t : AckReports) : Prop := ∃ p, s = some p ∧ p.Refines t

theorem Tracks.step {s s' : Option AckThreads} {t : AckReports} {c : AckReportCall}
    (h : Tracks s t) (hs : ackThreads.step s c = some s') :
    ∃ t', ackReports.step t c = some t' ∧ Tracks s' t' := by
  obtain ⟨p, rfl, href⟩ := h
  simp only [ackThreads, Option.bind_some] at hs
  split at hs
  · rename_i hc
    obtain ⟨p', t', hp', ht', href'⟩ := href.exec hc
    rw [hp'] at hs
    exact ⟨t', ht', p', (Option.some.inj hs).symm, href'⟩
  · cases hs

/-- In every run neither the lists nor `highest_seq` lead to a fault, and the reports are those
that the same calls have from the tables. A cell is allocated for what is listed and for nothing
else, and for no ack between a report and its release. -/
theorem ackThreads_refine {cs : List AckReportCall} {s : Option AckThreads}
    (h : ackThreads.run (some init) cs = some s) :
    ∃ p t, s = some p ∧ ackReports.run AckReports.init cs = some t ∧ p.Refines t ∧
      p.heap.stores.allocated = t.table.listed ∧
      (p.held = true → p.heap.stores.allocated = 0) ∧
      p.heap.peers.allocated = t.table.peeracklist.length := by
  obtain ⟨t, ht, p, hp, href⟩ :=
    Simulation.run_map (f := id) (fun _ _ _ _ => Tracks.step) ⟨init, rfl, refines_init⟩ h
  rw [List.map_id] at ht
  have hlayout : ∃ ks, p.heap.Layout ks [] ∧ t.table.peeracklist = ks.map AckBranch.peer ∧
      (p.held = true → ∀ k ∈ ks, k.items = []) := by
    obtain ⟨-, -, hr⟩ := href
    split at hr
    · obtain ⟨ks, hl, htable, hempty⟩ := hr
      exact ⟨ks, hl, htable, fun _ => hempty⟩
    · rename_i hheld
      obtain ⟨ks, hl, htable, -⟩ := hr
      exact ⟨ks, hl, htable, fun hheld' => absurd hheld' hheld⟩
  obtain ⟨ks, hl, htable, hempty⟩ := hlayout
  obtain ⟨hstores, hpeers⟩ := hl.lists.allocated
  have hlisted : t.table.listed = (ks.map (fun k => k.items.length)).sum := by
    rw [AckTable.listed, htable, List.map_map]
    congr 1
    refine List.map_congr_left (fun k _ => ?_)
    simp [AckBranch.peer, PeerAckNode.peer]
  refine ⟨p, t, hp, ht, href, hstores.trans hlisted.symm, fun hheld => ?_, ?_⟩
  · rw [hstores]
    refine List.sum_eq_zero_iff_forall_eq_nat.mpr (fun n hn => ?_)
    obtain ⟨k, hk, rfl⟩ := List.mem_map.mp hn
    rw [hempty hheld k hk]
    rfl
  · rw [hpeers, htable, List.length_map]

def counts (s : Option AckThreads) : Option (ℕ × ℕ × List (List (List UInt16))) :=
  s.map (fun p => (p.heap.stores.allocated, p.heap.peers.allocated,
    p.reports.map (fun r => r.lastAck.toList.map AckStore.seq ::
      r.peerStats.map (fun q => q.ackStore.map AckStore.seq))))

def ackOf (addr : SockAddr) (seq : UInt16) : Ack := ⟨seq, ⟨1, 0⟩, 0, fragmentTo addr⟩

/-- Two peers acknowledge three packets before the report and one behind it; the latest is neither
the first nor the last of its list. -/
def fourAcks : List AckReportCall :=
  [.ackReceived (ackOf ⟨1, 1⟩ 4) ⟨blkAck, 4, 5, 0, 0⟩ ⟨6, 0⟩ ⟨1, 1⟩ 0 3 8,
    .ackReceived (ackOf ⟨1, 1⟩ 9) ⟨blkAck, 9, 5, 0, 0⟩ ⟨6, 0⟩ ⟨1, 1⟩ 0 0 1,
    .ackReceived (ackOf ⟨1, 1⟩ 5) ⟨blkAck, 5, 5, 0, 0⟩ ⟨6, 0⟩ ⟨1, 1⟩ 2 0 0,
    .ackReceived (ackOf ⟨2, 1⟩ 7) ⟨blkAck, 7, 5, 0, 0⟩ ⟨6, 0⟩ ⟨2, 1⟩ 0 5 2,
    .report, .release,
    .ackReceived (ackOf ⟨2, 1⟩ 3) ⟨blkAck, 3, 5, 0, 0⟩ ⟨6, 0⟩ ⟨2, 1⟩ 0 0 1]

theorem ackThreads_refine_two :
    ∃ s : Option AckThreads, counts s = some (1, 2, [[[9], [7], [5, 9, 4]]]) ∧
      ∃ p t, s = some p ∧ ackReports.run AckReports.init fourAcks = some t ∧ p.Refines t ∧
        p.heap.stores.allocated = t.table.listed ∧
        (p.held = true → p.heap.stores.allocated = 0) ∧
        p.heap.peers.allocated = t.table.peeracklist.length := by
  have hrun : (ackThreads.run (some init) fourAcks).bind counts =
      some (1, 2, [[[9], [7], [5, 9, 4]]]) := by decide +kernel
  obtain ⟨s, hs, hcounts⟩ := Option.bind_eq_some_iff.mp hrun
  exact ⟨s, hcounts, ackThreads_refine hs⟩

end AckThreads

def storesOf (peers : List PeerAckStore) (addr : SockAddr) : List AckStore :=
  match peers.find? (fun p => p.addr = addr) with
  | none => []
  | some p => p.ackStore

theorem storesOf_map {peers : List PeerAckStore} {g : PeerAckStore → PeerAckStore}
    (haddr : ∀ p, (g p).addr = p.addr) (addr : SockAddr) :
    storesOf (peers.map g) addr =
      ((peers.find? (fun p => p.addr = addr)).map (fun p => (g p).ackStore)).getD [] := by
  have hfind : (peers.map g).find? (fun p => p.addr = addr) =
      (peers.find? (fun p => p.addr = addr)).map g := by
    simp only [List.find?_map, Function.comp_def, haddr]
  rw [storesOf, hfind]
  cases peers.find? (fun p => p.addr = addr) <;> rfl

theorem PeerAckStore.acked_ackStore (peer : PeerAckStore) (store : AckStore) (errors : ℕ) :
    (peer.acked store errors).ackStore = store :: peer.ackStore := by
  unfold acked
  by_cases h : 0 < errors <;> simp [h]

namespace AckTable

theorem received_distinct {t : AckTable} {store : AckStore}
    (h : (t.peeracklist.map PeerAckStore.addr).Nodup) (errors : ℕ) :
    ((t.received store errors).peeracklist.map PeerAckStore.addr).Nodup := by
  unfold received
  split
  · rename_i hnone
    refine List.nodup_cons.mpr ⟨fun hmem => ?_, h⟩
    obtain ⟨p, hp, haddr⟩ := List.mem_map.mp hmem
    exact List.find?_eq_none.mp hnone p hp (by simpa using haddr)
  · rwa [FirstMatch.map_modify _ (fun p _ => p.acked_addr store errors)]

theorem storesOf_received (t : AckTable) (store : AckStore) (errors : ℕ) :
    storesOf (t.received store errors).peeracklist =
      Function.update (storesOf t.peeracklist) store.addr
        (store :: storesOf t.peeracklist store.addr) := by
  funext addr
  unfold received
  split
  · rename_i hnone
    by_cases haddr : addr = store.addr
    · subst addr
      have hold : storesOf t.peeracklist store.addr = [] := by
        have hnone : t.peeracklist.find? (fun p => p.addr = store.addr) = none := hnone
        rw [storesOf, hnone]
      rw [Function.update_self, hold]
      simp [storesOf]
    · rw [Function.update_of_ne haddr]
      simp [storesOf, Ne.symm haddr]
  · rename_i p hp
    have hp : t.peeracklist.find? (fun p => p.addr = store.addr) = some p := hp
    by_cases haddr : addr = store.addr
    · subst addr
      rw [Function.update_self, storesOf, storesOf, hp,
        FirstMatch.find?_modify_same (fun p hp => by simpa [p.acked_addr] using hp), hp]
      exact p.acked_ackStore store errors
    · rw [Function.update_of_ne haddr, storesOf, storesOf, FirstMatch.find?_modify_other]
      intro q _ hq
      have hq : q.addr = store.addr := by simpa using hq
      simp [q.acked_addr, hq, Ne.symm haddr]

theorem storesOf_drain (t : AckTable) (addr : SockAddr) :
    storesOf t.drain.peeracklist addr = [] := by
  refine (storesOf_map (g := fun peer => { peer with ackStore := [] }) (fun _ => rfl) addr).trans ?_
  cases t.peeracklist.find? (fun p => p.addr = addr) <;> rfl

theorem storesOf_releaseAckStore (t : AckTable) (addr : SockAddr) :
    storesOf t.releaseAckStore.peeracklist addr = storesOf t.peeracklist addr := by
  refine (storesOf_map (g := fun peer => { peer with lastAcked := 0, lastError := 0 })
    (fun _ => rfl) addr).trans ?_
  rw [storesOf]
  cases t.peeracklist.find? (fun p => p.addr = addr) <;> rfl

theorem received_window {t : AckTable} (h : ∀ p ∈ t.peeracklist, p.lastAcked = p.ackStore.length)
    (store : AckStore) (errors : ℕ) :
    ∀ p ∈ (t.received store errors).peeracklist, p.lastAcked = p.ackStore.length := by
  intro p hp
  unfold received at hp
  split at hp
  · rcases List.mem_cons.mp hp with rfl | hp
    · rfl
    · exact h p hp
  · rcases FirstMatch.mem_modify hp with hp | ⟨q, hq, rfl⟩
    · exact h p hp
    · have hlast := h q (List.mem_of_find?_eq_some hq)
      rw [(q.acked_counters store errors).2.1, q.acked_ackStore, hlast, List.length_cons]

end AckTable

namespace AckReports

def Windowed (peers : List PeerAckStore) : Prop :=
  (peers.map PeerAckStore.addr).Nodup ∧ ∀ p ∈ peers, p.lastAcked = p.ackStore.length

/-- What was accepted from a peer is listed or was reported. -/
def Accounted (s : AckReports) : Prop :=
  ∀ addr, s.accepted.filter (fun a => a.addr = addr) =
    storesOf s.table.peeracklist addr ++ s.reports.flatMap (fun r => storesOf r.peerStats addr)

structure Inv (s : AckReports) : Prop where
  distinct : (s.table.peeracklist.map PeerAckStore.addr).Nodup
  accounted : s.Accounted
  window : s.held = false → ∀ p ∈ s.table.peeracklist, p.lastAcked = p.ackStore.length
  emptied : s.held = true → ∀ p ∈ s.table.peeracklist, p.ackStore = []
  reports : ∀ r ∈ s.reports, Windowed r.peerStats

variable {s t : AckReports}

theorem Inv.step (h : s.Inv) {c : AckReportCall} (hs : s.step c = some t) : t.Inv := by
  cases c with
  | ackReceived ackS ackR received source errors peerAt ackAt =>
    simp only [AckReports.step] at hs
    split at hs
    · cases hs
    rename_i hfree
    cases hs
    generalize ackStoreOf ackS ackR received source = store
    refine ⟨AckTable.received_distinct h.distinct errors, fun addr => ?_, fun _ => ?_,
      fun hheld => absurd hheld hfree, h.reports⟩
    · rw [AckTable.storesOf_received, List.filter_cons]
      by_cases haddr : addr = store.addr
      · subst addr
        rw [Function.update_self, if_pos (by simp), h.accounted]
        rfl
      · rw [Function.update_of_ne haddr, if_neg (by simpa using Ne.symm haddr), h.accounted]
    · exact AckTable.received_window (h.window (by simpa using hfree)) store errors
  | report =>
    simp only [AckReports.step] at hs
    split at hs
    · cases hs
    rename_i hfree
    cases hs
    refine ⟨?_, fun addr => ?_, fun hheld => Bool.noConfusion hheld, fun _ p hp => ?_, ?_⟩
    · rw [AckTable.drain, List.map_map]
      exact h.distinct
    · rw [AckTable.storesOf_drain, h.accounted]
      rfl
    · obtain ⟨q, -, rfl⟩ := List.mem_map.mp hp
      rfl
    · exact List.forall_mem_cons.mpr
        ⟨⟨h.distinct, h.window (by simpa using hfree)⟩, h.reports⟩
  | release =>
    simp only [AckReports.step] at hs
    split at hs
    · rename_i hheld
      cases hs
      refine ⟨?_, fun addr => ?_, fun _ p hp => ?_, fun hheld => Bool.noConfusion hheld, h.reports⟩
      · rw [AckTable.releaseAckStore, List.map_map]
        exact h.distinct
      · rw [AckTable.storesOf_releaseAckStore]
        exact h.accounted addr
      · obtain ⟨q, hq, rfl⟩ := List.mem_map.mp hp
        simp [h.emptied hheld q hq]
    · cases hs

/-- Every accepted ack is in one report of its peer, or listed for the next one: the reports, with
what is listed, are the accepted acks in their order. In a report no peer stands twice, and
`acked_last` counts its values. -/
theorem acks_reported_once (h : Reachable ackReports s) :
    s.Accounted ∧ ∀ r ∈ s.reports, Windowed r.peerStats := by
  have hinv : s.Inv := by
    apply h.invariant
    · rintro _ rfl
      exact ⟨List.nodup_nil, fun _ => rfl, by simp [init, AckTable.init],
        by simp [init, AckTable.init], by simp [init]⟩
    · exact fun s c t hs _ hstep => hs.step hstep
  exact ⟨hinv.accounted, hinv.reports⟩

theorem acks_reported_once_two :
    ∃ s : AckReports, s.reports.length = 1 ∧ s.accepted.length = 3 ∧ s.Accounted ∧
      ∀ r ∈ s.reports, Windowed r.peerStats := by
  have hrun : (ackReports.runIf (fun _ _ => True) init
      [.ackReceived (AckThreads.ackOf ⟨1, 1⟩ 4) ⟨blkAck, 4, 5, 0, 0⟩ ⟨6, 0⟩ ⟨1, 1⟩ 0 0 0,
        .ackReceived (AckThreads.ackOf ⟨2, 1⟩ 9) ⟨blkAck, 9, 5, 0, 0⟩ ⟨6, 0⟩ ⟨2, 1⟩ 0 0 0,
        .report, .release,
        .ackReceived (AckThreads.ackOf ⟨1, 1⟩ 5) ⟨blkAck, 5, 5, 0, 0⟩ ⟨6, 0⟩ ⟨1, 1⟩ 2 0 0]).map
          (fun s => (s.reports.length, s.accepted.length)) = some (1, 3) := by decide +kernel
  obtain ⟨s, hs, hcounts⟩ := Option.map_eq_some_iff.mp hrun
  obtain ⟨hreports, haccepted⟩ := Prod.mk.inj hcounts
  exact ⟨s, hreports, haccepted, acks_reported_once ((Reaches.init rfl).runIf hs)⟩

end AckReports

end Bora
