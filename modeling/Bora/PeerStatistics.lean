import Bora.AckCodec
import Bora.AckHistory
import Mathlib.Order.Bounds.Image

/-! The statistics of a peer against the acks that were accepted from it: the shortest times and
the two pairs of counters, of which `release_ack_store` clears one. -/
namespace Bora

open Checked Transition

namespace AcceptedAck

def rtt (e : AcceptedAck) : ℤ := e.received.micros - e.entry.sendtime.micros

/-- From the sending to the receipt by the clock of the peer; negative where that is behind. -/
def stt (e : AcceptedAck) : ℤ := e.ackR.time.micros - e.entry.sendtime.micros

/-- The times come from clocks, and from `append_ack_ts`. -/
structure InTime (e : AcceptedAck) : Prop where
  received : e.received.Normal
  time : e.ackR.time.Normal

theorem micros_store (e : AcceptedAck) :
    e.store.RTT.micros = e.rtt ∧ e.store.STT.micros = e.stt :=
  ⟨micros_timerSub _ _, micros_timerSub _ _⟩

theorem InTime.store {e : AcceptedAck} (hin : e.InTime) (hsent : e.entry.sendtime.Normal) :
    e.store.RTT.Normal ∧ e.store.STT.Normal :=
  ⟨hin.received.timerSub hsent, hin.time.timerSub hsent⟩

end AcceptedAck

def acksFrom (addr : SockAddr) (acks : List AcceptedAck) : List AcceptedAck :=
  acks.filter (fun e => e.source = addr)

/-- The entries that were removed as sent before the packets of these acks. -/
def removedBy (acks : List AcceptedAck) : ℕ := (acks.map AcceptedAck.removed).sum

/-- The record of a peer says what the log does. -/
structure PeerAckStore.Agrees (peer : PeerAckStore) (log : List AckEvent) : Prop where
  minRTT : IsLeast (AcceptedAck.rtt '' {e | e ∈ acksFrom peer.addr (acceptedAcks log)})
    peer.minRTT.micros
  minSTT : IsLeast (AcceptedAck.stt '' {e | e ∈ acksFrom peer.addr (acceptedAcks log)})
    peer.minSTT.micros
  totalAcked : peer.totalAcked.toNat = (acksFrom peer.addr (acceptedAcks log)).length
  totalErrors : peer.totalErrors.toNat = removedBy (acksFrom peer.addr (acceptedAcks log))
  lastAcked : peer.lastAcked = (acksFrom peer.addr (acceptedSince log)).length
  lastError : peer.lastError = removedBy (acksFrom peer.addr (acceptedSince log))

structure AckHistory.ReportsStatistics (s : AckHistory) : Prop where
  agrees : ∀ peer ∈ (getAckStore s.tables.acks).1, peer.Agrees s.log
  recorded : ∀ e ∈ acceptedAcks s.log, e.source ∈
    (getAckStore s.tables.acks).1.map PeerAckStore.addr

structure CountersFit (addr : SockAddr) (log : List AckEvent) : Prop where
  totalAcked : (acksFrom addr (acceptedAcks log)).length < 2 ^ 64
  totalErrors : removedBy (acksFrom addr (acceptedAcks log)) < 2 ^ 64
  lastAcked : (acksFrom addr (acceptedSince log)).length < 2 ^ 31
  lastError : removedBy (acksFrom addr (acceptedSince log)) < 2 ^ 31

/-- Times are in range, counters do not overflow, and no entry of a peer without a record was
sent before the first of its packets that is acknowledged. -/
def AckHistory.CountsAll (s : AckHistory) : AckCall → Prop
  | .append _ sendtime _ => sendtime.Normal
  | .ack ackR received source =>
    ∀ e ∈ s.acceptance ackR received source, e.InTime ∧
      CountersFit source (.accepted e :: s.log) ∧
      (s.tables.acks.findPeerByHost source = none → s.tables.sentEarlier ackR source = [])
  | _ => True

section Lists

variable {addr : SockAddr} {e : AcceptedAck} {acks : List AcceptedAck}

theorem acksFrom_cons_same (h : e.source = addr) :
    acksFrom addr (e :: acks) = e :: acksFrom addr acks := by
  simp [acksFrom, h]

theorem acksFrom_cons_other (h : e.source ≠ addr) :
    acksFrom addr (e :: acks) = acksFrom addr acks := by
  simp [acksFrom, h]

theorem acksFrom_eq_nil (h : ∀ e ∈ acks, e.source ≠ addr) : acksFrom addr acks = [] := by
  simpa [acksFrom] using h

@[simp] theorem removedBy_nil : removedBy [] = 0 := rfl

@[simp] theorem removedBy_cons : removedBy (e :: acks) = e.removed + removedBy acks := by
  simp [removedBy]

theorem isLeast_cons {f : AcceptedAck → ℤ} {m : ℤ} (h : IsLeast (f '' {x | x ∈ acks}) m) :
    IsLeast (f '' {x | x ∈ e :: acks}) (min (f e) m) := by
  have hset : {x | x ∈ e :: acks} = insert e {x | x ∈ acks} := by
    ext x
    simp
  rw [hset, Set.image_insert_eq]
  exact h.insert (f e)

theorem isLeast_one {f : AcceptedAck → ℤ} : IsLeast (f '' {x | x ∈ [e]}) (f e) := by
  simp [IsLeast, lowerBounds]

end Lists

/-- `if (timercmp(&t, &min, <)) min = t` -/
theorem timerLt_min {t m : Timeval} (ht : t.Normal) (hm : m.Normal) :
    (if timerLt t m then t else m).Normal ∧
      (if timerLt t m then t else m).micros = min t.micros m.micros := by
  by_cases hlt : timerLt t m = true
  · rw [if_pos hlt]
    exact ⟨ht, (min_eq_left ((timerLt_iff ht hm).mp hlt).le).symm⟩
  · rw [if_neg hlt]
    exact ⟨hm, (min_eq_right (not_lt.mp (fun h => hlt ((timerLt_iff ht hm).mpr h)))).symm⟩

namespace PeerAckStore

variable {peer : PeerAckStore} {log : List AckEvent} {e : AcceptedAck}

/-- The minima are times that a `timersub` gave. -/
def MinNormal (peer : PeerAckStore) : Prop := peer.minRTT.Normal ∧ peer.minSTT.Normal

theorem acked_mins (peer : PeerAckStore) (store : AckStore) (errors : ℕ) :
    (peer.acked store errors).minRTT =
        (if timerLt store.RTT peer.minRTT then store.RTT else peer.minRTT) ∧
      (peer.acked store errors).minSTT =
        (if timerLt store.STT peer.minSTT then store.STT else peer.minSTT) := by
  unfold acked
  by_cases h : 0 < errors
  · simp only [h, if_true, and_self]
  · simp only [h, if_false, and_self]

theorem acked_counters (peer : PeerAckStore) (store : AckStore) (errors : ℕ) :
    (peer.acked store errors).totalAcked = peer.totalAcked + 1 ∧
      (peer.acked store errors).lastAcked = peer.lastAcked + 1 ∧
      (peer.acked store errors).totalErrors = peer.totalErrors + UInt64.ofNat errors ∧
      (peer.acked store errors).lastError = peer.lastError + errors := by
  unfold acked
  by_cases h : 0 < errors
  · simp only [h, if_true, and_self]
  · obtain rfl : errors = 0 := by omega
    simp

theorem acked_addr (peer : PeerAckStore) (store : AckStore) (errors : ℕ) :
    (peer.acked store errors).addr = peer.addr := (peer.acked_totals store errors).1

theorem Agrees.acked (h : peer.Agrees log) (hn : peer.MinNormal) (haddr : e.source = peer.addr)
    (hin : e.InTime) (hsent : e.entry.sendtime.Normal)
    (hfit : CountersFit peer.addr (.accepted e :: log)) :
    (peer.acked e.store e.removed).Agrees (.accepted e :: log) ∧
      (peer.acked e.store e.removed).MinNormal := by
  obtain ⟨hrtt, hstt⟩ := hin.store hsent
  obtain ⟨hminRTT, hminSTT⟩ := peer.acked_mins e.store e.removed
  obtain ⟨htotal, hlast, herrors, hlastError⟩ := peer.acked_counters e.store e.removed
  obtain ⟨hnRTT, hmRTT⟩ := timerLt_min hrtt hn.1
  obtain ⟨hnSTT, hmSTT⟩ := timerLt_min hstt hn.2
  obtain ⟨hfitAcked, hfitErrors, -, -⟩ := hfit
  simp only [acceptedAcks_accepted, acksFrom_cons_same haddr, removedBy_cons, List.length_cons]
    at hfitAcked hfitErrors
  refine ⟨⟨?_, ?_, ?_, ?_, ?_, ?_⟩, ?_, ?_⟩
  · rw [acked_addr, hminRTT, hmRTT, e.micros_store.1, acceptedAcks_accepted,
      acksFrom_cons_same haddr]
    exact isLeast_cons h.minRTT
  · rw [acked_addr, hminSTT, hmSTT, e.micros_store.2, acceptedAcks_accepted,
      acksFrom_cons_same haddr]
    exact isLeast_cons h.minSTT
  · rw [acked_addr, htotal, acceptedAcks_accepted, acksFrom_cons_same haddr, List.length_cons,
      UInt64.toNat_add, h.totalAcked]
    exact Nat.mod_eq_of_lt hfitAcked
  · rw [acked_addr, herrors, acceptedAcks_accepted, acksFrom_cons_same haddr, removedBy_cons,
      UInt64.toNat_add, h.totalErrors, UInt64.toNat_ofNat']
    omega
  · rw [acked_addr, hlast, acceptedSince_accepted, acksFrom_cons_same haddr, List.length_cons,
      h.lastAcked]
  · rw [acked_addr, hlastError, acceptedSince_accepted, acksFrom_cons_same haddr, removedBy_cons,
      h.lastError, Nat.add_comm]
  · rw [hminRTT]
    exact hnRTT
  · rw [hminSTT]
    exact hnSTT

theorem Agrees.other (h : peer.Agrees log) (haddr : e.source ≠ peer.addr) :
    peer.Agrees (.accepted e :: log) := by
  have hall : acksFrom peer.addr (acceptedAcks (.accepted e :: log)) =
      acksFrom peer.addr (acceptedAcks log) := acksFrom_cons_other haddr
  have hsince : acksFrom peer.addr (acceptedSince (.accepted e :: log)) =
      acksFrom peer.addr (acceptedSince log) := acksFrom_cons_other haddr
  exact ⟨hall ▸ h.minRTT, hall ▸ h.minSTT, hall ▸ h.totalAcked, hall ▸ h.totalErrors,
    hsince ▸ h.lastAcked, hsince ▸ h.lastError⟩

theorem agrees_first (haddr : peer.addr = e.source) (hacked : peer.totalAcked = 1)
    (herrors : peer.totalErrors = 0) (hlast : peer.lastAcked = 1) (hlastError : peer.lastError = 0)
    (hminRTT : peer.minRTT = e.store.RTT) (hminSTT : peer.minSTT = e.store.STT)
    (hnone : ∀ x ∈ acceptedAcks log, x.source ≠ e.source) (hremoved : e.removed = 0) :
    peer.Agrees (.accepted e :: log) := by
  have hall : acksFrom peer.addr (acceptedAcks (.accepted e :: log)) = [e] := by
    rw [acceptedAcks_accepted, haddr, acksFrom_cons_same rfl, acksFrom_eq_nil hnone]
  have hsince : acksFrom peer.addr (acceptedSince (.accepted e :: log)) = [e] := by
    rw [acceptedSince_accepted, haddr, acksFrom_cons_same rfl,
      acksFrom_eq_nil (fun x hx => hnone x (mem_acceptedSince hx))]
  refine ⟨?_, ?_, ?_, ?_, ?_, ?_⟩
  · rw [hall, hminRTT, e.micros_store.1]
    exact isLeast_one
  · rw [hall, hminSTT, e.micros_store.2]
    exact isLeast_one
  · rw [hall, hacked]
    rfl
  · rw [hall, herrors, removedBy_cons, hremoved]
    rfl
  · rw [hsince, hlast]
    rfl
  · rw [hsince, hlastError, removedBy_cons, hremoved]
    rfl

end PeerAckStore

namespace AckHistory

variable {s t : AckHistory}

/-- Every peer has one record, and the times that are subtracted and compared are in range. -/
structure StatisticsInv (s : AckHistory) : Prop where
  statistics : s.ReportsStatistics
  distinct : (s.tables.acks.peeracklist.map PeerAckStore.addr).Nodup
  mins : ∀ peer ∈ s.tables.acks.peeracklist, peer.MinNormal
  sent : ∀ addr, ∀ a ∈ s.tables.nacks.nacksOf addr, a.sendtime.Normal

theorem statisticsInv_init : init.StatisticsInv where
  statistics := ⟨(fun _ h => nomatch h), (fun _ h => nomatch h)⟩
  distinct := List.nodup_nil
  mins := fun _ h => nomatch h
  sent := by
    intro addr a ha
    simp [init, AckState.init, NackTable.nacksOf, NackTable.findByHost, NackTable.init] at ha

theorem StatisticsInv.shrink (h : s.StatisticsInv) (hacks : t.tables.acks = s.tables.acks)
    (hlog : t.log = s.log)
    (hsub : ∀ addr, (t.tables.nacks.nacksOf addr).Sublist (s.tables.nacks.nacksOf addr)) :
    t.StatisticsInv := by
  refine ⟨⟨?_, ?_⟩, ?_, ?_, fun addr a ha => h.sent addr a ((hsub addr).subset ha)⟩
  · rw [hacks, hlog]
    exact h.statistics.agrees
  · rw [hacks, hlog]
    exact h.statistics.recorded
  · rw [hacks]
    exact h.distinct
  · rw [hacks]
    exact h.mins

theorem StatisticsInv.map (h : s.StatisticsInv) {g : PeerAckStore → PeerAckStore}
    (hacks : t.tables.acks.peeracklist = s.tables.acks.peeracklist.map g)
    (hnacks : t.tables.nacks = s.tables.nacks) (haddr : ∀ peer, (g peer).addr = peer.addr)
    (hmins : ∀ peer, peer.MinNormal → (g peer).MinNormal)
    (hagrees : ∀ peer, peer.Agrees s.log → (g peer).Agrees t.log)
    (hlog : acceptedAcks t.log = acceptedAcks s.log) : t.StatisticsInv := by
  have haddrs : t.tables.acks.peeracklist.map PeerAckStore.addr =
      s.tables.acks.peeracklist.map PeerAckStore.addr := by
    rw [hacks, List.map_map]
    exact List.map_congr_left (fun peer _ => haddr peer)
  refine ⟨⟨?_, ?_⟩, ?_, ?_, ?_⟩
  · simp only [getAckStore, hacks]
    exact List.forall_mem_map.mpr (fun peer hp => hagrees peer (h.statistics.agrees peer hp))
  · rw [hlog]
    simp only [getAckStore, haddrs]
    exact h.statistics.recorded
  · rw [haddrs]
    exact h.distinct
  · rw [hacks]
    exact List.forall_mem_map.mpr (fun peer hp => hmins peer (h.mins peer hp))
  · rw [hnacks]
    exact h.sent

theorem ReportsStatistics.source_ne (h : s.ReportsStatistics) {addr : SockAddr}
    (hnew : s.tables.acks.findPeerByHost addr = none) :
    ∀ e ∈ acceptedAcks s.log, e.source ≠ addr := by
  rintro e he rfl
  obtain ⟨peer, hp, haddr⟩ := List.mem_map.mp (h.recorded e he)
  exact List.find?_eq_none.mp hnew peer hp (by simpa using haddr)

theorem StatisticsInv.first (h : s.StatisticsInv) {peer : PeerAckStore} {e : AcceptedAck}
    (hpeers : t.tables.acks.peeracklist = peer :: s.tables.acks.peeracklist)
    (hlog : t.log = .accepted e :: s.log) (haddr : peer.addr = e.source)
    (hnew : s.tables.acks.findPeerByHost e.source = none) (hagrees : peer.Agrees t.log)
    (hmin : peer.MinNormal)
    (hsub : ∀ addr, (t.tables.nacks.nacksOf addr).Sublist (s.tables.nacks.nacksOf addr)) :
    t.StatisticsInv := by
  have hnot : ∀ p ∈ s.tables.acks.peeracklist, p.addr ≠ e.source := by
    intro p hp
    simpa using List.find?_eq_none.mp hnew p hp
  refine ⟨⟨?_, ?_⟩, ?_, ?_, fun addr a ha => h.sent addr a ((hsub addr).subset ha)⟩
  · simp only [getAckStore, hpeers]
    refine List.forall_mem_cons.mpr ⟨hagrees, fun p hp => ?_⟩
    rw [hlog]
    exact (h.statistics.agrees p hp).other (hnot p hp).symm
  · rw [hlog]
    simp only [getAckStore, hpeers, acceptedAcks_accepted]
    refine List.forall_mem_cons.mpr ⟨by simp [haddr], fun x hx => ?_⟩
    exact List.mem_cons_of_mem _ (h.statistics.recorded x hx)
  · rw [hpeers, List.map_cons, List.nodup_cons, haddr]
    refine ⟨fun hmem => ?_, h.distinct⟩
    obtain ⟨p, hp, hpaddr⟩ := List.mem_map.mp hmem
    exact hnot p hp hpaddr
  · rw [hpeers]
    exact List.forall_mem_cons.mpr ⟨hmin, h.mins⟩

theorem StatisticsInv.further (h : s.StatisticsInv) {peer : PeerAckStore} {e : AcceptedAck}
    {g : PeerAckStore → PeerAckStore}
    (hpeers : t.tables.acks.peeracklist =
      FirstMatch.modify (fun p => p.addr = e.source) g s.tables.acks.peeracklist)
    (hlog : t.log = .accepted e :: s.log) (haddr : ∀ p, (g p).addr = p.addr)
    (hfound : s.tables.acks.findPeerByHost e.source = some peer)
    (hagrees : (g peer).Agrees t.log) (hmin : (g peer).MinNormal)
    (hsub : ∀ addr, (t.tables.nacks.nacksOf addr).Sublist (s.tables.nacks.nacksOf addr)) :
    t.StatisticsInv := by
  have hmem : ∀ p ∈ t.tables.acks.peeracklist,
      p = g peer ∨ p ∈ s.tables.acks.peeracklist ∧ p.addr ≠ e.source := fun p hp =>
    FirstMatch.mem_modify_key h.distinct hfound (hpeers ▸ hp)
  have haddrs : t.tables.acks.peeracklist.map PeerAckStore.addr =
      s.tables.acks.peeracklist.map PeerAckStore.addr := by
    rw [hpeers]
    exact FirstMatch.map_modify PeerAckStore.addr (fun p _ => haddr p) _
  refine ⟨⟨?_, ?_⟩, ?_, ?_, fun addr a ha => h.sent addr a ((hsub addr).subset ha)⟩
  · intro p hp
    rcases hmem p hp with rfl | ⟨hp, hne⟩
    · exact hagrees
    · rw [hlog]
      exact (h.statistics.agrees p hp).other hne.symm
  · rw [hlog]
    simp only [getAckStore, haddrs, acceptedAcks_accepted]
    refine List.forall_mem_cons.mpr ⟨?_, h.statistics.recorded⟩
    have hpeer : peer.addr = e.source := by simpa using List.find?_some hfound
    exact hpeer ▸ List.mem_map_of_mem (List.mem_of_find?_eq_some hfound)
  · rw [haddrs]
    exact h.distinct
  · intro p hp
    rcases hmem p hp with rfl | ⟨hp, -⟩
    · exact hmin
    · exact h.mins p hp

theorem StatisticsInv.ack (h : s.StatisticsInv) (hinv : s.Inv) {ackR : AckReceived}
    {received : Timeval} {source : SockAddr} (hok : s.CountsAll (.ack ackR received source))
    (hs : s.step (.ack ackR received source) = some t) : t.StatisticsInv := by
  obtain ⟨-, hsub⟩ := step_ack_nacks hs
  simp only [step] at hs
  cases hinv.ack_cases ackR received source with
  | unfound hnone hsame =>
    rw [hnone, hsame] at hs
    cases hs
    exact h
  | @accepted pop k nacks hpop hplace hsome hack hdest hk =>
    obtain ⟨hin, hfit, hfirst⟩ := hok _ hsome
    have hsent : pop.sendtime.Normal :=
      h.sent source pop (List.mem_of_find?_eq_some (popAck_some hpop).1)
    rw [hsome, hack] at hs
    cases hs
    cases hpeer : s.tables.acks.findPeerByHost source with
    | none =>
      obtain ⟨peer, haddr, hacked, herrors, hlast, hlastError, hminRTT, hminSTT, hpeers⟩ :=
        ackReceived_peers_new (s := { s.tables with nacks := nacks }) pop ackR received hpeer
      obtain ⟨hrtt, hstt⟩ := hin.store hsent
      refine h.first hpeers rfl haddr hpeer ?_ ⟨hminRTT ▸ hrtt, hminSTT ▸ hstt⟩ hsub
      refine PeerAckStore.agrees_first haddr hacked herrors hlast hlastError hminRTT hminSTT
        (h.statistics.source_ne hpeer) ?_
      exact List.length_eq_zero_iff.mpr (hfirst hpeer)
    | some peer =>
      have hpeers := ackReceived_peers_known (s := { s.tables with nacks := nacks }) pop ackR
        received (show s.tables.acks.findPeerByHost source ≠ none by simp [hpeer])
      have hpaddr : peer.addr = source := by simpa using List.find?_some hpeer
      have hmem : peer ∈ s.tables.acks.peeracklist := List.mem_of_find?_eq_some hpeer
      have hagrees := (h.statistics.agrees peer hmem).acked (h.mins peer hmem) hpaddr.symm hin hsent
        (hpaddr.symm ▸ hfit)
      rw [AckState.sentEarlier_known hpop hpeer] at hagrees hsome ⊢
      exact h.further hpeers rfl (fun p => p.acked_addr _ _) hpeer hagrees.1 hagrees.2 hsub

theorem StatisticsInv.append (h : s.StatisticsInv) {d : SendData} {sendtime : Timeval}
    {sleeptime : UInt32} (hok : s.CountsAll (.append d sendtime sleeptime))
    (hs : s.step (.append d sendtime sleeptime) = some t) : t.StatisticsInv := by
  simp only [AckHistory.step] at hs
  split at hs
  · cases hs
  rename_i nacks d' happ
  cases hs
  obtain ⟨-, -, -, hnacks⟩ := appendAck_ok happ
  refine ⟨⟨h.statistics.agrees, h.statistics.recorded⟩, h.distinct, h.mins, ?_⟩
  simp only [hnacks]
  exact (Function.forall_update_iff _ (fun _ (l : List Ack) => ∀ a ∈ l, a.sendtime.Normal)).mpr
    ⟨List.forall_mem_cons.mpr ⟨hok, h.sent d.dest⟩, fun addr _ => h.sent addr⟩

theorem StatisticsInv.step (h : s.StatisticsInv) (hinv : s.Inv) {a : AckCall}
    (hok : s.CountsAll a) (hs : s.step a = some t) : t.StatisticsInv := by
  cases a with
  | append d sendtime sleeptime => exact h.append hok hs
  | ack ackR received source => exact h.ack hinv hok hs
  | timeout now =>
    cases hs
    exact h.shrink rfl rfl (fun addr => (AckState.sweepTimeouts_sublist _ _ addr).2)
  | drain =>
    cases hs
    exact h.map rfl rfl (fun _ => rfl) (fun _ hn => hn)
      (fun _ ha => ⟨ha.minRTT, ha.minSTT, ha.totalAcked, ha.totalErrors, ha.lastAcked,
        ha.lastError⟩) rfl
  | release =>
    cases hs
    exact h.map rfl rfl (fun _ => rfl) (fun _ hn => hn)
      (fun _ ha => ⟨ha.minRTT, ha.minSTT, ha.totalAcked, ha.totalErrors, rfl, rfl⟩) rfl
  | elsewhere queues cookies =>
    cases hs
    exact h.shrink rfl rfl (fun _ => List.Sublist.refl _)

/-- In runs in which every counted ack counts all that it removes. -/
theorem statistics_reported (h : Reaches ackHistory CountsAll s) : s.ReportsStatistics := by
  refine StatisticsInv.statistics ?_
  induction h with
  | init h₀ =>
    subst h₀
    exact statisticsInv_init
  | step hreach hok hs ih => exact ih.step (reaches_inv hreach) hok hs

instance (t : Timeval) : Decidable t.Normal := inferInstanceAs (Decidable (_ ∧ _))

instance (e : AcceptedAck) : Decidable e.InTime :=
  decidable_of_iff (e.received.Normal ∧ e.ackR.time.Normal)
    ⟨fun h => ⟨h.1, h.2⟩, fun h => ⟨h.received, h.time⟩⟩

instance (addr : SockAddr) (log : List AckEvent) : Decidable (CountersFit addr log) :=
  decidable_of_iff ((acksFrom addr (acceptedAcks log)).length < 2 ^ 64 ∧
      removedBy (acksFrom addr (acceptedAcks log)) < 2 ^ 64 ∧
      (acksFrom addr (acceptedSince log)).length < 2 ^ 31 ∧
      removedBy (acksFrom addr (acceptedSince log)) < 2 ^ 31)
    ⟨fun h => ⟨h.1, h.2.1, h.2.2.1, h.2.2.2⟩,
      fun h => ⟨h.totalAcked, h.totalErrors, h.lastAcked, h.lastError⟩⟩

instance (s : AckHistory) : (a : AckCall) → Decidable (s.CountsAll a)
  | .append _ sendtime _ => inferInstanceAs (Decidable sendtime.Normal)
  | .ack ackR received source => inferInstanceAs
      (Decidable (∀ e ∈ s.acceptance ackR received source, e.InTime ∧
        CountersFit source (.accepted e :: s.log) ∧
        (s.tables.acks.findPeerByHost source = none → s.tables.sentEarlier ackR source = [])))
  | .timeout _ | .drain | .release | .elsewhere _ _ => isTrue trivial

def recordsOf (s : AckHistory) : List ((ℤ × ℤ) × (ℕ × ℕ) × ℕ × ℕ) :=
  s.tables.acks.peeracklist.map (fun p => ((p.minRTT.micros, p.minSTT.micros),
    (p.totalAcked.toNat, p.totalErrors.toNat), p.lastAcked, p.lastError))

/-- Three packets; the second acknowledgement overtakes one, and the clock of the peer is behind
by then. -/
theorem statistics_reported_two :
    ∃ s : AckHistory,
      s.recordsOf = [((2500000, -3500000), (2, 1), 1, 1)] ∧ s.ReportsStatistics := by
  have hrun : (ackHistory.runIf CountsAll init
      [.append (fragmentTo ⟨1, 1⟩) ⟨1, 0⟩ 0, .ack ⟨blkAck, 1, 2, 0, 0⟩ ⟨6, 0⟩ ⟨1, 1⟩, .release,
        .append (fragmentTo ⟨1, 1⟩) ⟨7, 0⟩ 0, .append (fragmentTo ⟨1, 1⟩) ⟨8, 500000⟩ 0,
        .ack ⟨blkAck, 3, 5, 0, 0⟩ ⟨11, 0⟩ ⟨1, 1⟩]).map recordsOf =
      some [((2500000, -3500000), (2, 1), 1, 1)] := by decide +kernel
  obtain ⟨s, hs, hrecords⟩ := Option.map_eq_some_iff.mp hrun
  exact ⟨s, hrecords, statistics_reported ((Reaches.init rfl).runIf hs)⟩

def errorsOf (s : AckHistory) : List (ℕ × ℕ) :=
  s.tables.acks.peeracklist.map (fun p =>
    (p.totalErrors.toNat, removedBy (acksFrom p.addr (acceptedAcks s.log))))

/-- The first acknowledgement of a peer overtakes a packet, and no error is counted. -/
theorem statistics_misreported :
    ∃ s : AckHistory, Reachable ackHistory s ∧ s.errorsOf = [(0, 1)] ∧ ¬ s.ReportsStatistics := by
  have hrun : (ackHistory.runIf (fun _ _ => True) init
      [.append (fragmentTo ⟨1, 1⟩) ⟨1, 0⟩ 0, .append (fragmentTo ⟨1, 1⟩) ⟨2, 0⟩ 0,
        .ack (ackOfSeq 2) ⟨7, 0⟩ ⟨1, 1⟩]).map errorsOf = some [(0, 1)] := by decide +kernel
  obtain ⟨s, hs, herrors⟩ := Option.map_eq_some_iff.mp hrun
  refine ⟨s, (Reaches.init rfl).runIf hs, herrors, fun hreports => ?_⟩
  have hmem : (0, 1) ∈ s.errorsOf := by simp [herrors]
  obtain ⟨p, hp, heq⟩ := List.mem_map.mp hmem
  obtain ⟨hnone, hone⟩ := Prod.mk.inj heq
  have htotal := (hreports.agrees p hp).totalErrors
  rw [hnone, hone] at htotal
  cases htotal

end AckHistory

end Bora
