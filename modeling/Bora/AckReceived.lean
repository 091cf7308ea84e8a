import Bora.Ack
import Bora.CookieSender

/-! What an accepted acknowledgement does, of ack_received.c: the statistics of its peer, the
sweeps over what was sent to that peer before, and the cookie it may answer. -/
namespace Bora

/-- The fields of `PeerAckStore` that the program uses; the latest ack stands first. -/
structure PeerAckStore where
  addr : SockAddr
  minSTT : Timeval
  minRTT : Timeval
  avgRTT : Timeval
  avgSTT : Timeval
  errRTT : Timeval
  errSTT : Timeval
  lastRTT : UInt64
  ackStore : List AckStore
  totalAcked : UInt64
  totalErrors : UInt64
  lastAcked : ℕ
  lastError : ℕ

structure AckTable where
  peeracklist : List PeerAckStore
  highestSeq : Option AckStore

namespace AckTable

def init : AckTable := ⟨[], none⟩

def findPeerByHost (t : AckTable) (addr : SockAddr) : Option PeerAckStore :=
  t.peeracklist.find? (fun p => p.addr = addr)

/-- The factor 1.2 is exact here; the conversion to `uint64_t` rounds down. -/
def getTimeoutValue (t : AckTable) (addr : SockAddr) : UInt64 :=
  match t.findPeerByHost addr with
  | none => 0
  | some peer =>
    if peer.lastRTT.toNat * 6 > 10000 * 5 then UInt64.ofNat (peer.lastRTT.toNat * 6 / 5) else 10000

def raise (t : AckTable) (store : AckStore) : AckTable :=
  match t.highestSeq with
  | none => { t with highestSeq := some store }
  | some highest => if highest.seq < store.seq then { t with highestSeq := some store } else t

end AckTable

structure AckState where
  acks : AckTable
  nacks : NackTable
  queues : SendQueues
  cookies : Cookies

def ackStoreOf (ackS : Ack) (ackR : AckReceived) (received : Timeval) (source : SockAddr) :
    AckStore where
  addr := source
  sent := ackS.sendtime
  RTT := timerSub received ackS.sendtime
  STT := timerSub ⟨ackR.sec.toInt, ackR.usec.toInt⟩ ackS.sendtime
  seq := ackS.seq
  sleeptime := ackS.sleeptime

/-- The first ack of a peer: its record is made, and what was sent to it before is dropped. -/
def newPeer (s : AckState) (ackS : Ack) (store : AckStore) : AckState :=
  let (nacks, _) := removeOooNacks s.nacks ackS
  let peer : PeerAckStore :=
    { addr := store.addr, minSTT := store.STT, minRTT := store.RTT, avgRTT := store.RTT,
      avgSTT := store.STT, errRTT := ⟨0, 0⟩, errSTT := ⟨0, 0⟩, lastRTT := timeToUsec store.RTT,
      ackStore := [store], totalAcked := 1, totalErrors := 0, lastAcked := 1, lastError := 0 }
  let acks := s.acks.raise store
  { s with nacks := nacks, acks := { acks with peeracklist := peer :: acks.peeracklist } }

def PeerAckStore.acked (peer : PeerAckStore) (store : AckStore) (errors : ℕ) : PeerAckStore :=
  let (prevRTT, prevSTT) := match peer.ackStore.head? with
    | some prev => (prev.RTT, prev.STT)
    | none => (store.RTT, store.STT)
  let peer :=
    { peer with
      minRTT := if timerLt store.RTT peer.minRTT then store.RTT else peer.minRTT
      minSTT := if timerLt store.STT peer.minSTT then store.STT else peer.minSTT
      ackStore := store :: peer.ackStore
      avgRTT := store.RTT
      avgSTT := store.STT
      lastRTT := timeToUsec store.RTT
      totalAcked := peer.totalAcked + 1
      lastAcked := peer.lastAcked + 1 }
  if 0 < errors then
    { peer with errSTT := prevSTT, errRTT := prevRTT,
                totalErrors := peer.totalErrors + UInt64.ofNat errors,
                lastError := peer.lastError + errors }
  else peer

/-- A further ack of a peer, as built with BORA_RETRANSMISSION: covered fragments leave the list,
the others sent before the acknowledged packet are resent. -/
def knownPeer (s : AckState) (ackS : Ack) (ackR : AckReceived) (store : AckStore) : AckState :=
  let (nacks, _) := removeLostAcks s.nacks ackS ackR.cons
  let (nacks, queues, errors) := resendOooNacks nacks s.queues ackS
  let peeracklist := FirstMatch.modify (fun p => p.addr = store.addr)
    (fun p => p.acked store errors) s.acks.peeracklist
  { s with nacks := nacks, queues := queues,
           acks := AckTable.raise { s.acks with peeracklist := peeracklist } store }

def ackReceived (s : AckState) (ackS : Ack) (ackR : AckReceived) (received : Timeval)
    (source : SockAddr) : AckState :=
  let store := ackStoreOf ackS ackR received source
  let s := match s.acks.findPeerByHost source with
    | none => newPeer s ackS store
    | some _ => knownPeer s ackS ackR store
  if ackS.d.flags = needAck ||| cookieMsg then
    { s with cookies := (s.cookies.cookieReceived store).1 }
  else s

section Effects

variable (s : AckState) (ackS : Ack) (ackR : AckReceived) (received : Timeval)
  (source : SockAddr)

theorem ackReceived_new (h : s.acks.findPeerByHost source = none) :
    (ackReceived s ackS ackR received source).nacks =
        s.nacks.unselected ackS.d.dest (sentBefore ackS) ∧
      (ackReceived s ackS ackR received source).queues = s.queues := by
  simp only [ackReceived, h, newPeer, removeOooNacks_eq]
  split <;> exact ⟨rfl, rfl⟩

theorem ackReceived_known (h : s.acks.findPeerByHost source ≠ none) :
    (ackReceived s ackS ackR received source).nacks =
        (s.nacks.unselected ackS.d.dest (covered ackS ackR.cons)).unselected ackS.d.dest
          (sentBefore ackS) ∧
      (ackReceived s ackS ackR received source).queues =
        ((s.nacks.unselected ackS.d.dest (covered ackS ackR.cons)).selected ackS.d.dest
          (sentBefore ackS)).foldl resendNack s.queues := by
  obtain ⟨peer, hp⟩ := Option.ne_none_iff_exists'.mp h
  simp only [ackReceived, hp, knownPeer, removeLostAcks_eq, resendOooNacks_eq]
  split <;> exact ⟨rfl, rfl⟩

end Effects

namespace AckState

/-- `pop_ack`, then `ack_received` for what it found. -/
def acknowledged (s : AckState) (ackR : AckReceived) (received : Timeval) (source : SockAddr) :
    AckState :=
  match popAck s.nacks ackR.seq source with
  | (nacks, some pop) => ackReceived { s with nacks := nacks } pop ackR received source
  | (_, none) => s

def popped (s : AckState) (ackR : AckReceived) (source : SockAddr) : Option Ack :=
  (popAck s.nacks ackR.seq source).2

/-- The entries that `remove_lost_acks` removes; the first ack of a peer does not get there. -/
def lost (s : AckState) (ackR : AckReceived) (source : SockAddr) : List Ack :=
  match popAck s.nacks ackR.seq source, s.acks.findPeerByHost source with
  | (nacks, some pop), some _ => nacks.selected pop.d.dest (covered pop ackR.cons)
  | _, _ => []

def overtaken (s : AckState) (ackR : AckReceived) (source : SockAddr) : List Ack :=
  match popAck s.nacks ackR.seq source, s.acks.findPeerByHost source with
  | (nacks, some pop), some _ =>
    (nacks.unselected pop.d.dest (covered pop ackR.cons)).selected pop.d.dest (sentBefore pop)
  | _, _ => []

def sweepTimeouts (s : AckState) (now : Timeval) : AckState :=
  let (nacks, queues, _) := resendTimeoutNacks s.nacks s.queues s.acks.getTimeoutValue now
  { s with nacks := nacks, queues := queues }

def timedOut (s : AckState) (now : Timeval) : List Ack :=
  s.nacks.timedOutNacks s.acks.getTimeoutValue (timeToUsec now)

section Acknowledged

variable {s : AckState} {ackR : AckReceived} {received : Timeval} {source : SockAddr}

theorem popped_find {pop : Ack} (h : s.popped ackR source = some pop) :
    (s.nacks.nacksOf source).find? (fun a => a.seq = ackR.seq) = some pop := by
  rcases hp : popAck s.nacks ackR.seq source with ⟨nacks, r⟩
  rw [popped, hp] at h
  simp only at h
  subst r
  exact (popAck_some hp).1

theorem lost_mem (hdest : ∀ a ∈ s.nacks.nacksOf source, a.d.dest = source) {a : Ack}
    (h : a ∈ s.lost ackR source) :
    a ∈ s.nacks.nacksOf source ∧
      ∃ pop, s.popped ackR source = some pop ∧ covered pop ackR.cons a = true := by
  rcases hp : popAck s.nacks ackR.seq source with ⟨nacks, r⟩
  unfold lost at h
  split at h
  · rename_i nacks' pop _ hp' _
    obtain ⟨hfind, -, hnacks⟩ := popAck_some hp'
    have hpop := hdest pop (List.mem_of_find?_eq_some hfind)
    obtain ⟨ha, hcov⟩ := List.mem_filter.mp h
    rw [hpop, hnacks, Function.update_self] at ha
    exact ⟨List.mem_of_mem_eraseP ha, pop, by rw [popped, hp'], hcov⟩
  · simp at h

theorem overtaken_mem (hdest : ∀ a ∈ s.nacks.nacksOf source, a.d.dest = source) {a : Ack}
    (h : a ∈ s.overtaken ackR source) : a ∈ s.nacks.nacksOf source := by
  unfold overtaken at h
  split at h
  · rename_i nacks pop _ hp _
    obtain ⟨hfind, -, hnacks⟩ := popAck_some hp
    have hpop := hdest pop (List.mem_of_find?_eq_some hfind)
    obtain ⟨ha, -⟩ := List.mem_filter.mp h
    rw [hpop, NackTable.nacksOf_unselected, Function.update_self, hnacks,
      Function.update_self] at ha
    exact List.mem_of_mem_eraseP (List.mem_filter.mp ha).1
  · simp at h

theorem acknowledged_queues (s : AckState) (ackR : AckReceived) (received : Timeval)
    (source : SockAddr) :
    (s.acknowledged ackR received source).queues =
      (s.overtaken ackR source).foldl resendNack s.queues := by
  rcases hp : popAck s.nacks ackR.seq source with ⟨nacks, _ | pop⟩
  · simp [acknowledged, overtaken, hp]
  · cases hfind : s.acks.findPeerByHost source with
    | none =>
      simp [acknowledged, overtaken, hp, hfind,
        ackReceived_new { s with nacks := nacks } pop ackR received source hfind]
    | some peer =>
      simp [acknowledged, overtaken, hp, hfind,
        ackReceived_known { s with nacks := nacks } pop ackR received source (by simp [hfind])]

variable (ackR received) in
theorem acknowledged_nacks (hdest : ∀ a ∈ s.nacks.nacksOf source, a.d.dest = source) :
    (s.acknowledged ackR received source).nacks.seqNum = s.nacks.seqNum ∧
      ∀ addr, ∀ a ∈ (s.acknowledged ackR received source).nacks.nacksOf addr,
        a ∈ s.nacks.nacksOf addr := by
  rcases hp : popAck s.nacks ackR.seq source with ⟨nacks, _ | pop⟩
  · simp [acknowledged, hp]
  obtain ⟨hfind, hseq, hnacks⟩ := popAck_some hp
  have hpop := hdest pop (List.mem_of_find?_eq_some hfind)
  have hpopped : ∀ addr, ∀ a ∈ nacks.nacksOf addr, a ∈ s.nacks.nacksOf addr := by
    rw [hnacks]
    exact (Function.forall_update_iff _ (fun addr l => ∀ a ∈ l, a ∈ s.nacks.nacksOf addr)).mpr
      ⟨fun _ ha => List.mem_of_mem_eraseP ha, fun _ _ _ ha => ha⟩
  have hack : s.acknowledged ackR received source =
      ackReceived { s with nacks := nacks } pop ackR received source := by
    simp only [acknowledged, hp]
  rw [hack]
  cases hpeer : s.acks.findPeerByHost source with
  | none =>
    obtain ⟨hn, -⟩ := ackReceived_new { s with nacks := nacks } pop ackR received source hpeer
    rw [hn]
    refine ⟨hseq, fun addr a ha => hpopped addr a (NackTable.mem_unselected addr a ha)⟩
  | some peer =>
    obtain ⟨hn, -⟩ := ackReceived_known { s with nacks := nacks } pop ackR received source
      (by simp [hpeer])
    rw [hn]
    exact ⟨hseq, fun addr a ha =>
      hpopped addr a (NackTable.mem_unselected addr a (NackTable.mem_unselected addr a ha))⟩

variable (ackR received) in
/-- An outstanding entry stays, or leaves in one of the four ways an ack has. -/
theorem acknowledged_kept (hdest : ∀ a ∈ s.nacks.nacksOf source, a.d.dest = source)
    {addr : SockAddr} {a : Ack} (ha : a ∈ s.nacks.nacksOf addr) :
    a ∈ (s.acknowledged ackR received source).nacks.nacksOf addr ∨
      addr = source ∧ (s.popped ackR source = some a ∨ a ∈ s.lost ackR source ∨
        a ∈ s.overtaken ackR source ∨
        s.acks.findPeerByHost source = none ∧
          ∃ pop, s.popped ackR source = some pop ∧ sentBefore pop a = true) := by
  rcases hp : popAck s.nacks ackR.seq source with ⟨nacks, _ | pop⟩
  · left
    simpa only [acknowledged, hp] using ha
  obtain ⟨hfind, -, hnacks⟩ := popAck_some hp
  have hpop := hdest pop (List.mem_of_find?_eq_some hfind)
  have hpopped : s.popped ackR source = some pop := by rw [popped, hp]
  have hack : s.acknowledged ackR received source =
      ackReceived { s with nacks := nacks } pop ackR received source := by
    simp only [acknowledged, hp]
  have hstep : a ∈ nacks.nacksOf addr ∨ addr = source ∧ pop = a := by
    rw [hnacks]
    by_cases haddr : addr = source
    · subst addr
      rw [Function.update_self]
      by_cases hself : pop = a
      · exact Or.inr ⟨rfl, hself⟩
      · exact Or.inl (FirstMatch.mem_eraseP_of_ne ha (by simpa [hfind] using hself))
    · rw [Function.update_of_ne haddr]
      exact Or.inl ha
  rcases hstep with hstay | ⟨haddr, rfl⟩
  · rw [hack]
    cases hpeer : s.acks.findPeerByHost source with
    | none =>
      obtain ⟨hn, -⟩ := ackReceived_new { s with nacks := nacks } pop ackR received source hpeer
      rw [hn]
      rcases NackTable.unselected_or_selected hstay with h | ⟨haddr, h⟩
      · exact Or.inl h
      · exact Or.inr ⟨haddr.trans hpop, Or.inr (Or.inr (Or.inr
          ⟨rfl, pop, hpopped, (List.mem_filter.mp h).2⟩))⟩
    | some peer =>
      obtain ⟨hn, -⟩ := ackReceived_known { s with nacks := nacks } pop ackR received source
        (by simp [hpeer])
      rw [hn]
      have hlost : s.lost ackR source = nacks.selected pop.d.dest (covered pop ackR.cons) := by
        simp only [lost, hp, hpeer]
      have hovertaken : s.overtaken ackR source = (nacks.unselected pop.d.dest
          (covered pop ackR.cons)).selected pop.d.dest (sentBefore pop) := by
        simp only [overtaken, hp, hpeer]
      rcases NackTable.unselected_or_selected hstay with h | ⟨haddr, h⟩
      · rcases NackTable.unselected_or_selected h with h | ⟨haddr, h⟩
        · exact Or.inl h
        · exact Or.inr ⟨haddr.trans hpop, Or.inr (Or.inr (Or.inl (by rw [hovertaken]; exact h)))⟩
      · exact Or.inr ⟨haddr.trans hpop, Or.inr (Or.inl (by rw [hlost]; exact h))⟩
  · exact Or.inr ⟨haddr, Or.inl hpopped⟩

end Acknowledged

end AckState

end Bora
