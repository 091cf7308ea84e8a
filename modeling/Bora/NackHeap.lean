import Bora.Ack
import Bora.Library.NestedLists

/-! The lists of ack.c as they stand in memory: nodes that are allocated, linked by the macros
of queue.h and freed. The calls on them do to the tables of the outstanding packets what the
model without memory says. -/
namespace Bora

open ByteMemory FirstMatch LinkedList NestedLists

/-- A `Nack_peer` node; `nacks` is the head of its list. -/
structure NackPeerNode where
  addr : SockAddr
  nacks : Link

structure NackHeap where
  peers : Memory NackPeerNode
  acks : Memory Ack
  nacklist : Link
  seqNum : UInt16

def markResent (cur : Ack) : Ack :=
  let d := cur.d.setFlags (cur.d.flags &&& blockMaskConsecutive)
  { cur with d := if hasBit d.flags blkBlockAck then d.setFlags (d.flags ||| blockRetransmission)
                  else d }

/-- `send_data(cur->d)`, behind the same test. -/
def queueResent (q : SendQueues) (cur : Ack) : SendQueues :=
  if hasBit cur.d.flags blkBlockAck then (q.sendData cur.d).1 else q

namespace NackHeap

def init : NackHeap := ⟨Memory.empty, Memory.empty, none, 0⟩

def findByHost (h : NackHeap) (addr : SockAddr) : Option Link :=
  find h.peers (fun p => p.addr = addr) h.nacklist

/-- The node of the peer at `addr`, inserted at the address `peerAt` of `malloc` where it is not
found. -/
def ensurePeer (h : NackHeap) (addr : SockAddr) (peerAt : ℕ) : Option (NackHeap × ℕ) := do
  match ← h.findByHost addr with
  | none =>
    let peers := h.peers.put peerAt (some ⟨⟨addr, none⟩, h.nacklist⟩)
    some ({ h with peers := peers, nacklist := some peerAt }, peerAt)
  | some peer => some (h, peer)

/-- The lists after `append_ack`; `ackAt` is what `malloc` gives for the entry. -/
def appendAck (h : NackHeap) (d : SendData) (sendtime : Timeval) (sleeptime : UInt32)
    (peerAt ackAt : ℕ) : Option NackHeap := do
  let h := { h with seqNum := h.seqNum + 1 }
  let (h, peer) ← h.ensurePeer d.dest peerAt
  let c ← h.peers.read peer
  let acks := h.acks.put ackAt (some ⟨⟨h.seqNum, sendtime, sleeptime, d⟩, c.val.nacks⟩)
  let peers ← h.peers.setVal peer { c.val with nacks := some ackAt }
  some { h with peers := peers, acks := acks }

/-- What is returned stays allocated. -/
def popAck (h : NackHeap) (seq : UInt16) (source : SockAddr) : Option (NackHeap × Link) := do
  match ← h.findByHost source with
  | none => some (h, none)
  | some peer =>
    let c ← h.peers.read peer
    match ← find h.acks (fun a => a.seq = seq) c.val.nacks with
    | none => some (h, none)
    | some ret =>
      let (acks, head) ← remove h.acks c.val.nacks ret
      let peers ← h.peers.setVal peer { c.val with nacks := head }
      some ({ h with peers := peers, acks := acks }, some ret)

def sweepNode {σ : Type} (h : NackHeap) (st : σ) (peer : ℕ) (sel : Ack → Bool) (upd : Ack → Ack)
    (act : σ → Ack → σ) : Option (NackHeap × σ × ℕ) := do
  let c ← h.peers.read peer
  let s ← sweep sel upd act none st h.acks c.val.nacks
  let peers ← h.peers.setVal peer { c.val with nacks := s.head }
  some ({ h with peers := peers, acks := s.mem }, s.st, s.ret)

def sweepPeer {σ : Type} (h : NackHeap) (st : σ) (addr : SockAddr) (sel : Ack → Bool)
    (upd : Ack → Ack) (act : σ → Ack → σ) : Option (NackHeap × σ × ℕ) := do
  match ← h.findByHost addr with
  | none => some (h, st, 0)
  | some peer => h.sweepNode st peer sel upd act

/-- `ack` is the address of the acknowledged entry. -/
def removeOooNacks (h : NackHeap) (ack : ℕ) : Option (NackHeap × ℕ) := do
  let a ← h.acks.read ack
  let (h, _, ret) ← h.sweepPeer () a.val.d.dest (sentBefore a.val) id (fun _ _ => ())
  some (h, ret)

def removeLostAcks (h : NackHeap) (ack : ℕ) (cons : UInt16) : Option (NackHeap × ℕ) := do
  let a ← h.acks.read ack
  let (h, _, _) ← h.sweepPeer () a.val.d.dest (covered a.val cons) id (fun _ _ => ())
  some (h, 0)

def resendOooNacks (h : NackHeap) (q : SendQueues) (ack : ℕ) :
    Option (NackHeap × SendQueues × ℕ) := do
  let a ← h.acks.read ack
  h.sweepPeer q a.val.d.dest (sentBefore a.val) markResent queueResent

def resendTimeoutPeer (timeout : SockAddr → UInt64) (nowUsec : UInt64)
    (s : NackHeap × SendQueues × ℕ) (peer : ℕ) : Option (NackHeap × SendQueues × ℕ) := do
  let c ← s.1.peers.read peer
  let (h, q, ret) ← s.1.sweepNode s.2.1 peer (timedOut nowUsec (timeout c.val.addr)) markResent
    queueResent
  some (h, q, s.2.2 + ret)

def resendTimeoutNacks (h : NackHeap) (q : SendQueues) (timeout : SockAddr → UInt64)
    (now : Timeval) : Option (NackHeap × SendQueues × ℕ) :=
  foreach (fun s => s.1.peers) (resendTimeoutPeer timeout (timeToUsec now)) (h, q, 0) h.nacklist

def getNNack (h : NackHeap) : Option ℕ :=
  fold h.peers (fun ret n => fold h.acks (fun ret _ => some (ret + 1)) ret n.nacks) 0 h.nacklist

end NackHeap

abbrev Holder := Branch SockAddr Ack

namespace Holder

def peer (k : Holder) : NackPeer := ⟨k.val, k.items.map Prod.snd⟩

def sweep (sel : Ack → Bool) (k : Holder) : Holder :=
  { k with items := k.items.filter (fun x => !sel x.2) }

def selected (sel : Ack → Bool) (k : Holder) : List Ack := (peer k).nacks.filter sel

theorem sweep_nacks (sel : Ack → Bool) (k : Holder) :
    (peer (sweep sel k)).nacks = (peer k).nacks.filter (fun a => !sel a) := by
  simp only [sweep, peer, List.filter_map]
  rfl

end Holder

/-- The nodes of the peers and of their entries, and the entries in `loose`, are all that is
allocated. -/
abbrev NackHeap.Layout (h : NackHeap) (ks : List Holder) (loose : List (ℕ × Ack)) : Prop :=
  NestedLists.Layout NackPeerNode.mk h.peers h.acks h.nacklist ks loose

theorem setFlags_mask_flags (d : SendData) (mask : UInt8) :
    (d.setFlags (d.flags &&& mask)).flags = d.flags &&& mask := by
  rcases Nat.eq_zero_or_pos d.length with hempty | hpos
  · have hdata : d.data = [] := List.length_eq_zero_iff.mp hempty
    simp [SendData.flags, SendData.setFlags, byteAt, hdata]
  · exact SendData.setFlags_flags d _ hpos

theorem queueResent_markResent (q : SendQueues) (cur : Ack) :
    queueResent q (markResent cur) = resendNack q cur := by
  have hor : ∀ f : UInt8, hasBit f blkBlockAck = true →
      hasBit (f ||| blockRetransmission) blkBlockAck = true :=
    flags_forall (by decide +kernel)
  have hmask := setFlags_mask_flags cur.d blockMaskConsecutive
  cases hbit : hasBit (cur.d.flags &&& blockMaskConsecutive) blkBlockAck with
  | false => simp [queueResent, markResent, resendNack, resent, hmask, hbit]
  | true =>
    have hpos : 0 < cur.d.length := by
      by_contra hzero
      have hdata : cur.d.data = [] := List.length_eq_zero_iff.mp (Nat.eq_zero_of_not_pos hzero)
      simp [SendData.flags, byteAt, hdata, hasBit] at hbit
    have hflags := SendData.setFlags_flags cur.d
      (cur.d.flags &&& blockMaskConsecutive ||| blockRetransmission) hpos
    have htwice : (cur.d.setFlags (cur.d.flags &&& blockMaskConsecutive)).setFlags
        (cur.d.flags &&& blockMaskConsecutive ||| blockRetransmission) =
        cur.d.setFlags (cur.d.flags &&& blockMaskConsecutive ||| blockRetransmission) := by
      simp [SendData.setFlags]
    simp [queueResent, markResent, resendNack, resent, hmask, hbit, htwice, hflags, hor]

namespace NackHeap

variable {h : NackHeap} {ks ls : List Holder} {k : Holder} {loose loose' : List (ℕ × Ack)}
  {addr : SockAddr}

theorem layout_init : init.Layout [] [] := Layout.empty _

theorem findByHost_eq (hl : h.Layout ks loose) (addr : SockAddr) :
    h.findByHost addr = some ((ks.find? (fun k => k.val = addr)).map Branch.node) :=
  hl.find_eq (p := fun n => decide (n.addr = addr)) (q := fun a => decide (a = addr))
    (fun _ _ => rfl)

theorem sweepNode_eq {σ : Type} (hl : h.Layout (ks ++ k :: ls) loose) (st : σ)
    (sel : Ack → Bool) (upd : Ack → Ack) (act : σ → Ack → σ) :
    ∃ h', h.sweepNode st k.node sel upd act =
        some (h', ((Holder.selected sel k).map upd).foldl act st,
          (Holder.selected sel k).length) ∧
      h'.Layout (ks ++ Holder.sweep sel k :: ls) loose ∧ h'.seqNum = h.seqNum := by
  obtain ⟨acks, hsweep, hacks⟩ := hl.focus.sweep_eq sel upd act none st
  have hnone : Holds.heldCells sel upd none k.items = [] := by simp [Holds.heldCells]
  rw [hnone, List.nil_append] at hacks
  obtain ⟨peers, hset, hnew⟩ := hl.setBranch k.val hacks
  refine ⟨⟨peers, acks, h.nacklist, h.seqNum⟩, ?_, hnew, rfl⟩
  have hselected :
      Holder.selected sel k = (k.items.filter (fun x => sel x.2)).map Prod.snd := by
    simp only [Holder.selected, Holder.peer, List.filter_map]
    rfl
  simp only [sweepNode, hl.read_node, Option.bind_eq_bind, Option.bind_some, hsweep, hset,
    hselected, List.map_map, List.length_map]
  rfl

/-- The memory holds the lists of the table. -/
def Represents (h : NackHeap) (n : NackTable) (loose : List (ℕ × Ack)) : Prop :=
  ∃ ks, h.Layout ks loose ∧ n.nacklist = ks.map Holder.peer ∧ h.seqNum = n.seqNum

variable {n : NackTable}

theorem find_of_holders (hn : n.nacklist = ks.map Holder.peer) (addr : SockAddr) :
    n.findByHost addr = (ks.find? (fun k => k.val = addr)).map Holder.peer := by
  rw [NackTable.findByHost, hn, List.find?_map]
  rfl

theorem modifyNacks_of_holders (hn : n.nacklist = (ks ++ k :: ls).map Holder.peer)
    (hks : ∀ y ∈ ks, y.val ≠ k.val) (g : List Ack → List Ack) :
    (n.modifyNacks k.val g).nacklist =
      ks.map Holder.peer ++
        { Holder.peer k with nacks := g (Holder.peer k).nacks } :: ls.map Holder.peer := by
  have hmod : (n.modifyNacks k.val g).nacklist =
      FirstMatch.modify (fun p => p.addr = k.val) (fun p => { p with nacks := g p.nacks })
        n.nacklist := rfl
  rw [hmod, hn, List.map_append, List.map_cons]
  refine FirstMatch.modify_append _ _ ?_ (by simp [Holder.peer])
  intro p hp
  obtain ⟨y, hy, rfl⟩ := List.mem_map.mp hp
  exact decide_eq_false (hks y hy)

theorem split_of_host (hk : ks.find? (fun k => k.val = addr) = some k) :
    k.val = addr ∧ ∃ front back, ks = front ++ k :: back ∧ ∀ y ∈ front, y.val ≠ k.val := by
  obtain ⟨hval, front, back, hks, hfront⟩ :=
    split_of_find (q := fun a => decide (a = addr)) hk
  have hval : k.val = addr := of_decide_eq_true hval
  exact ⟨hval, front, back, hks, fun y hy => hval ▸ of_decide_eq_false (hfront y hy)⟩

theorem Represents.sweepPeer_eq {σ : Type} (hr : h.Represents n loose) (st : σ)
    (addr : SockAddr) (sel : Ack → Bool) (upd : Ack → Ack) (act : σ → Ack → σ) :
    ∃ h', h.sweepPeer st addr sel upd act =
        some (h', ((n.selected addr sel).map upd).foldl act st, (n.selected addr sel).length) ∧
      h'.Represents (n.unselected addr sel) loose := by
  obtain ⟨ks, hl, hn, hseq⟩ := hr
  have hfind := find_of_holders hn addr
  cases hk : ks.find? (fun k => k.val = addr) with
  | none =>
    rw [hk] at hfind
    have hnone : n.selected addr sel = [] := by
      simp [NackTable.selected, NackTable.nacksOf, hfind]
    have hsame : n.unselected addr sel = n := by
      have hno : n.nacklist.find? (fun p => p.addr = addr) = none := hfind
      simp [NackTable.unselected, NackTable.modifyNacks, FirstMatch.modify_of_find?_none _ hno]
    refine ⟨h, ?_, by rw [hsame]; exact ⟨ks, hl, hn, hseq⟩⟩
    simp [sweepPeer, findByHost_eq hl, hk, hnone]
  | some k =>
    rw [hk] at hfind
    obtain ⟨rfl, front, back, rfl, hfront⟩ := split_of_host hk
    obtain ⟨h', hsweep, hl', hseq'⟩ := sweepNode_eq hl st sel upd act
    have hselected : n.selected k.val sel = k.selected sel := by
      simp [NackTable.selected, NackTable.nacksOf, hfind, Holder.selected]
    refine ⟨h', ?_, _, hl', ?_, hseq'.trans hseq⟩
    · rw [hselected, ← hsweep]
      simp [sweepPeer, findByHost_eq hl, hk]
    · rw [NackTable.unselected, modifyNacks_of_holders hn hfront, List.map_append, List.map_cons]
      congr 2
      rw [← k.sweep_nacks sel]
      rfl

theorem Represents.popAck_eq (hr : h.Represents n loose) (seq : UInt16) (source : SockAddr) :
    ∃ h' popped, h.popAck seq source = some (h', link popped) ∧
      popped.map Prod.snd = (Bora.popAck n seq source).2.toList ∧
      h'.Represents (Bora.popAck n seq source).1 (popped ++ loose) := by
  obtain ⟨ks, hl, hn, hseq⟩ := hr
  have hfind := find_of_holders hn source
  cases hk : ks.find? (fun k => k.val = source) with
  | none =>
    rw [hk] at hfind
    refine ⟨h, [], by simp [popAck, findByHost_eq hl, hk], ?_, ?_⟩
    · simp [Bora.popAck, hfind]
    · simp only [Bora.popAck, hfind]
      exact ⟨ks, hl, hn, hseq⟩
  | some k =>
    rw [hk] at hfind
    obtain ⟨rfl, front, back, rfl, hfront⟩ := split_of_host hk
    have hack : (Holder.peer k).nacks.find? (fun a => a.seq = seq) =
        (k.items.find? (fun x => x.2.seq = seq)).map Prod.snd := by
      rw [Holder.peer, List.find?_map]
      rfl
    have hheap := hl.focus.find_eq List.mem_cons_self (fun a => decide (a.seq = seq))
    cases hx : k.items.find? (fun x => x.2.seq = seq) with
    | none =>
      rw [hx] at hack hheap
      refine ⟨h, [], ?_, ?_, ?_⟩
      · simp [popAck, findByHost_eq hl, hk, hl.read_node, hheap]
      · simp [Bora.popAck, hfind, hack]
      · simp only [Bora.popAck, hfind, Option.map_some, hack, Option.map_none]
        exact ⟨_, hl, hn, hseq⟩
    | some x =>
      rw [hx] at hack hheap
      obtain ⟨hxseq, ys, zs, hnacks, hys⟩ := List.find?_eq_some_iff_append.mp hx
      have hfocus := hl.focus
      rw [hnacks] at hfocus hheap
      obtain ⟨acks, hremove, hacks⟩ := hfocus.remove_eq
      obtain ⟨peers, hset, hl'⟩ := hl.setBranch k.val hacks
      refine ⟨⟨peers, acks, h.nacklist, h.seqNum⟩, [x], ?_, ?_, ⟨_, hl', ?_, ?_⟩⟩
      · simp only [popAck, findByHost_eq hl, hk, hl.read_node, hheap, Option.map_some,
          Option.bind_eq_bind, Option.bind_some, hnacks, hremove, hset]
        rfl
      · simp [Bora.popAck, hfind, hack]
      · have herase : (k.items.map Prod.snd).eraseP (fun a => a.seq = seq) =
            (ys ++ zs).map Prod.snd := by
          rw [hnacks, List.eraseP_map, List.eraseP_append_right _ (by simpa using hys),
            List.eraseP_cons_of_pos (by simpa using hxseq)]
        simp only [Bora.popAck, hfind, Option.map_some, hack]
        rw [modifyNacks_of_holders hn hfront, List.map_append, List.map_cons, Holder.peer, herase]
        rfl
      · simp only [Bora.popAck, hfind, Option.map_some, hack]
        exact hseq

theorem Represents.read_loose (hr : h.Represents n loose) {x : ℕ × Ack} (hx : x ∈ loose) :
    ∃ l, h.acks.read x.1 = some ⟨x.2, l⟩ := by
  obtain ⟨ks, hl, -⟩ := hr
  exact hl.inner.apart x hx

theorem Represents.free_eq {x : ℕ × Ack} (hr : h.Represents n (x :: loose)) :
    ∃ acks, h.acks.free x.1 = some acks ∧ { h with acks := acks }.Represents n loose := by
  obtain ⟨ks, hl, hn, hseq⟩ := hr
  obtain ⟨acks, hfree, hacks⟩ := hl.inner.free_eq
  exact ⟨acks, hfree, ks, ⟨hl.head, hl.outer, hacks⟩, hn, hseq⟩

theorem Represents.removeOooNacks_eq (hr : h.Represents n loose) {x : ℕ × Ack} (hx : x ∈ loose) :
    ∃ h', h.removeOooNacks x.1 = some (h', (Bora.removeOooNacks n x.2).2) ∧
      h'.Represents (Bora.removeOooNacks n x.2).1 loose := by
  obtain ⟨l, hread⟩ := hr.read_loose hx
  obtain ⟨h', hsweep, hr'⟩ :=
    hr.sweepPeer_eq () x.2.d.dest (sentBefore x.2) id (fun _ _ => ())
  rw [Bora.removeOooNacks_eq]
  exact ⟨h', by simp [removeOooNacks, hread, hsweep], hr'⟩

theorem Represents.removeLostAcks_eq (hr : h.Represents n loose) {x : ℕ × Ack} (hx : x ∈ loose)
    (cons : UInt16) :
    ∃ h', h.removeLostAcks x.1 cons = some (h', 0) ∧
      h'.Represents (Bora.removeLostAcks n x.2 cons).1 loose := by
  obtain ⟨l, hread⟩ := hr.read_loose hx
  obtain ⟨h', hsweep, hr'⟩ :=
    hr.sweepPeer_eq () x.2.d.dest (covered x.2 cons) id (fun _ _ => ())
  rw [Bora.removeLostAcks_eq]
  exact ⟨h', by simp [removeLostAcks, hread, hsweep], hr'⟩

theorem foldl_queueResent (acks : List Ack) (q : SendQueues) :
    (acks.map markResent).foldl queueResent q = acks.foldl resendNack q := by
  simp only [List.foldl_map, queueResent_markResent]

theorem Represents.resendOooNacks_eq (hr : h.Represents n loose) {x : ℕ × Ack} (hx : x ∈ loose)
    (q : SendQueues) :
    ∃ h', h.resendOooNacks q x.1 = some (h', (Bora.resendOooNacks n q x.2).2) ∧
      h'.Represents (Bora.resendOooNacks n q x.2).1 loose := by
  obtain ⟨l, hread⟩ := hr.read_loose hx
  obtain ⟨h', hsweep, hr'⟩ :=
    hr.sweepPeer_eq q x.2.d.dest (sentBefore x.2) markResent queueResent
  rw [foldl_queueResent] at hsweep
  rw [Bora.resendOooNacks_eq]
  exact ⟨h', by simp [resendOooNacks, hread, hsweep], hr'⟩

/-- What the loop over the peers has done when `zs` are to come. -/
structure TimeoutSwept (timeout : SockAddr → UInt64) (nowUsec : UInt64) (q : SendQueues)
    (loose : List (ℕ × Ack)) (seqNum : UInt16) (ks ls : List Holder)
    (s : NackHeap × SendQueues × ℕ) : Prop where
  layout : s.1.Layout (ks.map (fun k => k.sweep (timedOut nowUsec (timeout k.val))) ++ ls) loose
  seqNum : s.1.seqNum = seqNum
  queues : s.2.1 =
    (ks.flatMap (fun k => k.selected (timedOut nowUsec (timeout k.val)))).foldl resendNack q
  ret : s.2.2 = (ks.flatMap (fun k => k.selected (timedOut nowUsec (timeout k.val)))).length

theorem TimeoutSwept.peer {timeout : SockAddr → UInt64} {nowUsec : UInt64} {q : SendQueues}
    {seqNum : UInt16} {s : NackHeap × SendQueues × ℕ}
    (hs : TimeoutSwept timeout nowUsec q loose seqNum ks (k :: ls) s) :
    ∃ t v, resendTimeoutPeer timeout nowUsec s k.node = some t ∧
      t.1.peers.read k.node = some ⟨v, link (ls.map (Branch.cell NackPeerNode.mk))⟩ ∧
      TimeoutSwept timeout nowUsec q loose seqNum (ks ++ [k]) ls t := by
  obtain ⟨h', hsweep, hl', hseq⟩ := sweepNode_eq hs.layout s.2.1
    (timedOut nowUsec (timeout k.val)) markResent queueResent
  rw [foldl_queueResent] at hsweep
  have hbody : resendTimeoutPeer timeout nowUsec s k.node = some (h',
      (k.selected (timedOut nowUsec (timeout k.val))).foldl resendNack s.2.1,
      s.2.2 + (k.selected (timedOut nowUsec (timeout k.val))).length) := by
    simp only [resendTimeoutPeer, hs.layout.read_node, Option.bind_eq_bind, Option.bind_some,
      hsweep]
  refine ⟨_, _, hbody, hl'.read_node, ⟨?_, hseq.trans hs.seqNum, ?_, ?_⟩⟩
  · rw [List.map_append, List.append_assoc]
    exact hl'
  · simp [hs.queues, List.foldl_append]
  · simp [hs.ret]

theorem Represents.resendTimeoutNacks_eq (hr : h.Represents n loose) (q : SendQueues)
    (timeout : SockAddr → UInt64) (now : Timeval) :
    ∃ h', h.resendTimeoutNacks q timeout now =
        some (h', (Bora.resendTimeoutNacks n q timeout now).2) ∧
      h'.Represents (Bora.resendTimeoutNacks n q timeout now).1 loose := by
  obtain ⟨ks, hl, hn, hseq⟩ := hr
  have hstart : TimeoutSwept timeout (timeToUsec now) q loose h.seqNum [] ks (h, q, 0) :=
    ⟨hl, rfl, rfl, rfl⟩
  obtain ⟨⟨h', q', ret⟩, ht, hs⟩ := hl.foreach_rule
    (fun s : NackHeap × SendQueues × ℕ => s.1.peers)
    (TimeoutSwept timeout (timeToUsec now) q loose h.seqNum) (fun _ _ _ _ _ hs => hs.peer) hstart
  obtain ⟨hl', hseq', hq, hret⟩ := hs
  rw [List.append_nil] at hl'
  have hqueues : (ks.map Holder.peer).flatMap
      (fun p => p.nacks.filter (timedOut (timeToUsec now) (timeout p.addr))) =
      ks.flatMap (fun k => k.selected (timedOut (timeToUsec now) (timeout k.val))) := by
    rw [List.flatMap_map]
    rfl
  refine ⟨h', ?_, _, hl', ?_, hseq'.trans hseq⟩
  · simp only at hq hret
    have htable : (Bora.resendTimeoutNacks n q timeout now).2 = (q', ret) := by
      simp only [Bora.resendTimeoutNacks, resendTimeoutLoop_eq, hn, hqueues, hq, hret]
    rw [resendTimeoutNacks, ht, htable]
  · simp only [Bora.resendTimeoutNacks, resendTimeoutLoop_eq, hn, List.map_map]
    refine List.map_congr_left (fun k _ => ?_)
    simp only [Function.comp_apply]
    rw [← (k.sweep_nacks _)]
    rfl

theorem Represents.ensurePeer_eq (hr : h.Represents n loose) (addr : SockAddr) {peerAt : ℕ}
    (hpeer : h.peers.read peerAt = none) :
    ∃ h' front k back, h.ensurePeer addr peerAt = some (h', k.node) ∧ k.val = addr ∧
      (∀ y ∈ front, y.val ≠ k.val) ∧ h'.Layout (front ++ k :: back) loose ∧
      (n.ensurePeer addr).nacklist = (front ++ k :: back).map Holder.peer ∧
      h'.acks = h.acks ∧ h'.seqNum = n.seqNum := by
  obtain ⟨ks, hl, hn, hseq⟩ := hr
  have hfind := find_of_holders hn addr
  cases hk : ks.find? (fun k => k.val = addr) with
  | none =>
    rw [hk] at hfind
    have htable : (n.ensurePeer addr).nacklist = ⟨addr, []⟩ :: n.nacklist := by
      unfold NackTable.ensurePeer
      split
      · rfl
      · rename_i p hp
        rw [hfind] at hp
        cases hp
    have hensure : h.ensurePeer addr peerAt =
        some (⟨h.peers.put peerAt (some ⟨⟨addr, none⟩, h.nacklist⟩), h.acks, some peerAt,
          h.seqNum⟩, peerAt) := by
      simp [ensurePeer, findByHost_eq hl, hk]
    refine ⟨_, [], ⟨peerAt, addr, []⟩, ks, hensure, rfl, by simp,
      hl.insertBranch hpeer addr hl.inner.nil_cons, ?_, rfl, hseq⟩
    rw [htable, hn]
    rfl
  | some k =>
    rw [hk] at hfind
    obtain ⟨haddr, front, back, rfl, hfront⟩ := split_of_host hk
    have htable : (n.ensurePeer addr).nacklist = n.nacklist := by
      unfold NackTable.ensurePeer
      split
      · rename_i hp
        rw [hfind] at hp
        cases hp
      · rfl
    refine ⟨h, front, k, back, ?_, haddr, hfront, hl, htable.trans hn, rfl, hseq⟩
    simp [ensurePeer, findByHost_eq hl, hk]

/-- The lists of `append_ack`, which the copy of the number behind the packet leaves alone. -/
theorem Represents.appendAck_eq (hr : h.Represents n loose) {d d' : SendData} {n' : NackTable}
    {sendtime : Timeval} {sleeptime : UInt32} {peerAt ackAt : ℕ}
    (hpeer : h.peers.read peerAt = none) (hack : h.acks.read ackAt = none)
    (hn' : Bora.appendAck n d sendtime sleeptime = .ok (n', d')) :
    ∃ h', h.appendAck d sendtime sleeptime peerAt ackAt = some h' ∧ h'.Represents n' loose := by
  obtain ⟨d₁, -, hn'⟩ := Checked.bind_eq_ok.mp hn'
  cases hn'
  have hr' : { h with seqNum := h.seqNum + 1 }.Represents { n with seqNum := n.seqNum + 1 }
      loose := by
    obtain ⟨ks, hl, hn, hseq⟩ := hr
    exact ⟨ks, hl, hn, by simp only [hseq]⟩
  obtain ⟨h', front, k, back, hensure, haddr, hfront, hl, htable, hacks, hseq⟩ :=
    hr'.ensurePeer_eq d.dest hpeer
  rw [← hacks] at hack
  obtain ⟨peers, hset, hl'⟩ := hl.setBranch k.val
    (hl.focus.insertHead hack ⟨h'.seqNum, sendtime, sleeptime, d⟩)
  rw [link_cons] at hset
  refine ⟨⟨peers, h'.acks.put ackAt (some ⟨⟨h'.seqNum, sendtime, sleeptime, d⟩, link k.items⟩),
    h'.nacklist, h'.seqNum⟩, ?_, _, hl', ?_, ?_⟩
  · simp only [appendAck, hensure, Option.bind_eq_bind, Option.bind_some, hl.read_node, hset]
  · rw [← haddr] at htable ⊢
    rw [modifyNacks_of_holders htable hfront, List.map_append, List.map_cons, hseq]
    rfl
  · exact hseq.trans (NackTable.ensurePeer_seqNum _ _).symm

theorem Represents.getNNack_eq (hr : h.Represents n loose) :
    h.getNNack = some (n.nacklist.map (fun p => p.nacks.length)).sum := by
  obtain ⟨ks, hl, hn, -⟩ := hr
  have hinner : ∀ k ∈ ks, ∀ ret, fold h.acks (fun ret _ => some (ret + 1)) ret (link k.items) =
      some (ret + k.items.length) := by
    intro k hk ret
    rw [hl.inner.fold_eq (List.mem_map_of_mem hk), foldlM_add (k := fun _ => 1) (fun _ _ _ => rfl)]
    simp
  have hlengths : (ks.map Holder.peer).map (fun p => p.nacks.length) =
      ks.map (fun k => k.items.length) := by
    simp [Holder.peer]
  rw [getNNack, hl.head, hl.outer.fold_eq List.mem_cons_self, List.foldlM_map, hn, hlengths,
    ← Nat.zero_add (List.sum _)]
  exact foldlM_add hinner 0

end NackHeap

end Bora
