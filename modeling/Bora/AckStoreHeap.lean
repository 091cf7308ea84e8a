import Bora.Accounting
import Bora.Library.NestedLists

/-! The statistics of ack_received.c as they stand in memory, and the loop of bora.c that reports
and frees them. `highest_seq` points into one of the lists, and the report frees what it points
to last. -/
namespace Bora

open LinkedList NestedLists

/-- `AckStore` of ack_received.h; `addr` points to the record of the peer. -/
structure AckStoreNode where
  addr : ℕ
  sent : Timeval
  RTT : Timeval
  STT : Timeval
  seq : UInt16
  sleeptime : UInt32

def AckStoreNode.store (n : AckStoreNode) (addr : SockAddr) : AckStore where
  addr := addr
  sent := n.sent
  RTT := n.RTT
  STT := n.STT
  seq := n.seq
  sleeptime := n.sleeptime

/-- `PeerAckStore` of ack_received.h; `ackStore` is the head of its list. -/
structure PeerAckNode where
  addr : SockAddr
  minSTT : Timeval
  minRTT : Timeval
  avgRTT : Timeval
  avgSTT : Timeval
  errRTT : Timeval
  errSTT : Timeval
  lastRTT : UInt64
  ackStore : Link
  totalAcked : UInt64
  totalErrors : UInt64
  lastAcked : ℕ
  lastError : ℕ

namespace PeerAckNode

def peer (n : PeerAckNode) (stores : List AckStore) : PeerAckStore where
  addr := n.addr
  minSTT := n.minSTT
  minRTT := n.minRTT
  avgRTT := n.avgRTT
  avgSTT := n.avgSTT
  errRTT := n.errRTT
  errSTT := n.errSTT
  lastRTT := n.lastRTT
  ackStore := stores
  totalAcked := n.totalAcked
  totalErrors := n.totalErrors
  lastAcked := n.lastAcked
  lastError := n.lastError

def first (addr : SockAddr) (storeAt : ℕ) (store : AckStoreNode) : PeerAckNode where
  addr := addr
  minSTT := store.STT
  minRTT := store.RTT
  avgRTT := store.RTT
  avgSTT := store.STT
  errRTT := ⟨0, 0⟩
  errSTT := ⟨0, 0⟩
  lastRTT := timeToUsec store.RTT
  ackStore := some storeAt
  totalAcked := 1
  totalErrors := 0
  lastAcked := 1
  lastError := 0

def acked (n : PeerAckNode) (prev : Option AckStoreNode) (storeAt : ℕ) (store : AckStoreNode)
    (errors : ℕ) : PeerAckNode :=
  let (prevRTT, prevSTT) := match prev with
    | some prev => (prev.RTT, prev.STT)
    | none => (store.RTT, store.STT)
  let n :=
    { n with
      minRTT := if timerLt store.RTT n.minRTT then store.RTT else n.minRTT
      minSTT := if timerLt store.STT n.minSTT then store.STT else n.minSTT
      ackStore := some storeAt
      avgRTT := store.RTT
      avgSTT := store.STT
      lastRTT := timeToUsec store.RTT
      totalAcked := n.totalAcked + 1
      lastAcked := n.lastAcked + 1 }
  if 0 < errors then
    { n with errSTT := prevSTT, errRTT := prevRTT,
             totalErrors := n.totalErrors + UInt64.ofNat errors,
             lastError := n.lastError + errors }
  else n

@[simp] theorem acked_addr (n : PeerAckNode) (prev : Option AckStoreNode) (storeAt : ℕ)
    (store : AckStoreNode) (errors : ℕ) :
    (n.acked prev storeAt store errors).addr = n.addr := by
  unfold acked
  by_cases h : 0 < errors <;> simp [h]

theorem acked_peer (n : PeerAckNode) (prev : Option AckStoreNode) (storeAt : ℕ)
    (store : AckStoreNode) (errors : ℕ) (stores : List AckStore)
    (hprev : stores.head? = prev.map (fun s => s.store n.addr)) :
    (n.acked prev storeAt store errors).peer (store.store n.addr :: stores) =
      (n.peer stores).acked (store.store n.addr) errors := by
  have hhead : (n.peer stores).ackStore.head? = prev.map (fun s => s.store n.addr) := hprev
  unfold acked PeerAckStore.acked
  rw [hhead]
  cases prev <;> by_cases h : 0 < errors <;> simp only [h, if_true, if_false] <;> rfl

end PeerAckNode

structure AckStoreHeap where
  peers : Memory PeerAckNode
  stores : Memory AckStoreNode
  peeracklist : Link
  highestSeq : Link

/-- What `bora_BWIter_iternext` returns of the acks: `peer_stats` and `last_ack`. -/
structure AckReport where
  peerStats : List PeerAckStore
  lastAck : Option AckStore

namespace AckStoreHeap

def init : AckStoreHeap := ⟨Memory.empty, Memory.empty, none, none⟩

def storeNode (peer : ℕ) (ackS : Ack) (ackR : AckReceived) (received : Timeval) :
    AckStoreNode where
  addr := peer
  sent := ackS.sendtime
  RTT := timerSub received ackS.sendtime
  STT := timerSub ⟨ackR.sec.toInt, ackR.usec.toInt⟩ ackS.sendtime
  seq := ackS.seq
  sleeptime := ackS.sleeptime

/-- `highest_seq` after the ack of number `seq`, which is stored at `storeAt`. -/
def raise (h : AckStoreHeap) (storeAt : ℕ) (seq : UInt16) : Option Link :=
  match h.highestSeq with
  | none => some (some storeAt)
  | some highest => do
    let c ← h.stores.read highest
    some (if c.val.seq < seq then some storeAt else some highest)

def prevStore (h : AckStoreHeap) : Link → Option (Option AckStoreNode)
  | none => some none
  | some prev => (h.stores.read prev).map (fun c => some c.val)

/-- What a pointer to an `AckStore` refers to, with the address it points to in turn. -/
def storeAt (h : AckStoreHeap) (a : ℕ) : Option AckStore := do
  let c ← h.stores.read a
  let p ← h.peers.read c.val.addr
  some (c.val.store p.val.addr)

/-- The tables after `ack_received`, where the sweep of the resent entries returned `errors`;
`peerAt` and `ackAt` are what `malloc` gives. -/
def ackReceived (h : AckStoreHeap) (ackS : Ack) (ackR : AckReceived) (received : Timeval)
    (source : SockAddr) (errors peerAt ackAt : ℕ) : Option AckStoreHeap := do
  match ← find h.peers (fun p => p.addr = source) h.peeracklist with
  | none =>
    let store := storeNode peerAt ackS ackR received
    let highest ← h.raise ackAt ackS.seq
    some { peers := h.peers.put peerAt (some ⟨.first source ackAt store, h.peeracklist⟩)
           stores := h.stores.put ackAt (some ⟨store, none⟩)
           peeracklist := some peerAt
           highestSeq := highest }
  | some peer =>
    let c ← h.peers.read peer
    let prev ← h.prevStore c.val.ackStore
    let store := storeNode peer ackS ackR received
    let stores := h.stores.put ackAt (some ⟨store, c.val.ackStore⟩)
    let peers ← h.peers.setVal peer (c.val.acked prev ackAt store errors)
    let highest ← { h with stores := stores }.raise ackAt ackS.seq
    some { h with peers := peers, stores := stores, highestSeq := highest }

/-- One round of the loop over the peers: every value is reported and taken out, and all but
`last_seq` are freed. -/
def reportPeer (lastSeq : Link) (s : AckStoreHeap × List PeerAckStore) (peer : ℕ) :
    Option (AckStoreHeap × List PeerAckStore) := do
  let c ← s.1.peers.read peer
  let t ← sweep (fun _ => true) id (fun vs v => vs ++ [v.store c.val.addr]) lastSeq []
    s.1.stores c.val.ackStore
  let peers ← s.1.peers.setVal peer { c.val with ackStore := t.head }
  some ({ s.1 with peers := peers, stores := t.mem }, s.2 ++ [c.val.peer t.st])

def report (h : AckStoreHeap) : Option (AckStoreHeap × AckReport) := do
  let lastSeq := h.highestSeq
  let (h, peerStats) ← foreach (fun s : AckStoreHeap × List PeerAckStore => s.1.peers)
    (reportPeer lastSeq) (h, []) h.peeracklist
  match peerStats, lastSeq with
  | _ :: _, some ls =>
    let last ← h.storeAt ls
    let stores ← h.stores.free ls
    some ({ h with stores := stores }, ⟨peerStats, some last⟩)
  | _, _ => some (h, ⟨peerStats, none⟩)

def releasePeer (peers : Memory PeerAckNode) (peer : ℕ) : Option (Memory PeerAckNode) := do
  let c ← peers.read peer
  peers.setVal peer { c.val with lastAcked := 0, lastError := 0 }

def releaseAckStore (h : AckStoreHeap) : Option AckStoreHeap := do
  let peers ← foreach (fun peers => peers) releasePeer h.peers h.peeracklist
  some { h with peers := peers, highestSeq := none }

end AckStoreHeap

def PeerAckStore.first (store : AckStore) : PeerAckStore :=
  { addr := store.addr, minSTT := store.STT, minRTT := store.RTT, avgRTT := store.RTT,
    avgSTT := store.STT, errRTT := ⟨0, 0⟩, errSTT := ⟨0, 0⟩, lastRTT := timeToUsec store.RTT,
    ackStore := [store], totalAcked := 1, totalErrors := 0, lastAcked := 1, lastError := 0 }

@[simp] theorem PeerAckStore.first_addr (store : AckStore) :
    (first store).addr = store.addr := rfl
@[simp] theorem PeerAckStore.first_ackStore (store : AckStore) :
    (first store).ackStore = [store] := rfl

/-- What `ack_received` does to the statistics, where `errors` entries were resent. -/
def AckTable.received (t : AckTable) (store : AckStore) (errors : ℕ) : AckTable :=
  match t.findPeerByHost store.addr with
  | none =>
    { peeracklist := .first store :: t.peeracklist, highestSeq := (t.raise store).highestSeq }
  | some _ =>
    { peeracklist := FirstMatch.modify (fun p => p.addr = store.addr)
        (fun p => p.acked store errors) t.peeracklist
      highestSeq := (t.raise store).highestSeq }

def AckTable.overtaken (t : AckTable) (seq : UInt16) : Bool :=
  match t.highestSeq with
  | none => true
  | some highest => highest.seq < seq

namespace AckTable

theorem raise_overtaken (t : AckTable) (store : AckStore) :
    (t.raise store).highestSeq =
      if t.overtaken store.seq then some store else t.highestSeq := by
  unfold raise overtaken
  cases hs : t.highestSeq with
  | none => rfl
  | some highest =>
    by_cases hlt : highest.seq < store.seq
    · simp [hlt]
    · simp [hlt, hs]

theorem raise_peers (t : AckTable) (peers : List PeerAckStore) (store : AckStore) :
    AckTable.raise { t with peeracklist := peers } store =
      ⟨peers, (t.raise store).highestSeq⟩ := by
  unfold raise
  cases hs : t.highestSeq with
  | none => rfl
  | some highest => by_cases hlt : highest.seq < store.seq <;> simp [hlt, hs]

/-- The part of `ack_received` that works on the statistics. -/
theorem received_eq (s : AckState) (ackS : Ack) (ackR : AckReceived) (received : Timeval)
    (source : SockAddr) :
    (ackReceived s ackS ackR received source).acks =
      s.acks.received (ackStoreOf ackS ackR received source)
        (resendOooNacks (removeLostAcks s.nacks ackS ackR.cons).1 s.queues ackS).2.2 := by
  have haddr : (ackStoreOf ackS ackR received source).addr = source := rfl
  unfold AckTable.received
  rw [haddr]
  cases hfind : s.acks.findPeerByHost source with
  | none =>
    simp only [ackReceived, hfind, newPeer]
    split <;> simp [AckTable.raise_peeracklist, haddr, PeerAckStore.first]
  | some peer =>
    simp only [ackReceived, hfind, knownPeer, haddr, raise_peers]
    split <;> rfl

end AckTable

def PeerAckNode.withList (n : PeerAckNode) (l : Link) : PeerAckNode := { n with ackStore := l }

/-- A peer, with the address of its node and the cells of its acks. -/
abbrev AckBranch := Branch PeerAckNode AckStoreNode

def AckBranch.peer (k : AckBranch) : PeerAckStore :=
  k.val.peer (k.items.map (fun x => x.2.store k.val.addr))

/-- The pointer and the ack it refers to: both are nothing, or the ack is in a list. -/
def AckBranch.Aims (ks : List AckBranch) : Link → Option AckStore → Prop
  | none, none => True
  | some a, some store => ∃ k ∈ ks, ∃ x ∈ k.items, x.1 = a ∧ store = x.2.store k.val.addr
  | _, _ => False

namespace AckStoreHeap

/-- The nodes of the peers and of their acks, and the acks in `loose`, are all that is allocated,
and an ack points to its peer. -/
structure Layout (h : AckStoreHeap) (ks : List AckBranch) (loose : List (ℕ × AckStoreNode)) :
    Prop where
  lists : NestedLists.Layout PeerAckNode.withList h.peers h.stores h.peeracklist ks loose
  points : ∀ k ∈ ks, ∀ x ∈ k.items, x.2.addr = k.node

def Represents (h : AckStoreHeap) (t : AckTable) : Prop :=
  ∃ ks, h.Layout ks [] ∧ t.peeracklist = ks.map AckBranch.peer ∧
    AckBranch.Aims ks h.highestSeq t.highestSeq

/-- Between a report and its release no ack is allocated, and `highest_seq` points nowhere. -/
def Reported (h : AckStoreHeap) (t : AckTable) : Prop :=
  ∃ ks, h.Layout ks [] ∧ t.peeracklist = ks.map AckBranch.peer ∧ ∀ k ∈ ks, k.items = []

variable {h : AckStoreHeap} {t : AckTable} {ks ls : List AckBranch} {k : AckBranch}
  {loose : List (ℕ × AckStoreNode)}

theorem represents_init : init.Represents AckTable.init :=
  ⟨[], ⟨NestedLists.Layout.empty _, by simp⟩, rfl, trivial⟩

theorem find_of_holders (ht : t.peeracklist = ks.map AckBranch.peer) (addr : SockAddr) :
    t.findPeerByHost addr = (ks.find? (fun k => k.val.addr = addr)).map AckBranch.peer := by
  rw [AckTable.findPeerByHost, ht, List.find?_map]
  rfl

theorem findPeer_eq (hl : h.Layout ks loose) (addr : SockAddr) :
    find h.peers (fun p => p.addr = addr) h.peeracklist =
      some ((ks.find? (fun k => k.val.addr = addr)).map Branch.node) :=
  hl.lists.find_eq (p := fun n => decide (n.addr = addr)) (q := fun n => decide (n.addr = addr))
    (fun _ _ => rfl)

theorem Layout.read_store (hl : h.Layout ks loose) (hk : k ∈ ks) {x : ℕ × AckStoreNode}
    (hx : x ∈ k.items) :
    (∃ l, h.stores.read x.1 = some ⟨x.2, l⟩) ∧ h.storeAt x.1 = some (x.2.store k.val.addr) := by
  obtain ⟨l, hread⟩ := (hl.lists.inner.chains _ (List.mem_map_of_mem hk)).read_mem hx
  obtain ⟨next, hnode⟩ := hl.lists.read_mem hk
  rw [← hl.points k hk x hx] at hnode
  refine ⟨⟨l, hread⟩, ?_⟩
  simp [storeAt, hread, hnode, PeerAckNode.withList]

def ReadsAs (stores : Memory AckStoreNode) : Link → Option AckStore → Prop
  | none, none => True
  | some a, some store => ∃ v l, stores.read a = some ⟨v, l⟩ ∧ v.seq = store.seq
  | _, _ => False

theorem readsAs_of_aims {stores : Memory AckStoreNode} {rest : List (List (ℕ × AckStoreNode))}
    (hstores : Holds stores rest loose) (hks : ∀ k ∈ ks, ∃ xs ∈ rest, ∀ x ∈ k.items, x ∈ xs)
    {l : Link} {highest : Option AckStore} (haims : AckBranch.Aims ks l highest) :
    ReadsAs stores l highest := by
  match l, highest, haims with
  | none, none, _ => trivial
  | some a, some store, ⟨k, hk, x, hx, hxa, hstore⟩ =>
    obtain ⟨xs, hxs, hmem⟩ := hks k hk
    obtain ⟨l, hread⟩ := (hstores.chains xs hxs).read_mem (hmem x hx)
    exact ⟨x.2, l, hxa ▸ hread, by rw [hstore]; rfl⟩

theorem raise_eq (h : AckStoreHeap) (ackAt : ℕ) (seq : UInt16)
    (hread : ReadsAs h.stores h.highestSeq t.highestSeq) :
    h.raise ackAt seq = some (if t.overtaken seq then some ackAt else h.highestSeq) := by
  unfold raise AckTable.overtaken
  unfold ReadsAs at hread
  split at hread
  · rename_i hs ht
    simp [hs, ht]
  · rename_i a store hs ht
    obtain ⟨v, l, hv, hseq⟩ := hread
    simp only [hs, ht, hv, Option.bind_eq_bind, Option.bind_some, hseq]
    by_cases hlt : store.seq < seq <;> simp [hlt]
  · exact hread.elim

theorem aims_raise {ks' : List AckBranch} {seq : UInt16} {store : AckStore} {ackAt : ℕ}
    (hkept : ∀ k ∈ ks, ∃ k' ∈ ks', k'.val.addr = k.val.addr ∧ ∀ x ∈ k.items, x ∈ k'.items)
    (hnew : ∃ k ∈ ks', ∃ x ∈ k.items, x.1 = ackAt ∧ store = x.2.store k.val.addr)
    (haims : AckBranch.Aims ks h.highestSeq t.highestSeq) :
    AckBranch.Aims ks' (if t.overtaken seq then some ackAt else h.highestSeq)
      (if t.overtaken seq then some store else t.highestSeq) := by
  by_cases hover : t.overtaken seq = true
  · rw [if_pos hover, if_pos hover]
    exact hnew
  · rw [if_neg hover, if_neg hover]
    generalize h.highestSeq = l at haims ⊢
    generalize t.highestSeq = highest at haims ⊢
    match l, highest, haims with
    | none, none, _ => trivial
    | some a, some old, ⟨k, hk, x, hx, hxa, hstore⟩ =>
      obtain ⟨k', hk', haddr, hitems⟩ := hkept k hk
      exact ⟨k', hk', x, hitems x hx, hxa, by rw [hstore, haddr]⟩

theorem Represents.ackReceived_new (hr : h.Represents t) {ackS : Ack} {ackR : AckReceived}
    {received : Timeval} {source : SockAddr} {errors peerAt ackAt : ℕ}
    (hpeer : h.peers.read peerAt = none) (hack : h.stores.read ackAt = none)
    (hnone : t.findPeerByHost source = none) :
    ∃ h', h.ackReceived ackS ackR received source errors peerAt ackAt = some h' ∧
      h'.storeAt ackAt = some (ackStoreOf ackS ackR received source) ∧
      h'.Represents (t.received (ackStoreOf ackS ackR received source) errors) := by
  obtain ⟨ks, hl, ht, haims⟩ := hr
  have hfind := find_of_holders ht source
  rw [hnone, eq_comm, Option.map_eq_none_iff] at hfind
  have hread : ReadsAs h.stores h.highestSeq t.highestSeq :=
    readsAs_of_aims hl.lists.inner
      (fun k hk => ⟨k.items, List.mem_map_of_mem hk, fun _ hx => hx⟩) haims
  have hinner := hl.lists.inner.nil_cons.insertHead hack (storeNode peerAt ackS ackR received)
  have hlists := hl.lists.insertBranch hpeer
    (PeerAckNode.first source ackAt (storeNode peerAt ackS ackR received)) hinner
  let k : AckBranch := ⟨peerAt, PeerAckNode.first source ackAt
    (storeNode peerAt ackS ackR received), [(ackAt, storeNode peerAt ackS ackR received)]⟩
  let h' : AckStoreHeap :=
    ⟨h.peers.put peerAt (some ⟨PeerAckNode.first source ackAt
        (storeNode peerAt ackS ackR received), h.peeracklist⟩),
      h.stores.put ackAt (some ⟨storeNode peerAt ackS ackR received, none⟩), some peerAt,
      if t.overtaken ackS.seq then some ackAt else h.highestSeq⟩
  have hlayout : h'.Layout (k :: ks) [] := by
    refine ⟨hlists, List.forall_mem_cons.mpr ⟨?_, hl.points⟩⟩
    intro x hx
    rw [List.mem_singleton.mp hx]
    rfl
  refine ⟨h', ?_, ?_, k :: ks, hlayout, ?_, ?_⟩
  · simp [ackReceived, findPeer_eq hl, hfind, h.raise_eq ackAt ackS.seq hread, h']
  · exact (hlayout.read_store List.mem_cons_self List.mem_cons_self).2
  · have haddr : (ackStoreOf ackS ackR received source).addr = source := rfl
    simp only [AckTable.received, haddr, hnone, ht]
    rfl
  · have haddr : (ackStoreOf ackS ackR received source).addr = source := rfl
    simp only [AckTable.received, haddr, hnone, AckTable.raise_overtaken]
    exact aims_raise (fun k hk => ⟨k, List.mem_cons_of_mem _ hk, rfl, fun _ hx => hx⟩)
      ⟨k, List.mem_cons_self, _, List.mem_cons_self, rfl, rfl⟩ haims

theorem Represents.ackReceived_known (hr : h.Represents t) {ackS : Ack} {ackR : AckReceived}
    {received : Timeval} {source : SockAddr} {errors peerAt ackAt : ℕ}
    (hack : h.stores.read ackAt = none) {p : PeerAckStore}
    (hp : t.findPeerByHost source = some p) :
    ∃ h', h.ackReceived ackS ackR received source errors peerAt ackAt = some h' ∧
      h'.storeAt ackAt = some (ackStoreOf ackS ackR received source) ∧
      h'.Represents (t.received (ackStoreOf ackS ackR received source) errors) := by
  obtain ⟨ks, hl, ht, haims⟩ := hr
  have hfind := find_of_holders ht source
  rw [hp, eq_comm] at hfind
  obtain ⟨k, hk, rfl⟩ := Option.map_eq_some_iff.mp hfind
  obtain ⟨hval, front, back, rfl, hfront⟩ :=
    split_of_find (q := fun n : PeerAckNode => decide (n.addr = source)) hk
  have hval : k.val.addr = source := of_decide_eq_true hval
  let store := storeNode k.node ackS ackR received
  let prev := k.items.head?.map Prod.snd
  have hprev : h.prevStore (link k.items) = some prev := by
    cases hitems : k.items with
    | nil => simp [prev, hitems, prevStore]
    | cons x rest =>
      have hx : x ∈ k.items := by simp [hitems]
      obtain ⟨⟨l, hread⟩, -⟩ := hl.read_store (List.mem_append_right _ List.mem_cons_self) hx
      simp [prev, hitems, prevStore, hread]
  have hinner := hl.lists.focus.insertHead hack store
  obtain ⟨peers, hset, hlists⟩ := hl.lists.setBranch (k.val.acked prev ackAt store errors) hinner
  let k' : AckBranch := ⟨k.node, k.val.acked prev ackAt store errors, (ackAt, store) :: k.items⟩
  have hkept : ∀ l ∈ front ++ k :: back, ∃ l' ∈ front ++ k' :: back,
      l'.val.addr = l.val.addr ∧ ∀ x ∈ l.items, x ∈ l'.items := by
    intro l hl
    rcases List.mem_append.mp hl with hmem | hmem
    · exact ⟨l, List.mem_append_left _ hmem, rfl, fun _ hx => hx⟩
    · rcases List.mem_cons.mp hmem with rfl | hmem
      · exact ⟨k', List.mem_append_right _ List.mem_cons_self, PeerAckNode.acked_addr _ _ _ _ _,
          fun _ hx => List.mem_cons_of_mem _ hx⟩
      · exact ⟨l, List.mem_append_right _ (List.mem_cons_of_mem _ hmem), rfl, fun _ hx => hx⟩
  have hread : ReadsAs (h.stores.put ackAt (some ⟨store, link k.items⟩)) h.highestSeq
      t.highestSeq := by
    refine readsAs_of_aims hlists.inner (fun l hl => ?_) haims
    obtain ⟨l', hl', -, hitems⟩ := hkept l hl
    exact ⟨l'.items, List.mem_map_of_mem hl', hitems⟩
  have hraise := { h with stores := h.stores.put ackAt (some ⟨store, link k.items⟩) }.raise_eq
    ackAt ackS.seq hread
  let h' : AckStoreHeap :=
    ⟨peers, h.stores.put ackAt (some ⟨store, link k.items⟩), h.peeracklist,
      if t.overtaken ackS.seq then some ackAt else h.highestSeq⟩
  have hpoints := hl.points
  rw [List.forall_mem_append, List.forall_mem_cons] at hpoints
  have hlayout : h'.Layout (front ++ k' :: back) [] := by
    refine ⟨hlists, ?_⟩
    rw [List.forall_mem_append, List.forall_mem_cons]
    exact ⟨hpoints.1, List.forall_mem_cons.mpr ⟨rfl, hpoints.2.1⟩, hpoints.2.2⟩
  have hmem : k' ∈ front ++ k' :: back := List.mem_append_right _ List.mem_cons_self
  have haddr : k'.val.addr = source := (PeerAckNode.acked_addr _ _ _ _ _).trans hval
  have hstore : ackStoreOf ackS ackR received source = store.store k'.val.addr := by
    rw [haddr]
    rfl
  have hpeer : k'.peer = k.peer.acked (ackStoreOf ackS ackR received source) errors := by
    have hhead : (k.items.map (fun x => x.2.store k.val.addr)).head? =
        prev.map (fun s => s.store k.val.addr) := by
      simp only [prev, List.head?_map, Option.map_map]
      rfl
    have hacked := k.val.acked_peer prev ackAt store errors _ hhead
    rw [hstore, haddr, ← hval]
    refine Eq.trans ?_ hacked
    simp only [AckBranch.peer, k', PeerAckNode.acked_addr, List.map_cons]
  have htable : t.received (ackStoreOf ackS ackR received source) errors =
      ⟨front.map AckBranch.peer ++ k'.peer :: back.map AckBranch.peer,
        if t.overtaken ackS.seq then some (ackStoreOf ackS ackR received source)
          else t.highestSeq⟩ := by
    have haddr : (ackStoreOf ackS ackR received source).addr = source := rfl
    have hseq : (ackStoreOf ackS ackR received source).seq = ackS.seq := rfl
    simp only [AckTable.received, haddr, hp, ht, AckTable.raise_overtaken, hseq, hpeer,
      List.map_append, List.map_cons]
    rw [FirstMatch.modify_append]
    · simpa [AckBranch.peer, PeerAckNode.peer] using hfront
    · exact decide_eq_true hval
  refine ⟨h', ?_, ?_, front ++ k' :: back, hlayout, ?_, ?_⟩
  · have hnode : h.peers.read k.node =
        some ⟨k.val.withList (link k.items), link (back.map (Branch.cell PeerAckNode.withList))⟩ :=
      hl.lists.read_node
    have hacked : (k.val.withList (link k.items)).acked prev ackAt store errors =
        (k.val.acked prev ackAt store errors).withList (some ackAt) := by
      cases hp : prev <;> by_cases h : 0 < errors <;>
        simp only [PeerAckNode.acked, h, if_true, if_false] <;> rfl
    have hset' : h.peers.setVal k.node ((k.val.withList (link k.items)).acked prev ackAt
        (storeNode k.node ackS ackR received) errors) = some peers := by
      rw [hacked]
      exact hset
    have hlist : (k.val.withList (link k.items)).ackStore = link k.items := rfl
    simp only [ackReceived, findPeer_eq hl, hk, Option.map_some, Option.bind_eq_bind,
      Option.bind_some, hnode, hlist, hprev, hset']
    rw [hraise]
    rfl
  · rw [hstore]
    exact (hlayout.read_store hmem List.mem_cons_self).2
  · rw [htable, List.map_append, List.map_cons]
  · rw [htable]
    exact aims_raise hkept ⟨k', hmem, _, List.mem_cons_self, rfl, hstore⟩ haims

def emptied (k : AckBranch) : AckBranch := { k with items := [] }

def leftOver (lastSeq : Link) (ks : List AckBranch) : List (ℕ × AckStoreNode) :=
  ks.flatMap (fun k => k.items.filter (fun x => decide (lastSeq = some x.1)))

/-- What the loop over the peers has done when `ls` are to come. -/
structure ReportedSome (h : AckStoreHeap) (lastSeq : Link) (ks ls : List AckBranch)
    (s : AckStoreHeap × List PeerAckStore) : Prop where
  lists : NestedLists.Layout PeerAckNode.withList s.1.peers s.1.stores s.1.peeracklist
    (ks.map emptied ++ ls) (leftOver lastSeq ks)
  stats : s.2 = ks.map AckBranch.peer
  highest : s.1.highestSeq = h.highestSeq

theorem ReportedSome.peer {lastSeq : Link} {s : AckStoreHeap × List PeerAckStore}
    (hs : ReportedSome h lastSeq ks (k :: ls) s) :
    ∃ u v, reportPeer lastSeq s k.node = some u ∧
      u.1.peers.read k.node = some ⟨v, link (ls.map (Branch.cell PeerAckNode.withList))⟩ ∧
      ReportedSome h lastSeq (ks ++ [k]) ls u := by
  obtain ⟨stores, hsweep, hstores⟩ := hs.lists.focus.sweep_eq (fun _ => true) id
    (fun vs v => vs ++ [v.store k.val.addr]) lastSeq []
  have hheld : Holds.heldCells (fun _ => true) id lastSeq k.items =
      k.items.filter (fun x => decide (lastSeq = some x.1)) := by
    simp [Holds.heldCells]
  have hnone : k.items.filter (fun _ => !true) = [] := by simp
  rw [hnone, foldl_collect, List.nil_append, List.map_map, List.filter_true] at hsweep
  rw [hnone, hheld] at hstores
  obtain ⟨peers, hset, hlists⟩ := hs.lists.setBranch k.val hstores
  have hnode : s.1.peers.read k.node =
      some ⟨k.val.withList (link k.items), link (ls.map (Branch.cell PeerAckNode.withList))⟩ :=
    hs.lists.read_node
  have hbody : reportPeer lastSeq s k.node =
      some ({ s.1 with peers := peers, stores := stores }, s.2 ++ [k.peer]) := by
    have hlist : (k.val.withList (link k.items)).ackStore = link k.items := rfl
    have hsweep' : sweep (fun _ => true) id
        (fun vs v => vs ++ [v.store (k.val.withList (link k.items)).addr]) lastSeq [] s.1.stores
        (link k.items) = _ := hsweep
    have hset' : s.1.peers.setVal k.node { k.val.withList (link k.items) with ackStore := link [] }
        = some peers := hset
    simp only [reportPeer, hnode, Option.bind_eq_bind, Option.bind_some, hlist, hsweep', hset']
    rfl
  refine ⟨_, _, hbody, hlists.read_node, ⟨?_, ?_, hs.highest⟩⟩
  · rw [List.map_append, List.append_assoc]
    refine ⟨hlists.head, hlists.outer, hlists.inner.perm (List.Perm.refl _) ?_⟩
    rw [leftOver, leftOver, List.flatMap_append, List.flatMap_singleton]
    exact List.perm_append_comm
  · simp [hs.stats]

theorem leftOver_of_aims {mk : PeerAckNode → Link → PeerAckNode} {peers : Memory PeerAckNode}
    {stores : Memory AckStoreNode} {head lastSeq : Link} {highest : Option AckStore}
    (hl : NestedLists.Layout mk peers stores head (ks.map emptied) (leftOver lastSeq ks))
    (haims : AckBranch.Aims ks lastSeq highest) :
    lastSeq = none ∧ highest = none ∧ leftOver lastSeq ks = [] ∨
      ∃ k ∈ ks, ∃ x ∈ k.items, lastSeq = some x.1 ∧ highest = some (x.2.store k.val.addr) ∧
        leftOver lastSeq ks = [x] := by
  match lastSeq, highest, haims with
  | none, none, _ => exact Or.inl ⟨rfl, rfl, by simp [leftOver]⟩
  | some a, some store, ⟨k, hk, x, hx, hxa, hstore⟩ =>
    refine Or.inr ⟨k, hk, x, hx, by rw [hxa], by rw [hstore], ?_⟩
    have hmem : x ∈ leftOver (some a) ks :=
      List.mem_flatMap.mpr ⟨k, hk, List.mem_filter.mpr ⟨hx, by simp [hxa]⟩⟩
    have hall : ∀ y ∈ leftOver (some a) ks, y.1 = a := by
      intro y hy
      obtain ⟨l, -, hy⟩ := List.mem_flatMap.mp hy
      simpa [eq_comm] using (List.mem_filter.mp hy).2
    have honce : ((leftOver (some a) ks).map Prod.fst).Nodup := by
      have hnodup := hl.inner.once
      rw [List.map_append] at hnodup
      exact (List.nodup_append.mp hnodup).2.1
    generalize leftOver (some a) ks = l at hmem hall honce
    match l with
    | [y] => rw [List.mem_singleton.mp hmem]
    | y :: z :: rest =>
      have hyz : y.1 = z.1 := (hall y (by simp)).trans (hall z (by simp)).symm
      simp [hyz] at honce

/-- The report is what the table says; all acks are freed, each once. -/
theorem Represents.report_eq (hr : h.Represents t) :
    ∃ h', h.report = some (h', ⟨(getAckStore t).1, (getAckStore t).2⟩) ∧
      h'.Reported t.drain := by
  obtain ⟨ks, hl, ht, haims⟩ := hr
  have hstart : ReportedSome h h.highestSeq [] ks (h, []) := ⟨hl.lists, rfl, rfl⟩
  obtain ⟨⟨h', stats⟩, hloop, hlists, hstats, hhighest⟩ := hl.lists.foreach_rule
    (fun s : AckStoreHeap × List PeerAckStore => s.1.peers)
    (ReportedSome h h.highestSeq) (fun _ _ _ _ _ hs => hs.peer) hstart
  rw [List.append_nil] at hlists
  simp only at hlists hstats hhighest
  have hempty : ∀ k ∈ ks.map emptied, k.items = [] := by
    intro k hk
    obtain ⟨l, -, rfl⟩ := List.mem_map.mp hk
    rfl
  have hpoints : ∀ k ∈ ks.map emptied, ∀ x ∈ k.items, x.2.addr = k.node := by
    intro k hk x hx
    rw [hempty k hk] at hx
    cases hx
  have hdrain : t.drain.peeracklist = (ks.map emptied).map AckBranch.peer := by
    rw [AckTable.drain, ht, List.map_map, List.map_map]
    rfl
  rcases leftOver_of_aims hlists haims with ⟨hs, hhigh, hloose⟩ | ⟨k, hk, x, hx, hs, hhigh, hloose⟩
  · rw [hloose] at hlists
    refine ⟨h', ?_, ks.map emptied, ⟨hlists, hpoints⟩, hdrain, hempty⟩
    rw [report, hloop]
    cases stats <;> simp [hs, hhigh, getAckStore, ht, ← hstats]
  · rw [hloose] at hlists
    obtain ⟨stores, hfree, hstores⟩ := hlists.inner.free_eq
    obtain ⟨l, hread⟩ := hlists.inner.apart x List.mem_cons_self
    have hstore : h'.storeAt x.1 = some (x.2.store k.val.addr) := by
      obtain ⟨next, hnode⟩ := hlists.read_mem (List.mem_map_of_mem hk)
      have hnode : h'.peers.read k.node = some ⟨k.val.withList none, next⟩ := hnode
      rw [← hl.points k hk x hx] at hnode
      simp [storeAt, hread, hnode, PeerAckNode.withList]
    refine ⟨{ h' with stores := stores }, ?_, ks.map emptied,
      ⟨⟨hlists.head, hlists.outer, hstores⟩, hpoints⟩, hdrain, hempty⟩
    rw [report, hloop]
    have hsome : stats ≠ [] := by
      rw [hstats]
      exact List.ne_nil_of_mem (List.mem_map_of_mem hk)
    obtain ⟨p, rest, hcons⟩ := List.exists_cons_of_ne_nil hsome
    rw [hcons] at hstats ⊢
    simp [hs, hhigh, hstore, hfree, getAckStore, ht, ← hstats]

theorem Reported.releaseAckStore_eq (hr : h.Reported t) :
    ∃ h', h.releaseAckStore = some h' ∧ h'.Represents t.releaseAckStore := by
  obtain ⟨ks, hl, ht, hempty⟩ := hr
  let released (k : AckBranch) : AckBranch :=
    { k with val := { k.val with lastAcked := 0, lastError := 0 } }
  have hbody : ∀ front k back peers, ks = front ++ k :: back →
      NestedLists.Layout PeerAckNode.withList peers h.stores h.peeracklist
        (front.map released ++ k :: back) [] →
      ∃ peers' v, releasePeer peers k.node = some peers' ∧
        peers'.read k.node = some ⟨v, link (back.map (Branch.cell PeerAckNode.withList))⟩ ∧
        NestedLists.Layout PeerAckNode.withList peers' h.stores h.peeracklist
          ((front ++ [k]).map released ++ back) [] := by
    intro front k back peers _ hs
    obtain ⟨peers', hset, hlists⟩ := hs.setBranch (released k).val hs.focus
    have hset' : releasePeer peers k.node = some peers' := by
      rw [releasePeer, hs.read_node]
      exact hset
    refine ⟨peers', _, hset', hlists.read_node, ?_⟩
    rw [List.map_append, List.append_assoc]
    exact hlists
  obtain ⟨peers, hloop, hlists⟩ := hl.lists.foreach_rule (fun peers => peers)
    (fun front back peers => NestedLists.Layout PeerAckNode.withList peers h.stores h.peeracklist
      (front.map released ++ back) []) hbody hl.lists
  rw [List.append_nil] at hlists
  refine ⟨{ h with peers := peers, highestSeq := none }, by rw [releaseAckStore, hloop]; rfl,
    ks.map released, ⟨hlists, ?_⟩, ?_, trivial⟩
  · intro k hk x hx
    obtain ⟨l, hl', rfl⟩ := List.mem_map.mp hk
    exact hl.points l hl' x hx
  · rw [AckTable.releaseAckStore, ht, List.map_map, List.map_map]
    rfl

end AckStoreHeap

end Bora
