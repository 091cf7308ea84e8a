import Bora.AckReports
import Bora.DatagramTables
import Bora.Estimates
import Bora.NodeTables
import Bora.ResendQueueing
import Bora.Library.Noninterference

/-! Who can make a node do what: a datagram adds nothing but what is for, or from, the host that it
comes from, and what a node keeps about one host does not depend on the datagrams of another. -/
namespace Bora

open ByteMemory Checked Noninterference Processing Transition

/-- What a node keeps about the packets it sent to one peer. -/
structure PeerRecord where
  nacks : List Ack
  stats : Option PeerAckStore

namespace PeerRecord

def appended (p : PeerRecord) (a : Ack) : PeerRecord := { p with nacks := a :: p.nacks }

def acked (p : PeerRecord) (ackR : AckReceived) (received : Timeval) (source : SockAddr) :
    PeerRecord :=
  match p.nacks.find? (fun a => a.seq = ackR.seq) with
  | none => p
  | some pop =>
    let store := ackStoreOf pop ackR received source
    let rest := p.nacks.eraseP (fun a => a.seq = ackR.seq)
    match p.stats with
    | none => ⟨rest.filter (fun a => !sentBefore pop a), some (.first store)⟩
    | some peer =>
      let rest := rest.filter (fun a => !covered pop ackR.cons a)
      ⟨rest.filter (fun a => !sentBefore pop a),
        some (peer.acked store (rest.filter (sentBefore pop)).length)⟩

def timeout (p : PeerRecord) : UInt64 :=
  match p.stats with
  | none => 0
  | some peer =>
    if peer.lastRTT.toNat * 6 > 10000 * 5 then UInt64.ofNat (peer.lastRTT.toNat * 6 / 5) else 10000

def swept (p : PeerRecord) (now : Timeval) : PeerRecord :=
  { p with nacks := p.nacks.filter (fun a => !timedOut (timeToUsec now) p.timeout a) }

def drained (p : PeerRecord) : PeerRecord :=
  { p with stats := p.stats.map (fun peer => { peer with ackStore := [] }) }

def released (p : PeerRecord) : PeerRecord :=
  { p with stats := p.stats.map (fun peer => { peer with lastAcked := 0, lastError := 0 }) }

end PeerRecord

/-- What the tables have about each peer. -/
def AckState.peer (s : AckState) (addr : SockAddr) : PeerRecord :=
  ⟨s.nacks.nacksOf addr, s.acks.findPeerByHost addr⟩

/-- A packet stands in the list of the peer it was sent to. -/
def AckState.Addressed (s : AckState) : Prop :=
  ∀ addr, ∀ a ∈ s.nacks.nacksOf addr, a.d.dest = addr

namespace AckTable

theorem findPeerByHost_received (t : AckTable) (store : AckStore) (errors : ℕ) :
    (t.received store errors).findPeerByHost =
      Function.update t.findPeerByHost store.addr
        (some ((t.findPeerByHost store.addr).elim (.first store) (·.acked store errors))) := by
  funext addr
  unfold received
  by_cases haddr : addr = store.addr
  · subst addr
    rw [Function.update_self]
    cases hfind : t.findPeerByHost store.addr with
    | none => simp [findPeerByHost]
    | some p =>
      have hfind' : t.peeracklist.find? (fun p => p.addr = store.addr) = some p := hfind
      simp only [findPeerByHost, Option.elim_some]
      rw [FirstMatch.find?_modify_same (fun p hp => by simpa [p.acked_addr] using hp), hfind']
      rfl
  · rw [Function.update_of_ne haddr]
    cases hfind : t.findPeerByHost store.addr with
    | none => simp [findPeerByHost, Ne.symm haddr]
    | some p =>
      simp only [findPeerByHost]
      rw [FirstMatch.find?_modify_other]
      intro q _ hq
      have hq : q.addr = store.addr := by simpa using hq
      simp [q.acked_addr, hq, Ne.symm haddr]

theorem findPeerByHost_map {t u : AckTable} {g : PeerAckStore → PeerAckStore}
    (haddr : ∀ p, (g p).addr = p.addr) (hu : u.peeracklist = t.peeracklist.map g)
    (addr : SockAddr) : u.findPeerByHost addr = (t.findPeerByHost addr).map g := by
  simp only [findPeerByHost, hu, List.find?_map, Function.comp_def, haddr]

end AckTable

namespace AckState

variable {s t : AckState}

theorem peer_eq_update {addr : SockAddr} {p : PeerRecord}
    (hn : t.nacks.nacksOf = Function.update s.nacks.nacksOf addr p.nacks)
    (ha : t.acks.findPeerByHost = Function.update s.acks.findPeerByHost addr p.stats) :
    t.peer = Function.update s.peer addr p := by
  funext a
  by_cases haddr : a = addr
  · subst a
    simp [peer, hn, ha]
  · simp [peer, hn, ha, haddr]

/-- An ack does to the record of its peer what it would do to it alone, and nothing to others. -/
theorem acknowledged_peer (h : s.Addressed) (ackR : AckReceived) (received : Timeval)
    (source : SockAddr) :
    (s.acknowledged ackR received source).peer =
      Function.update s.peer source ((s.peer source).acked ackR received source) := by
  have hfind := popAck_find s.nacks ackR.seq source
  rcases hp : popAck s.nacks ackR.seq source with ⟨nacks, _ | pop⟩
  · rw [hp] at hfind
    have hsame : (s.peer source).acked ackR received source = s.peer source := by
      simp only [PeerRecord.acked, peer, ← hfind]
    rw [hsame, Function.update_eq_self]
    simp only [acknowledged, hp]
  obtain ⟨hfound, -, hnacks⟩ := popAck_some hp
  have hdest : pop.d.dest = source := h source pop (List.mem_of_find?_eq_some hfound)
  have hack : s.acknowledged ackR received source =
      ackReceived { s with nacks := nacks } pop ackR received source := by
    simp only [acknowledged, hp]
  have hacks := AckTable.received_eq { s with nacks := nacks } pop ackR received source
  simp only [removeLostAcks_eq, resendOooNacks_eq, hdest] at hacks
  have hstore : (ackStoreOf pop ackR received source).addr = source := rfl
  rw [hack]
  cases hpeer : s.acks.findPeerByHost source with
  | none =>
    obtain ⟨hn, -⟩ := ackReceived_new { s with nacks := nacks } pop ackR received source hpeer
    apply peer_eq_update
    · rw [hn, hdest, NackTable.nacksOf_unselected, hnacks]
      simp [PeerRecord.acked, peer, hfound, hpeer]
    · rw [hacks, AckTable.findPeerByHost_received, hstore]
      simp [PeerRecord.acked, peer, hfound, hpeer]
  | some p =>
    obtain ⟨hn, -⟩ := ackReceived_known { s with nacks := nacks } pop ackR received source
      (by simp [hpeer])
    apply peer_eq_update
    · rw [hn, hdest, NackTable.nacksOf_unselected, NackTable.nacksOf_unselected, hnacks]
      simp [PeerRecord.acked, peer, hfound, hpeer]
    · rw [hacks, AckTable.findPeerByHost_received, hstore]
      simp [PeerRecord.acked, peer, hfound, hpeer, NackTable.selected,
        NackTable.nacksOf_unselected, hnacks]

theorem sweepTimeouts_peer (s : AckState) (now : Timeval) (addr : SockAddr) :
    (s.sweepTimeouts now).peer addr = (s.peer addr).swept now := by
  obtain ⟨-, -, hnacks⟩ := resendTimeoutNacks_spec s.nacks s.queues s.acks.getTimeoutValue now
  have hn : (s.sweepTimeouts now).nacks.nacksOf addr = _ := hnacks addr
  simp only [peer, PeerRecord.swept, hn]
  rfl

theorem Addressed.shrink (h : s.Addressed)
    (hsub : ∀ addr, (t.nacks.nacksOf addr).Sublist (s.nacks.nacksOf addr)) : t.Addressed :=
  fun addr a ha => h addr a ((hsub addr).subset ha)

end AckState

theorem receivedAck_source {data : IncomingData} {r : AckReceived × SockAddr}
    (h : receivedAck data = some r) : r.2.sin_addr = data.source.sin_addr := by
  unfold receivedAck at h
  split at h
  · obtain ⟨_, -, rfl⟩ := Option.map_eq_some_iff.mp h
    unfold stripped portStage
    split
    · split <;> rfl
    · simp only
      split <;> rfl
  · cases h

/-- What a datagram does to the records of the peers. -/
theorem packetProcessor_peer {node : Node} (h : node.ack.Addressed) (data : IncomingData)
    (junk : UInt16) :
    (packetProcessor node data junk).node.ack.peer =
      match receivedAck data with
      | none => node.ack.peer
      | some (ackR, source) =>
        Function.update node.ack.peer source
          ((node.ack.peer source).acked ackR data.tv source) := by
  rcases packetProcessor_tables node data junk with ⟨ackR, source, hread, htables⟩ |
    ⟨hread, htables | ⟨seq, cons, tv, addr, htables⟩⟩
  · rw [htables, hread]
    exact AckState.acknowledged_peer h ackR data.tv source
  · rw [htables, hread]
  · rw [htables, hread]
    rfl

def Completion.fromOther (ip : UInt32) : Completion → Bool
  | .raw data => data.source.sin_addr ≠ ip
  | .block _ => false

/-- All that a datagram from `ip` has led to so far is for this host, or from it: the queues are
those of before, with packets behind that go there. -/
structure Contained (ip : UInt32) (n : Node) (p : Processing) : Prop where
  source : p.data.source.sin_addr = ip
  valid : p.node.ack.queues.Valid
  addressed : p.node.ack.Addressed
  queued : ∀ q, ∃ new, p.node.ack.queues.queued q = n.ack.queues.queued q ++ new ∧
    ∀ d ∈ new, d.dest.sin_addr = ip
  bwmlist : p.node.bwmlist.filter (fun m => m.addr.sin_addr ≠ ip) =
    n.bwmlist.filter (fun m => m.addr.sin_addr ≠ ip)
  raws : p.node.completed.filter (Completion.fromOther ip) =
    n.completed.filter (Completion.fromOther ip)
  estimations : ∀ addr : SockAddr, addr.sin_addr ≠ ip →
    bwFindByHost p.node.estimations addr = bwFindByHost n.estimations addr

namespace Contained

variable {ip : UInt32} {n : Node} {p p' : Processing}

theorem more (h : Contained ip n p) (q : QueueName) {queued new : List SendData}
    (hqueued : queued = p.node.ack.queues.queued q ++ new)
    (hnew : ∀ d ∈ new, d.dest.sin_addr = ip) :
    ∃ new, queued = n.ack.queues.queued q ++ new ∧ ∀ d ∈ new, d.dest.sin_addr = ip := by
  obtain ⟨before, hbefore, hto⟩ := h.queued q
  refine ⟨before ++ new, ?_, List.forall_mem_append.mpr ⟨hto, hnew⟩⟩
  rw [hqueued, hbefore, List.append_assoc]

theorem frame (h : Contained ip n p) (hsource : p'.data.source.sin_addr = p.data.source.sin_addr)
    (hack : p'.node.ack = p.node.ack) (hbw : p'.node.bwmlist = p.node.bwmlist)
    (hraws : p'.node.completed.filter (Completion.fromOther ip) =
      p.node.completed.filter (Completion.fromOther ip))
    (hest : p'.node.estimations = p.node.estimations) : Contained ip n p' where
  source := hsource.trans h.source
  valid := hack ▸ h.valid
  addressed := hack ▸ h.addressed
  queued := hack ▸ h.queued
  bwmlist := hbw ▸ h.bwmlist
  raws := hraws.trans h.raws
  estimations := hest ▸ h.estimations

theorem portStage (h : Contained ip n p) : Contained ip n p.portStage := by
  unfold Processing.portStage
  split
  · split
    · refine h.frame rfl rfl rfl ?_ rfl
      rw [Processing.complete, List.filter_append]
      simp [Completion.fromOther, h.source]
    · exact h
  · simp only
    split <;> exact h.frame rfl rfl rfl rfl rfl

theorem reject (h : Contained ip n p) : Contained ip n p.reject := h.frame rfl rfl rfl rfl rfl

theorem answer (h : Contained ip n p) (seq : UInt16) : Contained ip n (p.answer seq) := by
  unfold Processing.answer
  split
  · exact h.frame rfl rfl rfl rfl rfl
  · rename_i cons _
    obtain ⟨hvalid, hqueued⟩ := SendQueues.sendData_spec h.valid
      (ackFor seq cons p.data.tv p.data.source)
    refine ⟨h.source, hvalid, h.addressed, fun q => h.more q (hqueued q) (fun d hd => ?_),
      h.bwmlist, h.raws, h.estimations⟩
    split at hd
    · rw [List.mem_singleton.mp hd]
      exact h.source
    · simp at hd

theorem needAckStage (h : Contained ip n p) : Contained ip n p.needAckStage := by
  have hcounted : Contained ip n (((p.noteSub ackSize).sub ackSize).addStat .data ackSize) :=
    h.frame rfl rfl rfl rfl rfl
  unfold Processing.needAckStage
  split
  · simp only
    split
    · exact hcounted.answer _
    · exact h.frame rfl rfl rfl rfl rfl
  · exact h

theorem acknowledged (h : Contained ip n p) (ackR : AckReceived) (received : Timeval) :
    Contained ip n (p.setAck (p.node.ack.acknowledged ackR received p.data.source)) := by
  have hsub := fun addr =>
    AckState.acknowledged_sublist p.node.ack ackR received p.data.source addr
  have hqueues := AckState.acknowledged_queues p.node.ack ackR received p.data.source
  obtain ⟨hvalid, -, -⟩ := resends_spec h.valid (p.node.ack.overtaken ackR p.data.source)
  rw [← hqueues] at hvalid
  rw [foldl_resendNack] at hqueues
  refine ⟨h.source, hvalid, h.addressed.shrink (fun addr => (hsub addr).2), fun q => ?_,
    h.bwmlist, h.raws, h.estimations⟩
  refine h.more q ((congrArg (·.queued q) hqueues).trans
    (SendQueues.sendAll_queued h.valid _ q)) (fun d hd => ?_)
  have hmem := (SendQueues.takes_sublist _ _).subset (List.mem_filter.mp hd).1
  obtain ⟨a, ha, hr⟩ := List.mem_filterMap.mp hmem
  have hover := AckState.overtaken_mem (h.addressed p.data.source) ha
  obtain ⟨rfl, -⟩ := resent_eq hr
  rw [SendData.setFlags_dest, h.addressed p.data.source a hover]
  exact h.source

theorem ackStage_other (p : Processing) :
    p.ackStage.data.source = p.data.source ∧ p.ackStage.node.bwmlist = p.node.bwmlist := by
  unfold Processing.ackStage
  split
  · split
    · simp only
      split
      · exact ⟨rfl, rfl⟩
      · split <;> exact ⟨rfl, rfl⟩
    · exact ⟨rfl, rfl⟩
  · exact ⟨rfl, rfl⟩

theorem ackStage (h : Contained ip n p) : Contained ip n p.ackStage := by
  have hkeeps := ackStage_keeps (p := p)
  obtain ⟨hsource, hbw⟩ := ackStage_other p
  cases hread : p.readAck with
  | some ackR =>
    obtain ⟨hack, -⟩ := ackStage_acknowledged hread
    exact (h.acknowledged ackR p.data.tv).frame (by rw [hsource]; rfl) hack hbw
      (by rw [hkeeps.completed]; rfl) hkeeps.estimations
  | none =>
    exact h.frame (by rw [hsource]) (ackStage_unread hread) hbw (by rw [hkeeps.completed])
      hkeeps.estimations

theorem bwStage (h : Contained ip n p) : Contained ip n p.bwStage := by
  unfold Processing.bwStage
  split
  · split
    · split
      · exact h.reject
      · refine ⟨h.source, h.valid, h.addressed, h.queued, ?_, h.raws, h.estimations⟩
        rw [← h.bwmlist, bwmsgReceived, List.filter_cons_of_neg (by simp [h.source])]
    · exact h.reject
  · exact h

theorem fragmentAdded (h : Contained ip n p) (fragment : FragmentData) (r : AddResult) :
    Contained ip n (p.fragmentAdded fragment r) := by
  cases r with
  | duplicate => exact h.frame rfl rfl rfl rfl rfl
  | fragmentidOutOfBounds => exact h.frame rfl rfl rfl rfl rfl
  | fragmentsMismatch => exact h.frame rfl rfl rfl rfl rfl
  | badLen => exact h.frame rfl rfl rfl rfl rfl
  | added =>
    have hnoted : Contained ip n { p with node := { p.node with
        estimations := fragmentReceived p.node.estimations
          { source := p.data.source, streamid := fragment.streamid, blockid := fragment.blockid,
            fragmentid := fragment.fragmentid, buflen := p.data.buflen, tv := p.data.tv,
            flags := p.data.flags } } } := by
      refine ⟨h.source, h.valid, h.addressed, h.queued, h.bwmlist, h.raws, fun addr haddr => ?_⟩
      rw [← h.estimations addr haddr]
      apply find_fragmentReceived_other
      rintro rfl
      exact haddr h.source
    simp only [Processing.fragmentAdded]
    split
    · refine hnoted.frame rfl rfl rfl ?_ rfl
      rw [Processing.complete, List.filter_append]
      simp [Completion.fromOther]
    · exact hnoted

theorem blockStage (h : Contained ip n p) (junk : UInt16) : Contained ip n (p.blockStage junk) := by
  unfold Processing.blockStage
  split
  · split
    · split
      · exact h.reject
      · split
        · exact h.frame rfl rfl rfl rfl rfl
        · rename_i fragment _ _ cache r _
          have hcached : Contained ip n { p with node := { p.node with cache := cache } } :=
            h.frame rfl rfl rfl rfl rfl
          exact hcached.fragmentAdded fragment r
    · exact h.reject
  · exact h

theorem andThen (h : Contained ip n p) {stage : Processing → Processing}
    (hstage : ∀ p, Contained ip n p → Contained ip n (stage p)) :
    Contained ip n (p.andThen stage) := by
  unfold Processing.andThen
  split
  · exact hstage p h
  · exact h

end Contained

/-- A datagram from `ip` is processed to the end, or to its fault, for this host alone. -/
theorem packetProcessor_contained {node : Node} (hvalid : node.ack.queues.Valid)
    (haddressed : node.ack.Addressed) (data : IncomingData) (junk : UInt16) :
    Contained data.source.sin_addr node (packetProcessor node data junk) := by
  have hstart : Contained data.source.sin_addr node ⟨node, data, [], none⟩ :=
    ⟨rfl, hvalid, haddressed, fun _ => ⟨[], by simp, by simp⟩, rfl, rfl, fun _ _ => rfl⟩
  unfold packetProcessor
  refine Contained.andThen ?_ (fun p hp => hp.frame rfl rfl rfl rfl rfl)
  split
  · exact (((hstart.portStage.andThen (fun _ hp => hp.needAckStage)).andThen
      (fun _ hp => hp.ackStage)).andThen (fun _ hp => hp.bwStage)).andThen
      (fun _ hp => hp.blockStage junk)
  · exact hstart

/-- `append` is what the sender thread records of a packet; `send` and `fetch` are calls of
`send_data` and takes from a queue by the other threads; `elsewhere` is what the rest of the
program does to the rest of the node. -/
inductive TrafficAction
  | datagram (data : IncomingData) (junk : UInt16)
  | append (d : SendData) (sendtime : Timeval) (sleeptime : UInt32)
  | timeout (now : Timeval)
  | drain
  | release
  | send (d : SendData)
  | fetch (q : QueueName)
  | elsewhere (cookies : Cookies) (rest : Node)

def Node.setTables (node : Node) (ack : AckState) : Node := { node with ack := ack }

/-- A datagram whose processing faults, and a take from an empty queue, have no state after
them. -/
def traffic : System Node TrafficAction where
  init node := node = Node.init
  step node
    | .datagram data junk =>
      if (packetProcessor node data junk).fault = none then
        some (packetProcessor node data junk).node
      else none
    | .append d sendtime sleeptime =>
      match appendAck node.ack.nacks d sendtime sleeptime with
      | .error _ => none
      | .ok (nacks, _) => some (node.setTables { node.ack with nacks := nacks })
    | .timeout now => some (node.setTables (node.ack.sweepTimeouts now))
    | .drain => some (node.setTables { node.ack with acks := node.ack.acks.drain })
    | .release => some (node.setTables { node.ack with acks := node.ack.acks.releaseAckStore })
    | .send d => some (node.setTables (node.ack.setQueues (node.ack.queues.sendData d).1))
    | .fetch q =>
      if 0 < node.ack.queues.f q then
        some (node.setTables (node.ack.setQueues (node.ack.queues.dequeue q)))
      else none
    | .elsewhere cookies rest =>
      some (rest.setTables { node.ack with cookies := cookies })

structure Orderly (node : Node) : Prop where
  valid : node.ack.queues.Valid
  addressed : node.ack.Addressed

theorem Orderly.step {s t : Node} (h : Orderly s) {a : TrafficAction}
    (hstep : traffic.step s a = some t) : Orderly t := by
  cases a with
  | datagram data junk =>
    simp only [traffic] at hstep
    split at hstep
    · cases hstep
      have hcontained := packetProcessor_contained h.valid h.addressed data junk
      exact ⟨hcontained.valid, hcontained.addressed⟩
    · cases hstep
  | append d sendtime sleeptime =>
    simp only [traffic] at hstep
    split at hstep
    · cases hstep
    · rename_i nacks d' hn
      cases hstep
      obtain ⟨-, -, -, hnacks⟩ := appendAck_ok hn
      refine ⟨h.valid, ?_⟩
      show ∀ addr, ∀ a ∈ nacks.nacksOf addr, a.d.dest = addr
      rw [hnacks]
      exact (Function.forall_update_iff _
        (fun addr (l : List Ack) => ∀ a ∈ l, a.d.dest = addr)).mpr
        ⟨List.forall_mem_cons.mpr ⟨rfl, h.addressed _⟩, fun addr _ => h.addressed addr⟩
  | timeout now =>
    cases hstep
    obtain ⟨-, hqueues, -⟩ :=
      resendTimeoutNacks_spec s.ack.nacks s.ack.queues s.ack.acks.getTimeoutValue now
    refine ⟨?_, h.addressed.shrink
      (fun addr => (AckState.sweepTimeouts_sublist s.ack now addr).2)⟩
    show (s.ack.sweepTimeouts now).queues.Valid
    rw [show (s.ack.sweepTimeouts now).queues = _ from hqueues]
    exact (resends_spec h.valid _).1
  | drain =>
    cases hstep
    exact ⟨h.valid, h.addressed⟩
  | release =>
    cases hstep
    exact ⟨h.valid, h.addressed⟩
  | send d =>
    cases hstep
    exact ⟨(SendQueues.sendData_spec h.valid d).1, h.addressed⟩
  | fetch q =>
    simp only [traffic] at hstep
    split at hstep
    · rename_i hf
      cases hstep
      exact ⟨(SendQueues.dequeue_spec h.valid hf).1, h.addressed⟩
    · cases hstep
  | elsewhere cookies rest =>
    cases hstep
    exact ⟨h.valid, h.addressed⟩

theorem orderly_init : Orderly Node.init where
  valid := SendQueues.valid_init
  addressed := by simp [AckState.Addressed, Node.init, NackTable.nacksOf, NackTable.findByHost,
    NackTable.init]

theorem orderly_reachable {s : Node} (h : Reachable traffic s) : Orderly s := by
  apply h.invariant
  · rintro _ rfl
    exact orderly_init
  · exact fun s a t hs _ hstep => hs.step hstep

/-- A datagram from the host 9: a block of one fragment of one byte, with the number 5. -/
def fragmentFromNine : IncomingData :=
  { slotOf [0x81, 1, 0, 0, 0, 0, 1, 0, 0, 0, 1, 0, 1, 7, 5, 0, 0, 0] (by decide) with
    source := ⟨9, 1⟩ }

/-- In every run, what a datagram adds is for the host that it comes from, or from it: every packet
that is queued for it is sent there, every message and estimate that it leaves is recorded as from
there, and what the node keeps about the packets sent to any other host stays. -/
theorem datagram_contained {s : Node} (h : Reachable traffic s) (data : IncomingData)
    (junk : UInt16) :
    Contained data.source.sin_addr s (packetProcessor s data junk) ∧
      ∀ addr : SockAddr, addr.sin_addr ≠ data.source.sin_addr →
        (packetProcessor s data junk).node.ack.peer addr = s.ack.peer addr := by
  have hs := orderly_reachable h
  refine ⟨packetProcessor_contained hs.valid hs.addressed data junk, fun addr haddr => ?_⟩
  rw [packetProcessor_peer hs.addressed data junk]
  cases hread : receivedAck data with
  | none => rfl
  | some r =>
    have hsource := receivedAck_source hread
    refine Function.update_of_ne ?_ _ _
    rintro rfl
    exact haddr hsource

/-- A numbered fragment is answered, and the answer goes to where it came from. -/
theorem datagram_contained_answer :
    ((packetProcessor Node.init fragmentFromNine 0).node.ack.queues.queued .prio).map
        (fun d => d.dest.sin_addr) = [9] ∧
      Contained 9 Node.init (packetProcessor Node.init fragmentFromNine 0) ∧
      ∀ addr : SockAddr, addr.sin_addr ≠ 9 →
        (packetProcessor Node.init fragmentFromNine 0).node.ack.peer addr =
          Node.init.ack.peer addr :=
  ⟨by decide +kernel, datagram_contained (.init rfl) fragmentFromNine 0⟩

/-- The actions as they concern the peers, each for itself; `seqNum` is the last number given. -/
def TrafficAction.onPeers (seqNum : UInt16) (peers : SockAddr → PeerRecord) :
    TrafficAction → SockAddr → PeerRecord
  | .datagram data _ =>
    match receivedAck data with
    | none => peers
    | some (ackR, source) =>
      Function.update peers source ((peers source).acked ackR data.tv source)
  | .append d sendtime sleeptime =>
    Function.update peers d.dest ((peers d.dest).appended ⟨seqNum + 1, sendtime, sleeptime, d⟩)
  | .timeout now => fun addr => (peers addr).swept now
  | .drain => fun addr => (peers addr).drained
  | .release => fun addr => (peers addr).released
  | _ => peers

/-- The tables are the records of the peers, side by side. -/
theorem traffic_onPeers {s t : Node} (hs : Orderly s) {a : TrafficAction}
    (hstep : traffic.step s a = some t) :
    t.ack.peer = a.onPeers s.ack.nacks.seqNum s.ack.peer := by
  cases a with
  | datagram data junk =>
    simp only [traffic] at hstep
    split at hstep
    · cases hstep
      exact packetProcessor_peer hs.addressed data junk
    · cases hstep
  | append d sendtime sleeptime =>
    simp only [traffic] at hstep
    split at hstep
    · cases hstep
    · rename_i nacks d' hn
      cases hstep
      obtain ⟨hseq, -, -, hnacks⟩ := appendAck_ok hn
      rw [hseq] at hnacks
      exact AckState.peer_eq_update hnacks (Function.update_eq_self _ _).symm
  | timeout now =>
    cases hstep
    exact funext fun addr => AckState.sweepTimeouts_peer s.ack now addr
  | drain =>
    cases hstep
    refine funext fun addr => ?_
    simp only [AckState.peer, TrafficAction.onPeers, PeerRecord.drained, PeerRecord.mk.injEq]
    exact ⟨rfl, AckTable.findPeerByHost_map
      (g := fun peer => { peer with ackStore := [] }) (fun _ => rfl) rfl addr⟩
  | release =>
    cases hstep
    refine funext fun addr => ?_
    simp only [AckState.peer, TrafficAction.onPeers, PeerRecord.released, PeerRecord.mk.injEq]
    exact ⟨rfl, AckTable.findPeerByHost_map
      (g := fun peer => { peer with lastAcked := 0, lastError := 0 }) (fun _ => rfl) rfl addr⟩
  | send d =>
    cases hstep
    rfl
  | fetch q =>
    simp only [traffic] at hstep
    split at hstep
    · cases hstep
      rfl
    · cases hstep
  | elsewhere cookies rest =>
    cases hstep
    rfl

/-- The entry but for its number. -/
def Ack.unnumbered (a : Ack) : Ack := { a with seq := 0 }

def AckStore.unnumbered (store : AckStore) : AckStore := { store with seq := 0 }

def PeerAckStore.unnumbered (peer : PeerAckStore) : PeerAckStore :=
  { peer with ackStore := peer.ackStore.map AckStore.unnumbered }

theorem PeerAckStore.acked_unnumbered (peer : PeerAckStore) (store : AckStore) (errors : ℕ) :
    (peer.acked store errors).unnumbered = peer.unnumbered.acked store.unnumbered errors := by
  by_cases herrors : 0 < errors <;> cases hhead : peer.ackStore.head? <;>
    simp only [acked, unnumbered, herrors, hhead, if_true, if_false, List.head?_map] <;> rfl

theorem PeerAckStore.first_unnumbered (store : AckStore) :
    (PeerAckStore.first store).unnumbered = .first store.unnumbered := rfl

namespace PeerRecord

def unnumbered (p : PeerRecord) : PeerRecord :=
  ⟨p.nacks.map Ack.unnumbered, p.stats.map PeerAckStore.unnumbered⟩

/-- The two numbers are on the same entries of the two lists. -/
def NamesSame (p q : PeerRecord) (seq seq' : UInt16) : Prop :=
  List.Forall₂ (fun a b : Ack => a.seq = seq ↔ b.seq = seq') p.nacks q.nacks

instance (p q : PeerRecord) (seq seq' : UInt16) : Decidable (p.NamesSame q seq seq') :=
  inferInstanceAs (Decidable (List.Forall₂ _ _ _))

variable {p q : PeerRecord}

/-- The same packet, and the two numbers are on both entries or on none. -/
structure Paired (seq seq' : UInt16) (a b : Ack) : Prop where
  same : a.unnumbered = b.unnumbered
  named : a.seq = seq ↔ b.seq = seq'

section Paired

variable {seq seq' : UInt16} {as bs : List Ack} {a b : Ack} {cons : UInt16}

theorem paired_of_names (h : as.map Ack.unnumbered = bs.map Ack.unnumbered)
    (hnames : List.Forall₂ (fun a b : Ack => a.seq = seq ↔ b.seq = seq') as bs) :
    List.Forall₂ (Paired seq seq') as bs := by
  induction hnames with
  | nil => exact .nil
  | cons hab _ ih =>
    obtain ⟨hsame, hrest⟩ := List.cons.inj h
    exact .cons ⟨hsame, hab⟩ (ih hrest)

theorem map_unnumbered (h : List.Forall₂ (Paired seq seq') as bs) :
    as.map Ack.unnumbered = bs.map Ack.unnumbered := by
  induction h with
  | nil => rfl
  | cons hab _ ih => rw [List.map_cons, List.map_cons, hab.same, ih]

theorem sentBefore_unnumbered (ack cur : Ack) :
    sentBefore ack cur = sentBefore ack.unnumbered cur.unnumbered := rfl

theorem covered_unnumbered (ack cur : Ack) (cons : UInt16) :
    covered ack cons cur = covered ack.unnumbered cons cur.unnumbered := rfl

theorem Paired.decide_seq (h : Paired seq seq' a b) :
    decide (a.seq = seq) = decide (b.seq = seq') := by simp only [h.named]

variable {pop pop' : Ack}

theorem Paired.sentBefore_eq (hpop : Paired seq seq' pop pop') (h : Paired seq seq' a b) :
    sentBefore pop a = sentBefore pop' b := by
  rw [sentBefore_unnumbered, hpop.same, h.same, ← sentBefore_unnumbered]

theorem Paired.covered_eq (hpop : Paired seq seq' pop pop') (h : Paired seq seq' a b) :
    covered pop cons a = covered pop' cons b := by
  rw [covered_unnumbered, hpop.same, h.same, ← covered_unnumbered]

theorem Paired.store_eq {ackR : AckReceived} (hpop : Paired ackR.seq seq' pop pop')
    (received : Timeval) (source : SockAddr) :
    (ackStoreOf pop ackR received source).unnumbered =
      (ackStoreOf pop' { ackR with seq := seq' } received source).unnumbered := by
  have hfields := Ack.mk.inj hpop.same
  simp only [ackStoreOf, AckStore.unnumbered, hfields.2.1, hfields.2.2.1]

end Paired

/-- Acks that name the same entry do the same to the records. -/
theorem acked_unnumbered (h : p.unnumbered = q.unnumbered) {ackR : AckReceived} {seq' : UInt16}
    (hnames : p.NamesSame q ackR.seq seq') (received : Timeval) (source : SockAddr) :
    (p.acked ackR received source).unnumbered =
      (q.acked { ackR with seq := seq' } received source).unnumbered := by
  obtain ⟨hnacks, hstats⟩ := PeerRecord.mk.inj h
  have hlists := paired_of_names hnacks hnames
  have hseq : ∀ a b, Paired ackR.seq seq' a b → decide (a.seq = ackR.seq) = decide (b.seq = seq') :=
    fun a b hab => hab.decide_seq
  have hrest := FirstMatch.eraseP_forall₂ hseq hlists
  have hfind := FirstMatch.find?_forall₂ hseq hlists
  simp only [acked]
  generalize p.nacks.find? (fun a => a.seq = ackR.seq) = x at hfind ⊢
  generalize q.nacks.find? (fun a => a.seq = seq') = y at hfind ⊢
  cases hfind with
  | none => exact h
  | @some pop pop' hpop =>
    have hbefore : ∀ a b, Paired ackR.seq seq' a b → sentBefore pop a = sentBefore pop' b :=
      fun a b hab => hpop.sentBefore_eq hab
    have hkeep : ∀ a b, Paired ackR.seq seq' a b → (!sentBefore pop a) = !sentBefore pop' b :=
      fun a b hab => by rw [hbefore a b hab]
    have huncovered : ∀ a b, Paired ackR.seq seq' a b →
        (!covered pop ackR.cons a) = !covered pop' ackR.cons b :=
      fun a b hab => by rw [hpop.covered_eq hab]
    have hstore := hpop.store_eq received source
    cases hps : p.stats with
    | none =>
      have hqs : q.stats = none := by
        rw [hps] at hstats
        exact Option.map_eq_none_iff.mp hstats.symm
      rw [hqs]
      have hkept := FirstMatch.filter_forall₂ hkeep hrest
      simp only [unnumbered, map_unnumbered hkept, Option.map_some, PeerAckStore.first_unnumbered,
        hstore]
    | some peer =>
      obtain ⟨peer', hqs, hpeer⟩ : ∃ peer', q.stats = some peer' ∧
          peer.unnumbered = peer'.unnumbered := by
        rw [hps, Option.map_some] at hstats
        obtain ⟨peer', hqs, hpeer⟩ := Option.map_eq_some_iff.mp hstats.symm
        exact ⟨peer', hqs, hpeer.symm⟩
      rw [hqs]
      have hleft := FirstMatch.filter_forall₂ huncovered hrest
      have hkept := FirstMatch.filter_forall₂ hkeep hleft
      have herrors := (FirstMatch.filter_forall₂ hbefore hleft).length_eq
      simp only [unnumbered, map_unnumbered hkept, Option.map_some,
        PeerAckStore.acked_unnumbered, hstore, hpeer, herrors]

theorem appended_unnumbered (h : p.unnumbered = q.unnumbered) {a b : Ack}
    (hab : a.unnumbered = b.unnumbered) :
    (p.appended a).unnumbered = (q.appended b).unnumbered := by
  obtain ⟨hnacks, hstats⟩ := PeerRecord.mk.inj h
  simp only [unnumbered, appended, List.map_cons, hab, hnacks, hstats]

theorem timeout_unnumbered (p : PeerRecord) : p.unnumbered.timeout = p.timeout := by
  unfold timeout unnumbered
  cases p.stats <;> rfl

theorem swept_unnumbered (p : PeerRecord) (now : Timeval) :
    (p.swept now).unnumbered = p.unnumbered.swept now := by
  unfold swept
  rw [timeout_unnumbered]
  simp only [unnumbered, PeerRecord.mk.injEq, and_true, List.filter_map]
  rfl

theorem drained_unnumbered (p : PeerRecord) : p.drained.unnumbered = p.unnumbered.drained := by
  unfold drained unnumbered
  cases p.stats <;> rfl

theorem released_unnumbered (p : PeerRecord) : p.released.unnumbered = p.unnumbered.released := by
  unfold released unnumbered
  cases p.stats <;> rfl

end PeerRecord

/-- What concerns no peer but those at `ip`: what comes from there or is no acknowledgement, what is
sent there, and what the other threads do to the queues and to the rest of the node. -/
def TrafficAction.Elsewhere (ip : UInt32) : TrafficAction → Prop
  | .datagram data _ => data.source.sin_addr = ip ∨ receivedAck data = none
  | .append d _ _ => d.dest.sin_addr = ip
  | .send _ | .fetch _ | .elsewhere _ _ => True
  | _ => False

/-- The same packet sent at the same time, under any number, an acknowledgement of the same packet
under its number, or the same sweep or report. -/
def TrafficAction.Alike (s t : Node) : TrafficAction → TrafficAction → Prop
  | .append d sendtime sleeptime, .append d' sendtime' sleeptime' =>
    d' = d ∧ sendtime' = sendtime ∧ sleeptime' = sleeptime
  | .datagram data _, .datagram data' _ =>
    match receivedAck data, receivedAck data' with
    | some (ackR, source), some (ackR', source') =>
      ackR' = { ackR with seq := ackR'.seq } ∧ source' = source ∧ data'.tv = data.tv ∧
        (s.ack.peer source).NamesSame (t.ack.peer source) ackR.seq ackR'.seq
    | _, _ => False
  | .timeout now, .timeout now' => now' = now
  | .drain, .drain | .release, .release => True
  | _, _ => False

/-- The same records of all peers but those at `ip`, whatever numbers the packets have. -/
def SameElsewhere (ip : UInt32) (s t : Node) : Prop :=
  ∀ addr : SockAddr, addr.sin_addr ≠ ip →
    (s.ack.peer addr).unnumbered = (t.ack.peer addr).unnumbered

theorem onPeers_hidden {ip : UInt32} (seqNum : UInt16) (f : SockAddr → PeerRecord)
    {a : TrafficAction} (ha : a.Elsewhere ip) {addr : SockAddr} (haddr : addr.sin_addr ≠ ip) :
    a.onPeers seqNum f addr = f addr := by
  cases a with
  | datagram data junk =>
    simp only [TrafficAction.onPeers]
    cases hread : receivedAck data with
    | none => rfl
    | some r =>
      have hip : data.source.sin_addr = ip := by simpa [TrafficAction.Elsewhere, hread] using ha
      refine Function.update_of_ne ?_ _ _
      rintro rfl
      exact haddr ((receivedAck_source hread).trans hip)
  | append d sendtime sleeptime =>
    refine Function.update_of_ne ?_ _ _
    rintro rfl
    exact haddr ha
  | timeout now => exact ha.elim
  | drain => exact ha.elim
  | release => exact ha.elim
  | send d => rfl
  | fetch q => rfl
  | elsewhere cookies rest => rfl

theorem onPeers_alike {ip : UInt32} {s t : Node} (h : SameElsewhere ip s t) {a b : TrafficAction}
    (hab : TrafficAction.Alike s t a b) {addr : SockAddr} (haddr : addr.sin_addr ≠ ip) :
    (a.onPeers s.ack.nacks.seqNum s.ack.peer addr).unnumbered =
      (b.onPeers t.ack.nacks.seqNum t.ack.peer addr).unnumbered := by
  have hsame := h addr haddr
  unfold TrafficAction.Alike at hab
  split at hab
  · obtain ⟨rfl, rfl, rfl⟩ := hab
    rename_i d sendtime sleeptime
    simp only [TrafficAction.onPeers]
    by_cases hd : addr = d.dest
    · subst hd
      rw [Function.update_self, Function.update_self]
      exact PeerRecord.appended_unnumbered hsame rfl
    · rw [Function.update_of_ne hd, Function.update_of_ne hd]
      exact hsame
  · split at hab
    · rename_i ackR source ackR' source' hread hread'
      obtain ⟨hackR, rfl, htv, hnames⟩ := hab
      simp only [TrafficAction.onPeers, hread, hread']
      by_cases hsource : addr = source'
      · subst hsource
        rw [Function.update_self, Function.update_self, hackR, htv]
        exact PeerRecord.acked_unnumbered hsame hnames _ _
      · rw [Function.update_of_ne hsource, Function.update_of_ne hsource]
        exact hsame
    · exact hab.elim
  · obtain rfl := hab
    simp only [TrafficAction.onPeers, PeerRecord.swept_unnumbered, hsame]
  · simp only [TrafficAction.onPeers, PeerRecord.drained_unnumbered, hsame]
  · simp only [TrafficAction.onPeers, PeerRecord.released_unnumbered, hsame]
  · exact hab.elim

theorem traffic_unwinding (ip : UInt32) :
    Unwinding traffic Orderly (TrafficAction.Elsewhere ip) TrafficAction.Alike
      (SameElsewhere ip) where
  start := by
    rintro _ rfl
    exact orderly_init
  inv := fun s a t hs hstep => hs.step hstep
  same := by
    rintro s t rfl rfl addr -
    rfl
  symm := fun s t h addr haddr => (h addr haddr).symm
  silent := by
    intro s t a s' hs hview ha hstep addr haddr
    rw [traffic_onPeers hs hstep, onPeers_hidden _ _ ha haddr]
    exact hview addr haddr
  consistent := by
    intro s t a b s' t' hs ht hview hab hs' ht' addr haddr
    rw [traffic_onPeers hs hs', traffic_onPeers ht ht']
    exact onPeers_alike hview hab haddr

/-- Two runs of a node in which the same packets are sent to the hosts other than `ip` at the same
times, the same ones are acknowledged by them, and sweeps and reports come alike, and which have
nothing else in common: what is kept about the peers at these hosts is the same. -/
theorem peers_isolated (ip : UInt32) {p : Node × Node}
    (h : Reaches traffic.beside (Unnoticed (TrafficAction.Elsewhere ip) TrafficAction.Alike) p) :
    SameElsewhere ip p.1 p.2 :=
  (traffic_unwinding ip).view h

instance (ip : UInt32) : DecidablePred (TrafficAction.Elsewhere ip) := fun a => by
  cases a <;> unfold TrafficAction.Elsewhere <;> infer_instance

instance (s t : Node) (a b : TrafficAction) : Decidable (TrafficAction.Alike s t a b) := by
  unfold TrafficAction.Alike
  split
  · infer_instance
  · split <;> infer_instance
  · infer_instance
  · infer_instance
  · infer_instance
  · infer_instance

def ackFrom (source : SockAddr) (seq : UInt8) : TrafficAction :=
  .datagram
    { slotOf [2, seq, 0, 0, 0, 0, 5, 0, 0, 0, 0, 0, 0, 0, 0]
        (show 15 ≤ packetSize by decide) with source := source } 0

/-- The first run has traffic with the host 9, whose second acknowledgement makes it resend: the
numbers that the host 8 sees and acknowledges are others than in the second run. -/
def besideNine : List (Beside TrafficAction) :=
  [.both (.append (fragmentTo ⟨8, 1⟩) ⟨1, 0⟩ 0) (.append (fragmentTo ⟨8, 1⟩) ⟨1, 0⟩ 0),
    .first (.append (fragmentTo ⟨9, 1⟩) ⟨1, 0⟩ 0), .first (.append (fragmentTo ⟨9, 1⟩) ⟨2, 0⟩ 0),
    .first (ackFrom ⟨9, 1⟩ 2), .first (.append (fragmentTo ⟨9, 1⟩) ⟨3, 0⟩ 0),
    .first (ackFrom ⟨9, 1⟩ 4), .first (.fetch .retr),
    .first (.append (fragmentTo ⟨9, 1⟩) ⟨4, 0⟩ 0),
    .both (.append (fragmentTo ⟨8, 1⟩) ⟨5, 0⟩ 0) (.append (fragmentTo ⟨8, 1⟩) ⟨5, 0⟩ 0),
    .both (.append (fragmentTo ⟨8, 1⟩) ⟨6, 0⟩ 0) (.append (fragmentTo ⟨8, 1⟩) ⟨6, 0⟩ 0),
    .both (ackFrom ⟨8, 1⟩ 6) (ackFrom ⟨8, 1⟩ 2)]

def waiting (s : Node) : List UInt16 := (s.ack.nacks.nacksOf ⟨8, 1⟩).map Ack.seq

theorem peers_isolated_two :
    ∃ p : Node × Node, waiting p.1 = [7] ∧ waiting p.2 = [3] ∧ SameElsewhere 9 p.1 p.2 := by
  have hrun : (traffic.beside.runIf
      (Unnoticed (TrafficAction.Elsewhere 9) TrafficAction.Alike) (Node.init, Node.init)
      besideNine).map (fun p => (waiting p.1, waiting p.2)) = some ([7], [3]) := by
    decide +kernel
  obtain ⟨p, hp, hwaiting⟩ := Option.map_eq_some_iff.mp hrun
  obtain ⟨hfirst, hsecond⟩ := Prod.mk.inj hwaiting
  have hinit : traffic.beside.init (Node.init, Node.init) := ⟨rfl, rfl⟩
  exact ⟨p, hfirst, hsecond, peers_isolated 9 ((Reaches.init hinit).runIf hp)⟩

end Bora
