import Bora.NackHeap
import Bora.PacketSend
import Bora.Library.Simulation

/-! The calls of ack.c by the sender and the receiver, in any order that the lock allows, in
memory and on the tables. What `pop_ack` returns belongs to the receiver until it frees it. -/
namespace Bora

open ByteMemory LinkedList Transition

/-- `pop` is the entry that `packet_processor` has in hand, `ret` what the last sweep returned. -/
structure NackThreads where
  heap : NackHeap
  queues : SendQueues
  pop : Link
  ret : ℕ

structure NackTables where
  table : NackTable
  queues : SendQueues
  pop : Option Ack
  ret : ℕ

/-- A section under `nack_lock`, or the `free(pop)` of the receiver. `peerAt` and `ackAt` are
what `malloc` gives; `elsewhere` is what the rest of the program does to the queues. -/
inductive NackCall
  | appendAck (d : SendData) (sendtime : Timeval) (sleeptime : UInt32) (peerAt ackAt : ℕ)
  | popAck (seq : UInt16) (source : SockAddr)
  | removeOooNacks
  | removeLostAcks (cons : UInt16)
  | resendOooNacks
  | free
  | resendTimeoutNacks (timeout : SockAddr → UInt64) (now : Timeval)
  | elsewhere (queues : SendQueues)

namespace NackThreads

def init : NackThreads := ⟨NackHeap.init, SendQueues.init, none, 0⟩

/-- `malloc` gives an address that is not in use, the number fits behind the packet, and the
receiver calls in the order of its program: what it popped it sweeps by and then frees. -/
def enabled (s : NackThreads) : NackCall → Bool
  | .appendAck d _ _ peerAt ackAt =>
    (s.heap.peers.read peerAt).isNone && (s.heap.acks.read ackAt).isNone &&
      decide (d.length + ackSize ≤ packetSize)
  | .popAck _ _ => s.pop.isNone
  | .removeOooNacks | .removeLostAcks _ | .resendOooNacks | .free => s.pop.isSome
  | .resendTimeoutNacks _ _ | .elsewhere _ => true

def exec (s : NackThreads) : NackCall → Option NackThreads
  | .appendAck d sendtime sleeptime peerAt ackAt => do
    let heap ← s.heap.appendAck d sendtime sleeptime peerAt ackAt
    some { s with heap := heap }
  | .popAck seq source => do
    let (heap, pop) ← s.heap.popAck seq source
    some { s with heap := heap, pop := pop }
  | .removeOooNacks => do
    let (heap, ret) ← s.heap.removeOooNacks (← s.pop)
    some { s with heap := heap, ret := ret }
  | .removeLostAcks cons => do
    let (heap, ret) ← s.heap.removeLostAcks (← s.pop) cons
    some { s with heap := heap, ret := ret }
  | .resendOooNacks => do
    let (heap, queues, ret) ← s.heap.resendOooNacks s.queues (← s.pop)
    some { s with heap := heap, queues := queues, ret := ret }
  | .free => do
    let acks ← s.heap.acks.free (← s.pop)
    some { s with heap := { s.heap with acks := acks }, pop := none }
  | .resendTimeoutNacks timeout now => do
    let (heap, queues, ret) ← s.heap.resendTimeoutNacks s.queues timeout now
    some { s with heap := heap, queues := queues, ret := ret }
  | .elsewhere queues => some { s with queues := queues }

end NackThreads

/-- `none` is the state after a fault: a link that is followed to no cell, a cell that is freed
twice, or a loop without an end. -/
def nackThreads : System (Option NackThreads) NackCall where
  init s := s = some NackThreads.init
  step s c := s.bind (fun p => if p.enabled c then some (p.exec c) else none)

namespace NackTables

def init : NackTables := ⟨NackTable.init, SendQueues.init, none, 0⟩

def step (s : NackTables) : NackCall → Option NackTables
  | .appendAck d sendtime sleeptime _ _ =>
    match Bora.appendAck s.table d sendtime sleeptime with
    | .error _ => none
    | .ok (table, _) => some { s with table := table }
  | .popAck seq source =>
    let (table, pop) := Bora.popAck s.table seq source
    if s.pop.isNone then some { s with table := table, pop := pop } else none
  | .removeOooNacks =>
    s.pop.map (fun a =>
      let (table, ret) := Bora.removeOooNacks s.table a
      { s with table := table, ret := ret })
  | .removeLostAcks cons =>
    s.pop.map (fun a =>
      let (table, ret) := Bora.removeLostAcks s.table a cons
      { s with table := table, ret := ret })
  | .resendOooNacks =>
    s.pop.map (fun a =>
      let (table, queues, ret) := Bora.resendOooNacks s.table s.queues a
      { s with table := table, queues := queues, ret := ret })
  | .free => s.pop.map (fun _ => { s with pop := none })
  | .resendTimeoutNacks timeout now =>
    let (table, queues, ret) := Bora.resendTimeoutNacks s.table s.queues timeout now
    some { s with table := table, queues := queues, ret := ret }
  | .elsewhere queues => some { s with queues := queues }

end NackTables

def nackTables : System NackTables NackCall where
  init s := s = NackTables.init
  step := NackTables.step

def NackTable.outstanding (n : NackTable) : ℕ := (n.nacklist.map (fun p => p.nacks.length)).sum

theorem NackHeap.Represents.allocated {h : NackHeap} {n : NackTable} {loose : List (ℕ × Ack)}
    (hr : h.Represents n loose) :
    h.acks.allocated = n.outstanding + loose.length ∧
      h.peers.allocated = n.nacklist.length := by
  obtain ⟨ks, hl, hn, -⟩ := hr
  obtain ⟨hinner, houter⟩ := hl.allocated
  have hlengths : (ks.map Holder.peer).map (fun p => p.nacks.length) =
      ks.map (fun k => k.items.length) := by
    simp [Holder.peer]
  exact ⟨by rw [hinner, NackTable.outstanding, hn, hlengths], by rw [houter, hn, List.length_map]⟩

theorem appendAck_of_room (n : NackTable) {d : SendData} (sendtime : Timeval)
    (sleeptime : UInt32) (h : d.length + ackSize ≤ packetSize) :
    ∃ r, appendAck n d sendtime sleeptime = .ok r := by
  have hfits : d.data.length + (store16 (n.seqNum + 1)).length ≤ packetSize := by
    simpa [SendData.length, ackSize] using h
  exact ⟨_, Checked.bind_eq_ok.mpr ⟨_, dif_pos hfits, rfl⟩⟩

namespace NackThreads

/-- The memory holds the tables, and besides only what the receiver has in hand. -/
def Refines (s : NackThreads) (t : NackTables) : Prop :=
  s.queues = t.queues ∧ s.ret = t.ret ∧
    ∃ loose, s.heap.Represents t.table loose ∧ s.pop = link loose ∧
      loose.map Prod.snd = t.pop.toList

variable {s s' : NackThreads} {t : NackTables}

theorem Refines.inHand (h : s.Refines t) (hpop : s.pop.isSome) :
    ∃ x, s.pop = some x.1 ∧ t.pop = some x.2 ∧ s.heap.Represents t.table [x] := by
  obtain ⟨-, -, loose, hr, hlink, hloose⟩ := h
  match loose, hr with
  | [], _ => simp [hlink] at hpop
  | [x], hr =>
    refine ⟨x, hlink, ?_, hr⟩
    cases ht : t.pop with
    | none => simp [ht] at hloose
    | some a => simpa [ht, eq_comm] using hloose
  | x :: y :: rest, _ =>
    have hlen := congrArg List.length hloose
    cases ht : t.pop <;> simp [ht] at hlen

/-- A call that may be made returns, and the tables take the same step. -/
theorem Refines.exec (h : s.Refines t) {c : NackCall} (hc : s.enabled c = true) :
    ∃ s' t', s.exec c = some s' ∧ t.step c = some t' ∧ s'.Refines t' := by
  have hinhand := h.inHand
  obtain ⟨hqueues, hret, loose, hr, hlink, hloose⟩ := h
  cases c with
  | appendAck d sendtime sleeptime peerAt ackAt =>
    simp only [enabled, Bool.and_eq_true, Option.isNone_iff_eq_none, decide_eq_true_eq] at hc
    obtain ⟨⟨hpeer, hack⟩, hroom⟩ := hc
    obtain ⟨⟨n', d'⟩, hn'⟩ := appendAck_of_room t.table sendtime sleeptime hroom
    obtain ⟨h', hheap, hr'⟩ := hr.appendAck_eq hpeer hack hn'
    refine ⟨{ s with heap := h' }, { t with table := n' }, by simp [NackThreads.exec, hheap],
      by simp [NackTables.step, hn'], hqueues, hret, loose, hr', hlink, hloose⟩
  | popAck seq source =>
    have hnone : s.pop = none := by simpa [enabled] using hc
    have hempty : loose = [] := by
      cases loose with
      | nil => rfl
      | cons x rest => simp [hnone] at hlink
    subst loose
    obtain ⟨h', popped, hheap, hpopped, hr'⟩ := hr.popAck_eq seq source
    rw [List.append_nil] at hr'
    refine ⟨{ s with heap := h', pop := link popped },
      { t with table := (popAck t.table seq source).1, pop := (popAck t.table seq source).2 },
      by simp [NackThreads.exec, hheap], ?_, hqueues, hret, popped, hr', rfl, hpopped⟩
    have htnone : t.pop = none := by
      cases ht : t.pop with
      | none => rfl
      | some a => simp [ht] at hloose
    simp [NackTables.step, htnone]
  | removeOooNacks =>
    obtain ⟨x, hs, ht, hx⟩ := hinhand hc
    obtain ⟨h', hheap, hr'⟩ := hx.removeOooNacks_eq List.mem_cons_self
    exact ⟨{ s with heap := h', ret := (removeOooNacks t.table x.2).2 },
      { t with table := (removeOooNacks t.table x.2).1, ret := (removeOooNacks t.table x.2).2 },
      by simp [NackThreads.exec, hs, hheap], by simp [NackTables.step, ht], hqueues, rfl, [x], hr',
      hs, by simp [ht]⟩
  | removeLostAcks cons =>
    obtain ⟨x, hs, ht, hx⟩ := hinhand hc
    obtain ⟨h', hheap, hr'⟩ := hx.removeLostAcks_eq List.mem_cons_self cons
    exact ⟨{ s with heap := h', ret := 0 },
      { t with table := (removeLostAcks t.table x.2 cons).1, ret := 0 },
      by simp [NackThreads.exec, hs, hheap], by simp [NackTables.step, ht, removeLostAcks], hqueues,
      rfl, [x], hr', hs, by simp [ht]⟩
  | resendOooNacks =>
    obtain ⟨x, hs, ht, hx⟩ := hinhand hc
    obtain ⟨h', hheap, hr'⟩ := hx.resendOooNacks_eq List.mem_cons_self t.queues
    refine ⟨⟨h', (resendOooNacks t.table t.queues x.2).2.1, s.pop,
        (resendOooNacks t.table t.queues x.2).2.2⟩,
      ⟨(resendOooNacks t.table t.queues x.2).1, (resendOooNacks t.table t.queues x.2).2.1, t.pop,
        (resendOooNacks t.table t.queues x.2).2.2⟩,
      ?_, by simp [NackTables.step, ht], rfl, rfl, [x], hr', hs, by simp [ht]⟩
    simp [NackThreads.exec, hs, hqueues, hheap]
  | free =>
    obtain ⟨x, hs, ht, hx⟩ := hinhand hc
    obtain ⟨acks, hheap, hr'⟩ := hx.free_eq
    exact ⟨{ s with heap := { s.heap with acks := acks }, pop := none }, { t with pop := none },
      by simp [NackThreads.exec, hs, hheap], by simp [NackTables.step, ht], hqueues, hret, [], hr',
      rfl, rfl⟩
  | resendTimeoutNacks timeout now =>
    obtain ⟨h', hheap, hr'⟩ := hr.resendTimeoutNacks_eq t.queues timeout now
    refine ⟨⟨h', (resendTimeoutNacks t.table t.queues timeout now).2.1, s.pop,
        (resendTimeoutNacks t.table t.queues timeout now).2.2⟩,
      ⟨(resendTimeoutNacks t.table t.queues timeout now).1,
        (resendTimeoutNacks t.table t.queues timeout now).2.1, t.pop,
        (resendTimeoutNacks t.table t.queues timeout now).2.2⟩,
      ?_, by simp [NackTables.step], rfl, rfl, loose, hr', hlink, hloose⟩
    simp [NackThreads.exec, hqueues, hheap]
  | elsewhere queues =>
    exact ⟨{ s with queues := queues }, { t with queues := queues }, rfl, rfl, rfl, hret, loose, hr,
      hlink, hloose⟩

theorem refines_init : init.Refines NackTables.init :=
  ⟨rfl, rfl, [], ⟨[], NackHeap.layout_init, rfl, rfl⟩, rfl, rfl⟩

/-- No fault so far, and the memory holds these tables. -/
def Tracks (s : Option NackThreads) (t : NackTables) : Prop := ∃ p, s = some p ∧ p.Refines t

theorem Tracks.step {s s' : Option NackThreads} {t : NackTables} {c : NackCall}
    (h : Tracks s t) (hs : nackThreads.step s c = some s') :
    ∃ t', nackTables.step t c = some t' ∧ Tracks s' t' := by
  obtain ⟨p, rfl, href⟩ := h
  simp only [nackThreads, Option.bind_some] at hs
  split at hs
  · rename_i hc
    obtain ⟨p', t', hp', ht', href'⟩ := href.exec hc
    rw [hp'] at hs
    exact ⟨t', ht', p', (Option.some.inj hs).symm, href'⟩
  · cases hs

/-- In every run the calls stop at no fault, and do to the memory what the same calls do to the
tables. A cell is allocated for what the lists have and for what the receiver has in hand, and for
nothing else. -/
theorem nackThreads_refine {cs : List NackCall} {s : Option NackThreads}
    (h : nackThreads.run (some init) cs = some s) :
    ∃ p t, s = some p ∧ nackTables.run NackTables.init cs = some t ∧ p.Refines t ∧
      p.heap.getNNack = some t.table.outstanding ∧
      p.heap.acks.allocated = t.table.outstanding + t.pop.toList.length ∧
      p.heap.peers.allocated = t.table.nacklist.length := by
  obtain ⟨t, ht, p, hp, href⟩ :=
    Simulation.run_map (f := id) (fun _ _ _ _ => Tracks.step) ⟨init, rfl, refines_init⟩ h
  rw [List.map_id] at ht
  obtain ⟨-, -, loose, hr, -, hloose⟩ := id href
  obtain ⟨hacks, hpeers⟩ := hr.allocated
  refine ⟨p, t, hp, ht, href, hr.getNNack_eq, ?_, hpeers⟩
  rw [hacks, ← hloose, List.length_map]

def counts (s : Option NackThreads) : Option (Option ℕ × ℕ × ℕ) :=
  s.map (fun p => (p.heap.getNNack, p.heap.acks.allocated, p.heap.peers.allocated))

/-- Two peers get three packets; one is acknowledged, and its cell is used again. -/
def twoPeers : List NackCall :=
  [.appendAck (fragmentTo ⟨1, 1⟩) ⟨1, 0⟩ 0 4 7, .appendAck (fragmentTo ⟨2, 1⟩) ⟨2, 0⟩ 0 0 2,
    .appendAck (fragmentTo ⟨1, 1⟩) ⟨3, 0⟩ 0 1 5, .popAck 3 ⟨1, 1⟩, .resendOooNacks, .free,
    .appendAck (fragmentTo ⟨2, 1⟩) ⟨4, 0⟩ 0 1 5]

theorem nackThreads_refine_two :
    ∃ s : Option NackThreads, counts s = some (some 2, 2, 2) ∧
      ∃ p t, s = some p ∧ nackTables.run NackTables.init twoPeers = some t ∧ p.Refines t ∧
        p.heap.getNNack = some t.table.outstanding ∧
        p.heap.acks.allocated = t.table.outstanding + t.pop.toList.length ∧
        p.heap.peers.allocated = t.table.nacklist.length := by
  have hrun : (nackThreads.run (some init) twoPeers).map counts = some (some (some 2, 2, 2)) := by
    decide +kernel
  obtain ⟨s, hs, hcounts⟩ := Option.map_eq_some_iff.mp hrun
  exact ⟨s, hcounts, nackThreads_refine hs⟩

end NackThreads

end Bora
