import Bora.Lengths
import Bora.SenderThread
import Bora.Library.Meter
import Mathlib.Data.UInt
import Mathlib.Data.Fintype.Defs

/-! The counters `stats_r` and `stats_s` and the calls that read them: which resetting reads cut
the counted packets into windows that lose and repeat nothing. -/
namespace Bora

open Transition

instance : Fintype InCounter where
  elems := {.pkg, .data, .ackData, .ack, .garbage, .dupe, .dupeData, .badAck}
  complete c := by cases c <;> decide

/-- The entries of `stats_s`. -/
inductive OutCounter
  | data | pkg | ack | ackData | retr | retrData
deriving DecidableEq, Repr

instance : Fintype OutCounter where
  elems := {.data, .pkg, .ack, .ackData, .retr, .retrData}
  complete c := by cases c <;> decide

abbrev InStats := InCounter → UInt64
abbrev OutStats := OutCounter → UInt64

def Node.setStats (node : Node) (stats : InStats) : Node := { node with statsR := stats }

def OutStats.bump (stats : OutStats) (c : OutCounter) (k : ℕ) : OutStats :=
  Function.update stats c (stats c + UInt64.ofNat k)

/-- The end of `packet_send`: a packet of length `l` is counted under the queue it came from,
and among all. -/
def countSent (stats : OutStats) (source : PacketSource) (l : ℕ) : OutStats :=
  let stats :=
    if source = .queue .prio then (stats.bump .ack 1).bump .ackData l
    else if source = .queue .retr then (stats.bump .retr 1).bump .retrData l
    else stats
  (stats.bump .pkg 1).bump .data l

def resetInCounters : InStats := 0

def receiveCounts (node : Node) (data : IncomingData) (junk : UInt16) : InStats :=
  (packetProcessor (node.setStats 0) data junk).node.statsR

def sendCounts (source : PacketSource) (l : ℕ) : OutStats := countSent 0 source l

theorem OutStats.bump_add (k stats : OutStats) (c : OutCounter) (n : ℕ) :
    (k + stats).bump c n = k + stats.bump c n := by
  funext c'
  by_cases h : c' = c
  · subst c'
    simp only [bump, Pi.add_apply, Function.update_self, add_assoc]
  · simp only [bump, Pi.add_apply, Function.update_of_ne h]

theorem countSent_eq (stats : OutStats) (source : PacketSource) (l : ℕ) :
    countSent stats source l = stats + sendCounts source l := by
  have hzero : stats = stats + 0 := (add_zero stats).symm
  unfold sendCounts countSent
  by_cases hp : source = .queue .prio
  · simp only [if_pos hp]
    nth_rewrite 1 [hzero]
    simp only [OutStats.bump_add]
  · by_cases hr : source = .queue .retr
    · simp only [if_neg hp, if_pos hr]
      nth_rewrite 1 [hzero]
      simp only [OutStats.bump_add]
    · simp only [if_neg hp, if_neg hr]
      nth_rewrite 1 [hzero]
      simp only [OutStats.bump_add]

namespace Processing

def shift (k : InStats) (p : Processing) : Processing :=
  { p with node := p.node.setStats (k + p.node.statsR) }

variable (k : InStats) (p : Processing)

@[simp] theorem shift_data : (p.shift k).data = p.data := rfl
@[simp] theorem shift_fault : (p.shift k).fault = p.fault := rfl
@[simp] theorem shift_cache : (p.shift k).node.cache = p.node.cache := rfl
@[simp] theorem shift_ack : (p.shift k).node.ack = p.node.ack := rfl
@[simp] theorem shift_portByte : (p.shift k).portByte = p.portByte := rfl
@[simp] theorem shift_sub (n : ℕ) : (p.shift k).sub n = (p.sub n).shift k := rfl
@[simp] theorem shift_noteSub (n : ℕ) : (p.shift k).noteSub n = (p.noteSub n).shift k := rfl
@[simp] theorem shift_setPort (port : UInt16) :
    (p.shift k).setPort port = (p.setPort port).shift k := rfl
@[simp] theorem shift_setAck (ack : AckState) :
    (p.shift k).setAck ack = (p.setAck ack).shift k := rfl
@[simp] theorem shift_sendData (d : SendData) :
    (p.shift k).sendData d = (p.sendData d).shift k := rfl
@[simp] theorem shift_complete (c : Completion) :
    (p.shift k).complete c = (p.complete c).shift k := rfl
@[simp] theorem shift_fail (e : Fault) : (p.shift k).fail e = (p.fail e).shift k := rfl

@[simp] theorem shift_addStat (c : InCounter) (n : ℕ) :
    (p.shift k).addStat c n = (p.addStat c n).shift k := by
  have hstats : Function.update (k + p.node.statsR) c
      ((k + p.node.statsR) c + UInt64.ofNat n) =
        k + Function.update p.node.statsR c (p.node.statsR c + UInt64.ofNat n) := by
    funext c'
    by_cases h : c' = c
    · subst c'
      simp only [Pi.add_apply, Function.update_self, add_assoc]
    · simp only [Pi.add_apply, Function.update_of_ne h]
  simp only [addStat, shift, Node.setStats, hstats]

@[simp] theorem shift_reject : (p.shift k).reject = p.reject.shift k := by
  simp only [reject, shift_addStat, shift_data]
  rfl

theorem shift_portStage : (p.shift k).portStage = p.portStage.shift k := by
  unfold portStage
  by_cases hf : p.data.flags = 0
  · rw [if_pos (show (p.shift k).data.flags = 0 from hf), if_pos hf]
    by_cases hl : 3 < p.data.buflen
    · rw [if_pos (show 3 < (p.shift k).data.buflen from hl), if_pos hl]
      rfl
    · rw [if_neg (show ¬ 3 < (p.shift k).data.buflen from hl), if_neg hl]
  · rw [if_neg (show ¬ (p.shift k).data.flags = 0 from hf), if_neg hf]
    by_cases hport : (p.sub 2).portByte = 0
    · simp only [shift_sub, shift_portByte, hport, ne_eq, not_true_eq_false, if_false]
    · simp only [shift_sub, shift_portByte, hport, ne_eq, not_false_eq_true, if_true]
      rfl

theorem shift_answer (seq : UInt16) : (p.shift k).answer seq = (p.answer seq).shift k := by
  simp only [answer, shift_cache, shift_data, shift_sendData, shift_fail]
  split <;> rfl

theorem shift_needAckStage : (p.shift k).needAckStage = p.needAckStage.shift k := by
  simp only [needAckStage, shift_data, shift_noteSub, shift_sub, shift_addStat, shift_answer,
    shift_reject]
  split
  · split <;> rfl
  · rfl

theorem shift_ackStage : (p.shift k).ackStage = p.ackStage.shift k := by
  simp only [ackStage, shift_data, shift_addStat, shift_fail, shift_ack, shift_setAck, shift_reject]
  split
  · split
    · split
      · rfl
      · split <;> rfl
    · rfl
  · rfl

theorem shift_bwStage : (p.shift k).bwStage = p.bwStage.shift k := by
  simp only [bwStage, shift_data, shift_reject]
  split
  · split
    · split <;> rfl
    · rfl
  · rfl

theorem shift_fragmentAdded (fragment : FragmentData) (r : AddResult) :
    (p.shift k).fragmentAdded fragment r = (p.fragmentAdded fragment r).shift k := by
  cases r with
  | added =>
    simp only [fragmentAdded, shift_data]
    rw [apply_ite (shift k)]
    rfl
  | _ => simp only [fragmentAdded, shift_addStat, shift_data]

theorem shift_blockStage (junk : UInt16) :
    (p.shift k).blockStage junk = (p.blockStage junk).shift k := by
  simp only [blockStage, shift_data, shift_cache, shift_reject, shift_fail]
  split
  · split
    · split
      · rfl
      · split
        · rfl
        · rename_i cache r _
          exact shift_fragmentAdded k { p with node := { p.node with cache := cache } } _ r
    · rfl
  · rfl

theorem shift_countStage : (p.shift k).countStage = p.countStage.shift k := by
  simp only [countStage, shift_addStat, shift_data]

theorem shift_andThen {stage : Processing → Processing}
    (h : ∀ p, stage (p.shift k) = (stage p).shift k) :
    (p.shift k).andThen stage = (p.andThen stage).shift k := by
  simp only [andThen, shift_fault]
  split
  · exact h p
  · rfl

end Processing

/-- The counters do not matter to what a datagram does; it adds to them. -/
theorem packetProcessor_counts (node : Node) (data : IncomingData) (junk : UInt16) :
    (packetProcessor node data junk).node.statsR =
      node.statsR + receiveCounts node data junk := by
  let p : Processing := ⟨node.setStats 0, data, [], none⟩
  have hstart : (⟨node, data, [], none⟩ : Processing) = p.shift node.statsR := by
    simp only [p, Processing.shift, Node.setStats, add_zero]
  have hrun : packetProcessor node data junk =
      (packetProcessor (node.setStats 0) data junk).shift node.statsR := by
    unfold packetProcessor
    simp only [hstart]
    by_cases hl : 1 < data.buflen
    · simp only [if_pos hl]
      rw [Processing.shift_portStage,
        Processing.shift_andThen _ _ (Processing.shift_needAckStage _),
        Processing.shift_andThen _ _ (Processing.shift_ackStage _),
        Processing.shift_andThen _ _ (Processing.shift_bwStage _),
        Processing.shift_andThen _ _ (fun p => Processing.shift_blockStage _ p junk),
        Processing.shift_andThen _ _ (Processing.shift_countStage _)]
    · simp only [if_neg hl]
      exact Processing.shift_andThen _ _ (Processing.shift_countStage _)
  rw [hrun]
  rfl

/-- `get_in_stats`: the values that it builds its dictionary of, and what it leaves in `stats_r`.
`Py_BuildValue` then cuts each to an `int`, which is not in here. -/
def getInStats (statsR : InStats) (rst : Int32) : InStats × InStats :=
  (statsR, if rst ≠ 0 then resetInCounters else statsR)

/-- `get_out_stats`: the values of `stats_s`, again before they are cut to an `int`; what it resets
is `stats_r`. -/
def getOutStats (statsR : InStats) (statsS : OutStats) (rst : Int32) : OutStats × InStats :=
  (statsS, if rst ≠ 0 then resetInCounters else statsR)

/-- A node with its counters. The last four fields record the run: the sums of what the resetting
calls returned, and of all increments. -/
structure Stats where
  node : Node
  statsS : OutStats
  inReported : InStats
  inTotal : InStats
  outReported : OutStats
  outTotal : OutStats

/-- `other` is anything that does not count: it leaves another node behind with the counters as
they were. -/
inductive StatsAction
  | datagram (data : IncomingData) (junk : UInt16)
  | packetSend (source : PacketSource) (l : ℕ)
  | getInStats (rst : Int32)
  | getOutStats (rst : Int32)
  | other (node : Node)

namespace Stats

def init : Stats := ⟨Node.init, 0, 0, 0, 0, 0⟩

def step (s : Stats) : StatsAction → Option Stats
  | .datagram data junk =>
    let p := packetProcessor s.node data junk
    match p.fault with
    | some _ => none
    | none =>
      some { s with node := p.node, inTotal := s.inTotal + receiveCounts s.node data junk }
  | .packetSend source l =>
    some { s with statsS := countSent s.statsS source l
                  outTotal := s.outTotal + sendCounts source l }
  | .getInStats rst =>
    let r := Bora.getInStats s.node.statsR rst
    some { s with node := s.node.setStats r.2
                  inReported := if rst ≠ 0 then s.inReported + r.1 else s.inReported }
  | .getOutStats rst =>
    let r := Bora.getOutStats s.node.statsR s.statsS rst
    some { s with node := s.node.setStats r.2
                  outReported := if rst ≠ 0 then s.outReported + r.1 else s.outReported }
  | .other node => some { s with node := node.setStats s.node.statsR }

def inMeter (s : Stats) : Meter InStats := ⟨s.node.statsR, s.inReported, s.inTotal⟩

def outMeter (s : Stats) : Meter OutStats := ⟨s.statsS, s.outReported, s.outTotal⟩

/-- In both directions, what the windows reported and what is still there is what was counted. -/
structure Exact (s : Stats) : Prop where
  received : s.inMeter.Exact
  sent : s.outMeter.Exact

/-- A resetting `get_out_stats` comes only when nothing is counted in either direction. -/
def quiet (s : Stats) : StatsAction → Prop
  | .getOutStats rst => rst ≠ 0 → (∀ c, s.node.statsR c = 0) ∧ ∀ c, s.statsS c = 0
  | _ => True

instance (s : Stats) : (a : StatsAction) → Decidable (s.quiet a)
  | .getOutStats rst =>
    inferInstanceAs (Decidable (rst ≠ 0 → (∀ c, s.node.statsR c = 0) ∧ ∀ c, s.statsS c = 0))
  | .datagram .. | .packetSend .. | .getInStats _ | .other _ => isTrue trivial

end Stats

def stats : System Stats StatsAction where
  init s := s = Stats.init
  step := Stats.step

namespace Stats

variable {s t : Stats}

theorem exact_init : init.Exact := ⟨Meter.exact_start, Meter.exact_start⟩

/-- A resetting `get_out_stats` clears what it does not report, and reports what it leaves. -/
theorem getOutStats_meters {rst : Int32} (hrst : rst ≠ 0) (h : s.step (.getOutStats rst) = some t) :
    t.inMeter = s.inMeter.clear ∧ t.outMeter = s.outMeter.leave := by
  simp only [step, Bora.getOutStats, if_pos hrst, Option.some.injEq] at h
  subst h
  exact ⟨rfl, rfl⟩

theorem getOutStats_exact_iff {rst : Int32} (hrst : rst ≠ 0) (hs : s.Exact)
    (h : s.step (.getOutStats rst) = some t) : t.Exact ↔ s.quiet (.getOutStats rst) := by
  obtain ⟨hin, hout⟩ := getOutStats_meters hrst h
  have hreceived : t.inMeter.Exact ↔ ∀ c, s.node.statsR c = 0 := by
    rw [hin, hs.received.clear_iff]
    exact funext_iff
  have hsent : t.outMeter.Exact ↔ ∀ c, s.statsS c = 0 := by
    rw [hout, hs.sent.leave_iff]
    exact funext_iff
  constructor
  · intro ht _
    exact ⟨hreceived.mp ht.received, hsent.mp ht.sent⟩
  · intro hq
    exact ⟨hreceived.mpr (hq hrst).1, hsent.mpr (hq hrst).2⟩

theorem Exact.step {a : StatsAction} (hs : s.Exact) (ha : s.quiet a) (h : s.step a = some t) :
    t.Exact := by
  cases a with
  | datagram data junk =>
    simp only [Stats.step] at h
    split at h
    · cases h
    · cases h
      refine ⟨?_, hs.sent⟩
      have hin := hs.received.add (receiveCounts s.node data junk)
      unfold inMeter
      rw [packetProcessor_counts]
      exact hin
  | packetSend source l =>
    cases h
    refine ⟨hs.received, ?_⟩
    have hout := hs.sent.add (sendCounts source l)
    unfold outMeter
    rw [countSent_eq]
    exact hout
  | getInStats rst =>
    cases h
    refine ⟨?_, hs.sent⟩
    by_cases hrst : rst ≠ 0
    · simp only [inMeter, Bora.getInStats, if_pos hrst]
      exact hs.received.take
    · simp only [inMeter, Bora.getInStats, if_neg hrst]
      exact hs.received
  | getOutStats rst =>
    by_cases hrst : rst ≠ 0
    · exact (getOutStats_exact_iff hrst hs h).mpr ha
    · cases h
      refine ⟨?_, ?_⟩
      · simp only [inMeter, Bora.getOutStats, if_neg hrst]
        exact hs.received
      · simp only [outMeter, if_neg hrst]
        exact hs.sent
  | other node =>
    cases h
    exact ⟨hs.received, hs.sent⟩

theorem exact_of_reaches (h : Reaches stats quiet s) : s.Exact := by
  apply h.invariant
  · rintro s rfl
    exact exact_init
  · intro s a t hs ha h
    exact hs.step ha h

end Stats

/-- In every run whose resetting `get_out_stats` calls find no counts, every counter of either
direction loses nothing and repeats nothing. -/
theorem stats_windows {s : Stats} (h : Reaches stats Stats.quiet s) :
    (∀ c, s.inReported c + s.node.statsR c = s.inTotal c) ∧
      ∀ c, s.outReported c + s.statsS c = s.outTotal c := by
  obtain ⟨hin, hout⟩ := Stats.exact_of_reaches h
  exact ⟨fun c => congrFun hin c, fun c => congrFun hout c⟩

theorem stats_windows_two :
    ∃ s, stats.runIf Stats.quiet Stats.init
        [.getOutStats 1, .datagram (slotOf [0, 7, 8, 9] (by decide)) 0,
          .packetSend (.queue .prio) 20, .getInStats 1,
          .datagram (slotOf [0, 7, 8, 9] (by decide)) 0, .getInStats 1, .getOutStats 0] = some s ∧
      (s.inReported .data, s.inTotal .pkg, s.outTotal .ackData) = (8, 2, 20) ∧
      (∀ c, s.inReported c + s.node.statsR c = s.inTotal c) ∧
      ∀ c, s.outReported c + s.statsS c = s.outTotal c := by
  have hrun : (stats.runIf Stats.quiet Stats.init
      [.getOutStats 1, .datagram (slotOf [0, 7, 8, 9] (by decide)) 0,
        .packetSend (.queue .prio) 20, .getInStats 1,
        .datagram (slotOf [0, 7, 8, 9] (by decide)) 0, .getInStats 1, .getOutStats 0]).map
      (fun s => (s.inReported .data, s.inTotal .pkg, s.outTotal .ackData)) = some (8, 2, 20) := by
    decide +kernel
  obtain ⟨s, hs, hcounts⟩ := Option.map_eq_some_iff.mp hrun
  have hinit : Reaches stats Stats.quiet Stats.init := .init rfl
  exact ⟨s, hs, hcounts, stats_windows (hinit.runIf hs)⟩

/-- One packet of 20 bytes, reported in a window and still there: it is counted twice. -/
theorem stats_counted_twice :
    ¬ ∀ s, Reachable stats s → (∀ c, s.inReported c + s.node.statsR c = s.inTotal c) ∧
      ∀ c, s.outReported c + s.statsS c = s.outTotal c := by
  intro hclaim
  have hrun : (stats.runIf (fun _ _ => True) Stats.init
      [.packetSend (.queue .send) 20, .getOutStats 1]).map
        (fun s => (s.outReported .data, s.statsS .data, s.outTotal .data)) =
          some (20, 20, 20) := by
    decide +kernel
  obtain ⟨s, hs, hcounts⟩ := Option.map_eq_some_iff.mp hrun
  have hinit : Reachable stats Stats.init := .init rfl
  have hdata := (hclaim s (hinit.runIf hs)).2 .data
  simp only [Prod.mk.injEq] at hcounts
  rw [hcounts.1, hcounts.2.1, hcounts.2.2] at hdata
  exact absurd hdata (by decide)

end Bora
