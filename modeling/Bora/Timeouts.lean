import Bora.AckCodec
import Bora.AckHistory
import Bora.ResendQueueing

/-! The timeout sweep under a clock that never steps back: how long ago a packet was sent when it
is queued again. -/
namespace Bora

open Checked Transition

/-- The entries that the sweep takes out and hands to `send_data` again. -/
def AckState.requeued (s : AckState) (now : Timeval) : List Ack :=
  (s.nacks.removed (s.sweepTimeouts now).nacks).filter (fun a => (resent a.d).isSome)

theorem AckState.mem_requeued {s : AckState} {now : Timeval} {a : Ack} :
    a ∈ s.requeued now ↔ hasBit a.d.flags blkBlockAck = true ∧
      ∃ addr, a ∈ s.nacks.nacksOf addr ∧
        Bora.timedOut (timeToUsec now) (s.acks.getTimeoutValue addr) a = true := by
  have hremoved := removed_resendTimeoutNacks s.nacks s.queues s.acks.getTimeoutValue now
  rw [requeued, List.mem_filter, resent_isSome_iff, and_comm]
  refine and_congr_right fun _ => ?_
  rw [← NackTable.mem_timedOutNacks, ← hremoved]
  rfl

/-- A reading of the clock, now or earlier. -/
def Timeval.ReadBy (t clock : Timeval) : Prop := 0 ≤ t.micros ∧ t.micros ≤ clock.micros

instance (t clock : Timeval) : Decidable (t.ReadBy clock) := inferInstanceAs (Decidable (_ ∧ _))

theorem Timeval.ReadBy.trans {t clock clock' : Timeval} (h : t.ReadBy clock)
    (hle : clock.micros ≤ clock'.micros) : t.ReadBy clock' := ⟨h.1, h.2.trans hle⟩

def AckCall.reading : AckCall → Option Timeval
  | .append _ sendtime _ => some sendtime
  | .ack _ received _ => some received
  | .timeout now => some now
  | _ => none

structure TimedSender where
  history : AckHistory
  clock : Timeval

inductive TimedCall
  | tick (now : Timeval)
  | call (c : AckCall)

namespace TimedSender

def init : TimedSender := ⟨AckHistory.init, ⟨0, 0⟩⟩

/-- The clock goes on, and the calls use what it showed some time before. -/
def step (s : TimedSender) : TimedCall → Option TimedSender
  | .tick now => if s.clock.micros ≤ now.micros then some { s with clock := now } else none
  | .call c =>
    if ∀ t ∈ c.reading, t.ReadBy s.clock then
      (s.history.step c).map (fun history => { s with history := history })
    else none

/-- The clock has a margin to 64 bits, and an ack arrives after the packet it is for was sent. -/
def InRange (s : TimedSender) : TimedCall → Prop
  | .tick now => now.micros < 2 ^ 62
  | .call (.ack ackR received source) =>
    ∀ pop ∈ s.history.tables.popped ackR source, pop.sendtime.micros ≤ received.micros
  | .call _ => True

end TimedSender

def timedSender : System TimedSender TimedCall where
  init s := s = TimedSender.init
  step := TimedSender.step

section RoundTrip

variable {s : AckState} {ackR : AckReceived} {received : Timeval} {source : SockAddr}
  {P : UInt64 → Prop}

theorem acked_lastRTT (peer : PeerAckStore) (store : AckStore) (errors : ℕ) :
    (peer.acked store errors).lastRTT = timeToUsec store.RTT := by
  unfold PeerAckStore.acked
  simp only
  split <;> rfl

theorem ackReceived_lastRTT {pop : Ack} (h : ∀ peer ∈ s.acks.peeracklist, P peer.lastRTT)
    (hpop : P (timeToUsec (timerSub received pop.sendtime))) :
    ∀ peer ∈ (ackReceived s pop ackR received source).acks.peeracklist, P peer.lastRTT := by
  cases hfind : s.acks.findPeerByHost source with
  | none =>
    simp only [ackReceived, hfind, newPeer]
    split <;>
    · simp only [AckTable.raise_peeracklist]
      exact List.forall_mem_cons.mpr ⟨hpop, h⟩
  | some known =>
    rw [ackReceived_peers_known pop ackR received (by simp [hfind])]
    intro peer hpeer
    rcases FirstMatch.mem_modify hpeer with hold | ⟨p, -, rfl⟩
    · exact h peer hold
    · rw [acked_lastRTT]
      exact hpop

theorem acknowledged_lastRTT (h : ∀ peer ∈ s.acks.peeracklist, P peer.lastRTT)
    (hpop : ∀ pop ∈ s.popped ackR source, P (timeToUsec (timerSub received pop.sendtime))) :
    ∀ peer ∈ (s.acknowledged ackR received source).acks.peeracklist, P peer.lastRTT := by
  rcases hp : popAck s.nacks ackR.seq source with ⟨nacks, _ | pop⟩
  · simpa only [AckState.acknowledged, hp] using h
  · have hmem : pop ∈ s.popped ackR source := by simp [AckState.popped, hp]
    simp only [AckState.acknowledged, hp]
    exact ackReceived_lastRTT h (hpop pop hmem)

/-- The floor that `get_timeout_value` enforces for a peer with a record. -/
theorem getTimeoutValue_known {t : AckTable} {peer : PeerAckStore}
    (hfind : t.findPeerByHost source = some peer) (hrtt : peer.lastRTT.toNat < 2 ^ 62) :
    10000 ≤ (t.getTimeoutValue source).toNat ∧ (t.getTimeoutValue source).toNat < 2 ^ 63 := by
  simp only [AckTable.getTimeoutValue, hfind]
  split
  · rw [UInt64.toNat_ofNat', Nat.mod_eq_of_lt (by omega)]
    omega
  · decide

theorem getTimeoutValue_unknown {t : AckTable} (hfind : t.findPeerByHost source = none) :
    t.getTimeoutValue source = 0 := by simp only [AckTable.getTimeoutValue, hfind]

end RoundTrip

theorem timedOut_iff {a : Ack} {now : Timeval} {timeout : UInt64}
    (hsent : 0 ≤ a.sendtime.micros) (hnow : 0 ≤ now.micros) (hnow' : now.micros < 2 ^ 64)
    (hsum : a.sendtime.micros + timeout.toNat < 2 ^ 64) :
    timedOut (timeToUsec now) timeout a = true ↔
      a.sendtime.micros + timeout.toNat < now.micros := by
  have hs := toNat_timeToUsec hsent (by omega)
  have hn := toNat_timeToUsec hnow hnow'
  rw [timedOut_iff_of_lt (by omega)]
  omega

namespace TimedSender

/-- Nothing was sent, and no round trip took, longer than the clock has run. -/
structure Inv (s : TimedSender) : Prop where
  clock_nonneg : 0 ≤ s.clock.micros
  clock_lt : s.clock.micros < 2 ^ 62
  sent : ∀ addr, ∀ a ∈ s.history.tables.nacks.nacksOf addr, a.sendtime.ReadBy s.clock
  rtt : ∀ peer ∈ s.history.tables.acks.peeracklist,
    (peer.lastRTT.toNat : ℤ) ≤ s.clock.micros

variable {s t : TimedSender}

theorem inv_init : init.Inv where
  clock_nonneg := le_refl 0
  clock_lt := by decide
  sent addr a ha := by
    simp [init, AckHistory.init, AckState.init, NackTable.nacksOf, NackTable.findByHost,
      NackTable.init] at ha
  rtt := by simp [init, AckHistory.init, AckState.init, AckTable.init]

theorem Inv.of_sublist (h : s.Inv) {history : AckHistory}
    (hnacks : ∀ addr, (history.tables.nacks.nacksOf addr).Sublist
      (s.history.tables.nacks.nacksOf addr))
    (hrtt : ∀ peer ∈ history.tables.acks.peeracklist,
      (peer.lastRTT.toNat : ℤ) ≤ s.clock.micros) : Inv ⟨history, s.clock⟩ where
  clock_nonneg := h.clock_nonneg
  clock_lt := h.clock_lt
  sent addr a ha := h.sent addr a ((hnacks addr).subset ha)
  rtt := hrtt

theorem Inv.tick (h : s.Inv) {now : Timeval} (hok : s.InRange (.tick now))
    (hs : s.step (.tick now) = some t) : t.Inv := by
  simp only [step] at hs
  split at hs
  · rename_i hle
    cases hs
    exact ⟨h.clock_nonneg.trans hle, hok, fun addr a ha => (h.sent addr a ha).trans hle,
      fun peer hpeer => (h.rtt peer hpeer).trans hle⟩
  · cases hs

theorem step_call {c : AckCall} (hs : s.step (.call c) = some t) :
    (∀ r ∈ c.reading, r.ReadBy s.clock) ∧
      ∃ history, s.history.step c = some history ∧ t = ⟨history, s.clock⟩ := by
  simp only [step] at hs
  split at hs
  · rename_i hread
    obtain ⟨history, hstep, rfl⟩ := Option.map_eq_some_iff.mp hs
    exact ⟨hread, history, hstep, rfl⟩
  · cases hs

theorem Inv.append (h : s.Inv) {d : SendData} {sendtime : Timeval} {sleeptime : UInt32}
    (hs : s.step (.call (.append d sendtime sleeptime)) = some t) : t.Inv := by
  obtain ⟨hread, history, hstep, rfl⟩ := step_call hs
  simp only [AckHistory.step] at hstep
  split at hstep
  · cases hstep
  rename_i nacks d' happ
  cases hstep
  obtain ⟨-, -, -, hnacks⟩ := appendAck_ok happ
  refine ⟨h.clock_nonneg, h.clock_lt, ?_, h.rtt⟩
  simp only [hnacks]
  exact (Function.forall_update_iff _
    (fun _ (l : List Ack) => ∀ a ∈ l, a.sendtime.ReadBy s.clock)).mpr
      ⟨List.forall_mem_cons.mpr ⟨hread sendtime rfl, h.sent d.dest⟩, fun addr _ => h.sent addr⟩

/-- The round trip of an ack that comes in time is no longer than the clock has run. -/
theorem Inv.ack (h : s.Inv) {ackR : AckReceived} {received : Timeval} {source : SockAddr}
    (hok : s.InRange (.call (.ack ackR received source)))
    (hs : s.step (.call (.ack ackR received source)) = some t) : t.Inv := by
  obtain ⟨hread, history, hstep, rfl⟩ := step_call hs
  obtain ⟨hreceived, hreceived'⟩ := hread received rfl
  refine h.of_sublist (AckHistory.step_ack_nacks hstep).2 ?_
  have hacks : history.tables = s.history.tables.acknowledged ackR received source := by
    simp only [AckHistory.step] at hstep
    split at hstep <;>
    · rw [← Option.some.inj hstep]
  rw [hacks]
  refine acknowledged_lastRTT (P := fun rtt => (rtt.toNat : ℤ) ≤ s.clock.micros) h.rtt ?_
  intro pop hpop
  have hle := hok pop hpop
  have hsent : 0 ≤ pop.sendtime.micros :=
    (h.sent source pop (List.mem_of_find?_eq_some (AckState.popped_find hpop))).1
  have hlt := h.clock_lt
  have hrtt : (timerSub received pop.sendtime).micros ≤ s.clock.micros := by
    rw [micros_timerSub]
    omega
  rw [toNat_timeToUsec (by rw [micros_timerSub]; omega) (by omega)]
  exact hrtt

theorem Inv.step (h : s.Inv) {a : TimedCall} (hok : s.InRange a) (hs : s.step a = some t) :
    t.Inv := by
  cases a with
  | tick now => exact h.tick hok hs
  | call c =>
    cases c with
    | append d sendtime sleeptime => exact h.append hs
    | ack ackR received source => exact h.ack hok hs
    | timeout now =>
      obtain ⟨-, history, hstep, rfl⟩ := step_call hs
      cases hstep
      exact h.of_sublist (fun addr => (AckState.sweepTimeouts_sublist _ _ addr).2) h.rtt
    | drain =>
      obtain ⟨-, history, hstep, rfl⟩ := step_call hs
      cases hstep
      exact h.of_sublist (fun addr => List.Sublist.refl _) (List.forall_mem_map.mpr h.rtt)
    | release =>
      obtain ⟨-, history, hstep, rfl⟩ := step_call hs
      cases hstep
      exact h.of_sublist (fun addr => List.Sublist.refl _) (List.forall_mem_map.mpr h.rtt)
    | elsewhere queues cookies =>
      obtain ⟨-, history, hstep, rfl⟩ := step_call hs
      cases hstep
      exact h.of_sublist (fun addr => List.Sublist.refl _) h.rtt

theorem reaches_inv (h : Reaches timedSender InRange s) : s.Inv := by
  apply h.invariant
  · rintro _ rfl
    exact inv_init
  · intro s a t hi hok hs
    exact hi.step hok hs

theorem Inv.timedOut_known (h : s.Inv) {addr : SockAddr} {peer : PeerAckStore}
    (hfind : s.history.tables.acks.findPeerByHost addr = some peer) {now : Timeval}
    (hnow : now.ReadBy s.clock) {a : Ack} (ha : a ∈ s.history.tables.nacks.nacksOf addr)
    (hout : timedOut (timeToUsec now) (s.history.tables.acks.getTimeoutValue addr) a = true) :
    a.sendtime.micros + 10000 ≤ now.micros := by
  have hlt := h.clock_lt
  obtain ⟨hsent, hsent'⟩ := h.sent addr a ha
  obtain ⟨hnow, hnow'⟩ := hnow
  have hrtt := h.rtt peer (List.mem_of_find?_eq_some hfind)
  obtain ⟨hfloor, htop⟩ := getTimeoutValue_known hfind (by omega)
  have hlate := (timedOut_iff hsent hnow (by omega) (by omega)).mp hout
  omega

theorem Inv.timedOut_unknown (h : s.Inv) {addr : SockAddr}
    (hfind : s.history.tables.acks.findPeerByHost addr = none) {now : Timeval}
    (hnow : now.ReadBy s.clock) {a : Ack} (ha : a ∈ s.history.tables.nacks.nacksOf addr) :
    timedOut (timeToUsec now) (s.history.tables.acks.getTimeoutValue addr) a = true ↔
      a.sendtime.micros < now.micros := by
  have hlt := h.clock_lt
  obtain ⟨hsent, hsent'⟩ := h.sent addr a ha
  obtain ⟨hnow, hnow'⟩ := hnow
  have hzero := getTimeoutValue_unknown hfind
  rw [timedOut_iff hsent hnow (by omega) (by rw [hzero]; simp; omega), hzero]
  simp

/-- In every state of a run a sweep queues nothing again within 10 milliseconds of its sending
exactly if no packet that the sweep resends went out so lately, but before, to a peer without a
record. -/
theorem requeued_old_iff (h : Reaches timedSender InRange s) {now : Timeval}
    (hnow : now.ReadBy s.clock) :
    (∀ a ∈ s.history.tables.requeued now, a.sendtime.micros + 10000 ≤ now.micros) ↔
      ∀ addr, s.history.tables.acks.findPeerByHost addr = none →
        ∀ a ∈ s.history.tables.nacks.nacksOf addr, hasBit a.d.flags blkBlockAck = true →
          now.micros ≤ a.sendtime.micros ∨ a.sendtime.micros + 10000 ≤ now.micros := by
  have hinv := reaches_inv h
  constructor
  · intro hold addr hfind a ha hbit
    rcases le_or_gt now.micros a.sendtime.micros with hle | hlt
    · exact Or.inl hle
    · exact Or.inr (hold a (AckState.mem_requeued.mpr
        ⟨hbit, addr, ha, (hinv.timedOut_unknown hfind hnow ha).mpr hlt⟩))
  · intro hcond a ha
    obtain ⟨hbit, addr, ha, hout⟩ := AckState.mem_requeued.mp ha
    cases hfind : s.history.tables.acks.findPeerByHost addr with
    | some peer => exact hinv.timedOut_known hfind hnow ha hout
    | none =>
      have hlt := (hinv.timedOut_unknown hfind hnow ha).mp hout
      exact (hcond addr hfind a ha hbit).resolve_left (not_le.mpr hlt)

instance (s : TimedSender) : (a : TimedCall) → Decidable (s.InRange a)
  | .tick now => inferInstanceAs (Decidable (now.micros < 2 ^ 62))
  | .call (.ack ackR received source) => inferInstanceAs (Decidable
      (∀ pop ∈ s.history.tables.popped ackR source, pop.sendtime.micros ≤ received.micros))
  | .call (.append ..) | .call (.timeout _) | .call .drain | .call .release
  | .call (.elsewhere ..) => isTrue trivial

def requeuedTimes (s : TimedSender) (now : Timeval) : List ℤ :=
  (s.history.tables.requeued now).map (fun a => a.sendtime.micros)

/-- Two fragments to a peer that acked before, swept 20 milliseconds and one after they were
sent. -/
theorem requeued_old_acked :
    ∃ s : TimedSender, s.requeuedTimes ⟨0, 25000⟩ = [5000] ∧
      (s.history.tables.nacks.nacksOf ⟨1, 1⟩).map (fun a => a.sendtime.micros) = [24000, 5000] ∧
      ∀ a ∈ s.history.tables.requeued ⟨0, 25000⟩, a.sendtime.micros + 10000 ≤ 25000 := by
  have hrun : (timedSender.runIf InRange init
      [.tick ⟨0, 1000⟩, .call (.append (fragmentTo ⟨1, 1⟩) ⟨0, 1000⟩ 0), .tick ⟨0, 3000⟩,
        .call (.ack (AckHistory.ackOfSeq 1) ⟨0, 3000⟩ ⟨1, 1⟩), .tick ⟨0, 25000⟩,
        .call (.append (fragmentTo ⟨1, 1⟩) ⟨0, 5000⟩ 0),
        .call (.append (fragmentTo ⟨1, 1⟩) ⟨0, 24000⟩ 0)]).map
          (fun s => (s.requeuedTimes ⟨0, 25000⟩, s.clock.micros,
            (s.history.tables.nacks.nacksOf ⟨1, 1⟩).map (fun a => a.sendtime.micros),
            s.history.tables.nacks.nacklist.all (fun p =>
              (s.history.tables.acks.findPeerByHost p.addr).isSome))) =
        some ([5000], 25000, [24000, 5000], true) := by
    decide +kernel
  obtain ⟨s, hs, heq⟩ := Option.map_eq_some_iff.mp hrun
  simp only [Prod.mk.injEq] at heq
  obtain ⟨htimes, hclock, hnacks, hknown⟩ := heq
  have hnow : (⟨0, 25000⟩ : Timeval).ReadBy s.clock := by
    rw [Timeval.ReadBy, hclock]
    decide
  refine ⟨s, htimes, hnacks, (requeued_old_iff ((Reaches.init rfl).runIf hs) hnow).mpr ?_⟩
  intro addr hunknown a ha
  unfold NackTable.nacksOf at ha
  split at ha
  · cases ha
  · rename_i p hp
    have hsome := List.all_eq_true.mp hknown p (List.mem_of_find?_eq_some hp)
    rw [show p.addr = addr by simpa using List.find?_some hp, hunknown] at hsome
    cases hsome

/-- The first fragment to a peer is queued again one microsecond after it was sent. -/
theorem requeued_at_once :
    ∃ s : TimedSender, Reaches timedSender InRange s ∧ (⟨0, 6⟩ : Timeval).ReadBy s.clock ∧
      (∀ addr, ∀ a ∈ s.history.tables.nacks.nacksOf addr, a.sendtime.micros ≤ 6) ∧
      s.requeuedTimes ⟨0, 6⟩ = [5] ∧
      ¬ ∀ a ∈ s.history.tables.requeued ⟨0, 6⟩, a.sendtime.micros + 10000 ≤ 6 := by
  have hrun : (timedSender.runIf InRange init
      [.tick ⟨0, 6⟩, .call (.append (fragmentTo ⟨1, 1⟩) ⟨0, 5⟩ 0)]).map
          (fun s => (s.requeuedTimes ⟨0, 6⟩, s.clock.micros)) = some ([5], 6) := by
    decide +kernel
  obtain ⟨s, hs, heq⟩ := Option.map_eq_some_iff.mp hrun
  obtain ⟨htimes, hclock⟩ := Prod.mk.inj heq
  have hreach : Reaches timedSender InRange s := (Reaches.init rfl).runIf hs
  refine ⟨s, hreach, ?_, fun addr a ha => ?_, htimes, fun hold => ?_⟩
  · rw [Timeval.ReadBy, hclock]
    decide
  · rw [← hclock]
    exact ((reaches_inv hreach).sent addr a ha).2
  · have hmem : 5 ∈ s.requeuedTimes ⟨0, 6⟩ := by simp [htimes]
    obtain ⟨a, ha, hsent⟩ := List.mem_map.mp hmem
    have hle := hold a ha
    omega

end TimedSender

end Bora
