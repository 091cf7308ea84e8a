import Bora.PacketSend
import Bora.SenderThread
import Bora.Library.Meter

/-! The pauses of the sender thread: `sleeptime`, which every `packet_send` overwrites, and what
`send_packet` saves of it around the second packet of a pair. -/
namespace Bora

open Checked Transition

/-- `usleep` with its argument, and a packet as it was taken. -/
inductive PacingEvent
  | slept (usec : UInt32)
  | sent (d : SendData)
deriving DecidableEq

structure Pacing where
  sender : Sender
  sleeptime : UInt64
  sleepPrev : UInt64
  log : List PacingEvent

namespace Pacing

def init : Pacing := ⟨Sender.init, 1500, 0, []⟩

/-- `usleep(sleeptime)`; the argument has 32 bits. -/
def usleep (s : Pacing) : Pacing := { s with log := .slept s.sleeptime.toUInt32 :: s.log }

/-- A pair saves `sleeptime` and adds it again; every other `packet_send` comes behind a pause. -/
def step (bandwidth : UInt64) (s : Pacing) (a : SenderAction) : Option Pacing :=
  (s.sender.step a).bind (fun sender =>
    match a, s.sender.pc with
    | .sender _, .look =>
      if sender.pc = .wait true then some { s with sender := sender, sleepPrev := s.sleeptime }
      else some { s with sender := sender }.usleep
    | .sender _, .send d _ z =>
      match packetSleeptime bandwidth d with
      | .error _ => none
      | .ok sleeptime =>
        let s := { s with sender := sender, sleeptime := sleeptime, log := .sent d :: s.log }
        if z then some { s with sleeptime := s.sleepPrev + sleeptime }.usleep else some s
    | _, _ => some { s with sender := sender })

end Pacing

/-- The sender thread at a constant bandwidth, among any callers. -/
def pacing (bandwidth : UInt64) : System Pacing SenderAction where
  init s := s = Pacing.init
  step := Pacing.step bandwidth

namespace PacingEvent

def usec : PacingEvent → ℕ
  | .slept usec => usec.toNat
  | .sent _ => 0

def interval (bandwidth : UInt64) : PacingEvent → ℕ
  | .slept _ => 0
  | .sent d => 1000000 * d.length / bandwidth.toNat

end PacingEvent

def sleptTotal (log : List PacingEvent) : ℕ := (log.map PacingEvent.usec).sum

def intervalTotal (bandwidth : UInt64) (log : List PacingEvent) : ℕ :=
  (log.map (PacingEvent.interval bandwidth)).sum

/-- With every pause all pauses together are what the packets before it take, and 1500. -/
def Conserved (bandwidth : UInt64) (log : List PacingEvent) : Prop :=
  ∀ later usec earlier, log = later ++ .slept usec :: earlier →
    sleptTotal (.slept usec :: earlier) = 1500 + intervalTotal bandwidth earlier

section Totals

variable {bandwidth : UInt64} {log : List PacingEvent}

@[simp] theorem sleptTotal_slept (usec : UInt32) :
    sleptTotal (.slept usec :: log) = usec.toNat + sleptTotal log := by
  simp [sleptTotal, PacingEvent.usec]

@[simp] theorem sleptTotal_sent (d : SendData) :
    sleptTotal (.sent d :: log) = sleptTotal log := by
  simp [sleptTotal, PacingEvent.usec]

@[simp] theorem intervalTotal_slept (usec : UInt32) :
    intervalTotal bandwidth (.slept usec :: log) = intervalTotal bandwidth log := by
  simp [intervalTotal, PacingEvent.interval]

@[simp] theorem intervalTotal_sent (d : SendData) :
    intervalTotal bandwidth (.sent d :: log) =
      1000000 * d.length / bandwidth.toNat + intervalTotal bandwidth log := by
  simp [intervalTotal, PacingEvent.interval]

theorem conserved_nil : Conserved bandwidth [] := by simp [Conserved]

theorem Conserved.sent (h : Conserved bandwidth log) (d : SendData) :
    Conserved bandwidth (.sent d :: log) := by
  intro later usec earlier hsplit
  rcases List.cons_eq_append_iff.mp hsplit with ⟨-, heq⟩ | ⟨later', -, heq⟩
  · cases heq
  · exact h later' usec earlier heq

theorem Conserved.slept (h : Conserved bandwidth log) {usec : UInt32}
    (htotal : sleptTotal (.slept usec :: log) = 1500 + intervalTotal bandwidth log) :
    Conserved bandwidth (.slept usec :: log) := by
  intro later usec' earlier hsplit
  rcases List.cons_eq_append_iff.mp hsplit with ⟨-, heq⟩ | ⟨later', -, heq⟩
  · cases heq
    exact htotal
  · exact h later' usec' earlier heq

end Totals

theorem packetSleeptime_ok {bandwidth : UInt64} {d : SendData} {x : UInt64}
    (h : packetSleeptime bandwidth d = .ok x) :
    x.toNat = 1000000 * d.length / bandwidth.toNat ∧ x.toNat ≤ 1500000000 := by
  unfold packetSleeptime at h
  split at h
  · cases h
  cases h
  have hlen : d.length ≤ 1500 := d.fits
  have hfits : 1000000 * d.length < 2 ^ 64 := by omega
  rw [UInt64.toNat_div, UInt64.toNat_ofNat', Nat.mod_eq_of_lt hfits]
  refine ⟨rfl, (Nat.div_le_self _ _).trans ?_⟩
  omega

namespace Pacing

variable {bandwidth : UInt64} {s t : Pacing}

/-- The part of the packets sent so far that no pause has covered yet. -/
def owes (s : Pacing) : UInt64 :=
  match s.sender.pc with
  | .look => s.sleeptime
  | .wait true => s.sleepPrev
  | .data true => s.sleepPrev
  | .send _ _ true => s.sleepPrev
  | _ => 0

inductive Moves (bandwidth : UInt64) (s t : Pacing) : Prop
  | quiet (hlog : t.log = s.log) (howes : t.owes = s.owes)
  | pause (hlog : t.log = .slept s.owes.toUInt32 :: s.log) (howes : t.owes = 0)
  | packet {d : SendData} {x : UInt64} (hx : packetSleeptime bandwidth d = .ok x)
      (hidle : s.owes = 0) (hlog : t.log = .sent d :: s.log) (howes : t.owes = x)
  | second {d : SendData} {x : UInt64} (hx : packetSleeptime bandwidth d = .ok x)
      (hlog : t.log = .slept (s.owes + x).toUInt32 :: .sent d :: s.log) (howes : t.owes = 0)

theorem owes_congr (hpc : t.sender.pc = s.sender.pc) (hsleep : t.sleeptime = s.sleeptime)
    (hprev : t.sleepPrev = s.sleepPrev) : t.owes = s.owes := by
  simp only [owes, hpc, hsleep, hprev]

theorem moves_look (hpc : s.sender.pc = .look) {sent : Bool}
    (hs : s.step bandwidth (.sender sent) = some t) : s.Moves bandwidth t := by
  obtain ⟨sender, hsender, ht⟩ := Option.bind_eq_some_iff.mp hs
  have howes : s.owes = s.sleeptime := by simp only [owes, hpc]
  have hnext : sender.pc = .wait true ∨ sender.pc = .wait false := by
    simp only [Sender.step, Sender.senderStep, hpc] at hsender
    split at hsender
    · cases hsender
      exact Or.inr rfl
    split at hsender
    · cases hsender
      exact Or.inl rfl
    · cases hsender
      exact Or.inr rfl
  simp only [hpc] at ht
  rcases hnext with hnext | hnext
  · rw [if_pos hnext] at ht
    cases ht
    exact .quiet rfl (by rw [howes]; simp only [owes, hnext])
  · rw [if_neg (by simp [hnext])] at ht
    cases ht
    exact .pause (by rw [howes]; rfl) (by simp only [owes, usleep, hnext])

theorem moves_send {d : SendData} {source : PacketSource} {z : Bool}
    (hpc : s.sender.pc = .send d source z) {sent : Bool}
    (hs : s.step bandwidth (.sender sent) = some t) : s.Moves bandwidth t := by
  obtain ⟨sender, hsender, ht⟩ := Option.bind_eq_some_iff.mp hs
  simp only [Sender.step, Sender.senderStep, hpc] at hsender
  cases hsender
  simp only [hpc] at ht
  split at ht
  · cases ht
  rename_i x hx
  cases z with
  | false =>
    cases ht
    exact .packet hx (by simp only [owes, hpc]) rfl rfl
  | true =>
    cases ht
    exact .second hx (by simp only [owes, hpc]; rfl) rfl

theorem moves_quiet {a : SenderAction} {sender : Sender}
    (hs : s.step bandwidth a = some t) (hsender : s.sender.step a = some sender)
    (hlook : ∀ sent, a = .sender sent → s.sender.pc ≠ .look)
    (hsend : ∀ sent, a = .sender sent → ∀ d source z, s.sender.pc ≠ .send d source z)
    (howes : (⟨sender, s.sleeptime, s.sleepPrev, s.log⟩ : Pacing).owes = s.owes) :
    s.Moves bandwidth t := by
  obtain ⟨sender', hsender', ht⟩ := Option.bind_eq_some_iff.mp hs
  cases hsender.symm.trans hsender'
  split at ht
  · rename_i sent hpc
    exact absurd hpc (hlook sent rfl)
  · rename_i sent d source z hpc
    exact absurd hpc (hsend sent rfl d source z)
  · cases ht
    exact .quiet rfl howes

/-- Between the pause and the sending nothing is owed, or what was saved for a pair. -/
theorem owes_between (hready : s.sender.Ready) {sent : Bool} {sender : Sender}
    (hs : s.sender.senderStep sent = some sender) (hlook : s.sender.pc ≠ .look)
    (hsend : ∀ d source z, s.sender.pc ≠ .send d source z) :
    (⟨sender, s.sleeptime, s.sleepPrev, s.log⟩ : Pacing).owes = s.owes := by
  unfold Sender.senderStep at hs
  unfold Sender.Ready at hready
  unfold owes
  cases hpc : s.sender.pc with
  | look => exact absurd hpc hlook
  | wait z =>
    simp only [hpc] at hs
    split at hs
    · cases hs
    cases z with
    | true =>
      cases hs
      rfl
    | false =>
      cases hs
      rfl
  | cookie =>
    simp only [hpc] at hs
    split at hs <;>
    · cases hs
      rfl
  | getCookie =>
    simp only [hpc] at hs
    split at hs <;>
    · cases hs
      rfl
  | prio =>
    simp only [hpc] at hs
    split at hs <;>
    · cases hs
      rfl
  | retr =>
    simp only [hpc] at hs
    split at hs <;>
    · cases hs
      rfl
  | data z =>
    simp only [hpc] at hs hready
    rw [if_pos hready] at hs
    cases hs
    cases z <;> rfl
  | send d source z => exact absurd hpc (hsend d source z)
  | underflow => simp [hpc] at hs
  | exited => simp [hpc] at hs

theorem moves (h : s.sender.Inv) {a : SenderAction} (hs : s.step bandwidth a = some t) :
    s.Moves bandwidth t := by
  obtain ⟨sender, hsender, -⟩ := Option.bind_eq_some_iff.mp hs
  by_cases ha : ∃ sent, a = .sender sent
  · obtain ⟨sent, rfl⟩ := ha
    by_cases hlook : s.sender.pc = .look
    · exact moves_look hlook hs
    by_cases hsend : ∃ d source z, s.sender.pc = .send d source z
    · obtain ⟨d, source, z, hsend⟩ := hsend
      exact moves_send hsend hs
    · have hnot : ∀ d source z, s.sender.pc ≠ .send d source z :=
        fun d source z hpc => hsend ⟨d, source, z, hpc⟩
      exact moves_quiet hs hsender (fun _ _ => hlook) (fun _ _ => hnot)
        (owes_between h.ready hsender hlook hnot)
  · have hnot : ∀ sent, a ≠ .sender sent := fun sent heq => ha ⟨sent, heq⟩
    exact moves_quiet hs hsender (fun sent heq => absurd heq (hnot sent))
      (fun sent heq => absurd heq (hnot sent))
      (owes_congr (Sender.callers_frame h.valid hnot hsender).1 rfl rfl)

/-- What is owed, what was slept, and what the packets sent so far take, the first pause with
them. -/
def meter (bandwidth : UInt64) (s : Pacing) : Meter ℤ :=
  ⟨s.owes.toNat, sleptTotal s.log, 1500 + intervalTotal bandwidth s.log⟩

/-- The thread never owes more than one packet of full length at one byte a second. -/
structure Inv (bandwidth : UInt64) (s : Pacing) : Prop where
  sender : s.sender.Inv
  balance : (s.meter bandwidth).Exact
  small : s.owes.toNat ≤ 1500000000
  conserved : Conserved bandwidth s.log

theorem inv_init : init.Inv bandwidth where
  sender := Sender.inv_init
  balance := (Meter.exact_start (G := ℤ)).add 1500
  small := by decide
  conserved := conserved_nil

theorem sleptTotal_of_exact (h : (t.meter bandwidth).Exact) (howes : t.owes = 0) :
    sleptTotal t.log = 1500 + intervalTotal bandwidth t.log := by
  have hexact : (sleptTotal t.log : ℤ) + (t.owes.toNat : ℤ) =
      1500 + intervalTotal bandwidth t.log := h
  rw [howes] at hexact
  exact_mod_cast hexact

theorem step_sender {a : SenderAction} (hs : s.step bandwidth a = some t) :
    s.sender.step a = some t.sender := by
  obtain ⟨sender, hsender, ht⟩ := Option.bind_eq_some_iff.mp hs
  rw [hsender]
  split at ht
  · split at ht <;>
    · cases ht
      rfl
  · split at ht
    · cases ht
    · split at ht <;>
      · cases ht
        rfl
  · cases ht
    rfl

theorem meter_pause (hsmall : s.owes.toNat ≤ 1500000000)
    (hlog : t.log = .slept s.owes.toUInt32 :: s.log) (howes : t.owes = 0) :
    t.meter bandwidth = (s.meter bandwidth).take := by
  have hfits : s.owes.toUInt32.toNat = s.owes.toNat := by
    rw [UInt64.toNat_toUInt32]
    exact Nat.mod_eq_of_lt (hsmall.trans_lt (by decide))
  simp [meter, Meter.take, hlog, howes, hfits, add_comm]

theorem meter_packet {d : SendData} {x : UInt64} (hx : packetSleeptime bandwidth d = .ok x)
    (hidle : s.owes = 0) (hlog : t.log = .sent d :: s.log) (howes : t.owes = x) :
    t.meter bandwidth = (s.meter bandwidth).add x.toNat := by
  have hslept : sleptTotal t.log = sleptTotal s.log := by rw [hlog, sleptTotal_sent]
  have hintervals : intervalTotal bandwidth t.log = x.toNat + intervalTotal bandwidth s.log := by
    rw [hlog, intervalTotal_sent, (packetSleeptime_ok hx).1]
  simp only [meter, Meter.add, howes, hidle, hslept, hintervals, UInt64.toNat_zero,
    Nat.cast_zero, zero_add, Nat.cast_add, Meter.mk.injEq, true_and]
  ring

/-- The second of a pair: it is added to what was saved, and the pause is for both. -/
theorem meter_second {d : SendData} {x : UInt64} (hx : packetSleeptime bandwidth d = .ok x)
    (hsmall : s.owes.toNat ≤ 1500000000)
    (hlog : t.log = .slept (s.owes + x).toUInt32 :: .sent d :: s.log) (howes : t.owes = 0) :
    t.meter bandwidth = ((s.meter bandwidth).add x.toNat).take := by
  obtain ⟨hx, hxsmall⟩ := packetSleeptime_ok hx
  have hadd : (s.owes + x).toNat = s.owes.toNat + x.toNat := by
    rw [UInt64.toNat_add]
    exact Nat.mod_eq_of_lt (by omega)
  have hfits : (s.owes + x).toUInt32.toNat = s.owes.toNat + x.toNat := by
    rw [UInt64.toNat_toUInt32, hadd]
    exact Nat.mod_eq_of_lt (by omega)
  have hslept : sleptTotal t.log = s.owes.toNat + x.toNat + sleptTotal s.log := by
    rw [hlog, sleptTotal_slept, sleptTotal_sent, hfits]
  have hintervals : intervalTotal bandwidth t.log = x.toNat + intervalTotal bandwidth s.log := by
    rw [hlog, intervalTotal_slept, intervalTotal_sent, hx]
  simp only [meter, Meter.add, Meter.take, howes, hslept, hintervals, UInt64.toNat_zero,
    Nat.cast_zero, Nat.cast_add, Meter.mk.injEq, true_and]
  constructor <;> ring

theorem inv_slept (hsender : t.sender.Inv) (hbalance : (t.meter bandwidth).Exact)
    (howes : t.owes = 0) {usec : UInt32} {log : List PacingEvent}
    (hlog : t.log = .slept usec :: log) (h : Conserved bandwidth log) : t.Inv bandwidth := by
  have htotal := sleptTotal_of_exact hbalance howes
  rw [hlog, intervalTotal_slept] at htotal
  refine ⟨hsender, hbalance, by rw [howes]; decide, ?_⟩
  rw [hlog]
  exact h.slept htotal

theorem Inv.step (h : s.Inv bandwidth) {a : SenderAction}
    (hs : s.step bandwidth a = some t) : t.Inv bandwidth := by
  have hsender : t.sender.Inv := Sender.inv_step h.sender (step_sender hs)
  cases moves h.sender hs with
  | quiet hlog howes =>
    refine ⟨hsender, ?_, ?_, ?_⟩
    · rw [meter, howes, hlog]
      exact h.balance
    · rw [howes]
      exact h.small
    · rw [hlog]
      exact h.conserved
  | pause hlog howes =>
    have hbalance : (t.meter bandwidth).Exact := meter_pause h.small hlog howes ▸ h.balance.take
    exact inv_slept hsender hbalance howes hlog h.conserved
  | @packet d x hx hidle hlog howes =>
    refine ⟨hsender, meter_packet hx hidle hlog howes ▸ h.balance.add _, ?_, ?_⟩
    · rw [howes]
      exact (packetSleeptime_ok hx).2
    · rw [hlog]
      exact h.conserved.sent d
  | @second d x hx hlog howes =>
    have hmeter := meter_second hx h.small hlog howes
    exact inv_slept hsender (hmeter ▸ (h.balance.add _).take) howes hlog (h.conserved.sent d)

/-- In every run, with every pause. -/
theorem pacing_conserved (bandwidth : UInt64) {s : Pacing} (h : Reachable (pacing bandwidth) s) :
    Conserved bandwidth s.log := by
  have hinv : s.Inv bandwidth := by
    apply h.invariant
    · rintro _ rfl
      exact inv_init
    · intro s a t hi _ hs
      exact hi.step hs
  exact hinv.conserved

/-- Two fragments to one host: the second goes out without a pause, and the next pause is for
both. -/
theorem pacing_conserved_pair :
    ∃ s : Pacing,
      s.log = [.slept 26, .sent (fragmentTo ⟨1, 1⟩), .sent (fragmentTo ⟨1, 1⟩), .slept 1500] ∧
        Conserved 1000000 s.log := by
  have hrun : ((pacing 1000000).runIf (fun _ _ => True) init
      ([.sendData (fragmentTo ⟨1, 1⟩), .insert 0, .post, .sendData (fragmentTo ⟨1, 1⟩),
        .insert 0, .post] ++ List.replicate 11 (.sender true))).map Pacing.log =
      some [.slept 26, .sent (fragmentTo ⟨1, 1⟩), .sent (fragmentTo ⟨1, 1⟩), .slept 1500] := by
    decide +kernel
  obtain ⟨s, hs, hlog⟩ := Option.map_eq_some_iff.mp hrun
  exact ⟨s, hlog, pacing_conserved 1000000 ((Reaches.init rfl).runIf hs)⟩

end Pacing

end Bora
