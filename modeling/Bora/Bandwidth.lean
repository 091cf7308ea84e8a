import Bora.Accounting
import Bora.Pacing
import Bora.PullHandshake
import Mathlib.Data.Rat.Floor

/-! The bandwidth as Python sets it, while the sender thread divides by it: at the threshold, before
and after a packet, and for the pause behind one. -/
namespace Bora

open Checked Transition

/-- `set_bandwidth`: the `int` is widened to `uint64_t`. -/
def setBandwidth (bw : Int32) : UInt64 := UInt64.ofInt bw.toInt

/-- A division by `bandwidth`, and what `bws_set` was last given; the pause also with the packet
and the value that `sleeptime` got. -/
inductive Division
  | treshold (fSend : ℕ) (divisor : UInt64) (given : Int32)
  | pause (d : SendData) (divisor : UInt64) (given : Int32) (result : Option UInt64)
deriving DecidableEq

/-- `due` says that the thread has to look at the threshold before it goes on. The last three
fields record the run: the latest bandwidth given, the signal that killed the process, and the
divisions, latest first. -/
structure BwsSender where
  pacing : Pacing
  due : Bool
  bandwidth : UInt64
  bwsTimer : Int32
  processed : ℕ
  acks : AckTable
  given : Int32
  fault : Option Fault
  divisions : List Division

inductive BwsAction
  | bwsSet (rst bwsTime : Int32)
  | check
  | act (a : SenderAction)

namespace BwsSender

def init : BwsSender := ⟨Pacing.init, false, 1000000, 0, 0, AckTable.init, 1000000, none, []⟩

/-- `set_bws_interval` and `bws_return_value`. The packets that `bws_set` resends before are
calls of `send_data` like any other. -/
def bwsSet (s : BwsSender) (rst bwsTime : Int32) : BwsSender :=
  { s with bwsTimer := bwsTime, bandwidth := setBandwidth rst, acks := s.acks.releaseAckStore,
           processed := s.processed + 1, given := rst }

/-- `HIT_TRESHOLD`, at the start of `packet_send` and at the end of the loop of `send_packet`. -/
def check (s : BwsSender) : BwsSender :=
  let fSend := s.pacing.sender.queues.f .send
  let s := { s with divisions := .treshold fSend s.bandwidth s.given :: s.divisions }
  match hitTreshold s.bandwidth fSend with
  | .error e => { s with fault := some e }
  | .ok _ => { s with due := false }

def act (s : BwsSender) (a : SenderAction) : Option BwsSender :=
  match a with
  | .sender _ =>
    if s.due then none
    else
      match s.pacing.sender.pc with
      | .send d _ _ =>
        let result := packetSleeptime s.bandwidth d
        let s := { s with
          divisions := .pause d s.bandwidth s.given result.toOption :: s.divisions }
        match result with
        | .error e => some { s with fault := some e }
        | .ok _ =>
          (s.pacing.step s.bandwidth a).map
            (fun p => { s with pacing := p, due := PullHandshake.checksAt p.sender.pc })
      | _ =>
        (s.pacing.step s.bandwidth a).map
          (fun p => { s with pacing := p, due := PullHandshake.checksAt p.sender.pc })
  | _ => (s.pacing.step s.bandwidth a).map (fun p => { s with pacing := p })

def step (s : BwsSender) (a : BwsAction) : Option BwsSender :=
  if s.fault.isSome then none
  else
    match a with
    | .bwsSet rst bwsTime => some (s.bwsSet rst bwsTime)
    | .check => if s.due then some s.check else none
    | .act a => s.act a

end BwsSender

def bwsSender : System BwsSender BwsAction where
  init s := s = BwsSender.init
  step := BwsSender.step

namespace Division

/-- The division is defined, and a pause is the time the packet takes at the bandwidth given,
rounded down. -/
def Right : Division → Prop
  | .treshold _ divisor _ => divisor ≠ 0
  | .pause d divisor given result =>
    divisor ≠ 0 ∧ ∃ x : UInt64, result = some x ∧
      (x.toNat : ℤ) = ⌊(1000000 * d.length : ℚ) / given.toInt⌋

/-- The bandwidth given makes it so. A negative one is huge as `uint64_t`, and the pause is 0. -/
def GivenRight : Division → Prop
  | .treshold _ _ given => given ≠ 0
  | .pause d _ given _ => 0 < given.toInt ∨ given.toInt < 0 ∧ d.length = 0

def given : Division → Int32
  | .treshold _ _ given => given
  | .pause _ _ given _ => given

def Computed : Division → Prop
  | .treshold _ divisor given => divisor = setBandwidth given
  | .pause d divisor given result =>
    divisor = setBandwidth given ∧ result = (packetSleeptime divisor d).toOption

end Division

section Widened

variable (bw : Int32)

theorem toNat_setBandwidth :
    ((setBandwidth bw).toNat : ℤ) = if 0 ≤ bw.toInt then bw.toInt else bw.toInt + 2 ^ 64 := by
  have hlow := bw.le_toInt
  have hhigh := bw.toInt_lt
  rw [setBandwidth, UInt64.ofInt, UInt64.toNat_ofNat']
  split <;> omega

theorem setBandwidth_eq_zero_iff : setBandwidth bw = 0 ↔ bw.toInt = 0 := by
  have hlow := bw.le_toInt
  have hwide := toNat_setBandwidth bw
  rw [← UInt64.toNat_inj, UInt64.toNat_zero]
  split at hwide <;> omega

variable {bw} {d : SendData} {x : UInt64}

theorem packetSleeptime_pos (hpos : 0 < bw.toInt)
    (h : packetSleeptime (setBandwidth bw) d = .ok x) :
    (x.toNat : ℤ) = ⌊(1000000 * d.length : ℚ) / bw.toInt⌋ := by
  have hwide := toNat_setBandwidth bw
  rw [if_pos hpos.le] at hwide
  have hfloor := Rat.floor_natCast_div_natCast (1000000 * d.length) (setBandwidth bw).toNat
  rw [(packetSleeptime_ok h).1, ← hwide]
  push_cast at hfloor ⊢
  exact hfloor.symm

theorem packetSleeptime_neg (hneg : bw.toInt < 0)
    (h : packetSleeptime (setBandwidth bw) d = .ok x) :
    (x.toNat : ℤ) = ⌊(1000000 * d.length : ℚ) / bw.toInt⌋ ↔ d.length = 0 := by
  have hlow := bw.le_toInt
  have hlen : d.length ≤ 1500 := d.fits
  have hwide := toNat_setBandwidth bw
  rw [if_neg (not_le.mpr hneg)] at hwide
  have hzero : x.toNat = 0 := by
    rw [(packetSleeptime_ok h).1, Nat.div_eq_of_lt (by omega)]
  have hbw : (bw.toInt : ℚ) < 0 := by exact_mod_cast hneg
  rw [hzero]
  constructor
  · intro hfloor
    by_contra hd
    have hpos : (0 : ℚ) < 1000000 * d.length := by positivity
    have hquot : (1000000 * d.length : ℚ) / bw.toInt < 0 := div_neg_of_pos_of_neg hpos hbw
    have hnonneg : (0 : ℚ) ≤ (1000000 * d.length : ℚ) / bw.toInt := by
      rw [← Int.floor_nonneg, ← hfloor]
      rfl
    linarith
  · intro hd
    simp [hd]

end Widened

theorem Division.Computed.right_iff {e : Division} (h : e.Computed) : e.Right ↔ e.GivenRight := by
  cases e with
  | treshold fSend divisor given =>
    obtain rfl : divisor = setBandwidth given := h
    rw [Right, GivenRight, Ne, setBandwidth_eq_zero_iff, ← Int32.toInt_zero, Int32.toInt_inj]
  | pause d divisor given result =>
    obtain ⟨rfl, rfl⟩ := h
    rw [Right, GivenRight]
    by_cases hzero : setBandwidth given = 0
    · have hgiven := (setBandwidth_eq_zero_iff given).mp hzero
      simp [hzero, hgiven]
    · have hgiven := (setBandwidth_eq_zero_iff given).not.mp hzero
      obtain ⟨x, hx⟩ : ∃ x, packetSleeptime (setBandwidth given) d = .ok x := ⟨_, if_neg hzero⟩
      have hresult : (packetSleeptime (setBandwidth given) d).toOption = some x := by rw [hx]; rfl
      rw [hresult]
      rcases lt_or_gt_of_ne hgiven with hneg | hpos
      · simp [hzero, hneg, hneg.not_gt, packetSleeptime_neg hneg hx]
      · simp [hzero, hpos, packetSleeptime_pos hpos hx]

theorem Division.givenRight_of_pos {e : Division} (h : 0 < e.given.toInt) : e.GivenRight := by
  cases e with
  | treshold fSend divisor given =>
    intro hzero
    rw [Division.given, hzero] at h
    exact absurd h (by decide)
  | pause d divisor given result => exact Or.inl h

namespace BwsSender

variable {P : Int32 → Prop} {s t : BwsSender}

/-- Every bandwidth that the divisions were made with has been given, and only one that made a
division wrong kills the process. -/
structure Inv (P : Int32 → Prop) (s : BwsSender) : Prop where
  bandwidth : s.bandwidth = setBandwidth s.given
  given : P s.given
  computed : ∀ e ∈ s.divisions, e.Computed ∧ P e.given
  fault : s.fault = none ∨ ∃ e ∈ s.divisions, ¬ e.Right

theorem Inv.divide (h : s.Inv P) {e : Division} (he : e.Computed) (hgiven : e.given = s.given)
    (hbandwidth : t.bandwidth = s.bandwidth) (hsame : t.given = s.given)
    (hdivisions : t.divisions = e :: s.divisions) (hfault : t.fault = s.fault ∨ ¬ e.Right) :
    t.Inv P where
  bandwidth := by rw [hbandwidth, hsame, h.bandwidth]
  given := hsame ▸ h.given
  computed := by
    rw [hdivisions]
    exact List.forall_mem_cons.mpr ⟨⟨he, hgiven ▸ h.given⟩, h.computed⟩
  fault := by
    rw [hdivisions]
    rcases hfault with hfault | hwrong
    · rw [hfault]
      refine h.fault.imp_right ?_
      rintro ⟨e', he', hwrong⟩
      exact ⟨e', List.mem_cons_of_mem e he', hwrong⟩
    · exact Or.inr ⟨e, List.mem_cons_self, hwrong⟩

theorem Inv.check (h : s.Inv P) : s.check.Inv P := by
  unfold BwsSender.check
  cases htest : hitTreshold s.bandwidth (s.pacing.sender.queues.f .send) with
  | error e =>
    have hzero : s.bandwidth = 0 := by
      by_contra hne
      rw [hitTreshold, if_neg hne] at htest
      cases htest
    simp only [htest]
    exact h.divide (e := .treshold _ s.bandwidth s.given) h.bandwidth rfl rfl rfl rfl
      (Or.inr fun hright => hright hzero)
  | ok b =>
    simp only [htest]
    exact h.divide (e := .treshold _ s.bandwidth s.given) h.bandwidth rfl rfl rfl rfl (Or.inl rfl)

inductive Acts (s t : BwsSender) : Prop
  | quiet (bandwidth : t.bandwidth = s.bandwidth) (given : t.given = s.given)
      (divisions : t.divisions = s.divisions) (fault : t.fault = s.fault)
  | pause {d : SendData} (bandwidth : t.bandwidth = s.bandwidth) (given : t.given = s.given)
      (divisions : t.divisions = .pause d s.bandwidth s.given
        (packetSleeptime s.bandwidth d).toOption :: s.divisions)
      (fault : t.fault = s.fault ∨ s.bandwidth = 0)

theorem acts {a : SenderAction} (hs : s.act a = some t) : s.Acts t := by
  have hquiet : ∀ {f : Pacing → BwsSender} {o : Option Pacing}, o.map f = some t →
      (∀ p, (f p).bandwidth = s.bandwidth ∧ (f p).given = s.given ∧
        (f p).divisions = s.divisions ∧ (f p).fault = s.fault) → s.Acts t := by
    intro f o ho hf
    obtain ⟨p, -, rfl⟩ := Option.map_eq_some_iff.mp ho
    obtain ⟨hb, hg, hd, hfault⟩ := hf p
    exact .quiet hb hg hd hfault
  unfold act at hs
  split at hs
  · split at hs
    · cases hs
    split at hs
    · rename_i d _ _ _
      cases hsleep : packetSleeptime s.bandwidth d with
      | error e =>
        have hzero : s.bandwidth = 0 := by
          by_contra hne
          rw [packetSleeptime, if_neg hne] at hsleep
          cases hsleep
        simp only [hsleep, Option.some.injEq] at hs
        subst hs
        exact .pause (d := d) rfl rfl (by rw [hsleep]) (Or.inr hzero)
      | ok x =>
        simp only [hsleep] at hs
        obtain ⟨p, -, rfl⟩ := Option.map_eq_some_iff.mp hs
        exact .pause (d := d) rfl rfl (by rw [hsleep]) (Or.inl rfl)
    · exact hquiet hs (fun _ => ⟨rfl, rfl, rfl, rfl⟩)
  · exact hquiet hs (fun _ => ⟨rfl, rfl, rfl, rfl⟩)

theorem Inv.act (h : s.Inv P) {a : SenderAction} (hs : s.act a = some t) : t.Inv P := by
  cases acts hs with
  | quiet hbandwidth hgiven hdivisions hfault =>
    refine ⟨by rw [hbandwidth, hgiven, h.bandwidth], hgiven ▸ h.given, ?_, ?_⟩
    · rw [hdivisions]
      exact h.computed
    · rw [hdivisions, hfault]
      exact h.fault
  | @pause d hbandwidth hgiven hdivisions hfault =>
    exact h.divide (e := .pause d s.bandwidth s.given _) ⟨h.bandwidth, rfl⟩ rfl hbandwidth hgiven
      hdivisions (hfault.imp_right fun hzero hright => hright.1 hzero)

end BwsSender

def BwsAction.Gives (P : Int32 → Prop) : BwsAction → Prop
  | .bwsSet rst _ => P rst
  | _ => True

instance (P : Int32 → Prop) [DecidablePred P] : (a : BwsAction) → Decidable (a.Gives P)
  | .bwsSet rst _ => inferInstanceAs (Decidable (P rst))
  | .check | .act _ => isTrue trivial

namespace BwsSender

variable {P : Int32 → Prop} {s t : BwsSender}

theorem Inv.step (h : s.Inv P) {a : BwsAction} (ha : a.Gives P) (hs : s.step a = some t) :
    t.Inv P := by
  unfold BwsSender.step at hs
  split at hs
  · cases hs
  cases a with
  | bwsSet rst bwsTime =>
    cases hs
    exact ⟨rfl, ha, h.computed, h.fault⟩
  | check =>
    simp only at hs
    split at hs
    · cases hs
      exact h.check
    · cases hs
  | act a => exact h.act hs

theorem reaches_inv {ok : BwsSender → BwsAction → Prop} (hinit : P 1000000)
    (hgives : ∀ s a, ok s a → a.Gives P) (h : Reaches bwsSender ok s) : s.Inv P := by
  apply h.invariant
  · rintro _ rfl
    exact ⟨by decide, hinit, by simp [init], Or.inl rfl⟩
  · intro s a t hi ha hs
    exact hi.step (hgives s a ha) hs

/-- In every run a division is right exactly if the bandwidth given last makes it so. -/
theorem divisions_right_iff (h : Reachable bwsSender s) :
    ∀ e ∈ s.divisions, e.Right ↔ e.GivenRight := by
  have hinv : s.Inv (fun _ => True) :=
    reaches_inv trivial (fun _ a _ => by cases a <;> trivial) h
  exact fun e he => (hinv.computed e he).1.right_iff

/-- In every run in which `bws_set` is given positive bandwidths only, all divisions are right,
whatever the thread and the callers of `send_data` do between the calls. -/
theorem divisions_right (h : Reaches bwsSender (fun _ a => a.Gives (fun bw => 0 < bw.toInt)) s) :
    s.fault = none ∧ ∀ e ∈ s.divisions, e.Right := by
  have hinv := reaches_inv (show 0 < (1000000 : Int32).toInt by decide) (fun _ _ ha => ha) h
  have hright : ∀ e ∈ s.divisions, e.Right := by
    intro e he
    obtain ⟨hcomputed, hpos⟩ := hinv.computed e he
    exact hcomputed.right_iff.mpr (Division.givenRight_of_pos hpos)
  refine ⟨hinv.fault.resolve_right ?_, hright⟩
  rintro ⟨e, he, hwrong⟩
  exact hwrong (hright e he)

theorem divisions_right_slow :
    ∃ s : BwsSender, s.divisions = [.treshold 0 1000 1000,
        .pause (fragmentTo ⟨1, 1⟩) 1000 1000 (some 13000), .treshold 1 1000 1000] ∧
      s.fault = none ∧ ∀ e ∈ s.divisions, e.Right := by
  have hrun : (bwsSender.runIf (fun _ a => a.Gives (fun bw => 0 < bw.toInt)) init
      [.bwsSet 1000 5000, .act (.sendData (fragmentTo ⟨1, 1⟩)), .act (.insert 0), .act .post,
        .act (.sender true), .check, .act (.sender true), .act (.sender true),
        .act (.sender true), .act (.sender true), .act (.sender true), .act (.sender true),
        .check]).map BwsSender.divisions =
      some [.treshold 0 1000 1000, .pause (fragmentTo ⟨1, 1⟩) 1000 1000 (some 13000),
        .treshold 1 1000 1000] := by
    decide +kernel
  obtain ⟨s, hs, hdivisions⟩ := Option.map_eq_some_iff.mp hrun
  exact ⟨s, hdivisions, divisions_right ((Reaches.init rfl).runIf hs)⟩

/-- `bws_set(0, 5000)` kills the process at the next look at the threshold. -/
theorem divisions_zero :
    ∃ s : BwsSender, Reachable bwsSender s ∧ s.fault = some .divZero ∧
      s.divisions = [.treshold 0 0 0] ∧ ¬ ∀ e ∈ s.divisions, e.Right := by
  have hrun : (bwsSender.runIf (fun _ _ => True) init
      [.bwsSet 0 5000, .act (.sender true), .check]).map (fun s => (s.fault, s.divisions)) =
      some (some .divZero, [.treshold 0 0 0]) := by
    decide +kernel
  obtain ⟨s, hs, heq⟩ := Option.map_eq_some_iff.mp hrun
  obtain ⟨hfault, hdivisions⟩ := Prod.mk.inj heq
  refine ⟨s, (Reaches.init rfl).runIf hs, hfault, hdivisions, fun hright => ?_⟩
  exact hright (.treshold 0 0 0) (by simp [hdivisions]) rfl

end BwsSender

end Bora
