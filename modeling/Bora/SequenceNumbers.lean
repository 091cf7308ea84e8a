import Bora.LatestAck

/-! The numbers that `append_ack` gives to packets, in runs of any length: when they tell the
outstanding packets of a peer apart. -/
namespace Bora

open ByteMemory Checked Transition

/-- A call of `append_ack`, counted from 1: the packet, and what it became. -/
structure NumberedCall where
  call : ℕ
  packet : SendData
  datagram : SendData

def NumberedCall.seq (x : NumberedCall) : UInt16 := load16 x.datagram.data x.packet.length

/-- What a call of `append_ack` makes of its packet. -/
def AckHistory.numbering (s : AckHistory) : AckCall → Option NumberedCall
  | .append d sendtime sleeptime =>
    match appendAck s.tables.nacks d sendtime sleeptime with
    | .error _ => none
    | .ok (_, datagram) => some ⟨s.issued + 1, d, datagram⟩
  | _ => none

/-- `calls` are those of `append_ack` so far, latest first. -/
structure NumberedRun where
  history : AckHistory
  calls : List NumberedCall

def numberedRuns : System NumberedRun AckCall where
  init s := s = ⟨AckHistory.init, []⟩
  step s a := (s.history.step a).map (fun t => ⟨t, (s.history.numbering a).toList ++ s.calls⟩)

namespace NumberedRun

abbrev nacks (s : NumberedRun) : NackTable := s.history.tables.nacks

def lastTo (s : NumberedRun) (addr : SockAddr) (seq : UInt16) : Option NumberedCall :=
  s.calls.find? (fun x => x.packet.dest = addr && x.seq = seq)

/-- No packet is outstanding for the peer whose call was a multiple of 65536 calls ago. -/
def NoneComesRound (s : NumberedRun) : AckCall → Prop
  | .append d _ _ => ∀ x ∈ s.history.places d.dest, ¬ 65536 ∣ s.history.issued + 1 - x.2
  | _ => True

instance (s : NumberedRun) : (a : AckCall) → Decidable (s.NoneComesRound a)
  | .append d _ _ => inferInstanceAs (Decidable
      (∀ x ∈ s.history.places d.dest, ¬ 65536 ∣ s.history.issued + 1 - x.2))
  | .ack .. | .timeout _ | .drain | .release | .elsewhere .. => isTrue trivial

variable {s t : NumberedRun}

theorem number_eq_iff {m n : ℕ} (h : m ≤ n) :
    UInt16.ofNat m = UInt16.ofNat n ↔ 65536 ∣ n - m := by
  rw [← UInt16.toNat_inj, UInt16.toNat_ofNat', UInt16.toNat_ofNat']
  omega

/-- A packet is recorded and numbered, or no entry is new and nothing is numbered. -/
inductive Move (s : NumberedRun) (a : AckCall) (t : NumberedRun) : Prop
  | recorded {x : NumberedCall} {e : Ack} (calls : t.calls = x :: s.calls)
      (call : x.call = s.history.issued + 1) (issued : t.history.issued = x.call)
      (seq : x.seq = UInt16.ofNat x.call) (entry : e.d = x.packet ∧ e.seq = x.seq)
      (places : t.history.places = s.history.places.append x.packet.dest e x.call)
      (around : s.NoneComesRound a ↔
        ∀ y ∈ s.history.places x.packet.dest, ¬ 65536 ∣ x.call - y.2)
  | other (calls : t.calls = s.calls) (issued : t.history.issued = s.history.issued)
      (places : ∀ addr, (t.history.places addr).Sublist (s.history.places addr))
      (around : s.NoneComesRound a)

theorem move_append (h : s.history.Inv) {d : SendData} {sendtime : Timeval} {sleeptime : UInt32}
    (hs : numberedRuns.step s (.append d sendtime sleeptime) = some t) :
    Move s (.append d sendtime sleeptime) t := by
  obtain ⟨u, hu, rfl⟩ := Option.map_eq_some_iff.mp hs
  simp only [AckHistory.step] at hu
  split at hu
  · cases hu
  rename_i nacks datagram happ
  cases hu
  obtain ⟨hseq, hdata, -, -⟩ := appendAck_ok happ
  have hnumber : nacks.seqNum = UInt16.ofNat (s.history.issued + 1) := by
    rw [hseq, h.seqNum, UInt16.ofNat_add]
    rfl
  have hbehind : load16 datagram.data d.length = nacks.seqNum := by
    rw [hdata, SendData.length, load16_append _ _ _ le_rfl, Nat.sub_self]
    simpa using load16_store16 nacks.seqNum []
  have hcall : s.history.numbering (.append d sendtime sleeptime) =
      some ⟨s.history.issued + 1, d, datagram⟩ := by
    simp only [AckHistory.numbering, happ]
  refine .recorded (x := ⟨s.history.issued + 1, d, datagram⟩)
    (e := ⟨nacks.seqNum, sendtime, sleeptime, d⟩) ?_ rfl rfl (hbehind.trans hnumber)
    ⟨rfl, hbehind.symm⟩ rfl Iff.rfl
  rw [hcall]
  rfl

theorem move_step (h : s.history.Inv) {a : AckCall} (hs : numberedRuns.step s a = some t) :
    Move s a t := by
  cases a with
  | append d sendtime sleeptime => exact move_append h hs
  | ack ackR received source =>
    obtain ⟨u, hu, rfl⟩ := Option.map_eq_some_iff.mp hs
    simp only [AckHistory.step] at hu
    split at hu
    · cases hu
      exact .other rfl rfl (fun addr => List.Sublist.refl _) trivial
    · cases hu
      exact .other rfl rfl (fun addr => s.history.placesAfter_sublist _ ackR source addr) trivial
  | timeout now =>
    cases hs
    exact .other rfl rfl (fun addr => List.filter_sublist) trivial
  | drain =>
    cases hs
    exact .other rfl rfl (fun addr => List.Sublist.refl _) trivial
  | release =>
    cases hs
    exact .other rfl rfl (fun addr => List.Sublist.refl _) trivial
  | elsewhere queues cookies =>
    cases hs
    exact .other rfl rfl (fun addr => List.Sublist.refl _) trivial

/-- Every entry is from a call that was made, and its number is that of the call in 16 bits. -/
structure Counted (s : NumberedRun) : Prop where
  history : s.history.Inv
  bounded : ∀ addr, ∀ x ∈ s.history.places addr, x.2 ≤ s.history.issued

/-- Numbers tell the entries of a peer apart, and an entry stands for the latest call for the
peer that gave its number. -/
structure Unique (s : NumberedRun) : Prop where
  distinct : ∀ addr, ((s.history.places addr).map (fun x => x.1.seq)).Nodup
  latest : ∀ addr, ∀ x ∈ s.history.places addr, ∃ y, s.lastTo addr x.1.seq = some y ∧
    y.call = x.2 ∧ y.packet = x.1.d

theorem Counted.step (h : s.Counted) {a : AckCall} (hs : numberedRuns.step s a = some t) :
    t.Counted := by
  obtain ⟨u, hu, htu⟩ := Option.map_eq_some_iff.mp hs
  refine ⟨by rw [← htu]; exact h.history.step hu, ?_⟩
  cases move_step h.history hs with
  | @recorded x e hcalls hcall hissued hseq hentry hplaces haround =>
    rw [hplaces, hissued]
    refine (Function.forall_update_iff _ (fun _ (l : List (Ack × ℕ)) => ∀ y ∈ l, y.2 ≤ x.call)).mpr
      ⟨List.forall_mem_cons.mpr ⟨le_rfl, fun y hy => ?_⟩, fun addr _ y hy => ?_⟩
    · exact (h.bounded _ y hy).trans (by omega)
    · exact (h.bounded addr y hy).trans (by omega)
  | other hcalls hissued hplaces haround =>
    rw [hissued]
    exact fun addr x hx => h.bounded addr x ((hplaces addr).subset hx)

theorem lastTo_recorded {x : NumberedCall} (hcalls : t.calls = x :: s.calls) (addr : SockAddr)
    (k : UInt16) :
    t.lastTo addr k = if x.packet.dest = addr ∧ x.seq = k then some x else s.lastTo addr k := by
  rw [lastTo, hcalls, List.find?_cons]
  by_cases hx : x.packet.dest = addr ∧ x.seq = k
  · simp [hx.1, hx.2]
  · rw [if_neg hx]
    have hfalse : (decide (x.packet.dest = addr) && decide (x.seq = k)) = false := by
      simpa using hx
    rw [hfalse]
    rfl

/-- A number is free unless its last packet is still outstanding. -/
theorem Counted.free_iff (h : s.Counted) {x : NumberedCall} (hcall : x.call = s.history.issued + 1)
    (hseq : x.seq = UInt16.ofNat x.call) {addr : SockAddr} {y : Ack × ℕ}
    (hy : y ∈ s.history.places addr) : y.1.seq = x.seq ↔ 65536 ∣ x.call - y.2 := by
  have hle := h.bounded addr y hy
  rw [h.history.numbered addr y hy, hseq]
  exact number_eq_iff (by omega)

theorem Unique.step (h : s.Unique) (hc : s.Counted) {a : AckCall} (haround : s.NoneComesRound a)
    (hs : numberedRuns.step s a = some t) : t.Unique := by
  cases move_step hc.history hs with
  | @recorded x e hcalls hcall hissued hseq hentry hplaces hiff =>
    have hfree : ∀ y ∈ s.history.places x.packet.dest, y.1.seq ≠ x.seq := fun y hy hsame =>
      hiff.mp haround y hy ((hc.free_iff hcall hseq hy).mp hsame)
    constructor
    · rw [hplaces]
      refine (Function.forall_update_iff _
        (fun _ (l : List (Ack × ℕ)) => (l.map (fun x => x.1.seq)).Nodup)).mpr
        ⟨?_, fun addr _ => h.distinct addr⟩
      rw [List.map_cons, List.nodup_cons]
      refine ⟨fun hmem => ?_, h.distinct _⟩
      obtain ⟨y, hy, hsame⟩ := List.mem_map.mp hmem
      exact hfree y hy (hsame.trans hentry.2)
    · intro addr y hy
      rw [hplaces, Places.append] at hy
      rw [lastTo_recorded hcalls]
      by_cases haddr : addr = x.packet.dest
      · subst addr
        rw [Function.update_self] at hy
        rcases List.mem_cons.mp hy with rfl | hy
        · exact ⟨x, if_pos ⟨rfl, hentry.2.symm⟩, rfl, hentry.1.symm⟩
        · rw [if_neg (fun hsame => hfree y hy hsame.2.symm)]
          exact h.latest _ y hy
      · rw [Function.update_of_ne haddr] at hy
        rw [if_neg (fun hsame => haddr hsame.1.symm)]
        exact h.latest addr y hy
  | other hcalls hissued hplaces _ =>
    refine ⟨fun addr => ((hplaces addr).map _).nodup (h.distinct addr), fun addr y hy => ?_⟩
    rw [lastTo, hcalls]
    exact h.latest addr y ((hplaces addr).subset hy)

theorem counted_reaches {ok : NumberedRun → AckCall → Prop} (h : Reaches numberedRuns ok s) :
    s.Counted := by
  apply h.invariant
  · rintro _ rfl
    exact ⟨AckHistory.inv_init, by simp [AckHistory.init]⟩
  · exact fun s a t hc _ hs => hc.step hs

theorem unique_reaches (h : Reaches numberedRuns NoneComesRound s) : s.Unique := by
  induction h with
  | init h₀ =>
    subst h₀
    exact ⟨fun _ => List.nodup_nil, by simp [AckHistory.init]⟩
  | step hreach haround hs ih => exact ih.step (counted_reaches hreach) haround hs

theorem Counted.seqs (h : s.Counted) (addr : SockAddr) :
    (s.nacks.nacksOf addr).map Ack.seq = (s.history.places addr).map (fun x => x.1.seq) := by
  rw [← h.history.places addr, List.map_map]
  rfl

/-- A call that comes round leaves two entries with one number. -/
theorem collision (h : Reachable numberedRuns s) {a : AckCall} (haround : ¬ s.NoneComesRound a)
    (hs : numberedRuns.step s a = some t) :
    ∃ addr, ¬ ((t.nacks.nacksOf addr).map Ack.seq).Nodup := by
  have hc := counted_reaches h
  cases move_step hc.history hs with
  | @recorded x e hcalls hcall hissued hseq hentry hplaces hiff =>
    obtain ⟨y, hy, hdvd⟩ : ∃ y ∈ s.history.places x.packet.dest, 65536 ∣ x.call - y.2 := by
      simpa using mt hiff.mpr haround
    have hsame := (hc.free_iff hcall hseq hy).mpr hdvd
    refine ⟨x.packet.dest, ?_⟩
    rw [(hc.step hs).seqs, hplaces, Places.append, Function.update_self, List.map_cons,
      List.nodup_cons]
    exact fun hd => hd.1 (List.mem_map.mpr ⟨y, hy, hsame.trans hentry.2.symm⟩)
  | other _ _ _ hnone => exact absurd hnone haround

theorem find_of_nodup {l : List Ack} (hd : (l.map Ack.seq).Nodup) {a : Ack} (ha : a ∈ l) :
    l.find? (fun e => e.seq = a.seq) = some a := by
  cases hfind : l.find? (fun e => e.seq = a.seq) with
  | none =>
    have hno := List.find?_eq_none.mp hfind a ha
    exact absurd (decide_eq_true rfl) hno
  | some e =>
    have hseq : e.seq = a.seq := by simpa using List.find?_some hfind
    rw [List.inj_on_of_nodup_map hd (List.mem_of_find?_eq_some hfind) ha hseq]

end NumberedRun

/-- While no packet is outstanding when the counter has come round to its call: no two outstanding
packets of a peer carry the same number, `pop_ack` finds every entry by its number, and the entry
it returns is that of the last call for the peer which put the number behind a packet. -/
theorem outstanding_unique {s : NumberedRun}
    (h : Reaches numberedRuns NumberedRun.NoneComesRound s) (addr : SockAddr) :
    ((s.nacks.nacksOf addr).map Ack.seq).Nodup ∧
      (∀ a ∈ s.nacks.nacksOf addr, (popAck s.nacks a.seq addr).2 = some a) ∧
      ∀ k a, (popAck s.nacks k addr).2 = some a → ∃ x, s.lastTo addr k = some x ∧
        (a, x.call) ∈ s.history.places addr ∧ x.packet = a.d ∧ x.seq = k := by
  have hu := NumberedRun.unique_reaches h
  have hc := NumberedRun.counted_reaches h
  have hdistinct : ((s.nacks.nacksOf addr).map Ack.seq).Nodup := by
    rw [hc.seqs]
    exact hu.distinct addr
  refine ⟨hdistinct, ?_, ?_⟩
  · intro a ha
    rw [popAck_find]
    exact NumberedRun.find_of_nodup hdistinct ha
  · intro k a hpop
    rw [popAck_find] at hpop
    obtain rfl : a.seq = k := by simpa using List.find?_some hpop
    have hmem := List.mem_of_find?_eq_some hpop
    rw [← hc.history.places addr] at hmem
    obtain ⟨⟨a, k⟩, hplace, rfl⟩ := List.mem_map.mp hmem
    obtain ⟨x, hlast, rfl, hpacket⟩ := hu.latest addr _ hplace
    have hx := List.find?_some hlast
    rw [Bool.and_eq_true, decide_eq_true_eq, decide_eq_true_eq] at hx
    exact ⟨x, hlast, hplace, hpacket, hx.2⟩

theorem outstanding_unique_two :
    ∃ s : NumberedRun,
      ((s.nacks.nacksOf ⟨1, 1⟩).map Ack.seq, (s.nacks.nacksOf ⟨2, 1⟩).map Ack.seq) =
        ([3], [2]) ∧
      ((s.nacks.nacksOf ⟨1, 1⟩).map Ack.seq).Nodup ∧
      (∀ a ∈ s.nacks.nacksOf ⟨1, 1⟩, (popAck s.nacks a.seq ⟨1, 1⟩).2 = some a) ∧
      ∀ k a, (popAck s.nacks k ⟨1, 1⟩).2 = some a → ∃ x, s.lastTo ⟨1, 1⟩ k = some x ∧
        (a, x.call) ∈ s.history.places ⟨1, 1⟩ ∧ x.packet = a.d ∧ x.seq = k := by
  have hrun : (numberedRuns.runIf NumberedRun.NoneComesRound ⟨AckHistory.init, []⟩
      [.append (fragmentTo ⟨1, 1⟩) ⟨1, 0⟩ 0, .append (fragmentTo ⟨2, 1⟩) ⟨2, 0⟩ 0,
        .ack (AckHistory.ackOfSeq 1) ⟨6, 0⟩ ⟨1, 1⟩,
        .append (fragmentTo ⟨1, 1⟩) ⟨7, 0⟩ 0]).map
      (fun s => ((s.nacks.nacksOf ⟨1, 1⟩).map Ack.seq, (s.nacks.nacksOf ⟨2, 1⟩).map Ack.seq)) =
        some ([3], [2]) := by decide +kernel
  obtain ⟨s, hs, hnumbers⟩ := Option.map_eq_some_iff.mp hrun
  exact ⟨s, hnumbers, outstanding_unique ((Reaches.init rfl).runIf hs) ⟨1, 1⟩⟩

namespace NumberedRun

/-- `n` packets were sent to one peer that acknowledged none. -/
structure Unanswered (n : ℕ) (s : NumberedRun) : Prop where
  reached : Reachable numberedRuns s
  issued : s.history.issued = n
  numbers : (s.history.places ⟨1, 1⟩).map (fun x => x.1.seq) =
    ((List.range n).map (fun i => UInt16.ofNat (i + 1))).reverse

theorem exists_unanswered (n : ℕ) : ∃ s, Unanswered n s := by
  induction n with
  | zero => exact ⟨_, .init rfl, rfl, rfl⟩
  | succ n ih =>
    obtain ⟨s, h⟩ := ih
    obtain ⟨u, hu, hissued, -, -, hplaces⟩ :=
      AckHistory.append_fragment (counted_reaches h.reached).history ⟨1, 1⟩ ⟨0, 0⟩
    have hu : s.history.step (.append (fragmentTo ⟨1, 1⟩) ⟨0, 0⟩ 0) = some u := hu
    obtain ⟨t, hs, rfl⟩ : ∃ t,
        numberedRuns.step s (.append (fragmentTo ⟨1, 1⟩) ⟨0, 0⟩ 0) = some t ∧ t.history = u := by
      simp only [numberedRuns, hu]
      exact ⟨_, rfl, rfl⟩
    refine ⟨t, h.reached.step trivial hs, hissued.trans (by rw [h.issued]), ?_⟩
    rw [hplaces, Places.append, Function.update_self, List.map_cons, h.numbers, h.issued,
      List.range_succ, List.map_append, List.reverse_append]
    rfl

end NumberedRun

/-- After 65537 packets to a peer that acknowledges none of them, the number 1 is on two of the
outstanding ones. -/
theorem outstanding_wrapped :
    ∃ s addr, Reachable numberedRuns s ∧ ¬ ((s.nacks.nacksOf addr).map Ack.seq).Nodup := by
  obtain ⟨s, hs⟩ := NumberedRun.exists_unanswered 65537
  refine ⟨s, ⟨1, 1⟩, hs.reached, ?_⟩
  rw [(NumberedRun.counted_reaches hs.reached).seqs, hs.numbers, List.nodup_reverse]
  intro hd
  have hinj := List.inj_on_of_nodup_map hd (List.mem_range.mpr (show 0 < 65537 by decide))
    (List.mem_range.mpr (show 65536 < 65537 by decide))
  exact absurd (hinj (by decide)) (by decide)

end Bora
