import Bora.AckHistory

/-! The packet acknowledged latest in the order of sending, which `get_ack_store` hands out as
`last_seq`: `highest_seq` is kept by comparing numbers of 16 bits. -/
namespace Bora

open ByteMemory Checked Transition

namespace AckTable

theorem raise_highestSeq (t : AckTable) (store : AckStore) :
    (t.raise store).highestSeq =
      match t.highestSeq with
      | none => some store
      | some highest => if highest.seq < store.seq then some store else some highest := by
  unfold raise
  cases h : t.highestSeq with
  | none => rfl
  | some highest =>
    simp only
    split
    · rfl
    · exact h

end AckTable

theorem ackReceived_highestSeq (s : AckState) (ackS : Ack) (ackR : AckReceived)
    (received : Timeval) (source : SockAddr) :
    (ackReceived s ackS ackR received source).acks.highestSeq =
      (s.acks.raise (ackStoreOf ackS ackR received source)).highestSeq := by
  cases hpeer : s.acks.findPeerByHost source with
  | none =>
    simp only [ackReceived, hpeer, newPeer]
    split <;> rfl
  | some peer =>
    simp only [ackReceived, hpeer, knownPeer]
    split <;> simp only [AckTable.raise_highestSeq]

namespace AckHistory

/-- Among the acks accepted since the last release, `last_seq` is the one whose packet was
recorded last; it is NULL if there was none. -/
def ReportsLatest (s : AckHistory) : Prop :=
  match (getAckStore s.tables.acks).2 with
  | none => acceptedSince s.log = []
  | some store => ∃ e ∈ acceptedSince s.log, e.store = store ∧
      ∀ x ∈ acceptedSince s.log, x.place ≤ e.place

/-- The numbers of the latest packet so far and of the one that is acknowledged, in 16 bits,
compare as the packets were recorded. -/
def NumbersInOrder (s : AckHistory) : AckCall → Prop
  | .ack ackR received source =>
    ∀ e ∈ s.acceptance ackR received source, ∀ h ∈ acceptedSince s.log,
      (∀ x ∈ acceptedSince s.log, x.place ≤ h.place) →
        (h.place % 65536 < e.place % 65536 ↔ h.place < e.place)
  | _ => True

variable {s t : AckHistory}

theorem store_seq_lt_iff {h e : AcceptedAck} (hh : h.entry.seq = UInt16.ofNat h.place)
    (he : e.entry.seq = UInt16.ofNat e.place) :
    h.store.seq < e.store.seq ↔ h.place % 65536 < e.place % 65536 := by
  rw [show h.store.seq = h.entry.seq from rfl, show e.store.seq = e.entry.seq from rfl, hh, he,
    UInt16.lt_iff_toNat_lt, UInt16.toNat_ofNat', UInt16.toNat_ofNat']

theorem ReportsLatest.ack (h : s.ReportsLatest) (hinv : s.Inv) {ackR : AckReceived}
    {received : Timeval} {source : SockAddr}
    (horder : s.NumbersInOrder (.ack ackR received source))
    (hs : s.step (.ack ackR received source) = some t) : t.ReportsLatest := by
  simp only [step] at hs
  cases hinv.ack_cases ackR received source with
  | unfound hnone hsame =>
    rw [hnone, hsame] at hs
    cases hs
    exact h
  | @accepted pop k nacks hpop hplace hsome hack hdest hk =>
    rw [hsome, hack] at hs
    cases hs
    have horder' := horder _ hsome
    generalize he : (⟨pop, k, ackR, received, source,
      (s.tables.sentEarlier ackR source).length⟩ : AcceptedAck) = e at horder'
    have hstore : ackStoreOf pop ackR received source = e.store := by rw [← he]; rfl
    have hseq : e.entry.seq = UInt16.ofNat e.place := by rw [← he]; exact hk
    unfold ReportsLatest at h ⊢
    simp only [getAckStore, ackReceived_highestSeq, AckTable.raise_highestSeq, hstore,
      acceptedSince_accepted] at h ⊢
    cases hhigh : s.tables.acks.highestSeq with
    | none =>
      rw [hhigh] at h
      simp only at h ⊢
      rw [h]
      exact ⟨e, by simp, rfl, by simp⟩
    | some highest =>
      rw [hhigh] at h
      obtain ⟨x, hx, rfl, hmax⟩ := h
      have hxseq := hinv.logged x (mem_acceptedSince hx)
      have hiff := (store_seq_lt_iff hxseq hseq).trans (horder' x hx hmax)
      simp only
      by_cases hlt : x.place < e.place
      · rw [if_pos (hiff.mpr hlt)]
        refine ⟨e, by simp, rfl, List.forall_mem_cons.mpr ⟨le_rfl, ?_⟩⟩
        exact fun y hy => (hmax y hy).trans hlt.le
      · rw [if_neg (fun hc => hlt (hiff.mp hc))]
        refine ⟨x, by simp [hx], rfl, List.forall_mem_cons.mpr ⟨Nat.not_lt.mp hlt, hmax⟩⟩

theorem ReportsLatest.step (h : s.ReportsLatest) (hinv : s.Inv) {a : AckCall}
    (horder : s.NumbersInOrder a) (hs : s.step a = some t) : t.ReportsLatest := by
  cases a with
  | append d sendtime sleeptime =>
    simp only [AckHistory.step] at hs
    split at hs
    · cases hs
    · cases hs
      exact h
  | ack ackR received source => exact h.ack hinv horder hs
  | timeout now =>
    cases hs
    exact h
  | drain =>
    cases hs
    exact h
  | release =>
    cases hs
    exact acceptedSince_released s.log
  | elsewhere queues cookies =>
    cases hs
    exact h

/-- In runs in which the numbers tell which packet is later. -/
theorem latest_reported (h : Reaches ackHistory NumbersInOrder s) : s.ReportsLatest := by
  induction h with
  | init h₀ =>
    subst h₀
    rfl
  | step hreach horder hs ih => exact ih.step (reaches_inv hreach) horder hs

instance (s : AckHistory) (a : AckCall) : Decidable (s.NumbersInOrder a) := by
  cases a <;> unfold NumbersInOrder <;> infer_instance

theorem latest_reported_two :
    ∃ s : AckHistory, s.tables.acks.highestSeq.map AckStore.seq = some 2 ∧ s.ReportsLatest := by
  have hrun : (ackHistory.runIf NumbersInOrder init
      [.append (fragmentTo ⟨1, 1⟩) ⟨1, 0⟩ 0, .append (fragmentTo ⟨1, 1⟩) ⟨2, 0⟩ 0,
        .ack (ackOfSeq 1) ⟨6, 0⟩ ⟨1, 1⟩, .ack (ackOfSeq 2) ⟨6, 0⟩ ⟨1, 1⟩]).map
      (fun s => s.tables.acks.highestSeq.map AckStore.seq) = some (some 2) := by decide +kernel
  obtain ⟨s, hs, hseq⟩ := Option.map_eq_some_iff.mp hrun
  exact ⟨s, hseq, latest_reported ((Reaches.init rfl).runIf hs)⟩

/-- `n` packets were recorded, none of them for `⟨1, 1⟩`, and no ack has come. -/
structure Filled (n : ℕ) (s : AckHistory) : Prop where
  reached : Reachable ackHistory s
  issued : s.issued = n
  acks : s.tables.acks = AckTable.init
  log : s.log = []
  places : s.places ⟨1, 1⟩ = []

theorem append_fragment {s : AckHistory} (h : s.Inv) (dest : SockAddr) (sendtime : Timeval) :
    ∃ t, ackHistory.step s (.append (fragmentTo dest) sendtime 0) = some t ∧
      t.issued = s.issued + 1 ∧ t.tables.acks = s.tables.acks ∧ t.log = s.log ∧
      t.places = s.places.append dest
        ⟨UInt16.ofNat (s.issued + 1), sendtime, 0, fragmentTo dest⟩ (s.issued + 1) := by
  rcases happ : appendAck s.tables.nacks (fragmentTo dest) sendtime 0 with e | ⟨nacks, d⟩
  · have hfits : ∀ k, ∃ d, (fragmentTo dest).append (store16 k) = .ok d := fun k => by
      have hlen : (fragmentTo dest).data.length = 13 := rfl
      refine ⟨_, dif_pos ?_⟩
      rw [store16_length, hlen]
      decide
    obtain ⟨d, hd⟩ := hfits (s.tables.nacks.seqNum + 1)
    simp only [appendAck, hd, ok_bind] at happ
    cases happ
  · have hseq : nacks.seqNum = UInt16.ofNat (s.issued + 1) := by
      rw [(appendAck_ok happ).1, h.seqNum, UInt16.ofNat_add]
      rfl
    have hstep : ackHistory.step s (.append (fragmentTo dest) sendtime 0) =
        some { s with
          tables := { s.tables with nacks := nacks }
          issued := s.issued + 1
          places := s.places.append dest ⟨nacks.seqNum, sendtime, 0, fragmentTo dest⟩
            (s.issued + 1) } := by
      simp only [ackHistory, step, happ]
      rfl
    exact ⟨_, hstep, rfl, rfl, rfl, by rw [hseq]⟩

theorem exists_filled (n : ℕ) : ∃ s, Filled n s := by
  induction n with
  | zero => exact ⟨init, .init rfl, rfl, rfl, rfl, rfl⟩
  | succ n ih =>
    obtain ⟨s, h⟩ := ih
    obtain ⟨t, hs, hissued, hacks, hlog, hplaces⟩ :=
      append_fragment (reaches_inv h.reached) ⟨2, 1⟩ ⟨0, 0⟩
    refine ⟨t, h.reached.step trivial hs, by rw [hissued, h.issued], hacks.trans h.acks,
      hlog.trans h.log, ?_⟩
    rw [hplaces, Places.append, Function.update_of_ne (by decide)]
    exact h.places

theorem ack_found {s : AckHistory} (h : s.Inv) (ackR : AckReceived) (received : Timeval)
    {source : SockAddr} {pop : Ack} {k : ℕ}
    (hplace : s.places.find ackR.seq source = some (pop, k)) :
    ∃ t e, ackHistory.step s (.ack ackR received source) = some t ∧
      t.log = .accepted e :: s.log ∧ e.place = k ∧ e.entry = pop ∧
      t.places = s.placesAfter pop ackR source ∧
      t.tables.acks.highestSeq = (s.tables.acks.raise e.store).highestSeq := by
  cases h.ack_cases ackR received source with
  | unfound hnone _ =>
    have hpopped : s.tables.popped ackR source = some pop := by
      rw [AckState.popped, popAck_find, h.places.find, hplace]
      rfl
    simp only [acceptance, hpopped, hplace] at hnone
    cases hnone
  | @accepted pop' k' nacks hpop hplace' hsome hack hdest hk =>
    obtain ⟨rfl, rfl⟩ := Prod.mk.inj (Option.some.inj (hplace'.symm.trans hplace))
    refine ⟨_, _, by simp only [ackHistory, step, hsome]; rfl, rfl, rfl, rfl, rfl, ?_⟩
    simp only [hack]
    exact ackReceived_highestSeq _ _ _ _ _

theorem exists_wrapped : ∃ s, Reachable ackHistory s ∧ s.tables.acks = AckTable.init ∧
    s.log = [] ∧ s.places ⟨1, 1⟩ =
      [(⟨0, ⟨2, 0⟩, 0, fragmentTo ⟨1, 1⟩⟩, 65536),
        (⟨65535, ⟨1, 0⟩, 0, fragmentTo ⟨1, 1⟩⟩, 65535)] := by
  obtain ⟨s₀, h₀⟩ := exists_filled 65534
  obtain ⟨s₁, hs₁, hissued₁, hacks₁, hlog₁, hplaces₁⟩ :=
    append_fragment (reaches_inv h₀.reached) ⟨1, 1⟩ ⟨1, 0⟩
  have hr₁ : Reachable ackHistory s₁ := h₀.reached.step trivial hs₁
  obtain ⟨s₂, hs₂, -, hacks₂, hlog₂, hplaces₂⟩ :=
    append_fragment (reaches_inv hr₁) ⟨1, 1⟩ ⟨2, 0⟩
  refine ⟨s₂, hr₁.step trivial hs₂, hacks₂.trans (hacks₁.trans h₀.acks),
    hlog₂.trans (hlog₁.trans h₀.log), ?_⟩
  rw [hplaces₂, hissued₁, h₀.issued, Places.append, Function.update_self, hplaces₁, h₀.issued,
    Places.append, Function.update_self, h₀.places]
  rfl

/-- The packets 65535 and 65536 are acknowledged in this order: the second has the number 0. -/
theorem latest_wrapped : ∃ s, Reachable ackHistory s ∧ ¬ s.ReportsLatest := by
  obtain ⟨s₂, hr₂, hacks, hlog₂, hp₂⟩ := exists_wrapped
  have hfound₂ : s₂.places.find 65535 ⟨1, 1⟩ =
      some (⟨65535, ⟨1, 0⟩, 0, fragmentTo ⟨1, 1⟩⟩, 65535) := by
    rw [Places.find, hp₂]
    decide
  obtain ⟨s₃, e₁, hs₃, hlog₃, hplace₁, hentry₁, hplaces₃, hhigh₃⟩ :=
    ack_found (reaches_inv hr₂) (ackOfSeq 65535) ⟨6, 0⟩ hfound₂
  have hr₃ : Reachable ackHistory s₃ := hr₂.step trivial hs₃
  have hfound₃ : s₃.places.find 0 ⟨1, 1⟩ = some (⟨0, ⟨2, 0⟩, 0, fragmentTo ⟨1, 1⟩⟩, 65536) := by
    rw [hplaces₃, placesAfter, hacks]
    simp only [AckTable.findPeerByHost, AckTable.init, List.find?_nil]
    rw [Places.find, Places.sweep, Places.pop]
    rw [show (fragmentTo ⟨1, 1⟩).dest = ⟨1, 1⟩ from rfl, Function.update_self,
      Function.update_self, hp₂]
    decide
  obtain ⟨s₄, e₂, hs₄, hlog₄, hplace₂, hentry₂, -, hhigh₄⟩ :=
    ack_found (reaches_inv hr₃) (ackOfSeq 0) ⟨7, 0⟩ hfound₃
  have hseq₁ : e₁.store.seq = 65535 := by rw [AcceptedAck.store, hentry₁]; rfl
  have hseq₂ : e₂.store.seq = 0 := by rw [AcceptedAck.store, hentry₂]; rfl
  have hlow : s₃.tables.acks.highestSeq = some e₁.store := by
    rw [hhigh₃, hacks, AckTable.raise_highestSeq]
    rfl
  have hhigh : s₄.tables.acks.highestSeq = some e₁.store := by
    rw [hhigh₄, AckTable.raise_highestSeq, hlow]
    exact if_neg (by rw [hseq₁, hseq₂]; decide)
  have hsince : acceptedSince s₄.log = [e₂, e₁] := by
    rw [hlog₄, hlog₃, hlog₂]
    rfl
  refine ⟨s₄, hr₃.step trivial hs₄, ?_⟩
  unfold ReportsLatest
  simp only [getAckStore, hhigh, hsince]
  rintro ⟨e, he, hstore, hmax⟩
  have hlatest : 65536 ≤ e.place := hplace₂ ▸ hmax e₂ (by simp)
  rcases List.mem_pair.mp he with rfl | rfl
  · rw [hstore, hseq₁] at hseq₂
    exact absurd hseq₂ (by decide)
  · omega

end AckHistory

end Bora
