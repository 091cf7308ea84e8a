import Bora.AckCodec
import Bora.Receiver
import Mathlib.Data.Rat.Cast.Order
import Mathlib.Tactic.Positivity

/-! The bandwidth estimates over whole runs: which fragments give one, and whether the time it is
divided by is a time. -/
namespace Bora

open ByteMemory Processing

/-- `fetch_bw_estimations`: the list goes to the caller, an empty one stays. -/
def fetchBwEstimations (e : Estimations) : Estimations × Estimations := (e, [])

inductive RecvStatsCall
  | fragment (f : RecvFragment)
  | fetch

def RecvStatsCall.run (e : Estimations) : RecvStatsCall → Estimations
  | .fragment f => fragmentReceived e f
  | .fetch => (fetchBwEstimations e).2

/-- The list after a run, whose latest call stands first. -/
def estimationsAfter : List RecvStatsCall → Estimations
  | [] => []
  | c::calls => c.run (estimationsAfter calls)

def estimatesOf (e : Estimations) (host : SockAddr) : List BW :=
  ((bwFindByHost e host).map BWEstimation.bandwidth).getD []

def BW.rate (bw : BW) : ℚ := bw.buflen * 1000000 / bw.delta.micros

/-- The last fragment accepted from a host since the last fetch. -/
def lastFrom : List RecvStatsCall → SockAddr → Option RecvFragment
  | [], _ => none
  | .fetch::_, _ => none
  | .fragment f::calls, host => if f.source = host then some f else lastFrom calls host

def RecvFragment.Precedes (f f' : RecvFragment) : Prop :=
  f.streamid = f'.streamid ∧ f.blockid = f'.blockid ∧
    f.fragmentid.toNat + 1 = f'.fragmentid.toNat

/-- The fragment calls for an estimate, against `last`. -/
def Due (calls : List RecvStatsCall) (f last : RecvFragment) : Prop :=
  hasBit f.flags blockConsecutive = true ∧ lastFrom calls f.source = some last ∧ last.Precedes f

/-- What the fragment `f` adds to the estimates after `calls`: one of a positive rate if it is
due, otherwise none. -/
structure EstimateSound (calls : List RecvStatsCall) (f : RecvFragment) : Prop where
  due : ∀ last, Due calls f last →
    ∃ bw, estimatesOf (fragmentReceived (estimationsAfter calls) f) f.source =
        bw :: estimatesOf (estimationsAfter calls) f.source ∧
      bw.buflen = f.buflen ∧ bw.tv = f.tv ∧ bw.delta.micros = f.tv.micros - last.tv.micros ∧
      0 < bw.delta.micros ∧ 0 < bw.rate
  idle : (¬ ∃ last, Due calls f last) →
    estimatesOf (fragmentReceived (estimationsAfter calls) f) f.source =
      estimatesOf (estimationsAfter calls) f.source
  others : ∀ host, host ≠ f.source →
    estimatesOf (fragmentReceived (estimationsAfter calls) f) host =
      estimatesOf (estimationsAfter calls) host

/-- The fragment arrives later than the one its estimate is taken against. -/
def Later (calls : List RecvStatsCall) (f : RecvFragment) : Prop :=
  ∀ last, Due calls f last → last.tv.micros < f.tv.micros

section Record

variable {e : Estimations} {f : RecvFragment} {host : SockAddr}

theorem record_source (h : BWEstimation) (f : RecvFragment) : (h.record f).source = h.source := by
  unfold BWEstimation.record
  split <;> rfl

theorem record_lastfragment (h : BWEstimation) (f : RecvFragment) :
    (h.record f).lastfragment = f := by
  unfold BWEstimation.record
  split <;> rfl

theorem record_bandwidth_due {h : BWEstimation} (hflag : hasBit f.flags blockConsecutive = true)
    (hprec : h.lastfragment.Precedes f) :
    (h.record f).bandwidth =
      ⟨f.buflen, timerSub f.tv h.lastfragment.tv, f.tv⟩ :: h.bandwidth := by
  obtain ⟨hstream, hblock, hfid⟩ := hprec
  rw [BWEstimation.record, if_pos ⟨hstream, hblock, hfid, hflag⟩]

theorem record_bandwidth_idle {h : BWEstimation}
    (hidle : ¬ (hasBit f.flags blockConsecutive = true ∧ h.lastfragment.Precedes f)) :
    (h.record f).bandwidth = h.bandwidth := by
  rw [BWEstimation.record, if_neg (fun hall => hidle ⟨hall.2.2.2, hall.1, hall.2.1, hall.2.2.1⟩)]

theorem find_fragmentReceived_none (hfind : bwFindByHost e f.source = none) :
    bwFindByHost (fragmentReceived e f) f.source = some ⟨f.source, [], f⟩ := by
  simp only [fragmentReceived, hfind]
  simp [bwFindByHost]

theorem find_fragmentReceived_some {h : BWEstimation}
    (hfind : bwFindByHost e f.source = some h) :
    bwFindByHost (fragmentReceived e f) f.source = some (h.record f) := by
  have hmodify := FirstMatch.find?_modify_same
    (p := fun h : BWEstimation => decide (h.source = f.source)) (g := fun h => h.record f)
    (by simp [record_source]) e
  simp only [fragmentReceived, hfind]
  rw [bwFindByHost] at hfind ⊢
  rw [hmodify, hfind, Option.map_some]

theorem find_fragmentReceived_other (hne : host ≠ f.source) :
    bwFindByHost (fragmentReceived e f) host = bwFindByHost e host := by
  unfold fragmentReceived
  cases hfind : bwFindByHost e f.source with
  | none => simp [bwFindByHost, Ne.symm hne]
  | some h =>
    apply FirstMatch.find?_modify_other
    intro h _ hsource
    have hsource : h.source = f.source := by simpa using hsource
    simp [record_source, hsource, Ne.symm hne]

end Record

variable {calls : List RecvStatsCall} {f : RecvFragment}

theorem lastfragment_estimationsAfter (calls : List RecvStatsCall) (host : SockAddr) :
    (bwFindByHost (estimationsAfter calls) host).map BWEstimation.lastfragment =
      lastFrom calls host := by
  induction calls with
  | nil => rfl
  | cons c calls ih =>
    cases c with
    | fetch => rfl
    | fragment f =>
      show (bwFindByHost (fragmentReceived (estimationsAfter calls) f) host).map _ = _
      by_cases hhost : host = f.source
      · subst hhost
        rw [lastFrom, if_pos rfl]
        cases hfind : bwFindByHost (estimationsAfter calls) f.source with
        | none => rw [find_fragmentReceived_none hfind, Option.map_some]
        | some h => rw [find_fragmentReceived_some hfind, Option.map_some, record_lastfragment]
      · rw [lastFrom, if_neg (Ne.symm hhost), find_fragmentReceived_other hhost, ih]

theorem estimatesOf_due {last : RecvFragment} (h : Due calls f last) :
    estimatesOf (fragmentReceived (estimationsAfter calls) f) f.source =
      ⟨f.buflen, timerSub f.tv last.tv, f.tv⟩ ::
        estimatesOf (estimationsAfter calls) f.source := by
  obtain ⟨hflag, hlast, hprec⟩ := h
  rw [← lastfragment_estimationsAfter] at hlast
  obtain ⟨r, hfind, rfl⟩ := Option.map_eq_some_iff.mp hlast
  simp only [estimatesOf, find_fragmentReceived_some hfind, hfind, Option.map_some,
    Option.getD_some, record_bandwidth_due hflag hprec]

theorem estimatesOf_idle (h : ¬ ∃ last, Due calls f last) :
    estimatesOf (fragmentReceived (estimationsAfter calls) f) f.source =
      estimatesOf (estimationsAfter calls) f.source := by
  cases hfind : bwFindByHost (estimationsAfter calls) f.source with
  | none =>
    simp only [estimatesOf, find_fragmentReceived_none hfind, hfind]
    rfl
  | some r =>
    have hlast := lastfragment_estimationsAfter calls f.source
    rw [hfind, Option.map_some] at hlast
    have hidle : (r.record f).bandwidth = r.bandwidth :=
      record_bandwidth_idle (fun hdue => h ⟨_, hdue.1, hlast.symm, hdue.2⟩)
    simp only [estimatesOf, find_fragmentReceived_some hfind, hfind, Option.map_some, hidle]

theorem BW.rate_pos_iff {bw : BW} (h : 0 < bw.buflen) : 0 < bw.rate ↔ 0 < bw.delta.micros := by
  have hbytes : (0 : ℚ) < bw.buflen * 1000000 := by positivity
  rw [rate, div_pos_iff_of_pos_left hbytes, Int.cast_pos]

theorem estimateSound_iff (hlen : 0 < f.buflen) : EstimateSound calls f ↔ Later calls f := by
  constructor
  · intro h last hdue
    obtain ⟨bw, -, -, -, hdelta, hpos, -⟩ := h.due last hdue
    linarith
  · intro h
    refine ⟨fun last hdue => ?_, estimatesOf_idle, fun host hhost => ?_⟩
    · have hpos : 0 < (timerSub f.tv last.tv).micros := by
        rw [micros_timerSub]
        linarith [h last hdue]
      exact ⟨_, estimatesOf_due hdue, rfl, rfl, micros_timerSub _ _, hpos,
        (BW.rate_pos_iff hlen).mpr hpos⟩
    · rw [estimatesOf, find_fragmentReceived_other hhost, estimatesOf]

section Processor

variable {p : Processing}

theorem portStage_estimations : p.portStage.node.estimations = p.node.estimations := by
  unfold portStage
  split
  · split <;> rfl
  · simp only
    split <;> rfl

theorem beforeBlock_estimations (node : Node) (data : IncomingData) :
    (beforeBlock node data).node.estimations = node.estimations :=
  (beforeBlock_keeps node data).estimations.trans portStage_estimations

theorem blockStage_estimations (junk : UInt16) (p : Processing) :
    (p.blockStage junk).node.estimations = p.node.estimations ∨
      ∃ f : RecvFragment, headerSize ≤ f.buflen ∧
        (p.blockStage junk).node.estimations = fragmentReceived p.node.estimations f := by
  unfold blockStage
  split
  · split
    · cases hdec : decodeFragment p.data.buf p.data.buflen with
      | none => exact Or.inl rfl
      | some fragment =>
        have hlen : headerSize ≤ p.data.buflen := by
          by_contra hlt
          simp [decodeFragment, Nat.lt_of_not_le hlt] at hdec
        simp only
        cases addfragment p.node.cache fragment p.data.source p.data.tv junk with
        | error e => exact Or.inl rfl
        | ok x =>
          obtain ⟨cache, r⟩ := x
          cases r with
          | added =>
            refine Or.inr ⟨⟨p.data.source, fragment.streamid, fragment.blockid,
              fragment.fragmentid, p.data.buflen, p.data.tv, p.data.flags⟩, hlen, ?_⟩
            simp only [fragmentAdded]
            split <;> rfl
          | duplicate => exact Or.inl rfl
          | fragmentsMismatch => exact Or.inl rfl
          | fragmentidOutOfBounds => exact Or.inl rfl
          | badLen => exact Or.inl rfl
    · exact Or.inl rfl
  · exact Or.inl rfl

theorem packetProcessor_estimations (node : Node) (data : IncomingData) (junk : UInt16) :
    (packetProcessor node data junk).node.estimations = node.estimations ∨
      ∃ f : RecvFragment, headerSize ≤ f.buflen ∧
        (packetProcessor node data junk).node.estimations =
          fragmentReceived node.estimations f := by
  have hcount : ∀ p : Processing, p.node.Untouched p.countStage.node := fun _ => ⟨rfl, rfl, rfl⟩
  rw [packetProcessor_eq, (andThen_keeps hcount).estimations]
  split
  · rw [← beforeBlock_estimations node data]
    unfold andThen
    split
    · exact blockStage_estimations junk _
    · exact Or.inl rfl
  · exact Or.inl rfl

/-- Datagrams and fetches, whatever they are, come to a run of accepted fragments and fetches. -/
theorem packetProcessor_run {node : Node} {calls : List RecvStatsCall}
    (hnode : node.estimations = estimationsAfter calls)
    (haccepted : ∀ f, .fragment f ∈ calls → headerSize ≤ f.buflen) (data : IncomingData)
    (junk : UInt16) :
    ∃ calls', (packetProcessor node data junk).node.estimations = estimationsAfter calls' ∧
      ∀ f, .fragment f ∈ calls' → headerSize ≤ f.buflen := by
  rcases packetProcessor_estimations node data junk with hsame | ⟨f, hlen, hadd⟩
  · exact ⟨calls, hsame.trans hnode, haccepted⟩
  · refine ⟨.fragment f :: calls, ?_, fun f' hf' => ?_⟩
    · rw [hadd, hnode]
      rfl
    · rcases List.mem_cons.mp hf' with heq | hold
      · cases heq
        exact hlen
      · exact haccepted f' hold

end Processor

/-- In a run of accepted fragments and fetches, the estimates are those of the fragments that
are due, all of them of a positive rate, exactly if every such fragment came later than the one
before it. -/
theorem estimates_sound_iff (calls : List RecvStatsCall)
    (haccepted : ∀ f, .fragment f ∈ calls → headerSize ≤ f.buflen) :
    (∀ f earlier, .fragment f :: earlier <:+ calls → EstimateSound earlier f) ↔
      ∀ f earlier, .fragment f :: earlier <:+ calls → Later earlier f := by
  have hone : ∀ f earlier, .fragment f :: earlier <:+ calls →
      (EstimateSound earlier f ↔ Later earlier f) := by
    intro f earlier hsuffix
    have hlen := haccepted f (hsuffix.subset List.mem_cons_self)
    exact estimateSound_iff (lt_of_lt_of_le (by decide) hlen)
  exact forall_congr' fun f => forall_congr' fun earlier =>
    ⟨fun h hs => (hone f earlier hs).mp (h hs), fun h hs => (hone f earlier hs).mpr (h hs)⟩

def fragmentAt (i : UInt16) (flags : UInt8) (tv : Timeval) : RecvFragment :=
  ⟨default, 1, 1, i, 100, tv, flags⟩

theorem estimates_sound_pair :
    Due [.fragment (fragmentAt 0 1 ⟨1, 10⟩), .fetch] (fragmentAt 1 5 ⟨1, 20⟩)
        (fragmentAt 0 1 ⟨1, 10⟩) ∧
      ∀ f earlier, .fragment f :: earlier <:+
        [.fragment (fragmentAt 1 5 ⟨1, 20⟩), .fragment (fragmentAt 0 1 ⟨1, 10⟩), .fetch] →
          EstimateSound earlier f := by
  refine ⟨⟨by decide, rfl, rfl, rfl, rfl⟩, (estimates_sound_iff _ ?_).mpr ?_⟩
  · intro f hf
    simp only [List.mem_cons, RecvStatsCall.fragment.injEq, reduceCtorEq, List.not_mem_nil,
      or_false] at hf
    rcases hf with rfl | rfl <;> decide
  · rintro f earlier hsuffix last ⟨hflag, hlast, -⟩
    simp only [List.suffix_cons_iff, List.cons.injEq, RecvStatsCall.fragment.injEq, reduceCtorEq,
      false_and, List.suffix_nil, or_false] at hsuffix
    rcases hsuffix with ⟨rfl, rfl⟩ | ⟨rfl, rfl⟩
    · obtain rfl : fragmentAt 0 1 ⟨1, 10⟩ = last := Option.some.inj hlast
      decide
    · cases hflag

/-- Two packets of a pair that are received in the same microsecond. -/
theorem estimates_same_time :
    Due [.fragment (fragmentAt 0 1 ⟨1, 10⟩)] (fragmentAt 1 5 ⟨1, 10⟩) (fragmentAt 0 1 ⟨1, 10⟩) ∧
      ¬ EstimateSound [.fragment (fragmentAt 0 1 ⟨1, 10⟩)] (fragmentAt 1 5 ⟨1, 10⟩) ∧
      (estimatesOf (estimationsAfter [.fragment (fragmentAt 1 5 ⟨1, 10⟩),
          .fragment (fragmentAt 0 1 ⟨1, 10⟩)]) default).map (fun bw => bw.delta.micros) = [0] := by
  have hdue : Due [.fragment (fragmentAt 0 1 ⟨1, 10⟩)] (fragmentAt 1 5 ⟨1, 10⟩)
      (fragmentAt 0 1 ⟨1, 10⟩) := ⟨by decide, rfl, rfl, rfl, rfl⟩
  refine ⟨hdue, fun h => ?_, by decide⟩
  have hlater := (estimateSound_iff (by decide)).mp h _ hdue
  exact lt_irrefl _ hlater

end Bora
