import Bora.Receiver

/-! When the fragments of each block agree on their count and have the lengths of a block, its
completion is reported once, at the step that stores the last missing fragment. -/
namespace Bora

open Checked Processing Transition

/-- The cache holds a block under the id, with all its fragments. -/
def completeIn (cache : Cache) (id : BlockID) : Bool := (findblock cache id).any blockComplete

theorem completeIn_none {cache : Cache} {id : BlockID} (h : findblock cache id = none) :
    completeIn cache id = false := by simp [completeIn, h]

theorem completeIn_some {cache : Cache} {id : BlockID} {b : Block}
    (h : findblock cache id = some b) : completeIn cache id = blockComplete b := by
  simp [completeIn, h]

theorem contentBlock_complete (id : BlockID) (c : Bytes) :
    blockComplete (contentBlock id c) = true := by
  rw [blockComplete_iff]
  intro i hi
  simpa [contentBlock_heldAt] using hi

theorem not_complete_of_missing {b : Block} {i : ℕ} (hi : i < b.fs.fn.toNat)
    (hheld : b.heldAt i = false) : blockComplete b = false := by
  rw [Bool.eq_false_iff]
  intro hc
  rw [(blockComplete_iff b).mp hc i hi] at hheld
  cases hheld

theorem Outcome.added_complete {cache cache' : Cache} {f : FragmentData} {junk : UInt16}
    (h : Outcome cache f junk cache' .added) :
    completeIn cache f.id = false ∧ iscomplete cache' f.id = completeIn cache' f.id ∧
      ∀ id, id ≠ f.id → completeIn cache' id = completeIn cache id := by
  obtain ⟨b, b', -, hfind', hother, -, -, hi, hheld, hbefore⟩ := h.added
  refine ⟨?_, ?_, fun id hne => by rw [completeIn, completeIn, hother id hne]⟩
  · rcases hbefore with hfind | ⟨hfind, -⟩
    · rw [completeIn_some hfind]
      exact not_complete_of_missing hi hheld
    · exact completeIn_none hfind
  · rw [completeIn_some hfind', iscomplete, hfind']

/-- A fragment of a block of `n` fragments, each of MTU bytes and the last of at most that. -/
structure FragmentData.Conforms (f : FragmentData) (n : UInt16) : Prop where
  fragments_eq : f.fragments = n
  fragmentid_lt : f.fragmentid < n
  inner : f.fragmentid.toNat + 1 ≠ n.toNat → f.length.toNat = mtu
  last : f.fragmentid.toNat + 1 = n.toNat → 1 ≤ f.length.toNat ∧ f.length.toNat ≤ mtu

/-- Every received fragment conforms to the count `n` of its block, as does every block that
`addblock` puts in the cache, and no block is deleted. -/
def Conforming (n : BlockID → UInt16) (s : Receiver) : ReceiverAction → Prop
  | .addblock id blockdata =>
    findblock s.node.cache id = none → (contentBlock id blockdata).fs.fn = n id
  | .deleteblock _ => False
  | .datagram data _ => ∀ f, receivedFragment s.node data = some f → f.Conforms (n f.id)
  | .elsewhere _ => True

/-- A block is reported when and only when it is complete without having been put. -/
structure Reported (n : BlockID → UInt16) (s : Receiver) : Prop where
  roomy : RoomyCache s.node.cache
  fn_eq : ∀ id b, findblock s.node.cache id = some b → b.fs.fn = n id
  put : ∀ id ∈ s.put, completeIn s.node.cache id = true
  reports : ∀ id, s.node.reports id =
    if completeIn s.node.cache id = true ∧ id ∉ s.put then 1 else 0

section Conforming

variable {n : BlockID → UInt16} {s t : Receiver}

theorem Reported.inBounds (h : Reported n s) {f : FragmentData} (hf : f.Conforms (n f.id)) :
    InBounds s.node.cache f := by
  have hlast : f.fragmentid.toNat + 1 = f.fragments.toNat → f.length.toNat ≤ mtu := by
    rw [hf.fragments_eq]
    exact fun hl => (hf.last hl).2
  unfold InBounds
  split
  · exact ⟨by rw [hf.fragments_eq]; exact hf.fragmentid_lt, hlast⟩
  · rename_i b hfind
    exact ⟨by rw [h.fn_eq f.id b hfind]; exact hf.fragmentid_lt, fun _ _ => hlast⟩

theorem Reported.datagram (h : Reported n s) {data : IncomingData} {junk : UInt16}
    (hc : Conforming n s (.datagram data junk)) :
    (packetProcessor s.node data junk).fault = none ∧
      RoomyCache (packetProcessor s.node data junk).node.cache ∧
      (∀ id b, findblock (packetProcessor s.node data junk).node.cache id = some b →
        b.fs.fn = n id) ∧
      (∀ id, completeIn s.node.cache id = true →
        completeIn (packetProcessor s.node data junk).node.cache id = true) ∧
      ∀ id, (packetProcessor s.node data junk).node.reports id = s.node.reports id +
        if completeIn s.node.cache id = false ∧
          completeIn (packetProcessor s.node data junk).node.cache id = true then 1 else 0 := by
  have hsame : ∀ id, ¬ (completeIn s.node.cache id = false ∧ completeIn s.node.cache id = true) := by
    intro id hboth
    rw [hboth.1] at hboth
    exact absurd hboth.2 (by decide)
  cases hf : receivedFragment s.node data with
  | none =>
    obtain ⟨⟨hcache, hreports⟩, hfault⟩ := packetProcessor_other junk hf
    rw [hcache]
    refine ⟨hfault, h.roomy, h.fn_eq, fun _ hid => hid, fun id => ?_⟩
    rw [hreports id, if_neg (hsame id)]
    rfl
  | some f =>
    have hin := h.inBounds (hc f hf)
    have hl : 1 < data.buflen := by
      by_contra hl
      simp [receivedFragment, hl] at hf
    have hbefore : (beforeBlock s.node data).fault = none := by
      apply beforeBlock_safe hl
      intro f' hf'
      obtain rfl : f = f' := Option.some.inj (hf.symm.trans hf')
      exact getConsecutives_safe hin
    have hsafe : ∃ res, addfragment s.node.cache f (beforeBlock s.node data).data.source
        (beforeBlock s.node data).data.tv junk = .ok res := (addfragment_safe_iff h.roomy).mpr hin
    obtain ⟨⟨cache', r⟩, hadd⟩ := hsafe
    obtain ⟨hfault, hcache, -, hreports⟩ :=
      (packetProcessor_received junk hf hbefore).2 cache' r hadd
    have hroomy := addfragment_roomy h.roomy hadd
    have hout := addfragment_outcome hadd
    rw [hcache]
    by_cases hr : r = .added
    · subst r
      obtain ⟨hincomplete, hiscomplete, hothers⟩ := hout.added_complete
      obtain ⟨b, b', hs, hfind', hother, -, hfn, -, -, -⟩ := hout.added
      refine ⟨hfault, hroomy, ?_, ?_, ?_⟩
      · intro id x hx
        by_cases hid : id = f.id
        · subst id
          obtain rfl : b' = x := Option.some.inj (hfind'.symm.trans hx)
          rw [hs.fn_eq, hfn, (hc f hf).fragments_eq]
        · rw [hother id hid] at hx
          exact h.fn_eq id x hx
      · intro id hid
        by_cases hne : id = f.id
        · rw [hne, hincomplete] at hid
          cases hid
        · rw [hothers id hne]
          exact hid
      · intro id
        rw [hreports id, hiscomplete]
        by_cases hne : id = f.id
        · subst id
          simp [hincomplete]
        · rw [hothers id hne, if_neg (hsame id), if_neg (fun hall => hne hall.2.2.symm)]
    · obtain rfl := hout.unchanged hr
      refine ⟨hfault, hroomy, h.fn_eq, fun _ hid => hid, fun id => ?_⟩
      rw [hreports id, if_neg (hsame id), if_neg (fun hall => hr hall.1)]

theorem Reported.step {a : ReceiverAction} (h : Reported n s) (ha : Conforming n s a)
    (hstep : receiver.step s a = some t) : Reported n t := by
  cases a with
  | deleteblock id => exact ha.elim
  | elsewhere node =>
    cases hstep
    exact ⟨h.roomy, h.fn_eq, h.put, h.reports⟩
  | addblock id blockdata =>
    cases hstep
    cases hfind : findblock s.node.cache id with
    | some b =>
      have hadd : addblock s.node.cache id blockdata = (s.node.cache, false) := by
        simp only [addblock, hfind]
      simp only [hadd]
      exact ⟨h.roomy, h.fn_eq, h.put, h.reports⟩
    | none =>
      have hadd : addblock s.node.cache id blockdata =
          (contentBlock id blockdata :: s.node.cache, true) := by simp only [addblock, hfind]
      have hfind' : ∀ id', findblock (contentBlock id blockdata :: s.node.cache) id' =
          if id = id' then some (contentBlock id blockdata) else findblock s.node.cache id' :=
        fun id' => findblock_cons _ _ _
      have hcomplete : ∀ id', completeIn (contentBlock id blockdata :: s.node.cache) id' =
          if id = id' then true else completeIn s.node.cache id' := by
        intro id'
        rw [completeIn, hfind']
        split
        · exact contentBlock_complete id blockdata
        · rfl
      simp only [hadd, if_true]
      refine ⟨?_, ?_, ?_, ?_⟩
      · intro b hb
        rcases List.mem_cons.mp hb with rfl | hb
        · exact contentBlock_roomy id blockdata
        · exact h.roomy b hb
      · intro id' b hb
        rw [hfind'] at hb
        split at hb
        · rename_i hid
          cases hb
          rw [← hid]
          exact ha hfind
        · exact h.fn_eq id' b hb
      · intro id' hid'
        rw [hcomplete]
        split
        · rfl
        · rename_i hne
          exact h.put id' ((List.mem_cons.mp hid').resolve_left (fun he => hne he.symm))
      · intro id'
        show s.node.reports id' = _
        rw [h.reports, hcomplete]
        by_cases hid : id = id'
        · subst id'
          simp [completeIn_none hfind]
        · have hne : id' ≠ id := fun he => hid he.symm
          simp [hid, hne]
  | datagram data junk =>
    obtain ⟨-, rfl⟩ := receiver_datagram hstep
    obtain ⟨-, hroomy, hfn, hkeep, hreports⟩ := h.datagram ha
    refine ⟨hroomy, hfn, fun id hid => hkeep id (h.put id hid), fun id => ?_⟩
    show (packetProcessor s.node data junk).node.reports id = _
    rw [hreports id, h.reports id]
    cases hbefore : completeIn s.node.cache id with
    | true => simp [hkeep id hbefore]
    | false =>
      have hput : id ∉ s.put := by
        intro hput
        rw [h.put id hput] at hbefore
        cases hbefore
      simp [hput]

theorem conforming_reported (h : Reaches receiver (Conforming n) s) : Reported n s := by
  apply h.invariant
  · rintro s ⟨hcache, hcompleted, hput⟩
    refine ⟨?_, ?_, ?_, ?_⟩
    · simp [RoomyCache, hcache]
    · simp [hcache, findblock]
    · simp [hput]
    · simp [Node.reports, hcompleted, hcache, completeIn, findblock]
  · intro s a t hs ha hstep
    exact hs.step ha hstep

/-- In every conforming run a block is reported at most once, and never if it was put in the
cache; a datagram is always processed to its end, and reports a block exactly when it stores the
last fragment that was missing of it. -/
theorem completed_once (h : Reaches receiver (Conforming n) s) :
    (∀ id, s.node.reports id ≤ 1) ∧ (∀ id ∈ s.put, s.node.reports id = 0) ∧
      ∀ data junk, Conforming n s (.datagram data junk) →
        ∃ t, receiver.step s (.datagram data junk) = some t ∧
          ∀ id, t.node.reports id = s.node.reports id +
            if completeIn s.node.cache id = false ∧ completeIn t.node.cache id = true then 1
            else 0 := by
  have hinv := conforming_reported h
  refine ⟨?_, ?_, ?_⟩
  · intro id
    rw [hinv.reports id]
    split <;> decide
  · intro id hid
    rw [hinv.reports id, if_neg (fun hall => hall.2 hid)]
  · intro data junk hc
    obtain ⟨hfault, -, -, -, hreports⟩ := hinv.datagram hc
    exact ⟨_, if_pos hfault, hreports⟩

end Conforming

/-- The fragments of a block of two as datagrams, with a port of 0 behind them. -/
def innerDatagram : IncomingData :=
  slotOf (fragmentPacket blkBlock innerFragment ++ [0, 0]) (by
    rw [List.length_append, fragmentPacket_length]
    decide)

def lastDatagram : IncomingData :=
  slotOf (fragmentPacket blkBlock lastFragment ++ [0, 0]) (by
    rw [List.length_append, fragmentPacket_length]
    decide)

def FragmentData.place (f : FragmentData) : BlockID × UInt16 × UInt16 × UInt16 :=
  (f.id, f.fragmentid, f.fragments, f.length)

/-- The block is reported with the second one. -/
theorem completed_pair :
    ∃ s t, receiver.step ⟨Node.init, []⟩ (.datagram innerDatagram 0) = some s ∧
      receiver.step s (.datagram lastDatagram 0) = some t ∧
      s.node.reports ⟨1, 1⟩ = 0 ∧ t.node.reports ⟨1, 1⟩ = 1 := by
  let s : Receiver := ⟨(packetProcessor Node.init innerDatagram 0).node, []⟩
  have hfault : (packetProcessor Node.init innerDatagram 0).fault = none := by decide +kernel
  have hs : receiver.step ⟨Node.init, []⟩ (.datagram innerDatagram 0) = some s := by
    simp only [receiver, hfault, if_true, s]
  have hinner : (receivedFragment Node.init innerDatagram).map FragmentData.place =
      some (⟨1, 1⟩, 0, 2, 1400) := by decide +kernel
  have hlast : (receivedFragment s.node lastDatagram).map FragmentData.place =
      some (⟨1, 1⟩, 1, 2, 2) := by decide +kernel
  have hfirst : Conforming (fun _ => 2) ⟨Node.init, []⟩ (.datagram innerDatagram 0) := by
    intro f hf
    rw [hf] at hinner
    simp only [Option.map_some, Option.some.injEq, FragmentData.place, Prod.mk.injEq] at hinner
    obtain ⟨-, hid, hfragments, hlength⟩ := hinner
    constructor <;> simp [hid, hfragments, hlength, mtu]
  have hsecond : Conforming (fun _ => 2) s (.datagram lastDatagram 0) := by
    intro f hf
    rw [hf] at hlast
    simp only [Option.map_some, Option.some.injEq, FragmentData.place, Prod.mk.injEq] at hlast
    obtain ⟨-, hid, hfragments, hlength⟩ := hlast
    constructor <;> simp [hid, hfragments, hlength, mtu]
  have hinit : Reaches receiver (Conforming (fun _ => 2)) ⟨Node.init, []⟩ := .init ⟨rfl, rfl, rfl⟩
  obtain ⟨t, ht, hreports⟩ := (completed_once (hinit.step hfirst hs)).2.2 lastDatagram 0 hsecond
  have hnone : s.node.reports ⟨1, 1⟩ = 0 := by decide +kernel
  have hbefore : completeIn s.node.cache ⟨1, 1⟩ = false := by decide +kernel
  have hcomplete : completeIn (packetProcessor s.node lastDatagram 0).node.cache ⟨1, 1⟩ = true := by
    decide +kernel
  have hnode : t.node = (packetProcessor s.node lastDatagram 0).node := by
    rw [(receiver_datagram ht).2]
  rw [← hnode] at hcomplete
  refine ⟨s, t, hs, ht, hnone, ?_⟩
  rw [hreports ⟨1, 1⟩]
  simp only [hbefore, hcomplete, hnone, and_self, if_true]

end Bora
