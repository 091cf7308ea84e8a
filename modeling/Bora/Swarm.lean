import Bora.Reassembly
import Bora.Library.Transition

/-! A swarm of peers that exchange blocks: every peer has a cache, sends what its cache
holds to any other peer, and stores the fragments the network hands it. -/
namespace Bora

open ByteMemory Checked Transition

/-- The peer that adds each block, and the content it adds. -/
structure Origins where
  origin : BlockID → SockAddr
  content : BlockID → Bytes
  length_pos : ∀ id, 1 ≤ (content id).length
  length_le : ∀ id, (content id).length ≤ 65535 * mtu

def Origins.original (o : Origins) (id : BlockID) : Block := contentBlock id (o.content id)

/-- Peers are named by their addresses. A packet put on the network stays there: it may be
delivered never, once or many times. -/
structure Swarm where
  caches : SockAddr → Cache
  net : List SendData
  fault : Option Fault

inductive SwarmAction
  | addblock (id : BlockID)
  | sendblock (peer : SockAddr) (id : BlockID) (dest : SockAddr)
  | deliver (k : ℕ) (host : SockAddr) (ts : Timeval) (junk : UInt16)

namespace Swarm

def start : Swarm := ⟨fun _ => [], [], none⟩

def setCache (s : Swarm) (peer : SockAddr) (cache : Cache) : Swarm :=
  { s with caches := Function.update s.caches peer cache }

def step (o : Origins) (s : Swarm) : SwarmAction → Option Swarm
  | .addblock id =>
    some (s.setCache (o.origin id) (addblock (s.caches (o.origin id)) id (o.content id)).1)
  | .sendblock peer id dest =>
    match sendblock (s.caches peer) id dest with
    | .ok (ds, _) => some { s with net := s.net ++ ds }
    | .error e => some { s with fault := some e }
  | .deliver k host ts junk =>
    match s.net[k]? with
    | none => none
    | some packet =>
      match deliver (s.caches packet.dest) ⟨packet, host, ts, junk⟩ with
      | .ok cache => some (s.setCache packet.dest cache)
      | .error e => some { s with fault := some e }

end Swarm

def swarm (o : Origins) : System Swarm SwarmAction where
  init s := s = Swarm.start
  step := Swarm.step o

/-- Every fragment held anywhere is that of its origin, length and bytes. -/
def Swarm.Intact (o : Origins) (s : Swarm) : Prop :=
  ∀ peer, ∀ b ∈ s.caches peer, ∀ i, b.heldAt i = true →
    b.fragmentLength i = (o.original b.id).fragmentLength i ∧
      b.fragmentBytes i = (o.original b.id).fragmentBytes i

def SendsComplete (s : Swarm) : SwarmAction → Prop
  | .sendblock peer id _ => iscomplete (s.caches peer) id = true
  | _ => True

instance (s : Swarm) : (a : SwarmAction) → Decidable (SendsComplete s a)
  | .sendblock peer id _ => inferInstanceAs (Decidable (iscomplete (s.caches peer) id = true))
  | .addblock _ => .isTrue trivial
  | .deliver .. => .isTrue trivial

/-- Caches hold partial copies of the originals, and every packet is one of theirs. -/
structure Swarm.Inv (o : Origins) (s : Swarm) : Prop where
  copies : ∀ peer, ∀ b ∈ s.caches peer, CopyOf (o.original b.id) b
  packets : ∀ d ∈ s.net, ∃ id i dest,
    i < (o.original id).fs.fn.toNat ∧ sendPacket (o.original id) dest i = .ok d
  sound : s.fault = none

section Swarm

variable {o : Origins} {s : Swarm} {id : BlockID} {i : ℕ}

theorem Origins.sendable (o : Origins) (id : BlockID) : (o.original id).Sendable := by
  have hle := o.length_le id
  exact contentBlock_sendable id (by unfold mtu at hle; omega)

theorem Origins.fragmentLength_pos (hi : i < (o.original id).fs.fn.toNat) :
    0 < ((o.original id).fragmentLength i).toNat :=
  contentBlock_fragmentLength_pos (o.length_pos id) (o.length_le id) hi

theorem copies_cacheCopy {cache : Cache} (h : ∀ b ∈ cache, CopyOf (o.original b.id) b)
    (id : BlockID) : CacheCopy (o.original id) cache := by
  intro b hb
  have hcopy := h b (List.mem_of_find?_eq_some hb)
  rwa [findblock_id hb] at hcopy

theorem copies_addblock {cache : Cache} (h : ∀ b ∈ cache, CopyOf (o.original b.id) b)
    (id : BlockID) :
    ∀ b ∈ (addblock cache id (o.content id)).1, CopyOf (o.original b.id) b := by
  intro b hb
  unfold addblock at hb
  split at hb
  · exact h b hb
  · rcases List.mem_cons.mp hb with rfl | hb
    · exact contentBlock_copyOf id (o.content id)
    · exact h b hb

theorem sendblock_complete {cache : Cache} (hcopies : ∀ b ∈ cache, CopyOf (o.original b.id) b)
    (hcomplete : iscomplete cache id = true) (dest : SockAddr) :
    ∃ ds n, sendblock cache id dest = .ok (ds, n) ∧
      ∀ d ∈ ds, ∃ i < (o.original id).fs.fn.toNat, sendPacket (o.original id) dest i = .ok d := by
  cases hb : findblock cache id with
  | none => exact ⟨[], 0, by simp [sendblock, hb], by simp⟩
  | some b =>
    have hcopy : CopyOf (o.original id) b := copies_cacheCopy hcopies id b hb
    rw [iscomplete, hb] at hcomplete
    have hall := (blockComplete_iff b).mp hcomplete
    have hsame : ∀ i < b.fs.fn.toNat, sendPacket b dest i = sendPacket (o.original id) dest i := by
      intro i hi
      have hi₀ : i < (o.original id).fs.fn.toNat := by rwa [← hcopy.fn_eq]
      have hf := hcopy.sendFragment (o.sendable id) hi₀ (o.fragmentLength_pos hi₀) (hall i hi)
      rw [sendPacket, sendPacket, hf]
    have hsome : ∀ i ∈ List.range b.fs.fn.toNat, ∃ d, sendPacket b dest i = .ok d := by
      intro i hi
      have hi' := List.mem_range.mp hi
      rw [hsame i hi']
      exact (o.sendable id).sendPacket dest (by rwa [← hcopy.fn_eq])
    obtain ⟨ds, hds⟩ := exists_mapM_ok hsome
    refine ⟨ds, b.fs.fn.toNat, by simp [sendblock, hb, hds], ?_⟩
    intro d hd
    obtain ⟨i, hi, hid⟩ := mem_of_mapM_ok hds hd
    have hi' := List.mem_range.mp hi
    exact ⟨i, by rwa [← hcopy.fn_eq], by rw [← hsame i hi', hid]⟩

theorem inv_start (o : Origins) : Swarm.start.Inv o where
  copies := by simp [Swarm.start]
  packets := by simp [Swarm.start]
  sound := rfl

theorem Swarm.Inv.setCache (h : s.Inv o) {peer : SockAddr} {cache : Cache}
    (hc : ∀ b ∈ cache, CopyOf (o.original b.id) b) : (s.setCache peer cache).Inv o where
  copies := by
    intro p b hb
    by_cases hp : p = peer
    · subst p
      exact hc b (by simpa [Swarm.setCache] using hb)
    · exact h.copies p b (by simpa [Swarm.setCache, hp] using hb)
  packets := h.packets
  sound := h.sound

theorem inv_addblock (h : s.Inv o) (id : BlockID) :
    (s.setCache (o.origin id) (addblock (s.caches (o.origin id)) id (o.content id)).1).Inv o :=
  h.setCache (copies_addblock (h.copies _) id)

theorem inv_step {a : SwarmAction} {t : Swarm} (h : s.Inv o) (ha : SendsComplete s a)
    (hstep : Swarm.step o s a = some t) : t.Inv o := by
  cases a with
  | addblock id =>
    cases hstep
    exact inv_addblock h id
  | sendblock peer id dest =>
    obtain ⟨ds, n, hds, hpackets⟩ := sendblock_complete (h.copies peer) ha dest
    simp only [Swarm.step, hds] at hstep
    cases hstep
    refine ⟨h.copies, ?_, h.sound⟩
    intro d hd
    rcases List.mem_append.mp hd with hd | hd
    · exact h.packets d hd
    · obtain ⟨i, hi, hp⟩ := hpackets d hd
      exact ⟨id, i, dest, hi, hp⟩
  | deliver k host ts junk =>
    cases hk : s.net[k]? with
    | none => simp [Swarm.step, hk] at hstep
    | some packet =>
      obtain ⟨id, i, dest, hi, hp⟩ := h.packets packet (List.mem_of_getElem? hk)
      obtain ⟨f, hf, hd⟩ := deliver_packet (a := ⟨packet, host, ts, junk⟩) hp
        (s.caches packet.dest)
      have hcc := copies_cacheCopy (h.copies packet.dest) id
      obtain ⟨cache, r, hadd, -, -, -, hmem⟩ :=
        addfragment_copy (o.sendable id) hcc hi hf host ts junk
      rw [hadd] at hd
      simp only [Swarm.step, hk, hd, Except.map] at hstep
      cases hstep
      apply h.setCache
      intro b hb
      rcases hmem b hb with hb | hb
      · exact h.copies _ b hb
      · have hid : b.id = id := hb.id_eq
        rwa [hid]

/-- In a run whose `sendblock` calls are all on complete blocks, no access faults and every
fragment held by any peer is that of its origin. -/
theorem swarm_intact (h : Reaches (swarm o) SendsComplete s) : s.fault = none ∧ s.Intact o := by
  have hinv : s.Inv o := h.invariant (by rintro _ rfl; exact inv_start o)
    (fun _ _ _ hi ha hs => inv_step hi ha hs)
  exact ⟨hinv.sound, fun peer b hb i hi => (hinv.copies peer b hb).same i trivial hi⟩

end Swarm

def twoFragments : Origins where
  origin _ := ⟨1, 1⟩
  content _ := List.replicate mtu 7 ++ [9]
  length_pos _ := by rw [List.length_append, List.length_replicate]; decide
  length_le _ := by rw [List.length_append, List.length_replicate]; decide

/-- The origin sends its block to peer 2, which forwards it after receiving both fragments. -/
theorem swarm_intact_forwarded :
    ∃ s, (swarm twoFragments).runIf SendsComplete Swarm.start
        [.addblock ⟨1, 1⟩, .sendblock ⟨1, 1⟩ ⟨1, 1⟩ ⟨2, 1⟩, .deliver 1 ⟨1, 1⟩ default 0,
          .deliver 0 ⟨1, 1⟩ default 0, .sendblock ⟨2, 1⟩ ⟨1, 1⟩ ⟨3, 1⟩,
          .deliver 2 ⟨2, 1⟩ default 0] = some s ∧
      cacheHolds (s.caches ⟨3, 1⟩) ⟨1, 1⟩ 0 = true ∧ s.fault = none ∧ s.Intact twoFragments := by
  have hrun : ((swarm twoFragments).runIf SendsComplete Swarm.start
      [.addblock ⟨1, 1⟩, .sendblock ⟨1, 1⟩ ⟨1, 1⟩ ⟨2, 1⟩, .deliver 1 ⟨1, 1⟩ default 0,
        .deliver 0 ⟨1, 1⟩ default 0, .sendblock ⟨2, 1⟩ ⟨1, 1⟩ ⟨3, 1⟩,
        .deliver 2 ⟨2, 1⟩ default 0]).map
          (fun s => cacheHolds (s.caches ⟨3, 1⟩) ⟨1, 1⟩ 0) = some true := by
    decide +kernel
  obtain ⟨s, hs, hheld⟩ := Option.map_eq_some_iff.mp hrun
  exact ⟨s, hs, hheld, swarm_intact ((Reaches.init rfl).runIf hs)⟩

/-- A peer that holds only the last fragment forwards zeros as the first one. -/
theorem swarm_forwards_unreceived :
    ∃ s, Reachable (swarm twoFragments) s ∧ ¬ s.Intact twoFragments := by
  have hrun : ((swarm twoFragments).runIf (fun _ _ => True) Swarm.start
      [.addblock ⟨1, 1⟩, .sendblock ⟨1, 1⟩ ⟨1, 1⟩ ⟨2, 1⟩, .deliver 1 ⟨1, 1⟩ default 0,
        .sendblock ⟨2, 1⟩ ⟨1, 1⟩ ⟨3, 1⟩, .deliver 2 ⟨2, 1⟩ default 0]).map
          (fun s => (findblock (s.caches ⟨3, 1⟩) ⟨1, 1⟩).map
            (fun b => (b.heldAt 0, byteAt (b.fragmentBytes 0) 0))) = some (some (true, 0)) := by
    decide +kernel
  have horigin : byteAt ((twoFragments.original ⟨1, 1⟩).fragmentBytes 0) 0 = 7 := by
    decide +kernel
  obtain ⟨s, hs, hb⟩ := Option.map_eq_some_iff.mp hrun
  obtain ⟨b, hfind, hbytes⟩ := Option.map_eq_some_iff.mp hb
  obtain ⟨hheld, hzero⟩ := Prod.mk.inj hbytes
  refine ⟨s, (Reaches.init rfl).runIf hs, ?_⟩
  intro hintact
  have hsame := (hintact _ b (List.mem_of_find?_eq_some hfind) 0 hheld).2
  rw [findblock_id hfind] at hsame
  rw [hsame, horigin] at hzero
  exact absurd hzero (by decide)

end Bora
