import Bora.Swarm
import Bora.AddOutcome
import Bora.SendQueues

/-! Relaying: a node that received every fragment of a block queues the packets that the
node which added the block queues for it. -/
namespace Bora

open ByteMemory Checked

structure FragmentArrival where
  fragment : FragmentData
  host : SockAddr
  ts : Timeval
  junk : UInt16

def addfragments : Cache → List FragmentArrival → Except Fault Cache
  | cache, [] => .ok cache
  | cache, a::as => do
    let (cache, _) ← addfragment cache a.fragment a.host a.ts a.junk
    addfragments cache as

/-- The `send_data` calls of one `sendblock`. -/
def SendQueues.sendAll (s : SendQueues) (ds : List SendData) : SendQueues :=
  ds.foldl (fun s d => (s.sendData d).1) s

abbrev IsFragment (b₀ : Block) (f : FragmentData) : Prop :=
  ∃ i < b₀.fs.fn.toNat, sendFragment b₀ i = .ok f

namespace SendQueues

variable {s : SendQueues} {q : QueueName}

theorem sendAll_room {ds : List SendData} (hs : s.Valid) (hq : ∀ d ∈ ds, queueOf d = q)
    (hslots : ds.length ≤ s.qEmpty) (hroom : s.f q + ds.length ≤ q.capacity) :
    (s.sendAll ds).queued q = s.queued q ++ ds ∧
      ∀ q', q' ≠ q → (s.sendAll ds).queued q' = s.queued q' := by
  induction ds generalizing s with
  | nil => simp [sendAll]
  | cons d ds ih =>
    have hd : queueOf d = q := hq d (by simp)
    rw [List.length_cons] at hslots hroom
    obtain ⟨t, ht, hvalid, -, hslot, hqueued⟩ :=
      sendData_room hs (d := d) (by omega) (by rw [hd]; omega)
    have hf : t.f q = s.f q + 1 := by
      rw [← queued_length, hqueued q, ← queued_length, if_pos hd.symm, List.length_append]
      rfl
    obtain ⟨hself, hother⟩ := ih hvalid (fun x hx => hq x (by simp [hx])) (by omega) (by omega)
    have hstep : s.sendAll (d :: ds) = t.sendAll ds := by simp [sendAll, ht]
    rw [hstep]
    constructor
    · rw [hself, hqueued q, if_pos hd.symm, List.append_assoc]
      rfl
    · intro q' hne
      rw [hother q' hne, hqueued q', if_neg (by rw [hd]; exact hne), List.append_nil]

end SendQueues

section Arrivals

variable {b₀ : Block} {cache cache' : Cache}

theorem addfragment_other {f : FragmentData} {host : SockAddr} {ts : Timeval} {junk : UInt16}
    {r : AddResult} (h : addfragment cache f host ts junk = .ok (cache', r)) {id : BlockID}
    (hne : id ≠ f.id) : findblock cache' id = findblock cache id := by
  have hout := addfragment_outcome h
  by_cases hr : r = .added
  · subst hr
    obtain ⟨-, -, -, -, hother, -⟩ := hout.added
    exact hother id hne
  · rw [hout.unchanged hr]

theorem addfragment_arrival (hs : b₀.Sendable) (hc : CacheCopy b₀ cache) {a : FragmentArrival}
    (hown : a.fragment.id = b₀.id → IsFragment b₀ a.fragment) {r : AddResult}
    (h : addfragment cache a.fragment a.host a.ts a.junk = .ok (cache', r)) :
    CacheCopy b₀ cache' ∧
      (∀ i, cacheHolds cache b₀.id i = true → cacheHolds cache' b₀.id i = true) ∧
      ∀ i < b₀.fs.fn.toNat, sendFragment b₀ i = .ok a.fragment →
        cacheHolds cache' b₀.id i = true := by
  by_cases hid : a.fragment.id = b₀.id
  · obtain ⟨i, hi, hf⟩ := hown hid
    obtain ⟨c, r', hadd, hcopy, hholds, -⟩ :=
      addfragment_copy hs hc hi hf a.host a.ts a.junk
    obtain ⟨rfl, rfl⟩ := Prod.mk.inj (Except.ok.inj (hadd.symm.trans h))
    refine ⟨hcopy, ?_, ?_⟩
    · intro j hj
      rw [hholds, hj, Bool.or_true]
    · intro j hj hfj
      have hij : j = i :=
        (sendFragment_fields hj hfj).2.1.symm.trans (sendFragment_fields hi hf).2.1
      simp [hholds, hij]
  · have hfind := addfragment_other h (Ne.symm hid)
    refine ⟨?_, ?_, ?_⟩
    · intro b hb
      rw [hfind] at hb
      exact hc b hb
    · intro i hi
      rw [cacheHolds, hfind]
      exact hi
    · intro i hi hf
      exact absurd (sendFragment_fields hi hf).1 hid

/-- Any number of calls, in any order. -/
theorem addfragments_arrivals (hs : b₀.Sendable) (hc : CacheCopy b₀ cache)
    {as : List FragmentArrival}
    (hown : ∀ a ∈ as, a.fragment.id = b₀.id → IsFragment b₀ a.fragment)
    (h : addfragments cache as = .ok cache') :
    CacheCopy b₀ cache' ∧
      (∀ i, cacheHolds cache b₀.id i = true → cacheHolds cache' b₀.id i = true) ∧
      ∀ i < b₀.fs.fn.toNat, (∃ a ∈ as, sendFragment b₀ i = .ok a.fragment) →
        cacheHolds cache' b₀.id i = true := by
  induction as generalizing cache with
  | nil =>
    cases h
    exact ⟨hc, fun _ hi => hi, by simp⟩
  | cons a as ih =>
    obtain ⟨⟨cache₁, r⟩, hadd, hrest⟩ := bind_eq_ok.mp h
    obtain ⟨hc₁, hkeep₁, hnew₁⟩ := addfragment_arrival hs hc (hown a (by simp)) hadd
    obtain ⟨hc', hkeep, hnew⟩ := ih hc₁ (fun x hx => hown x (by simp [hx])) hrest
    refine ⟨hc', fun i hi => hkeep i (hkeep₁ i hi), ?_⟩
    rintro i hi ⟨x, hx, hf⟩
    rcases List.mem_cons.mp hx with rfl | hx
    · exact hkeep i (hnew₁ i hi hf)
    · exact hnew i hi ⟨x, hx, hf⟩

theorem addfragments_ok (hs : b₀.Sendable) (hc : CacheCopy b₀ cache)
    {as : List FragmentArrival} (hown : ∀ a ∈ as, IsFragment b₀ a.fragment) :
    ∃ cache', addfragments cache as = .ok cache' := by
  induction as generalizing cache with
  | nil => exact ⟨cache, rfl⟩
  | cons a as ih =>
    obtain ⟨i, hi, hf⟩ := hown a (by simp)
    obtain ⟨cache₁, r, hadd, hc₁, -⟩ := addfragment_copy hs hc hi hf a.host a.ts a.junk
    obtain ⟨cache', hrest⟩ := ih hc₁ (fun x hx => hown x (by simp [hx]))
    refine ⟨cache', ?_⟩
    rw [addfragments, hadd]
    exact hrest

end Arrivals

theorem CopyOn.sendblock {b₀ b : Block} (h : CopyOf b₀ b) (hs : b₀.Sendable)
    (hpos : ∀ i < b₀.fs.fn.toNat, 0 < (b₀.fragmentLength i).toNat)
    (hall : ∀ i < b₀.fs.fn.toNat, b.heldAt i = true) {cache cache₀ : Cache}
    (hb : findblock cache b₀.id = some b) (hb₀ : findblock cache₀ b₀.id = some b₀)
    (dest : SockAddr) : sendblock cache b₀.id dest = sendblock cache₀ b₀.id dest := by
  have hsame : ∀ i ∈ List.range b₀.fs.fn.toNat, sendPacket b dest i = sendPacket b₀ dest i := by
    intro i hi
    have hi' := List.mem_range.mp hi
    rw [sendPacket, sendPacket, h.sendFragment hs hi' (hpos i hi') (hall i hi')]
  simp only [Bora.sendblock, hb, hb₀, h.fn_eq]
  rw [Checked.mapM_congr hsame]

/-- A node that received, in any order and any number of times and among the fragments of
other blocks, every fragment of a content put by `addblock` hands `send_data` the packets that
the node holding the content hands it; a queue with room holds them in that order. -/
theorem relay_transparent (a b : Cache) (id : BlockID) (c : Bytes) (h0 : 1 ≤ c.length)
    (hc : c.length ≤ 65535 * mtu) (ha : findblock a id = none) (hb : findblock b id = none)
    (arrivals : List FragmentArrival)
    (hown : ∀ x ∈ arrivals, x.fragment.id = id → IsFragment (contentBlock id c) x.fragment)
    (hall : ∀ i < (contentBlock id c).fs.fn.toNat, ∃ x ∈ arrivals,
      sendFragment (contentBlock id c) i = .ok x.fragment) :
    ((∀ x ∈ arrivals, x.fragment.id = id) → ∃ b', addfragments b arrivals = .ok b') ∧
      ∀ b', addfragments b arrivals = .ok b' → ∀ dest, ∃ ds n,
        sendblock (addblock a id c).1 id dest = .ok (ds, n) ∧
        sendblock b' id dest = .ok (ds, n) ∧
        ∀ s : SendQueues, s.Valid → n ≤ s.qEmpty → s.f .send + n ≤ nSend →
          (s.sendAll ds).queued .send = s.queued .send ++ ds ∧
          ∀ q, q ≠ .send → (s.sendAll ds).queued q = s.queued q := by
  have hs := contentBlock_sendable id (c := c) (by unfold mtu at hc; omega)
  have hcopy : CacheCopy (contentBlock id c) b := by
    intro x hx
    rw [show (contentBlock id c).id = id from rfl, hb] at hx
    cases hx
  refine ⟨fun hid => addfragments_ok hs hcopy (fun x hx => hown x hx (hid x hx)), ?_⟩
  intro b' hrun dest
  obtain ⟨hcopy', -, hnew⟩ := addfragments_arrivals hs hcopy hown hrun
  have hheld : ∀ i < (contentBlock id c).fs.fn.toNat, cacheHolds b' id i = true :=
    fun i hi => hnew i hi (hall i hi)
  have hfa := findblock_addblock ha c
  obtain ⟨hfn, hpos, -⟩ := calcfragments_exact h0 hc
  obtain ⟨x, hx⟩ : ∃ x, findblock b' id = some x := by
    have h := hheld 0 (by rw [show (contentBlock id c).fs.fn.toNat = _ from hfn]; exact hpos)
    unfold cacheHolds at h
    split at h
    · cases h
    · exact ⟨_, ‹_›⟩
  have hsame := (hcopy' x hx).sendblock hs
    (fun i hi => contentBlock_fragmentLength_pos h0 hc hi)
    (fun i hi => by simpa [cacheHolds, hx] using hheld i hi) hx hfa dest
  obtain ⟨ds, hds⟩ := hs.sendblock hfa dest
  obtain ⟨-, hlen, hget⟩ := sendblock_ok hfa hds
  refine ⟨ds, _, hds, hsame.trans hds, ?_⟩
  intro s hvalid hslots hroom
  refine SendQueues.sendAll_room hvalid ?_ (by omega) (by rw [hlen]; exact hroom)
  intro d hd
  obtain ⟨i, hi, rfl⟩ := List.mem_iff_getElem.mp hd
  obtain ⟨e, he, hpacket⟩ := hget i (by omega)
  rw [List.getElem?_eq_getElem hi, Option.some.injEq] at he
  rw [he]
  rw [queueOf, sendPacket_flags hpacket]
  decide

/-- The last of two fragments creates the block at the relaying node, and comes once more. -/
theorem relay_transparent_last_first :
    ∃ f₀ f₁ b' ds n, addfragments [] [⟨f₁, ⟨1, 1⟩, default, 7⟩, ⟨f₀, ⟨2, 1⟩, default, 0⟩,
        ⟨f₁, ⟨2, 1⟩, default, 0⟩] = .ok b' ∧
      sendblock (addblock [] ⟨1, 1⟩ (List.replicate mtu 7 ++ [9])).1 ⟨1, 1⟩ ⟨3, 1⟩ = .ok (ds, n) ∧
      sendblock b' ⟨1, 1⟩ ⟨3, 1⟩ = .ok (ds, n) := by
  have hlen : (List.replicate mtu 7 ++ [9] : Bytes).length = mtu + 1 := by simp
  have hfn : (contentBlock ⟨1, 1⟩ (List.replicate mtu 7 ++ [9])).fs.fn.toNat = 2 := by
    decide +kernel
  have hs := contentBlock_sendable ⟨1, 1⟩ (c := List.replicate mtu 7 ++ [9])
    (by rw [hlen]; decide)
  obtain ⟨f₀, hf₀⟩ := hs.sendFragment (i := 0) (by rw [hfn]; decide)
  obtain ⟨f₁, hf₁⟩ := hs.sendFragment (i := 1) (by rw [hfn]; decide)
  have hid₀ := (sendFragment_fields (by rw [hfn]; decide) hf₀).1
  have hid₁ := (sendFragment_fields (by rw [hfn]; decide) hf₁).1
  obtain ⟨hok, hsame⟩ := relay_transparent [] [] ⟨1, 1⟩ (List.replicate mtu 7 ++ [9])
    (by rw [hlen]; decide) (by rw [hlen]; decide) rfl rfl
    [⟨f₁, ⟨1, 1⟩, default, 7⟩, ⟨f₀, ⟨2, 1⟩, default, 0⟩, ⟨f₁, ⟨2, 1⟩, default, 0⟩]
    (by
      simp only [List.mem_cons, List.not_mem_nil, or_false]
      rintro x (rfl | rfl | rfl) -
      · exact ⟨1, by rw [hfn]; decide, hf₁⟩
      · exact ⟨0, by rw [hfn]; decide, hf₀⟩
      · exact ⟨1, by rw [hfn]; decide, hf₁⟩)
    (by
      intro i hi
      rw [hfn] at hi
      obtain rfl | rfl : i = 0 ∨ i = 1 := by omega
      · exact ⟨⟨f₀, ⟨2, 1⟩, default, 0⟩, by simp, hf₀⟩
      · exact ⟨⟨f₁, ⟨2, 1⟩, default, 0⟩, by simp, hf₁⟩)
  obtain ⟨b', hb'⟩ := hok (by
    simp only [List.mem_cons, List.not_mem_nil, or_false]
    rintro x (rfl | rfl | rfl)
    · exact hid₁
    · exact hid₀
    · exact hid₁)
  obtain ⟨ds, n, hds, hds', -⟩ := hsame b' hb' ⟨3, 1⟩
  exact ⟨f₀, f₁, b', ds, n, hb', hds, hds'⟩

end Bora
