import Bora.FragmentStore

/-! Reassembly: the packets of a block, delivered in any order and any number of times,
and when the receiving cache hands the original content back. -/
namespace Bora

open ByteMemory Checked

/-- A datagram handed to the cache, with the value its `malloc` would find in `lastlen`. -/
structure Arrival where
  packet : SendData
  host : SockAddr
  ts : Timeval
  junk : UInt16

def deliver (cache : Cache) (a : Arrival) : Except Fault Cache :=
  match decodeFragment a.packet.data a.packet.length with
  | none => .ok cache
  | some fragment => (addfragment cache fragment a.host a.ts a.junk).map Prod.fst

def deliverAll : Cache → List Arrival → Except Fault Cache
  | cache, [] => .ok cache
  | cache, a::as => do
    let cache ← deliver cache a
    deliverAll cache as

theorem sendPacket_decode {b : Block} {dest : SockAddr} {i : ℕ} {d : SendData}
    (h : sendPacket b dest i = .ok d) :
    ∃ f, sendFragment b i = .ok f ∧ decodeFragment d.data d.length = some f := by
  obtain ⟨f, hf, hd, -⟩ := sendPacket_ok h
  refine ⟨f, hf, ?_⟩
  have hdec := decodeFragment_packet (show hasBit blkBlockAck blkBlock from by decide) f []
  rw [SendData.length, hd, fragmentPacket_length]
  simpa using hdec

theorem sendPacket_injective {b : Block} {dest : SockAddr} {i j : ℕ} {d : SendData}
    (hi : i < b.fs.fn.toNat) (hj : j < b.fs.fn.toNat) (h : sendPacket b dest i = .ok d)
    (h' : sendPacket b dest j = .ok d) : i = j := by
  obtain ⟨f, hf, hd⟩ := sendPacket_decode h
  obtain ⟨g, hg, hd'⟩ := sendPacket_decode h'
  have hfg : f = g := Option.some.inj (hd.symm.trans hd')
  rw [← (sendFragment_fields hi hf).2.1, ← (sendFragment_fields hj hg).2.1, hfg]

theorem deliver_packet {b : Block} {dest : SockAddr} {i : ℕ} {a : Arrival}
    (h : sendPacket b dest i = .ok a.packet) (cache : Cache) :
    ∃ f, sendFragment b i = .ok f ∧
      deliver cache a = (addfragment cache f a.host a.ts a.junk).map Prod.fst := by
  obtain ⟨f, hf, hd⟩ := sendPacket_decode h
  exact ⟨f, hf, by simp [deliver, hd]⟩

section Content

variable {id : BlockID} {c : Bytes}

theorem contentBlock_fragmentLength (h0 : 0 < c.length) (hc : c.length ≤ 65535 * mtu) {i : ℕ}
    (hi : i < fragmentCount c.length) :
    ((contentBlock id c).fragmentLength i).toNat = min mtu (c.length - mtu * i) := by
  obtain ⟨hfn, hpos, hlen⟩ := calcfragments_exact h0 hc
  have hfn' : (contentBlock id c).fs.fn.toNat = fragmentCount c.length := hfn
  have hl := calcfragments_lastlen h0 (by unfold mtu at hc; omega)
  by_cases hlast : i + 1 = fragmentCount c.length
  · rw [fragmentLength_last (by rw [hfn', hlast])]
    have hlast' : (contentBlock id c).fs.lastlen.toNat = c.length - mtu * i := by
      rw [← show fragmentCount c.length - 1 = i by omega]
      exact hl
    unfold fragmentCount mtu at *
    omega
  · rw [fragmentLength_inner (by rw [hfn']; exact hlast), toNat_mtu]
    unfold fragmentCount mtu at *
    omega

theorem contentBlock_fragmentLength_pos (h0 : 0 < c.length) (hc : c.length ≤ 65535 * mtu)
    {i : ℕ} (hi : i < (contentBlock id c).fs.fn.toNat) :
    0 < ((contentBlock id c).fragmentLength i).toNat := by
  have hlt : i < fragmentCount c.length := by
    rw [← (calcfragments_exact h0 hc).1]
    exact hi
  rw [contentBlock_fragmentLength h0 hc hlt]
  unfold fragmentCount mtu at *
  omega

theorem content_of_copy (h0 : 0 < c.length) (hc : c.length ≤ 65535 * mtu) {b : Block}
    (h : CopyOf (contentBlock id c) b) (hall : ∀ i < fragmentCount c.length, b.heldAt i = true) :
    b.content.data.take c.length = c := by
  apply take_eq_of_slices (show 0 < mtu by decide)
  intro i hi
  have hlt : i < fragmentCount c.length := by
    unfold fragmentCount mtu at *
    omega
  obtain ⟨hlen, hbytes⟩ := h.same i trivial (hall i hlt)
  rw [Block.fragmentBytes, Block.fragmentBytes, hlen,
    contentBlock_fragmentLength h0 hc hlt] at hbytes
  exact hbytes

theorem fragmentCount_exact (c : Bytes) :
    c.length = mtu * fragmentCount c.length ↔ c.length % mtu = 0 := by
  unfold fragmentCount mtu
  omega

end Content

/-- The block of a cache that has received the fragments `got` of `b₀`, in this order. Its
content length is that of all fragments at MTU bytes until the last one, arriving when the
block already exists, corrects it. -/
structure Received (b₀ : Block) (got : List ℕ) (b : Block) : Prop where
  copy : CopyOf b₀ b
  held : ∀ i, b.heldAt i = decide (i ∈ got)
  size : b.content.data.length = mtu * b₀.fs.fn.toNat
  contentLength : b.content.length =
    if b₀.fs.fn.toNat - 1 ∈ got ∧ got.head? ≠ some (b₀.fs.fn.toNat - 1) then
      UInt32.ofNat ((b₀.fs.fn.toNat - 1) * mtu + b₀.fs.lastlen.toNat)
    else UInt32.ofNat (mtu * b₀.fs.fn.toNat)

section Delivery

variable {b₀ : Block} {dest : SockAddr} {cache : Cache} {i : ℕ} {a : Arrival} {got : List ℕ}

theorem deliver_first (hs : b₀.Sendable) (hi : i < b₀.fs.fn.toNat)
    (ha : sendPacket b₀ dest i = .ok a.packet) (hc : findblock cache b₀.id = none) :
    ∃ cache' b, deliver cache a = .ok cache' ∧ findblock cache' b₀.id = some b ∧
      Received b₀ [i] b := by
  obtain ⟨f, hf, hd⟩ := deliver_packet ha cache
  have hid := (sendFragment_fields hi hf).1
  obtain ⟨b, hb, hcopy, hheld, hlen, hsize⟩ := createBlock_copy cache hs hi hf a.host a.ts a.junk
  refine ⟨b :: cache, b, ?_, ?_, hcopy, ?_, hsize, ?_⟩
  · rw [hd, addfragment, hid, hc]
    simp [hb, Except.map]
  · rw [findblock_cons, if_pos hcopy.id_eq]
  · intro j
    simp [hheld]
  · have hno : ¬ (b₀.fs.fn.toNat - 1 ∈ [i] ∧ [i].head? ≠ some (b₀.fs.fn.toNat - 1)) := by
      simp [eq_comm]
    rw [hlen, if_neg hno]

theorem deliver_next (hs : b₀.Sendable) (hi : i < b₀.fs.fn.toNat)
    (ha : sendPacket b₀ dest i = .ok a.packet) {b : Block}
    (hb : findblock cache b₀.id = some b) (hgot : got ≠ []) (hr : Received b₀ got b) :
    ∃ cache' b', deliver cache a = .ok cache' ∧ findblock cache' b₀.id = some b' ∧
      Received b₀ (got ++ [i]) b' := by
  obtain ⟨f, hf, hd⟩ := deliver_packet ha cache
  have hid := (sendFragment_fields hi hf).1
  have hadd : addfragment cache f a.host a.ts a.junk = updateBlock cache b f a.host a.ts := by
    rw [addfragment, hid, hb]
  have hhead : (got ++ [i]).head? = got.head? := List.head?_append_of_ne_nil _ hgot
  by_cases hmem : i ∈ got
  · -- A duplicate: nothing changes, and the fragment was counted already.
    have hdup := updateBlock_held cache hr.copy hi hf (by rw [hr.held]; simpa using hmem) a.host a.ts
    refine ⟨cache, b, by rw [hd, hadd, hdup]; rfl, hb, hr.copy, ?_, hr.size, ?_⟩
    · intro j
      by_cases hj : j = i <;> simp [hr.held, hj, hmem]
    · have hsame : b₀.fs.fn.toNat - 1 ∈ got ++ [i] ↔ b₀.fs.fn.toNat - 1 ∈ got := by
        by_cases hl : b₀.fs.fn.toNat - 1 = i <;> simp [hl, hmem]
      rw [hr.contentLength, hhead]
      simp only [hsame]
  · obtain ⟨b', hb', hcopy, hheld, hlen, hsize⟩ := updateBlock_missing cache hs hr.copy hi hf
      (by rw [hr.held]; simpa using hmem) a.host a.ts
    obtain ⟨hfind, -⟩ := storeBlock_find hb hcopy.id_eq
    refine ⟨storeBlock cache b', b', by rw [hd, hadd, hb']; rfl, hfind, hcopy, ?_, hsize, ?_⟩
    · intro j
      by_cases hj : j = i <;> simp [hheld, hr.held, hj]
    · rw [hlen, hhead]
      by_cases hlast : i + 1 = b₀.fs.fn.toNat
      · have hil : b₀.fs.fn.toNat - 1 = i := by omega
        have hne : got.head? ≠ some i := fun h => hmem (List.mem_of_mem_head? h)
        rw [if_pos hlast, hil, if_pos ⟨by simp, hne⟩]
      · have hsame : b₀.fs.fn.toNat - 1 ∈ got ++ [i] ↔ b₀.fs.fn.toNat - 1 ∈ got := by
          have hne : b₀.fs.fn.toNat - 1 ≠ i := by omega
          simp [hne]
        rw [if_neg hlast, hr.contentLength]
        simp only [hsame]

abbrev IsPacket (b₀ : Block) (dest : SockAddr) (a : Arrival) (i : ℕ) : Prop :=
  i < b₀.fs.fn.toNat ∧ sendPacket b₀ dest i = .ok a.packet

theorem deliverAll_next (hs : b₀.Sendable) {as : List Arrival} {is : List ℕ}
    (h : List.Forall₂ (IsPacket b₀ dest) as is) {cache : Cache} {b : Block}
    (hb : findblock cache b₀.id = some b) {got : List ℕ} (hgot : got ≠ [])
    (hr : Received b₀ got b) :
    ∃ cache' b', deliverAll cache as = .ok cache' ∧ findblock cache' b₀.id = some b' ∧
      Received b₀ (got ++ is) b' := by
  induction h generalizing cache b got with
  | nil => exact ⟨cache, b, rfl, hb, by simpa using hr⟩
  | @cons a i as is ha _ ih =>
    obtain ⟨cache₁, b₁, hd, hb₁, hr₁⟩ := deliver_next hs ha.1 ha.2 hb hgot hr
    obtain ⟨cache', b', hds, hb', hr'⟩ := ih hb₁ (by simp) hr₁
    refine ⟨cache', b', ?_, hb', by simpa using hr'⟩
    rw [deliverAll, hd]
    exact hds

/-- A whole delivery sequence: the block received is determined by the fragments' numbers. -/
theorem deliverAll_received (hs : b₀.Sendable) {as : List Arrival} {is : List ℕ}
    (h : List.Forall₂ (IsPacket b₀ dest) as is) (hne : is ≠ [])
    (hc : findblock cache b₀.id = none) :
    ∃ cache' b, deliverAll cache as = .ok cache' ∧ findblock cache' b₀.id = some b ∧
      Received b₀ is b := by
  cases h with
  | nil => exact absurd rfl hne
  | @cons a i as is ha has =>
    obtain ⟨cache₁, b₁, hd, hb₁, hr₁⟩ := deliver_first hs ha.1 ha.2 hc
    obtain ⟨cache', b', hds, hb', hr'⟩ := deliverAll_next hs has hb₁ (by simp) hr₁
    refine ⟨cache', b', ?_, hb', hr'⟩
    rw [deliverAll, hd]
    exact hds

end Delivery

section Exact

variable {id : BlockID} {c : Bytes}

theorem received_exact_iff (h0 : 0 < c.length) (hc : c.length ≤ 65535 * mtu) {cache : Cache}
    {b : Block} {is : List ℕ} (hb : findblock cache id = some b)
    (hr : Received (contentBlock id c) is b) (hall : ∀ i < fragmentCount c.length, i ∈ is) :
    iscomplete cache id = true ∧
      (getBlockData cache id = .ok (some c) ↔
        c.length % mtu = 0 ∨ is.head? ≠ some (fragmentCount c.length - 1)) := by
  obtain ⟨hfn, hpos, hlast⟩ := calcfragments_exact h0 hc
  have hheld : ∀ i < fragmentCount c.length, b.heldAt i = true := fun i hi => by
    simpa [hr.held] using hall i hi
  have hfn₀ : (contentBlock id c).fs.fn.toNat = fragmentCount c.length := hfn
  have hcomplete : iscomplete cache id = true := by
    rw [iscomplete, hb]
    apply (blockComplete_iff b).mpr
    rw [hr.copy.fn_eq, hfn₀]
    exact hheld
  have hcontent := content_of_copy h0 hc hr.copy hheld
  have hle : c.length ≤ mtu * fragmentCount c.length := by unfold fragmentCount mtu; omega
  have hlen := hr.contentLength
  have hsize := hr.size
  rw [hfn₀] at hlen hsize
  refine ⟨hcomplete, ?_⟩
  by_cases hfirst : is.head? = some (fragmentCount c.length - 1)
  · -- The block was created by its last fragment: the length stays MTU for each fragment.
    have hstays : b.content.length.toNat = mtu * fragmentCount c.length := by
      rw [hlen, if_neg (by simp [hfirst]), UInt32.toNat_ofNat', Nat.mod_eq_of_lt]
      unfold fragmentCount mtu at *
      omega
    have hget : getBlockData cache id = .ok (some b.content.data) := by
      simp only [getBlockData, hb, hstays, hsize, le_refl, if_true]
      rw [← hsize, List.take_length]
    rw [hget]
    constructor
    · intro he
      have hbc : b.content.data = c := Option.some.inj (Except.ok.inj he)
      rw [hbc] at hsize
      exact Or.inl ((fragmentCount_exact c).mp hsize)
    · intro hor
      have hm := hor.resolve_right (not_not.mpr hfirst)
      rw [(fragmentCount_exact c).mpr hm, ← hsize, List.take_length] at hcontent
      rw [hcontent]
  · have hcorrected : b.content.length.toNat = c.length := by
      have hmem := hall (fragmentCount c.length - 1) (by omega)
      have hlast' : (fragmentCount c.length - 1) * mtu + (contentBlock id c).fs.lastlen.toNat =
          c.length := hlast
      rw [hlen, if_pos ⟨hmem, hfirst⟩, hlast', UInt32.toNat_ofNat', Nat.mod_eq_of_lt]
      unfold mtu at hc
      omega
    have hget : getBlockData cache id = .ok (some c) := by
      simp only [getBlockData, hb, hcorrected, hsize, hle, if_true, hcontent]
    exact ⟨fun _ => Or.inr hfirst, fun _ => hget⟩

theorem packet_indices {b : Block} {dest : SockAddr} {as : List Arrival}
    (h : ∀ a ∈ as, ∃ i, IsPacket b dest a i) :
    ∃ is, List.Forall₂ (IsPacket b dest) as is := by
  induction as with
  | nil => exact ⟨[], .nil⟩
  | cons a as ih =>
    obtain ⟨i, hi⟩ := h a (by simp)
    obtain ⟨is, his⟩ := ih (fun x hx => h x (by simp [hx]))
    exact ⟨i :: is, .cons hi his⟩

/-- Reassembly of a content of at most 65535 fragments hands the original back exactly when
its length is a multiple of MTU or the packet delivered first is not that of the last
fragment. -/
theorem reassembly_exact_iff (sender receiver : Cache) (id : BlockID) (c : Bytes)
    (dest : SockAddr) (h0 : 1 ≤ c.length) (hc : c.length ≤ 65535 * mtu)
    (hsender : findblock sender id = none) (hreceiver : findblock receiver id = none) :
    ∃ ds n, sendblock (addblock sender id c).1 id dest = .ok (ds, n) ∧
      ∀ arrivals : List Arrival, (∀ a ∈ arrivals, a.packet ∈ ds) →
        (∀ d ∈ ds, ∃ a ∈ arrivals, a.packet = d) →
        ((∃ cache, deliverAll receiver arrivals = .ok cache ∧ iscomplete cache id = true ∧
            getBlockData cache id = .ok (some c)) ↔
          (c.length % mtu = 0 ∨ arrivals.head?.map Arrival.packet ≠ ds.getLast?)) := by
  obtain ⟨hfn, hpos, -⟩ := calcfragments_exact h0 hc
  have hfn₀ : (contentBlock id c).fs.fn.toNat = fragmentCount c.length := hfn
  have hs := contentBlock_sendable id (c := c) (by unfold mtu at hc; omega)
  have hfind := findblock_addblock hsender c
  obtain ⟨ds, hds⟩ := hs.sendblock hfind dest
  obtain ⟨-, hlen, hget⟩ := sendblock_ok hfind hds
  rw [hfn₀] at hlen hget hds
  refine ⟨ds, fragmentCount c.length, hds, ?_⟩
  intro arrivals hsub hcover
  have hidx : ∀ a ∈ arrivals, ∃ i, IsPacket (contentBlock id c) dest a i := by
    intro a ha
    obtain ⟨i, hi, he⟩ := List.mem_iff_getElem.mp (hsub a ha)
    obtain ⟨d, hd, hpacket⟩ := hget i (by omega)
    rw [List.getElem?_eq_getElem hi, Option.some.injEq, he] at hd
    exact ⟨i, by rw [hfn₀]; omega, hd ▸ hpacket⟩
  obtain ⟨is, his⟩ := packet_indices hidx
  have hall : ∀ i < fragmentCount c.length, i ∈ is := by
    intro i hi
    obtain ⟨d, hd, hpacket⟩ := hget i hi
    obtain ⟨a, ha, rfl⟩ := hcover d (List.mem_of_getElem? hd)
    obtain ⟨j, hj, hja⟩ := forall₂_mem_left his ha
    rwa [sendPacket_injective (by rw [hfn₀]; exact hi) hja.1 hpacket hja.2]
  have hne : is ≠ [] := List.ne_nil_of_mem (hall 0 hpos)
  obtain ⟨cache, b, hrun, hb, hr⟩ := deliverAll_received hs his hne hreceiver
  obtain ⟨hcomplete, hexact⟩ := received_exact_iff h0 hc hb hr hall
  have hhead : is.head? ≠ some (fragmentCount c.length - 1) ↔
      arrivals.head?.map Arrival.packet ≠ ds.getLast? := by
    obtain ⟨d, hd, hpacket⟩ := hget (fragmentCount c.length - 1) (by omega)
    rw [List.getLast?_eq_getElem?, hlen, hd]
    cases his with
    | nil => simp
    | @cons a i as is ha _ =>
      simp only [List.head?_cons, Option.map_some, ne_eq, Option.some.injEq]
      refine not_congr ⟨?_, ?_⟩
      · rintro rfl
        exact Except.ok.inj (ha.2.symm.trans hpacket)
      · intro he
        rw [← he] at hpacket
        exact sendPacket_injective ha.1 (by rw [hfn₀]; omega) ha.2 hpacket
  rw [← hhead, ← hexact]
  constructor
  · rintro ⟨cache', hrun', -, hdata⟩
    rw [hrun] at hrun'
    rw [Except.ok.inj hrun']
    exact hdata
  · intro hdata
    exact ⟨cache, hrun, hcomplete, hdata⟩

end Exact

/-- A content of two whole fragments comes back, although its last packet arrives first and both
arrive twice. -/
theorem reassembly_whole_fragments :
    ∃ ds n, sendblock (addblock [] ⟨1, 1⟩ (List.replicate (2 * mtu) 7)).1 ⟨1, 1⟩ default =
        .ok (ds, n) ∧
      ∃ cache, deliverAll [contentBlock ⟨2, 1⟩ [5]]
          ((ds ++ ds).reverse.map (fun d => ⟨d, default, default, 0⟩)) = .ok cache ∧
        iscomplete cache ⟨1, 1⟩ = true ∧
        getBlockData cache ⟨1, 1⟩ = .ok (some (List.replicate (2 * mtu) 7)) := by
  obtain ⟨ds, n, hds, hexact⟩ :=
    reassembly_exact_iff [] [contentBlock ⟨2, 1⟩ [5]] ⟨1, 1⟩ (List.replicate (2 * mtu) 7) default
      (by rw [List.length_replicate]; decide) (by rw [List.length_replicate]; decide) rfl
      (by decide)
  have hwhole : (List.replicate (2 * mtu) (7 : UInt8)).length % mtu = 0 := by
    rw [List.length_replicate]
    decide
  refine ⟨ds, n, hds, (hexact _ ?_ ?_).mpr (Or.inl hwhole)⟩
  · intro a ha
    obtain ⟨d, hd, rfl⟩ := List.mem_map.mp ha
    simpa using hd
  · intro d hd
    exact ⟨_, List.mem_map.mpr ⟨d, by simpa using hd, rfl⟩, rfl⟩

/-- A content of one byte comes back as the 1400 bytes of its fragment's room. -/
theorem reassembly_one_byte :
    let received : Except Fault (Bool × Option Bytes) := do
      let (ds, _) ← sendblock (addblock [] ⟨1, 1⟩ [7]).1 ⟨1, 1⟩ default
      let cache ← deliverAll [] (ds.map (fun d => ⟨d, default, default, 0⟩))
      let data ← getBlockData cache ⟨1, 1⟩
      return (iscomplete cache ⟨1, 1⟩, data)
    received = .ok (true, some (7 :: List.replicate 1399 0)) ∧
      received ≠ .ok (true, some [7]) := by
  decide +kernel

end Bora
