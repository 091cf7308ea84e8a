import Bora.Reassembly
import Bora.Library.Pieces

/-! The packets of a block as pieces of its content: which contents are cut without a byte
missing, repeated or read behind the end. -/
namespace Bora

open ByteMemory Checked Pieces

/-- `fn` fragments, all of MTU bytes but the last one, make up `length` bytes. -/
structure Fragments.Covers (fs : Fragments) (length : ℕ) : Prop where
  empty : length = 0 → fs.fn = 0
  fn_pos : 0 < length → 1 ≤ fs.fn.toNat
  lastlen_pos : 0 < length → 1 ≤ fs.lastlen.toNat
  lastlen_le : 0 < length → fs.lastlen.toNat ≤ mtu
  total : 0 < length → (fs.fn.toNat - 1) * mtu + fs.lastlen.toNat = length

/-- The bytes a packet carries, and where `addfragment` puts them. -/
def pieceOf (d : SendData) : Option (ℕ × Bytes) :=
  (decodeFragment d.data d.length).map (fun f => (mtu * f.fragmentid.toNat, f.data))

/-- Every packet carries a piece, and the pieces partition the content. -/
def CutFrom (c : Bytes) (ds : List SendData) : Prop :=
  ∃ pieces, ds.map pieceOf = pieces.map some ∧ Partitions c pieces

variable {id : BlockID} {c : Bytes}

theorem fragmentCount_bounds (n : ℕ) :
    (∀ i < fragmentCount n, mtu * i < n) ∧ n ≤ mtu * fragmentCount n := by
  constructor
  · intro i hi
    unfold fragmentCount mtu at *
    omega
  · unfold fragmentCount mtu
    omega

theorem calcfragments_covers {n : ℕ} (hn : n ≤ 65535 * mtu) :
    (calcfragments (UInt32.ofNat n)).Covers n := by
  by_cases h0 : n = 0
  · subst n
    exact ⟨fun _ => rfl, fun h => absurd h (by omega), fun h => absurd h (by omega),
      fun h => absurd h (by omega), fun h => absurd h (by omega)⟩
  have hpos : 0 < n := Nat.pos_of_ne_zero h0
  obtain ⟨hfn, hcount, htotal⟩ := calcfragments_exact hpos hn
  obtain ⟨hinside, hall⟩ := fragmentCount_bounds n
  have hlast := hinside (fragmentCount n - 1) (by omega)
  refine ⟨fun h => absurd h h0, fun _ => by omega, fun _ => ?_, fun _ => ?_, fun _ => ?_⟩
  · unfold mtu at *
    omega
  · unfold mtu at *
    omega
  · rw [hfn]
    exact htotal

/-- 16 bits of fragment count and a last fragment of at most MTU bytes are not enough for more. -/
theorem Fragments.Covers.le {fs : Fragments} {n : ℕ} (h : fs.Covers n) : n ≤ 65535 * mtu := by
  by_cases h0 : n = 0
  · subst n
    exact Nat.zero_le _
  have hpos : 0 < n := Nat.pos_of_ne_zero h0
  have hfn := fs.fn.toNat_lt
  have hlast := h.lastlen_le hpos
  have htotal := h.total hpos
  unfold mtu at *
  omega

theorem contentBlock_fn (hc : c.length ≤ 65535 * mtu) :
    (contentBlock id c).fs.fn.toNat = fragmentCount c.length := by
  by_cases h0 : c.length = 0
  · obtain rfl : c = [] := List.eq_nil_of_length_eq_zero h0
    rfl
  · exact (calcfragments_exact (Nat.pos_of_ne_zero h0) hc).1

theorem contentBlock_fragmentBytes (hc : c.length ≤ 65535 * mtu) {i : ℕ}
    (hi : i < fragmentCount c.length) :
    (contentBlock id c).fragmentBytes i = (c.drop (mtu * i)).take mtu := by
  have h0 : 0 < c.length := Nat.zero_lt_of_lt ((fragmentCount_bounds c.length).1 i hi)
  have hlen : ((contentBlock id c).fragmentLength i).toNat = _ :=
    contentBlock_fragmentLength h0 hc hi
  rw [Block.fragmentBytes, hlen]
  show (c.drop (mtu * i)).take (min mtu (c.length - mtu * i)) = _
  exact List.take_eq_take_iff.mpr (by rw [List.length_drop]; omega)

theorem pieceOf_sendPacket (hc : c.length ≤ 65535 * mtu) {dest : SockAddr} {i : ℕ}
    {d : SendData} (hi : i < fragmentCount c.length)
    (h : sendPacket (contentBlock id c) dest i = .ok d) :
    pieceOf d = some (mtu * i, (c.drop (mtu * i)).take mtu) := by
  obtain ⟨f, hf, hdec⟩ := sendPacket_decode h
  have hfn : i < (contentBlock id c).fs.fn.toNat := by
    rw [contentBlock_fn hc]
    exact hi
  obtain ⟨-, hid, -, -, hdata⟩ := sendFragment_fields hfn hf
  rw [pieceOf, hdec, Option.map_some, hid, hdata, contentBlock_fragmentBytes hc hi]

theorem sendblock_cut (hc : c.length ≤ 65535 * mtu) {cache : Cache}
    (hfind : findblock cache id = some (contentBlock id c)) (dest : SockAddr) :
    ∃ ds n, sendblock cache id dest = .ok (ds, n) ∧ CutFrom c ds := by
  have hsendable := contentBlock_sendable id (show c.length < 2 ^ 31 by unfold mtu at hc; omega)
  obtain ⟨ds, hds⟩ := hsendable.sendblock hfind dest
  obtain ⟨-, hlen, hpacket⟩ := sendblock_ok hfind hds
  rw [contentBlock_fn hc] at hlen hpacket
  obtain ⟨hinside, hall⟩ := fragmentCount_bounds c.length
  refine ⟨ds, _, hds, chunks mtu (fragmentCount c.length) c, ?_,
    partitions_chunks (by decide) hinside hall⟩
  apply List.ext_getElem?
  intro i
  rw [List.getElem?_map, List.getElem?_map]
  by_cases hi : i < fragmentCount c.length
  · obtain ⟨d, hd, hsend⟩ := hpacket i hi
    rw [hd, chunks_getElem? hi, Option.map_some, Option.map_some, pieceOf_sendPacket hc hi hsend]
  · rw [List.getElem?_eq_none (by omega), List.getElem?_eq_none (by simp [chunks]; omega)]
    rfl

/-- A content put by `addblock` is cut into pieces that partition it, and the numbers of
`calcfragments` say so, exactly if 65535 fragments hold it. -/
theorem content_cut_iff (cache cache' : Cache) (id : BlockID) (c : Bytes) (dest : SockAddr)
    (h : addblock cache id c = (cache', true)) :
    ((calcfragments (UInt32.ofNat c.length)).Covers c.length ∧
        ∃ ds n, sendblock cache' id dest = .ok (ds, n) ∧ CutFrom c ds) ↔
      c.length ≤ 65535 * mtu := by
  constructor
  · exact fun h => h.1.le
  · intro hle
    have hnone : findblock cache id = none := by
      cases hfind : findblock cache id with
      | none => rfl
      | some b => simp [addblock, hfind] at h
    have hfind := findblock_addblock hnone c
    rw [h] at hfind
    exact ⟨calcfragments_covers hle, sendblock_cut hle hfind dest⟩

theorem content_cut_three :
    (calcfragments 3000).Covers 3000 ∧ ∃ ds n,
      sendblock (addblock [contentBlock ⟨2, 1⟩ [5]] ⟨1, 1⟩ (List.replicate 3000 7)).1 ⟨1, 1⟩
          default = .ok (ds, n) ∧
        CutFrom (List.replicate 3000 7) ds := by
  have hadded : addblock [contentBlock ⟨2, 1⟩ [5]] ⟨1, 1⟩ (List.replicate 3000 7) =
      ((addblock [contentBlock ⟨2, 1⟩ [5]] ⟨1, 1⟩ (List.replicate 3000 7)).1, true) := by
    have hnone : findblock [contentBlock ⟨2, 1⟩ [5]] ⟨1, 1⟩ = none := by decide
    simp only [addblock, hnone]
  have hcut := (content_cut_iff _ _ ⟨1, 1⟩ (List.replicate 3000 7) default hadded).mpr
    (by rw [List.length_replicate]; decide)
  rwa [List.length_replicate] at hcut

/-- Of 65536 fragments none is counted: `addblock` takes the content, and `sendblock` finds
nothing to send. -/
theorem content_cut_wraps :
    ∃ c : Bytes, c.length = 65536 * mtu ∧ c.length < 2 ^ 31 ∧
      ∃ cache', addblock [] ⟨1, 1⟩ c = (cache', true) ∧
        calcfragments (UInt32.ofNat c.length) = ⟨0, 1400⟩ ∧
        ¬ (calcfragments (UInt32.ofNat c.length)).Covers c.length ∧
        sendblock cache' ⟨1, 1⟩ default = .ok ([], 0) ∧ ¬ CutFrom c [] := by
  obtain ⟨c, hlen⟩ : ∃ c : Bytes, c.length = 65536 * mtu :=
    ⟨List.replicate (65536 * mtu) 7, List.length_replicate⟩
  have hcalc : calcfragments (UInt32.ofNat c.length) = ⟨0, 1400⟩ := by
    rw [hlen]
    decide
  refine ⟨c, hlen, by rw [hlen]; decide, _, rfl, hcalc, ?_, ?_, ?_⟩
  · intro h
    have hle := h.le
    rw [hlen] at hle
    exact absurd hle (by decide)
  · have hfn : (contentBlock ⟨1, 1⟩ c).fs.fn = 0 := congrArg Fragments.fn hcalc
    have hfind : findblock [contentBlock ⟨1, 1⟩ c] ⟨1, 1⟩ = some (contentBlock ⟨1, 1⟩ c) :=
      findblock_addblock (show findblock [] ⟨1, 1⟩ = none from rfl) c
    simp only [sendblock, hfind, hfn]
    rfl
  · rintro ⟨pieces, hpieces, hcut⟩
    have hnil : pieces = [] := by simpa using hpieces
    have hwhole := congrArg List.length hcut.whole
    rw [hnil, hlen] at hwhole
    simp [mtu] at hwhole

end Bora
