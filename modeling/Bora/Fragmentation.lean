import Bora.BlockCache
import Bora.Library.Checked
import Mathlib.Tactic.Linarith

/-! How a content is cut: the arithmetic of `calcfragments`, the fragments of a block
put by `addblock`, and the packets `sendblock` makes of them. -/
namespace Bora

open ByteMemory Checked

theorem toInt_ofNat32 {n : ℕ} (hn : n < 2 ^ 31) : (UInt32.ofNat n).toInt32.toInt = n := by
  have h : (UInt32.ofNat n).toInt32.toInt = (BitVec.ofNat 32 n).toInt := rfl
  rw [h, BitVec.toInt_eq_toNat_of_lt (by simp; omega)]
  simp
  omega

theorem ofInt_natCast16 (n : ℕ) : UInt16.ofInt (n : ℤ) = UInt16.ofNat n := by
  apply UInt16.toNat_inj.mp
  rw [UInt16.toNat_ofNat']
  simp [UInt16.ofInt]
  omega

theorem calcfragments_ofNat {n : ℕ} (hn : n < 2 ^ 31) :
    calcfragments (UInt32.ofNat n) =
      if n = 0 then ⟨0, 0⟩
      else if n % mtu ≠ 0 then ⟨UInt16.ofNat (n / mtu) + 1, UInt16.ofNat (n % mtu)⟩
      else ⟨UInt16.ofNat (n / mtu), UInt16.ofNat mtu⟩ := by
  have hz : UInt32.ofNat n < 1 ↔ n = 0 := by
    rw [UInt32.lt_iff_toNat_lt, UInt32.toNat_ofNat', UInt32.toNat_one,
      Nat.mod_eq_of_lt (by omega)]
    omega
  have hq : ((n : ℤ).tdiv (mtu : ℤ)) = ((n / mtu : ℕ) : ℤ) := Int.ofNat_tdiv n mtu |>.symm
  have hr : ((n : ℤ).tmod (mtu : ℤ)) = ((n % mtu : ℕ) : ℤ) := Int.ofNat_tmod n mtu |>.symm
  have hrz : ((n % mtu : ℕ) : ℤ) ≠ 0 ↔ n % mtu ≠ 0 := by omega
  simp only [calcfragments, hz, toInt_ofNat32 hn, hq, hr, hrz, ofInt_natCast16]

/-- The number of pieces of at most MTU bytes in a content of `n` bytes. -/
def fragmentCount (n : ℕ) : ℕ := (n + (mtu - 1)) / mtu

theorem calcfragments_fn {n : ℕ} (hn : n < 2 ^ 31) :
    (calcfragments (UInt32.ofNat n)).fn.toNat = fragmentCount n % 2 ^ 16 := by
  rw [calcfragments_ofNat hn, fragmentCount]
  by_cases h0 : n = 0
  · subst n
    rfl
  · by_cases hm : n % mtu = 0
    · have hc : (n + (mtu - 1)) / mtu = n / mtu := by unfold mtu at *; omega
      rw [if_neg h0, if_neg (not_not.mpr hm), hc, UInt16.toNat_ofNat']
    · have hc : (n + (mtu - 1)) / mtu = n / mtu + 1 := by unfold mtu at *; omega
      rw [if_neg h0, if_pos hm, hc, UInt16.toNat_add, UInt16.toNat_ofNat', UInt16.toNat_one]
      omega

theorem calcfragments_lastlen {n : ℕ} (h0 : 0 < n) (hn : n < 2 ^ 31) :
    (calcfragments (UInt32.ofNat n)).lastlen.toNat = n - mtu * (fragmentCount n - 1) := by
  rw [calcfragments_ofNat hn, fragmentCount, if_neg (by omega)]
  by_cases hm : n % mtu = 0
  · rw [if_neg (not_not.mpr hm), UInt16.toNat_ofNat']
    unfold mtu at *
    omega
  · rw [if_pos hm, UInt16.toNat_ofNat']
    unfold mtu at *
    omega

theorem calcfragments_exact {n : ℕ} (h0 : 0 < n) (hn : n ≤ 65535 * mtu) :
    (calcfragments (UInt32.ofNat n)).fn.toNat = fragmentCount n ∧ 0 < fragmentCount n ∧
      (fragmentCount n - 1) * mtu + (calcfragments (UInt32.ofNat n)).lastlen.toNat = n := by
  have hf := calcfragments_fn (n := n) (by unfold mtu at hn; omega)
  have hl := calcfragments_lastlen h0 (by unfold mtu at hn; omega)
  rw [hf, hl]
  unfold fragmentCount mtu at *
  omega

/-- Every fragment lies in the buffer and has at most MTU bytes. -/
structure Block.Sendable (b : Block) : Prop where
  length_le : ∀ i < b.fs.fn.toNat, (b.fragmentLength i).toNat ≤ mtu
  inBuffer : ∀ i < b.fs.fn.toNat,
    mtu * i + (b.fragmentLength i).toNat ≤ b.content.data.length

theorem contentBlock_sendable (id : BlockID) {c : Bytes} (hc : c.length < 2 ^ 31) :
    (contentBlock id c).Sendable := by
  have hf := calcfragments_fn hc
  have key : ∀ i < (contentBlock id c).fs.fn.toNat,
      ((contentBlock id c).fragmentLength i).toNat ≤ mtu ∧
        mtu * i + ((contentBlock id c).fragmentLength i).toNat ≤ c.length := by
    intro i hi
    have hi' : i < fragmentCount c.length % 2 ^ 16 := by rwa [← hf]
    have h0 : 0 < c.length := by
      by_contra h
      simp [Nat.le_zero.mp (Nat.not_lt.mp h), fragmentCount, mtu] at hi'
    have hl := calcfragments_lastlen h0 hc
    by_cases hlast : i + 1 = (contentBlock id c).fs.fn.toNat
    · have he : (contentBlock id c).fragmentLength i =
          (calcfragments (UInt32.ofNat c.length)).lastlen := if_pos hlast
      rw [he, hl]
      unfold fragmentCount mtu at *
      omega
    · have he : (contentBlock id c).fragmentLength i = UInt16.ofNat mtu := if_neg hlast
      have hfn : (contentBlock id c).fs.fn.toNat = fragmentCount c.length % 2 ^ 16 := hf
      rw [he, UInt16.toNat_ofNat']
      unfold fragmentCount mtu at *
      omega
  exact ⟨fun i hi => (key i hi).1, fun i hi => (key i hi).2⟩

theorem sendFragment_ok {b : Block} {i : ℕ} {f : FragmentData} (h : sendFragment b i = .ok f) :
    f.id = b.id ∧ f.fragmentid = UInt16.ofNat i ∧ f.fragments = b.fs.fn ∧
      f.length = b.fragmentLength i ∧ f.data = b.fragmentBytes i := by
  unfold sendFragment at h
  split at h
  · cases h
    exact ⟨rfl, rfl, rfl, rfl, rfl⟩
  · cases h

theorem Block.Sendable.sendFragment {b : Block} (h : b.Sendable) {i : ℕ}
    (hi : i < b.fs.fn.toNat) : ∃ f, sendFragment b i = .ok f := ⟨_, dif_pos (h.inBuffer i hi)⟩

theorem sendPacket_ok {b : Block} {dest : SockAddr} {i : ℕ} {d : SendData}
    (h : sendPacket b dest i = .ok d) :
    ∃ f, sendFragment b i = .ok f ∧ d.data = fragmentPacket blkBlockAck f ∧ d.dest = dest := by
  obtain ⟨f, hf, h⟩ := bind_eq_ok.mp h
  obtain ⟨e, he, h⟩ := bind_eq_ok.mp h
  have hd := (encodeFragment_ok he).1
  cases h
  refine ⟨f, hf, ?_, rfl⟩
  rw [SendData.setFlags_data, SendData.setDest_data, hd, fragmentPacket_set]

theorem sendPacket_flags {b : Block} {dest : SockAddr} {i : ℕ} {d : SendData}
    (h : sendPacket b dest i = .ok d) : d.flags = blkBlockAck := by
  obtain ⟨f, -, hdata, -⟩ := sendPacket_ok h
  rw [SendData.flags, hdata]
  simpa using fragmentPacket_flags blkBlockAck f []

theorem Block.Sendable.sendPacket {b : Block} (h : b.Sendable) (dest : SockAddr) {i : ℕ}
    (hi : i < b.fs.fn.toNat) : ∃ d, sendPacket b dest i = .ok d := by
  obtain ⟨f, hf⟩ := h.sendFragment hi
  have hlen : f.length = b.fragmentLength i := (sendFragment_ok hf).2.2.2.1
  have hle := h.length_le i hi
  obtain ⟨e, he, _⟩ := encodeFragment_of_le f
    (by rw [hlen]; unfold headerSize packetSize mtu at *; omega)
  refine ⟨(e.setDest dest).setFlags blkBlockAck, ?_⟩
  simp [Bora.sendPacket, hf, he]

theorem Block.Sendable.sendblock {b : Block} (h : b.Sendable) {cache : Cache} {id : BlockID}
    (hb : findblock cache id = some b) (dest : SockAddr) :
    ∃ ds, sendblock cache id dest = .ok (ds, b.fs.fn.toNat) := by
  have hsome : ∀ i ∈ List.range b.fs.fn.toNat, ∃ d, Bora.sendPacket b dest i = .ok d :=
    fun i hi => h.sendPacket dest (List.mem_range.mp hi)
  obtain ⟨ds, hds⟩ := exists_mapM_ok hsome
  exact ⟨ds, by simp [Bora.sendblock, hb, hds]⟩

theorem sendblock_ok {cache : Cache} {id : BlockID} {b : Block} {dest : SockAddr}
    {ds : List SendData} {n : ℕ} (hb : findblock cache id = some b)
    (h : sendblock cache id dest = .ok (ds, n)) :
    n = b.fs.fn.toNat ∧ ds.length = n ∧
      ∀ i < n, ∃ d, ds[i]? = some d ∧ sendPacket b dest i = .ok d := by
  simp only [sendblock, hb] at h
  obtain ⟨es, he, h⟩ := bind_eq_ok.mp h
  cases h
  have hl := mapM_ok_length he
  rw [List.length_range] at hl
  refine ⟨rfl, hl, ?_⟩
  intro i hi
  exact mapM_ok_getElem? he (by rw [List.getElem?_range hi])

end Bora
