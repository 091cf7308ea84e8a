import Bora.IndexSafety

/-! The outcomes of `addfragment` on a header with arbitrary fields, one for each of its return
statements, and what each says of the cache afterwards. -/
namespace Bora

open ByteMemory Checked

/-- `b'` is `b` with the fragment stored: its flag, its bytes, and `lastlen` if it is the last. -/
structure Stores (f : FragmentData) (b b' : Block) : Prop where
  id_eq : b'.id = b.id
  fn_eq : b'.fs.fn = b.fs.fn
  held : ∀ j, b'.heldAt j = (decide (j = f.fragmentid.toNat) || b.heldAt j)
  fits : mtu * f.fragmentid.toNat + f.data.length ≤ b.content.data.length
  data : b'.content.data = memcpy b.content.data (mtu * f.fragmentid.toNat) f.data
  lastlen : b'.fs.lastlen =
    if f.fragmentid.toNat + 1 = f.fragments.toNat then f.length else b.fs.lastlen

section Stores

variable {f : FragmentData} {b b₁ b₂ : Block} {x : BlockFragment}

/-- The flag is set first, then the bytes are copied; `b` is the block before both, up to what
the last fragment changes in it. -/
theorem stores_of_writes {c : Block} (hx : x.held = true)
    (h₁ : c.setFragment f.fragmentid.toNat x = .ok b₁)
    (h₂ : b₁.copyIn (mtu * f.fragmentid.toNat) f.data = .ok b₂)
    (hid : c.id = b.id) (hfn : c.fs.fn = b.fs.fn) (hf : ∀ j, c.heldAt j = b.heldAt j)
    (hdata : c.content.data = b.content.data)
    (hlast : c.fs.lastlen =
      if f.fragmentid.toNat + 1 = f.fragments.toNat then f.length else b.fs.lastlen) :
    Stores f b b₂ := by
  obtain ⟨hi, -, -⟩ := Block.setFragment_ok h₁
  obtain ⟨hle, -, -⟩ := Block.copyIn_ok h₂
  obtain ⟨c₁, hc₁, hid₁, hfs₁, hcon₁, hheld₁⟩ := Block.setFragment_of_lt hi x
  obtain rfl : c₁ = b₁ := Except.ok.inj (hc₁.symm.trans h₁)
  obtain ⟨c₂, hc₂, hid₂, hfs₂, hf₂, hcon₂⟩ := Block.copyIn_of_le hle
  obtain rfl : c₂ = b₂ := Except.ok.inj (hc₂.symm.trans h₂)
  refine ⟨?_, ?_, ?_, ?_, ?_, ?_⟩
  · rw [hid₂, hid₁, hid]
  · rw [hfs₂, hfs₁, hfn]
  · intro j
    rw [Block.heldAt, hf₂, ← Block.heldAt, hheld₁]
    by_cases hj : j = f.fragmentid.toNat
    · simp [hj, hx]
    · simp [hj, hf]
  · rw [← hdata, ← hcon₁]
    exact hle
  · rw [hcon₂, hcon₁, hdata]
  · rw [hfs₂, hfs₁, hlast]

theorem Stores.fragmentBytes {b' : Block} (h : Stores f b b') (hfn : b.fs.fn = f.fragments)
    (hlen : f.fragmentid.toNat + 1 = f.fragments.toNat ∨ f.length.toNat = mtu) :
    b'.fragmentBytes f.fragmentid.toNat = f.data := by
  have hl : (b'.fragmentLength f.fragmentid.toNat).toNat = f.length.toNat := by
    by_cases hlast : f.fragmentid.toNat + 1 = f.fragments.toNat
    · rw [fragmentLength_last (by rw [h.fn_eq, hfn]; exact hlast), h.lastlen, if_pos hlast]
    · rw [fragmentLength_inner (by rw [h.fn_eq, hfn]; exact hlast), toNat_mtu,
        hlen.resolve_left hlast]
  rw [Block.fragmentBytes, h.data, hl, ← f.data_length]
  exact slice_memcpy_same _ _ _ h.fits

theorem Stores.heldAt_self {b' : Block} (h : Stores f b b') :
    b'.heldAt f.fragmentid.toNat = true := by simp [h.held]

end Stores

/-- Cache and return value after `addfragment`: the first four constructors need a block under
the id, and `created` and `refusedNew` that there is none. An index outside the array never gets
as far as the check for it. -/
inductive Outcome (cache : Cache) (f : FragmentData) (junk : UInt16) : Cache → AddResult → Prop
  | duplicate {b : Block} (hfind : findblock cache f.id = some b)
      (hheld : b.heldAt f.fragmentid.toNat = true) : Outcome cache f junk cache .duplicate
  | mismatch {b : Block} (hfind : findblock cache f.id = some b)
      (hi : f.fragmentid.toNat < b.fs.fn.toNat) (hheld : b.heldAt f.fragmentid.toNat = false)
      (hfn : b.fs.fn ≠ f.fragments) : Outcome cache f junk cache .fragmentsMismatch
  | refused {b : Block} (hfind : findblock cache f.id = some b)
      (hi : f.fragmentid.toNat < b.fs.fn.toNat) (hheld : b.heldAt f.fragmentid.toNat = false)
      (hfn : b.fs.fn = f.fragments) (hinner : f.fragmentid.toNat + 1 ≠ f.fragments.toNat)
      (hlen : f.length.toNat ≠ mtu) : Outcome cache f junk cache .badLen
  | stored {b b' : Block} (hfind : findblock cache f.id = some b)
      (hi : f.fragmentid.toNat < b.fs.fn.toNat) (hheld : b.heldAt f.fragmentid.toNat = false)
      (hfn : b.fs.fn = f.fragments)
      (hlen : f.fragmentid.toNat + 1 = f.fragments.toNat ∨ f.length.toNat = mtu)
      (hs : Stores f b b') : Outcome cache f junk (storeBlock cache b') .added
  | refusedNew (hfind : findblock cache f.id = none)
      (hi : f.fragmentid.toNat < f.fragments.toNat)
      (hinner : f.fragmentid.toNat + 1 ≠ f.fragments.toNat) (hlen : f.length.toNat ≠ mtu) :
      Outcome cache f junk cache .badLen
  | created {b' : Block} (hfind : findblock cache f.id = none)
      (hi : f.fragmentid.toNat < f.fragments.toNat)
      (hlen : f.fragmentid.toNat + 1 = f.fragments.toNat ∨ f.length.toNat = mtu)
      (hs : Stores f (emptyBlock f.id f.fragments junk) b') :
      Outcome cache f junk (b' :: cache) .added

section Outcome

variable {cache cache' : Cache} {b : Block} {f : FragmentData} {host : SockAddr} {ts : Timeval}
  {junk : UInt16} {r : AddResult}

theorem createBlock_outcome (hfind : findblock cache f.id = none)
    (h : createBlock cache f host ts junk = .ok (cache', r)) :
    Outcome cache f junk cache' r := by
  obtain ⟨b₁, hb₁, h⟩ := bind_eq_ok.mp h
  obtain ⟨hi, -, -⟩ := Block.setFragment_ok hb₁
  split at h
  · rename_i hlast
    obtain ⟨b₂, hb₂, h⟩ := bind_eq_ok.mp h
    cases h
    -- `lastlen` is written behind the flag; the writes commute.
    have hb₁' : ((emptyBlock f.id f.fragments junk).setLastlen f.length).setFragment
        f.fragmentid.toNat ⟨true, host, ts⟩ = .ok (b₁.setLastlen f.length) := by
      unfold Block.setFragment at hb₁ ⊢
      rw [if_pos hi] at hb₁
      cases hb₁
      exact if_pos hi
    exact .created hfind hi (Or.inl hlast)
      (stores_of_writes rfl hb₁' hb₂ rfl rfl (fun _ => rfl) rfl (if_pos hlast).symm)
  split at h
  · rename_i hinner hlen
    cases h
    exact .refusedNew hfind hi hinner hlen
  · rename_i hinner hlen
    obtain ⟨b₂, hb₂, h⟩ := bind_eq_ok.mp h
    cases h
    exact .created hfind hi (Or.inr (of_not_not hlen))
      (stores_of_writes rfl hb₁ hb₂ rfl rfl (fun _ => rfl) rfl (if_neg hinner).symm)

theorem updateBlock_outcome (hfind : findblock cache f.id = some b)
    (h : updateBlock cache b f host ts = .ok (cache', r)) : Outcome cache f junk cache' r := by
  obtain ⟨held, hread, h⟩ := bind_eq_ok.mp h
  unfold Block.readHave at hread
  split at hread
  · rename_i hi
    cases hread
    split at h
    · rename_i hheld
      cases h
      exact .duplicate hfind hheld
    rename_i hheld
    have hheld' : b.heldAt f.fragmentid.toNat = false := by simpa using hheld
    split at h
    · rename_i hfn
      cases h
      exact .mismatch hfind hi hheld' hfn
    rename_i hfn
    have hfn' := of_not_not hfn
    split at h
    · rename_i hbound
      rw [UInt16.le_iff_toNat_le] at hbound
      omega
    split at h
    · rename_i hbad
      cases h
      exact .refused hfind hi hheld' hfn' (by rw [← hfn']; omega) hbad.2
    · rename_i hgood
      obtain ⟨b₁, hb₁, h⟩ := bind_eq_ok.mp h
      obtain ⟨b₂, hb₂, h⟩ := bind_eq_ok.mp h
      cases h
      have hlen : f.fragmentid.toNat + 1 = f.fragments.toNat ∨ f.length.toNat = mtu := by
        by_cases hlast : f.fragmentid.toNat + 1 = f.fragments.toNat
        · exact Or.inl hlast
        · right
          by_contra hm
          exact hgood ⟨by rw [hfn'] at hi ⊢; omega, hm⟩
      refine .stored hfind hi hheld' hfn' hlen ?_
      by_cases hlast : f.fragmentid.toNat + 1 = f.fragments.toNat
      · rw [if_pos hlast] at hb₁
        exact stores_of_writes rfl hb₁ hb₂ rfl rfl (fun _ => rfl) rfl (if_pos hlast).symm
      · rw [if_neg hlast] at hb₁
        exact stores_of_writes rfl hb₁ hb₂ rfl rfl (fun _ => rfl) rfl (if_neg hlast).symm
  · cases hread

theorem addfragment_outcome (h : addfragment cache f host ts junk = .ok (cache', r)) :
    Outcome cache f junk cache' r := by
  unfold addfragment at h
  split at h
  · rename_i hfind
    exact createBlock_outcome hfind h
  · rename_i b hfind
    exact updateBlock_outcome hfind h

theorem Outcome.unchanged (h : Outcome cache f junk cache' r) (hr : r ≠ .added) :
    cache' = cache := by
  cases h with
  | duplicate => rfl
  | mismatch => rfl
  | refused => rfl
  | refusedNew => rfl
  | stored => exact absurd rfl hr
  | created => exact absurd rfl hr

/-- What a search finds after a fragment was added: its block with the fragment stored, and
under every other id what was there. -/
theorem Outcome.added (h : Outcome cache f junk cache' .added) :
    ∃ b b', Stores f b b' ∧ findblock cache' f.id = some b' ∧
      (∀ id, id ≠ f.id → findblock cache' id = findblock cache id) ∧
      (f.fragmentid.toNat + 1 = f.fragments.toNat ∨ f.length.toNat = mtu) ∧
      b.fs.fn = f.fragments ∧ f.fragmentid.toNat < b.fs.fn.toNat ∧
      b.heldAt f.fragmentid.toNat = false ∧
      (findblock cache f.id = some b ∨
        findblock cache f.id = none ∧ b = emptyBlock f.id f.fragments junk) := by
  cases h with
  | @stored b b' hfind hi hheld hfn hlen hs =>
    obtain ⟨hself, hother⟩ := storeBlock_find hfind (hs.id_eq.trans (findblock_id hfind))
    exact ⟨b, b', hs, hself, hother, hlen, hfn, hi, hheld, Or.inl hfind⟩
  | @created b' hfind hi hlen hs =>
    have hid : b'.id = f.id := hs.id_eq
    refine ⟨_, b', hs, ?_, ?_, hlen, rfl, hi, emptyBlock_heldAt _ _ _ _, Or.inr ⟨hfind, rfl⟩⟩
    · rw [findblock_cons, if_pos hid]
    · intro id hne
      rw [findblock_cons, if_neg (by rw [hid]; exact hne.symm)]

end Outcome

end Bora
