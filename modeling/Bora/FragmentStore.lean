import Bora.Fragmentation

/-! What `addfragment` does to a block when the fragments it is given are those of one
complete block: every path keeps the cached block a partial copy of the original. -/
namespace Bora

open ByteMemory Checked

theorem Block.heldAt_lt {b : Block} {i : ℕ} (h : b.heldAt i = true) : i < b.fs.fn.toNat := by
  rw [← b.f_length]
  by_contra hi
  rw [heldAt, List.getElem?_eq_none (by omega)] at h
  simp at h

theorem Block.readHave_of_lt {b : Block} {i : ℕ} (h : i < b.fs.fn.toNat) :
    b.readHave i = .ok (b.heldAt i) := if_pos h

theorem Block.setFragment_of_lt {b : Block} {i : ℕ} (h : i < b.fs.fn.toNat)
    (x : BlockFragment) :
    ∃ b', b.setFragment i x = .ok b' ∧ b'.id = b.id ∧ b'.fs = b.fs ∧ b'.content = b.content ∧
      ∀ j, b'.heldAt j = if j = i then x.held else b.heldAt j := by
  refine ⟨_, if_pos h, rfl, rfl, rfl, ?_⟩
  intro j
  have hi : i < b.f.length := by rw [b.f_length]; exact h
  by_cases hj : j = i
  · subst j
    simp [heldAt, hi]
  · simp [heldAt, hj, List.getElem?_set_ne (Ne.symm hj)]

theorem Block.copyIn_of_le {b : Block} {off : ℕ} {src : Bytes}
    (h : off + src.length ≤ b.content.data.length) :
    ∃ b', b.copyIn off src = .ok b' ∧ b'.id = b.id ∧ b'.fs = b.fs ∧ b'.f = b.f ∧
      b'.content = { b.content with data := memcpy b.content.data off src } :=
  ⟨_, if_pos h, rfl, rfl, rfl, rfl⟩

theorem heldBelow_iff (b : Block) (n : ℕ) : heldBelow b n = true ↔ ∀ i < n, b.heldAt i = true := by
  induction n with
  | zero => simp [heldBelow]
  | succ n ih =>
    cases hn : b.heldAt n with
    | false =>
      simp only [heldBelow, hn, if_true, Bool.false_eq_true, false_iff]
      intro h
      simp [h n (by omega)] at hn
    | true =>
      simp only [heldBelow, hn, Bool.true_eq_false, if_false, ih]
      constructor
      · intro h i hi
        by_cases hin : i = n
        · rwa [hin]
        · exact h i (by omega)
      · intro h i hi
        exact h i (by omega)

theorem blockComplete_iff (b : Block) :
    blockComplete b = true ↔ ∀ i < b.fs.fn.toNat, b.heldAt i = true := heldBelow_iff b _

theorem findblock_id {cache : Cache} {id : BlockID} {b : Block}
    (h : findblock cache id = some b) : b.id = id := by simpa using List.find?_some h

theorem findblock_cons (b : Block) (cache : Cache) (id : BlockID) :
    findblock (b :: cache) id = if b.id = id then some b else findblock cache id := by
  by_cases h : b.id = id <;> simp [findblock, h]

theorem findblock_addblock {cache : Cache} {id : BlockID} (h : findblock cache id = none)
    (c : Bytes) : findblock (addblock cache id c).1 id = some (contentBlock id c) := by
  simp only [addblock, h, findblock_cons]
  exact if_pos rfl

theorem findblock_storeBlock (cache : Cache) (b : Block) (id : BlockID) :
    findblock (storeBlock cache b) id =
      if b.id = id then (findblock cache id).map (fun _ => b) else findblock cache id := by
  by_cases h : b.id = id
  · subst id
    rw [if_pos rfl]
    exact FirstMatch.find?_modify_same (by simp) cache
  · rw [if_neg h]
    apply FirstMatch.find?_modify_other
    intro x _ hx
    have hid : x.id = b.id := by simpa using hx
    simp [hid, h]

/-- `b` is shaped as a block receiving the fragments of `b₀`, and the fragments in `S`
that it holds are those of `b₀`, bytes and length. -/
structure CopyOn (S : ℕ → Prop) (b₀ b : Block) : Prop where
  id_eq : b.id = b₀.id
  fn_eq : b.fs.fn = b₀.fs.fn
  room : (∀ i < b.fs.fn.toNat, b.heldAt i = true) ∨
    b.content.data.length = mtu * b.fs.fn.toNat
  same : ∀ i, S i → b.heldAt i = true →
    b.fragmentLength i = b₀.fragmentLength i ∧ b.fragmentBytes i = b₀.fragmentBytes i

abbrev CopyOf (b₀ b : Block) : Prop := CopyOn (fun _ => True) b₀ b

variable {b₀ b : Block} {S : ℕ → Prop} {i : ℕ}

@[simp] theorem emptyBlock_heldAt (id : BlockID) (n junk : UInt16) (i : ℕ) :
    (emptyBlock id n junk).heldAt i = false := by
  by_cases h : i < n.toNat <;> simp [emptyBlock, Block.heldAt, h]

theorem emptyBlock_copyOf (b₀ : Block) (junk : UInt16) :
    CopyOf b₀ (emptyBlock b₀.id b₀.fs.fn junk) where
  id_eq := rfl
  fn_eq := rfl
  room := Or.inr (by simp [emptyBlock])
  same := by simp

theorem contentBlock_heldAt (id : BlockID) (c : Bytes) (i : ℕ) :
    (contentBlock id c).heldAt i = decide (i < (contentBlock id c).fs.fn.toNat) := by
  rw [Block.heldAt, ← Block.f_length]
  by_cases h : i < (contentBlock id c).f.length
  · simp [contentBlock, List.getElem?_replicate] at h ⊢
    simp [h]
  · rw [List.getElem?_eq_none (by omega)]
    simp [h]

theorem contentBlock_copyOf (id : BlockID) (c : Bytes) :
    CopyOf (contentBlock id c) (contentBlock id c) where
  id_eq := rfl
  fn_eq := rfl
  room := Or.inl (fun i hi => by simpa [contentBlock_heldAt] using hi)
  same := fun _ _ _ => ⟨rfl, rfl⟩

theorem CopyOn.setFragment (h : CopyOf b₀ b) (hi : i < b.fs.fn.toNat) (host : SockAddr)
    (ts : Timeval) :
    ∃ b', b.setFragment i ⟨true, host, ts⟩ = .ok b' ∧ CopyOn (· ≠ i) b₀ b' ∧ b'.fs = b.fs ∧
      b'.content = b.content ∧ ∀ j, b'.heldAt j = (decide (j = i) || b.heldAt j) := by
  obtain ⟨b', hb', hid, hfs, hcon, hheld⟩ := Block.setFragment_of_lt hi ⟨true, host, ts⟩
  have hor : ∀ j, b'.heldAt j = (decide (j = i) || b.heldAt j) := by
    intro j
    by_cases hj : j = i <;> simp [hheld, hj]
  refine ⟨b', hb', ⟨hid.trans h.id_eq, by rw [hfs]; exact h.fn_eq, ?_, ?_⟩, hfs, hcon, hor⟩
  · rw [hfs, hcon]
    refine h.room.imp_left (fun hall j hj => ?_)
    rw [hor, hall j hj, Bool.or_true]
  · intro j hj hj'
    have hold : b.heldAt j = true := by simpa [hor, hj] using hj'
    have hs := h.same j trivial hold
    simp only [Block.fragmentBytes, Block.fragmentLength, hfs, hcon] at hs ⊢
    exact hs

theorem CopyOn.setLastlen (h : CopyOn S b₀ b) : CopyOn S b₀ (b.setLastlen b₀.fs.lastlen) where
  id_eq := h.id_eq
  fn_eq := h.fn_eq
  room := h.room
  same := by
    intro j hj hheld
    obtain ⟨hlen, hbytes⟩ := h.same j hj hheld
    have hsame : (b.setLastlen b₀.fs.lastlen).fragmentLength j = b.fragmentLength j := by
      by_cases hlast : j + 1 = b.fs.fn.toNat
      · rw [hlen]
        simp [Block.fragmentLength, Block.setLastlen, hlast, ← h.fn_eq]
      · simp [Block.fragmentLength, Block.setLastlen, hlast]
    refine ⟨hsame.trans hlen, ?_⟩
    rw [← hbytes]
    simp only [Block.fragmentBytes, hsame]
    rfl

theorem CopyOn.setContentLength (h : CopyOn S b₀ b) : CopyOn S b₀ b.setContentLength where
  id_eq := h.id_eq
  fn_eq := h.fn_eq
  room := h.room
  same := h.same

/-- Copying the bytes of fragment `i` makes the copy whole again: the regions of different
fragments are disjoint, since no fragment is longer than MTU. -/
theorem CopyOn.copyIn (h : CopyOn (· ≠ i) b₀ b) (hs : b₀.Sendable)
    (hroom : b.content.data.length = mtu * b.fs.fn.toNat) (hi : i < b₀.fs.fn.toNat)
    (hlen : b.fragmentLength i = b₀.fragmentLength i) :
    ∃ b', b.copyIn (mtu * i) (b₀.fragmentBytes i) = .ok b' ∧ CopyOf b₀ b' ∧ b'.fs = b.fs ∧
      b'.content.length = b.content.length ∧ b'.f = b.f ∧
      b'.content.data.length = mtu * b₀.fs.fn.toNat := by
  have hsrc : (b₀.fragmentBytes i).length = (b₀.fragmentLength i).toNat := by
    have := hs.inBuffer i hi
    simp only [Block.fragmentBytes, slice_length]
    omega
  have hle := hs.length_le i hi
  have hfit : mtu * i + (b₀.fragmentBytes i).length ≤ b.content.data.length := by
    rw [hsrc, hroom, h.fn_eq]
    have hmul : mtu * i + mtu ≤ mtu * b₀.fs.fn.toNat := by
      rw [← Nat.mul_succ]
      exact Nat.mul_le_mul_left _ hi
    omega
  obtain ⟨b', hb', hid, hfs, hf, hcon⟩ := Block.copyIn_of_le hfit
  have hheld : ∀ j, b'.heldAt j = b.heldAt j := fun j => by rw [Block.heldAt, Block.heldAt, hf]
  have hflen : ∀ j, b'.fragmentLength j = b.fragmentLength j := fun j => by
    rw [Block.fragmentLength, Block.fragmentLength, hfs]
  have hsize : b'.content.data.length = mtu * b.fs.fn.toNat := by
    rw [hcon, memcpy_length _ _ _ hfit, hroom]
  refine ⟨b', hb', ⟨hid.trans h.id_eq, by rw [hfs]; exact h.fn_eq, Or.inr ?_, ?_⟩, hfs,
    by rw [hcon], hf, by rw [hsize, h.fn_eq]⟩
  · rw [hfs]
    exact hsize
  · intro j _ hj
    rw [hheld] at hj
    by_cases hji : j = i
    · subst j
      have hread := slice_memcpy_same _ _ _ hfit
      rw [hsrc, ← hlen] at hread
      exact ⟨(hflen i).trans hlen, by rw [Block.fragmentBytes, hflen, hcon]; exact hread⟩
    · obtain ⟨hl, hbytes⟩ := h.same j hji hj
      have hjlt := Block.heldAt_lt hj
      have hjle := hs.length_le j (by rw [← h.fn_eq]; exact hjlt)
      have hdisj : mtu * j + (b.fragmentLength j).toNat ≤ mtu * i ∨
          mtu * i + (b₀.fragmentBytes i).length ≤ mtu * j := by
        rw [hsrc, hl]
        unfold mtu at *
        omega
      refine ⟨(hflen j).trans hl, ?_⟩
      rw [Block.fragmentBytes, hflen, hcon, slice_memcpy_disjoint _ _ _ _ _ hfit hdisj]
      exact hbytes

theorem sendFragment_fields {f : FragmentData} (hi : i < b₀.fs.fn.toNat)
    (hf : sendFragment b₀ i = .ok f) :
    f.id = b₀.id ∧ f.fragmentid.toNat = i ∧ f.fragments = b₀.fs.fn ∧
      f.length = b₀.fragmentLength i ∧ f.data = b₀.fragmentBytes i := by
  obtain ⟨hid, hfid, hn, hl, hd⟩ := sendFragment_ok hf
  have hfn := b₀.fs.fn.toNat_lt
  refine ⟨hid, ?_, hn, hl, hd⟩
  rw [hfid, UInt16.toNat_ofNat', Nat.mod_eq_of_lt (by omega)]

theorem fragmentLength_last (h : i + 1 = b₀.fs.fn.toNat) :
    b₀.fragmentLength i = b₀.fs.lastlen := if_pos h

theorem fragmentLength_inner (h : i + 1 ≠ b₀.fs.fn.toNat) :
    b₀.fragmentLength i = UInt16.ofNat mtu := if_neg h

theorem toNat_mtu : (UInt16.ofNat mtu).toNat = mtu := rfl

/-- The first fragment of an id: a new block that holds this fragment only. Its content
length covers all fragments at MTU bytes each, whichever fragment came first. -/
theorem createBlock_copy (cache : Cache) (hs : b₀.Sendable) (hi : i < b₀.fs.fn.toNat)
    {f : FragmentData} (hf : sendFragment b₀ i = .ok f) (host : SockAddr) (ts : Timeval)
    (junk : UInt16) :
    ∃ b, createBlock cache f host ts junk = .ok (b :: cache, .added) ∧ CopyOf b₀ b ∧
      (∀ j, b.heldAt j = decide (j = i)) ∧
      b.content.length = UInt32.ofNat (mtu * b₀.fs.fn.toNat) ∧
      b.content.data.length = mtu * b₀.fs.fn.toNat := by
  obtain ⟨hid, hfid, hn, hlen, hdata⟩ := sendFragment_fields hi hf
  obtain ⟨b₁, hb₁, hc₁, hfs₁, hcon₁, hheld₁⟩ :=
    (emptyBlock_copyOf b₀ junk).setFragment (i := i) hi host ts
  simp only [emptyBlock_heldAt, Bool.or_false] at hheld₁
  have hroom₁ : b₁.content.data.length = mtu * b₁.fs.fn.toNat := by
    rw [hcon₁, hfs₁]
    simp [emptyBlock]
  by_cases hlast : i + 1 = b₀.fs.fn.toNat
  · have hl₁ : (b₁.setLastlen b₀.fs.lastlen).fragmentLength i = b₀.fragmentLength i := by
      rw [fragmentLength_last hlast]
      exact if_pos (by rw [hlast, ← hc₁.fn_eq]; rfl)
    obtain ⟨b₂, hb₂, hc₂, -, hlen₂, hf₂, hsize⟩ := hc₁.setLastlen.copyIn hs hroom₁ hi hl₁
    refine ⟨b₂, ?_, hc₂, ?_, ?_, hsize⟩
    · rw [← fragmentLength_last hlast, ← hlen] at hb₂
      simp [createBlock, hid, hn, hfid, hb₁, hlast, hdata, hb₂]
    · intro j
      rw [Block.heldAt, hf₂]
      exact hheld₁ j
    · rw [hlen₂]
      simp [Block.setLastlen, hcon₁, emptyBlock]
  · have hl₁ : b₁.fragmentLength i = b₀.fragmentLength i := by
      rw [fragmentLength_inner hlast, fragmentLength_inner (by rw [hc₁.fn_eq]; exact hlast)]
    obtain ⟨b₂, hb₂, hc₂, -, hlen₂, hf₂, hsize⟩ := hc₁.copyIn hs hroom₁ hi hl₁
    refine ⟨b₂, ?_, hc₂, ?_, ?_, hsize⟩
    · have hm : f.length.toNat = mtu := by rw [hlen, fragmentLength_inner hlast, toNat_mtu]
      simp [createBlock, hid, hn, hfid, hb₁, hlast, hm, hdata, hb₂]
    · intro j
      rw [Block.heldAt, hf₂]
      exact hheld₁ j
    · rw [hlen₂, hcon₁]
      rfl

theorem updateBlock_held (cache : Cache) (h : CopyOf b₀ b) (hi : i < b₀.fs.fn.toNat)
    {f : FragmentData} (hf : sendFragment b₀ i = .ok f) (hheld : b.heldAt i = true)
    (host : SockAddr) (ts : Timeval) :
    updateBlock cache b f host ts = .ok (cache, .duplicate) := by
  have hfid := (sendFragment_fields hi hf).2.1
  have hread := Block.readHave_of_lt (b := b) (i := i) (by rw [h.fn_eq]; exact hi)
  simp [updateBlock, hfid, hread, hheld]

theorem updateBlock_missing (cache : Cache) (hs : b₀.Sendable) (h : CopyOf b₀ b)
    (hi : i < b₀.fs.fn.toNat) {f : FragmentData} (hf : sendFragment b₀ i = .ok f)
    (hheld : b.heldAt i = false) (host : SockAddr) (ts : Timeval) :
    ∃ b', updateBlock cache b f host ts = .ok (storeBlock cache b', .added) ∧ CopyOf b₀ b' ∧
      (∀ j, b'.heldAt j = (decide (j = i) || b.heldAt j)) ∧
      b'.content.length =
        (if i + 1 = b₀.fs.fn.toNat then
          UInt32.ofNat ((b₀.fs.fn.toNat - 1) * mtu + b₀.fs.lastlen.toNat)
        else b.content.length) ∧
      b'.content.data.length = mtu * b₀.fs.fn.toNat := by
  obtain ⟨-, hfid, hn, hlen, hdata⟩ := sendFragment_fields hi hf
  have hib : i < b.fs.fn.toNat := by rw [h.fn_eq]; exact hi
  have hread := Block.readHave_of_lt hib
  have hroom : b.content.data.length = mtu * b.fs.fn.toNat :=
    h.room.resolve_left (fun hall => by simp [hall i hib] at hheld)
  have hbound : ¬ b₀.fs.fn ≤ f.fragmentid := by
    rw [UInt16.le_iff_toNat_le, hfid]
    omega
  by_cases hlast : i + 1 = b₀.fs.fn.toNat
  · obtain ⟨b₁, hb₁, hc₁, hfs₁, hcon₁, hheld₁⟩ :=
      h.setLastlen.setContentLength.setFragment (i := i) hib host ts
    have hl₁ : b₁.fragmentLength i = b₀.fragmentLength i := by
      rw [fragmentLength_last hlast, fragmentLength_last (by rw [hc₁.fn_eq]; exact hlast), hfs₁]
      rfl
    have hroom₁ : b₁.content.data.length = mtu * b₁.fs.fn.toNat := by
      rw [hcon₁, hfs₁]
      exact hroom
    obtain ⟨b₂, hb₂, hc₂, -, hlen₂, hf₂, hsize⟩ := hc₁.copyIn hs hroom₁ hi hl₁
    rw [← fragmentLength_last hlast, ← hlen] at hb₁
    refine ⟨b₂, ?_, hc₂, ?_, ?_, hsize⟩
    · simp [updateBlock, hfid, hread, hheld, h.fn_eq, hn, hbound, hlast, hb₁, hdata, hb₂]
    · intro j
      rw [Block.heldAt, hf₂]
      exact hheld₁ j
    · rw [hlen₂, hcon₁, if_pos hlast, ← h.fn_eq]
      rfl
  · obtain ⟨b₁, hb₁, hc₁, hfs₁, hcon₁, hheld₁⟩ := h.setFragment (i := i) hib host ts
    have hl₁ : b₁.fragmentLength i = b₀.fragmentLength i := by
      rw [fragmentLength_inner hlast, fragmentLength_inner (by rw [hc₁.fn_eq]; exact hlast)]
    have hroom₁ : b₁.content.data.length = mtu * b₁.fs.fn.toNat := by
      rw [hcon₁, hfs₁]
      exact hroom
    obtain ⟨b₂, hb₂, hc₂, -, hlen₂, hf₂, hsize⟩ := hc₁.copyIn hs hroom₁ hi hl₁
    have hm : f.length.toNat = mtu := by rw [hlen, fragmentLength_inner hlast, toNat_mtu]
    refine ⟨b₂, ?_, hc₂, ?_, ?_, hsize⟩
    · simp [updateBlock, hfid, hread, hheld, h.fn_eq, hn, hbound, hlast, hm, hb₁, hdata, hb₂]
    · intro j
      rw [Block.heldAt, hf₂]
      exact hheld₁ j
    · rw [hlen₂, hcon₁, if_neg hlast]

/-- What the cache holds under an id, if anything, is a partial copy of `b₀`. -/
def CacheCopy (b₀ : Block) (cache : Cache) : Prop :=
  ∀ b, findblock cache b₀.id = some b → CopyOf b₀ b

def cacheHolds (cache : Cache) (id : BlockID) (i : ℕ) : Bool :=
  match findblock cache id with
  | none => false
  | some b => b.heldAt i

theorem storeBlock_find {cache : Cache} {b b' : Block} {id : BlockID}
    (hb : findblock cache id = some b) (hid : b'.id = id) :
    findblock (storeBlock cache b') id = some b' ∧
      ∀ id', id' ≠ id → findblock (storeBlock cache b') id' = findblock cache id' := by
  constructor
  · rw [findblock_storeBlock, if_pos hid, hb]
    rfl
  · intro id' hne
    rw [findblock_storeBlock, if_neg (by rw [hid]; exact hne.symm)]

/-- Receiving an original fragment never faults, adds that fragment to what the cache holds
of the block, and leaves every other block as it was. -/
theorem addfragment_copy {cache : Cache} (hs : b₀.Sendable) (hc : CacheCopy b₀ cache)
    (hi : i < b₀.fs.fn.toNat) {f : FragmentData} (hf : sendFragment b₀ i = .ok f)
    (host : SockAddr) (ts : Timeval) (junk : UInt16) :
    ∃ cache' r, addfragment cache f host ts junk = .ok (cache', r) ∧
      CacheCopy b₀ cache' ∧
      (∀ j, cacheHolds cache' b₀.id j = (decide (j = i) || cacheHolds cache b₀.id j)) ∧
      (∀ id, id ≠ b₀.id → findblock cache' id = findblock cache id) ∧
      ∀ b ∈ cache', b ∈ cache ∨ CopyOf b₀ b := by
  have hid := (sendFragment_fields hi hf).1
  cases hb : findblock cache b₀.id with
  | none =>
    obtain ⟨b, hb', hcopy, hheld, -⟩ := createBlock_copy cache hs hi hf host ts junk
    have hfind : findblock (b :: cache) b₀.id = some b := by
      rw [findblock_cons, if_pos hcopy.id_eq]
    refine ⟨b :: cache, .added, by rw [addfragment, hid, hb]; exact hb', ?_, ?_, ?_, ?_⟩
    · intro x hx
      rw [hfind] at hx
      cases hx
      exact hcopy
    · intro j
      simp [cacheHolds, hfind, hb, hheld]
    · intro id hne
      rw [findblock_cons, if_neg (by rw [hcopy.id_eq]; exact hne.symm)]
    · intro x hx
      rcases List.mem_cons.mp hx with rfl | hx
      · exact Or.inr hcopy
      · exact Or.inl hx
  | some b =>
    have hcopy := hc b hb
    cases hheld : b.heldAt i with
    | true =>
      have hdup := updateBlock_held cache hcopy hi hf hheld host ts
      refine ⟨cache, .duplicate, by rw [addfragment, hid, hb]; exact hdup, hc, ?_, fun _ _ => rfl,
        fun _ hx => Or.inl hx⟩
      intro j
      by_cases hj : j = i <;> simp [cacheHolds, hb, hj, hheld]
    | false =>
      obtain ⟨b', hb', hcopy', hheld', -⟩ := updateBlock_missing cache hs hcopy hi hf hheld host ts
      obtain ⟨hfind, hother⟩ := storeBlock_find hb hcopy'.id_eq
      refine ⟨_, .added, by rw [addfragment, hid, hb]; exact hb', ?_, ?_, hother, ?_⟩
      · intro x hx
        rw [hfind] at hx
        cases hx
        exact hcopy'
      · intro j
        simp [cacheHolds, hfind, hb, hheld']
      · intro x hx
        rcases FirstMatch.mem_modify hx with hx | ⟨y, -, rfl⟩
        · exact Or.inl hx
        · exact Or.inr hcopy'

theorem CopyOn.sendFragment (h : CopyOf b₀ b) (hs : b₀.Sendable) (hi : i < b₀.fs.fn.toNat)
    (hpos : 0 < (b₀.fragmentLength i).toNat) (hheld : b.heldAt i = true) :
    sendFragment b i = sendFragment b₀ i := by
  obtain ⟨hlen, hbytes⟩ := h.same i trivial hheld
  have hin := hs.inBuffer i hi
  have hsize := congrArg List.length hbytes
  simp only [Block.fragmentBytes, slice_length, hlen] at hsize
  have hin' : mtu * i + (b.fragmentLength i).toNat ≤ b.content.data.length := by
    rw [hlen]
    omega
  rw [Bora.sendFragment, Bora.sendFragment, dif_pos hin, dif_pos hin']
  simp only [h.id_eq, h.fn_eq, hlen, hbytes]

end Bora
