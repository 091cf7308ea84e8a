import Bora.Deletion

/-! `addfragment` either leaves the cache alone or stores one fragment that was missing; what a
block holds is never written again until the block is deleted. -/
namespace Bora

open ByteMemory Checked Transition

/-- One flag goes from 0 to 1, and the fragments held before read as they did. -/
structure FirstWrite (f : FragmentData) (b b' : Block) : Prop where
  id_eq : b'.id = b.id
  fn_eq : b'.fs.fn = b.fs.fn
  missing : b.heldAt f.fragmentid.toNat = false
  held : ∀ j, b'.heldAt j = (decide (j = f.fragmentid.toNat) || b.heldAt j)
  kept : ∀ j, b.heldAt j = true → b'.fragmentBytes j = b.fragmentBytes j

/-- The cache after F_ADDED: a block of the list was updated in its place, or there was none
under the id and the new one holds this fragment only. -/
inductive AddedTo (f : FragmentData) (cache cache' : Cache) : Prop
  | updated {front back : Cache} {b b' : Block} (hold : cache = front ++ b :: back)
      (hnew : cache' = front ++ b' :: back) (hid : b.id = f.id) (hw : FirstWrite f b b')
  | created {b' : Block} (hold : f.id ∉ ids cache) (hnew : cache' = b' :: cache)
      (hid : b'.id = f.id) (hfn : b'.fs.fn = f.fragments)
      (hheld : ∀ j, b'.heldAt j = decide (j = f.fragmentid.toNat))

/-- The index is below the count of the cached block, or else below the fragment's own, and the
length is at most MTU. -/
def FragmentInRange (cache : Cache) (f : FragmentData) : Prop :=
  (match findblock cache f.id with
    | none => f.fragmentid < f.fragments
    | some b => f.fragmentid < b.fs.fn) ∧
  f.length.toNat ≤ mtu

section FirstWrite

variable {cache cache' : Cache} {f : FragmentData} {b b' : Block} {junk : UInt16} {r : AddResult}

theorem fragment_apart {i j : ℕ} {src : Bytes} (hi : i < b.fs.fn.toNat) (hne : j ≠ i)
    (hsrc : src.length ≤ mtu) :
    mtu * j + (b.fragmentLength j).toNat ≤ mtu * i ∨ mtu * i + src.length ≤ mtu * j := by
  rcases Nat.lt_or_gt_of_ne hne with hlt | hgt
  · left
    rw [fragmentLength_inner (by omega), toNat_mtu]
    exact fits_of_lt hlt
  · right
    have hfit := fits_of_lt hgt
    omega

theorem Stores.firstWrite (hs : Stores f b b') (hi : f.fragmentid.toNat < b.fs.fn.toNat)
    (hfn : b.fs.fn = f.fragments) (hmissing : b.heldAt f.fragmentid.toNat = false)
    (hlen : f.length.toNat ≤ mtu) : FirstWrite f b b' where
  id_eq := hs.id_eq
  fn_eq := hs.fn_eq
  missing := hmissing
  held := hs.held
  kept := by
    intro j hj
    have hne : j ≠ f.fragmentid.toNat := by
      rintro rfl
      rw [hmissing] at hj
      cases hj
    -- `lastlen` changes only if the fragment stored is the last, which `j` then is not.
    have hlength : b'.fragmentLength j = b.fragmentLength j := by
      rw [Block.fragmentLength, Block.fragmentLength, hs.fn_eq, hs.lastlen]
      by_cases hj : j + 1 = b.fs.fn.toNat
      · rw [if_pos hj, if_pos hj, if_neg (by rw [← hfn]; omega)]
      · rw [if_neg hj, if_neg hj]
    rw [Block.fragmentBytes, Block.fragmentBytes, hlength, hs.data]
    exact slice_memcpy_disjoint _ _ _ _ _ hs.fits
      (fragment_apart hi hne (by rw [f.data_length]; exact hlen))

theorem FragmentInRange.inBounds (h : FragmentInRange cache f) : InBounds cache f := by
  obtain ⟨hi, hlen⟩ := h
  rw [InBounds]
  split
  · rename_i hnone
    rw [hnone] at hi
    exact ⟨hi, fun _ => hlen⟩
  · rename_i b hsome
    rw [hsome] at hi
    exact ⟨hi, fun _ _ _ => hlen⟩

theorem Outcome.addedTo (h : Outcome cache f junk cache' .added) (hlen : f.length.toNat ≤ mtu) :
    AddedTo f cache cache' := by
  cases h with
  | @stored b b' hfind hi hmissing hfn _ hs =>
    have hw := hs.firstWrite hi hfn hmissing hlen
    obtain ⟨front, back, hold, hnew⟩ := FirstMatch.modify_split (fun _ => b') hfind
    rw [← findblock_id hfind, ← hs.id_eq] at hnew
    exact .updated hold hnew (findblock_id hfind) hw
  | created hfind hi _ hs =>
    refine .created (findblock_none_iff.mp hfind) rfl hs.id_eq hs.fn_eq ?_
    intro j
    rw [hs.held, emptyBlock_heldAt, Bool.or_false]

end FirstWrite

def KeepsBlock (id : BlockID) (cache : Cache) : CacheAction → Prop
  | .addfragment f _ _ _ => FragmentInRange cache f
  | .deleteblock id' => ¬ (id' = id ∧ (deleteblock cache id').2 = true)
  | .addblock _ _ => True

/-- The block is there, holds fragment `j`, and these are its bytes. -/
def HoldsBytes (cache : Cache) (id : BlockID) (j : ℕ) (bytes : Bytes) : Prop :=
  ∃ b, findblock cache id = some b ∧ b.heldAt j = true ∧ b.fragmentBytes j = bytes

section Runs

variable {cache cache' later : Cache} {f : FragmentData} {id : BlockID} {j : ℕ} {bytes : Bytes}
  {junk : UInt16} {r : AddResult}

theorem HoldsBytes.addblock (h : HoldsBytes cache id j bytes) (id' : BlockID)
    (blockdata : Bytes) : HoldsBytes (addblock cache id' blockdata).1 id j bytes := by
  obtain ⟨b, hb, hheld⟩ := h
  refine ⟨b, ?_, hheld⟩
  unfold Bora.addblock
  split
  · exact hb
  · rename_i hnone
    rw [findblock_cons]
    refine (if_neg ?_).trans hb
    rintro rfl
    rw [show (contentBlock id' blockdata).id = id' from rfl, hnone] at hb
    cases hb

theorem HoldsBytes.deleteblock (h : HoldsBytes cache id j bytes) (hd : (ids cache).Nodup)
    {id' : BlockID} (hkeep : ¬ (id' = id ∧ (deleteblock cache id').2 = true)) :
    HoldsBytes (deleteblock cache id').1 id j bytes := by
  obtain ⟨b, hb, hheld⟩ := h
  refine ⟨b, ?_, hheld⟩
  rw [deleteblock_eq hd] at hkeep ⊢
  split
  · rename_i hc
    rw [if_pos hc] at hkeep
    have hne : id ≠ id' := fun he => hkeep ⟨he.symm, rfl⟩
    exact (findblock_without hne).trans hb
  · exact hb

theorem HoldsBytes.addfragment (h : HoldsBytes cache id j bytes)
    (hout : Outcome cache f junk cache' r) (hlen : f.length.toNat ≤ mtu) :
    HoldsBytes cache' id j bytes := by
  by_cases hr : r = .added
  · subst r
    obtain ⟨b, hb, hheld, hbytes⟩ := h
    obtain ⟨b₁, b₂, hs, hfind, hother, -, hfn, hi, hmissing, hold⟩ := hout.added
    by_cases hid : id = f.id
    · subst id
      -- The block was there, so it is the one that was updated.
      obtain rfl : b₁ = b := by
        rcases hold with hsome | ⟨hnone, -⟩
        · exact Option.some.inj (hsome.symm.trans hb)
        · rw [hnone] at hb
          cases hb
      have hw := hs.firstWrite hi hfn hmissing hlen
      exact ⟨b₂, hfind, by rw [hw.held, hheld, Bool.or_true], (hw.kept j hheld).trans hbytes⟩
    · exact ⟨b, (hother id hid).trans hb, hheld, hbytes⟩
  · rwa [hout.unchanged hr]

/-- Until the block is deleted, a fragment it holds keeps its bytes. -/
theorem holdsBytes_later (hd : (ids cache).Nodup) (h : HoldsBytes cache id j bytes)
    (hrun : Reaches { blockcache with init := (· = cache) } (KeepsBlock id) later) :
    HoldsBytes later id j bytes := by
  suffices hinv : (ids later).Nodup ∧ HoldsBytes later id j bytes from hinv.2
  induction hrun with
  | init h₀ =>
    obtain rfl := h₀
    exact ⟨hd, h⟩
  | @step c c' a _ ha hstep ih =>
    obtain ⟨hd, h⟩ := ih
    cases a with
    | addblock id' blockdata =>
      cases hstep
      exact ⟨addblock_nodup hd id' blockdata, h.addblock id' blockdata⟩
    | deleteblock id' =>
      cases hstep
      exact ⟨deleteblock_nodup hd id', h.deleteblock hd ha⟩
    | addfragment f host ts junk =>
      cases hadd : Bora.addfragment c f host ts junk with
      | error e => simp [blockcache, hadd, Except.toOption] at hstep
      | ok res =>
        simp only [blockcache, hadd, Except.toOption, Option.map_some, Option.some.injEq] at hstep
        subst c'
        have hout := addfragment_outcome hadd
        exact ⟨hout.nodup hd, h.addfragment hout ha.2⟩

/-- A fragment in range is refused without a trace or stored where one was missing, and what is
held keeps its bytes until its block is deleted. -/
theorem addfragment_first_write (h : Reachable blockcache cache) :
    (∀ f host ts junk, FragmentInRange cache f →
      ∃ cache' r, Bora.addfragment cache f host ts junk = .ok (cache', r) ∧
        (r ≠ .added → cache' = cache) ∧ (r = .added → AddedTo f cache cache')) ∧
    ∀ id b j later, findblock cache id = some b → b.heldAt j = true →
      Reaches { blockcache with init := (· = cache) } (KeepsBlock id) later →
      HoldsBytes later id j (b.fragmentBytes j) := by
  constructor
  · intro f host ts junk hrange
    obtain ⟨⟨cache', r⟩, hadd⟩ : ∃ r, Bora.addfragment cache f host ts junk = .ok r :=
      (addfragment_safe_iff (blockcache_roomy h)).mpr hrange.inBounds
    have hout := addfragment_outcome hadd
    refine ⟨cache', r, hadd, hout.unchanged, ?_⟩
    rintro rfl
    exact hout.addedTo hrange.2
  · intro id b j later hb hheld hrun
    exact holdsBytes_later (blockcache_nodup h) ⟨b, hb, hheld, rfl⟩ hrun

end Runs

theorem addfragment_first_write_second :
    ∃ cache cache', blockcache.run [] [.addfragment innerFragment default default 0] = some cache ∧
      addfragment cache lastFragment default default 0 = .ok (cache', .added) ∧
      AddedTo lastFragment cache cache' ∧ HoldsBytes cache' ⟨1, 1⟩ 0 (List.replicate 1400 7) := by
  have hfirst : (blockcache.run [] [.addfragment innerFragment default default 0]).map
      (fun cache => ((findblock cache ⟨1, 1⟩).map (fun b => (b.fs.fn, b.heldAt 0, b.fragmentBytes 0)),
        (addfragment cache lastFragment default default 0).toOption.map Prod.snd)) =
          some (some (2, true, List.replicate 1400 7), some .added) := by
    decide +kernel
  obtain ⟨cache, hrun, hfirst⟩ := Option.map_eq_some_iff.mp hfirst
  obtain ⟨hfound, hresult⟩ := Prod.mk.inj hfirst
  obtain ⟨b, hfind, hb⟩ := Option.map_eq_some_iff.mp hfound
  obtain ⟨hfn, hheld, hbytes⟩ : b.fs.fn = 2 ∧ b.heldAt 0 = true ∧
      b.fragmentBytes 0 = List.replicate 1400 7 := by simpa only [Prod.mk.injEq] using hb
  have hrange : FragmentInRange cache lastFragment := by
    rw [FragmentInRange, show lastFragment.id = ⟨1, 1⟩ from rfl, hfind]
    exact ⟨show (1 : UInt16) < b.fs.fn by rw [hfn]; decide, by decide⟩
  obtain ⟨hadds, hkeeps⟩ := addfragment_first_write ((Reaches.init rfl).run hrun)
  obtain ⟨cache', r, hadd, -, hadded⟩ := hadds lastFragment default default 0 hrange
  rw [hadd] at hresult
  obtain rfl : r = .added := Option.some.inj hresult
  refine ⟨cache, cache', hrun, hadd, hadded rfl, ?_⟩
  rw [← hbytes]
  refine hkeeps ⟨1, 1⟩ b 0 cache' hfind hheld ?_
  exact .step (a := .addfragment lastFragment default default 0) (.init rfl) hrange
    (by simp only [blockcache, hadd]; rfl)

end Bora
