import Bora.FragmentStore
import Bora.Library.Transition

/-! Index safety of the cache: for a header with arbitrary fields, on any cache that the
operations can build, the exact condition under which no access leaves its object. -/
namespace Bora

open ByteMemory Checked Transition

inductive CacheAction
  | addblock (id : BlockID) (blockdata : Bytes)
  | deleteblock (id : BlockID)
  | addfragment (fragment : FragmentData) (host : SockAddr) (ts : Timeval) (junk : UInt16)

/-- A call that faults has no state after it. -/
def blockcache : System Cache CacheAction where
  init cache := cache = []
  step cache
    | .addblock id blockdata => some (addblock cache id blockdata).1
    | .deleteblock id => some (deleteblock cache id).1
    | .addfragment fragment host ts junk =>
      (addfragment cache fragment host ts junk).toOption.map Prod.fst

/-- A block with a missing fragment was received, and its buffer has room for all of them. -/
def Block.Roomy (b : Block) : Prop :=
  (∀ i < b.fs.fn.toNat, b.heldAt i = true) ∨ b.content.data.length = mtu * b.fs.fn.toNat

def RoomyCache (cache : Cache) : Prop := ∀ b ∈ cache, b.Roomy

section Inversion

variable {b b' : Block} {i off : ℕ} {x : BlockFragment} {src : Bytes}

theorem Block.setFragment_ok (h : b.setFragment i x = .ok b') :
    i < b.fs.fn.toNat ∧ b'.fs = b.fs ∧ b'.content = b.content := by
  unfold setFragment at h
  split at h
  · rename_i hi
    cases h
    exact ⟨hi, rfl, rfl⟩
  · cases h

theorem Block.copyIn_ok (h : b.copyIn off src = .ok b') :
    off + src.length ≤ b.content.data.length ∧ b'.fs = b.fs ∧
      b'.content.data.length = b.content.data.length := by
  unfold copyIn at h
  split at h
  · rename_i hle
    cases h
    exact ⟨hle, rfl, memcpy_length _ _ _ hle⟩
  · cases h

end Inversion

section Received

variable {cache : Cache} {b : Block} {f : FragmentData} {host : SockAddr} {ts : Timeval}
  {junk : UInt16}

theorem fits_iff {i n l : ℕ} (hi : i + 1 = n) : mtu * i + l ≤ mtu * n ↔ l ≤ mtu := by
  rw [← hi, Nat.mul_succ]
  omega

theorem fits_of_lt {i n : ℕ} (hi : i < n) : mtu * i + mtu ≤ mtu * n := by
  rw [← Nat.mul_succ]
  exact Nat.mul_le_mul_left _ hi

/-- The creating path stays in bounds exactly when the index is below the count it came
with and a last fragment is no longer than MTU. -/
theorem createBlock_safe_iff :
    (∃ r, createBlock cache f host ts junk = .ok r) ↔
      f.fragmentid.toNat < f.fragments.toNat ∧
        (f.fragmentid.toNat + 1 = f.fragments.toNat → f.length.toNat ≤ mtu) := by
  have hsize : (emptyBlock f.id f.fragments junk).content.data.length =
      mtu * f.fragments.toNat := by simp [emptyBlock]
  constructor
  · rintro ⟨r, hr⟩
    obtain ⟨b, hb, hr⟩ := bind_eq_ok.mp hr
    obtain ⟨hi, hfs, hcon⟩ := Block.setFragment_ok hb
    refine ⟨hi, fun hlast => ?_⟩
    simp only [hlast, if_true] at hr
    obtain ⟨b', hb', -⟩ := bind_eq_ok.mp hr
    have hfit := (Block.copyIn_ok hb').1
    rw [f.data_length, show (b.setLastlen f.length).content = b.content from rfl, hcon, hsize]
      at hfit
    exact (fits_iff hlast).mp hfit
  · rintro ⟨hi, hlast⟩
    obtain ⟨b, hb, -, hfs, hcon, -⟩ := Block.setFragment_of_lt
      (b := emptyBlock f.id f.fragments junk) hi ⟨true, host, ts⟩
    by_cases hl : f.fragmentid.toNat + 1 = f.fragments.toNat
    · have hfit : mtu * f.fragmentid.toNat + f.data.length ≤
          (b.setLastlen f.length).content.data.length := by
        rw [f.data_length, show (b.setLastlen f.length).content = b.content from rfl, hcon, hsize]
        exact (fits_iff hl).mpr (hlast hl)
      obtain ⟨b', hb', -⟩ := Block.copyIn_of_le hfit
      exact ⟨_, by simp [createBlock, hb, hl, hb']; rfl⟩
    · by_cases hm : f.length.toNat = mtu
      · have hfit : mtu * f.fragmentid.toNat + f.data.length ≤ b.content.data.length := by
          rw [f.data_length, hm, hcon, hsize]
          exact fits_of_lt hi
        obtain ⟨b', hb', -⟩ := Block.copyIn_of_le hfit
        exact ⟨_, by simp [createBlock, hb, hl, hm, hb']; rfl⟩
      · exact ⟨_, by simp [createBlock, hb, hl, hm]; rfl⟩

/-- The updating path reads the flag before it checks the index. -/
theorem updateBlock_bounds (hroom : b.Roomy) {r : Cache × AddResult}
    (hr : updateBlock cache b f host ts = .ok r) :
    f.fragmentid.toNat < b.fs.fn.toNat ∧
      (b.heldAt f.fragmentid.toNat = false → b.fs.fn = f.fragments →
        f.fragmentid.toNat + 1 = f.fragments.toNat → f.length.toNat ≤ mtu) := by
  obtain ⟨held, hread, hr⟩ := bind_eq_ok.mp hr
  unfold Block.readHave at hread
  split at hread
  · rename_i hi
    refine ⟨hi, fun hheld hfn hlast => ?_⟩
    have hsize := hroom.resolve_left (fun hall => by simp [hall _ hi] at hheld)
    cases hread
    have hle : ¬ f.fragments ≤ f.fragmentid := by
      rw [UInt16.le_iff_toNat_le]
      omega
    simp only [hheld, hfn, hlast, hle, ne_eq, not_true_eq_false, if_false, lt_irrefl, false_and,
      Bool.false_eq_true, if_true] at hr
    obtain ⟨b₁, hb₁, hr⟩ := bind_eq_ok.mp hr
    obtain ⟨b₂, hb₂, -⟩ := bind_eq_ok.mp hr
    have hfit := (Block.copyIn_ok hb₂).1
    rw [(Block.setFragment_ok hb₁).2.2, f.data_length] at hfit
    have hsame : (b.setLastlen f.length).setContentLength.content.data = b.content.data := rfl
    rw [hsame, hsize, hfn] at hfit
    exact (fits_iff hlast).mp hfit
  · cases hread

theorem updateBlock_safe (hroom : b.Roomy) (hi : f.fragmentid.toNat < b.fs.fn.toNat)
    (hlast : b.heldAt f.fragmentid.toNat = false → b.fs.fn = f.fragments →
      f.fragmentid.toNat + 1 = f.fragments.toNat → f.length.toNat ≤ mtu) :
    ∃ r, updateBlock cache b f host ts = .ok r := by
  have hread := Block.readHave_of_lt hi
  cases hheld : b.heldAt f.fragmentid.toNat with
  | true => exact ⟨_, by simp [updateBlock, hread, hheld]; rfl⟩
  | false =>
    have hsize := hroom.resolve_left (fun hall => by simp [hall _ hi] at hheld)
    by_cases hfn : b.fs.fn = f.fragments
    · have hle : ¬ f.fragments ≤ f.fragmentid := by
        rw [UInt16.le_iff_toNat_le, ← hfn]
        omega
      by_cases hl : f.fragmentid.toNat + 1 = f.fragments.toNat
      · obtain ⟨b₁, hb₁, -, -, hcon, -⟩ := Block.setFragment_of_lt
          (b := (b.setLastlen f.length).setContentLength) hi ⟨true, host, ts⟩
        have hfit : mtu * f.fragmentid.toNat + f.data.length ≤ b₁.content.data.length := by
          have hsame : (b.setLastlen f.length).setContentLength.content.data = b.content.data :=
            rfl
          rw [f.data_length, hcon, hsame, hsize, hfn]
          exact (fits_iff hl).mpr (hlast hheld hfn hl)
        obtain ⟨b₂, hb₂, -⟩ := Block.copyIn_of_le hfit
        exact ⟨_, by simp [updateBlock, hread, hheld, hfn, hle, hl, hb₁, hb₂]; rfl⟩
      · by_cases hm : f.length.toNat = mtu
        · obtain ⟨b₁, hb₁, -, -, hcon, -⟩ := Block.setFragment_of_lt hi ⟨true, host, ts⟩
          have hfit : mtu * f.fragmentid.toNat + f.data.length ≤ b₁.content.data.length := by
            rw [f.data_length, hm, hcon, hsize]
            exact fits_of_lt hi
          obtain ⟨b₂, hb₂, -⟩ := Block.copyIn_of_le hfit
          exact ⟨_, by simp [updateBlock, hread, hheld, hfn, hle, hl, hm, hb₁, hb₂]; rfl⟩
        · have hinner : f.fragmentid.toNat + 1 < f.fragments.toNat := by
            rw [hfn] at hi
            omega
          exact ⟨_, by simp [updateBlock, hread, hheld, hfn, hle, hinner, hm]; rfl⟩
    · exact ⟨_, by simp [updateBlock, hread, hheld, hfn]; rfl⟩

theorem updateBlock_safe_iff (hroom : b.Roomy) :
    (∃ r, updateBlock cache b f host ts = .ok r) ↔
      f.fragmentid.toNat < b.fs.fn.toNat ∧
        (b.heldAt f.fragmentid.toNat = false → b.fs.fn = f.fragments →
          f.fragmentid.toNat + 1 = f.fragments.toNat → f.length.toNat ≤ mtu) :=
  ⟨fun ⟨_, hr⟩ => updateBlock_bounds hroom hr, fun h => updateBlock_safe hroom h.1 h.2⟩

theorem consecutivesBelow_safe {n : ℕ} (h : n ≤ b.fs.fn.toNat) :
    ∃ k, consecutivesBelow b n = .ok k := by
  induction n with
  | zero => exact ⟨0, rfl⟩
  | succ n ih =>
    obtain ⟨k, hk⟩ := ih (by omega)
    have hread := Block.readHave_of_lt (b := b) (i := n) (by omega)
    cases hheld : b.heldAt n with
    | true => exact ⟨k + 1, by simp [consecutivesBelow, hread, hheld, hk]⟩
    | false => exact ⟨0, by simp [consecutivesBelow, hread, hheld]⟩

theorem createBlock_roomy {res : AddResult} {cache' : Cache}
    (h : createBlock cache f host ts junk = .ok (cache', res)) :
    ∀ b ∈ cache', b ∈ cache ∨ b.Roomy := by
  obtain ⟨b₁, hb₁, h⟩ := bind_eq_ok.mp h
  obtain ⟨-, hfs₁, hcon₁⟩ := Block.setFragment_ok hb₁
  have hcons : ∀ b', b'.fs.fn = b₁.fs.fn → b'.content.data.length = b₁.content.data.length →
      ∀ b ∈ b' :: cache, b ∈ cache ∨ b.Roomy := by
    intro b' hfn hlen b hb
    rcases List.mem_cons.mp hb with rfl | hb
    · refine Or.inr (Or.inr ?_)
      rw [hlen, hcon₁, hfn, hfs₁]
      simp [emptyBlock]
    · exact Or.inl hb
  split at h
  · obtain ⟨b₂, hb₂, h⟩ := bind_eq_ok.mp h
    obtain ⟨-, hfs₂, hlen₂⟩ := Block.copyIn_ok hb₂
    cases h
    exact hcons b₂ (by rw [hfs₂]; rfl) hlen₂
  · split at h
    · cases h
      exact fun b hb => Or.inl hb
    · obtain ⟨b₂, hb₂, h⟩ := bind_eq_ok.mp h
      obtain ⟨-, hfs₂, hlen₂⟩ := Block.copyIn_ok hb₂
      cases h
      exact hcons b₂ (by rw [hfs₂]) hlen₂

theorem updateBlock_roomy (hroom : b.Roomy) {res : AddResult} {cache' : Cache}
    (h : updateBlock cache b f host ts = .ok (cache', res)) :
    ∀ b ∈ cache', b ∈ cache ∨ b.Roomy := by
  obtain ⟨held, hread, h⟩ := bind_eq_ok.mp h
  unfold Block.readHave at hread
  split at hread
  · rename_i hi
    cases hheld : b.heldAt f.fragmentid.toNat with
    | true =>
      rw [hheld] at hread
      cases hread
      cases h
      exact fun b hb => Or.inl hb
    | false =>
      rw [hheld] at hread
      cases hread
      have hsize := hroom.resolve_left (fun hall => by simp [hall _ hi] at hheld)
      simp only [Bool.false_eq_true, if_false] at h
      split at h
      · cases h
        exact fun b hb => Or.inl hb
      split at h
      · cases h
        exact fun b hb => Or.inl hb
      split at h
      · cases h
        exact fun b hb => Or.inl hb
      obtain ⟨b₁, hb₁, h⟩ := bind_eq_ok.mp h
      obtain ⟨b₂, hb₂, h⟩ := bind_eq_ok.mp h
      obtain ⟨-, hfs₁, hcon₁⟩ := Block.setFragment_ok hb₁
      obtain ⟨-, hfs₂, hlen₂⟩ := Block.copyIn_ok hb₂
      cases h
      intro x hx
      rcases FirstMatch.mem_modify hx with hx | ⟨y, -, rfl⟩
      · exact Or.inl hx
      · -- Neither the count nor the size of the buffer changes on this path.
        refine Or.inr (Or.inr ?_)
        rw [hlen₂, hcon₁, hfs₂, hfs₁]
        split <;> exact hsize
  · cases hread

theorem addfragment_roomy (hroom : RoomyCache cache) {res : AddResult} {cache' : Cache}
    (h : addfragment cache f host ts junk = .ok (cache', res)) : RoomyCache cache' := by
  have key : ∀ b ∈ cache', b ∈ cache ∨ b.Roomy := by
    unfold addfragment at h
    split at h
    · exact createBlock_roomy h
    · rename_i b hb
      exact updateBlock_roomy (hroom b (List.mem_of_find?_eq_some hb)) h
  exact fun b hb => (key b hb).elim (hroom b) id

theorem deleteAfter_sublist {id : BlockID} {rest rest' : List Block}
    (h : deleteAfter id rest = some rest') : rest'.Sublist rest := by
  induction rest generalizing rest' with
  | nil => cases h
  | cons current rest ih =>
    simp only [deleteAfter] at h
    split at h
    · cases h
      exact List.sublist_cons_self _ _
    · obtain ⟨kept, hk, rfl⟩ := Option.map_eq_some_iff.mp h
      exact (ih hk).cons_cons current

theorem deleteblock_sublist (cache : Cache) (id : BlockID) :
    (deleteblock cache id).1.Sublist cache := by
  cases cache with
  | nil => exact List.Sublist.refl _
  | cons prev rest =>
    simp only [deleteblock]
    cases h : deleteAfter id rest with
    | none => exact List.Sublist.refl _
    | some rest' => exact (deleteAfter_sublist h).cons_cons prev

theorem deleteblock_subset (cache : Cache) (id : BlockID) :
    ∀ b ∈ (deleteblock cache id).1, b ∈ cache := fun _ hb => (deleteblock_sublist cache id).mem hb

theorem contentBlock_roomy (id : BlockID) (c : Bytes) : (contentBlock id c).Roomy :=
  Or.inl (fun i hi => by simpa [contentBlock_heldAt] using hi)

theorem blockcache_roomy (h : Reachable blockcache cache) : RoomyCache cache := by
  apply h.invariant
  · rintro _ rfl
    simp [RoomyCache]
  · intro cache a cache' hroom _ hstep
    cases a with
    | addblock id blockdata =>
      cases hstep
      intro b hb
      unfold addblock at hb
      split at hb
      · exact hroom b hb
      · rcases List.mem_cons.mp hb with rfl | hb
        · exact contentBlock_roomy id blockdata
        · exact hroom b hb
    | deleteblock id =>
      cases hstep
      exact fun b hb => hroom b (deleteblock_subset cache id b hb)
    | addfragment fragment host ts junk =>
      cases hadd : addfragment cache fragment host ts junk with
      | error e => simp [blockcache, hadd, Except.toOption] at hstep
      | ok r =>
        simp only [blockcache, hadd, Except.toOption, Option.map_some, Option.some.injEq] at hstep
        rw [← hstep]
        exact addfragment_roomy hroom hadd

/-- What the index and the length of a fragment must satisfy: for an id the cache does not
hold against the header's own count, otherwise against the count of the cached block. -/
def InBounds (cache : Cache) (f : FragmentData) : Prop :=
  match findblock cache f.id with
  | none => f.fragmentid < f.fragments ∧
      (f.fragmentid.toNat + 1 = f.fragments.toNat → f.length.toNat ≤ mtu)
  | some b => f.fragmentid < b.fs.fn ∧
      (b.heldAt f.fragmentid.toNat = false → b.fs.fn = f.fragments →
        f.fragmentid.toNat + 1 = f.fragments.toNat → f.length.toNat ≤ mtu)

theorem addfragment_safe_iff (hroom : RoomyCache cache) :
    (∃ r, addfragment cache f host ts junk = .ok r) ↔ InBounds cache f := by
  rw [addfragment, InBounds]
  cases hb : findblock cache f.id with
  | none => simp only [createBlock_safe_iff, UInt16.lt_iff_toNat_lt]
  | some b =>
    simp only [updateBlock_safe_iff (hroom b (List.mem_of_find?_eq_some hb)),
      UInt16.lt_iff_toNat_lt]

theorem getConsecutives_safe (hin : InBounds cache f) :
    ∃ n, getConsecutives cache f.fragmentID = .ok n := by
  have hid : f.fragmentID.id = f.id := rfl
  rw [getConsecutives, hid]
  rw [InBounds] at hin
  cases hb : findblock cache f.id with
  | none => exact ⟨0, rfl⟩
  | some b =>
    simp only [hb] at hin
    obtain ⟨k, hk⟩ := consecutivesBelow_safe (b := b) (UInt16.lt_iff_toNat_lt.mp hin.1).le
    exact ⟨UInt16.ofNat k, map_eq_ok.mpr ⟨k, hk, rfl⟩⟩

/-- On every reachable cache and for every datagram that decodes, `addfragment` and
`get_consecutives` stay inside the fragment array and the content buffer exactly when the
fragment is in bounds. -/
theorem datagram_safe_iff (h : Reachable blockcache cache) {blob : Bytes} {l : ℕ}
    (hd : decodeFragment blob l = some f) (host : SockAddr) (ts : Timeval) (junk : UInt16) :
    ((∃ r, addfragment cache f host ts junk = .ok r) ∧
      ∃ n, getConsecutives cache (getFragmentId blob l) = .ok n) ↔ InBounds cache f := by
  rw [getFragmentId_decode hd, addfragment_safe_iff (blockcache_roomy h)]
  exact ⟨fun hsafe => hsafe.1, fun hin => ⟨hin, getConsecutives_safe hin⟩⟩

end Received

def innerFragment : FragmentData where
  streamid := 1
  blockid := 1
  fragmentid := 0
  fragments := 2
  length := 1400
  data := List.replicate 1400 7
  data_length := List.length_replicate

def lastFragment : FragmentData := ⟨1, 1, 1, 2, 2, [5, 9], rfl⟩

theorem datagram_safe_second :
    ∃ cache r n, blockcache.run [] [.addfragment innerFragment default default 0] = some cache ∧
      addfragment cache lastFragment default default 0 = .ok r ∧
      getConsecutives cache (getFragmentId (fragmentPacket blkBlock lastFragment) 15) = .ok n := by
  have hfirst : (blockcache.run [] [.addfragment innerFragment default default 0]).map
      (fun cache => (findblock cache ⟨1, 1⟩).map (fun b => b.fs.fn)) = some (some 2) := by
    decide +kernel
  obtain ⟨cache, hrun, hfound⟩ := Option.map_eq_some_iff.mp hfirst
  obtain ⟨b, hfind, hfn⟩ := Option.map_eq_some_iff.mp hfound
  have hd : decodeFragment (fragmentPacket blkBlock lastFragment) 15 = some lastFragment := by
    decide
  have hin : InBounds cache lastFragment := by
    rw [InBounds, show lastFragment.id = ⟨1, 1⟩ from rfl, hfind]
    exact ⟨by rw [hfn]; decide, fun _ _ _ => by decide⟩
  have hreach : Reachable blockcache cache := (Reaches.init rfl).run hrun
  obtain ⟨⟨r, hr⟩, n, hn⟩ := (datagram_safe_iff hreach hd default default 0).mpr hin
  exact ⟨cache, r, n, hrun, hr, hn⟩

/-- A packet that names fragment 5 of 1 passes both checks and writes behind the array. -/
theorem datagram_overruns :
    let blob : Bytes := [1, 0, 0, 0, 0, 0, 0, 0, 5, 0, 1, 0, 0]
    validateBlock blob 13 = true ∧
      ∃ f, decodeFragment blob 13 = some f ∧
        addfragment [] f default default 0 = .error (.index 5 1) := by
  refine ⟨by decide, _, rfl, by decide⟩

end Bora
