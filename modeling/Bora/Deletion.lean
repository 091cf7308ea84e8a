import Bora.CacheThreads

/-! What `deleteblock` takes out of the list and what it leaves, for every list of blocks with
distinct ids, which is what calls made one after another build. -/
namespace Bora

open Checked Transition

section Ids

variable {cache cache' : Cache} {id : BlockID}

theorem ids_cons (b : Block) (cache : Cache) : ids (b :: cache) = b.id :: ids cache := rfl

theorem addblock_nodup (hd : (ids cache).Nodup) (id : BlockID) (blockdata : Bytes) :
    (ids (addblock cache id blockdata).1).Nodup := by
  unfold addblock
  split
  · exact hd
  · rename_i hfind
    exact List.nodup_cons.mpr ⟨findblock_none_iff.mp hfind, hd⟩

theorem deleteblock_nodup (hd : (ids cache).Nodup) (id : BlockID) :
    (ids (deleteblock cache id).1).Nodup := ((deleteblock_sublist cache id).map Block.id).nodup hd

theorem Outcome.nodup {f : FragmentData} {junk : UInt16} {r : AddResult}
    (h : Outcome cache f junk cache' r) (hd : (ids cache).Nodup) : (ids cache').Nodup := by
  cases h with
  | duplicate => exact hd
  | mismatch => exact hd
  | refused => exact hd
  | refusedNew => exact hd
  | stored => rwa [ids_storeBlock]
  | created hfind _ _ hs =>
    rw [ids_cons, List.nodup_cons, hs.id_eq]
    exact ⟨findblock_none_iff.mp hfind, hd⟩

theorem blockcache_nodup (h : Reachable blockcache cache) : (ids cache).Nodup := by
  apply h.invariant
  · rintro _ rfl
    exact List.nodup_nil
  · intro cache a cache' hd _ hstep
    cases a with
    | addblock id blockdata =>
      cases hstep
      exact addblock_nodup hd id blockdata
    | deleteblock id =>
      cases hstep
      exact deleteblock_nodup hd id
    | addfragment f host ts junk =>
      obtain ⟨r, hr, rfl⟩ := Option.map_eq_some_iff.mp hstep
      cases hadd : addfragment cache f host ts junk with
      | error e => simp [hadd, Except.toOption] at hr
      | ok r' =>
        simp only [hadd, Except.toOption, Option.some.injEq] at hr
        subst r'
        exact (addfragment_outcome hadd).nodup hd

end Ids

/-- The blocks under other ids, unchanged and in order. -/
def without (cache : Cache) (id : BlockID) : Cache := cache.filter (fun b => b.id ≠ id)

section Without

variable {cache : Cache} {id : BlockID} {b : Block}

theorem without_cons_ne (h : b.id ≠ id) : without (b :: cache) id = b :: without cache id := by
  simp [without, h]

theorem without_cons_self (h : b.id = id) : without (b :: cache) id = without cache id := by
  simp [without, h]

theorem without_of_not_mem (h : id ∉ ids cache) : without cache id = cache := by
  apply List.filter_eq_self.mpr
  intro b hb
  exact decide_eq_true (fun hid => h (List.mem_map.mpr ⟨b, hb, hid⟩))

theorem not_mem_without (cache : Cache) (id : BlockID) : id ∉ ids (without cache id) := by
  intro hmem
  obtain ⟨b, hb, hid⟩ := List.mem_map.mp hmem
  exact of_decide_eq_true (List.mem_filter.mp hb).2 hid

theorem findblock_without {id' : BlockID} (h : id' ≠ id) :
    findblock (without cache id) id' = findblock cache id' := by
  induction cache with
  | nil => rfl
  | cons b rest ih =>
    by_cases hb : b.id = id
    · rw [without_cons_self hb, ih, findblock_cons, if_neg (fun he => h (he.symm.trans hb))]
    · rw [without_cons_ne hb, findblock_cons, findblock_cons, ih]

theorem deleteAfter_without {rest : List Block} (hd : (ids rest).Nodup) (hmem : id ∈ ids rest) :
    deleteAfter id rest = some (without rest id) := by
  induction rest with
  | nil => cases hmem
  | cons current rest ih =>
    obtain ⟨hnot, hrest⟩ := List.nodup_cons.mp hd
    by_cases hid : current.id = id
    · rw [deleteAfter, if_pos hid, without_cons_self hid, without_of_not_mem (hid ▸ hnot)]
    · have hmem' : id ∈ ids rest := (List.mem_cons.mp hmem).resolve_left (Ne.symm hid)
      rw [deleteAfter, if_neg hid, ih hrest hmem', without_cons_ne hid]
      rfl

theorem deleteAfter_of_not_mem {rest : List Block} (h : id ∉ ids rest) :
    deleteAfter id rest = none := by
  cases hdel : deleteAfter id rest with
  | none => rfl
  | some rest' =>
    have hcount := deleteAfter_count hdel id
    rw [if_pos rfl, List.count_eq_zero.mpr h] at hcount
    omega

/-- What a call does: it looks everywhere but at the head of the list. -/
theorem deleteblock_eq (hd : (ids cache).Nodup) (id : BlockID) :
    deleteblock cache id =
      if id ∈ ids cache ∧ (ids cache).head? ≠ some id then (without cache id, true)
      else (cache, false) := by
  cases cache with
  | nil => rfl
  | cons prev rest =>
    obtain ⟨hnot, hrest⟩ := List.nodup_cons.mp hd
    by_cases hprev : prev.id = id
    · have hdel := deleteAfter_of_not_mem (hprev ▸ hnot)
      simp [deleteblock, hdel, ids, hprev]
    · by_cases hmem : id ∈ ids rest
      · have hmem' : id ∈ ids (prev :: rest) := List.mem_cons_of_mem _ hmem
        have hhead : (ids (prev :: rest)).head? ≠ some id := by simpa [ids] using hprev
        rw [deleteblock, deleteAfter_without hrest hmem, if_pos ⟨hmem', hhead⟩,
          without_cons_ne hprev]
      · have hmem' : id ∉ ids (prev :: rest) := by
          rw [ids_cons, List.mem_cons, not_or]
          exact ⟨Ne.symm hprev, hmem⟩
        rw [deleteblock, deleteAfter_of_not_mem hmem, if_neg (fun h => hmem' h.1)]

end Without

/-- The next call for the id makes a new block. -/
structure StartsAfresh (cache : Cache) (id : BlockID) : Prop where
  addblock : ∀ blockdata, addblock cache id blockdata = (contentBlock id blockdata :: cache, true)
  addfragment : ∀ f host ts junk, f.id = id →
    addfragment cache f host ts junk = createBlock cache f host ts junk

/-- A block that is there is taken out, and BD_FAILURE means that there was none. -/
structure DeletesExactly (cache : Cache) (id : BlockID) : Prop where
  success : id ∈ ids cache → deleteblock cache id = (without cache id, true) ∧
    StartsAfresh (deleteblock cache id).1 id
  failure : id ∉ ids cache → deleteblock cache id = (cache, false)

section Exact

variable {cache : Cache} {id : BlockID}

theorem startsAfresh (h : id ∉ ids cache) : StartsAfresh cache id where
  addblock := fun blockdata => by rw [addblock, findblock_none_iff.mpr h]
  addfragment := by
    rintro f host ts junk rfl
    rw [addfragment, findblock_none_iff.mpr h]

/-- Deletion is exact for every block but the first of the list. -/
theorem deleteblock_exact_iff (hd : (ids cache).Nodup) (id : BlockID) :
    DeletesExactly cache id ↔ (ids cache).head? ≠ some id := by
  constructor
  · intro h hhead
    have hkept : deleteblock cache id = (cache, false) := by
      rw [deleteblock_eq hd, if_neg (fun hc => hc.2 hhead)]
    have hgone := (h.success (List.mem_of_mem_head? hhead)).1
    rw [hkept, Prod.mk.injEq] at hgone
    exact absurd hgone.2 (by decide)
  · intro hhead
    constructor
    · intro hmem
      have hgone : deleteblock cache id = (without cache id, true) := by
        rw [deleteblock_eq hd, if_pos ⟨hmem, hhead⟩]
      refine ⟨hgone, ?_⟩
      rw [hgone]
      exact startsAfresh (not_mem_without cache id)
    · intro hmem
      rw [deleteblock_eq hd, if_neg (fun hc => hmem hc.1)]

end Exact

theorem deleteblock_exact_second :
    DeletesExactly [contentBlock ⟨1, 2⟩ [5], contentBlock ⟨1, 1⟩ [6]] ⟨1, 1⟩ :=
  (deleteblock_exact_iff (by decide) ⟨1, 1⟩).mpr (by decide)

/-- The block added last, here the only one, cannot be deleted. -/
theorem deleteblock_keeps_head :
    Reachable blockcache [contentBlock ⟨1, 1⟩ [7]] ∧
      deleteblock [contentBlock ⟨1, 1⟩ [7]] ⟨1, 1⟩ = ([contentBlock ⟨1, 1⟩ [7]], false) ∧
      ¬ DeletesExactly [contentBlock ⟨1, 1⟩ [7]] ⟨1, 1⟩ := by
  have hkept : deleteblock [contentBlock ⟨1, 1⟩ [7]] ⟨1, 1⟩ =
      ([contentBlock ⟨1, 1⟩ [7]], false) := rfl
  refine ⟨?_, hkept, ?_⟩
  · exact Reaches.step (a := .addblock ⟨1, 1⟩ [7]) (Reaches.init rfl) trivial rfl
  · intro h
    have hgone := (h.success (List.mem_cons_self ..)).1
    rw [hkept, Prod.mk.injEq] at hgone
    exact absurd hgone.2 (by decide)

end Bora
