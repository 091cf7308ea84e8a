import Bora.Deletion

/-! The listings of the cache and the queries about single blocks: what the lists hold after any
sequence of calls, as the results of the calls tell, and when the queries agree. -/
namespace Bora

open Checked Transition

/-- The loop the two builders share; `keep` is their test on `__iscomplete`. -/
def listBlocks (keep : Block → Bool) : Cache → List BlockID
  | [] => []
  | cur::rest => if keep cur then cur.id :: listBlocks keep rest else listBlocks keep rest

def getIncompleteBlockList (cache : Cache) : List BlockID :=
  listBlocks (fun cur => !blockComplete cur) cache

def getCompleteBlockList (cache : Cache) : List BlockID := listBlocks blockComplete cache

section Lists

variable {cache : Cache} {keep : Block → Bool} {id : BlockID}

theorem listBlocks_sublist (keep : Block → Bool) (cache : Cache) :
    (listBlocks keep cache).Sublist (ids cache) := by
  induction cache with
  | nil => exact List.Sublist.refl _
  | cons cur rest ih =>
    rw [listBlocks, ids_cons]
    split
    · exact ih.cons_cons _
    · exact ih.cons _

theorem mem_listBlocks (hd : (ids cache).Nodup) :
    id ∈ listBlocks keep cache ↔ ∃ b, findblock cache id = some b ∧ keep b = true := by
  induction cache with
  | nil => simp [listBlocks, findblock]
  | cons cur rest ih =>
    obtain ⟨hnot, hrest⟩ := List.nodup_cons.mp hd
    rw [findblock_cons, listBlocks]
    by_cases hid : cur.id = id
    · have hout : id ∉ listBlocks keep rest := fun hmem =>
        hnot (hid ▸ (listBlocks_sublist keep rest).mem hmem)
      rw [if_pos hid]
      by_cases hk : keep cur = true
      · simp [hk, hid]
      · simp [hk, hout]
    · rw [if_neg hid, ← ih hrest]
      have hne : id ≠ cur.id := fun he => hid he.symm
      by_cases hk : keep cur = true <;> simp [hk, hne]

theorem mem_getCompleteBlockList (hd : (ids cache).Nodup) :
    id ∈ getCompleteBlockList cache ↔
      ∃ b, findblock cache id = some b ∧ blockComplete b = true := mem_listBlocks hd

theorem mem_getIncompleteBlockList (hd : (ids cache).Nodup) :
    id ∈ getIncompleteBlockList cache ↔
      ∃ b, findblock cache id = some b ∧ blockComplete b = false := by
  rw [getIncompleteBlockList, mem_listBlocks hd]
  simp

end Lists

inductive CacheEvent
  | addblock (id : BlockID) (ret : Bool)
  | deleteblock (id : BlockID) (ret : Bool)
  | addfragment (fragment : FragmentData) (ret : AddResult)

namespace CacheEvent

/-- `addblock` returned 1 for the id, or `addfragment` F_ADDED. -/
def inserts (id : BlockID) : CacheEvent → Bool
  | .addblock id' ret => id' = id && ret
  | .addfragment fragment ret => fragment.id = id && ret = .added
  | .deleteblock _ _ => false

def removes (id : BlockID) : CacheEvent → Bool
  | .deleteblock id' ret => id' = id && ret
  | _ => false

end CacheEvent

/-- The calls that put something under the id since it was last removed; the log is newest
first. -/
def insertions (id : BlockID) (log : List CacheEvent) : List CacheEvent :=
  (log.takeWhile (fun e => !e.removes id)).filter (CacheEvent.inserts id)

/-- Every fragment of the block has come in since: with `addblock`, or each of the `n` with a
call of `addfragment` that returned F_ADDED. -/
def WholeSince (id : BlockID) (log : List CacheEvent) : Prop :=
  .addblock id true ∈ insertions id log ∨
    ∃ n, 0 < n ∧ ∀ i < n, ∃ f, .addfragment f .added ∈ insertions id log ∧
      f.fragments.toNat = n ∧ f.fragmentid.toNat = i

structure CacheHistory where
  cache : Cache
  log : List CacheEvent

def cacheHistory : System CacheHistory CacheAction where
  init s := s = ⟨[], []⟩
  step s
    | .addblock id blockdata =>
      let r := addblock s.cache id blockdata
      some ⟨r.1, .addblock id r.2 :: s.log⟩
    | .deleteblock id =>
      let r := deleteblock s.cache id
      some ⟨r.1, .deleteblock id r.2 :: s.log⟩
    | .addfragment fragment host ts junk =>
      (addfragment s.cache fragment host ts junk).toOption.map
        (fun r => ⟨r.1, .addfragment fragment r.2 :: s.log⟩)

section Insertions

variable {id : BlockID} {e : CacheEvent} {log : List CacheEvent}

theorem insertions_removed (h : e.removes id = true) : insertions id (e :: log) = [] := by
  simp [insertions, h]

theorem insertions_inserted (hr : e.removes id = false) (hi : e.inserts id = true) :
    insertions id (e :: log) = e :: insertions id log := by
  simp [insertions, hr, hi]

theorem insertions_other (hr : e.removes id = false) (hi : e.inserts id = false) :
    insertions id (e :: log) = insertions id log := by
  simp [insertions, hr, hi]

end Insertions

/-- `es` are the insertions that made the block what it is. -/
structure Tracks (es : List CacheEvent) (id : BlockID) (b : Block) : Prop where
  some : es ≠ []
  count : ∀ f, .addfragment f .added ∈ es →
    f.fragments = b.fs.fn ∧ f.fragmentid.toNat < b.fs.fn.toNat
  whole : .addblock id true ∈ es → ∀ i < b.fs.fn.toNat, b.heldAt i = true
  held : .addblock id true ∉ es → ∀ i, b.heldAt i = true ↔
    ∃ f, .addfragment f .added ∈ es ∧ f.fragmentid.toNat = i

structure CacheHistory.Tracked (s : CacheHistory) : Prop where
  nodup : (ids s.cache).Nodup
  absent : ∀ id, findblock s.cache id = none → insertions id s.log = []
  present : ∀ id b, findblock s.cache id = some b → Tracks (insertions id s.log) id b

section Steps

variable {s t : CacheHistory} {es : List CacheEvent} {id : BlockID} {b b' : Block}
  {f : FragmentData}

theorem tracks_addblock (id : BlockID) (blockdata : Bytes) :
    Tracks [.addblock id true] id (contentBlock id blockdata) where
  some := by simp
  count := by simp
  whole := by simp [contentBlock_heldAt]
  held := by simp

theorem Tracks.stores (h : es ≠ [] → Tracks es id b) (hnil : es = [] → ∀ i, b.heldAt i = false)
    (hs : Stores f b b') (hfn : b.fs.fn = f.fragments)
    (hi : f.fragmentid.toNat < b.fs.fn.toNat) :
    Tracks (.addfragment f .added :: es) id b' where
  some := by simp
  count := by
    intro g hg
    rw [hs.fn_eq]
    rcases List.mem_cons.mp hg with heq | hg
    · cases heq
      exact ⟨hfn.symm, hi⟩
    · exact (h (List.ne_nil_of_mem hg)).count g hg
  whole := by
    intro hmem i hlt
    have hmem' : .addblock id true ∈ es := by simpa using hmem
    rw [hs.fn_eq] at hlt
    rw [hs.held, (h (List.ne_nil_of_mem hmem')).whole hmem' i hlt, Bool.or_true]
  held := by
    intro hmem i
    have hmem' : .addblock id true ∉ es := fun hc => hmem (List.mem_cons_of_mem _ hc)
    have hold : b.heldAt i = true ↔ ∃ g, .addfragment g .added ∈ es ∧ g.fragmentid.toNat = i := by
      by_cases hes : es = []
      · simp [hnil hes, hes]
      · exact (h hes).held hmem' i
    rw [hs.held, Bool.or_eq_true, decide_eq_true_eq, hold]
    constructor
    · rintro (rfl | ⟨g, hg, hgi⟩)
      · exact ⟨f, List.mem_cons_self .., rfl⟩
      · exact ⟨g, List.mem_cons_of_mem _ hg, hgi⟩
    · rintro ⟨g, hg, hgi⟩
      rcases List.mem_cons.mp hg with heq | hg
      · cases heq
        exact Or.inl hgi.symm
      · exact Or.inr ⟨g, hg, hgi⟩

theorem CacheHistory.Tracked.unchanged (h : s.Tracked) {e : CacheEvent}
    (hr : ∀ id, e.removes id = false) (hi : ∀ id, e.inserts id = false) :
    CacheHistory.Tracked ⟨s.cache, e :: s.log⟩ where
  nodup := h.nodup
  absent := fun id hfind => by rw [insertions_other (hr id) (hi id)]; exact h.absent id hfind
  present := fun id b hfind => by
    rw [insertions_other (hr id) (hi id)]
    exact h.present id b hfind

theorem CacheHistory.Tracked.inserted (h : s.Tracked) {e : CacheEvent} {cache : Cache}
    (hd : (ids cache).Nodup) (hr : ∀ id, e.removes id = false)
    (hi : ∀ id', e.inserts id' = decide (id = id'))
    (hfind : findblock cache id = some b)
    (hother : ∀ id', id' ≠ id → findblock cache id' = findblock s.cache id')
    (htracks : Tracks (e :: insertions id s.log) id b) :
    CacheHistory.Tracked ⟨cache, e :: s.log⟩ where
  nodup := hd
  absent := by
    intro id' hnone
    have hne : id' ≠ id := by
      rintro rfl
      rw [hfind] at hnone
      cases hnone
    rw [insertions_other (hr id') (by rw [hi, decide_eq_false (Ne.symm hne)])]
    exact h.absent id' ((hother id' hne).symm.trans hnone)
  present := by
    intro id' b' hsome
    by_cases hid : id' = id
    · subst id'
      obtain rfl : b = b' := Option.some.inj (hfind.symm.trans hsome)
      rw [insertions_inserted (hr id) (by rw [hi, decide_eq_true rfl])]
      exact htracks
    · rw [insertions_other (hr id') (by rw [hi, decide_eq_false (Ne.symm hid)])]
      exact h.present id' b' ((hother id' hid).symm.trans hsome)

theorem CacheHistory.Tracked.addblock_step (h : s.Tracked) (id : BlockID) (blockdata : Bytes) :
    CacheHistory.Tracked ⟨(addblock s.cache id blockdata).1,
      .addblock id (addblock s.cache id blockdata).2 :: s.log⟩ := by
  have hd := addblock_nodup h.nodup id blockdata
  cases hfind : findblock s.cache id with
  | some b =>
    have heq : addblock s.cache id blockdata = (s.cache, false) := by rw [addblock, hfind]
    rw [heq]
    exact h.unchanged (fun _ => rfl) (fun _ => by simp [CacheEvent.inserts])
  | none =>
    have heq : addblock s.cache id blockdata = (contentBlock id blockdata :: s.cache, true) := by
      rw [addblock, hfind]
    rw [heq] at hd ⊢
    have hi : ∀ id', (CacheEvent.addblock id true).inserts id' = decide (id = id') := by
      intro id'
      simp [CacheEvent.inserts]
    have hself : findblock (contentBlock id blockdata :: s.cache) id =
        some (contentBlock id blockdata) := by
      rw [findblock_cons]
      exact if_pos rfl
    refine h.inserted hd (fun _ => rfl) hi hself ?_ ?_
    · intro id' hne
      rw [findblock_cons]
      exact if_neg (Ne.symm hne)
    · rw [h.absent id hfind]
      exact tracks_addblock id blockdata

theorem CacheHistory.Tracked.deleteblock_step (h : s.Tracked) (id : BlockID) :
    CacheHistory.Tracked ⟨(deleteblock s.cache id).1,
      .deleteblock id (deleteblock s.cache id).2 :: s.log⟩ := by
  have hd := deleteblock_nodup h.nodup id
  rw [deleteblock_eq h.nodup] at hd ⊢
  split
  · rename_i hc
    rw [if_pos hc] at hd
    refine ⟨hd, ?_, ?_⟩
    · intro id' hnone
      by_cases hid : id' = id
      · exact insertions_removed (by simp [CacheEvent.removes, hid])
      · rw [insertions_other (by simp [CacheEvent.removes, Ne.symm hid]) rfl]
        exact h.absent id' ((findblock_without hid).symm.trans hnone)
    · intro id' b hsome
      have hid : id' ≠ id := by
        rintro rfl
        rw [findblock_none_iff.mpr (not_mem_without _ _)] at hsome
        cases hsome
      rw [insertions_other (by simp [CacheEvent.removes, Ne.symm hid]) rfl]
      exact h.present id' b ((findblock_without hid).symm.trans hsome)
  · exact h.unchanged (fun _ => by simp [CacheEvent.removes]) (fun _ => rfl)

theorem CacheHistory.Tracked.addfragment_step (h : s.Tracked) {junk : UInt16} {cache : Cache}
    {r : AddResult} (hout : Outcome s.cache f junk cache r) :
    CacheHistory.Tracked ⟨cache, .addfragment f r :: s.log⟩ := by
  by_cases hr : r = .added
  · subst r
    obtain ⟨b, b', hs, hfind, hother, -, hfn, hi, -, hold⟩ := hout.added
    refine h.inserted (hout.nodup h.nodup) (fun _ => rfl)
      (fun _ => by simp [CacheEvent.inserts]) hfind hother (Tracks.stores ?_ ?_ hs hfn hi)
    · intro hes
      rcases hold with hsome | ⟨hnone, -⟩
      · exact h.present f.id b hsome
      · exact absurd (h.absent f.id hnone) hes
    · intro hes i
      rcases hold with hsome | ⟨-, rfl⟩
      · exact absurd hes (h.present f.id b hsome).some
      · exact emptyBlock_heldAt _ _ _ _
  · obtain rfl := hout.unchanged hr
    exact h.unchanged (fun _ => rfl) (fun _ => by simp [CacheEvent.inserts, hr])

theorem cacheHistory_tracked (h : Reachable cacheHistory s) : s.Tracked := by
  apply h.invariant
  · rintro _ rfl
    exact ⟨List.nodup_nil, fun _ _ => rfl, fun _ _ hsome => by cases hsome⟩
  · intro s a t hs _ hstep
    cases a with
    | addblock id blockdata =>
      cases hstep
      exact hs.addblock_step id blockdata
    | deleteblock id =>
      cases hstep
      exact hs.deleteblock_step id
    | addfragment f host ts junk =>
      cases hadd : addfragment s.cache f host ts junk with
      | error e => simp [cacheHistory, hadd, Except.toOption] at hstep
      | ok r =>
        simp only [cacheHistory, hadd, Except.toOption, Option.map_some, Option.some.injEq]
          at hstep
        subst t
        exact hs.addfragment_step (addfragment_outcome hadd)

/-- Recording the calls does not change what they do. -/
theorem cacheHistory_blockcache (h : Reachable cacheHistory s) : Reachable blockcache s.cache := by
  apply h.invariant
  · rintro _ rfl
    exact Reaches.init rfl
  · intro s a t hs _ hstep
    refine hs.step (a := a) trivial ?_
    cases a with
    | addblock id blockdata =>
      cases hstep
      rfl
    | deleteblock id =>
      cases hstep
      rfl
    | addfragment f host ts junk =>
      obtain ⟨r, hr, rfl⟩ := Option.map_eq_some_iff.mp hstep
      exact Option.map_eq_some_iff.mpr ⟨r, hr, rfl⟩

end Steps

/-- What the two listings tell of the calls. -/
structure CacheHistory.Listed (s : CacheHistory) : Prop where
  incomplete_nodup : (getIncompleteBlockList s.cache).Nodup
  complete_nodup : (getCompleteBlockList s.cache).Nodup
  disjoint : ∀ id ∈ getCompleteBlockList s.cache, id ∉ getIncompleteBlockList s.cache
  listed : ∀ id, id ∈ getCompleteBlockList s.cache ∨ id ∈ getIncompleteBlockList s.cache ↔
    insertions id s.log ≠ []
  complete : ∀ id, id ∈ getCompleteBlockList s.cache ↔ WholeSince id s.log

/-- A fragment in the range of its own count, which is that of the block it belongs to. -/
def CallAgrees (cache : Cache) : CacheAction → Prop
  | .addfragment f _ _ _ => f.fragmentid < f.fragments ∧ f.length.toNat ≤ mtu ∧
      ∀ b, findblock cache f.id = some b → b.fs.fn = f.fragments
  | _ => True

section Listings

variable {s : CacheHistory} {es log : List CacheEvent} {id : BlockID} {b : Block}

theorem mem_insertions {e : CacheEvent} (h : e ∈ insertions id log) : e.inserts id = true :=
  (List.mem_filter.mp h).2

theorem WholeSince.ne_nil (h : WholeSince id log) : insertions id log ≠ [] := by
  rcases h with hadd | ⟨n, hpos, hall⟩
  · exact List.ne_nil_of_mem hadd
  · obtain ⟨f, hf, -⟩ := hall 0 hpos
    exact List.ne_nil_of_mem hf

theorem Tracks.complete_iff (h : Tracks (insertions id log) id b) :
    blockComplete b = true ↔ WholeSince id log := by
  rw [blockComplete_iff]
  constructor
  · intro hall
    by_cases hadd : .addblock id true ∈ insertions id log
    · exact Or.inl hadd
    -- Then a fragment made the block, and its count is the block's.
    · right
      have hpos : 0 < b.fs.fn.toNat := by
        obtain ⟨e, he⟩ := List.exists_mem_of_ne_nil _ h.some
        have hins := mem_insertions he
        cases e with
        | addblock id' ret =>
          simp only [CacheEvent.inserts, Bool.and_eq_true, decide_eq_true_eq] at hins
          obtain ⟨rfl, rfl⟩ := hins
          exact absurd he hadd
        | deleteblock id' ret => cases hins
        | addfragment f ret =>
          simp only [CacheEvent.inserts, Bool.and_eq_true, decide_eq_true_eq] at hins
          obtain ⟨-, rfl⟩ := hins
          exact (Nat.zero_le _).trans_lt (h.count f he).2
      refine ⟨b.fs.fn.toNat, hpos, fun i hi => ?_⟩
      obtain ⟨f, hf, hfi⟩ := (h.held hadd i).mp (hall i hi)
      exact ⟨f, hf, by rw [(h.count f hf).1], hfi⟩
  · rintro (hadd | ⟨n, hpos, hall⟩) i hi
    · exact h.whole hadd i hi
    · by_cases hadd : .addblock id true ∈ insertions id log
      · exact h.whole hadd i hi
      · obtain ⟨f₀, hf₀, hn, -⟩ := hall 0 hpos
        rw [← (h.count f₀ hf₀).1, hn] at hi
        obtain ⟨f, hf, -, hfi⟩ := hall i hi
        exact (h.held hadd i).mpr ⟨f, hf, hfi⟩

theorem CacheHistory.Tracked.listed (h : s.Tracked) : s.Listed where
  incomplete_nodup := (listBlocks_sublist _ _).nodup h.nodup
  complete_nodup := (listBlocks_sublist _ _).nodup h.nodup
  disjoint := by
    intro id hc hi
    obtain ⟨b, hb, hcomplete⟩ := (mem_getCompleteBlockList h.nodup).mp hc
    obtain ⟨b', hb', hincomplete⟩ := (mem_getIncompleteBlockList h.nodup).mp hi
    obtain rfl : b = b' := Option.some.inj (hb.symm.trans hb')
    rw [hcomplete] at hincomplete
    cases hincomplete
  listed := by
    intro id
    rw [mem_getCompleteBlockList h.nodup, mem_getIncompleteBlockList h.nodup]
    cases hfind : findblock s.cache id with
    | none => simp [h.absent id hfind]
    | some b =>
      have hne := (h.present id b hfind).some
      cases hc : blockComplete b <;> simp [hc, hne]
  complete := by
    intro id
    rw [mem_getCompleteBlockList h.nodup]
    cases hfind : findblock s.cache id with
    | none =>
      constructor
      · rintro ⟨b, hb, -⟩
        cases hb
      · exact fun hw => absurd (h.absent id hfind) hw.ne_nil
    | some b => simpa using (h.present id b hfind).complete_iff

/-- Whatever calls are made one after another, the listings tell of them what they must, and
another call whose fragment agrees with its block returns. -/
theorem listings_history (h : Reachable cacheHistory s) :
    s.Listed ∧ ∀ a, CallAgrees s.cache a → ∃ t, cacheHistory.step s a = some t := by
  refine ⟨(cacheHistory_tracked h).listed, ?_⟩
  intro a ha
  cases a with
  | addblock id blockdata => exact ⟨_, rfl⟩
  | deleteblock id => exact ⟨_, rfl⟩
  | addfragment f host ts junk =>
    obtain ⟨hi, hlen, hfn⟩ := ha
    have hin : InBounds s.cache f := by
      rw [InBounds]
      cases hfind : findblock s.cache f.id with
      | none => exact ⟨hi, fun _ => hlen⟩
      | some b => exact ⟨by rw [hfn b hfind]; exact hi, fun _ _ _ => hlen⟩
    have hroom := blockcache_roomy (cacheHistory_blockcache h)
    obtain ⟨r, hr⟩ : ∃ r, addfragment s.cache f host ts junk = .ok r :=
      (addfragment_safe_iff hroom).mpr hin
    refine ⟨⟨r.1, .addfragment f r.2 :: s.log⟩, ?_⟩
    simp only [cacheHistory, hr, Except.toOption, Option.map_some]

end Listings

theorem listings_history_two :
    ∃ s : CacheHistory, s.Listed ∧ getCompleteBlockList s.cache = [⟨1, 1⟩] ∧
      getIncompleteBlockList s.cache = [⟨1, 2⟩] := by
  have hrun : (cacheHistory.runIf (fun _ _ => True) ⟨[], []⟩
      [.addblock ⟨1, 1⟩ [7], .addfragment ⟨1, 2, 1, 2, 1, [9], rfl⟩ default default 0]).map
        (fun s => (getCompleteBlockList s.cache, getIncompleteBlockList s.cache)) =
      some ([⟨1, 1⟩], [⟨1, 2⟩]) := by decide +kernel
  obtain ⟨s, hs, hlists⟩ := Option.map_eq_some_iff.mp hrun
  rw [Prod.mk.injEq] at hlists
  exact ⟨s, (listings_history (Reaches.runIf (Reaches.init rfl) hs)).1, hlists⟩

def HasBlock (cache : Cache) (id : BlockID) : Prop :=
  ∃ b, findblock cache id = some b ∧ ∀ i < b.fs.fn.toNat, b.heldAt i = true

/-- The three queries give the answer blockcache.h documents for each. -/
structure QueriesAgree (cache : Cache) (id : BlockID) : Prop where
  iscomplete : iscomplete cache id = true ↔ HasBlock cache id
  data : (∃ d, getBlockData cache id = .ok (some d)) ↔ HasBlock cache id
  listed : id ∈ getCompleteBlockList cache ↔ HasBlock cache id

/-- The buffer holds what the cache reports as its size. -/
def Block.Filled (b : Block) : Prop := b.content.length.toNat ≤ b.content.data.length

def FilledCache (cache : Cache) : Prop := ∀ b ∈ cache, b.Filled

section Filled

variable {cache cache' : Cache} {b b' : Block} {f : FragmentData} {host : SockAddr}
  {ts : Timeval} {junk : UInt16} {r : AddResult} {id : BlockID}

theorem toNat_ofNat_le (n : ℕ) : (UInt32.ofNat n).toNat ≤ n := by
  rw [UInt32.toNat_ofNat']
  exact Nat.mod_le _ _

theorem emptyBlock_filled (id : BlockID) (fragments junk : UInt16) :
    (emptyBlock id fragments junk).Filled := by
  have hsize : (emptyBlock id fragments junk).content.data.length = mtu * fragments.toNat := by
    simp [emptyBlock]
  rw [Block.Filled, hsize]
  exact toNat_ofNat_le _

theorem contentBlock_filled (id : BlockID) (blockdata : Bytes) :
    (contentBlock id blockdata).Filled := toNat_ofNat_le _

theorem Block.copyIn_filled {off : ℕ} {src : Bytes} (h : b.copyIn off src = .ok b') :
    b'.Filled ↔ b.Filled := by
  obtain ⟨hle, -, hsize⟩ := Block.copyIn_ok h
  obtain ⟨b'', hb'', -, -, -, hcon⟩ := Block.copyIn_of_le hle
  obtain rfl : b'' = b' := Except.ok.inj (hb''.symm.trans h)
  have hlength : b''.content.length = b.content.length := by rw [hcon]
  rw [Filled, Filled, hlength, hsize]

theorem createBlock_filled (h : createBlock cache f host ts junk = .ok (cache', r)) :
    ∀ b ∈ cache', b ∈ cache ∨ b.Filled := by
  obtain ⟨b₁, hb₁, h⟩ := bind_eq_ok.mp h
  obtain ⟨-, -, hcon₁⟩ := Block.setFragment_ok hb₁
  have h₁ : b₁.Filled := by
    rw [Block.Filled, hcon₁]
    exact emptyBlock_filled _ _ _
  have hcons : ∀ b', b'.Filled → ∀ b ∈ b' :: cache, b ∈ cache ∨ b.Filled := by
    intro b' hb' b hb
    rcases List.mem_cons.mp hb with rfl | hb
    · exact Or.inr hb'
    · exact Or.inl hb
  split at h
  · obtain ⟨b₂, hb₂, h⟩ := bind_eq_ok.mp h
    cases h
    exact hcons b₂ ((Block.copyIn_filled hb₂).mpr h₁)
  split at h
  · cases h
    exact fun b hb => Or.inl hb
  · obtain ⟨b₂, hb₂, h⟩ := bind_eq_ok.mp h
    cases h
    exact hcons b₂ ((Block.copyIn_filled hb₂).mpr h₁)

theorem updateBlock_filled (hfill : b.Filled)
    (h : updateBlock cache b f host ts = .ok (cache', r)) :
    ∀ b ∈ cache', b ∈ cache ∨ b.Filled := by
  obtain ⟨held, -, h⟩ := bind_eq_ok.mp h
  split at h
  · cases h
    exact fun b hb => Or.inl hb
  split at h
  · cases h
    exact fun b hb => Or.inl hb
  rename_i hfn
  split at h
  · cases h
    exact fun b hb => Or.inl hb
  split at h
  · cases h
    exact fun b hb => Or.inl hb
  obtain ⟨b₁, hb₁, h⟩ := bind_eq_ok.mp h
  obtain ⟨b₂, hb₂, h⟩ := bind_eq_ok.mp h
  cases h
  obtain ⟨-, -, hcon₁⟩ := Block.setFragment_ok hb₁
  have h₂ : b₂.Filled := by
    rw [Block.copyIn_filled hb₂, Block.Filled, hcon₁]
    split
    · rename_i hlast
      have hle := (Block.copyIn_ok hb₂).1
      rw [hcon₁, if_pos hlast, f.data_length] at hle
      refine (toNat_ofNat_le _).trans ?_
      have hoff : ((b.setLastlen f.length).fs.fn.toNat - 1) * mtu = mtu * f.fragmentid.toNat := by
        rw [mul_comm, show (b.setLastlen f.length).fs.fn = b.fs.fn from rfl, of_not_not hfn,
          ← hlast, Nat.add_sub_cancel]
      rw [hoff]
      exact hle
    · exact hfill
  intro x hx
  rcases FirstMatch.mem_modify hx with hx | ⟨y, -, rfl⟩
  · exact Or.inl hx
  · exact Or.inr h₂

theorem blockcache_filled (h : Reachable blockcache cache) : FilledCache cache := by
  apply h.invariant
  · rintro _ rfl
    simp [FilledCache]
  · intro cache a cache' hfill _ hstep
    cases a with
    | addblock id blockdata =>
      cases hstep
      intro b hb
      unfold addblock at hb
      split at hb
      · exact hfill b hb
      · rcases List.mem_cons.mp hb with rfl | hb
        · exact contentBlock_filled id blockdata
        · exact hfill b hb
    | deleteblock id =>
      cases hstep
      exact fun b hb => hfill b (deleteblock_subset cache id b hb)
    | addfragment f host ts junk =>
      cases hadd : addfragment cache f host ts junk with
      | error e => simp [blockcache, hadd, Except.toOption] at hstep
      | ok r =>
        simp only [blockcache, hadd, Except.toOption, Option.map_some, Option.some.injEq] at hstep
        subst cache'
        unfold addfragment at hadd
        intro b hb
        split at hadd
        · exact (createBlock_filled hadd b hb).elim (hfill b) id
        · rename_i b₀ hb₀
          exact (updateBlock_filled (hfill b₀ (List.mem_of_find?_eq_some hb₀)) hadd b hb).elim
            (hfill b) id

end Filled

section Queries

variable {cache : Cache} {id : BlockID}

theorem getBlockData_some_iff (hfill : FilledCache cache) :
    (∃ d, getBlockData cache id = .ok (some d)) ↔ ∃ b, findblock cache id = some b := by
  rw [getBlockData]
  cases hfind : findblock cache id with
  | none => simp
  | some b =>
    have hb : b.content.length.toNat ≤ b.content.data.length :=
      hfill b (List.mem_of_find?_eq_some hfind)
    simp [hb]

/-- The queries agree exactly about the blocks that are there with every fragment. -/
theorem queries_agree_iff (h : Reachable blockcache cache) (id : BlockID) :
    QueriesAgree cache id ↔ HasBlock cache id := by
  constructor
  · intro hq
    cases hfind : findblock cache id with
    | none =>
      rw [← hq.iscomplete, Bora.iscomplete, hfind]
    | some b => exact hq.data.mp ((getBlockData_some_iff (blockcache_filled h)).mpr ⟨b, hfind⟩)
  · intro hb
    obtain ⟨b, hfind, hall⟩ := hb
    have hcomplete := (blockComplete_iff b).mpr hall
    refine ⟨?_, ?_, ?_⟩
    · rw [Bora.iscomplete, hfind]
      exact iff_of_true hcomplete ⟨b, hfind, hall⟩
    · rw [getBlockData_some_iff (blockcache_filled h)]
      exact iff_of_true ⟨b, hfind⟩ ⟨b, hfind, hall⟩
    · rw [mem_getCompleteBlockList (blockcache_nodup h)]
      exact iff_of_true ⟨b, hfind, hcomplete⟩ ⟨b, hfind, hall⟩

end Queries

theorem queries_agree_added : QueriesAgree [contentBlock ⟨1, 1⟩ [7]] ⟨1, 1⟩ := by
  have hreach : Reachable blockcache [contentBlock ⟨1, 1⟩ [7]] :=
    Reaches.step (a := .addblock ⟨1, 1⟩ [7]) (Reaches.init rfl) trivial rfl
  exact (queries_agree_iff hreach ⟨1, 1⟩).mpr ⟨_, rfl, by decide⟩

/-- A block the cache does not hold counts as complete. -/
theorem queries_disagree_absent :
    Reachable blockcache [] ∧ iscomplete [] ⟨1, 1⟩ = true ∧
      getBlockData [] ⟨1, 1⟩ = .ok none ∧ ¬ QueriesAgree [] ⟨1, 1⟩ := by
  refine ⟨Reaches.init rfl, rfl, rfl, fun h => ?_⟩
  obtain ⟨b, hb, -⟩ := h.iscomplete.mp rfl
  cases hb

end Bora
