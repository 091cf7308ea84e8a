import Bora.AddOutcome

/-! The block cache between its two threads: the application calls `addblock` and `deleteblock`,
the packet processor `addfragment` and then `iscomplete`. A lookup under the read lock and an
insertion under the write lock are steps of their own. -/
namespace Bora

open Checked Transition

def ids (cache : Cache) : List BlockID := cache.map Block.id

section Ids

variable {cache : Cache} {id id' : BlockID} {b : Block}

theorem findblock_none_iff : findblock cache id = none ↔ id ∉ ids cache := by
  rw [findblock, List.find?_eq_none, ids, List.mem_map]
  constructor
  · rintro h ⟨b, hb, rfl⟩
    exact h b hb (by simp)
  · intro h b hb hid
    exact h ⟨b, hb, by simpa using hid⟩

theorem ids_storeBlock (cache : Cache) (b : Block) : ids (storeBlock cache b) = ids cache := by
  apply FirstMatch.map_modify
  intro x hx
  have hid : x.id = b.id := by simpa using hx
  exact hid.symm

theorem deleteAfter_count {rest rest' : List Block} (h : deleteAfter id rest = some rest')
    (id' : BlockID) :
    (ids rest').count id' + (if id' = id then 1 else 0) = (ids rest).count id' := by
  induction rest generalizing rest' with
  | nil => cases h
  | cons current rest ih =>
    simp only [deleteAfter] at h
    split at h
    · rename_i hid
      cases h
      simp only [ids, List.map_cons, List.count_cons, hid]
      by_cases hne : id' = id
      · simp [hne]
      · have hne' : id ≠ id' := fun he => hne he.symm
        simp [hne, hne']
    · obtain ⟨kept, hk, rfl⟩ := Option.map_eq_some_iff.mp h
      have hrest := ih hk
      simp only [ids, List.map_cons, List.count_cons] at hrest ⊢
      omega

/-- Deleting takes out at most one block, of the id asked for, and never the head. -/
theorem deleteblock_ids (cache : Cache) (id : BlockID) :
    (ids (deleteblock cache id).1).head? = (ids cache).head? ∧
      ∀ id', (ids cache).count id' ≤
        (ids (deleteblock cache id).1).count id' + if id' = id then 1 else 0 := by
  cases cache with
  | nil => exact ⟨rfl, fun id' => Nat.le_add_right _ _⟩
  | cons prev rest =>
    simp only [deleteblock]
    cases h : deleteAfter id rest with
    | none => exact ⟨rfl, fun id' => Nat.le_add_right _ _⟩
    | some rest' =>
      refine ⟨rfl, fun id' => ?_⟩
      have hrest := deleteAfter_count h id'
      simp only [ids, List.map_cons, List.count_cons] at hrest ⊢
      omega

/-- The cache has one block under the id, and it is not the head of the list. -/
def Lone (cache : Cache) (id : BlockID) : Prop :=
  (ids cache).count id = 1 ∧ (ids cache).head? ≠ some id

instance (cache : Cache) (id : BlockID) : Decidable (Lone cache id) :=
  inferInstanceAs (Decidable (_ ∧ _))

theorem mem_ids_deleteblock (hmem : id' ∈ ids cache) (h : id' = id → ¬ Lone cache id) :
    id' ∈ ids (deleteblock cache id).1 := by
  obtain ⟨hhead, hcount⟩ := deleteblock_ids cache id
  have hle := hcount id'
  have hpos := List.count_pos_iff.mpr hmem
  by_cases hid : id' = id
  · subst id'
    by_cases hfirst : (ids cache).head? = some id
    · exact List.mem_of_mem_head? (hhead.trans hfirst)
    · have htwo : (ids cache).count id ≠ 1 := fun hone => h rfl ⟨hone, hfirst⟩
      rw [if_pos rfl] at hle
      exact List.count_pos_iff.mp (by omega)
  · rw [if_neg hid] at hle
    exact List.count_pos_iff.mp (by omega)

theorem deleteAfter_none {rest : List Block} (h : deleteAfter id rest = none) : id ∉ ids rest := by
  induction rest with
  | nil => simp [ids]
  | cons current rest ih =>
    simp only [deleteAfter] at h
    split at h
    · cases h
    · rename_i hne
      have hrest := ih (Option.map_eq_none_iff.mp h)
      simp only [ids, List.map_cons, List.mem_cons, not_or] at hrest ⊢
      exact ⟨fun he => hne he.symm, hrest⟩

theorem not_mem_deleteblock (h : Lone cache id) : id ∉ ids (deleteblock cache id).1 := by
  obtain ⟨hone, hhead⟩ := h
  cases cache with
  | nil => simp [ids] at hone
  | cons prev rest =>
    have hprev : prev.id ≠ id := fun he => hhead (by simp [ids, he])
    simp only [ids, List.map_cons, List.count_cons, beq_iff_eq, hprev, if_false, Nat.add_zero] at hone
    simp only [deleteblock]
    cases hdel : deleteAfter id rest with
    | none =>
      have hmem : id ∈ rest.map Block.id := List.count_pos_iff.mp (by rw [hone]; exact one_pos)
      exact absurd hmem (deleteAfter_none hdel)
    | some rest' =>
      have hcount := deleteAfter_count hdel id
      rw [if_pos rfl, ids, ids, hone] at hcount
      have hzero : (rest'.map Block.id).count id = 0 := by omega
      simp only [ids, List.map_cons, List.mem_cons, not_or]
      exact ⟨fun he => hprev he.symm, List.count_eq_zero.mp hzero⟩

end Ids

/-- Where the packet processor is: `insert` between the lookup of `addfragment` that found no
block and the insertion of the new one, `added` between F_ADDED and the lookup of `iscomplete`. -/
inductive ProcessorPc
  | idle
  | insert (block : Block)
  | added (id : BlockID)

/-- A call of `block_completed`, with the cache at the time of the lookup. -/
structure Report where
  id : BlockID
  cache : Cache

def Report.Sound (r : Report) : Prop :=
  ∃ b, findblock r.cache r.id = some b ∧ ∀ i < b.fs.fn.toNat, b.heldAt i = true

/-- `app` is an `addblock` between its lookup and its insertion. -/
structure CacheThreads where
  cache : Cache
  app : Option (BlockID × Bytes)
  processor : ProcessorPc
  reported : List Report

inductive CacheThreadsAction
  | addLookup (id : BlockID) (blockdata : Bytes)
  | addInsert
  | deleteblock (id : BlockID)
  | fragment (f : FragmentData) (host : SockAddr) (ts : Timeval) (junk : UInt16)
  | fragmentInsert
  | iscomplete

/-- `addfragment` up to where it needs the write lock. A new block is filled before that, with
no lock held; a block that was found is updated under its own lock. -/
def fragmentLookup (cache : Cache) (f : FragmentData) (host : SockAddr) (ts : Timeval)
    (junk : UInt16) : Except Fault (Cache × ProcessorPc) :=
  match findblock cache f.id with
  | none =>
    match createBlock [] f host ts junk with
    | .error e => .error e
    | .ok (block :: _, .added) => .ok (cache, .insert block)
    | .ok _ => .ok (cache, .idle)
  | some block =>
    match updateBlock cache block f host ts with
    | .error e => .error e
    | .ok (cache, .added) => .ok (cache, .added f.id)
    | .ok (cache, _) => .ok (cache, .idle)

namespace CacheThreads

def init : CacheThreads := ⟨[], none, .idle, []⟩

def step (s : CacheThreads) : CacheThreadsAction → Option CacheThreads
  | .addLookup id blockdata =>
    match s.app with
    | some _ => none
    | none =>
      match findblock s.cache id with
      | some _ => some s
      | none => some { s with app := some (id, blockdata) }
  | .addInsert =>
    match s.app with
    | none => none
    | some (id, blockdata) =>
      some { s with cache := contentBlock id blockdata :: s.cache, app := none }
  | .deleteblock id => some { s with cache := (Bora.deleteblock s.cache id).1 }
  | .fragment f host ts junk =>
    match s.processor with
    | .idle =>
      match fragmentLookup s.cache f host ts junk with
      | .error _ => none
      | .ok (cache, pc) => some { s with cache := cache, processor := pc }
    | _ => none
  | .fragmentInsert =>
    match s.processor with
    | .insert block => some { s with cache := block :: s.cache, processor := .added block.id }
    | _ => none
  | .iscomplete =>
    match s.processor with
    | .added id =>
      some { s with processor := .idle
                    reported := if Bora.iscomplete s.cache id then ⟨id, s.cache⟩ :: s.reported
                      else s.reported }
    | _ => none

end CacheThreads

def cacheThreads : System CacheThreads CacheThreadsAction where
  init s := s = CacheThreads.init
  step := CacheThreads.step

section Lookup

variable {cache c : Cache} {f : FragmentData} {host : SockAddr} {ts : Timeval} {junk : UInt16}
  {pc : ProcessorPc} {r : AddResult}

theorem createBlock_frame (cache : Cache) (f : FragmentData) (host : SockAddr) (ts : Timeval)
    (junk : UInt16) :
    createBlock cache f host ts junk =
      (createBlock [] f host ts junk).map (fun r => (r.1 ++ cache, r.2)) := by
  unfold createBlock
  cases (emptyBlock f.id f.fragments junk).setFragment f.fragmentid.toNat ⟨true, host, ts⟩ with
  | error e => rfl
  | ok b =>
    simp only [ok_bind]
    split
    · cases (b.setLastlen f.length).copyIn (mtu * f.fragmentid.toNat) f.data <;> rfl
    split
    · rfl
    · cases b.copyIn (mtu * f.fragmentid.toNat) f.data <;> rfl

theorem createBlock_nil (h : createBlock [] f host ts junk = .ok (c, r)) :
    r = .added ∧ (∃ b, c = [b] ∧ b.id = f.id) ∨ r ≠ .added ∧ c = [] := by
  have hout := createBlock_outcome rfl h
  cases hout with
  | duplicate hfind => cases hfind
  | mismatch hfind => cases hfind
  | refused hfind => cases hfind
  | stored hfind => cases hfind
  | refusedNew => exact Or.inr ⟨by decide, rfl⟩
  | created _ _ _ hs => exact Or.inl ⟨rfl, _, rfl, hs.id_eq⟩

/-- With nothing in between, the two steps of `addfragment` are `addfragment`. -/
theorem fragmentLookup_alone (h : addfragment cache f host ts junk = .ok (c, r)) :
    (∃ b, fragmentLookup cache f host ts junk = .ok (cache, .insert b) ∧ b :: cache = c ∧
        r = .added) ∨
      fragmentLookup cache f host ts junk = .ok (c, .added f.id) ∧ r = .added ∨
      fragmentLookup cache f host ts junk = .ok (c, .idle) ∧ r ≠ .added := by
  unfold addfragment at h
  unfold fragmentLookup
  cases hfind : findblock cache f.id with
  | none =>
    simp only [hfind] at h
    rw [createBlock_frame] at h
    obtain ⟨⟨c', r'⟩, hc, hr⟩ := map_eq_ok.mp h
    obtain ⟨rfl, rfl⟩ := Prod.mk.inj hr
    simp only [hc]
    rcases createBlock_nil hc with ⟨rfl, b, rfl, -⟩ | ⟨hr', rfl⟩
    · exact Or.inl ⟨b, rfl, rfl, rfl⟩
    · exact Or.inr (Or.inr ⟨rfl, hr'⟩)
  | some block =>
    simp only [hfind] at h
    simp only [h]
    cases r with
    | added => exact Or.inr (Or.inl ⟨rfl, rfl⟩)
    | duplicate => exact Or.inr (Or.inr ⟨rfl, by decide⟩)
    | fragmentsMismatch => exact Or.inr (Or.inr ⟨rfl, by decide⟩)
    | fragmentidOutOfBounds => exact Or.inr (Or.inr ⟨rfl, by decide⟩)
    | badLen => exact Or.inr (Or.inr ⟨rfl, by decide⟩)

theorem fragmentLookup_ids (h : fragmentLookup cache f host ts junk = .ok (c, pc)) :
    ids c = ids cache ∧ (∀ b, pc = .insert b → b.id ∉ ids cache) ∧
      ∀ id, pc = .added id → id ∈ ids cache := by
  unfold fragmentLookup at h
  split at h
  · rename_i hfind
    split at h
    · cases h
    · rename_i block rest hc
      cases h
      rcases createBlock_nil hc with ⟨-, b, hb, hid⟩ | ⟨hr, -⟩
      · obtain ⟨rfl, -⟩ := List.cons.inj hb
        refine ⟨rfl, ?_, by simp⟩
        rintro b' hb'
        cases hb'
        rw [hid]
        exact findblock_none_iff.mp hfind
      · exact absurd rfl hr
    · cases h
      exact ⟨rfl, by simp, by simp⟩
  · rename_i block hfind
    have hmem : f.id ∈ ids cache := by
      by_contra hno
      rw [findblock_none_iff.mpr hno] at hfind
      cases hfind
    have hids : ∀ {c' : Cache} {r : AddResult}, updateBlock cache block f host ts = .ok (c', r) →
        ids c' = ids cache := by
      intro c' r hu
      have hout : Outcome cache f 0 c' r := updateBlock_outcome hfind hu
      cases hout with
      | stored => exact ids_storeBlock cache _
      | created hnone => rw [hfind] at hnone; cases hnone
      | duplicate => rfl
      | mismatch => rfl
      | refused => rfl
      | refusedNew => rfl
    split at h
    · cases h
    · rename_i c' hu
      cases h
      refine ⟨hids hu, by simp, ?_⟩
      rintro id hid
      cases hid
      exact hmem
    · rename_i c' r _ hu
      cases h
      exact ⟨hids hu, by simp, by simp⟩

theorem report_sound {cache : Cache} {id : BlockID} (hmem : id ∈ ids cache)
    (h : iscomplete cache id = true) : Report.Sound ⟨id, cache⟩ := by
  unfold iscomplete at h
  split at h
  · rename_i hfind
    exact absurd hmem (findblock_none_iff.mp hfind)
  · rename_i b hfind
    exact ⟨b, hfind, (blockComplete_iff b).mp h⟩

end Lookup

namespace CacheThreads

variable {s t : CacheThreads}

/-- What a step can do to the ids: nothing, put one in front that its thread had looked up, or
delete one. -/
inductive Effect (s t : CacheThreads) : CacheThreadsAction → Prop
  | found {id blockdata} (ht : t = s) : Effect s t (.addLookup id blockdata)
  | missing {id blockdata} (hno : id ∉ ids s.cache) (ht : t = { s with app := some (id, blockdata) }) :
      Effect s t (.addLookup id blockdata)
  | addInsert {id blockdata} (happ : s.app = some (id, blockdata)) (hids : ids t.cache = id :: ids s.cache)
      (htapp : t.app = none) (hpc : t.processor = s.processor) (hr : t.reported = s.reported) :
      Effect s t .addInsert
  | deleteblock {id} (ht : t = { s with cache := (Bora.deleteblock s.cache id).1 }) :
      Effect s t (.deleteblock id)
  | fragment {f host ts junk} (hids : ids t.cache = ids s.cache)
      (hinsert : ∀ b, t.processor = .insert b → b.id ∉ ids s.cache)
      (hadded : ∀ id, t.processor = .added id → id ∈ ids s.cache)
      (htapp : t.app = s.app) (hr : t.reported = s.reported) : Effect s t (.fragment f host ts junk)
  | fragmentInsert {b} (hpc : s.processor = .insert b) (hids : ids t.cache = b.id :: ids s.cache)
      (htpc : t.processor = .added b.id) (htapp : t.app = s.app) (hr : t.reported = s.reported) :
      Effect s t .fragmentInsert
  | iscomplete {id} (hpc : s.processor = .added id) (hcache : t.cache = s.cache)
      (htapp : t.app = s.app) (htpc : t.processor = .idle)
      (hr : t.reported = if Bora.iscomplete s.cache id then ⟨id, s.cache⟩ :: s.reported
        else s.reported) : Effect s t .iscomplete

theorem step_effect {a : CacheThreadsAction} (h : s.step a = some t) : Effect s t a := by
  cases a with
  | addLookup id blockdata =>
    simp only [step] at h
    split at h
    · cases h
    split at h
    · cases h
      exact .found rfl
    · rename_i hfind
      cases h
      exact .missing (findblock_none_iff.mp hfind) rfl
  | addInsert =>
    simp only [step] at h
    split at h
    · cases h
    · rename_i happ
      cases h
      exact .addInsert happ rfl rfl rfl rfl
  | deleteblock id =>
    cases h
    exact .deleteblock rfl
  | fragment f host ts junk =>
    simp only [step] at h
    split at h
    · split at h
      · cases h
      · rename_i hl
        obtain ⟨hids, hinsert, hadded⟩ := fragmentLookup_ids hl
        cases h
        exact .fragment hids hinsert hadded rfl rfl
    · cases h
  | fragmentInsert =>
    simp only [step] at h
    split at h
    · rename_i hpc
      cases h
      exact .fragmentInsert hpc rfl rfl rfl rfl
    · cases h
  | iscomplete =>
    simp only [step] at h
    split at h
    · rename_i hpc
      cases h
      exact .iscomplete hpc rfl rfl rfl rfl
    · cases h

/-- Both threads have looked up one id, found nothing, and not inserted yet. -/
def contended (s : CacheThreads) : Bool :=
  match s.app, s.processor with
  | some (id, _), .insert block => block.id = id
  | _, _ => false

/-- No thread inserts a block under an id that the other has looked up and not inserted yet. -/
def NoneOvertaken (s : CacheThreads) : CacheThreadsAction → Prop
  | .addInsert => s.contended = false
  | .fragmentInsert => s.contended = false
  | _ => True

instance (s : CacheThreads) (a : CacheThreadsAction) : Decidable (NoneOvertaken s a) := by
  cases a <;> unfold NoneOvertaken <;> infer_instance

theorem contended_of {id : BlockID} {blockdata : Bytes} {b : Block}
    (happ : s.app = some (id, blockdata)) (hpc : s.processor = .insert b) :
    s.contended = decide (b.id = id) := by simp only [contended, happ, hpc]

/-- The ids are distinct, and one that was looked up in vain is still not there. -/
structure Distinct (s : CacheThreads) : Prop where
  nodup : (ids s.cache).Nodup
  app : ∀ id blockdata, s.app = some (id, blockdata) → id ∉ ids s.cache
  processor : ∀ b, s.processor = .insert b → b.id ∉ ids s.cache

theorem Distinct.step (h : s.Distinct) {a : CacheThreadsAction} (ha : NoneOvertaken s a)
    (hs : s.step a = some t) : t.Distinct := by
  cases step_effect hs with
  | found ht =>
    rw [ht]
    exact h
  | missing hno ht =>
    subst t
    refine ⟨h.nodup, ?_, h.processor⟩
    intro id' blockdata' happ
    cases happ
    exact hno
  | @addInsert id blockdata happ hids htapp hpc hr =>
    refine ⟨?_, by simp [htapp], ?_⟩
    · rw [hids]
      exact List.nodup_cons.mpr ⟨h.app id blockdata happ, h.nodup⟩
    · intro b hb
      rw [hpc] at hb
      rw [hids, List.mem_cons, not_or]
      refine ⟨?_, h.processor b hb⟩
      have hno : s.contended = false := ha
      rw [contended_of happ hb] at hno
      simpa using hno
  | @deleteblock id ht =>
    subst t
    have hsub : (ids (deleteblock s.cache id).1).Sublist (ids s.cache) :=
      (deleteblock_sublist s.cache id).map Block.id
    exact ⟨h.nodup.sublist hsub, fun id' blockdata happ hin => h.app id' blockdata happ (hsub.mem hin),
      fun b hb hin => h.processor b hb (hsub.mem hin)⟩
  | fragment hids hinsert hadded htapp hr =>
    refine ⟨by rw [hids]; exact h.nodup, ?_, ?_⟩
    · intro id blockdata happ
      rw [hids]
      rw [htapp] at happ
      exact h.app id blockdata happ
    · intro b hb
      rw [hids]
      exact hinsert b hb
  | @fragmentInsert b hpc hids htpc htapp hr =>
    refine ⟨?_, ?_, by simp [htpc]⟩
    · rw [hids]
      exact List.nodup_cons.mpr ⟨h.processor b hpc, h.nodup⟩
    · intro id blockdata happ
      rw [htapp] at happ
      rw [hids, List.mem_cons, not_or]
      refine ⟨?_, h.app id blockdata happ⟩
      have hno : s.contended = false := ha
      rw [contended_of happ hpc] at hno
      rintro rfl
      simp at hno
  | iscomplete hpc hcache htapp htpc hr =>
    refine ⟨by rw [hcache]; exact h.nodup, ?_, by simp [htpc]⟩
    rw [hcache, htapp]
    exact h.app

/-- In every run in which no thread inserts a block under an id that the other has looked up and
not inserted yet, no two blocks in the cache have the same id. -/
theorem ids_distinct (h : Reaches cacheThreads NoneOvertaken s) : (ids s.cache).Nodup := by
  have hinv : s.Distinct := by
    apply h.invariant
    · rintro _ rfl
      exact ⟨List.nodup_nil, by simp [init], by simp [init]⟩
    · intro s a t hd ha hs
      exact hd.step ha hs
  exact hinv.nodup

/-- Where a thread overtakes the other like that, the insertion of the other, if it comes next,
puts a second block under the id. -/
theorem overtaken_duplicates {a : CacheThreadsAction} (ha : ¬ NoneOvertaken s a)
    (hs : s.step a = some t) :
    ∃ a' u, (a' = .addInsert ∨ a' = .fragmentInsert) ∧ t.step a' = some u ∧
      ¬ (ids u.cache).Nodup := by
  have hboth : ∀ id blockdata b, s.app = some (id, blockdata) → s.processor = .insert b →
      ¬ s.contended = false → b.id = id := by
    intro id blockdata b happ hpc hno
    rw [contended_of happ hpc] at hno
    simpa using hno
  have hduplicate : ∀ (id : BlockID) (rest : List BlockID), ¬ (id :: id :: rest).Nodup := by
    intro id rest hnodup
    exact (List.nodup_cons.mp hnodup).1 List.mem_cons_self
  have hcase : ∀ s : CacheThreads, ¬ s.contended = false →
      ∃ id blockdata b, s.app = some (id, blockdata) ∧ s.processor = .insert b := by
    intro s hno
    unfold contended at hno
    split at hno
    · rename_i id blockdata b happ hpc
      exact ⟨id, blockdata, b, happ, hpc⟩
    · exact absurd rfl hno
  cases step_effect hs with
  | addInsert happ hids htapp hpc hr =>
    obtain ⟨id, blockdata, b, happ', hpc'⟩ := hcase s ha
    refine ⟨.fragmentInsert, { t with cache := b :: t.cache, processor := .added b.id },
      Or.inr rfl, by simp only [step, hpc, hpc'], ?_⟩
    rw [happ] at happ'
    cases happ'
    show ¬ (b.id :: ids t.cache).Nodup
    rw [hids, hboth _ _ b happ hpc' ha]
    exact hduplicate _ _
  | fragmentInsert hpc hids htpc htapp hr =>
    obtain ⟨id, blockdata, b, happ', hpc'⟩ := hcase s ha
    refine ⟨.addInsert, { t with cache := contentBlock id blockdata :: t.cache, app := none },
      Or.inl rfl, by simp only [step, htapp, happ'], ?_⟩
    rw [hpc] at hpc'
    cases hpc'
    show ¬ (id :: ids t.cache).Nodup
    rw [hids, hboth _ _ _ happ' hpc ha]
    exact hduplicate _ _
  | found ht => exact absurd trivial ha
  | missing hno ht => exact absurd trivial ha
  | deleteblock ht => exact absurd trivial ha
  | fragment => exact absurd trivial ha
  | iscomplete => exact absurd trivial ha

/-- No `deleteblock` takes out the lone block of an id between F_ADDED for it and the lookup of
`iscomplete`. -/
def NoneVanishes (s : CacheThreads) : CacheThreadsAction → Prop
  | .deleteblock id => match s.processor with
    | .added id' => id' = id → ¬ Lone s.cache id
    | _ => True
  | _ => True

instance (s : CacheThreads) (a : CacheThreadsAction) : Decidable (NoneVanishes s a) := by
  unfold NoneVanishes
  split
  · split <;> infer_instance
  · infer_instance

/-- The block of an added fragment is there, and all reports so far were sound. -/
structure Sound (s : CacheThreads) : Prop where
  added : ∀ id, s.processor = .added id → id ∈ ids s.cache
  reported : ∀ r ∈ s.reported, r.Sound

theorem Sound.step (h : s.Sound) {a : CacheThreadsAction} (ha : NoneVanishes s a)
    (hs : s.step a = some t) : t.Sound := by
  cases step_effect hs with
  | found ht =>
    rw [ht]
    exact h
  | missing hno ht =>
    subst t
    exact ⟨h.added, h.reported⟩
  | addInsert happ hids htapp hpc hr =>
    refine ⟨?_, by rw [hr]; exact h.reported⟩
    intro id hid
    rw [hids]
    exact List.mem_cons_of_mem _ (h.added id (by rw [← hpc]; exact hid))
  | @deleteblock id ht =>
    subst t
    refine ⟨?_, h.reported⟩
    intro id' hid'
    have hpc : s.processor = .added id' := hid'
    refine mem_ids_deleteblock (h.added id' hpc) ?_
    simpa only [NoneVanishes, hpc] using ha
  | fragment hids hinsert hadded htapp hr =>
    refine ⟨?_, by rw [hr]; exact h.reported⟩
    rw [hids]
    exact hadded
  | @fragmentInsert b hpc hids htpc htapp hr =>
    refine ⟨?_, by rw [hr]; exact h.reported⟩
    intro id hid
    rw [htpc] at hid
    cases hid
    rw [hids]
    exact List.mem_cons_self
  | @iscomplete id hpc hcache htapp htpc hr =>
    refine ⟨by simp [htpc], ?_⟩
    rw [hr]
    split
    · rename_i hcomplete
      exact List.forall_mem_cons.mpr ⟨report_sound (h.added id hpc) hcomplete, h.reported⟩
    · exact h.reported

/-- In every run in which no lone block is deleted between F_ADDED for it and the lookup of
`iscomplete`, each reported block was in the cache at that lookup, with all its fragments. -/
theorem reports_sound (h : Reaches cacheThreads NoneVanishes s) :
    ∀ r ∈ s.reported, ∃ b, findblock r.cache r.id = some b ∧
      ∀ i < b.fs.fn.toNat, b.heldAt i = true := by
  have hinv : s.Sound := by
    apply h.invariant
    · rintro _ rfl
      exact ⟨by simp [init], by simp [init]⟩
    · intro s a t hd ha hs
      exact hd.step ha hs
  exact hinv.reported

/-- After such a deletion `iscomplete` finds no block, and the id is reported. -/
theorem vanished_reported {a : CacheThreadsAction} (ha : ¬ NoneVanishes s a)
    (hs : s.step a = some t) :
    ∃ u, t.step .iscomplete = some u ∧ ∃ r ∈ u.reported, ¬ r.Sound := by
  unfold NoneVanishes at ha
  split at ha
  · rename_i id
    split at ha
    · rename_i id' hpc
      obtain ⟨rfl, hlone⟩ := Classical.not_imp.mp ha
      cases hs
      have hno := findblock_none_iff.mpr (not_mem_deleteblock (not_not.mp hlone))
      refine ⟨_, by simp only [step, hpc]; rfl, ⟨id', (Bora.deleteblock s.cache id').1⟩, ?_, ?_⟩
      · simp [Bora.iscomplete, hno]
      · rintro ⟨b, hfind, -⟩
        rw [hno] at hfind
        cases hfind
    · exact absurd trivial ha
  · exact absurd trivial ha

def fragmentArrives : CacheThreadsAction :=
  .fragment ⟨1, 1, 0, 1, 1, [8], rfl⟩ default default 0

theorem ids_distinct_run :
    ∃ s, cacheThreads.runIf NoneOvertaken init
        [.addLookup ⟨1, 2⟩ [7], fragmentArrives, .addInsert, .fragmentInsert] = some s ∧
      ids s.cache = [⟨1, 1⟩, ⟨1, 2⟩] ∧ (ids s.cache).Nodup := by
  have hrun : (cacheThreads.runIf NoneOvertaken init
      [.addLookup ⟨1, 2⟩ [7], fragmentArrives, .addInsert, .fragmentInsert]).map
        (fun s => ids s.cache) = some [⟨1, 1⟩, ⟨1, 2⟩] := by decide +kernel
  obtain ⟨s, hs, hids⟩ := Option.map_eq_some_iff.mp hrun
  exact ⟨s, hs, hids, ids_distinct ((Reaches.init rfl).runIf hs)⟩

/-- `addblock` and the first fragment of the same block, each looking up before the other
inserts. -/
theorem ids_duplicated : ∃ s, Reachable cacheThreads s ∧ ids s.cache = [⟨1, 1⟩, ⟨1, 1⟩] := by
  have hrun : (cacheThreads.runIf (fun _ _ => True) init
      [.addLookup ⟨1, 1⟩ [8], fragmentArrives, .addInsert, .fragmentInsert]).map
        (fun s => ids s.cache) = some [⟨1, 1⟩, ⟨1, 1⟩] := by decide +kernel
  obtain ⟨s, hs, hids⟩ := Option.map_eq_some_iff.mp hrun
  exact ⟨s, (Reaches.init rfl).runIf hs, hids⟩

theorem reports_sound_run :
    ∃ s, cacheThreads.runIf NoneVanishes init [fragmentArrives, .fragmentInsert, .iscomplete] =
        some s ∧
      s.reported.map Report.id = [⟨1, 1⟩] ∧
      ∀ r ∈ s.reported, ∃ b, findblock r.cache r.id = some b ∧
        ∀ i < b.fs.fn.toNat, b.heldAt i = true := by
  have hrun : (cacheThreads.runIf NoneVanishes init
      [fragmentArrives, .fragmentInsert, .iscomplete]).map (fun s => s.reported.map Report.id) =
        some [⟨1, 1⟩] := by decide +kernel
  obtain ⟨s, hs, hids⟩ := Option.map_eq_some_iff.mp hrun
  exact ⟨s, hs, hids, reports_sound ((Reaches.init rfl).runIf hs)⟩

/-- The application puts another block in front and deletes this one before the processor asks
whether it is complete: block 1 is reported though it is gone. -/
theorem deleted_reported :
    ∃ s, Reachable cacheThreads s ∧ ∃ r ∈ s.reported, findblock r.cache r.id = none := by
  have hrun : (cacheThreads.runIf (fun _ _ => True) init
      [fragmentArrives, .fragmentInsert, .addLookup ⟨1, 2⟩ [7], .addInsert, .deleteblock ⟨1, 1⟩,
        .iscomplete]).map (fun s => s.reported.any (fun r => (findblock r.cache r.id).isNone)) =
        some true := by decide +kernel
  obtain ⟨s, hs, hany⟩ := Option.map_eq_some_iff.mp hrun
  obtain ⟨r, hr, hnone⟩ := List.any_eq_true.mp hany
  exact ⟨s, (Reaches.init rfl).runIf hs, r, hr, Option.isNone_iff_eq_none.mp hnone⟩

end CacheThreads

end Bora
