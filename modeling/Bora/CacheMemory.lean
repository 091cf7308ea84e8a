import Bora.BlockHeap
import Bora.Library.Simulation

/-! The block cache in memory over whole runs: the queries read what the cache has, the calls do
what they do to the cache, and what is allocated and not listed is counted. -/
namespace Bora

open ByteMemory Checked LinkedList Transition

namespace BlockHeap

variable {h : BlockHeap} {ks lost all : List Stored} {k : Stored} {cache : Cache} {leaked : ℕ}

section Reads

theorem Arrays.heldBelow_eq (ha : h.Arrays all) (hk : k ∈ all) {n : ℕ}
    (hn : n ≤ k.block.fs.fn.toNat) :
    h.heldBelow k.header n = some (Bora.heldBelow k.block n) := by
  induction n with
  | zero => rfl
  | succ i ih =>
    have hread := ha.readHave_agrees hk (b := k.header) rfl i
    rw [Block.readHave, if_pos (Nat.lt_of_succ_le hn)] at hread
    obtain ⟨_, hread, rfl⟩ := hread.of_ok
    rw [heldBelow, hread, Bora.heldBelow, Option.bind_eq_bind, Option.bind_some]
    cases k.block.heldAt i with
    | true => simpa using ih (by omega)
    | false => simp

theorem Arrays.blockComplete_eq (ha : h.Arrays all) (hk : k ∈ all) :
    h.heldBelow k.header k.header.fs.fn.toNat = some (blockComplete k.block) :=
  ha.heldBelow_eq hk (Nat.le_refl _)

theorem Arrays.consecutivesBelow_agrees (ha : h.Arrays all) (hk : k ∈ all) (n : ℕ) :
    Agrees Eq (h.consecutivesBelow k.header n) (Bora.consecutivesBelow k.block n) := by
  induction n with
  | zero => rfl
  | succ i ih =>
    unfold consecutivesBelow Bora.consecutivesBelow
    refine (ha.readHave_agrees hk (b := k.header) rfl i).bind ?_
    rintro held _ rfl
    cases held with
    | false => rfl
    | true =>
      refine ih.bind ?_
      rintro n _ rfl
      rfl

theorem Arrays.copyOut_agrees (ha : h.Arrays all) (hk : k ∈ all) (off len : ℕ) :
    Agrees (fun d (x : Bytes) => d.val = x) (h.copyOut k.header off len)
      (if off + len ≤ k.block.content.data.length then
        (.ok (slice k.block.content.data off len) : Except Fault Bytes)
      else .error (.read off len k.block.content.data.length)) := by
  have heq := ha.copyOut_eq hk (b := k.header) rfl off len
  cases hd : h.copyOut k.header off len with
  | none =>
    rw [hd] at heq
    split at heq
    · cases heq
    · rename_i hle
      rw [if_neg hle]
      trivial
  | some d =>
    rw [hd] at heq
    split at heq
    · rename_i hle
      rw [if_pos hle]
      exact Option.some.inj heq
    · cases heq

end Reads

/-- The queries on the memory return what they return on the cache, and stop at the same faults. -/
structure Answers (h : BlockHeap) (cache : Cache) : Prop where
  iscomplete : ∀ id, h.iscomplete id = some (Bora.iscomplete cache id)
  getBlockData : ∀ id, Agrees Eq (h.getBlockData id) (Bora.getBlockData cache id)
  getConsecutives : ∀ fragment,
    Agrees Eq (h.getConsecutives fragment) (Bora.getConsecutives cache fragment)
  sendblock : ∀ id dest, Agrees Eq (h.sendblock id dest) (Bora.sendblock cache id dest)
  completeList : h.getBlockList id = some (getCompleteBlockList cache)
  incompleteList : h.getBlockList not = some (getIncompleteBlockList cache)

theorem Layout.found (hl : h.Layout ks lost) (id : BlockID) :
    (h.findblock id = some none ∧ Bora.findblock (ks.map Stored.block) id = none) ∨
      ∃ k ∈ ks ++ lost, ∃ l, h.findblock id = some (some k.node) ∧
        h.blocks.read k.node = some ⟨k.header, l⟩ ∧
        Bora.findblock (ks.map Stored.block) id = some k.block := by
  have hfind := hl.findblock_eq id
  have hcache := findblock_cache ks id
  cases hk : ks.find? (fun k => k.block.id = id) with
  | none =>
    rw [hk] at hfind hcache
    exact Or.inl ⟨hfind, hcache⟩
  | some k =>
    rw [hk] at hfind hcache
    obtain ⟨-, front, back, rfl, -⟩ := split_of_block hk
    exact Or.inr ⟨k, by simp, _, hfind, hl.read_node, hcache⟩

theorem Layout.iscomplete_eq (hl : h.Layout ks lost) (id : BlockID) :
    h.iscomplete id = some (Bora.iscomplete (ks.map Stored.block) id) := by
  rcases hl.found id with ⟨hfind, hcache⟩ | ⟨k, hk, l, hfind, hread, hcache⟩
  · simp only [iscomplete, Bora.iscomplete, hfind, hcache, Option.bind_eq_bind, Option.bind_some]
  · simp only [iscomplete, Bora.iscomplete, hfind, hcache, hread, Option.bind_eq_bind,
      Option.bind_some, hl.arrays.blockComplete_eq hk]

theorem Layout.getBlockData_agrees (hl : h.Layout ks lost) (id : BlockID) :
    Agrees Eq (h.getBlockData id) (Bora.getBlockData (ks.map Stored.block) id) := by
  unfold getBlockData Bora.getBlockData
  rcases hl.found id with ⟨hfind, hcache⟩ | ⟨k, hk, l, hfind, hread, hcache⟩
  · rw [hcache]
    exact Agrees.bind_some hfind rfl
  have hcopy := hl.arrays.copyOut_agrees hk 0 k.block.content.length.toNat
  rw [Nat.zero_add] at hcopy
  rw [hcache]
  refine Agrees.bind_some hfind (Agrees.bind_some hread ?_)
  simp only
  split
  · rename_i hle
    rw [if_pos hle] at hcopy
    obtain ⟨d, hd, hval⟩ := hcopy.of_ok
    refine Agrees.bind_some hd ?_
    rw [hval]
    rfl
  · rename_i hle
    rw [if_neg hle] at hcopy
    have hnone : h.copyOut k.header 0 k.header.length.toNat = none := hcopy.of_error
    rw [hnone]
    trivial

theorem Layout.getConsecutives_agrees (hl : h.Layout ks lost) (fragment : FragmentID) :
    Agrees Eq (h.getConsecutives fragment)
      (Bora.getConsecutives (ks.map Stored.block) fragment) := by
  unfold getConsecutives Bora.getConsecutives
  rcases hl.found fragment.id with ⟨hfind, hcache⟩ | ⟨k, hk, l, hfind, hread, hcache⟩
  · rw [hcache]
    exact Agrees.bind_some hfind rfl
  rw [hcache]
  refine Agrees.bind_some hfind (Agrees.bind_some hread ?_)
  have hcount := hl.arrays.consecutivesBelow_agrees hk fragment.fragmentid.toNat
  simp only
  cases hn : Bora.consecutivesBelow k.block fragment.fragmentid.toNat with
  | error e =>
    rw [hn] at hcount
    rw [hcount.of_error]
    trivial
  | ok n =>
    rw [hn] at hcount
    obtain ⟨_, hret, rfl⟩ := hcount.of_ok
    exact Agrees.bind_some hret rfl

theorem Layout.sendPacket_agrees (hl : h.Layout ks lost) (hk : k ∈ ks ++ lost)
    (dest : SockAddr) (i : ℕ) :
    Agrees Eq (h.sendPacket k.header dest i) (Bora.sendPacket k.block dest i) := by
  have hread := hl.arrays.copyOut_agrees hk (mtu * i) (k.block.fragmentLength i).toNat
  have hfragment : Agrees Eq (h.sendFragment k.header i) (Bora.sendFragment k.block i) := by
    unfold sendFragment Bora.sendFragment
    split
    · rename_i hle
      rw [if_pos hle] at hread
      obtain ⟨d, hd, hval⟩ := hread.of_ok
      refine Agrees.bind_some hd ?_
      simp only [Agrees, FragmentData.mk.injEq]
      exact ⟨rfl, rfl, trivial, rfl, rfl, hval⟩
    · rename_i hle
      rw [if_neg hle] at hread
      have hnone : h.copyOut k.header (mtu * i) (fragmentLength k.header i).toNat = none :=
        hread.of_error
      rw [hnone]
      trivial
  unfold sendPacket Bora.sendPacket
  refine hfragment.bind ?_
  rintro fragment _ rfl
  refine (Agrees.toOption (encodeFragment fragment)).bind ?_
  rintro d _ rfl
  rfl

theorem Layout.sendblock_agrees (hl : h.Layout ks lost) (id : BlockID) (dest : SockAddr) :
    Agrees Eq (h.sendblock id dest) (Bora.sendblock (ks.map Stored.block) id dest) := by
  unfold sendblock Bora.sendblock
  rcases hl.found id with ⟨hfind, hcache⟩ | ⟨k, hk, l, hfind, hread, hcache⟩
  · rw [hcache]
    exact Agrees.bind_some hfind rfl
  rw [hcache]
  refine Agrees.bind_some hfind (Agrees.bind_some hread ?_)
  refine (Agrees.mapM (fun i _ => hl.sendPacket_agrees hk dest i)).bind ?_
  rintro ds _ rfl
  rfl

theorem Layout.getBlockcacheSize_eq (hl : h.Layout ks lost) :
    h.getBlockcacheSize = some ks.length := by
  rw [getBlockcacheSize, hl.head, hl.blocks.fold_eq List.mem_cons_self,
    foldlM_add (k := fun _ => 1) (fun _ _ _ => rfl)]
  simp [Function.comp_def]

theorem Arrays.listBlocks_eq (ha : h.Arrays all) (keep : Bool → Bool) (hks : ∀ k ∈ ks, k ∈ all)
    {len : ℕ} {ret : List BlockID} (hlen : ret.length + ks.length ≤ len) :
    (ks.map Stored.cell).foldlM (fun ret x => h.listBlock keep len ret x.2) ret =
      some (ret ++ listBlocks (fun b => keep (blockComplete b)) (ks.map Stored.block)) := by
  induction ks generalizing ret with
  | nil => simp [listBlocks]
  | cons k ks ih =>
    rw [List.forall_mem_cons] at hks
    rw [List.length_cons] at hlen
    have hround : h.listBlock keep len ret k.header =
        some (if keep (blockComplete k.block) then ret ++ [k.block.id] else ret) := by
      rw [listBlock, ha.blockComplete_eq hks.1, Option.bind_eq_bind, Option.bind_some,
        if_pos (show ret.length < len by omega)]
      split <;> rfl
    have hnext : (k :: ks).map Stored.cell = (k.node, k.header) :: ks.map Stored.cell := rfl
    rw [hnext, List.foldlM_cons, hround, Option.bind_eq_bind, Option.bind_some, List.map_cons,
      listBlocks]
    split
    · rw [ih hks.2 (by simp; omega), List.append_assoc]
      rfl
    · rw [ih hks.2 (by omega)]

theorem Layout.getBlockList_eq (hl : h.Layout ks lost) (keep : Bool → Bool) :
    h.getBlockList keep =
      some (listBlocks (fun b => keep (blockComplete b)) (ks.map Stored.block)) := by
  unfold getBlockList
  rw [hl.getBlockcacheSize_eq, Option.bind_eq_bind, Option.bind_some, hl.head,
    hl.blocks.fold_eq List.mem_cons_self]
  exact hl.arrays.listBlocks_eq keep (fun k hk => List.mem_append_left lost hk) (by simp)

theorem Represents.answers (hr : h.Represents cache leaked) : h.Answers cache := by
  obtain ⟨ks, lost, hl, rfl, -⟩ := hr
  exact ⟨hl.iscomplete_eq, hl.getBlockData_agrees, hl.getConsecutives_agrees,
    hl.sendblock_agrees, hl.getBlockList_eq id, hl.getBlockList_eq not⟩

/-- A block is one node, one flag array and one content buffer. -/
theorem Represents.allocated (hr : h.Represents cache leaked) :
    h.blocks.allocated = cache.length + leaked ∧ h.flags.allocated = cache.length + leaked ∧
      h.buffers.allocated = cache.length + leaked := by
  obtain ⟨ks, lost, hl, rfl, rfl⟩ := hr
  refine ⟨?_, ?_, ?_⟩
  · simp [hl.blocks.allocated_eq]
  · simp [hl.arrays.flags.allocated_eq]
  · simp [hl.arrays.buffers.allocated_eq]

end BlockHeap

/-- The cache, with the number of blocks that were made and are not listed. -/
structure LeakyCache where
  cache : Cache
  leaked : ℕ

/-- A block is leaked by a first fragment that is refused for its length; `none` is the state
after a fault. -/
def leakyCache : System (Option LeakyCache) CacheAction where
  init s := s = some ⟨[], 0⟩
  step s a := s.map (fun s =>
    match a with
    | .addblock id blockdata => some { s with cache := (addblock s.cache id blockdata).1 }
    | .deleteblock id => some { s with cache := (deleteblock s.cache id).1 }
    | .addfragment fragment host ts junk =>
      match addfragment s.cache fragment host ts junk with
      | .error _ => none
      | .ok (cache, r) =>
        some ⟨cache, s.leaked +
          if r = .badLen ∧ findblock s.cache fragment.id = none then 1 else 0⟩)

/-- A call, with what `malloc` gives if it asks for a block. -/
structure BlockCall where
  call : CacheAction
  addresses : Addresses

def BlockHeap.exec (h : BlockHeap) (c : BlockCall) : Option BlockHeap :=
  match c.call with
  | .addblock id blockdata => (h.addblock id blockdata c.addresses).map Prod.fst
  | .deleteblock id => (h.deleteblock id).map Prod.fst
  | .addfragment fragment host ts junk =>
    (h.addfragment fragment host ts junk c.addresses).map Prod.fst

def BlockHeap.free (h : BlockHeap) (p : Addresses) : Bool :=
  (h.blocks.read p.node).isNone && (h.flags.read p.f).isNone && (h.buffers.read p.data).isNone

/-- `none` is the state after a fault: a link that is followed to no block, an array that is
overrun or was freed, something freed twice, or a loop without an end. -/
def blockCalls : System (Option BlockHeap) BlockCall where
  init s := s = some BlockHeap.init
  step s c := s.bind (fun h => if h.free c.addresses then some (h.exec c) else none)

theorem BlockHeap.fresh_of_free {h : BlockHeap} {p : Addresses} (hp : h.free p = true) :
    h.Fresh p := by
  simp only [BlockHeap.free, Bool.and_eq_true, Option.isNone_iff_eq_none] at hp
  exact ⟨hp.1.1, hp.1.2, hp.2⟩

/-- Both have faulted, or the memory holds the cache, with as many blocks besides as are leaked. -/
def HoldsCache : Option BlockHeap → Option LeakyCache → Prop
  | some h, some s => h.Represents s.cache s.leaked
  | none, none => True
  | _, _ => False

theorem HoldsCache.exec {h : BlockHeap} {s : LeakyCache} (hr : h.Represents s.cache s.leaked)
    {c : BlockCall} (hp : h.free c.addresses = true) :
    ∃ t, leakyCache.step (some s) c.call = some t ∧ HoldsCache (h.exec c) t := by
  obtain ⟨a, p⟩ := c
  have hfresh := BlockHeap.fresh_of_free hp
  refine ⟨_, rfl, ?_⟩
  cases a with
  | addblock id blockdata =>
    obtain ⟨h', hadd, hr'⟩ := hr.addblock_eq id blockdata hfresh
    simp only [BlockHeap.exec, hadd]
    exact hr'
  | deleteblock id =>
    obtain ⟨h', hdel, hr'⟩ := hr.deleteblock_eq id
    simp only [BlockHeap.exec, hdel]
    exact hr'
  | addfragment fragment host ts junk =>
    have hadd := hr.addfragment_agrees fragment host ts junk hfresh
    simp only [BlockHeap.exec]
    cases hcache : addfragment s.cache fragment host ts junk with
    | error e =>
      rw [hcache] at hadd
      rw [hadd.of_error]
      trivial
    | ok r =>
      rw [hcache] at hadd
      obtain ⟨x, hx, -, hr'⟩ := hadd.of_ok
      rw [hx]
      exact hr'

theorem HoldsCache.step {s s' : Option BlockHeap} {t : Option LeakyCache} {c : BlockCall}
    (h : HoldsCache s t) (hs : blockCalls.step s c = some s') :
    ∃ t', leakyCache.step t c.call = some t' ∧ HoldsCache s' t' := by
  obtain ⟨p, rfl, hexec⟩ := Option.bind_eq_some_iff.mp hs
  split at hexec
  · rename_i hfree
    cases hexec
    cases t with
    | none => exact h.elim
    | some u => exact HoldsCache.exec h hfree
  · cases hexec

theorem holdsCache_init : HoldsCache (some BlockHeap.init) (some ⟨[], 0⟩) :=
  ⟨[], [], BlockHeap.layout_init, rfl, rfl⟩

theorem leakyCache_blockcache {t : Option LeakyCache} (h : Reachable leakyCache t) :
    ∀ u, t = some u → Reachable blockcache u.cache := by
  apply h.invariant
  · rintro _ rfl u hu
    cases hu
    exact .init rfl
  · rintro t a t' ht - hstep u rfl
    obtain ⟨v, rfl, hv⟩ := Option.map_eq_some_iff.mp hstep
    refine (ht v rfl).step (a := a) trivial ?_
    cases a with
    | addblock id blockdata =>
      cases hv
      rfl
    | deleteblock id =>
      cases hv
      rfl
    | addfragment fragment host ts junk =>
      simp only at hv
      cases hadd : addfragment v.cache fragment host ts junk with
      | error e =>
        rw [hadd] at hv
        cases hv
      | ok r =>
        rw [hadd] at hv
        cases hv
        simp only [blockcache, hadd]
        rfl

/-- The call is for a fragment whose index or length does not fit. -/
def OutOfBounds (cache : Cache) : CacheAction → Prop
  | .addfragment fragment _ _ _ => ¬ InBounds cache fragment
  | _ => False

/-- What the memory of a node is to its cache: the next call and the queries return what they return
on the cache. -/
structure InMemory (p : BlockHeap) (u : LeakyCache) : Prop where
  reachable : Reachable blockcache u.cache
  addblock : ∀ id blockdata q, p.free q = true →
    (p.addblock id blockdata q).map Prod.snd = some (addblock u.cache id blockdata).2
  deleteblock : ∀ id, (p.deleteblock id).map Prod.snd = some (deleteblock u.cache id).2
  addfragment : ∀ fragment host ts junk q, p.free q = true →
    Agrees (fun r s => r.2 = s.2) (p.addfragment fragment host ts junk q)
      (addfragment u.cache fragment host ts junk)
  answers : p.Answers u.cache
  blocks : p.blocks.allocated = u.cache.length + u.leaked
  flags : p.flags.allocated = u.cache.length + u.leaked
  buffers : p.buffers.allocated = u.cache.length + u.leaked
  faults : ∀ c : BlockCall, p.free c.addresses = true →
    (p.exec c = none ↔ OutOfBounds u.cache c.call)

theorem exec_fault_iff {p : BlockHeap} {u : LeakyCache} (hr : p.Represents u.cache u.leaked)
    (hcache : Reachable blockcache u.cache) {c : BlockCall} (hfree : p.free c.addresses = true) :
    p.exec c = none ↔ OutOfBounds u.cache c.call := by
  obtain ⟨a, q⟩ := c
  have hfresh := BlockHeap.fresh_of_free hfree
  cases a with
  | addblock id blockdata =>
    obtain ⟨h', hadd, -⟩ := hr.addblock_eq id blockdata hfresh
    simp [BlockHeap.exec, hadd, OutOfBounds]
  | deleteblock id =>
    obtain ⟨h', hdel, -⟩ := hr.deleteblock_eq id
    simp [BlockHeap.exec, hdel, OutOfBounds]
  | addfragment fragment host ts junk =>
    have hsafe : (∃ r, addfragment u.cache fragment host ts junk = .ok r) ↔
        InBounds u.cache fragment := addfragment_safe_iff (blockcache_roomy hcache)
    have hadd := hr.addfragment_agrees fragment host ts junk hfresh
    simp only [OutOfBounds, ← hsafe, BlockHeap.exec, Option.map_eq_none_iff]
    cases hresult : addfragment u.cache fragment host ts junk with
    | error e =>
      rw [hresult] at hadd
      simp [hadd.of_error]
    | ok r =>
      rw [hresult] at hadd
      obtain ⟨x, hx, -⟩ := hadd.of_ok
      simp [hx]

theorem inMemory_of_represents {p : BlockHeap} {u : LeakyCache}
    (hr : p.Represents u.cache u.leaked) (hcache : Reachable blockcache u.cache) :
    InMemory p u := by
  obtain ⟨hblocks, hflags, hbuffers⟩ := hr.allocated
  refine ⟨hcache, fun id blockdata q hq => ?_, fun id => ?_, fun fragment host ts junk q hq => ?_,
    hr.answers, hblocks, hflags, hbuffers, fun c hfree => exec_fault_iff hr hcache hfree⟩
  · obtain ⟨h', hadd, -⟩ := hr.addblock_eq id blockdata (BlockHeap.fresh_of_free hq)
    rw [hadd, Option.map_some]
  · obtain ⟨h', hdel, -⟩ := hr.deleteblock_eq id
    rw [hdel, Option.map_some]
  · exact (hr.addfragment_agrees fragment host ts junk (BlockHeap.fresh_of_free hq)).mono
      (fun _ _ _ _ hreturns => hreturns.1)

/-- In every run the list of blocks in memory is the cache that the same calls make: the calls and
the queries do and return what they do on the cache, and nothing but an index or a length that does
not fit makes one fault. What is allocated is a node, a flag array and a buffer for each block that
is listed, and for each block whose first fragment was refused for its length. -/
theorem blockCalls_hold {cs : List BlockCall} {s : Option BlockHeap}
    (h : blockCalls.run (some BlockHeap.init) cs = some s) :
    ∃ t, leakyCache.run (some ⟨[], 0⟩) (cs.map BlockCall.call) = some t ∧ HoldsCache s t ∧
      ∀ p u, s = some p → t = some u → InMemory p u := by
  obtain ⟨t, ht, hholds⟩ :=
    Simulation.run_map (f := BlockCall.call) (fun _ _ _ _ => HoldsCache.step) holdsCache_init h
  refine ⟨t, ht, hholds, ?_⟩
  rintro p u rfl rfl
  have hr : p.Represents u.cache u.leaked := hholds
  exact inMemory_of_represents hr (leakyCache_blockcache ((Reaches.init rfl).run ht) u rfl)

def BlockHeap.counts (s : Option BlockHeap) : Option (ℕ × ℕ × ℕ) :=
  s.map (fun p => (p.blocks.allocated, p.flags.allocated, p.buffers.allocated))

/-- Two blocks are added and one deleted, whose node is used again for a block that is lost; then
the first fragment of a block of two. -/
def leakyCalls : List BlockCall :=
  [⟨.addblock ⟨1, 1⟩ [7], ⟨3, 0, 5⟩⟩, ⟨.addblock ⟨1, 2⟩ [8, 9], ⟨2, 4, 1⟩⟩,
    ⟨.deleteblock ⟨1, 1⟩, ⟨9, 9, 9⟩⟩,
    ⟨.addfragment ⟨1, 3, 0, 2, 1, [3], rfl⟩ default default 0, ⟨3, 0, 5⟩⟩,
    ⟨.addfragment ⟨1, 4, 1, 2, 1, [4], rfl⟩ default default 0, ⟨0, 2, 8⟩⟩]

theorem blockCalls_hold_leak :
    ∃ s : Option BlockHeap, BlockHeap.counts s = some (3, 3, 3) ∧
      ∃ t, leakyCache.run (some ⟨[], 0⟩) (leakyCalls.map BlockCall.call) = some t ∧
        HoldsCache s t ∧ ∀ p u, s = some p → t = some u → InMemory p u := by
  have hrun : (blockCalls.run (some BlockHeap.init) leakyCalls).map BlockHeap.counts =
      some (some (3, 3, 3)) := by decide +kernel
  obtain ⟨s, hs, hcounts⟩ := Option.map_eq_some_iff.mp hrun
  exact ⟨s, hcounts, blockCalls_hold hs⟩

end Bora
