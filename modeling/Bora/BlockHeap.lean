import Bora.BlockListings
import Bora.Library.LinkedList

/-! The list behind `blockcache` as it stands in memory: nodes linked by `next`, each with a flag
array and a content buffer of its own. The calls do to the memory what they do to the cache. -/
namespace Bora

open ByteMemory Checked LinkedList Transition

/-- `Block` of blockcache.h; `data` and `f` are the addresses of its arrays. -/
structure BlockNode where
  id : BlockID
  data : ℕ
  length : UInt32
  f : ℕ
  fs : Fragments

/-- The blocks, their arrays, and the head of the list. An array links to nothing. -/
structure BlockHeap where
  blocks : Memory BlockNode
  flags : Memory (List BlockFragment)
  buffers : Memory Bytes
  blockcache : Link

structure Addresses where
  node : ℕ
  f : ℕ
  data : ℕ

namespace BlockHeap

def init : BlockHeap := ⟨Memory.empty, Memory.empty, Memory.empty, none⟩

def readHave (h : BlockHeap) (b : BlockNode) (i : ℕ) : Option Bool := do
  let c ← h.flags.read b.f
  let x ← c.val[i]?
  some x.held

def setFragment (h : BlockHeap) (b : BlockNode) (i : ℕ) (x : BlockFragment) :
    Option BlockHeap := do
  let c ← h.flags.read b.f
  if i < c.val.length then
    let flags ← h.flags.setVal b.f (c.val.set i x)
    some { h with flags := flags }
  else none

def copyIn (h : BlockHeap) (b : BlockNode) (off : ℕ) (src : Bytes) : Option BlockHeap := do
  let c ← h.buffers.read b.data
  if off + src.length ≤ c.val.length then
    let buffers ← h.buffers.setVal b.data (memcpy c.val off src)
    some { h with buffers := buffers }
  else none

def copyOut (h : BlockHeap) (b : BlockNode) (off len : ℕ) :
    Option { d : Bytes // d.length = len } := do
  let c ← h.buffers.read b.data
  if hle : off + len ≤ c.val.length then
    some ⟨slice c.val off len, by rw [slice_length]; omega⟩
  else none

def setHeader (h : BlockHeap) (block : ℕ) (b : BlockNode) : Option BlockHeap := do
  let blocks ← h.blocks.setVal block b
  some { h with blocks := blocks }

def insertBlock (h : BlockHeap) (block : ℕ) (b : BlockNode) : Option BlockHeap := do
  let blocks ← h.blocks.write block ⟨b, h.blockcache⟩
  some { h with blocks := blocks, blockcache := some block }

def findblock (h : BlockHeap) (id : BlockID) : Option Link :=
  find h.blocks (fun b => b.id = id) h.blockcache

def malloc (h : BlockHeap) (p : Addresses) (b : BlockNode) (f : List BlockFragment)
    (data : Bytes) : BlockHeap :=
  { h with
    blocks := h.blocks.put p.node (some ⟨b, none⟩)
    flags := h.flags.put p.f (some ⟨f, none⟩)
    buffers := h.buffers.put p.data (some ⟨data, none⟩) }

def addblock (h : BlockHeap) (id : BlockID) (blockdata : Bytes) (p : Addresses) :
    Option (BlockHeap × Bool) := do
  match ← h.findblock id with
  | some _ => some (h, false)
  | none =>
    let length := UInt32.ofNat blockdata.length
    let fs := calcfragments length
    let b : BlockNode := ⟨id, p.data, length, p.f, fs⟩
    let h := h.malloc p b (List.replicate fs.fn.toNat ⟨true, default, default⟩) blockdata
    let h ← h.insertBlock p.node b
    some (h, true)

/-- The first fragment of an id; a block of a wrong length is neither listed nor freed. -/
def createBlock (h : BlockHeap) (fragment : FragmentData) (host : SockAddr) (ts : Timeval)
    (junk : UInt16) (p : Addresses) : Option (BlockHeap × AddResult) := do
  let size := mtu * fragment.fragments.toNat
  let b : BlockNode :=
    ⟨fragment.id, p.data, UInt32.ofNat size, p.f, ⟨fragment.fragments, junk⟩⟩
  let h := h.malloc p b (List.replicate fragment.fragments.toNat ⟨false, default, default⟩)
    (List.replicate size 0)
  let h ← h.setFragment b fragment.fragmentid.toNat ⟨true, host, ts⟩
  if fragment.fragmentid.toNat + 1 = fragment.fragments.toNat then
    let b := { b with fs := ⟨b.fs.fn, fragment.length⟩ }
    let h ← h.copyIn b (mtu * fragment.fragmentid.toNat) fragment.data
    let h ← h.insertBlock p.node b
    some (h, .added)
  else if fragment.length.toNat ≠ mtu then some (h, .badLen)
  else
    let h ← h.copyIn b (mtu * fragment.fragmentid.toNat) fragment.data
    let h ← h.insertBlock p.node b
    some (h, .added)

def setLast (h : BlockHeap) (block : ℕ) (b : BlockNode) (fragment : FragmentData) :
    Option BlockHeap :=
  if fragment.fragmentid.toNat + 1 = fragment.fragments.toNat then
    h.setHeader block
      { b with fs := ⟨b.fs.fn, fragment.length⟩
               length := UInt32.ofNat ((b.fs.fn.toNat - 1) * mtu + fragment.length.toNat) }
  else some h

def updateBlock (h : BlockHeap) (block : ℕ) (fragment : FragmentData) (host : SockAddr)
    (ts : Timeval) : Option (BlockHeap × AddResult) := do
  let c ← h.blocks.read block
  let b := c.val
  let held ← h.readHave b fragment.fragmentid.toNat
  if held then some (h, .duplicate)
  else if b.fs.fn ≠ fragment.fragments then some (h, .fragmentsMismatch)
  else if b.fs.fn ≤ fragment.fragmentid then some (h, .fragmentidOutOfBounds)
  else if fragment.fragmentid.toNat + 1 < b.fs.fn.toNat ∧ fragment.length.toNat ≠ mtu then
    some (h, .badLen)
  else
    let h ← h.setLast block b fragment
    let h ← h.setFragment b fragment.fragmentid.toNat ⟨true, host, ts⟩
    let h ← h.copyIn b (mtu * fragment.fragmentid.toNat) fragment.data
    some (h, .added)

def addfragment (h : BlockHeap) (fragment : FragmentData) (host : SockAddr) (ts : Timeval)
    (junk : UInt16) (p : Addresses) : Option (BlockHeap × AddResult) := do
  match ← h.findblock fragment.id with
  | none => h.createBlock fragment host ts junk p
  | some block => h.updateBlock block fragment host ts

/-- `current` leaves the list behind `prev` and is freed with its arrays. -/
def unlinkBlock (h : BlockHeap) (prev current : ℕ) : Option BlockHeap := do
  let p ← h.blocks.read prev
  let c ← h.blocks.read current
  let blocks ← h.blocks.write prev ⟨p.val, c.next⟩
  let blocks ← blocks.write current ⟨c.val, none⟩
  let buffers ← h.buffers.free c.val.data
  let flags ← h.flags.free c.val.f
  let blocks ← blocks.free current
  some ⟨blocks, flags, buffers, h.blockcache⟩

def deleteFrom (h : BlockHeap) (id : BlockID) : ℕ → ℕ → Option (BlockHeap × Bool)
  | 0, _ => none
  | steps+1, prev => do
    let p ← h.blocks.read prev
    match p.next with
    | none => some (h, false)
    | some current =>
      let c ← h.blocks.read current
      if c.val.id = id then
        let h ← h.unlinkBlock prev current
        some (h, true)
      else h.deleteFrom id steps current

def deleteblock (h : BlockHeap) (id : BlockID) : Option (BlockHeap × Bool) :=
  match h.blockcache with
  | none => some (h, false)
  | some prev => h.deleteFrom id h.blocks.size prev

def heldBelow (h : BlockHeap) (b : BlockNode) : ℕ → Option Bool
  | 0 => some true
  | i+1 => do
    if ← h.readHave b i then h.heldBelow b i else some false

def iscomplete (h : BlockHeap) (id : BlockID) : Option Bool := do
  match ← h.findblock id with
  | none => some true
  | some block =>
    let c ← h.blocks.read block
    h.heldBelow c.val c.val.fs.fn.toNat

/-- The copy belongs to the caller. -/
def getBlockData (h : BlockHeap) (id : BlockID) : Option (Option Bytes) := do
  match ← h.findblock id with
  | none => some none
  | some block =>
    let c ← h.blocks.read block
    let d ← h.copyOut c.val 0 c.val.length.toNat
    some (some d.val)

def consecutivesBelow (h : BlockHeap) (b : BlockNode) : ℕ → Option ℕ
  | 0 => some 0
  | i+1 => do
    if ← h.readHave b i then
      let ret ← h.consecutivesBelow b i
      some (ret + 1)
    else some 0

def getConsecutives (h : BlockHeap) (fragment : FragmentID) : Option UInt16 := do
  match ← h.findblock fragment.id with
  | none => some 0
  | some block =>
    let c ← h.blocks.read block
    let ret ← h.consecutivesBelow c.val fragment.fragmentid.toNat
    some (UInt16.ofNat ret)

def fragmentLength (b : BlockNode) (i : ℕ) : UInt16 :=
  if i + 1 = b.fs.fn.toNat then b.fs.lastlen else UInt16.ofNat mtu

def sendFragment (h : BlockHeap) (b : BlockNode) (i : ℕ) : Option FragmentData := do
  let d ← h.copyOut b (mtu * i) (fragmentLength b i).toNat
  some
    { streamid := b.id.streamid
      blockid := b.id.blockid
      fragmentid := UInt16.ofNat i
      fragments := b.fs.fn
      length := fragmentLength b i
      data := d.val
      data_length := d.property }

def sendPacket (h : BlockHeap) (b : BlockNode) (dest : SockAddr) (i : ℕ) : Option SendData := do
  let fragment ← h.sendFragment b i
  let d ← (encodeFragment fragment).toOption
  some ((d.setDest dest).setFlags blkBlockAck)

def sendblock (h : BlockHeap) (id : BlockID) (dest : SockAddr) :
    Option (List SendData × ℕ) := do
  match ← h.findblock id with
  | none => some ([], 0)
  | some block =>
    let c ← h.blocks.read block
    let ds ← (List.range c.val.fs.fn.toNat).mapM (h.sendPacket c.val dest)
    some (ds, c.val.fs.fn.toNat)

def getBlockcacheSize (h : BlockHeap) : Option ℕ :=
  fold h.blocks (fun ret _ => some (ret + 1)) 0 h.blockcache

/-- One round of the two builders of lists; `keep` is their test on `__iscomplete`, and `blist`
has room for `len` ids. -/
def listBlock (h : BlockHeap) (keep : Bool → Bool) (len : ℕ) (ret : List BlockID)
    (b : BlockNode) : Option (List BlockID) := do
  let whole ← h.heldBelow b b.fs.fn.toNat
  if keep whole then
    if ret.length < len then some (ret ++ [b.id]) else none
  else some ret

def getBlockList (h : BlockHeap) (keep : Bool → Bool) : Option (List BlockID) := do
  let len ← h.getBlockcacheSize
  fold h.blocks (h.listBlock keep len) [] h.blockcache

end BlockHeap

structure Stored where
  node : ℕ
  f : ℕ
  data : ℕ
  block : Block

namespace Stored

def header (k : Stored) : BlockNode :=
  ⟨k.block.id, k.data, k.block.content.length, k.f, k.block.fs⟩

def cell (k : Stored) : ℕ × BlockNode := (k.node, k.header)
def flagCell (k : Stored) : ℕ × List BlockFragment := (k.f, k.block.f)
def dataCell (k : Stored) : ℕ × Bytes := (k.data, k.block.content.data)

end Stored

def Block.SameFields (b b' : Block) : Prop :=
  b'.id = b.id ∧ b'.content.length = b.content.length ∧ b'.fs = b.fs

theorem Block.SameFields.header {b b' : Block} (h : b.SameFields b') (node f data : ℕ) :
    Stored.header ⟨node, f, data, b'⟩ = Stored.header ⟨node, f, data, b⟩ := by
  obtain ⟨hid, hlength, hfs⟩ := h
  simp [Stored.header, hid, hlength, hfs]

theorem Block.setFragment_fields {b b' : Block} {i : ℕ} {x : BlockFragment}
    (h : b.setFragment i x = .ok b') : b.SameFields b' := by
  unfold Block.setFragment at h
  split at h
  · cases h
    exact ⟨rfl, rfl, rfl⟩
  · cases h

theorem Block.copyIn_fields {b b' : Block} {off : ℕ} {src : Bytes}
    (h : b.copyIn off src = .ok b') : b.SameFields b' := by
  unfold Block.copyIn at h
  split at h
  · cases h
    exact ⟨rfl, rfl, rfl⟩
  · cases h

namespace BlockHeap

/-- Every block has arrays of its own, and there are no others. -/
structure Arrays (h : BlockHeap) (all : List Stored) : Prop where
  flags : Holds h.flags [] (all.map Stored.flagCell)
  buffers : Holds h.buffers [] (all.map Stored.dataCell)

/-- The blocks in `ks` are listed, those in `lost` are not, and nothing else is allocated. -/
structure Layout (h : BlockHeap) (ks lost : List Stored) : Prop where
  head : h.blockcache = link (ks.map Stored.cell)
  blocks : Holds h.blocks [ks.map Stored.cell] (lost.map Stored.cell)
  arrays : h.Arrays (ks ++ lost)

def Represents (h : BlockHeap) (cache : Cache) (leaked : ℕ) : Prop :=
  ∃ ks lost, h.Layout ks lost ∧ cache = ks.map Stored.block ∧ lost.length = leaked

variable {h h' : BlockHeap} {ks lost front back all : List Stored} {k : Stored} {id : BlockID}

theorem layout_init : init.Layout [] [] where
  head := rfl
  blocks := Holds.empty.nil_cons
  arrays := ⟨Holds.empty, Holds.empty⟩

section Access

theorem Arrays.read_flags (ha : h.Arrays all) (hk : k ∈ all) :
    ∃ l, h.flags.read k.f = some ⟨k.block.f, l⟩ :=
  ha.flags.apart k.flagCell (List.mem_map_of_mem hk)

theorem Arrays.read_buffers (ha : h.Arrays all) (hk : k ∈ all) :
    ∃ l, h.buffers.read k.data = some ⟨k.block.content.data, l⟩ :=
  ha.buffers.apart k.dataCell (List.mem_map_of_mem hk)

theorem Arrays.perm (ha : h.Arrays all) {all' : List Stored} (hp : all.Perm all') :
    h.Arrays all' :=
  ⟨ha.flags.perm (List.Perm.refl _) (hp.map _), ha.buffers.perm (List.Perm.refl _) (hp.map _)⟩

theorem Arrays.readHave_agrees (ha : h.Arrays all) (hk : k ∈ all) {b : BlockNode}
    (hb : b.f = k.f) (i : ℕ) : Agrees Eq (h.readHave b i) (k.block.readHave i) := by
  obtain ⟨l, hl⟩ := ha.read_flags hk
  have hlen := k.block.f_length
  rw [← hb] at hl
  unfold readHave Block.readHave
  refine Agrees.bind_some hl ?_
  split
  · rename_i hi
    rw [← hlen] at hi
    refine Agrees.bind_some (List.getElem?_eq_getElem hi) ?_
    simp [Agrees, Block.heldAt, hi]
  · rename_i hi
    have hnone : k.block.f[i]? = none := List.getElem?_eq_none (by omega)
    simp only [hnone]
    trivial

theorem Arrays.setFragment_agrees (ha : h.Arrays (front ++ k :: back)) {b : BlockNode}
    (hb : b.f = k.f) (i : ℕ) (x : BlockFragment) :
    Agrees (fun h' b' => h'.blocks = h.blocks ∧ h'.blockcache = h.blockcache ∧
        h'.Arrays (front ++ { k with block := b' } :: back))
      (h.setFragment b i x) (k.block.setFragment i x) := by
  obtain ⟨l, hl⟩ := ha.read_flags (k := k) (by simp)
  have hlen := k.block.f_length
  have hflags := ha.flags
  rw [List.map_append, List.map_cons] at hflags
  obtain ⟨flags, hset, hnew⟩ := hflags.setLoose (k.block.f.set i x)
  rw [← hb] at hl
  unfold setFragment Block.setFragment
  refine Agrees.bind_some hl ?_
  simp only [hlen]
  split
  · refine Agrees.bind_some (a := flags) (by rw [hb]; exact hset) ⟨rfl, rfl, ?_, ?_⟩
    · rw [List.map_append, List.map_cons]
      exact hnew
    · have hbuffers := ha.buffers
      rw [List.map_append, List.map_cons] at hbuffers ⊢
      exact hbuffers
  · trivial

theorem Arrays.copyIn_agrees (ha : h.Arrays (front ++ k :: back)) {b : BlockNode}
    (hb : b.data = k.data) (off : ℕ) (src : Bytes) :
    Agrees (fun h' b' => h'.blocks = h.blocks ∧ h'.blockcache = h.blockcache ∧
        h'.Arrays (front ++ { k with block := b' } :: back))
      (h.copyIn b off src) (k.block.copyIn off src) := by
  obtain ⟨l, hl⟩ := ha.read_buffers (k := k) (by simp)
  have hbuffers := ha.buffers
  rw [List.map_append, List.map_cons] at hbuffers
  obtain ⟨buffers, hset, hnew⟩ := hbuffers.setLoose (memcpy k.block.content.data off src)
  rw [← hb] at hl
  unfold copyIn Block.copyIn
  refine Agrees.bind_some hl ?_
  simp only
  split
  · refine Agrees.bind_some (a := buffers) (by rw [hb]; exact hset) ⟨rfl, rfl, ?_, ?_⟩
    · have hflags := ha.flags
      rw [List.map_append, List.map_cons] at hflags ⊢
      exact hflags
    · rw [List.map_append, List.map_cons]
      exact hnew
  · trivial

theorem Arrays.copyOut_eq (ha : h.Arrays all) (hk : k ∈ all) {b : BlockNode}
    (hb : b.data = k.data) (off len : ℕ) :
    (h.copyOut b off len).map Subtype.val =
      if off + len ≤ k.block.content.data.length then some (slice k.block.content.data off len)
      else none := by
  obtain ⟨l, hl⟩ := ha.read_buffers hk
  rw [← hb] at hl
  simp only [copyOut, hl, Option.bind_eq_bind, Option.bind_some]
  split <;> rfl

end Access

theorem cells_append (front : List Stored) (k : Stored) (back : List Stored) :
    (front ++ k :: back).map Stored.cell =
      front.map Stored.cell ++ k.cell :: back.map Stored.cell := by
  rw [List.map_append, List.map_cons]

namespace Layout

theorem findblock_eq (hl : h.Layout ks lost) (id : BlockID) :
    h.findblock id = some ((ks.find? (fun k => k.block.id = id)).map Stored.node) := by
  rw [findblock, hl.head, hl.blocks.find_eq List.mem_cons_self, List.find?_map, Option.map_map]
  rfl

theorem read_node (hl : h.Layout (front ++ k :: back) lost) :
    h.blocks.read k.node = some ⟨k.header, link (back.map Stored.cell)⟩ := by
  have hchain := hl.blocks.chains _ List.mem_cons_self
  rw [cells_append] at hchain
  exact hchain.read

theorem ofArrays (hl : h.Layout (front ++ k :: back) lost) {b : Block}
    (hb : ({ k with block := b } : Stored).header = k.header) (hblocks : h'.blocks = h.blocks)
    (hhead : h'.blockcache = h.blockcache)
    (ha : h'.Arrays (front ++ { k with block := b } :: (back ++ lost))) :
    h'.Layout (front ++ { k with block := b } :: back) lost := by
  have hcells : (front ++ { k with block := b } :: back).map Stored.cell =
      (front ++ k :: back).map Stored.cell := by
    rw [cells_append, cells_append, Stored.cell, hb]
    rfl
  refine ⟨?_, ?_, ?_⟩
  · rw [hhead, hl.head, hcells]
  · rw [hblocks, hcells]
    exact hl.blocks
  · rw [List.append_assoc]
    exact ha

theorem setHeader_eq (hl : h.Layout (front ++ k :: back) lost) {b : Block}
    (hf : b.f = k.block.f) (hd : b.content.data = k.block.content.data) :
    ∃ h', h.setHeader k.node ({ k with block := b } : Stored).header = some h' ∧
      h'.Layout (front ++ { k with block := b } :: back) lost := by
  have hblocks := hl.blocks
  rw [cells_append] at hblocks
  obtain ⟨blocks, hset, hnew⟩ := hblocks.setVal_eq ({ k with block := b } : Stored).header
  refine ⟨{ h with blocks := blocks }, ?_, ?_, ?_, ?_⟩
  · exact Option.bind_eq_some_iff.mpr ⟨blocks, hset, rfl⟩
  · rw [cells_append]
    exact hl.head.trans (by rw [cells_append]; exact link_append_cons _ _ _ rfl)
  · rw [cells_append]
    exact hnew
  · have hflags : ({ k with block := b } : Stored).flagCell = k.flagCell := by
      simp [Stored.flagCell, hf]
    have hdata : ({ k with block := b } : Stored).dataCell = k.dataCell := by
      simp [Stored.dataCell, hd]
    have ha := hl.arrays
    refine ⟨?_, ?_⟩
    · simpa [hflags] using ha.flags
    · simpa [hdata] using ha.buffers

theorem unlinkBlock_eq {x : Stored} (hl : h.Layout (front ++ k :: x :: back) lost) :
    ∃ h', h.unlinkBlock k.node x.node = some h' ∧ h'.Layout (front ++ k :: back) lost := by
  have hk := hl.read_node
  have hx : h.blocks.read x.node = some ⟨x.header, link (back.map Stored.cell)⟩ := by
    have hl' := hl
    rw [← List.singleton_append, ← List.append_assoc] at hl'
    exact hl'.read_node
  have hblocks := hl.blocks
  rw [cells_append, List.map_cons] at hblocks
  obtain ⟨m₁, hwrite, -, hm₁⟩ := hblocks.unlink
  obtain ⟨m₂, hnull, -, hm₂⟩ := hm₁.writeLoose x.header none
  obtain ⟨m₃, hfree, hm₃⟩ := hm₂.free_eq
  have hall : (front ++ k :: x :: back ++ lost).Perm (x :: (front ++ k :: back ++ lost)) := by
    have hx : (front ++ k :: x :: back).Perm (x :: (front ++ k :: back)) :=
      (List.Perm.append_left front (List.Perm.swap x k back)).trans List.perm_middle
    exact hx.append_right lost
  have ha := hl.arrays.perm hall
  obtain ⟨buffers, hdata, hbuffers⟩ := ha.buffers.free_eq
  obtain ⟨flags, hf, hflags⟩ := ha.flags.free_eq
  refine ⟨⟨m₃, flags, buffers, h.blockcache⟩, ?_, ?_, ?_, hflags, hbuffers⟩
  · have hwrite' : h.blocks.write k.node ⟨k.header, link (back.map Stored.cell)⟩ = some m₁ := hwrite
    have hnull' : m₁.write x.node ⟨x.header, none⟩ = some m₂ := hnull
    have hdata' : h.buffers.free x.header.data = some buffers := hdata
    have hf' : h.flags.free x.header.f = some flags := hf
    have hfree' : m₂.free x.node = some m₃ := hfree
    simp only [unlinkBlock, hk, hx, Option.bind_eq_bind, Option.bind_some, hwrite', hnull', hdata',
      hf', hfree']
  · rw [cells_append]
    exact hl.head.trans (by rw [cells_append]; exact link_append_cons _ _ _ rfl)
  · rw [cells_append]
    exact hm₃

theorem deleteFrom_eq (hl : h.Layout (front ++ k :: back) lost) (id : BlockID) {steps : ℕ}
    (hs : back.length < steps) :
    ∃ h' back', h.deleteFrom id steps k.node =
        some (h', (deleteAfter id (back.map Stored.block)).isSome) ∧
      h'.Layout (front ++ k :: back') lost ∧
      back'.map Stored.block =
        (deleteAfter id (back.map Stored.block)).getD (back.map Stored.block) := by
  induction back generalizing front k steps with
  | nil =>
    obtain ⟨steps, rfl⟩ : ∃ n, steps = n + 1 := ⟨steps - 1, by omega⟩
    refine ⟨h, [], ?_, hl, rfl⟩
    simp only [deleteFrom, hl.read_node, Option.bind_eq_bind, Option.bind_some]
    rfl
  | cons x back ih =>
    obtain ⟨steps, rfl⟩ : ∃ n, steps = n + 1 := ⟨steps - 1, by omega⟩
    simp only [List.length_cons] at hs
    have hshift : front ++ k :: x :: back = (front ++ [k]) ++ x :: back := by simp
    have hx : h.Layout ((front ++ [k]) ++ x :: back) lost := hshift ▸ hl
    have hnext : h.deleteFrom id (steps + 1) k.node =
        if x.header.id = id then (h.unlinkBlock k.node x.node).bind (fun h => some (h, true))
        else h.deleteFrom id steps x.node := by
      have hread : h.blocks.read x.node = some ⟨x.header, link (back.map Stored.cell)⟩ := hx.read_node
      have hlink : link ((x :: back).map Stored.cell) = some x.node := rfl
      simp only [deleteFrom, hl.read_node, hlink, hread, Option.bind_eq_bind, Option.bind_some]
    rw [hnext]
    by_cases hid : x.block.id = id
    · obtain ⟨h', hunlink, hl'⟩ := hl.unlinkBlock_eq
      have hafter : deleteAfter id ((x :: back).map Stored.block) = some (back.map Stored.block) := by
        simp [deleteAfter, hid]
      refine ⟨h', back, ?_, hl', by rw [hafter]; rfl⟩
      rw [if_pos (show x.header.id = id from hid), hunlink, hafter]
      rfl
    · obtain ⟨h', back', hdel, hl', hback⟩ := ih hx (Nat.lt_of_succ_lt_succ hs)
      have hafter : deleteAfter id ((x :: back).map Stored.block) =
          (deleteAfter id (back.map Stored.block)).map (x.block :: ·) := by
        simp [deleteAfter, hid]
      refine ⟨h', x :: back', ?_, by simpa using hl', ?_⟩
      · rw [if_neg (show ¬ x.header.id = id from hid), hdel, hafter]
        simp
      · rw [hafter, List.map_cons, hback, List.map_cons]
        cases deleteAfter id (back.map Stored.block) <;> rfl

end Layout

/-- The block `k` is allocated and not listed yet; its node says `v` so far. -/
structure Making (h : BlockHeap) (ks lost : List Stored) (k : Stored) (v : BlockNode) : Prop where
  head : h.blockcache = link (ks.map Stored.cell)
  blocks : Holds h.blocks [ks.map Stored.cell] ((k.node, v) :: lost.map Stored.cell)
  arrays : h.Arrays (ks ++ k :: lost)

structure Fresh (h : BlockHeap) (p : Addresses) : Prop where
  node : h.blocks.read p.node = none
  f : h.flags.read p.f = none
  data : h.buffers.read p.data = none

namespace Making

variable {v : BlockNode}

theorem malloc (hl : h.Layout ks lost) {p : Addresses} (hp : h.Fresh p) (b : Block) :
    (h.malloc p (Stored.header ⟨p.node, p.f, p.data, b⟩) b.f b.content.data).Making ks lost
      ⟨p.node, p.f, p.data, b⟩ (Stored.header ⟨p.node, p.f, p.data, b⟩) where
  head := hl.head
  blocks := hl.blocks.insertLoose hp.node _ _
  arrays := by
    have ha : (h.malloc p (Stored.header ⟨p.node, p.f, p.data, b⟩) b.f b.content.data).Arrays
        (⟨p.node, p.f, p.data, b⟩ :: (ks ++ lost)) :=
      ⟨hl.arrays.flags.insertLoose hp.f _ _, hl.arrays.buffers.insertLoose hp.data _ _⟩
    exact ha.perm List.perm_middle.symm

theorem header (hm : h.Making ks lost k v) {b : Block} (hf : b.f = k.block.f)
    (hd : b.content.data = k.block.content.data) :
    h.Making ks lost { k with block := b } v := by
  have hflags : ({ k with block := b } : Stored).flagCell = k.flagCell := by
    simp [Stored.flagCell, hf]
  have hdata : ({ k with block := b } : Stored).dataCell = k.dataCell := by
    simp [Stored.dataCell, hd]
  refine ⟨hm.head, hm.blocks, ?_, ?_⟩
  · simpa [hflags] using hm.arrays.flags
  · simpa [hdata] using hm.arrays.buffers

theorem ofArrays (hm : h.Making ks lost k v) {b : Block} (hblocks : h'.blocks = h.blocks)
    (hhead : h'.blockcache = h.blockcache)
    (ha : h'.Arrays (ks ++ { k with block := b } :: lost)) :
    h'.Making ks lost { k with block := b } v :=
  ⟨hhead.trans hm.head, by rw [hblocks]; exact hm.blocks, ha⟩

theorem insertBlock_eq (hm : h.Making ks lost k v) :
    ∃ h', h.insertBlock k.node k.header = some h' ∧ h'.Layout (k :: ks) lost := by
  obtain ⟨blocks, hwrite, hnew⟩ := hm.blocks.pushLoose k.header
  refine ⟨{ h with blocks := blocks, blockcache := some k.node }, ?_, rfl, hnew, ?_⟩
  · refine Option.bind_eq_some_iff.mpr ⟨blocks, ?_, rfl⟩
    rw [hm.head]
    exact hwrite
  · have ha : ({ h with blocks := blocks, blockcache := some k.node } : BlockHeap).Arrays
        (ks ++ k :: lost) := ⟨hm.arrays.flags, hm.arrays.buffers⟩
    exact ha.perm List.perm_middle

theorem lose (hm : h.Making ks lost k k.header) : h.Layout ks (k :: lost) :=
  ⟨hm.head, hm.blocks, hm.arrays⟩

end Making

/-- What a call on a fragment returns, with `n` blocks leaked behind it. -/
def Returns (n : ℕ) (r : BlockHeap × AddResult) (s : Cache × AddResult) : Prop :=
  r.2 = s.2 ∧ r.1.Represents s.1 n

theorem findblock_cache (ks : List Stored) (id : BlockID) :
    Bora.findblock (ks.map Stored.block) id =
      (ks.find? (fun k => k.block.id = id)).map Stored.block := by
  rw [Bora.findblock, List.find?_map]
  rfl

theorem Making.finish {v : BlockNode} (hm : h.Making ks lost k v) {b : BlockNode}
    (hb : k.header = b) (off : ℕ) (src : Bytes) :
    Agrees (fun r s => s.2 = .added ∧ Returns lost.length r s)
      (do
        let h ← h.copyIn b off src
        let h ← h.insertBlock k.node b
        some (h, AddResult.added))
      (do
        let block ← k.block.copyIn off src
        return (block :: ks.map Stored.block, AddResult.added)) := by
  subst b
  refine ((hm.arrays.copyIn_agrees (b := k.header) rfl off src).mono
    (Q := fun h' b' => k.block.SameFields b' ∧ h'.Making ks lost { k with block := b' } v)
    ?_).bind ?_
  · rintro h' b' - hb' ⟨hblocks, hhead, ha⟩
    exact ⟨Block.copyIn_fields hb', hm.ofArrays hblocks hhead ha⟩
  · rintro h' b' ⟨hfields, hm'⟩
    obtain ⟨h'', hinsert, hl'⟩ := hm'.insertBlock_eq
    have hheader : ({ k with block := b' } : Stored).header = k.header := hfields.header _ _ _
    rw [hheader] at hinsert
    exact Agrees.bind_some hinsert ⟨rfl, rfl, _, lost, hl', rfl, rfl⟩

namespace Layout

theorem createBlock_agrees (hl : h.Layout ks lost) {p : Addresses} (hp : h.Fresh p)
    (fragment : FragmentData) (host : SockAddr) (ts : Timeval) (junk : UInt16) :
    Agrees (fun r s => Returns (lost.length + if s.2 = .badLen then 1 else 0) r s)
      (h.createBlock fragment host ts junk p)
      (Bora.createBlock (ks.map Stored.block) fragment host ts junk) := by
  have hmade := Making.malloc hl hp (emptyBlock fragment.id fragment.fragments junk)
  unfold BlockHeap.createBlock Bora.createBlock
  refine ((hmade.arrays.setFragment_agrees rfl fragment.fragmentid.toNat ⟨true, host, ts⟩).mono
    (Q := fun h' b' => (emptyBlock fragment.id fragment.fragments junk).SameFields b' ∧
      h'.Making ks lost ⟨p.node, p.f, p.data, b'⟩
        (Stored.header ⟨p.node, p.f, p.data, emptyBlock fragment.id fragment.fragments junk⟩))
    ?_).bind ?_
  · rintro h' b' - hb' ⟨hblocks, hhead, ha⟩
    exact ⟨Block.setFragment_fields hb', hmade.ofArrays hblocks hhead ha⟩
  rintro h₁ b₁ ⟨hfields, hm₁⟩
  have hheader := hfields.header p.node p.f p.data
  split
  · -- the last fragment
    have hlast : (emptyBlock fragment.id fragment.fragments junk |>.setLastlen
        fragment.length).SameFields (b₁.setLastlen fragment.length) := by
      obtain ⟨hid, hlength, hfs⟩ := hfields
      exact ⟨hid, hlength, by simp [Block.setLastlen, hfs]⟩
    refine ((hm₁.header (b := b₁.setLastlen fragment.length) rfl rfl).finish
      (hlast.header _ _ _) _ _).mono ?_
    rintro r s - - ⟨hadded, hreturns⟩
    simpa [hadded] using hreturns
  · split
    · rw [← hheader] at hm₁
      exact ⟨rfl, ks, _ :: lost, hm₁.lose, rfl, rfl⟩
    · refine (hm₁.finish hheader _ _).mono ?_
      rintro r s - - ⟨hadded, hreturns⟩
      simpa [hadded] using hreturns

theorem setLast_eq (hl : h.Layout (front ++ k :: back) lost) (fragment : FragmentData) :
    ∃ h', h.setLast k.node k.header fragment = some h' ∧
      h'.Layout (front ++ { k with block :=
        if fragment.fragmentid.toNat + 1 = fragment.fragments.toNat then
          (k.block.setLastlen fragment.length).setContentLength
        else k.block } :: back) lost := by
  unfold setLast
  split
  · exact hl.setHeader_eq (b := (k.block.setLastlen fragment.length).setContentLength) rfl rfl
  · exact ⟨h, rfl, hl⟩

theorem updateBlock_agrees (hl : h.Layout (front ++ k :: back) lost)
    (hfront : ∀ y ∈ front, y.block.id ≠ k.block.id) (fragment : FragmentData) (host : SockAddr)
    (ts : Timeval) :
    Agrees (Returns lost.length) (h.updateBlock k.node fragment host ts)
      (Bora.updateBlock ((front ++ k :: back).map Stored.block) k.block fragment host ts) := by
  have hsame : ∀ r : AddResult, Returns lost.length (h, r)
      ((front ++ k :: back).map Stored.block, r) := fun r => ⟨rfl, _, lost, hl, rfl, rfl⟩
  unfold BlockHeap.updateBlock Bora.updateBlock
  refine Agrees.bind_some hl.read_node ?_
  refine (hl.arrays.readHave_agrees (k := k) (by simp) rfl fragment.fragmentid.toNat).bind ?_
  rintro held _ rfl
  have hfs : k.header.fs = k.block.fs := rfl
  simp only [hfs]
  split
  · exact hsame _
  split
  · exact hsame _
  split
  · exact hsame _
  split
  · exact hsame _
  obtain ⟨h₁, hset, hl₁⟩ := hl.setLast_eq fragment
  refine Agrees.bind_some hset ?_
  generalize hb₁ : (if fragment.fragmentid.toNat + 1 = fragment.fragments.toNat then
    (k.block.setLastlen fragment.length).setContentLength else k.block) = b₁ at hl₁ ⊢
  have hid₁ : b₁.id = k.block.id := by
    rw [← hb₁]
    split <;> rfl
  have ha₁ := hl₁.arrays
  rw [List.append_assoc, List.cons_append] at ha₁
  refine ((ha₁.setFragment_agrees (b := k.header) rfl fragment.fragmentid.toNat
    ⟨true, host, ts⟩).mono (Q := fun h' b' => b₁.SameFields b' ∧
      h'.Layout (front ++ { k with block := b' } :: back) lost) ?_).bind ?_
  · rintro h' b' - hb' ⟨hblocks, hhead, ha⟩
    have hfields := Block.setFragment_fields hb'
    exact ⟨hfields, hl₁.ofArrays (hfields.header _ _ _) hblocks hhead ha⟩
  rintro h₂ b₂ ⟨hfields₂, hl₂⟩
  have ha₂ := hl₂.arrays
  rw [List.append_assoc, List.cons_append] at ha₂
  refine ((ha₂.copyIn_agrees (b := k.header) rfl (mtu * fragment.fragmentid.toNat)
    fragment.data).mono (Q := fun h' b' => b₂.SameFields b' ∧
      h'.Layout (front ++ { k with block := b' } :: back) lost) ?_).bind ?_
  · rintro h' b' - hb' ⟨hblocks, hhead, ha⟩
    have hfields := Block.copyIn_fields hb'
    exact ⟨hfields, hl₂.ofArrays (hfields.header _ _ _) hblocks hhead ha⟩
  rintro h₃ b₃ ⟨hfields₃, hl₃⟩
  refine ⟨rfl, _, lost, hl₃, ?_, rfl⟩
  have hid₃ : b₃.id = k.block.id := hfields₃.1.trans (hfields₂.1.trans hid₁)
  rw [storeBlock, List.map_append, List.map_cons,
    FirstMatch.modify_append _ _ ?_ (by simp [hid₃]), List.map_append, List.map_cons]
  intro b hb
  obtain ⟨y, hy, rfl⟩ := List.mem_map.mp hb
  simpa [hid₃] using hfront y hy

end Layout

theorem split_of_block (hk : ks.find? (fun k => k.block.id = id) = some k) :
    k.block.id = id ∧ ∃ front back, ks = front ++ k :: back ∧
      ∀ y ∈ front, y.block.id ≠ k.block.id := by
  obtain ⟨hid, front, back, hks, hfront⟩ := List.find?_eq_some_iff_append.mp hk
  have hid : k.block.id = id := by simpa using hid
  exact ⟨hid, front, back, hks, fun y hy => by simpa [hid] using hfront y hy⟩

namespace Represents

variable {cache : Cache} {leaked : ℕ}

theorem addblock_eq (hr : h.Represents cache leaked) (id : BlockID) (blockdata : Bytes)
    {p : Addresses} (hp : h.Fresh p) :
    ∃ h', h.addblock id blockdata p = some (h', (Bora.addblock cache id blockdata).2) ∧
      h'.Represents (Bora.addblock cache id blockdata).1 leaked := by
  obtain ⟨ks, lost, hl, rfl, hlost⟩ := hr
  have hfind := findblock_cache ks id
  cases hk : ks.find? (fun k => k.block.id = id) with
  | some k =>
    rw [hk] at hfind
    refine ⟨h, ?_, ks, lost, hl, ?_, hlost⟩
    · simp [BlockHeap.addblock, hl.findblock_eq, hk, Bora.addblock, hfind]
    · simp [Bora.addblock, hfind]
  | none =>
    rw [hk] at hfind
    have hmade := Making.malloc hl hp (contentBlock id blockdata)
    obtain ⟨h', hinsert, hl'⟩ := hmade.insertBlock_eq
    refine ⟨h', ?_, _, lost, hl', ?_, hlost⟩
    · have hadd : (Bora.addblock (ks.map Stored.block) id blockdata).2 = true := by
        simp [Bora.addblock, hfind]
      rw [hadd]
      simp only [BlockHeap.addblock, hl.findblock_eq, hk, Option.map_none, Option.bind_eq_bind,
        Option.bind_some]
      exact Option.bind_eq_some_iff.mpr ⟨h', hinsert, rfl⟩
    · simp [Bora.addblock, hfind]

theorem addfragment_agrees (hr : h.Represents cache leaked) (fragment : FragmentData)
    (host : SockAddr) (ts : Timeval) (junk : UInt16) {p : Addresses} (hp : h.Fresh p) :
    Agrees (fun r s => Returns
        (leaked + if s.2 = .badLen ∧ Bora.findblock cache fragment.id = none then 1 else 0) r s)
      (h.addfragment fragment host ts junk p)
      (Bora.addfragment cache fragment host ts junk) := by
  obtain ⟨ks, lost, hl, rfl, rfl⟩ := hr
  have hfind := findblock_cache ks fragment.id
  unfold BlockHeap.addfragment Bora.addfragment
  refine Agrees.bind_some (hl.findblock_eq fragment.id) ?_
  cases hk : ks.find? (fun k => k.block.id = fragment.id) with
  | none =>
    rw [hk] at hfind
    simp only [hfind, Option.map_none, and_true]
    exact hl.createBlock_agrees hp fragment host ts junk
  | some k =>
    rw [hk] at hfind
    obtain ⟨-, front, back, rfl, hfront⟩ := split_of_block hk
    simp only [hfind, Option.map_some, reduceCtorEq, and_false, if_false]
    exact hl.updateBlock_agrees hfront fragment host ts

theorem deleteblock_eq (hr : h.Represents cache leaked) (id : BlockID) :
    ∃ h', h.deleteblock id = some (h', (Bora.deleteblock cache id).2) ∧
      h'.Represents (Bora.deleteblock cache id).1 leaked := by
  obtain ⟨ks, lost, hl, rfl, hlost⟩ := hr
  cases ks with
  | nil =>
    have hhead : h.blockcache = none := hl.head
    exact ⟨h, by simp [BlockHeap.deleteblock, hhead, Bora.deleteblock], [], lost, hl, rfl, hlost⟩
  | cons k back =>
    have hhead : h.blockcache = some k.node := hl.head
    have hsteps : back.length < h.blocks.size := by
      have hle := hl.blocks.length_le List.mem_cons_self
      rwa [List.length_map] at hle
    have hfront : h.Layout ([] ++ k :: back) lost := hl
    obtain ⟨h', back', hdel, hl', hback⟩ := hfront.deleteFrom_eq id hsteps
    refine ⟨h', ?_, k :: back', lost, hl', ?_, hlost⟩
    · simp only [BlockHeap.deleteblock, hhead, hdel, Bora.deleteblock, List.map_cons]
      cases deleteAfter id (back.map Stored.block) <;> rfl
    · simp only [Bora.deleteblock, List.map_cons, hback]
      cases deleteAfter id (back.map Stored.block) <;> rfl

end Represents

end BlockHeap

end Bora
