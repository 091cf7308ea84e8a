import Bora.NetEncoder
import Bora.Library.FirstMatch

/-! The block cache of blockcache.c: blocks, their fragment flags and content buffers,
and the operations of the list. Accesses to the flag array and to the content buffer
are checked against the sizes they were allocated with. -/
namespace Bora

open ByteMemory

/-- `data` is the allocated buffer; `length` is what the cache reports as its size. -/
structure BlockData where
  data : Bytes
  length : UInt32
deriving DecidableEq

structure Fragments where
  fn : UInt16
  lastlen : UInt16
deriving DecidableEq, Repr

structure BlockFragment where
  held : Bool
  host : SockAddr
  ts : Timeval
deriving DecidableEq, Inhabited

/-- A block; its flag array always has the `fn` entries it was allocated with. -/
structure Block where
  id : BlockID
  content : BlockData
  f : List BlockFragment
  fs : Fragments
  f_length : f.length = fs.fn.toNat
deriving DecidableEq

abbrev Cache := List Block

namespace Block

/-- The flag of a fragment, false outside the array. -/
def heldAt (b : Block) (i : ℕ) : Bool := (b.f[i]?.map BlockFragment.held).getD false

def readHave (b : Block) (i : ℕ) : Except Fault Bool :=
  if i < b.fs.fn.toNat then .ok (b.heldAt i) else .error (.index i b.fs.fn.toNat)

def setFragment (b : Block) (i : ℕ) (x : BlockFragment) : Except Fault Block :=
  if i < b.fs.fn.toNat then
    .ok { b with f := b.f.set i x, f_length := by simpa using b.f_length }
  else .error (.index i b.fs.fn.toNat)

/-- `memcpy(block->content.data + off, src, ...)` -/
def copyIn (b : Block) (off : ℕ) (src : Bytes) : Except Fault Block :=
  if off + src.length ≤ b.content.data.length then
    .ok { b with content := { b.content with data := memcpy b.content.data off src } }
  else .error (.write off src.length b.content.data.length)

def fragmentLength (b : Block) (i : ℕ) : UInt16 :=
  if i + 1 = b.fs.fn.toNat then b.fs.lastlen else UInt16.ofNat mtu

def fragmentBytes (b : Block) (i : ℕ) : Bytes :=
  slice b.content.data (mtu * i) (b.fragmentLength i).toNat

end Block

def findblock (cache : Cache) (id : BlockID) : Option Block := cache.find? (fun b => b.id = id)

def storeBlock (cache : Cache) (block : Block) : Cache :=
  FirstMatch.modify (fun b => b.id = block.id) (fun _ => block) cache

def heldBelow (block : Block) : ℕ → Bool
  | 0 => true
  | i+1 => if block.heldAt i = false then false else heldBelow block i

def blockComplete (block : Block) : Bool := heldBelow block block.fs.fn.toNat

/-- An absent block counts as complete. -/
def iscomplete (cache : Cache) (id : BlockID) : Bool :=
  match findblock cache id with
  | none => true
  | some block => blockComplete block

/-- `div` takes its operands as `int`. -/
def calcfragments (length : UInt32) : Fragments :=
  if length < 1 then ⟨0, 0⟩
  else
    let quot := length.toInt32.toInt.tdiv mtu
    let rem := length.toInt32.toInt.tmod mtu
    if rem ≠ 0 then ⟨UInt16.ofInt quot + 1, UInt16.ofInt rem⟩
    else ⟨UInt16.ofInt quot, UInt16.ofNat mtu⟩

def contentBlock (id : BlockID) (blockdata : Bytes) : Block where
  id := id
  content := ⟨blockdata, UInt32.ofNat blockdata.length⟩
  f := List.replicate (calcfragments (UInt32.ofNat blockdata.length)).fn.toNat ⟨true, default, default⟩
  fs := calcfragments (UInt32.ofNat blockdata.length)
  f_length := by simp

def addblock (cache : Cache) (id : BlockID) (blockdata : Bytes) : Cache × Bool :=
  match findblock cache id with
  | some _ => (cache, false)
  | none => (contentBlock id blockdata :: cache, true)

def deleteAfter (id : BlockID) : List Block → Option (List Block)
  | [] => none
  | current::rest =>
    if current.id = id then some rest else (deleteAfter id rest).map (current :: ·)

/-- The search starts behind the head of the list. -/
def deleteblock (cache : Cache) (id : BlockID) : Cache × Bool :=
  match cache with
  | [] => (cache, false)
  | prev::rest =>
    match deleteAfter id rest with
    | none => (cache, false)
    | some rest' => (prev :: rest', true)

inductive AddResult
  | added | duplicate | fragmentsMismatch | fragmentidOutOfBounds | badLen
deriving DecidableEq, Repr

/-- The block `addfragment` allocates: no fragment held, a zeroed buffer of MTU bytes for
each fragment, and in `lastlen` the value `junk` that malloc left there. -/
def emptyBlock (id : BlockID) (fragments junk : UInt16) : Block where
  id := id
  content := ⟨List.replicate (mtu * fragments.toNat) 0, UInt32.ofNat (mtu * fragments.toNat)⟩
  f := List.replicate fragments.toNat ⟨false, default, default⟩
  fs := ⟨fragments, junk⟩
  f_length := by simp

def Block.setLastlen (b : Block) (length : UInt16) : Block :=
  { b with fs := ⟨b.fs.fn, length⟩ }

/-- `content.length = (fs.fn-1)*MTU + fs.lastlen` -/
def Block.setContentLength (b : Block) : Block :=
  { b with content :=
    { b.content with
      length := UInt32.ofNat ((b.fs.fn.toNat - 1) * mtu + b.fs.lastlen.toNat) } }

def createBlock (cache : Cache) (fragment : FragmentData) (host : SockAddr) (ts : Timeval)
    (junk : UInt16) : Except Fault (Cache × AddResult) := do
  let block ← (emptyBlock fragment.id fragment.fragments junk).setFragment
    fragment.fragmentid.toNat ⟨true, host, ts⟩
  if fragment.fragmentid.toNat + 1 = fragment.fragments.toNat then
    let block ← (block.setLastlen fragment.length).copyIn (mtu * fragment.fragmentid.toNat)
      fragment.data
    return (block :: cache, .added)
  else if fragment.length.toNat ≠ mtu then return (cache, .badLen)
  else
    let block ← block.copyIn (mtu * fragment.fragmentid.toNat) fragment.data
    return (block :: cache, .added)

/-- Later fragments update it; the flag is read before any of the checks. -/
def updateBlock (cache : Cache) (block : Block) (fragment : FragmentData) (host : SockAddr)
    (ts : Timeval) : Except Fault (Cache × AddResult) := do
  let held ← block.readHave fragment.fragmentid.toNat
  if held then return (cache, .duplicate)
  else if block.fs.fn ≠ fragment.fragments then return (cache, .fragmentsMismatch)
  else if block.fs.fn ≤ fragment.fragmentid then return (cache, .fragmentidOutOfBounds)
  else if fragment.fragmentid.toNat + 1 < block.fs.fn.toNat ∧ fragment.length.toNat ≠ mtu then
    return (cache, .badLen)
  else
    let block :=
      if fragment.fragmentid.toNat + 1 = fragment.fragments.toNat then
        (block.setLastlen fragment.length).setContentLength
      else block
    let block ← block.setFragment fragment.fragmentid.toNat ⟨true, host, ts⟩
    let block ← block.copyIn (mtu * fragment.fragmentid.toNat) fragment.data
    return (storeBlock cache block, .added)

def addfragment (cache : Cache) (fragment : FragmentData) (host : SockAddr) (ts : Timeval)
    (junk : UInt16) : Except Fault (Cache × AddResult) :=
  match findblock cache fragment.id with
  | none => createBlock cache fragment host ts junk
  | some block => updateBlock cache block fragment host ts

/-- The copy handed out holds the first `length` bytes of the buffer, complete or not. -/
def getBlockData (cache : Cache) (id : BlockID) : Except Fault (Option Bytes) :=
  match findblock cache id with
  | none => .ok none
  | some block =>
    if block.content.length.toNat ≤ block.content.data.length then
      .ok (some (block.content.data.take block.content.length.toNat))
    else .error (.read 0 block.content.length.toNat block.content.data.length)

def sendFragment (block : Block) (i : ℕ) : Except Fault FragmentData :=
  if h : mtu * i + (block.fragmentLength i).toNat ≤ block.content.data.length then
    .ok
      { streamid := block.id.streamid
        blockid := block.id.blockid
        fragmentid := UInt16.ofNat i
        fragments := block.fs.fn
        length := block.fragmentLength i
        data := block.fragmentBytes i
        data_length := by simp only [Block.fragmentBytes, slice_length]; omega }
  else .error (.read (mtu * i) (block.fragmentLength i).toNat block.content.data.length)

def sendPacket (block : Block) (dest : SockAddr) (i : ℕ) : Except Fault SendData := do
  let fragment ← sendFragment block i
  let d ← encodeFragment fragment
  return (d.setDest dest).setFlags blkBlockAck

/-- The packets `sendblock` hands to `send_data`, in order, and its return value. -/
def sendblock (cache : Cache) (id : BlockID) (dest : SockAddr) :
    Except Fault (List SendData × ℕ) :=
  match findblock cache id with
  | none => .ok ([], 0)
  | some block => do
    let ds ← (List.range block.fs.fn.toNat).mapM (sendPacket block dest)
    return (ds, block.fs.fn.toNat)

def consecutivesBelow (block : Block) : ℕ → Except Fault ℕ
  | 0 => .ok 0
  | i+1 => do
    let held ← block.readHave i
    if held then
      let ret ← consecutivesBelow block i
      return ret + 1
    else return 0

def getConsecutives (cache : Cache) (fragment : FragmentID) : Except Fault UInt16 :=
  match findblock cache fragment.id with
  | none => .ok 0
  | some block => (consecutivesBelow block fragment.fragmentid.toNat).map UInt16.ofNat

end Bora
