import Bora.IndexSafety
import Mathlib.Data.Fintype.Basic

/-! The locks of the block cache. An operation finds its block and takes the block's lock, works
on the block, and unlocks it, in three steps; `deleteblock` unlinks and frees under the write
lock. Blocks are at addresses, and what was freed stays marked. -/
namespace Bora

open Checked Transition

inductive BlockOp
  | addfragment (f : FragmentData) (host : SockAddr) (ts : Timeval) (junk : UInt16)
  | sendblock (id : BlockID) (dest : SockAddr)
  | getBlockData (id : BlockID)
  | getConsecutives (fragment : FragmentID)
  | iscomplete (id : BlockID)
  | addblock (id : BlockID) (blockdata : Bytes)

namespace BlockOp

def id : BlockOp → BlockID
  | .addfragment f _ _ _ => f.id
  | .sendblock id _ => id
  | .getBlockData id => id
  | .getConsecutives fragment => fragment.id
  | .iscomplete id => id
  | .addblock id _ => id

/-- The block as the operation leaves it, between `findblock` and the unlock. -/
def onBlock (op : BlockOp) (b : Block) : Except Fault Block :=
  match op with
  | .addfragment f host ts _ => (updateBlock [b] b f host ts).map (fun r => r.1.headD b)
  | .sendblock _ dest => (Bora.sendblock [b] b.id dest).map (fun _ => b)
  | .getBlockData _ => (Bora.getBlockData [b] b.id).map (fun _ => b)
  | .getConsecutives fragment => (consecutivesBelow b fragment.fragmentid.toNat).map (fun _ => b)
  | .iscomplete _ => .ok b
  | .addblock _ _ => .ok b

def newBlock : BlockOp → Except Fault (Option Block)
  | .addfragment f host ts junk => (createBlock [] f host ts junk).map (fun r => r.1.head?)
  | .addblock id blockdata => .ok (some (contentBlock id blockdata))
  | _ => .ok none

end BlockOp

/-- What a thread does next. `walk` is a listing of the blocks, which holds the read lock to its
end; in `onBlock` and `unlock` it holds the lock of the block at `a`, inside a walk over the
addresses `k` or, with `none`, by itself. -/
inductive LockPc
  | idle
  | onBlock (a : ℕ) (op : BlockOp) (k : Option (List ℕ))
  | unlock (a : ℕ) (k : Option (List ℕ))
  | insert (b : Block)
  | walk (rest : List ℕ)

namespace LockPc

def block : LockPc → Option ℕ
  | .onBlock a _ _ => some a
  | .unlock a _ => some a
  | _ => none

def rest : LockPc → Option (List ℕ)
  | .onBlock _ _ k => k
  | .unlock _ k => k
  | .walk rest => some rest
  | _ => none

end LockPc

/-- `list` holds the addresses of the cache, head first, and `readers` the threads with the read
lock. `freedHeld` records that `deleteblock` freed a block whose lock was held, `usedFreed` that
a freed block was locked, worked on or unlocked. -/
structure BlockLocks (ι : Type) where
  list : List ℕ
  block : ℕ → Block
  live : ℕ → Bool
  owner : ℕ → Option ι
  next : ℕ
  readers : List ι
  pc : ι → LockPc
  freedHeld : Bool
  usedFreed : Bool

inductive CacheThread
  | app | processor
deriving DecidableEq

instance : Fintype CacheThread where
  elems := {.app, .processor}
  complete i := by cases i <;> simp

inductive LockStep
  | call (op : BlockOp)
  | onBlock
  | unlock
  | insert
  | delete (id : BlockID)
  | walk
  | walkLock
  | walkEnd

namespace BlockLocks

variable {ι : Type} [DecidableEq ι]

def init : BlockLocks ι :=
  ⟨[], fun _ => emptyBlock default 0 0, fun _ => false, fun _ => none, 0, [], fun _ => .idle,
    false, false⟩

def setPc (s : BlockLocks ι) (i : ι) (pc : LockPc) : BlockLocks ι :=
  { s with pc := Function.update s.pc i pc }

def touch (s : BlockLocks ι) (a : ℕ) : BlockLocks ι :=
  { s with usedFreed := s.usedFreed || !s.live a }

def lock (s : BlockLocks ι) (i : ι) (a : ℕ) : BlockLocks ι :=
  { s.touch a with owner := Function.update s.owner a (some i) }

def unlock (s : BlockLocks ι) (a : ℕ) : BlockLocks ι :=
  { s.touch a with owner := Function.update s.owner a none }

def find (s : BlockLocks ι) (id : BlockID) : Option ℕ :=
  s.list.find? (fun a => (s.block a).id = id)

/-- The address that `deleteblock` finds: its search starts behind the head. -/
def deleteTarget (s : BlockLocks ι) (id : BlockID) : Option ℕ :=
  s.list.tail.find? (fun a => (s.block a).id = id)

def push (s : BlockLocks ι) (b : Block) : BlockLocks ι :=
  { s with list := s.next :: s.list, block := Function.update s.block s.next b
           live := Function.update s.live s.next true
           owner := Function.update s.owner s.next none, next := s.next + 1 }

/-- Unlink and free the block at `a`; its lock is not looked at. -/
def free (s : BlockLocks ι) (a : ℕ) : BlockLocks ι :=
  { s with list := s.list.erase a, live := Function.update s.live a false
           freedHeld := s.freedHeld || (s.owner a).isSome }

/-- A step of thread `i`; one that has to wait for a lock is not possible. -/
def step (s : BlockLocks ι) (i : ι) : LockStep → Option (BlockLocks ι)
  | .call op =>
    match s.pc i, s.find op.id with
    | .idle, none =>
      match op.newBlock with
      | .error _ => none
      | .ok none => some s
      | .ok (some b) => some (s.setPc i (.insert b))
    | .idle, some a =>
      if s.owner a = none then some ((s.lock i a).setPc i (.onBlock a op none)) else none
    | _, _ => none
  | .onBlock =>
    match s.pc i with
    | .onBlock a op k =>
      match op.onBlock (s.block a) with
      | .error _ => none
      | .ok b =>
        some ({ s.touch a with block := Function.update s.block a b }.setPc i (.unlock a k))
    | _ => none
  | .unlock =>
    match s.pc i with
    | .unlock a none => some ((s.unlock a).setPc i .idle)
    | .unlock a (some rest) => some ((s.unlock a).setPc i (.walk rest))
    | _ => none
  | .insert =>
    match s.pc i with
    | .insert b => if s.readers = [] then some ((s.push b).setPc i .idle) else none
    | _ => none
  | .delete id =>
    match s.pc i with
    | .idle =>
      if s.readers = [] then
        match s.deleteTarget id with
        | none => some s
        | some a => some (s.free a)
      else none
    | _ => none
  | .walk =>
    match s.pc i with
    | .idle => some ({ s with readers := i :: s.readers }.setPc i (.walk s.list))
    | _ => none
  | .walkLock =>
    match s.pc i with
    | .walk (a::rest) =>
      if s.owner a = none then
        some ((s.lock i a).setPc i (.onBlock a (.iscomplete (s.block a).id) (some rest)))
      else none
    | _ => none
  | .walkEnd =>
    match s.pc i with
    | .walk [] => some ({ s with readers := s.readers.filter (· ≠ i) }.setPc i .idle)
    | _ => none

end BlockLocks

def blockLocks (ι : Type) [DecidableEq ι] : System (BlockLocks ι) (ι × LockStep) where
  init s := s = BlockLocks.init
  step s a := s.step a.1 a.2

namespace BlockLocks

variable {ι : Type} {s t : BlockLocks ι} {i : ι} {a : ℕ}

def cache (s : BlockLocks ι) : Cache := s.list.map s.block

theorem find_cache (s : BlockLocks ι) (id : BlockID) :
    findblock s.cache id = (s.find id).map s.block := by
  rw [findblock, cache, find, List.find?_map]
  rfl

theorem deleteAfter_map (block : ℕ → Block) (id : BlockID) (rest : List ℕ) :
    deleteAfter id (rest.map block) =
      (rest.find? (fun a => (block a).id = id)).map (fun a => (rest.erase a).map block) := by
  induction rest with
  | nil => rfl
  | cons x rest ih =>
    simp only [List.map_cons, deleteAfter, List.find?_cons]
    by_cases hx : (block x).id = id
    · simp [hx]
    · simp only [hx, if_false, ih, decide_false]
      cases hfind : rest.find? (fun a => (block a).id = id) with
      | none => rfl
      | some a =>
        have hne : x ≠ a := by
          rintro rfl
          have hid := List.find?_some hfind
          simp [hx] at hid
        simp [List.erase_cons_tail, hne]

/-- What `deleteblock` frees is what it takes out of the cache. -/
theorem free_cache (hnodup : s.list.Nodup) {id : BlockID} (h : s.deleteTarget id = some a) :
    (s.free a).cache = (deleteblock s.cache id).1 := by
  unfold deleteTarget at h
  unfold cache free
  cases hl : s.list with
  | nil => simp [hl] at h
  | cons x rest =>
    rw [hl] at h hnodup
    simp only [List.tail_cons] at h
    have hne : x ≠ a := by
      rintro rfl
      exact (List.nodup_cons.mp hnodup).1 (List.mem_of_find?_eq_some h)
    simp only [List.map_cons, deleteblock, deleteAfter_map, h, Option.map_some]
    simp [List.erase_cons_tail, hne]

/-- Linked blocks are those not freed, a lock is held by the thread that is at work on its block,
and a walk only has linked blocks before it. -/
structure Guarded (s : BlockLocks ι) : Prop where
  linked : ∀ a, a ∈ s.list ↔ s.live a = true
  nodup : s.list.Nodup
  fresh : ∀ a ∈ s.list, a < s.next
  held : ∀ i a, (s.pc i).block = some a → s.owner a = some i ∧ a ∈ s.list
  owned : ∀ i a, s.owner a = some i → (s.pc i).block = some a
  walks : ∀ i rest, (s.pc i).rest = some rest → i ∈ s.readers ∧ ∀ a ∈ rest, a ∈ s.list
  freedHeld : s.freedHeld = false
  usedFreed : s.usedFreed = false

/-- `deleteblock` does not find a block that a thread has found and not unlocked yet. -/
def NoneInUse (s : BlockLocks ι) : ι × LockStep → Prop
  | (_, .delete id) => ∀ j, (s.pc j).block.isSome = true → (s.pc j).block ≠ s.deleteTarget id
  | _ => True

theorem guarded_init : (init : BlockLocks ι).Guarded where
  linked := by simp [init]
  nodup := List.nodup_nil
  fresh := by simp [init]
  held := by simp [init, LockPc.block]
  owned := by simp [init]
  walks := by simp [init, LockPc.rest]
  freedHeld := rfl
  usedFreed := rfl

theorem Guarded.touch (h : s.Guarded) (ha : a ∈ s.list) : s.touch a = s := by
  have hlive := (h.linked a).mp ha
  simp only [BlockLocks.touch, hlive, Bool.not_true, Bool.or_false]

theorem Guarded.find_mem {id : BlockID} (hf : s.find id = some a) : a ∈ s.list :=
  List.mem_of_find?_eq_some hf

theorem Guarded.write (h : s.Guarded) (block : ℕ → Block) : Guarded { s with block := block } :=
  ⟨h.linked, h.nodup, h.fresh, h.held, h.owned, h.walks, h.freedHeld, h.usedFreed⟩

theorem Guarded.push (h : s.Guarded) (hreaders : s.readers = []) (b : Block) :
    (s.push b).Guarded := by
  have hnew : ∀ a ∈ s.list, a ≠ s.next := fun a ha => (h.fresh a ha).ne
  refine ⟨?_, ?_, ?_, ?_, ?_, ?_, h.freedHeld, h.usedFreed⟩
  · intro a
    simp only [BlockLocks.push, List.mem_cons]
    by_cases ha : a = s.next
    · simp [ha]
    · rw [Function.update_of_ne ha, ← h.linked a]
      exact or_iff_right ha
  · exact List.nodup_cons.mpr ⟨fun hmem => hnew _ hmem rfl, h.nodup⟩
  · intro a ha
    simp only [BlockLocks.push] at ha ⊢
    rcases List.mem_cons.mp ha with rfl | ha
    · exact Nat.lt_succ_self _
    · exact Nat.lt_succ_of_lt (h.fresh a ha)
  · intro j a ha
    obtain ⟨howner, hmem⟩ := h.held j a ha
    exact ⟨by simp only [BlockLocks.push, Function.update_of_ne (hnew a hmem)]; exact howner,
      List.mem_cons_of_mem _ hmem⟩
  · intro j a howner
    have hne : a ≠ s.next := by
      rintro rfl
      simp [BlockLocks.push] at howner
    exact h.owned j a (by simpa [BlockLocks.push, Function.update_of_ne hne] using howner)
  · intro j rest hr
    obtain ⟨hreader, -⟩ := h.walks j rest hr
    rw [hreaders] at hreader
    simp at hreader

theorem Guarded.free (h : s.Guarded) (hreaders : s.readers = [])
    (hunused : ∀ j, (s.pc j).block ≠ some a) : (s.free a).Guarded := by
  have howner : s.owner a = none := by
    cases ho : s.owner a with
    | none => rfl
    | some j => exact absurd (h.owned j a ho) (hunused j)
  refine ⟨?_, h.nodup.erase a, ?_, ?_, h.owned, ?_, ?_, h.usedFreed⟩
  · intro a'
    simp only [BlockLocks.free, h.nodup.mem_erase_iff]
    by_cases ha : a' = a
    · simp [ha]
    · rw [Function.update_of_ne ha, ← h.linked a']
      exact and_iff_right ha
  · exact fun a' ha' => h.fresh a' (List.mem_of_mem_erase ha')
  · intro j a' ha'
    obtain ⟨howner', hmem⟩ := h.held j a' ha'
    have hne : a' ≠ a := by
      rintro rfl
      exact hunused j ha'
    exact ⟨howner', h.nodup.mem_erase_iff.mpr ⟨hne, hmem⟩⟩
  · intro j rest hr
    obtain ⟨hreader, -⟩ := h.walks j rest hr
    rw [hreaders] at hreader
    simp at hreader
  · simp [BlockLocks.free, howner, h.freedHeld]

variable [DecidableEq ι]

theorem setPc_self (s : BlockLocks ι) (i : ι) (pc : LockPc) : (s.setPc i pc).pc i = pc :=
  Function.update_self _ _ _

theorem setPc_other {j : ι} (hj : j ≠ i) (s : BlockLocks ι) (pc : LockPc) :
    (s.setPc i pc).pc j = s.pc j := Function.update_of_ne hj _ _

theorem forall_setPc {P : ι → LockPc → Prop} {pc : LockPc} (hi : P i pc)
    (hother : ∀ j, j ≠ i → P j (s.pc j)) : ∀ j, P j ((s.setPc i pc).pc j) :=
  (Function.forall_update_iff s.pc P).mpr ⟨hi, hother⟩

theorem Guarded.lock (h : s.Guarded) (ha : a ∈ s.list) (hfree : s.owner a = none)
    (hnone : (s.pc i).block = none) {pc : LockPc} (hpc : pc.block = some a)
    (hrest : ∀ rest, pc.rest = some rest → (s.pc i).rest = some (a :: rest)) :
    ((s.lock i a).setPc i pc).Guarded := by
  rw [BlockLocks.lock, h.touch ha]
  refine ⟨h.linked, h.nodup, h.fresh, ?_, ?_, ?_, h.freedHeld, h.usedFreed⟩
  · refine forall_setPc (P := fun j pc => ∀ a', pc.block = some a' →
      Function.update s.owner a (some i) a' = some j ∧ a' ∈ s.list) ?_ ?_
    · intro a' ha'
      obtain rfl : a = a' := Option.some.inj (hpc.symm.trans ha')
      exact ⟨Function.update_self _ _ _, ha⟩
    · intro j _ a' ha'
      obtain ⟨howner, hmem⟩ := h.held j a' ha'
      have hne : a' ≠ a := by
        rintro rfl
        rw [hfree] at howner
        cases howner
      exact ⟨by rw [Function.update_of_ne hne]; exact howner, hmem⟩
  · intro j a' howner
    by_cases hne : a' = a
    · subst a'
      have hj : i = j := by simpa [setPc] using howner
      subst j
      rw [setPc_self]
      exact hpc
    · have hold : s.owner a' = some j := by
        simpa [setPc, Function.update_of_ne hne] using howner
      have hblock := h.owned j a' hold
      have hj : j ≠ i := by
        rintro rfl
        rw [hnone] at hblock
        cases hblock
      rw [setPc_other hj]
      exact hblock
  · refine forall_setPc (P := fun j pc => ∀ rest, pc.rest = some rest →
      j ∈ s.readers ∧ ∀ a ∈ rest, a ∈ s.list) ?_ (fun j _ => h.walks j)
    intro rest hr
    obtain ⟨hreader, hmem⟩ := h.walks i _ (hrest rest hr)
    exact ⟨hreader, fun x hx => hmem x (List.mem_cons_of_mem _ hx)⟩

theorem Guarded.unlock (h : s.Guarded) (ha : (s.pc i).block = some a) {pc : LockPc}
    (hpc : pc.block = none) (hrest : ∀ rest, pc.rest = some rest → (s.pc i).rest = some rest) :
    ((s.unlock a).setPc i pc).Guarded := by
  obtain ⟨howner, hmem⟩ := h.held i a ha
  rw [BlockLocks.unlock, h.touch hmem]
  refine ⟨h.linked, h.nodup, h.fresh, ?_, ?_, ?_, h.freedHeld, h.usedFreed⟩
  · refine forall_setPc (P := fun j pc => ∀ a', pc.block = some a' →
      Function.update s.owner a none a' = some j ∧ a' ∈ s.list) ?_ ?_
    · intro a' ha'
      rw [hpc] at ha'
      cases ha'
    · intro j hj a' ha'
      obtain ⟨howner', hmem'⟩ := h.held j a' ha'
      have hne : a' ≠ a := by
        rintro rfl
        exact hj (Option.some.inj (howner'.symm.trans howner))
      exact ⟨by rw [Function.update_of_ne hne]; exact howner', hmem'⟩
  · intro j a' howner'
    by_cases hne : a' = a
    · subst a'
      simp [setPc] at howner'
    · have hold : s.owner a' = some j := by
        simpa [setPc, Function.update_of_ne hne] using howner'
      have hblock := h.owned j a' hold
      have hj : j ≠ i := by
        rintro rfl
        exact hne (Option.some.inj (hblock.symm.trans ha))
      rw [setPc_other hj]
      exact hblock
  · exact forall_setPc (P := fun j pc => ∀ rest, pc.rest = some rest →
      j ∈ s.readers ∧ ∀ a ∈ rest, a ∈ s.list) (fun rest hr => h.walks i rest (hrest rest hr))
      (fun j _ => h.walks j)

theorem Guarded.setPc (h : s.Guarded) {pc : LockPc} (hpc : pc.block = (s.pc i).block)
    (hrest : ∀ rest, pc.rest = some rest → i ∈ s.readers ∧ ∀ a ∈ rest, a ∈ s.list) :
    (s.setPc i pc).Guarded := by
  refine ⟨h.linked, h.nodup, h.fresh, ?_, ?_, ?_, h.freedHeld, h.usedFreed⟩
  · exact forall_setPc (P := fun j pc => ∀ a', pc.block = some a' → s.owner a' = some j ∧ a' ∈ s.list)
      (fun a' ha' => h.held i a' (hpc ▸ ha')) (fun j _ => h.held j)
  · intro j a' howner
    have hblock := h.owned j a' howner
    exact forall_setPc (P := fun j pc => (s.pc j).block = some a' → pc.block = some a')
      (fun hb => hpc.trans hb) (fun j _ hb => hb) j hblock
  · exact forall_setPc (P := fun j pc => ∀ rest, pc.rest = some rest →
      j ∈ s.readers ∧ ∀ a ∈ rest, a ∈ s.list) hrest (fun j _ => h.walks j)

theorem Guarded.step (h : s.Guarded) {x : LockStep} (hx : NoneInUse s (i, x))
    (hs : s.step i x = some t) : t.Guarded := by
  cases x with
  | call op =>
    simp only [BlockLocks.step] at hs
    split at hs
    · rename_i hpc hfind
      split at hs
      · cases hs
      · cases hs
        exact h
      · cases hs
        exact h.setPc (by rw [hpc]; rfl) (fun rest hr => by cases hr)
    · rename_i a hpc hfind
      split at hs
      · rename_i hfree
        cases hs
        exact h.lock (Guarded.find_mem hfind) hfree (by rw [hpc]; rfl) rfl (fun rest hr => by cases hr)
      · cases hs
    · cases hs
  | onBlock =>
    simp only [BlockLocks.step] at hs
    split at hs
    · rename_i a op k hpc
      split at hs
      · cases hs
      · rename_i b _
        have hmem := (h.held i a (by rw [hpc]; rfl)).2
        rw [h.touch hmem] at hs
        cases hs
        refine (h.write (Function.update s.block a b)).setPc ?_ ?_
        · show some a = (s.pc i).block
          rw [hpc]
          rfl
        · exact fun rest hr => h.walks i rest (by rw [hpc]; exact hr)
    · cases hs
  | unlock =>
    simp only [BlockLocks.step] at hs
    split at hs
    · rename_i a hpc
      cases hs
      exact h.unlock (by rw [hpc]; rfl) rfl (fun rest hr => by cases hr)
    · rename_i a rest hpc
      cases hs
      exact h.unlock (by rw [hpc]; rfl) rfl (fun rest' hr => by rw [hpc]; exact hr)
    · cases hs
  | insert =>
    simp only [BlockLocks.step] at hs
    split at hs
    · rename_i b hpc
      split at hs
      · rename_i hreaders
        cases hs
        exact (h.push hreaders b).setPc (by show none = (s.pc i).block; rw [hpc]; rfl)
          (fun rest hr => by cases hr)
      · cases hs
    · cases hs
  | delete id =>
    simp only [BlockLocks.step] at hs
    split at hs
    · split at hs
      · rename_i hreaders
        split at hs
        · cases hs
          exact h
        · rename_i a htarget
          cases hs
          refine h.free hreaders (fun j hj => hx j ?_ ?_)
          · rw [hj]
            rfl
          · rw [hj, htarget]
      · cases hs
    · cases hs
  | walk =>
    simp only [BlockLocks.step] at hs
    split at hs
    · rename_i hpc
      cases hs
      have hmore : Guarded { s with readers := i :: s.readers } :=
        ⟨h.linked, h.nodup, h.fresh, h.held, h.owned,
          fun j rest hr => ⟨List.mem_cons_of_mem _ (h.walks j rest hr).1, (h.walks j rest hr).2⟩,
          h.freedHeld, h.usedFreed⟩
      refine hmore.setPc (by show none = (s.pc i).block; rw [hpc]; rfl) (fun rest hr => ?_)
      cases hr
      exact ⟨List.mem_cons_self, fun a ha => ha⟩
    · cases hs
  | walkLock =>
    simp only [BlockLocks.step] at hs
    split at hs
    · rename_i a rest hpc
      split at hs
      · rename_i hfree
        cases hs
        have hmem := (h.walks i (a :: rest) (by rw [hpc]; rfl)).2 a List.mem_cons_self
        refine h.lock hmem hfree (by rw [hpc]; rfl) rfl (fun rest' hr => ?_)
        cases hr
        rw [hpc]
        rfl
      · cases hs
    · cases hs
  | walkEnd =>
    simp only [BlockLocks.step] at hs
    split at hs
    · rename_i hpc
      cases hs
      -- Thread `i` leaves its walk and the readers together.
      have hleft : (s.setPc i .idle).Guarded :=
        h.setPc (by rw [hpc]; rfl) (fun rest hr => by cases hr)
      refine ⟨hleft.linked, hleft.nodup, hleft.fresh, hleft.held, hleft.owned, ?_, hleft.freedHeld,
        hleft.usedFreed⟩
      refine forall_setPc (P := fun j pc => ∀ rest, pc.rest = some rest →
        j ∈ s.readers.filter (· ≠ i) ∧ ∀ a ∈ rest, a ∈ s.list) (fun rest hr => by cases hr) ?_
      intro j hj rest hr
      obtain ⟨hreader, hmem⟩ := h.walks j rest hr
      exact ⟨List.mem_filter.mpr ⟨hreader, by simpa using hj⟩, hmem⟩
    · cases hs

theorem guarded_reaches (h : Reaches (blockLocks ι) NoneInUse s) : s.Guarded := by
  apply h.invariant
  · rintro _ rfl
    exact guarded_init
  · intro s a t hg ha hs
    exact hg.step ha hs

/-- In every run in which `deleteblock` never finds a block that a thread has found and not
unlocked yet: no block is freed while its lock is held, and none is locked, worked on or unlocked
after it was freed; whoever is at work on a block holds its lock. -/
theorem locked_not_freed (h : Reaches (blockLocks ι) NoneInUse s) :
    s.freedHeld = false ∧ s.usedFreed = false ∧
      ∀ i a, (s.pc i).block = some a → s.live a = true ∧ s.owner a = some i := by
  have hg := guarded_reaches h
  refine ⟨hg.freedHeld, hg.usedFreed, fun i a ha => ?_⟩
  obtain ⟨howner, hmem⟩ := hg.held i a ha
  exact ⟨(hg.linked a).mp hmem, howner⟩

/-- The first step that does not meet the condition frees a locked block, and the next step that
its thread makes with the block acts on freed memory. -/
theorem freed_in_use (h : Reaches (blockLocks ι) NoneInUse s) {x : ι × LockStep}
    (hx : ¬ NoneInUse s x) (hs : s.step x.1 x.2 = some t) :
    t.freedHeld = true ∧ ∃ j a, (t.pc j).block = some a ∧ t.live a = false := by
  have hg := guarded_reaches h
  obtain ⟨i, x⟩ := x
  cases x with
  | delete id =>
    obtain ⟨j, hj⟩ := not_forall.mp hx
    obtain ⟨hsome, hsame⟩ := Classical.not_imp.mp hj
    obtain ⟨a, ha⟩ := Option.isSome_iff_exists.mp hsome
    have htarget : s.deleteTarget id = some a := (not_not.mp hsame).symm.trans ha
    obtain ⟨howner, -⟩ := hg.held j a ha
    simp only [BlockLocks.step, htarget] at hs
    split at hs
    · split at hs
      · cases hs
        exact ⟨by simp [free, howner], j, a, ha, by simp [free]⟩
      · cases hs
    · cases hs
  | call op => exact absurd trivial hx
  | onBlock => exact absurd trivial hx
  | unlock => exact absurd trivial hx
  | insert => exact absurd trivial hx
  | walk => exact absurd trivial hx
  | walkLock => exact absurd trivial hx
  | walkEnd => exact absurd trivial hx

instance [Fintype ι] (s : BlockLocks ι) (x : ι × LockStep) : Decidable (NoneInUse s x) := by
  unfold NoneInUse
  split <;> infer_instance

def putBoth : List (CacheThread × LockStep) :=
  [(.app, .call (.addblock ⟨1, 1⟩ [7])), (.app, .insert),
    (.app, .call (.addblock ⟨1, 2⟩ [7])), (.app, .insert)]

theorem locked_not_freed_run :
    ∃ s, (blockLocks CacheThread).runIf NoneInUse init (putBoth ++
        [(.processor, .call (.iscomplete ⟨1, 1⟩)), (.processor, .onBlock), (.processor, .unlock),
          (.app, .delete ⟨1, 1⟩)]) = some s ∧
      s.list = [1] ∧ s.live 0 = false ∧ s.freedHeld = false ∧ s.usedFreed = false := by
  have hrun : ((blockLocks CacheThread).runIf NoneInUse init (putBoth ++
      [(.processor, .call (.iscomplete ⟨1, 1⟩)), (.processor, .onBlock), (.processor, .unlock),
        (.app, .delete ⟨1, 1⟩)])).map (fun s => (s.list, s.live 0)) = some ([1], false) := by
    decide +kernel
  obtain ⟨s, hs, hstate⟩ := Option.map_eq_some_iff.mp hrun
  obtain ⟨hlist, hlive⟩ := Prod.mk.inj hstate
  obtain ⟨hfreed, hused, -⟩ := locked_not_freed ((Reaches.init rfl).runIf hs)
  exact ⟨s, hs, hlist, hlive, hfreed, hused⟩

/-- A block is deleted while the processor has it locked, and then read and unlocked. -/
theorem locked_freed :
    ∃ s, Reachable (blockLocks CacheThread) s ∧ s.freedHeld = true ∧ s.usedFreed = true := by
  have hrun : ((blockLocks CacheThread).runIf (fun _ _ => True) init (putBoth ++
      [(.processor, .call (.iscomplete ⟨1, 1⟩)), (.app, .delete ⟨1, 1⟩),
        (.processor, .onBlock), (.processor, .unlock)])).map
          (fun s => (s.freedHeld, s.usedFreed)) = some (true, true) := by
    decide +kernel
  obtain ⟨s, hs, hstate⟩ := Option.map_eq_some_iff.mp hrun
  obtain ⟨hfreed, hused⟩ := Prod.mk.inj hstate
  exact ⟨s, (Reaches.init rfl).runIf hs, hfreed, hused⟩

end BlockLocks

end Bora
