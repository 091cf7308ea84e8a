import Mathlib.Data.List.Range
import Mathlib.Logic.Function.Basic

/-! Circular buffers addressed by a write index and a fill counter, and the FIFO
list they stand for. -/

/-- `c` is the slot written next, `f` the number of filled slots. -/
structure RingBuffer (α : Type*) where
  buf : ℕ → α
  c : ℕ
  f : ℕ

namespace RingBuffer

variable {α : Type*} {N : ℕ}

def empty (x : α) : RingBuffer α := ⟨fun _ => x, 0, 0⟩

def slot (N : ℕ) (r : RingBuffer α) (i : ℕ) : ℕ := (N + r.c - r.f + i) % N

def push (N : ℕ) (r : RingBuffer α) (x : α) : RingBuffer α :=
  ⟨Function.update r.buf r.c x, (r.c + 1) % N, r.f + 1⟩

/-- The item in the slot that `f` places behind the write index. -/
def front (N : ℕ) (r : RingBuffer α) : α := r.buf ((N + r.c - r.f) % N)

def drop (r : RingBuffer α) : RingBuffer α := { r with f := r.f - 1 }

def toList (N : ℕ) (r : RingBuffer α) : List α := (List.range r.f).map (fun i => r.buf (slot N r i))

/-- Indices in range: what every push behind a full test and every guarded take keep. -/
structure Valid (N : ℕ) (r : RingBuffer α) : Prop where
  c_lt : r.c < N
  f_le : r.f ≤ N

@[simp] theorem toList_length (r : RingBuffer α) : (toList N r).length = r.f := by simp [toList]

@[simp] theorem toList_empty (x : α) : toList N (empty x) = [] := rfl

theorem valid_empty (hN : 0 < N) (x : α) : Valid N (empty x) := ⟨hN, Nat.zero_le _⟩

theorem slot_eq {r : RingBuffer α} (h : Valid N r) {i : ℕ} (hi : i ≤ r.f) :
    slot N r i = if r.c + i < r.f then N + r.c - r.f + i else r.c + i - r.f := by
  have hc := h.c_lt
  have hf := h.f_le
  by_cases hw : r.c + i < r.f
  · rw [if_pos hw, slot, Nat.mod_eq_of_lt (by omega)]
  · have hs : N + r.c - r.f + i = N + (r.c + i - r.f) := by omega
    rw [if_neg hw, slot, hs, Nat.add_mod_left, Nat.mod_eq_of_lt (by omega)]

theorem slot_ne_c {r : RingBuffer α} (h : Valid N r) (hroom : r.f < N) {i : ℕ} (hi : i < r.f) :
    slot N r i ≠ r.c := by
  have hc := h.c_lt
  rw [slot_eq h hi.le]
  split <;> omega

theorem push_valid {r : RingBuffer α} (h : Valid N r) (hroom : r.f < N) (x : α) :
    Valid N (push N r x) :=
  ⟨Nat.mod_lt _ (by have := h.c_lt; omega), hroom⟩

theorem drop_valid {r : RingBuffer α} (h : Valid N r) : Valid N (drop r) :=
  ⟨h.c_lt, le_trans (Nat.sub_le _ _) h.f_le⟩

theorem push_c (r : RingBuffer α) (h : Valid N r) (x : α) :
    (push N r x).c = if r.c + 1 < N then r.c + 1 else 0 := by
  have hc := h.c_lt
  simp only [push]
  split
  · exact Nat.mod_eq_of_lt ‹_›
  · have he : r.c + 1 = N := by omega
    rw [he, Nat.mod_self]

theorem slot_push {r : RingBuffer α} (h : Valid N r) (hroom : r.f < N) (x : α) {i : ℕ}
    (hi : i ≤ r.f) : slot N (push N r x) i = if i = r.f then r.c else slot N r i := by
  have hc := h.c_lt
  have hp := push_c r h x
  have hf : (push N r x).f = r.f + 1 := rfl
  rw [slot_eq (push_valid h hroom x) (by omega), slot_eq h hi, hp, hf]
  split_ifs <;> omega

/-- A push behind the full test appends one item and keeps every queued one. -/
theorem toList_push {r : RingBuffer α} (h : Valid N r) (hroom : r.f < N) (x : α) :
    toList N (push N r x) = toList N r ++ [x] := by
  have hf : (push N r x).f = r.f + 1 := rfl
  have hold : (List.range r.f).map (fun i => (push N r x).buf (slot N (push N r x) i)) =
      toList N r := by
    apply List.map_congr_left
    intro i hi
    have hlt : i < r.f := List.mem_range.mp hi
    rw [slot_push h hroom x hlt.le, if_neg hlt.ne]
    exact Function.update_of_ne (slot_ne_c h hroom hlt) _ _
  have hnew : (push N r x).buf (slot N (push N r x) r.f) = x := by
    rw [slot_push h hroom x le_rfl, if_pos rfl]
    exact Function.update_self _ _ _
  rw [toList, hf, List.range_succ, List.map_append, hold, List.map_singleton, hnew]

/-- Taking from a filled ring yields the oldest item and leaves the others. -/
theorem toList_drop {r : RingBuffer α} (h : Valid N r) (hf : 0 < r.f) :
    toList N r = front N r :: toList N (drop r) := by
  have hc := h.c_lt
  have hle := h.f_le
  obtain ⟨k, hk⟩ : ∃ k, r.f = k + 1 := ⟨r.f - 1, by omega⟩
  have hslot : ∀ i, slot N r (i + 1) = slot N (drop r) i := by
    intro i
    simp only [slot, drop]
    congr 1
    omega
  have hdrop : (drop r).f = k := by simp [drop, hk]
  rw [toList, hk, List.range_succ_eq_map, List.map_cons, List.map_map, toList, hdrop]
  refine congrArg₂ _ rfl (List.map_congr_left ?_)
  intro i _
  rw [Function.comp_apply, Nat.succ_eq_add_one, hslot]
  rfl

end RingBuffer
