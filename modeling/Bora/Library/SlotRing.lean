import Mathlib.Data.List.Basic
import Mathlib.Logic.Function.Basic
import Bora.Library.Transition

/-! A ring of slots between one producer and one consumer, guarded by a semaphore that counts the
free slots and one that counts the filled ones. Each side works on its slot in as many steps as it
likes between its wait and its post. -/
namespace SlotRing

open Transition

/-- `writing` and `reading` say that a side is between its wait and its post. `produced` are the
contents that were published, `released` counts what the consumer gave back, and `changes` is what
the consumer did to the slot that it holds. -/
structure State (σ : Type*) where
  slots : ℕ → σ
  empty : ℕ
  full : ℕ
  writing : Bool
  reading : Bool
  produced : List σ
  released : ℕ
  changes : σ → σ

inductive Action (σ : Type*)
  | acquire
  | write (f : σ → σ)
  | publish
  | take
  | change (f : σ → σ)
  | release

variable {σ : Type*} {N : ℕ}

namespace State

def init (N : ℕ) (slots : ℕ → σ) : State σ := ⟨slots, N, 0, false, false, [], 0, id⟩

def head (N : ℕ) (s : State σ) : ℕ := s.produced.length % N

def tail (N : ℕ) (s : State σ) : ℕ := s.released % N

def step (N : ℕ) (s : State σ) : Action σ → Option (State σ)
  | .acquire =>
    if s.writing = true ∨ s.empty = 0 then none
    else some { s with empty := s.empty - 1, writing := true }
  | .write f =>
    if s.writing = true then
      some { s with slots := Function.update s.slots (s.head N) (f (s.slots (s.head N))) }
    else none
  | .publish =>
    if s.writing = true then
      some { s with full := s.full + 1, writing := false
                    produced := s.produced ++ [s.slots (s.head N)] }
    else none
  | .take =>
    if s.reading = true ∨ s.full = 0 then none
    else some { s with full := s.full - 1, reading := true, changes := id }
  | .change f =>
    if s.reading = true then
      some { s with slots := Function.update s.slots (s.tail N) (f (s.slots (s.tail N)))
                    changes := f ∘ s.changes }
    else none
  | .release =>
    if s.reading = true then
      some { s with empty := s.empty + 1, reading := false, released := s.released + 1 }
    else none

end State

def ring (N : ℕ) (slots : ℕ → σ) : System (State σ) (Action σ) where
  init s := s = State.init N slots
  step := State.step N

namespace State

variable {s t : State σ}

theorem step_acquire (hw : s.writing = false) (he : s.empty ≠ 0) :
    s.step N .acquire = some { s with empty := s.empty - 1, writing := true } :=
  if_neg (not_or.mpr ⟨by rw [hw]; decide, he⟩)

theorem step_take (hr : s.reading = false) (hf : s.full ≠ 0) :
    s.step N .take = some { s with full := s.full - 1, reading := true, changes := id } :=
  if_neg (not_or.mpr ⟨by rw [hr]; decide, hf⟩)

/-- What a step of an implementation is to the ring: one of its own, or nothing. -/
def Moves (N : ℕ) (s t : State σ) : Prop := t = s ∨ ∃ a, s.step N a = some t

theorem Moves.reachable (h : Moves N s t) {slots : ℕ → σ} (hs : Reachable (ring N slots) s) :
    Reachable (ring N slots) t := by
  rcases h with rfl | ⟨a, ha⟩
  · exact hs
  · exact hs.step trivial ha

/-- The content of the slot of a published item that was not given back. -/
def content (s : State σ) (k : ℕ) (x : σ) : σ :=
  if k = s.released ∧ s.reading = true then s.changes x else x

/-- Tokens are slots; and every published item that was not given back is in its slot, as it was
published but for the changes of the consumer to its own. -/
structure Inv (N : ℕ) (s : State σ) : Prop where
  free : s.empty + s.writing.toNat + s.produced.length = N + s.released
  filled : s.full + s.reading.toNat + s.released = s.produced.length
  items : ∀ k x, s.released ≤ k → s.produced[k]? = some x → s.slots (k % N) = s.content k x

theorem inv_init (slots : ℕ → σ) : (init N slots).Inv N where
  free := rfl
  filled := rfl
  items k x _ hx := by simp [init] at hx

theorem mod_ne {i j : ℕ} (hlt : i < j) (hd : j < i + N) : i % N ≠ j % N := by
  intro h
  have hdvd : N ∣ j - i := Nat.dvd_of_mod_eq_zero (Nat.sub_mod_eq_zero_of_mod_eq h.symm)
  have hle := Nat.le_of_dvd (Nat.sub_pos_of_lt hlt) hdvd
  omega

/-- While the producer works on its slot, no item that was not given back is in it. -/
theorem Inv.head_ne (h : s.Inv N) (hw : s.writing = true) {k : ℕ} (hk : s.released ≤ k)
    (hlt : k < s.produced.length) : k % N ≠ s.head N := by
  have hfree := h.free
  rw [hw, Bool.toNat_true] at hfree
  exact mod_ne hlt (by omega)

/-- While the consumer works on its slot, the item there is the next one in order, and no later
item is in it. -/
theorem Inv.tail_ne (h : s.Inv N) {k : ℕ} (hk : s.released < k)
    (hlt : k < s.produced.length) : k % N ≠ s.tail N := by
  have hfree := h.free
  exact (mod_ne hk (by omega)).symm

theorem Inv.step (h : s.Inv N) {a : Action σ} (hs : s.step N a = some t) : t.Inv N := by
  have hfree := h.free
  have hfilled := h.filled
  cases a with
  | acquire =>
    simp only [State.step] at hs
    split at hs
    · cases hs
    · rename_i hno
      obtain ⟨hw, he⟩ := not_or.mp hno
      cases hs
      have hwf : s.writing = false := by simpa using hw
      rw [hwf, Bool.toNat_false] at hfree
      refine ⟨?_, hfilled, h.items⟩
      rw [Bool.toNat_true]
      dsimp only
      omega
  | write f =>
    simp only [State.step] at hs
    split at hs
    · rename_i hw
      cases hs
      refine ⟨hfree, hfilled, ?_⟩
      intro k x hk hx
      have hlt := (List.getElem?_eq_some_iff.mp hx).1
      have hne : k % N ≠ s.head N := h.head_ne hw hk hlt
      dsimp only
      rw [Function.update_of_ne hne]
      exact h.items k x hk hx
    · cases hs
  | publish =>
    simp only [State.step] at hs
    split at hs
    · rename_i hw
      cases hs
      rw [hw, Bool.toNat_true] at hfree
      refine ⟨?_, ?_, ?_⟩
      · simp only [Bool.toNat_false, List.length_append, List.length_singleton]
        omega
      · simp only [List.length_append, List.length_singleton]
        omega
      · intro k x hk hx
        by_cases hlt : k < s.produced.length
        · rw [List.getElem?_append_left hlt] at hx
          exact h.items k x hk hx
        · have hlen := (List.getElem?_eq_some_iff.mp hx).1
          rw [List.length_append, List.length_singleton] at hlen
          obtain rfl : k = s.produced.length := by omega
          rw [List.getElem?_concat_length] at hx
          have hnot : ¬ (s.produced.length = s.released ∧ s.reading = true) := by
            rintro ⟨heq, hr⟩
            rw [hr, Bool.toNat_true] at hfilled
            omega
          exact (Option.some.inj hx).trans (if_neg hnot).symm
    · cases hs
  | take =>
    simp only [State.step] at hs
    split at hs
    · cases hs
    · rename_i hno
      obtain ⟨hr, hfull⟩ := not_or.mp hno
      cases hs
      have hrf : s.reading = false := by simpa using hr
      rw [hrf, Bool.toNat_false] at hfilled
      refine ⟨hfree, ?_, ?_⟩
      · rw [Bool.toNat_true]
        dsimp only
        omega
      · intro k x hk hx
        have hitem := h.items k x hk hx
        rw [content, if_neg (by simp [hrf])] at hitem
        dsimp only [content]
        rw [hitem]
        split <;> rfl
  | change f =>
    simp only [State.step] at hs
    split at hs
    · rename_i hr
      cases hs
      refine ⟨hfree, hfilled, ?_⟩
      intro k x hk hx
      have hitem := h.items k x hk hx
      have hlt := (List.getElem?_eq_some_iff.mp hx).1
      dsimp only [content] at hk ⊢
      by_cases hown : k = s.released
      · subst k
        rw [content, if_pos ⟨rfl, hr⟩] at hitem
        rw [if_pos ⟨rfl, hr⟩, State.tail, Function.update_self, hitem]
        rfl
      · rw [content, if_neg (fun hc => hown hc.1)] at hitem
        rw [if_neg (fun hc => hown hc.1), Function.update_of_ne (h.tail_ne (by omega) hlt)]
        exact hitem
    · cases hs
  | release =>
    simp only [State.step] at hs
    split at hs
    · rename_i hr
      cases hs
      rw [hr, Bool.toNat_true] at hfilled
      refine ⟨?_, ?_, ?_⟩
      · dsimp only
        omega
      · rw [Bool.toNat_false]
        dsimp only
        omega
      · intro k x hk hx
        dsimp only at hk hx
        have hitem := h.items k x (by omega) hx
        have hown : ¬ (k = s.released ∧ s.reading = true) := fun hc => by omega
        rw [content, if_neg hown] at hitem
        exact hitem.trans (if_neg (by simp)).symm
    · cases hs

theorem inv_reachable {slots : ℕ → σ} (h : Reachable (ring N slots) s) : s.Inv N := by
  apply h.invariant
  · rintro _ rfl
    exact inv_init slots
  · intro s a t hi _ hs
    exact hi.step hs

theorem Inv.found (h : s.Inv N) (hr : s.reading = true) :
    ∃ x, s.produced[s.released]? = some x ∧ s.slots (s.tail N) = s.changes x := by
  have hfilled := h.filled
  rw [hr, Bool.toNat_true] at hfilled
  have hlt : s.released < s.produced.length := by omega
  refine ⟨s.produced[s.released], List.getElem?_eq_getElem hlt, ?_⟩
  have hitem := h.items s.released _ (Nat.le_refl _) (List.getElem?_eq_getElem hlt)
  rw [content, if_pos ⟨rfl, hr⟩] at hitem
  exact hitem

end State

end SlotRing
