import Mathlib.Data.List.Basic
import Mathlib.Tactic.Ring

/-! Pieces of a list, each with its place in it. -/
namespace Pieces

variable {α : Type*}

/-- The pieces lie in `xs`, every position of `xs` is in exactly one of them, and one behind
the other they are `xs`. -/
structure Partitions (xs : List α) (pieces : List (ℕ × List α)) : Prop where
  inside : ∀ p ∈ pieces, p.1 + p.2.length ≤ xs.length
  copied : ∀ p ∈ pieces, p.2 = (xs.drop p.1).take p.2.length
  once : ∀ x < xs.length, ∃! i : ℕ, ∃ p, pieces[i]? = some p ∧ p.1 ≤ x ∧ x < p.1 + p.2.length
  whole : (pieces.map Prod.snd).flatten = xs

/-- The first `n` pieces of `k` elements; the last one takes what is left. -/
def chunks (k n : ℕ) (xs : List α) : List (ℕ × List α) :=
  (List.range n).map (fun i => (k * i, (xs.drop (k * i)).take k))

variable {k n : ℕ} {xs : List α}

theorem chunks_getElem? {i : ℕ} (hi : i < n) :
    (chunks k n xs)[i]? = some (k * i, (xs.drop (k * i)).take k) := by
  simp [chunks, hi]

theorem mem_chunks {p : ℕ × List α} (h : p ∈ chunks k n xs) :
    ∃ i < n, p = (k * i, (xs.drop (k * i)).take k) := by
  obtain ⟨i, hi, rfl⟩ := List.mem_map.mp h
  exact ⟨i, List.mem_range.mp hi, rfl⟩

theorem flatten_chunks (k n : ℕ) (xs : List α) :
    ((chunks k n xs).map Prod.snd).flatten = xs.take (k * n) := by
  induction n with
  | zero => simp [chunks]
  | succ n ih =>
    have hsplit : chunks k (n + 1) xs = chunks k n xs ++ [(k * n, (xs.drop (k * n)).take k)] := by
      simp [chunks, List.range_succ]
    rw [hsplit, List.map_append, List.flatten_append, ih, Nat.mul_succ, List.take_add]
    simp

theorem partitions_chunks (hk : 0 < k) (hlast : ∀ i < n, k * i < xs.length)
    (hall : xs.length ≤ k * n) : Partitions xs (chunks k n xs) where
  inside p hp := by
    obtain ⟨i, hi, rfl⟩ := mem_chunks hp
    have h := hlast i hi
    simp only [List.length_take, List.length_drop]
    omega
  copied p hp := by
    obtain ⟨i, hi, rfl⟩ := mem_chunks hp
    simp
  once x hx := by
    have hdiv := Nat.div_add_mod x k
    have hmod := Nat.mod_lt x hk
    have hn : x / k < n := Nat.div_lt_of_lt_mul (hx.trans_le hall)
    refine ⟨x / k, ⟨_, chunks_getElem? hn, Nat.mul_div_le x k, ?_⟩, ?_⟩
    · simp only [List.length_take, List.length_drop]
      omega
    · -- The piece that has `x` is the one that `x / k` counts.
      rintro i ⟨p, hp, hle, hlt⟩
      have hi : i < n := by
        by_contra hge
        rw [List.getElem?_eq_none (by simp [chunks]; omega)] at hp
        cases hp
      rw [chunks_getElem? hi] at hp
      cases hp
      simp only [List.length_take, List.length_drop] at hle hlt
      refine (Nat.div_eq_of_lt_le ?_ ?_).symm
      · rw [Nat.mul_comm]
        exact hle
      · calc x < k * i + k := by omega
          _ = (i + 1) * k := by ring
  whole := by rw [flatten_chunks, List.take_of_length_le hall]

end Pieces
