import Mathlib.Algebra.Order.Ring.Int
import Mathlib.Tactic.Linarith
import Mathlib.Tactic.Ring

/-! Integers as a leading part and a last digit in base `b`: what one borrow makes of a
difference, and what the comparison of the parts in turn decides. -/

/-- The number `high * b + low`. -/
structure TwoDigit where
  high : ℤ
  low : ℤ

namespace TwoDigit

variable (b : ℤ)

def value (x : TwoDigit) : ℤ := x.high * b + x.low

def Normal (x : TwoDigit) : Prop := 0 ≤ x.low ∧ x.low < b

/-- The difference, with one borrow where the last part is negative. -/
def sub (x y : TwoDigit) : TwoDigit :=
  if x.low - y.low < 0 then ⟨x.high - y.high - 1, x.low - y.low + b⟩
  else ⟨x.high - y.high, x.low - y.low⟩

/-- The last parts decide only where the leading ones are equal. -/
def Lt (x y : TwoDigit) : Prop := if x.high = y.high then x.low < y.low else x.high < y.high

variable {b} {x y : TwoDigit}

theorem value_sub (x y : TwoDigit) : (sub b x y).value b = x.value b - y.value b := by
  unfold sub value
  split
  · simp only
    ring
  · simp only
    ring

theorem Normal.sub (hx : x.Normal b) (hy : y.Normal b) : (sub b x y).Normal b := by
  obtain ⟨hx0, hxb⟩ := hx
  obtain ⟨hy0, hyb⟩ := hy
  unfold TwoDigit.sub
  split
  · rename_i hneg
    exact ⟨by simp only; omega, by simp only; omega⟩
  · rename_i hpos
    exact ⟨by simp only; omega, by simp only; omega⟩

theorem value_lt_of_high (hx : x.Normal b) (hy : y.Normal b) (h : x.high < y.high) :
    x.value b < y.value b := by
  have hb : 0 < b := hx.1.trans_lt hx.2
  calc x.high * b + x.low
      < x.high * b + b := by linarith [hx.2]
    _ = (x.high + 1) * b := by ring
    _ ≤ y.high * b := mul_le_mul_of_nonneg_right h hb.le
    _ ≤ y.high * b + y.low := by linarith [hy.1]

theorem lt_iff (hx : x.Normal b) (hy : y.Normal b) : x.Lt y ↔ x.value b < y.value b := by
  unfold Lt
  split
  · rename_i heq
    simp only [value, heq]
    exact (add_lt_add_iff_left _).symm
  · rename_i hne
    rcases lt_or_gt_of_ne hne with hlt | hgt
    · exact iff_of_true hlt (value_lt_of_high hx hy hlt)
    · exact iff_of_false hgt.not_gt (value_lt_of_high hy hx hgt).not_gt

end TwoDigit
