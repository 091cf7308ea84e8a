import Mathlib.Algebra.Group.Basic

/-! Counters that are read in windows: what they hold, what the reads that ended a window
reported, and all that was ever counted. -/

variable {G : Type*} [AddCommGroup G]

/-- `reported` is the sum over the windows so far. -/
structure Meter (G : Type*) where
  current : G
  reported : G
  total : G

namespace Meter

/-- The windows lose nothing and repeat nothing. -/
def Exact (m : Meter G) : Prop := m.reported + m.current = m.total

def start : Meter G := ⟨0, 0, 0⟩

def add (m : Meter G) (k : G) : Meter G :=
  { m with current := m.current + k, total := m.total + k }

/-- A window ends: its count is reported and cleared. -/
def take (m : Meter G) : Meter G := { m with current := 0, reported := m.reported + m.current }

def clear (m : Meter G) : Meter G := { m with current := 0 }

def leave (m : Meter G) : Meter G := { m with reported := m.reported + m.current }

variable {m : Meter G}

theorem exact_start : (start : Meter G).Exact := add_zero 0

theorem Exact.add (h : m.Exact) (k : G) : (m.add k).Exact := by
  calc m.reported + (m.current + k)
      = m.reported + m.current + k := (add_assoc _ _ _).symm
    _ = m.total + k := by rw [h]

theorem Exact.take (h : m.Exact) : m.take.Exact := by
  calc m.reported + m.current + 0
      = m.reported + m.current := add_zero _
    _ = m.total := h

/-- A clearing loses what is there. -/
theorem Exact.clear_iff (h : m.Exact) : m.clear.Exact ↔ m.current = 0 := by
  change m.reported + 0 = m.total ↔ m.current = 0
  rw [← show m.reported + m.current = m.total from h, add_right_inj]
  exact eq_comm

/-- What is reported and left is counted twice. -/
theorem Exact.leave_iff (h : m.Exact) : m.leave.Exact ↔ m.current = 0 := by
  change m.reported + m.current + m.current = m.total ↔ m.current = 0
  rw [show m.reported + m.current = m.total from h, add_eq_left]

end Meter
