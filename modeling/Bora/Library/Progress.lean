import Bora.Library.Transition
import Mathlib.Data.Nat.Notation

/-! What a system can be brought to by actions of some kind, and in how many steps. -/
namespace Transition

variable {S A : Type*} {M : System S A} {allowed : A → Prop} {Goal : S → Prop} {m n : ℕ} {s t : S}

/-- At most `n` allowed actions lead to the goal. -/
def CanReach (M : System S A) (allowed : A → Prop) (Goal : S → Prop) (n : ℕ) (s : S) : Prop :=
  ∃ as, as.length ≤ n ∧ (∀ a ∈ as, allowed a) ∧ ∃ t, M.run s as = some t ∧ Goal t

namespace CanReach

theorem now (h : Goal s) : CanReach M allowed Goal 0 s := ⟨[], Nat.le_refl 0, by simp, s, rfl, h⟩

theorem mono (h : CanReach M allowed Goal m s) (hmn : m ≤ n) : CanReach M allowed Goal n s := by
  obtain ⟨as, hlen, hrest⟩ := h
  exact ⟨as, Nat.le_trans hlen hmn, hrest⟩

theorem cons {a : A} (h : CanReach M allowed Goal n t) (ha : allowed a) (hs : M.step s a = some t) :
    CanReach M allowed Goal (n + 1) s := by
  obtain ⟨as, hlen, hallowed, u, hrun, hu⟩ := h
  refine ⟨a :: as, Nat.succ_le_succ hlen, List.forall_mem_cons.mpr ⟨ha, hallowed⟩, u, ?_, hu⟩
  rw [System.run_cons, hs]
  exact hrun

end CanReach

end Transition
