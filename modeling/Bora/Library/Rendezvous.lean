import Mathlib.Data.Nat.Notation

/-! Two parties that pass a turn to and fro through two semaphores. One posts the first and waits
for the second, the other waits for the first and posts the second. -/

/-- `asked` and `answered` are the semaphores. The last two fields record the run. -/
structure Rendezvous where
  asked : ℕ
  answered : ℕ
  waiting : Bool
  serving : Bool
  asks : ℕ
  answers : ℕ

inductive RendezvousStep
  | ask | take | answer | resume

namespace Rendezvous

def step (r : Rendezvous) : RendezvousStep → Option Rendezvous
  | .ask =>
    if r.waiting then none
    else some { r with asked := r.asked + 1, waiting := true, asks := r.asks + 1 }
  | .take =>
    if r.serving ∨ r.asked = 0 then none
    else some { r with asked := r.asked - 1, serving := true }
  | .answer =>
    if r.serving then
      some { r with answered := r.answered + 1, serving := false, answers := r.answers + 1 }
    else none
  | .resume =>
    if r.waiting = false ∨ r.answered = 0 then none
    else some { r with answered := r.answered - 1, waiting := false }

/-- The turn is in one of the semaphores or with the one who serves, while the other one waits. -/
structure Balanced (r : Rendezvous) : Prop where
  turn : r.asked + r.answered + r.serving.toNat = r.waiting.toNat
  counted : r.asks = r.asked + r.serving.toNat + r.answers

variable {r t : Rendezvous}

theorem Balanced.step (h : r.Balanced) {e : RendezvousStep} (hs : r.step e = some t) :
    t.Balanced := by
  obtain ⟨hturn, hcounted⟩ := h
  cases e with
  | ask =>
    simp only [Rendezvous.step] at hs
    split at hs
    · cases hs
    · rename_i hwaiting
      cases hs
      simp only [hwaiting, Bool.toNat_false] at hturn
      exact ⟨by simp only [Bool.toNat_true]; omega, by simp only; omega⟩
  | take =>
    simp only [Rendezvous.step] at hs
    split at hs
    · cases hs
    · rename_i hfree
      cases hs
      obtain ⟨hserving, hasked⟩ := not_or.mp hfree
      simp only [hserving, Bool.toNat_false] at hturn hcounted
      exact ⟨by simp only [Bool.toNat_true]; omega, by simp only [Bool.toNat_true]; omega⟩
  | answer =>
    simp only [Rendezvous.step] at hs
    split at hs
    · rename_i hserving
      cases hs
      simp only [hserving, Bool.toNat_true] at hturn hcounted
      exact ⟨by simp only [Bool.toNat_false]; omega, by simp only [Bool.toNat_false]; omega⟩
    · cases hs
  | resume =>
    simp only [Rendezvous.step] at hs
    split at hs
    · cases hs
    · rename_i hready
      cases hs
      obtain ⟨hwaiting, hanswered⟩ := not_or.mp hready
      simp only [Bool.not_eq_false] at hwaiting
      simp only [hwaiting, Bool.toNat_true] at hturn
      exact ⟨by simp only [Bool.toNat_false]; omega, hcounted⟩

/-- While one serves the other one waits, and there is no second turn. -/
theorem Balanced.exclusive (h : r.Balanced) (hserving : r.serving = true) :
    r.waiting = true ∧ r.asked = 0 ∧ r.answered = 0 := by
  have hturn := h.turn
  cases hwaiting : r.waiting with
  | false =>
    simp only [hserving, hwaiting, Bool.toNat_true, Bool.toNat_false] at hturn
    omega
  | true =>
    simp only [hserving, hwaiting, Bool.toNat_true] at hturn
    exact ⟨rfl, by omega, by omega⟩

end Rendezvous
