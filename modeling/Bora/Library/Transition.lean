import Mathlib.Data.Set.Defs

/-! Transition systems given by an executable step function, runs of lists of actions, runs whose
steps all satisfy a side condition, and the induction rule for their invariants. -/
namespace Transition

/-- Initial states and a step function; an action that cannot be taken gives `none`. -/
structure System (S A : Type*) where
  init : S → Prop
  step : S → A → Option S

variable {S A : Type*} {M : System S A} {ok ok' : S → A → Prop}

/-- States reached by runs each of whose steps satisfies `ok` in the state before it. -/
inductive Reaches (M : System S A) (ok : S → A → Prop) : S → Prop
  | init {s : S} (h : M.init s) : Reaches M ok s
  | step {s t : S} {a : A} (hs : Reaches M ok s) (ha : ok s a) (h : M.step s a = some t) :
      Reaches M ok t

abbrev Reachable (M : System S A) : S → Prop := Reaches M (fun _ _ => True)

/-- What holds initially and is kept by every allowed step holds throughout the run. -/
theorem Reaches.invariant {Inv : S → Prop} (h₀ : ∀ s, M.init s → Inv s)
    (hstep : ∀ s a t, Inv s → ok s a → M.step s a = some t → Inv t)
    {s : S} (h : Reaches M ok s) : Inv s := by
  induction h with
  | init h => exact h₀ _ h
  | step _ ha h ih => exact hstep _ _ _ ih ha h

def System.run (M : System S A) (s : S) (as : List A) : Option S := as.foldlM M.step s

@[simp] theorem System.run_nil (s : S) : M.run s [] = some s := rfl

theorem System.run_cons (s : S) (a : A) (as : List A) :
    M.run s (a :: as) = (M.step s a).bind (fun t => M.run t as) := List.foldlM_cons

theorem Reaches.run {s t : S} (h : Reachable M s) {as : List A} (hrun : M.run s as = some t) :
    Reachable M t := by
  induction as generalizing s with
  | nil =>
    cases hrun
    exact h
  | cons a as ih =>
    rw [System.run_cons] at hrun
    obtain ⟨u, hu, hrun⟩ := Option.bind_eq_some_iff.mp hrun
    exact ih (h.step trivial hu) hrun

/-- Execute a list of actions, each of which must satisfy `ok` where it is taken. -/
def System.runIf (M : System S A) (ok : S → A → Prop) [∀ s a, Decidable (ok s a)] :
    S → List A → Option S
  | s, [] => some s
  | s, a::as => if ok s a then (M.step s a).bind (fun t => M.runIf ok t as) else none

theorem Reaches.runIf [∀ s a, Decidable (ok s a)] {s t : S} (hs : Reaches M ok s) {as : List A}
    (h : M.runIf ok s as = some t) : Reaches M ok t := by
  induction as generalizing s with
  | nil =>
    obtain rfl : s = t := by simpa [System.runIf] using h
    exact hs
  | cons a as ih =>
    simp only [System.runIf] at h
    split at h
    · rename_i ha
      obtain ⟨u, hu, ht⟩ := Option.bind_eq_some_iff.mp h
      exact ih (hs.step ha hu) ht
    · cases h

end Transition
