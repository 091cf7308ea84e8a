import Bora.Library.Transition

/-! A system whose steps are steps of another one, or nothing to it. What a step is to the other
system may depend on the state in which it is taken. -/
namespace Simulation

open Transition

variable {S A T B : Type*}

/-- What the actions of a run are to the other system, in order. -/
def labels (M : System S A) (label : S → A → Option B) : S → List A → List B
  | _, [] => []
  | s, a::as =>
    (label s a).toList ++
      match M.step s a with
      | none => []
      | some t => labels M label t as

/-- In related states, every step is followed by the step that it is, if it is one. -/
def Simulates (M : System S A) (N : System T B) (label : S → A → Option B)
    (R : S → T → Prop) : Prop :=
  ∀ s t a s', R s t → M.step s a = some s' →
    match label s a with
    | none => R s' t
    | some b => ∃ t', N.step t b = some t' ∧ R s' t'

variable {M : System S A} {N : System T B} {label : S → A → Option B} {R : S → T → Prop}

theorem Simulates.run (h : Simulates M N label R) {as : List A} {s s' : S} {t : T}
    (hR : R s t) (hs : M.run s as = some s') :
    ∃ t', N.run t (labels M label s as) = some t' ∧ R s' t' := by
  induction as generalizing s t with
  | nil =>
    cases hs
    exact ⟨t, rfl, hR⟩
  | cons a as ih =>
    rw [System.run_cons] at hs
    obtain ⟨u, hu, hs⟩ := Option.bind_eq_some_iff.mp hs
    have hstep := h s t a u hR hu
    rw [labels, hu]
    cases hlabel : label s a with
    | none =>
      rw [hlabel] at hstep
      exact ih hstep hs
    | some b =>
      rw [hlabel] at hstep
      obtain ⟨v, hv, hstep⟩ := hstep
      obtain ⟨t', ht', hR'⟩ := ih hstep hs
      refine ⟨t', ?_, hR'⟩
      rw [Option.toList_some, List.singleton_append, System.run_cons, hv]
      exact ht'

theorem labels_eq_map {f : A → B} {as : List A} {s s' : S} (hs : M.run s as = some s') :
    labels M (fun _ a => some (f a)) s as = as.map f := by
  induction as generalizing s with
  | nil => rfl
  | cons a as ih =>
    rw [System.run_cons] at hs
    obtain ⟨u, hu, hs⟩ := Option.bind_eq_some_iff.mp hs
    rw [labels, hu]
    exact congrArg (f a :: ·) (ih hs)

/-- Where every step is a step of the other system, the same actions lead to related states. -/
theorem run_map {f : A → B} {as : List A} {s s' : S} {t : T}
    (h : ∀ s t a s', R s t → M.step s a = some s' → ∃ t', N.step t (f a) = some t' ∧ R s' t')
    (hR : R s t) (hs : M.run s as = some s') : ∃ t', N.run t (as.map f) = some t' ∧ R s' t' := by
  have hsim : Simulates M N (fun _ a => some (f a)) R := h
  obtain ⟨t', ht', hR'⟩ := hsim.run hR hs
  exact ⟨t', by rw [← labels_eq_map hs]; exact ht', hR'⟩

end Simulation
