import Bora.Library.Transition
import Mathlib.Logic.Function.Basic

/-! Two runs of one system side by side, with an observer who does not notice some of the actions
and cannot tell some others apart: what there is to see of both is the same, if no single step makes
a difference. -/
namespace Transition

variable {S A : Type*}

/-- A step of the first run, of the second, or of each. -/
inductive Beside (A : Type*)
  | first (a : A)
  | second (a : A)
  | both (a b : A)

def System.beside (M : System S A) : System (S × S) (Beside A) where
  init p := M.init p.1 ∧ M.init p.2
  step p
    | .first a => (M.step p.1 a).map (fun s => (s, p.2))
    | .second b => (M.step p.2 b).map (fun t => (p.1, t))
    | .both a b => (M.step p.1 a).bind (fun s => (M.step p.2 b).map (fun t => (s, t)))

end Transition

namespace Noninterference

open Transition

variable {S A : Type*} {M : System S A} {Inv : S → Prop} {hidden : A → Prop}
  {alike : S → S → A → A → Prop} {View : S → S → Prop}

/-- One run takes a hidden action alone, or both take actions alike in the states they are in. -/
def Unnoticed (hidden : A → Prop) (alike : S → S → A → A → Prop) (p : S × S) : Beside A → Prop
  | .first a => hidden a
  | .second b => hidden b
  | .both a b => alike p.1 p.2 a b

instance [DecidablePred hidden] [∀ s t a b, Decidable (alike s t a b)] (p : S × S) :
    (x : Beside A) → Decidable (Unnoticed hidden alike p x)
  | .first a => inferInstanceAs (Decidable (hidden a))
  | .second b => inferInstanceAs (Decidable (hidden b))
  | .both a b => inferInstanceAs (Decidable (alike p.1 p.2 a b))

/-- What each step must satisfy, in states that satisfy the invariant. -/
structure Unwinding (M : System S A) (Inv : S → Prop) (hidden : A → Prop)
    (alike : S → S → A → A → Prop) (View : S → S → Prop) : Prop where
  start : ∀ s, M.init s → Inv s
  inv : ∀ s a s', Inv s → M.step s a = some s' → Inv s'
  same : ∀ s t, M.init s → M.init t → View s t
  symm : ∀ s t, View s t → View t s
  silent : ∀ s t a s', Inv s → View s t → hidden a → M.step s a = some s' → View s' t
  consistent : ∀ s t a b s' t', Inv s → Inv t → View s t → alike s t a b →
    M.step s a = some s' → M.step t b = some t' → View s' t'

/-- In all runs side by side that take no other steps. -/
theorem Unwinding.view (h : Unwinding M Inv hidden alike View) {p : S × S}
    (hp : Reaches M.beside (Unnoticed hidden alike) p) : View p.1 p.2 := by
  have hboth : Inv p.1 ∧ Inv p.2 ∧ View p.1 p.2 := by
    apply hp.invariant
    · rintro p ⟨hs, ht⟩
      exact ⟨h.start _ hs, h.start _ ht, h.same _ _ hs ht⟩
    · rintro p a q ⟨hs, ht, hview⟩ ha hstep
      cases a with
      | first a =>
        obtain ⟨s, hs', rfl⟩ := Option.map_eq_some_iff.mp hstep
        exact ⟨h.inv _ _ _ hs hs', ht, h.silent _ _ _ _ hs hview ha hs'⟩
      | second b =>
        obtain ⟨t, ht', rfl⟩ := Option.map_eq_some_iff.mp hstep
        exact ⟨hs, h.inv _ _ _ ht ht',
          h.symm _ _ (h.silent _ _ _ _ ht (h.symm _ _ hview) ha ht')⟩
      | both a b =>
        obtain ⟨s, hs', hsecond⟩ := Option.bind_eq_some_iff.mp hstep
        obtain ⟨t, ht', rfl⟩ := Option.map_eq_some_iff.mp hsecond
        exact ⟨h.inv _ _ _ hs hs', h.inv _ _ _ ht ht',
          h.consistent _ _ _ _ _ _ hs ht hview ha hs' ht'⟩
  exact hboth.2.2

end Noninterference
