import Mathlib.Data.List.Forall2

/-! Computations that may stop at a fault, as `Except` values: inversion of a
sequence of steps and of a loop that collects results, and the comparison with a
computation that stops at the same places without naming its faults. -/
namespace Checked

variable {ε : Type*} {α β : Type}

theorem bind_eq_ok {x : Except ε α} {f : α → Except ε β} {r : β} :
    x >>= f = .ok r ↔ ∃ a, x = .ok a ∧ f a = .ok r := by
  cases x with
  | error e =>
    constructor
    · intro h; cases h
    · rintro ⟨a, ha, _⟩; cases ha
  | ok a =>
    constructor
    · intro h; exact ⟨a, rfl, h⟩
    · rintro ⟨b, hb, h⟩; cases hb; exact h

@[simp] theorem ok_bind (a : α) (f : α → Except ε β) : (Except.ok a >>= f) = f a := rfl
@[simp] theorem error_bind (e : ε) (f : α → Except ε β) :
    ((Except.error e : Except ε α) >>= f) = .error e := rfl
@[simp] theorem pure_eq_ok (a : α) : (pure a : Except ε α) = .ok a := rfl

theorem map_eq_ok {f : α → β} {x : Except ε α} {r : β} :
    x.map f = .ok r ↔ ∃ a, x = .ok a ∧ f a = r := by
  cases x <;> simp [Except.map]

theorem exists_mapM_ok {f : α → Except ε β} {xs : List α} (h : ∀ x ∈ xs, ∃ y, f x = .ok y) :
    ∃ ys, xs.mapM f = .ok ys := by
  induction xs with
  | nil => exact ⟨[], rfl⟩
  | cons x xs ih =>
    obtain ⟨y, hy⟩ := h x (by simp)
    obtain ⟨ys, hys⟩ := ih (fun z hz => h z (by simp [hz]))
    refine ⟨y :: ys, ?_⟩
    rw [List.mapM_cons, hy, ok_bind, hys]
    rfl

theorem mapM_congr {f g : α → Except ε β} {xs : List α} (h : ∀ x ∈ xs, f x = g x) :
    xs.mapM f = xs.mapM g := by
  induction xs with
  | nil => rfl
  | cons x xs ih =>
    rw [List.mapM_cons, List.mapM_cons, h x (by simp), ih (fun z hz => h z (by simp [hz]))]

/-- The results stand at the positions of the iterations that gave them. -/
theorem mapM_ok_iff {f : α → Except ε β} {xs : List α} {ys : List β} :
    xs.mapM f = .ok ys ↔ List.Forall₂ (fun x y => f x = .ok y) xs ys := by
  induction xs generalizing ys with
  | nil =>
    rw [List.forall₂_nil_left_iff]
    constructor
    · intro h; cases h; rfl
    · rintro rfl; rfl
  | cons x xs ih =>
    rw [List.mapM_cons]
    constructor
    · intro h
      obtain ⟨z, hz, h⟩ := bind_eq_ok.mp h
      obtain ⟨zs, hzs, h⟩ := bind_eq_ok.mp h
      cases h
      exact .cons hz (ih.mp hzs)
    · rintro (_ | ⟨hz, hzs⟩)
      rw [hz, ok_bind, ih.mpr hzs]
      rfl

theorem mapM_ok_length {f : α → Except ε β} {xs : List α} {ys : List β}
    (h : xs.mapM f = .ok ys) : ys.length = xs.length := (mapM_ok_iff.mp h).length_eq.symm

theorem mapM_ok_getElem? {f : α → Except ε β} {xs : List α} {ys : List β}
    (h : xs.mapM f = .ok ys) {i : ℕ} {x : α} (hx : xs[i]? = some x) :
    ∃ y, ys[i]? = some y ∧ f x = .ok y := by
  have hl := mapM_ok_length h
  obtain ⟨hi, rfl⟩ := List.getElem?_eq_some_iff.mp hx
  have hy : i < ys.length := by omega
  exact ⟨ys[i], List.getElem?_eq_getElem hy, (List.forall₂_iff_get.mp (mapM_ok_iff.mp h)).2 i hi hy⟩

theorem forall₂_mem_left {R : α → β → Prop} {xs : List α} {ys : List β}
    (h : List.Forall₂ R xs ys) {x : α} (hx : x ∈ xs) : ∃ y ∈ ys, R x y := by
  induction h with
  | nil => simp at hx
  | @cons a b as bs hab _ ih =>
    rcases List.mem_cons.mp hx with rfl | hx
    · exact ⟨b, by simp, hab⟩
    · obtain ⟨y, hy, hr⟩ := ih hx
      exact ⟨y, by simp [hy], hr⟩

theorem mem_of_mapM_ok {f : α → Except ε β} {xs : List α} {ys : List β}
    (h : xs.mapM f = .ok ys) {y : β} (hy : y ∈ ys) : ∃ x ∈ xs, f x = .ok y :=
  forall₂_mem_left (mapM_ok_iff.mp h).flip hy

/-- Both stop, or both go on, with values in `R`. -/
def Agrees (R : α → β → Prop) : Option α → Except ε β → Prop
  | some x, .ok y => R x y
  | none, .error _ => True
  | some _, .error _ => False
  | none, .ok _ => False

namespace Agrees

variable {γ δ : Type} {R Q : α → β → Prop} {S : γ → δ → Prop} {x : Option α} {y : Except ε β}

theorem mono (h : Agrees R x y) (hR : ∀ a b, x = some a → y = .ok b → R a b → Q a b) :
    Agrees Q x y := by
  cases x <;> cases y
  · trivial
  · exact h
  · exact h
  · exact hR _ _ rfl rfl h

theorem bind (h : Agrees R x y) {f : α → Option γ} {g : β → Except ε δ}
    (hfg : ∀ a b, R a b → Agrees S (f a) (g b)) : Agrees S (x >>= f) (y >>= g) := by
  cases x <;> cases y
  · trivial
  · exact h.elim
  · exact h.elim
  · exact hfg _ _ h

/-- A step that one of the two does without. -/
theorem bind_some {a : α} (hx : x = some a) {f : α → Option γ} {z : Except ε δ}
    (h : Agrees S (f a) z) : Agrees S (x >>= f) z := by
  rw [hx]
  exact h

theorem of_ok {b : β} (h : Agrees R x (.ok b : Except ε β)) : ∃ a, x = some a ∧ R a b := by
  cases x with
  | none => exact h.elim
  | some a => exact ⟨a, rfl, h⟩

theorem of_error {e : ε} (h : Agrees R x (.error e)) : x = none := by
  cases x with
  | none => rfl
  | some a => exact h.elim

theorem toOption (y : Except ε β) : Agrees Eq y.toOption y := by
  cases y with
  | error e => trivial
  | ok b => rfl

theorem mapM {τ : Type} {f : τ → Option α} {g : τ → Except ε α} {ts : List τ}
    (h : ∀ t ∈ ts, Agrees Eq (f t) (g t)) : Agrees Eq (ts.mapM f) (ts.mapM g) := by
  induction ts with
  | nil => rfl
  | cons t ts ih =>
    rw [List.forall_mem_cons] at h
    rw [List.mapM_cons, List.mapM_cons]
    refine h.1.bind ?_
    rintro a _ rfl
    refine (ih h.2).bind ?_
    rintro as _ rfl
    rfl

end Agrees

end Checked
