import Mathlib.Data.List.Forall2
import Mathlib.Data.List.Nodup
import Mathlib.Algebra.GroupWithZero.Nat

/-! Association lists searched from the front: updating the first match and what
later searches see of it. -/
namespace FirstMatch

variable {α : Type*}

def modify (p : α → Bool) (g : α → α) : List α → List α
  | [] => []
  | x::xs => if p x then g x :: xs else x :: modify p g xs

theorem modify_of_find?_none {p : α → Bool} (g : α → α) {xs : List α}
    (h : xs.find? p = none) : modify p g xs = xs := by
  induction xs with
  | nil => rfl
  | cons x xs ih =>
    rw [List.find?_cons] at h
    cases hp : p x
    · simp only [hp] at h
      simp [modify, hp, ih h]
    · simp [hp] at h

theorem modify_append {p : α → Bool} (g : α → α) {front : List α} {x : α} (back : List α)
    (hfront : ∀ y ∈ front, p y = false) (hx : p x = true) :
    modify p g (front ++ x :: back) = front ++ g x :: back := by
  induction front with
  | nil => simp [modify, hx]
  | cons y front ih =>
    rw [List.forall_mem_cons] at hfront
    simp [modify, hfront.1, ih hfront.2]

theorem modify_congr {p : α → Bool} {g g' : α → α} {xs : List α} {x : α}
    (h : xs.find? p = some x) (hg : g x = g' x) : modify p g xs = modify p g' xs := by
  induction xs with
  | nil => rfl
  | cons y xs ih =>
    cases hp : p y
    · simp only [List.find?_cons, hp] at h
      simp [modify, hp, ih h]
    · simp only [List.find?_cons, hp, Option.some.injEq] at h
      subst y
      simp [modify, hp, hg]

/-- Where the key that is searched for stands at most once, the update is one of all elements
with that key. -/
theorem modify_eq_map {β : Type*} [DecidableEq β] {k : α → β} {b : β} {g : α → α} {xs : List α}
    (hd : (xs.map k).Nodup) :
    modify (fun x => k x = b) g xs = xs.map (fun x => if k x = b then g x else x) := by
  induction xs with
  | nil => rfl
  | cons x xs ih =>
    obtain ⟨hx, hrest⟩ := List.nodup_cons.mp hd
    by_cases hkey : k x = b
    · have hsame : xs.map (fun x => if k x = b then g x else x) = xs := by
        refine (List.map_congr_left fun y hy => if_neg fun hy' => hx ?_).trans (List.map_id xs)
        exact (hkey.trans hy'.symm) ▸ List.mem_map_of_mem hy
      simp [modify, hkey, hsame]
    · simp [modify, hkey, ih hrest]

theorem modify_split {p : α → Bool} (g : α → α) {xs : List α} {x : α}
    (h : xs.find? p = some x) :
    ∃ front back, xs = front ++ x :: back ∧ modify p g xs = front ++ g x :: back := by
  induction xs with
  | nil => cases h
  | cons y xs ih =>
    cases hp : p y
    · simp only [List.find?_cons, hp] at h
      obtain ⟨front, back, hxs, hmod⟩ := ih h
      refine ⟨y :: front, back, by rw [hxs]; rfl, ?_⟩
      simp [modify, hp, hmod]
    · simp only [List.find?_cons, hp, Option.some.injEq] at h
      subst y
      exact ⟨[], xs, rfl, by simp [modify, hp]⟩

theorem mem_modify_key {β : Type*} [DecidableEq β] {k : α → β} {b : β} {g : α → α} {xs : List α}
    {x y : α} (hd : (xs.map k).Nodup) (hx : xs.find? (fun x => k x = b) = some x)
    (hy : y ∈ modify (fun x => k x = b) g xs) : y = g x ∨ y ∈ xs ∧ k y ≠ b := by
  have hkx : k x = b := by simpa using List.find?_some hx
  obtain ⟨front, back, hxs, hmod⟩ := modify_split g hx
  rw [hxs, List.map_append, List.map_cons, List.nodup_middle, ← List.map_append,
    List.nodup_cons, hkx] at hd
  rw [hmod, List.mem_append, List.mem_cons] at hy
  rcases or_left_comm.mp hy with hyx | hrest
  · exact Or.inl hyx
  · have hmem : y ∈ front ++ back := List.mem_append.mpr hrest
    refine Or.inr ⟨?_, fun hk => hd.1 (hk ▸ List.mem_map_of_mem hmem)⟩
    rw [hxs, List.mem_append, List.mem_cons]
    exact or_left_comm.mpr (Or.inr hrest)

/-- Where only the element with that key contributes to a list, the list is its contribution. -/
theorem flatMap_key {β γ : Type*} [DecidableEq β] {k : α → β} {b : β} {f : α → List γ}
    {xs : List α} {x : α} (hd : (xs.map k).Nodup) (hx : xs.find? (fun x => k x = b) = some x)
    (hf : ∀ y ∈ xs, k y ≠ b → f y = []) : xs.flatMap f = f x := by
  induction xs with
  | nil => cases hx
  | cons y xs ih =>
    obtain ⟨hy, hrest⟩ := List.nodup_cons.mp hd
    by_cases hkey : k y = b
    · obtain rfl : y = x := by simpa [hkey] using hx
      have hnil : xs.flatMap f = [] := List.flatMap_eq_nil_iff.mpr (fun z hz =>
        hf z (List.mem_cons_of_mem y hz)
          (fun hz' => hy ((hkey.trans hz'.symm) ▸ List.mem_map_of_mem hz)))
      rw [List.flatMap_cons, hnil, List.append_nil]
    · rw [List.flatMap_cons, hf y List.mem_cons_self hkey, List.nil_append]
      exact ih hrest (by simpa [hkey] using hx) (fun z hz => hf z (List.mem_cons_of_mem y hz))

theorem find?_modify_same {p : α → Bool} {g : α → α} (hg : ∀ x, p x → p (g x))
    (xs : List α) : (modify p g xs).find? p = (xs.find? p).map g := by
  induction xs with
  | nil => rfl
  | cons x xs ih => cases hp : p x <;> simp_all [modify]

theorem find?_modify_other {p q : α → Bool} {g : α → α} {xs : List α}
    (hq : ∀ x ∈ xs, p x → q x = false ∧ q (g x) = false) :
    (modify p g xs).find? q = xs.find? q := by
  induction xs with
  | nil => rfl
  | cons x xs ih =>
    have ih' := ih (fun y hy => hq y (by simp [hy]))
    cases hp : p x
    · simp only [modify, hp, Bool.false_eq_true, if_false, List.find?_cons, ih']
    · have hx := hq x (by simp) hp
      simp [modify, hp, hx]

theorem mem_modify {p : α → Bool} {g : α → α} {xs : List α} {y : α}
    (h : y ∈ modify p g xs) : y ∈ xs ∨ ∃ x, xs.find? p = some x ∧ y = g x := by
  induction xs with
  | nil => simp [modify] at h
  | cons x xs ih =>
    cases hp : p x
    · simp only [modify, hp, Bool.false_eq_true, if_false, List.mem_cons] at h
      rcases h with rfl | h
      · exact Or.inl (by simp)
      · rcases ih h with hy | ⟨z, hz, he⟩
        · exact Or.inl (by simp [hy])
        · exact Or.inr ⟨z, by simp [hp, hz], he⟩
    · simp only [modify, hp, if_true, List.mem_cons] at h
      rcases h with rfl | h
      · exact Or.inr ⟨x, by simp [hp], rfl⟩
      · exact Or.inl (by simp [h])

theorem mem_eraseP_of_ne {p : α → Bool} {xs : List α} {y : α} (hy : y ∈ xs)
    (hne : xs.find? p ≠ some y) : y ∈ xs.eraseP p := by
  induction xs with
  | nil => simp at hy
  | cons x xs ih =>
    cases hp : p x
    · rw [List.eraseP_cons_of_neg (by simp [hp])]
      rcases List.mem_cons.mp hy with rfl | hy
      · exact List.mem_cons_self
      · exact List.mem_cons_of_mem x (ih hy (by simpa [hp] using hne))
    · rw [List.eraseP_cons_of_pos hp]
      rcases List.mem_cons.mp hy with rfl | hy
      · simp [hp] at hne
      · exact hy

theorem map_modify {β : Type*} (k : α → β) {p : α → Bool} {g : α → α}
    (hk : ∀ x, p x = true → k (g x) = k x) (xs : List α) :
    (modify p g xs).map k = xs.map k := by
  induction xs with
  | nil => rfl
  | cons x xs ih =>
    simp only [modify]
    split
    · rename_i hp
      rw [List.map_cons, List.map_cons, hk x hp]
    · rw [List.map_cons, List.map_cons, ih]

theorem sum_modify {p : α → Bool} {g : α → α} (k : α → ℕ) {xs : List α} {x : α}
    (h : xs.find? p = some x) :
    ((modify p g xs).map k).sum + k x = (xs.map k).sum + k (g x) := by
  induction xs with
  | nil => cases h
  | cons y xs ih =>
    cases hp : p y
    · simp only [List.find?_cons, hp] at h
      have hrest := ih h
      simp only [modify, hp, Bool.false_eq_true, if_false, List.map_cons, List.sum_cons]
      omega
    · simp only [List.find?_cons, hp, Option.some.injEq] at h
      subst y
      simp only [modify, hp, if_true, List.map_cons, List.sum_cons]
      omega

section Alike

variable {β : Type*} {R : α → β → Prop} {p : α → Bool} {q : β → Bool} {xs : List α} {ys : List β}

/-- In two lists that match element by element, the two searches come to elements that match. -/
theorem find?_forall₂ (hpq : ∀ x y, R x y → p x = q y) (h : List.Forall₂ R xs ys) :
    Option.Rel R (xs.find? p) (ys.find? q) := by
  induction h with
  | nil => exact .none
  | @cons x y xs ys hxy _ ih =>
    rw [List.find?_cons, List.find?_cons, ← hpq x y hxy]
    cases p x with
    | true => exact .some hxy
    | false => exact ih

theorem eraseP_forall₂ (hpq : ∀ x y, R x y → p x = q y) (h : List.Forall₂ R xs ys) :
    List.Forall₂ R (xs.eraseP p) (ys.eraseP q) := by
  induction h with
  | nil => exact .nil
  | @cons x y xs ys hxy hrest ih =>
    rw [List.eraseP_cons, List.eraseP_cons, ← hpq x y hxy]
    cases p x with
    | true => exact hrest
    | false => exact .cons hxy ih

theorem filter_forall₂ (hpq : ∀ x y, R x y → p x = q y) (h : List.Forall₂ R xs ys) :
    List.Forall₂ R (xs.filter p) (ys.filter q) :=
  List.rel_filter (fun {x y} hxy => by simp only [hpq x y hxy]) h

end Alike

end FirstMatch
