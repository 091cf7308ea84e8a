import Bora.Library.LinkedList

/-! A linked list whose nodes hold the heads of further linked lists: how a loop over the outer
list and a change of one of the inner ones act on the two memories. -/
namespace NestedLists

open LinkedList

variable {α β γ σ : Type}

/-- A node of the outer list, with its value and the cells of its inner list. -/
structure Branch (β α : Type) where
  node : ℕ
  val : β
  items : List (ℕ × α)

/-- `mk` makes what stands in a node, of the value and the head of the inner list. -/
def Branch.cell (mk : β → Link → γ) (k : Branch β α) : ℕ × γ := (k.node, mk k.val (link k.items))

/-- The nodes and the cells of the inner lists, and those in `loose`, are all that is
allocated. -/
structure Layout (mk : β → Link → γ) (outer : Memory γ) (inner : Memory α) (head : Link)
    (ks : List (Branch β α)) (loose : List (ℕ × α)) : Prop where
  head : head = link (ks.map (Branch.cell mk))
  outer : Holds outer [ks.map (Branch.cell mk)] []
  inner : Holds inner (ks.map Branch.items) loose

namespace Layout

variable {mk : β → Link → γ} {outer : Memory γ} {inner inner' : Memory α} {head : Link}
  {ks ls : List (Branch β α)} {k : Branch β α} {loose loose' : List (ℕ × α)}

theorem empty (mk : β → Link → γ) :
    Layout mk Memory.empty (Memory.empty : Memory α) none [] [] :=
  ⟨rfl, Holds.empty.nil_cons, Holds.empty⟩

theorem find_eq (hl : Layout mk outer inner head ks loose) {p : γ → Bool} {q : β → Bool}
    (hpq : ∀ b l, p (mk b l) = q b) :
    find outer p head = some ((ks.find? (fun k => q k.val)).map Branch.node) := by
  rw [hl.head, hl.outer.find_eq List.mem_cons_self, List.find?_map, Option.map_map]
  have hsame : ((fun x : ℕ × γ => p x.2) ∘ Branch.cell mk) =
      fun k : Branch β α => q k.val := funext fun k => hpq k.val (link k.items)
  rw [hsame]
  rfl

theorem focus (hl : Layout mk outer inner head (ks ++ k :: ls) loose) :
    Holds inner (k.items :: (ks ++ ls).map Branch.items) loose := by
  refine hl.inner.perm ?_ (List.Perm.refl _)
  rw [List.map_append, List.map_append, List.map_cons]
  exact List.perm_middle

theorem read_node (hl : Layout mk outer inner head (ks ++ k :: ls) loose) :
    outer.read k.node = some ⟨mk k.val (link k.items), link (ls.map (Branch.cell mk))⟩ := by
  have hchain := hl.outer.chains _ List.mem_cons_self
  rw [List.map_append, List.map_cons] at hchain
  exact hchain.read

theorem read_mem (hl : Layout mk outer inner head ks loose) (hk : k ∈ ks) :
    ∃ l, outer.read k.node = some ⟨mk k.val (link k.items), l⟩ := by
  obtain ⟨front, back, rfl⟩ := List.append_of_mem hk
  exact ⟨_, hl.read_node⟩

theorem setBranch (hl : Layout mk outer inner head (ks ++ k :: ls) loose) (v : β)
    {xs : List (ℕ × α)} (hinner : Holds inner' (xs :: (ks ++ ls).map Branch.items) loose') :
    ∃ outer', outer.setVal k.node (mk v (link xs)) = some outer' ∧
      Layout mk outer' inner' head (ks ++ ⟨k.node, v, xs⟩ :: ls) loose' := by
  have houter := hl.outer
  rw [List.map_append, List.map_cons] at houter
  obtain ⟨outer', hset, hnew⟩ := houter.setVal_eq (mk v (link xs))
  refine ⟨outer', hset, ?_, ?_, ?_⟩
  · rw [List.map_append, List.map_cons]
    refine hl.head.trans ?_
    rw [List.map_append, List.map_cons]
    exact link_append_cons _ _ _ rfl
  · rw [List.map_append, List.map_cons]
    exact hnew
  · refine hinner.perm ?_ (List.Perm.refl _)
    rw [List.map_append, List.map_append, List.map_cons]
    exact List.perm_middle.symm

theorem insertBranch (hl : Layout mk outer inner head ks loose) {a : ℕ}
    (ha : outer.read a = none) (v : β) {xs : List (ℕ × α)}
    (hinner : Holds inner' (xs :: ks.map Branch.items) loose') :
    Layout mk (outer.put a (some ⟨mk v (link xs), head⟩)) inner' (some a) (⟨a, v, xs⟩ :: ks)
      loose' := by
  have hnew := hl.outer.insertHead ha (mk v (link xs))
  rw [← hl.head] at hnew
  exact ⟨rfl, hnew, hinner⟩

/-- A loop over the outer list whose body keeps `P`, which speaks of the nodes behind and of
those to come. -/
theorem foreach_rule (mem : σ → Memory γ) {body : σ → ℕ → Option σ} {s : σ}
    (hl : Layout mk (mem s) inner head ks loose)
    (P : List (Branch β α) → List (Branch β α) → σ → Prop)
    (hbody : ∀ front k back s, ks = front ++ k :: back → P front (k :: back) s →
      ∃ t v, body s k.node = some t ∧
        (mem t).read k.node = some ⟨v, link (back.map (Branch.cell mk))⟩ ∧ P (front ++ [k]) back t)
    (h : P [] ks s) : ∃ t, foreach mem body s head = some t ∧ P ks [] t := by
  obtain ⟨t, ht, front, back, hks, hback, hP⟩ := Holds.foreach_rule mem hl.outer
    List.mem_cons_self
    (fun zs s => ∃ front back, ks = front ++ back ∧ zs = back.map (Branch.cell mk) ∧
      P front back s)
    (by
      rintro x zs s ⟨front, back, hks, hzs, hP⟩
      obtain ⟨k, back, rfl, rfl, rfl⟩ := List.map_eq_cons_iff.mp hzs.symm
      obtain ⟨t, v, ht, hread, hnext⟩ := hbody front k back s hks hP
      refine ⟨t, v, ht, hread, front ++ [k], back, ?_, rfl, hnext⟩
      rw [hks, List.append_assoc, List.singleton_append])
    ⟨[], ks, rfl, rfl, h⟩
  obtain rfl : back = [] := List.map_eq_nil_iff.mp hback.symm
  rw [List.append_nil] at hks
  subst front
  rw [hl.head]
  exact ⟨t, ht, hP⟩

theorem allocated (hl : Layout mk outer inner head ks loose) :
    inner.allocated = (ks.map (fun k => k.items.length)).sum + loose.length ∧
      outer.allocated = ks.length := by
  refine ⟨?_, ?_⟩
  · rw [hl.inner.allocated_eq, List.length_append, List.length_flatten, List.map_map]
    rfl
  · rw [hl.outer.allocated_eq]
    simp

end Layout

theorem split_of_find {ks : List (Branch β α)} {k : Branch β α} {q : β → Bool}
    (hk : ks.find? (fun k => q k.val) = some k) :
    q k.val = true ∧ ∃ front back, ks = front ++ k :: back ∧ ∀ y ∈ front, q y.val = false := by
  obtain ⟨hq, front, back, hks, hfront⟩ := List.find?_eq_some_iff_append.mp hk
  exact ⟨hq, front, back, hks, fun y hy => by simpa using hfront y hy⟩

end NestedLists
