import Mathlib.Algebra.GroupWithZero.Nat
import Mathlib.Data.List.Nodup
import Mathlib.Data.List.Perm.Basic

/-! Singly linked lists in a memory whose cells are allocated and freed: the loops over them,
which stop where they follow a link to no cell, and what they do to a memory that holds several
lists. -/
namespace LinkedList

variable {α β σ : Type}

abbrev Link := Option ℕ

structure Cell (α : Type) where
  val : α
  next : Link

/-- What stands at each address; a cell that is freed is gone. -/
structure Memory (α : Type) where
  cells : List (Option (Cell α))

namespace Memory

def empty : Memory α := ⟨[]⟩

def size (m : Memory α) : ℕ := m.cells.length

def read (m : Memory α) (a : ℕ) : Option (Cell α) := m.cells[a]?.join

/-- Change what stands at an address, which may lie behind the ones used so far. -/
def put (m : Memory α) (a : ℕ) (c : Option (Cell α)) : Memory α :=
  ⟨(m.cells ++ List.replicate (a + 1 - m.cells.length) none).set a c⟩

def write (m : Memory α) (a : ℕ) (c : Cell α) : Option (Memory α) :=
  (m.read a).map (fun _ => m.put a (some c))

def setVal (m : Memory α) (a : ℕ) (v : α) : Option (Memory α) := do
  let c ← m.read a
  m.write a ⟨v, c.next⟩

/-- A cell is freed once. -/
def free (m : Memory α) (a : ℕ) : Option (Memory α) :=
  (m.read a).map (fun _ => m.put a none)

def allocated (m : Memory α) : ℕ :=
  ((List.range m.size).filter (fun a => (m.read a).isSome)).length

@[simp] theorem read_empty (a : ℕ) : (empty : Memory α).read a = none := rfl

theorem read_put (m : Memory α) (a b : ℕ) (c : Option (Cell α)) :
    (m.put a c).read b = if b = a then c else m.read b := by
  have hlen : a < (m.cells ++ List.replicate (a + 1 - m.cells.length) none).length := by
    rw [List.length_append, List.length_replicate]
    omega
  unfold read put
  rw [List.getElem?_set]
  by_cases hab : b = a
  · subst b
    rw [if_pos rfl, if_pos hlen, if_pos rfl]
    rfl
  · rw [if_neg (Ne.symm hab), if_neg hab]
    by_cases hb : b < m.cells.length
    · rw [List.getElem?_append_left hb]
    · rw [List.getElem?_append_right (by omega), List.getElem?_eq_none (by omega : _ ≤ b),
        List.getElem?_replicate]
      split <;> rfl

@[simp] theorem read_put_same (m : Memory α) (a : ℕ) (c : Option (Cell α)) :
    (m.put a c).read a = c := by
  rw [read_put, if_pos rfl]

theorem read_put_ne (m : Memory α) {a b : ℕ} (c : Option (Cell α)) (h : b ≠ a) :
    (m.put a c).read b = m.read b := by
  rw [read_put, if_neg h]

theorem put_put (m : Memory α) (a : ℕ) (c d : Option (Cell α)) :
    (m.put a c).put a d = m.put a d := by
  have hlen : a + 1 - (m.put a c).cells.length = 0 := by
    simp only [put, List.length_set, List.length_append, List.length_replicate]
    omega
  simp only [put] at hlen ⊢
  rw [hlen, List.replicate_zero, List.append_nil, List.set_set]

theorem write_eq {m : Memory α} {a : ℕ} (h : m.read a ≠ none) (d : Cell α) :
    m.write a d = some (m.put a (some d)) := by
  obtain ⟨c, hc⟩ := Option.ne_none_iff_exists'.mp h
  rw [write, hc]
  rfl

theorem free_eq {m : Memory α} {a : ℕ} (h : m.read a ≠ none) :
    m.free a = some (m.put a none) := by
  obtain ⟨c, hc⟩ := Option.ne_none_iff_exists'.mp h
  rw [free, hc]
  rfl

theorem lt_size_of_read {m : Memory α} {a : ℕ} (h : m.read a ≠ none) : a < m.size := by
  by_contra hn
  exact h (by rw [read, List.getElem?_eq_none (Nat.le_of_not_lt hn)]; rfl)

end Memory

open Memory

/-- `FOREACH` that breaks at the first cell with `p`. -/
def findFrom (m : Memory α) (p : α → Bool) : ℕ → Link → Option Link
  | _, none => some none
  | 0, some _ => none
  | steps+1, some a => do
    let c ← m.read a
    if p c.val then some (some a) else findFrom m p steps c.next

def find (m : Memory α) (p : α → Bool) (head : Link) : Option Link :=
  findFrom m p m.size head

def foldFrom (m : Memory α) (f : β → α → Option β) : ℕ → β → Link → Option β
  | _, b, none => some b
  | 0, _, some _ => none
  | steps+1, b, some a => do
    let c ← m.read a
    let b ← f b c.val
    foldFrom m f steps b c.next

def fold (m : Memory α) (f : β → α → Option β) (b : β) (head : Link) : Option β :=
  foldFrom m f m.size b head

/-- `FOREACH`, which reads the link behind the body; the memory is a part of the state. -/
def foreachFrom (mem : σ → Memory α) (body : σ → ℕ → Option σ) : ℕ → σ → Link → Option σ
  | _, s, none => some s
  | 0, _, some _ => none
  | steps+1, s, some a => do
    let s ← body s a
    let c ← (mem s).read a
    foreachFrom mem body steps s c.next

def foreach (mem : σ → Memory α) (body : σ → ℕ → Option σ) (s : σ) (head : Link) : Option σ :=
  foreachFrom mem body (mem s).size s head

/-- `FOREACH_SAFE`, which reads the link before the body. -/
def foreachSafeFrom (mem : σ → Memory α) (body : σ → ℕ → Option σ) : ℕ → σ → Link → Option σ
  | _, s, none => some s
  | 0, _, some _ => none
  | steps+1, s, some a => do
    let c ← (mem s).read a
    let s ← body s a
    foreachSafeFrom mem body steps s c.next

def foreachSafe (mem : σ → Memory α) (body : σ → ℕ → Option σ) (s : σ) (head : Link) :
    Option σ :=
  foreachSafeFrom mem body (mem s).size s head

/-- The `while` loop of `REMOVE`, for the cell whose link is `elm`. -/
def predecessorFrom (m : Memory α) (elm : ℕ) : ℕ → Link → Option ℕ
  | _, none => none
  | 0, some _ => none
  | steps+1, some a => do
    let c ← m.read a
    if c.next = some elm then some a else predecessorFrom m elm steps c.next

/-- `REMOVE`, with the head it leaves; the cell is not freed. -/
def remove (m : Memory α) (head : Link) (elm : ℕ) : Option (Memory α × Link) :=
  if head = some elm then do
    let c ← m.read elm
    some (m, c.next)
  else do
    let a ← predecessorFrom m elm m.size head
    let c ← m.read a
    let d ← m.read elm
    let m ← m.write a ⟨c.val, d.next⟩
    some (m, head)

/-- What a loop that takes cells out of a list works on; `ret` counts them. -/
structure Sweep (σ α : Type) where
  st : σ
  mem : Memory α
  head : Link
  ret : ℕ

/-- Change a selected cell, act on it and take it out of the list; all but `held` are freed. -/
def sweepBody (sel : α → Bool) (upd : α → α) (act : σ → α → σ) (held : Link) (s : Sweep σ α)
    (cur : ℕ) : Option (Sweep σ α) := do
  let c ← s.mem.read cur
  if sel c.val then
    let mem ← s.mem.setVal cur (upd c.val)
    let st := act s.st (upd c.val)
    let (mem, head) ← remove mem s.head cur
    let mem ← if held = some cur then some mem else mem.free cur
    some ⟨st, mem, head, s.ret + 1⟩
  else some s

def sweep (sel : α → Bool) (upd : α → α) (act : σ → α → σ) (held : Link) (st : σ)
    (mem : Memory α) (head : Link) : Option (Sweep σ α) :=
  foreachSafe Sweep.mem (sweepBody sel upd act held) ⟨st, mem, head, 0⟩ head

theorem foldlM_add {γ : Type} {xs : List γ} {f : ℕ → γ → Option ℕ} {k : γ → ℕ}
    (h : ∀ x ∈ xs, ∀ n, f n x = some (n + k x)) (n : ℕ) :
    xs.foldlM f n = some (n + (xs.map k).sum) := by
  induction xs generalizing n with
  | nil => rfl
  | cons x xs ih =>
    rw [List.forall_mem_cons] at h
    rw [List.foldlM_cons, h.1, Option.bind_eq_bind, Option.bind_some, ih h.2, List.map_cons,
      List.sum_cons, Nat.add_assoc]

theorem foldl_collect {γ δ : Type} (f : γ → δ) (xs : List γ) (ys : List δ) :
    xs.foldl (fun ys x => ys ++ [f x]) ys = ys ++ xs.map f := by
  induction xs generalizing ys with
  | nil => simp
  | cons x xs ih => rw [List.foldl_cons, ih, List.append_assoc, List.map_cons]; rfl

def link (xs : List (ℕ × α)) : Link := xs.head?.map Prod.fst

@[simp] theorem link_nil : link ([] : List (ℕ × α)) = none := rfl
@[simp] theorem link_cons (x : ℕ × α) (xs : List (ℕ × α)) : link (x :: xs) = some x.1 := rfl

theorem link_append_cons (xs ys zs : List (ℕ × α)) {x y : ℕ × α} (h : x.1 = y.1) :
    link (xs ++ x :: ys) = link (xs ++ y :: zs) := by
  cases xs with
  | nil => simp [h]
  | cons _ _ => rfl

/-- The cells of `xs` are linked one behind the other, the last one to nothing. -/
def Chain (m : Memory α) : List (ℕ × α) → Prop
  | [] => True
  | x::xs => m.read x.1 = some ⟨x.2, link xs⟩ ∧ Chain m xs

variable {m m' : Memory α} {xs ys zs : List (ℕ × α)} {x y : ℕ × α}

@[simp] theorem chain_nil (m : Memory α) : Chain m [] := trivial
@[simp] theorem chain_cons :
    Chain m (x :: xs) ↔ m.read x.1 = some ⟨x.2, link xs⟩ ∧ Chain m xs := Iff.rfl

theorem Chain.congr (h : Chain m xs) (hm : ∀ x ∈ xs, m'.read x.1 = m.read x.1) :
    Chain m' xs := by
  induction xs with
  | nil => trivial
  | cons x xs ih =>
    obtain ⟨hx, hxs⟩ := h
    exact ⟨(hm x List.mem_cons_self).trans hx,
      ih hxs (fun y hy => hm y (List.mem_cons_of_mem x hy))⟩

theorem Chain.tail (h : Chain m (ys ++ zs)) : Chain m zs := by
  induction ys with
  | nil => exact h
  | cons y ys ih => exact ih h.2

theorem Chain.read (h : Chain m (ys ++ x :: zs)) : m.read x.1 = some ⟨x.2, link zs⟩ :=
  h.tail.1

theorem Chain.read_mem (h : Chain m xs) (hx : x ∈ xs) : ∃ l, m.read x.1 = some ⟨x.2, l⟩ := by
  obtain ⟨ys, zs, rfl⟩ := List.append_of_mem hx
  exact ⟨link zs, h.read⟩

/-- What stands behind the first cells may be replaced where its address stays. -/
theorem Chain.splice (h : Chain m (ys ++ y :: xs)) (hrest : Chain m' (x :: zs)) (hxy : x.1 = y.1)
    (hys : ∀ z ∈ ys, m'.read z.1 = m.read z.1) : Chain m' (ys ++ x :: zs) := by
  induction ys with
  | nil => exact hrest
  | cons w ys ih =>
    rw [List.cons_append, chain_cons] at h ⊢
    refine ⟨?_, ih h.2 (fun z hz => hys z (List.mem_cons_of_mem w hz))⟩
    rw [hys w List.mem_cons_self, link_append_cons ys zs xs hxy]
    exact h.1

theorem findFrom_eq (h : Chain m xs) (p : α → Bool) {steps : ℕ} (hs : xs.length ≤ steps) :
    findFrom m p steps (link xs) = some ((xs.find? (fun x => p x.2)).map Prod.fst) := by
  induction xs generalizing steps with
  | nil => cases steps <;> rfl
  | cons x xs ih =>
    obtain ⟨hx, hxs⟩ := h
    obtain ⟨steps, rfl⟩ := Nat.exists_eq_add_of_lt (Nat.lt_of_lt_of_le (Nat.succ_pos _) hs)
    simp only [Nat.zero_add] at hs ⊢
    rw [link_cons, findFrom, hx, Option.bind_eq_bind, Option.bind_some]
    cases hp : p x.2 with
    | true => simp [hp]
    | false =>
      simpa [hp] using ih hxs (Nat.le_of_succ_le_succ hs)

theorem foldFrom_eq (h : Chain m xs) (f : β → α → Option β) (b : β) {steps : ℕ}
    (hs : xs.length ≤ steps) :
    foldFrom m f steps b (link xs) = xs.foldlM (fun b x => f b x.2) b := by
  induction xs generalizing b steps with
  | nil => cases steps <;> rfl
  | cons x xs ih =>
    obtain ⟨hx, hxs⟩ := h
    obtain ⟨steps, rfl⟩ : ∃ n, steps = n + 1 := ⟨steps - 1, by simp at hs; omega⟩
    rw [link_cons, foldFrom, hx, Option.bind_eq_bind, Option.bind_some, List.foldlM_cons]
    exact congrArg _ (funext fun b => ih hxs b (Nat.le_of_succ_le_succ hs))

theorem predecessorFrom_eq (h : Chain m (ys ++ y :: x :: zs))
    (hone : x.1 ∉ (ys ++ [y]).map Prod.fst) {steps : ℕ} (hs : ys.length < steps) :
    predecessorFrom m x.1 steps (link (ys ++ y :: x :: zs)) = some y.1 := by
  induction ys generalizing steps with
  | nil =>
    obtain ⟨steps, rfl⟩ := Nat.exists_eq_add_of_lt hs
    have hy : m.read y.1 = some ⟨y.2, some x.1⟩ := h.1
    simp [predecessorFrom, hy]
  | cons z ys ih =>
    rw [List.cons_append, chain_cons] at h
    obtain ⟨hz, hrest⟩ := h
    obtain ⟨steps, rfl⟩ : ∃ n, steps = n + 1 := ⟨steps - 1, by omega⟩
    simp only [List.cons_append, List.map_cons, List.mem_cons, not_or] at hone
    have hne : link (ys ++ y :: x :: zs) ≠ some x.1 := by
      intro hl
      refine hone.2 ?_
      cases ys with
      | nil => simpa [eq_comm] using hl
      | cons w ws => simp_all
    simp only [List.length_cons] at hs
    rw [List.cons_append, link_cons, predecessorFrom, hz, Option.bind_eq_bind, Option.bind_some,
      if_neg hne]
    exact ih hrest hone.2 (by omega)

/-- A loop whose body keeps `P`, which speaks of the cells that are still to come, ends with
`P` of none. -/
theorem foreachFrom_rule {mem : σ → Memory α} {body : σ → ℕ → Option σ}
    (P : List (ℕ × α) → σ → Prop)
    (hbody : ∀ x xs s, P (x :: xs) s → ∃ t v, body s x.1 = some t ∧
      (mem t).read x.1 = some ⟨v, link xs⟩ ∧ P xs t)
    {xs : List (ℕ × α)} {s : σ} (h : P xs s) {steps : ℕ} (hs : xs.length ≤ steps) :
    ∃ t, foreachFrom mem body steps s (link xs) = some t ∧ P [] t := by
  induction xs generalizing s steps with
  | nil => exact ⟨s, by cases steps <;> rfl, h⟩
  | cons x xs ih =>
    obtain ⟨t, v, hb, hr, hP⟩ := hbody x xs s h
    obtain ⟨steps, rfl⟩ : ∃ n, steps = n + 1 := ⟨steps - 1, by simp at hs; omega⟩
    obtain ⟨u, hu, hend⟩ := ih hP (Nat.le_of_succ_le_succ hs)
    refine ⟨u, ?_, hend⟩
    rw [link_cons, foreachFrom, hb, Option.bind_eq_bind, Option.bind_some, hr,
      Option.bind_eq_bind, Option.bind_some]
    exact hu

theorem foreachSafeFrom_rule {mem : σ → Memory α} {body : σ → ℕ → Option σ}
    (P : List (ℕ × α) → σ → Prop)
    (hbody : ∀ x xs s, P (x :: xs) s → (∃ v, (mem s).read x.1 = some ⟨v, link xs⟩) ∧
      ∃ t, body s x.1 = some t ∧ P xs t)
    {xs : List (ℕ × α)} {s : σ} (h : P xs s) {steps : ℕ} (hs : xs.length ≤ steps) :
    ∃ t, foreachSafeFrom mem body steps s (link xs) = some t ∧ P [] t := by
  induction xs generalizing s steps with
  | nil => exact ⟨s, by cases steps <;> rfl, h⟩
  | cons x xs ih =>
    obtain ⟨⟨v, hr⟩, t, hb, hP⟩ := hbody x xs s h
    obtain ⟨steps, rfl⟩ : ∃ n, steps = n + 1 := ⟨steps - 1, by simp at hs; omega⟩
    obtain ⟨u, hu, hend⟩ := ih hP (Nat.le_of_succ_le_succ hs)
    refine ⟨u, ?_, hend⟩
    rw [link_cons, foreachSafeFrom, hr, Option.bind_eq_bind, Option.bind_some, hb,
      Option.bind_eq_bind, Option.bind_some]
    exact hu

/-- The cells of `m` are those of the lists and, besides, the `loose` ones, each in one place. -/
structure Holds (m : Memory α) (lists : List (List (ℕ × α))) (loose : List (ℕ × α)) : Prop where
  chains : ∀ xs ∈ lists, Chain m xs
  apart : ∀ x ∈ loose, ∃ l, m.read x.1 = some ⟨x.2, l⟩
  once : ((lists.flatten ++ loose).map Prod.fst).Nodup
  all : ∀ a, m.read a ≠ none → a ∈ (lists.flatten ++ loose).map Prod.fst

namespace Holds

variable {lists lists' : List (List (ℕ × α))} {loose loose' : List (ℕ × α)}

theorem empty : Holds (Memory.empty : Memory α) [] [] where
  chains := by simp
  apart := by simp
  once := by simp
  all := by simp

theorem perm (h : Holds m lists loose) (hlists : lists.Perm lists') (hloose : loose.Perm loose') :
    Holds m lists' loose' where
  chains xs hxs := h.chains xs (hlists.mem_iff.mpr hxs)
  apart x hx := h.apart x (hloose.mem_iff.mpr hx)
  once := (((hlists.flatten.append hloose).map Prod.fst).nodup_iff).mp h.once
  all a ha := (((hlists.flatten.append hloose).map Prod.fst).mem_iff).mp (h.all a ha)

theorem nil_cons (h : Holds m lists loose) : Holds m ([] :: lists) loose where
  chains := List.forall_mem_cons.mpr ⟨trivial, h.chains⟩
  apart := h.apart
  once := h.once
  all := h.all

theorem read_ne_none (h : Holds m lists loose) {a : ℕ}
    (ha : a ∈ (lists.flatten ++ loose).map Prod.fst) : m.read a ≠ none := by
  obtain ⟨x, hx, rfl⟩ := List.mem_map.mp ha
  rcases List.mem_append.mp hx with hx | hx
  · obtain ⟨xs, hxs, hx⟩ := List.mem_flatten.mp hx
    obtain ⟨l, hl⟩ := (h.chains xs hxs).read_mem hx
    simp [hl]
  · obtain ⟨l, hl⟩ := h.apart x hx
    simp [hl]

theorem read_iff (h : Holds m lists loose) {a : ℕ} :
    m.read a ≠ none ↔ a ∈ (lists.flatten ++ loose).map Prod.fst :=
  ⟨h.all a, h.read_ne_none⟩

theorem allocated_eq (h : Holds m lists loose) :
    m.allocated = (lists.flatten ++ loose).length := by
  have hperm : ((List.range m.size).filter (fun a => (m.read a).isSome)).Perm
      ((lists.flatten ++ loose).map Prod.fst) := by
    rw [List.perm_ext_iff_of_nodup (List.nodup_range.filter _) h.once]
    intro a
    rw [← h.read_iff, List.mem_filter, List.mem_range, Option.isSome_iff_ne_none]
    exact ⟨fun ha => ha.2, fun ha => ⟨Memory.lt_size_of_read ha, ha⟩⟩
  rw [Memory.allocated, hperm.length_eq, List.length_map]

theorem length_le (h : Holds m lists loose) (hxs : xs ∈ lists) : xs.length ≤ m.size := by
  have hsub : xs.Sublist (lists.flatten ++ loose) :=
    (List.sublist_flatten_of_mem hxs).trans (List.sublist_append_left _ _)
  calc xs.length ≤ (lists.flatten ++ loose).length := hsub.length_le
    _ = m.allocated := h.allocated_eq.symm
    _ ≤ (List.range m.size).length := List.length_filter_le _ _
    _ = m.size := List.length_range

theorem find_eq (h : Holds m lists loose) (hxs : xs ∈ lists) (p : α → Bool) :
    find m p (link xs) = some ((xs.find? (fun x => p x.2)).map Prod.fst) :=
  findFrom_eq (h.chains xs hxs) p (h.length_le hxs)

theorem fold_eq (h : Holds m lists loose) (hxs : xs ∈ lists) (f : β → α → Option β) (b : β) :
    fold m f b (link xs) = xs.foldlM (fun b x => f b x.2) b :=
  foldFrom_eq (h.chains xs hxs) f b (h.length_le hxs)

theorem foreach_rule (mem : σ → Memory α) {body : σ → ℕ → Option σ} {s : σ}
    (h : Holds (mem s) lists loose) (hxs : xs ∈ lists) (P : List (ℕ × α) → σ → Prop)
    (hbody : ∀ x xs s, P (x :: xs) s → ∃ t v, body s x.1 = some t ∧
      (mem t).read x.1 = some ⟨v, link xs⟩ ∧ P xs t) (hP : P xs s) :
    ∃ t, foreach mem body s (link xs) = some t ∧ P [] t :=
  foreachFrom_rule P hbody hP (h.length_le hxs)

theorem foreachSafe_rule (mem : σ → Memory α) {body : σ → ℕ → Option σ} {s : σ}
    (h : Holds (mem s) lists loose) (hxs : xs ∈ lists) (P : List (ℕ × α) → σ → Prop)
    (hbody : ∀ x xs s, P (x :: xs) s → (∃ v, (mem s).read x.1 = some ⟨v, link xs⟩) ∧
      ∃ t, body s x.1 = some t ∧ P xs t) (hP : P xs s) :
    ∃ t, foreachSafe mem body s (link xs) = some t ∧ P [] t :=
  foreachSafeFrom_rule P hbody hP (h.length_le hxs)

variable {rest : List (List (ℕ × α))}

theorem nodup_head (h : Holds m (xs :: rest) loose) : (xs.map Prod.fst).Nodup := by
  have honce := h.once
  rw [List.flatten_cons, List.append_assoc, List.map_append] at honce
  exact (List.nodup_append.mp honce).1

theorem notMem_head (h : Holds m (xs :: rest) loose) {z : ℕ × α}
    (hz : z ∈ rest.flatten ++ loose) : z.1 ∉ xs.map Prod.fst := by
  have honce := h.once
  rw [List.flatten_cons, List.append_assoc, List.map_append] at honce
  exact fun hx => (List.disjoint_of_nodup_append honce) hx (List.mem_map_of_mem hz)

/-- A change to the cells of the first list, some of which may leave it. -/
theorem relink (zs : List (ℕ × α)) (h : Holds m (xs :: rest) loose)
    (hsome : ∀ a, m'.read a ≠ none ↔ m.read a ≠ none)
    (hother : ∀ a, a ∉ xs.map Prod.fst → m'.read a = m.read a)
    (hcells : ((ys ++ zs).map Prod.fst).Perm (xs.map Prod.fst)) (hys : Chain m' ys)
    (hzs : ∀ z ∈ zs, ∃ l, m'.read z.1 = some ⟨z.2, l⟩) :
    Holds m' (ys :: rest) (zs ++ loose) := by
  have hsame : ∀ z ∈ rest.flatten ++ loose, m'.read z.1 = m.read z.1 :=
    fun z hz => hother z.1 (h.notMem_head hz)
  have hperm : (((ys :: rest).flatten ++ (zs ++ loose)).map Prod.fst).Perm
      (((xs :: rest).flatten ++ loose).map Prod.fst) := by
    have hmove : ((ys :: rest).flatten ++ (zs ++ loose)).Perm
        (ys ++ zs ++ (rest.flatten ++ loose)) := by
      rw [List.flatten_cons, List.append_assoc, List.append_assoc, ← List.append_assoc rest.flatten,
        ← List.append_assoc zs]
      exact (List.perm_append_comm.append_right _).append_left _
    have hfront : ((xs :: rest).flatten ++ loose).map Prod.fst =
        xs.map Prod.fst ++ (rest.flatten ++ loose).map Prod.fst := by
      rw [← List.map_append, ← List.append_assoc, List.flatten_cons]
    have hback : (((ys :: rest).flatten ++ (zs ++ loose)).map Prod.fst).Perm
        ((ys ++ zs).map Prod.fst ++ (rest.flatten ++ loose).map Prod.fst) := by
      rw [← List.map_append]
      exact hmove.map Prod.fst
    rw [hfront]
    exact hback.trans (hcells.append_right _)
  refine ⟨?_, ?_, hperm.nodup_iff.mpr h.once, ?_⟩
  · refine List.forall_mem_cons.mpr ⟨hys, fun l hl => ?_⟩
    refine (h.chains l (List.mem_cons_of_mem _ hl)).congr (fun x hx => hsame x ?_)
    exact List.mem_append_left _ (List.mem_flatten_of_mem hl hx)
  · intro z hz
    rcases List.mem_append.mp hz with hz | hz
    · exact hzs z hz
    · obtain ⟨l, hl⟩ := h.apart z hz
      exact ⟨l, (hsame z (List.mem_append_right _ hz)).trans hl⟩
  · intro a ha
    exact hperm.mem_iff.mpr (h.all a ((hsome a).mp ha))

theorem insertLoose (h : Holds m lists loose) {a : ℕ} (ha : m.read a = none) (v : α) (l : Link) :
    Holds (m.put a (some ⟨v, l⟩)) lists ((a, v) :: loose) := by
  have hfresh : a ∉ (lists.flatten ++ loose).map Prod.fst :=
    fun hmem => h.read_ne_none hmem ha
  have hsame : ∀ z ∈ lists.flatten ++ loose, (m.put a (some ⟨v, l⟩)).read z.1 = m.read z.1 := by
    intro z hz
    exact m.read_put_ne _ (fun hza => hfresh (hza ▸ List.mem_map_of_mem hz))
  have hperm : ((lists.flatten ++ (a, v) :: loose).map Prod.fst).Perm
      (a :: (lists.flatten ++ loose).map Prod.fst) := List.perm_middle.map Prod.fst
  refine ⟨?_, ?_, hperm.nodup_iff.mpr (List.nodup_cons.mpr ⟨hfresh, h.once⟩), ?_⟩
  · intro xs hxs
    refine (h.chains xs hxs).congr (fun x hx => hsame x ?_)
    exact List.mem_append_left _ (List.mem_flatten_of_mem hxs hx)
  · refine List.forall_mem_cons.mpr ⟨⟨l, m.read_put_same a _⟩, fun z hz => ?_⟩
    obtain ⟨l', hl'⟩ := h.apart z hz
    exact ⟨l', (hsame z (List.mem_append_right _ hz)).trans hl'⟩
  · intro b hb
    refine hperm.mem_iff.mpr ?_
    by_cases hab : b = a
    · exact List.mem_cons.mpr (Or.inl hab)
    · rw [m.read_put_ne _ hab] at hb
      exact List.mem_cons_of_mem _ (h.all b hb)

theorem linkHead (h : Holds m (xs :: rest) (x :: loose))
    (hx : m.read x.1 = some ⟨x.2, link xs⟩) : Holds m ((x :: xs) :: rest) loose := by
  have hperm : (((xs :: rest).flatten ++ x :: loose).map Prod.fst).Perm
      ((((x :: xs) :: rest).flatten ++ loose).map Prod.fst) := List.perm_middle.map Prod.fst
  refine ⟨?_, fun z hz => h.apart z (List.mem_cons_of_mem x hz), hperm.nodup_iff.mp h.once,
    fun a ha => hperm.mem_iff.mp (h.all a ha)⟩
  have hchains := h.chains
  rw [List.forall_mem_cons] at hchains
  exact List.forall_mem_cons.mpr ⟨⟨hx, hchains.1⟩, hchains.2⟩

/-- `malloc` and `INSERT_HEAD` -/
theorem insertHead (h : Holds m (xs :: rest) loose) {a : ℕ} (ha : m.read a = none) (v : α) :
    Holds (m.put a (some ⟨v, link xs⟩)) (((a, v) :: xs) :: rest) loose :=
  (h.insertLoose ha v (link xs)).linkHead (m.read_put_same a _)

theorem unlink (h : Holds m ((ys ++ y :: x :: zs) :: rest) loose) :
    ∃ m', m.write y.1 ⟨y.2, link zs⟩ = some m' ∧ m'.read x.1 = some ⟨x.2, link zs⟩ ∧
      Holds m' ((ys ++ y :: zs) :: rest) (x :: loose) := by
  have hchain : Chain m (ys ++ y :: x :: zs) := h.chains _ List.mem_cons_self
  have hback : Chain m (y :: x :: zs) := hchain.tail
  have hy : m.read y.1 = some ⟨y.2, some x.1⟩ := hback.1
  have hx : m.read x.1 = some ⟨x.2, link zs⟩ := hback.2.1
  have hzs : Chain m zs := hback.2.2
  have honce := h.nodup_head
  rw [List.map_append, List.map_cons, List.map_cons, List.nodup_append] at honce
  obtain ⟨-, honce, hfront⟩ := honce
  have hne : x.1 ≠ y.1 := by
    intro hxy
    simp [hxy] at honce
  have hkept : (m.put y.1 (some ⟨y.2, link zs⟩)).read x.1 = some ⟨x.2, link zs⟩ := by
    rw [m.read_put_ne _ hne]
    exact hx
  refine ⟨_, Memory.write_eq (by simp [hy]) _, hkept, h.relink [x] ?_ ?_ ?_ ?_ ?_⟩
  · intro a
    rw [m.read_put]
    split
    · rename_i hay
      simp [hay, hy]
    · exact Iff.rfl
  · intro a ha
    refine m.read_put_ne _ (fun hay => ha ?_)
    simp [hay]
  · refine List.Perm.map _ ?_
    rw [List.append_assoc]
    exact ((List.perm_append_singleton x zs).cons y).append_left ys
  · refine hchain.splice ⟨m.read_put_same _ _, hzs.congr ?_⟩ rfl ?_
    · intro z hz
      refine m.read_put_ne _ (fun hzy => ?_)
      have hmem : y.1 ∈ x.1 :: zs.map Prod.fst :=
        List.mem_cons_of_mem _ (hzy ▸ List.mem_map_of_mem hz)
      exact (List.nodup_cons.mp honce).1 hmem
    · intro z hz
      exact m.read_put_ne _ (hfront z.1 (List.mem_map_of_mem hz) y.1 List.mem_cons_self)
  · exact List.forall_mem_singleton.mpr ⟨_, hkept⟩

/-- The cell that `REMOVE` takes out of its list is still allocated. -/
theorem remove_eq (h : Holds m ((ys ++ x :: zs) :: rest) loose) :
    ∃ m', remove m (link (ys ++ x :: zs)) x.1 = some (m', link (ys ++ zs)) ∧
      Holds m' ((ys ++ zs) :: rest) (x :: loose) := by
  have hchain : Chain m (ys ++ x :: zs) := h.chains _ List.mem_cons_self
  have hcells : ((ys ++ zs ++ [x]).map Prod.fst).Perm ((ys ++ x :: zs).map Prod.fst) := by
    refine List.Perm.map _ ?_
    rw [List.append_assoc]
    exact (List.perm_append_singleton x zs).append_left ys
  have honce := h.nodup_head
  have hx : m.read x.1 = some ⟨x.2, link zs⟩ := hchain.read
  rcases List.eq_nil_or_concat ys with rfl | ⟨init, y, rfl⟩
  · refine ⟨m, ?_, h.relink [x] (fun _ => Iff.rfl) (fun _ _ => rfl) hcells hchain.2 ?_⟩
    · simp [remove, hchain.1]
    · exact List.forall_mem_singleton.mpr ⟨_, hchain.read⟩
  · rw [List.concat_eq_append, List.append_assoc, List.singleton_append] at *
    rw [List.append_assoc, List.singleton_append]
    have hy : m.read y.1 = some ⟨y.2, some x.1⟩ := hchain.read
    have hsteps : init.length < m.size := by
      have hle := h.length_le List.mem_cons_self
      simp only [List.length_append, List.length_cons] at hle
      omega
    rw [List.map_append, List.map_cons, List.map_cons, List.nodup_append] at honce
    obtain ⟨-, honce, hfront⟩ := honce
    have hne : x.1 ≠ y.1 := by
      intro hxy
      simp [hxy] at honce
    have hhead : link (init ++ y :: x :: zs) ≠ some x.1 := by
      cases init with
      | nil => simpa using hne.symm
      | cons w ws => simpa using hfront w.1 (by simp) x.1 (by simp)
    have hpred : x.1 ∉ (init ++ [y]).map Prod.fst := by
      rw [List.map_append, List.mem_append, not_or]
      exact ⟨fun hmem => hfront x.1 hmem x.1 (by simp) rfl, by simpa using hne⟩
    obtain ⟨m', hwrite, -, hm'⟩ := h.unlink
    refine ⟨m', ?_, hm'⟩
    rw [remove, if_neg hhead, predecessorFrom_eq hchain hpred hsteps]
    simp only [Option.bind_eq_bind, Option.bind_some, hy, hx, hwrite]
    rw [link_append_cons init zs (x :: zs) rfl]

theorem free_eq (h : Holds m lists (x :: loose)) :
    ∃ m', m.free x.1 = some m' ∧ Holds m' lists loose := by
  obtain ⟨l, hl⟩ := h.apart x List.mem_cons_self
  refine ⟨_, Memory.free_eq (by simp [hl]), ?_⟩
  have hperm : ((lists.flatten ++ x :: loose).map Prod.fst).Perm
      (x.1 :: (lists.flatten ++ loose).map Prod.fst) :=
    (List.perm_middle.map Prod.fst)
  obtain ⟨hx, honce⟩ := List.nodup_cons.mp (hperm.nodup_iff.mp h.once)
  have hsame : ∀ z ∈ lists.flatten ++ loose, (m.put x.1 none).read z.1 = m.read z.1 := by
    intro z hz
    exact m.read_put_ne _ (fun hzx => hx (hzx ▸ List.mem_map_of_mem hz))
  refine ⟨?_, ?_, honce, ?_⟩
  · intro xs hxs
    refine (h.chains xs hxs).congr (fun z hz => hsame z ?_)
    exact List.mem_append_left _ (List.mem_flatten_of_mem hxs hz)
  · intro z hz
    obtain ⟨l, hl⟩ := h.apart z (List.mem_cons_of_mem x hz)
    exact ⟨l, (hsame z (List.mem_append_right _ hz)).trans hl⟩
  · intro a ha
    rw [m.read_put] at ha
    split at ha
    · exact absurd rfl ha
    · rename_i hax
      exact (List.mem_cons.mp (hperm.mem_iff.mp (h.all a ha))).resolve_left hax

theorem writeLoose (h : Holds m lists (x :: loose)) (v : α) (l : Link) :
    ∃ m', m.write x.1 ⟨v, l⟩ = some m' ∧ m'.read x.1 = some ⟨v, l⟩ ∧
      Holds m' lists ((x.1, v) :: loose) := by
  obtain ⟨l', hl'⟩ := h.apart x List.mem_cons_self
  have hx : m.read x.1 ≠ none := by simp [hl']
  obtain ⟨m', hfree, hm'⟩ := h.free_eq
  obtain rfl : m.put x.1 none = m' := by
    rw [Memory.free_eq hx] at hfree
    exact Option.some.inj hfree
  have hnew := hm'.insertLoose (m.read_put_same x.1 none) v l
  rw [m.put_put] at hnew
  exact ⟨_, Memory.write_eq hx _, m.read_put_same _ _, hnew⟩

theorem setLoose (h : Holds m lists (ys ++ x :: zs)) (v : α) :
    ∃ m', m.setVal x.1 v = some m' ∧ Holds m' lists (ys ++ (x.1, v) :: zs) := by
  have hfront := h.perm (List.Perm.refl _) List.perm_middle
  obtain ⟨l, hl⟩ := hfront.apart x List.mem_cons_self
  obtain ⟨m', hwrite, -, hm'⟩ := hfront.writeLoose v l
  exact ⟨m', by simp [Memory.setVal, hl, hwrite], hm'.perm (List.Perm.refl _) List.perm_middle.symm⟩

theorem pushLoose (h : Holds m (xs :: rest) (x :: loose)) (v : α) :
    ∃ m', m.write x.1 ⟨v, link xs⟩ = some m' ∧ Holds m' (((x.1, v) :: xs) :: rest) loose := by
  obtain ⟨m', hwrite, hread, hm'⟩ := h.writeLoose v (link xs)
  exact ⟨m', hwrite, hm'.linkHead hread⟩

theorem setVal_eq (h : Holds m ((ys ++ x :: zs) :: rest) loose) (v : α) :
    ∃ m', m.setVal x.1 v = some m' ∧ Holds m' ((ys ++ (x.1, v) :: zs) :: rest) loose := by
  have hchain : Chain m (ys ++ x :: zs) := h.chains _ List.mem_cons_self
  have hx : m.read x.1 = some ⟨x.2, link zs⟩ := hchain.read
  have honce := h.nodup_head
  rw [List.map_append, List.map_cons, List.nodup_append] at honce
  obtain ⟨-, honce, hfront⟩ := honce
  have hback : Chain m (x :: zs) := hchain.tail
  have hzs : Chain m zs := hback.2
  refine ⟨m.put x.1 (some ⟨v, link zs⟩), ?_, ?_⟩
  · simp only [Memory.setVal, hx, Option.bind_eq_bind, Option.bind_some,
      Memory.write_eq (m := m) (a := x.1) (by simp [hx])]
  · refine h.relink [] ?_ ?_ (by simp) ?_ (by simp)
    · intro a
      rw [m.read_put]
      split
      · rename_i hax
        simp [hax, hx]
      · exact Iff.rfl
    · intro a ha
      exact m.read_put_ne _ (fun hax => ha (by simp [hax]))
    · refine hchain.splice ⟨m.read_put_same _ _, hzs.congr ?_⟩ rfl ?_
      · intro z hz
        refine m.read_put_ne _ (fun hzx => (List.nodup_cons.mp honce).1 ?_)
        exact hzx ▸ List.mem_map_of_mem hz
      · intro z hz
        exact m.read_put_ne _ (hfront z.1 (List.mem_map_of_mem hz) x.1 List.mem_cons_self)

section Sweep

variable {sel : α → Bool} {upd : α → α} {act : σ → α → σ} {held : Link}

def heldCells (sel : α → Bool) (upd : α → α) (held : Link) (xs : List (ℕ × α)) : List (ℕ × α) :=
  (xs.filter (fun x => sel x.2 && decide (held = some x.1))).map (fun x => (x.1, upd x.2))

/-- The state of the loop behind the cells `ys`. -/
structure Swept (sel : α → Bool) (upd : α → α) (act : σ → α → σ) (held : Link) (st : σ)
    (rest : List (List (ℕ × α))) (loose ys zs : List (ℕ × α)) (s : Sweep σ α) : Prop where
  st : s.st = ((ys.filter (fun x => sel x.2)).map (fun x => upd x.2)).foldl act st
  head : s.head = link (ys.filter (fun x => !sel x.2) ++ zs)
  ret : s.ret = (ys.filter (fun x => sel x.2)).length
  holds : Holds s.mem ((ys.filter (fun x => !sel x.2) ++ zs) :: rest)
    (heldCells sel upd held ys ++ loose)

theorem Swept.body {st : σ} {s : Sweep σ α}
    (h : Swept sel upd act held st rest loose ys (x :: zs) s) :
    ∃ t, sweepBody sel upd act held s x.1 = some t ∧
      Swept sel upd act held st rest loose (ys ++ [x]) zs t := by
  have hread : s.mem.read x.1 = some ⟨x.2, link zs⟩ := (h.holds.chains _ List.mem_cons_self).read
  cases hsel : sel x.2 with
  | false =>
    refine ⟨s, by simp [sweepBody, hread, hsel], ⟨?_, ?_, ?_, ?_⟩⟩
    · simpa [List.filter_append, hsel] using h.st
    · simpa [List.filter_append, hsel] using h.head
    · simpa [List.filter_append, hsel] using h.ret
    · simpa [List.filter_append, hsel, heldCells] using h.holds
  | true =>
    obtain ⟨m₁, hset, hm₁⟩ := h.holds.setVal_eq (upd x.2)
    obtain ⟨m₂, hremove, hm₂⟩ := hm₁.remove_eq
    have hhead : remove m₁ s.head x.1 =
        some (m₂, link (ys.filter (fun x => !sel x.2) ++ zs)) := by
      have hlink : s.head = link (ys.filter (fun x => !sel x.2) ++ (x.1, upd x.2) :: zs) :=
        h.head.trans (link_append_cons _ zs zs rfl)
      rw [hlink]
      exact hremove
    have hst : act s.st (upd x.2) =
        (((ys ++ [x]).filter (fun x => sel x.2)).map (fun x => upd x.2)).foldl act st := by
      simp [List.filter_append, hsel, h.st]
    have hret : s.ret + 1 = ((ys ++ [x]).filter (fun x => sel x.2)).length := by
      simp [List.filter_append, hsel, h.ret]
    have hkept : (ys ++ [x]).filter (fun x => !sel x.2) = ys.filter (fun x => !sel x.2) := by
      simp [List.filter_append, hsel]
    by_cases hheld : held = some x.1
    · refine ⟨⟨_, m₂, _, _⟩, ?_, ⟨hst, by rw [hkept], hret, ?_⟩⟩
      · simp [sweepBody, hread, hsel, hset, hhead, hheld]
      · have hmore : heldCells sel upd held (ys ++ [x]) =
            heldCells sel upd held ys ++ [(x.1, upd x.2)] := by
          simp [heldCells, List.filter_append, hsel, hheld]
        rw [hkept, hmore, List.append_assoc, List.singleton_append]
        exact hm₂.perm (List.Perm.refl _) List.perm_middle.symm
    · obtain ⟨m₃, hfree, hm₃⟩ := hm₂.free_eq
      refine ⟨⟨_, m₃, _, _⟩, ?_, ⟨hst, by rw [hkept], hret, ?_⟩⟩
      · simp [sweepBody, hread, hsel, hset, hhead, hheld, hfree]
      · have hmore : heldCells sel upd held (ys ++ [x]) = heldCells sel upd held ys := by
          simp [heldCells, List.filter_append, hsel, hheld]
        rw [hkept, hmore]
        exact hm₃

/-- A sweep ends without a fault and leaves the cells that are not selected, in their order. -/
theorem sweep_eq (h : Holds m (xs :: rest) loose) (sel : α → Bool) (upd : α → α)
    (act : σ → α → σ) (held : Link) (st : σ) :
    ∃ m', sweep sel upd act held st m (link xs) =
        some ⟨((xs.filter (fun x => sel x.2)).map (fun x => upd x.2)).foldl act st, m',
          link (xs.filter (fun x => !sel x.2)), (xs.filter (fun x => sel x.2)).length⟩ ∧
      Holds m' (xs.filter (fun x => !sel x.2) :: rest) (heldCells sel upd held xs ++ loose) := by
  have hstart : ∃ ys, xs = ys ++ xs ∧
      Swept sel upd act held st rest loose ys xs ⟨st, m, link xs, 0⟩ :=
    ⟨[], rfl, ⟨rfl, rfl, rfl, h⟩⟩
  obtain ⟨t, ht, ys, hys, hend⟩ := Holds.foreachSafe_rule Sweep.mem h List.mem_cons_self
    (fun zs s => ∃ ys, xs = ys ++ zs ∧ Swept sel upd act held st rest loose ys zs s)
    (by
      rintro x zs s ⟨ys, hys, hs⟩
      obtain ⟨t, ht, hnext⟩ := hs.body
      refine ⟨⟨x.2, (hs.holds.chains _ List.mem_cons_self).read⟩, t, ht, ys ++ [x], ?_, hnext⟩
      rw [hys, List.append_assoc, List.singleton_append])
    hstart
  rw [List.append_nil] at hys
  subst ys
  obtain ⟨hst, hhead, hret, hholds⟩ := hend
  rw [List.append_nil] at hhead hholds
  refine ⟨t.mem, ?_, hholds⟩
  rw [sweep, ht, ← hst, ← hret, ← hhead]

end Sweep

end Holds

end LinkedList
