import Mathlib.Data.List.Range
import Mathlib.Data.List.Perm.Subperm

/-!
# A heap of cells

A cell is named by its place in the order of the allocations, so a name does not come back when its
cell is freed, and reading through it finds nothing. A chain is a list of cells each of which names
the next one.
-/

universe u

/-- The cells allocated so far, with nothing where a cell has been freed. -/
structure Heap (C : Type u) where
  cells : List (Option C)

namespace Heap

open List

variable {C : Type u} {h h' : Heap C} {a b : ℕ} {c d : C}

/-- No cell has been allocated. -/
def empty : Heap C := ⟨[]⟩

/-- The number of allocations, which is the name of the next cell. -/
def size (h : Heap C) : ℕ := h.cells.length

/-- The cell of a name, if it is live. -/
def read (h : Heap C) (a : ℕ) : Option C := h.cells[a]?.join

/-- Allocates a cell, under the name `h.size`. -/
def alloc (h : Heap C) (c : C) : Heap C := ⟨h.cells ++ [some c]⟩

/-- Replaces the contents of a cell. -/
def write (h : Heap C) (a : ℕ) (c : C) : Heap C := ⟨h.cells.set a (some c)⟩

/-- Frees a cell. -/
def free (h : Heap C) (a : ℕ) : Heap C := ⟨h.cells.set a none⟩

@[simp] theorem read_empty : (empty : Heap C).read a = none := rfl

@[simp] theorem size_alloc : (h.alloc c).size = h.size + 1 := by simp [size, alloc]

@[simp] theorem size_write : (h.write a c).size = h.size := by simp [size, write]

@[simp] theorem size_free : (h.free a).size = h.size := by simp [size, free]

/-- A live cell has been allocated. -/
theorem lt_size (hr : h.read a = some c) : a < h.size :=
  (List.getElem?_eq_some_iff.1 (Option.join_eq_some_iff.1 hr)).1

/-- The name of the next cell is not that of a live one. -/
@[simp] theorem read_size : h.read h.size = none := by simp [read, size]

@[simp] theorem read_alloc_self : (h.alloc c).read h.size = some c := by
  simp [read, alloc, size]

theorem read_alloc_of_ne (ha : a ≠ h.size) : (h.alloc c).read a = h.read a := by
  simp only [read, alloc, size] at *
  rw [getElem?_append]
  split
  · rfl
  · rw [getElem?_singleton, if_neg (by omega), getElem?_eq_none (by omega)]

/-- An allocation leaves the live cells as they were. -/
theorem read_alloc (hr : h.read a = some d) : (h.alloc c).read a = some d := by
  rw [read_alloc_of_ne (lt_size hr).ne, hr]

theorem read_write_self (hr : h.read a = some d) : (h.write a c).read a = some c := by
  have ha : a < h.cells.length := lt_size hr
  simp [read, write, ha]

theorem read_write_of_ne (hb : b ≠ a) : (h.write a c).read b = h.read b := by
  simp [read, write, hb.symm]

@[simp] theorem read_free_self : (h.free a).read a = none := by
  simp only [read, free, getElem?_set, if_pos]
  split <;> rfl

theorem read_free_of_ne (hb : b ≠ a) : (h.free a).read b = h.read b := by
  simp [read, free, hb.symm]

/-! ## Chains -/

variable {next : C → Option ℕ} {p : Option ℕ} {l l' : List (ℕ × C)}

/-- The cells met from `p` on, up to the one that names no other. -/
def Chain (h : Heap C) (next : C → Option ℕ) : Option ℕ → List (ℕ × C) → Prop
  | p, [] => p = none
  | p, (a, c) :: l => p = some a ∧ h.read a = some c ∧ Chain h next (next c) l

/-- The cells of a chain are live. -/
theorem Chain.read_eq (hl : Chain h next p l) : ∀ x ∈ l, h.read x.1 = some x.2 := by
  induction l generalizing p with
  | nil => nofun
  | cons y l ih =>
    obtain ⟨-, hy, hl⟩ := hl
    intro x hx
    cases hx with
    | head => exact hy
    | tail _ hx => exact ih hl x hx

/-- A chain depends only on the contents of its cells. -/
theorem Chain.congr (hl : Chain h next p l) (hh : ∀ x ∈ l, h'.read x.1 = h.read x.1) :
    Chain h' next p l := by
  induction l generalizing p with
  | nil => exact hl
  | cons y l ih =>
    obtain ⟨hp, hy, hl⟩ := hl
    exact ⟨hp, (hh y mem_cons_self).trans hy, ih hl fun x hx => hh x (mem_cons_of_mem _ hx)⟩

/-- There is one chain from a name. -/
theorem Chain.unique (hl : Chain h next p l) (hl' : Chain h next p l') : l = l' := by
  induction l generalizing p l' with
  | nil =>
    cases l' with
    | nil => rfl
    | cons y l' => exact absurd (hl.symm.trans hl'.1) nofun
  | cons x l ih =>
    obtain ⟨hp, hx, hl⟩ := hl
    cases l' with
    | nil => exact absurd (hl'.symm.trans hp) nofun
    | cons y l' =>
      obtain ⟨hp', hy, hl'⟩ := hl'
      have hxy : x.1 = y.1 := Option.some.inj (hp.symm.trans hp')
      have hcell : x.2 = y.2 := Option.some.inj (hx.symm.trans (hxy ▸ hy))
      rw [Prod.ext hxy hcell, ih hl (hcell ▸ hl')]

/-- From any of its cells on, a chain is a chain. -/
theorem Chain.suffix {x : ℕ × C} (hl : Chain h next p (l ++ x :: l')) :
    Chain h next (some x.1) (x :: l') := by
  induction l generalizing p with
  | nil => exact ⟨rfl, hl.2.1, hl.2.2⟩
  | cons y l ih => exact ih hl.2.2

/-- A chain does not come back to a cell. -/
theorem Chain.nodup (hl : Chain h next p l) : (l.map Prod.fst).Nodup := by
  induction l generalizing p with
  | nil => exact nodup_nil
  | cons x l ih =>
    refine nodup_cons.2 ⟨fun hx => ?_, ih hl.2.2⟩
    obtain ⟨y, hy, hxy⟩ := mem_map.1 hx
    obtain ⟨l1, l2, rfl⟩ := append_of_mem hy
    have hx : Chain h next (some x.1) (x :: (l1 ++ y :: l2)) := ⟨rfl, hl.2.1, hl.2.2⟩
    have hy : Chain h next (some y.1) (y :: l2) := Chain.suffix hl.2.2
    have heq := congrArg List.length (hx.unique (hxy ▸ hy))
    simp at heq
    omega

/-- A chain is no longer than the heap. -/
theorem Chain.length_le (hl : Chain h next p l) : l.length ≤ h.size := by
  have hsub : l.map Prod.fst ⊆ List.range h.size := by
    intro a ha
    obtain ⟨x, hx, rfl⟩ := mem_map.1 ha
    exact mem_range.2 (lt_size (hl.read_eq x hx))
  have hlen := (hl.nodup.subperm hsub).length_le
  rwa [length_map, length_range] at hlen

/-- A new cell in front of a chain. -/
theorem Chain.push (hl : Chain h next p l) (hc : next c = p) :
    Chain (h.alloc c) next (some h.size) ((h.size, c) :: l) :=
  ⟨rfl, read_alloc_self, hc ▸ hl.congr fun x hx => by
    rw [hl.read_eq x hx, read_alloc (hl.read_eq x hx)]⟩

/-- The rest of a chain, once its first cell is freed. -/
theorem Chain.pop (hl : Chain h next p ((a, c) :: l)) : Chain (h.free a) next (next c) l :=
  hl.2.2.congr fun x hx => read_free_of_ne fun hxa =>
    (nodup_cons.1 hl.nodup).1 (mem_map.2 ⟨x, hx, hxa⟩)

/-- What leads to a freed cell is no chain. -/
theorem Chain.broken {x : ℕ × C} (hl : Chain h next p (l ++ x :: l'))
    (hh : ∀ y ∈ l, h'.read y.1 = h.read y.1) (hx : h'.read x.1 = none) (l₁ : List (ℕ × C)) :
    ¬ Chain h' next p l₁ := by
  induction l generalizing p l₁ with
  | nil =>
    intro hl1
    cases l₁ with
    | nil => exact absurd (hl1.symm.trans hl.1) nofun
    | cons z l₁ =>
      have hz : z.1 = x.1 := Option.some.inj (hl1.1.symm.trans hl.1)
      have hlive := hl1.2.1
      rw [hz, hx] at hlive
      cases hlive
  | cons y l ih =>
    intro hl1
    cases l₁ with
    | nil => exact absurd (hl1.symm.trans hl.1) nofun
    | cons z l₁ =>
      have hzy : z.1 = y.1 := Option.some.inj (hl1.1.symm.trans hl.1)
      have hy : h'.read y.1 = some y.2 := (hh y mem_cons_self).trans hl.2.1
      have hcell : z.2 = y.2 := Option.some.inj ((hzy ▸ hl1.2.1).symm.trans hy)
      exact ih hl.2.2 (fun w hw => hh w (mem_cons_of_mem _ hw)) l₁ (hcell ▸ hl1.2.2)

end Heap
