import Mathlib.Data.List.Perm.Basic
import Mathlib.Data.List.Sort

/-!
# Ordered multisets

A search tree that may hold several keys that compare equal, known by the list of its keys in order.
A node is the place of its key in that list, so that its predecessor is the place before. The laws
say what a tree has to do, and leave open where a key is put among those that compare equal to it,
and which one of these a query finds.
-/

universe u

/-- The keys are in order. -/
def InCmpOrder {κ : Type u} (cmp : κ → κ → Ordering) (l : List κ) : Prop :=
  l.Pairwise fun a b => cmp a b ≠ .gt

/-- The operations of an ordered multiset, and what they do to the keys. -/
structure OrderedMultiset (κ : Type u) (cmp : κ → κ → Ordering) where
  Tree : Type u
  keys : Tree → List κ
  empty : Tree
  insert : Tree → κ → Tree
  query : Tree → κ → Option ℕ
  delete : Tree → ℕ → Tree
  keys_inOrder : ∀ t, InCmpOrder cmp (keys t)
  keys_empty : keys empty = []
  keys_insert : ∀ t k, (keys (insert t k)).Perm (k :: keys t)
  query_some : ∀ t k i, query t k = some i → ∃ x, (keys t)[i]? = some x ∧ cmp x k = .eq
  query_none : ∀ t k, query t k = none → ∀ x ∈ keys t, cmp x k ≠ .eq
  keys_delete : ∀ t i, keys (delete t i) = (keys t).eraseIdx i

namespace OrderedMultiset

variable {κ : Type u} {cmp : κ → κ → Ordering}

section
variable (M : OrderedMultiset κ cmp) {t : M.Tree} {k x : κ} {i : ℕ}

/-- A key that compares equal is found if there is one. -/
theorem exists_query (hx : x ∈ M.keys t) (hxk : cmp x k = .eq) :
    ∃ i y, M.query t k = some i ∧ (M.keys t)[i]? = some y ∧ cmp y k = .eq := by
  cases hq : M.query t k with
  | none => exact absurd hxk (M.query_none t k hq x hx)
  | some i =>
    obtain ⟨y, hy, heq⟩ := M.query_some t k i hq
    exact ⟨i, y, rfl, hy, heq⟩

/-- A node and what is left when it is deleted. -/
theorem perm_delete (hx : (M.keys t)[i]? = some x) :
    (M.keys t).Perm (x :: M.keys (M.delete t i)) := by
  obtain ⟨hlt, rfl⟩ := List.getElem?_eq_some_iff.1 hx
  rw [M.keys_delete]
  exact (List.getElem_cons_eraseIdx_perm hlt).symm

/-- A key that comes before that of a node is at a place before it. -/
theorem lt_of_cmp (hx : (M.keys t)[i]? = some x) {y : κ} (hy : y ∈ M.keys t)
    (hgt : cmp x y = .gt) (hne : y ≠ x) : ∃ j < i, (M.keys t)[j]? = some y := by
  obtain ⟨j, hj⟩ := List.getElem?_of_mem hy
  refine ⟨j, ?_, hj⟩
  obtain ⟨hjlt, hjy⟩ := List.getElem?_eq_some_iff.1 hj
  obtain ⟨hilt, hix⟩ := List.getElem?_eq_some_iff.1 hx
  by_contra hle
  obtain rfl | hlt := (not_lt.1 hle).eq_or_lt
  · exact hne (hjy.symm.trans hix)
  · exact (List.pairwise_iff_getElem.1 (M.keys_inOrder t) i j hilt hjlt hlt)
      (by rw [hix, hjy]; exact hgt)

end

/-! ## Sorted lists -/

section
variable {β : Type*} [LinearOrder β] {f : κ → β}

/-- Keys that are compared by what a function gives for them. -/
theorem cmp_ne_gt_iff (hcmp : ∀ a b, cmp a b = .gt ↔ f b < f a) {a b : κ} :
    cmp a b ≠ .gt ↔ f a ≤ f b := by
  rw [Ne, hcmp, not_lt]

theorem cmp_total (hcmp : ∀ a b, cmp a b = .gt ↔ f b < f a) : Std.Total fun a b => cmp a b ≠ .gt :=
  ⟨fun a b => by simpa only [cmp_ne_gt_iff hcmp] using le_total (f a) (f b)⟩

theorem cmp_trans (hcmp : ∀ a b, cmp a b = .gt ↔ f b < f a) : IsTrans κ fun a b => cmp a b ≠ .gt :=
  ⟨fun a b c => by simpa only [cmp_ne_gt_iff hcmp] using le_trans⟩

/-- The ordered multiset of sorted lists, for keys that are compared by what a function gives. -/
def sortedList (hcmp : ∀ a b, cmp a b = .gt ↔ f b < f a) : OrderedMultiset κ cmp where
  Tree := { l : List κ // InCmpOrder cmp l }
  keys t := t.1
  empty := ⟨[], .nil⟩
  insert t k := ⟨t.1.orderedInsert (fun a b => cmp a b ≠ .gt) k, by
    have := cmp_total hcmp
    have := cmp_trans hcmp
    exact t.2.orderedInsert k t.1⟩
  query t k := t.1.findIdx? fun x => cmp x k == .eq
  delete t i := ⟨t.1.eraseIdx i, t.2.eraseIdx i⟩
  keys_inOrder t := t.2
  keys_empty := rfl
  keys_insert t k := List.perm_orderedInsert _ k t.1
  query_some t k i h := by
    obtain ⟨hlt, heq, -⟩ := List.findIdx?_eq_some_iff_getElem.1 h
    exact ⟨_, List.getElem?_eq_getElem hlt, eq_of_beq heq⟩
  query_none t k h x hx heq :=
    absurd (List.findIdx?_eq_none_iff.1 h x hx) (by rw [heq]; decide)
  keys_delete _ _ := rfl

end

end OrderedMultiset
