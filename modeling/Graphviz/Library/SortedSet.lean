import Mathlib.Data.List.Basic

/-!
# Finite sets as sorted lists

The objects of a list are compared by their keys, with a comparator that is a strict weak order.
A list without equivalent keys is a finite set; `lookup`, `insert`, `erase`, `next` and `prev` say
what such a set answers. `Cut` is a set taken apart at a key, as a search takes it apart, and each
answer is read off a cut.
-/

namespace SortedSet

open List

universe u v

variable {α : Type u} {K : Type v}

section
variable (key : α → K) (cmp : K → K → Ordering)

/-- The objects stand in the order of their keys, and no two keys are equivalent. -/
def Sorted (S : List α) : Prop :=
  S.Pairwise fun a b => cmp (key a) (key b) = .lt

/-- The object with the key. -/
def lookup (k : K) (S : List α) : Option α :=
  S.find? fun a => cmp k (key a) == .eq

/-- The objects before the key. -/
def below (k : K) (S : List α) : List α :=
  S.filter fun a => cmp k (key a) == .gt

/-- The objects after the key. -/
def above (k : K) (S : List α) : List α :=
  S.filter fun a => cmp k (key a) == .lt

/-- The set with an object put at the place of a key. -/
def insert (k : K) (a : α) (S : List α) : List α :=
  below key cmp k S ++ a :: above key cmp k S

/-- The set without the object of the key. -/
def erase (k : K) (S : List α) : List α :=
  S.filter fun a => cmp k (key a) != .eq

/-- The first object after the key. -/
def next (k : K) (S : List α) : Option α :=
  (above key cmp k S).head?

/-- The last object before the key. -/
def prev (k : K) (S : List α) : Option α :=
  (below key cmp k S).getLast?

/-- The set `S` taken apart at `k`: the objects before, the object of the key, those after. -/
structure Cut (k : K) (S A : List α) (m : Option α) (B : List α) : Prop where
  eq : S = A ++ (m.toList ++ B)
  left : ∀ a ∈ A, cmp k (key a) = .gt
  mid : ∀ a ∈ m, cmp k (key a) = .eq
  right : ∀ b ∈ B, cmp k (key b) = .lt

end

variable {key : α → K} {cmp : K → K → Ordering} {k : K} {S A B : List α} {m : Option α} {a : α}

/-! ## Answers read off a cut -/

theorem filter_eq_self {p : α → Bool} (h : ∀ a ∈ A, p a = true) : A.filter p = A :=
  List.filter_eq_self.2 h

theorem filter_eq_nil {p : α → Bool} (h : ∀ a ∈ A, p a = false) : A.filter p = [] :=
  filter_eq_nil_iff.2 fun a ha => by rw [h a ha]; exact Bool.false_ne_true

/-- What a test that depends on the comparison alone keeps. -/
theorem Cut.filter (h : Cut key cmp k S A m B) (q : Ordering → Bool) :
    S.filter (fun a => q (cmp k (key a))) =
      (if q .gt then A else []) ++ ((if q .eq then m.toList else []) ++ if q .lt then B else []) := by
  have part : ∀ (L : List α) (o : Ordering), (∀ a ∈ L, cmp k (key a) = o) →
      L.filter (fun a => q (cmp k (key a))) = if q o then L else [] := by
    intro L o hL
    cases hq : q o with
    | true => exact filter_eq_self fun a ha => by rw [hL a ha]; exact hq
    | false => exact filter_eq_nil fun a ha => by rw [hL a ha]; exact hq
  rw [h.eq, filter_append, filter_append, part A .gt h.left,
    part m.toList .eq fun a ha => h.mid a (by simpa using ha), part B .lt h.right]

theorem Cut.below (h : Cut key cmp k S A m B) : below key cmp k S = A := by
  rw [SortedSet.below, h.filter (· == .gt)]; simp

theorem Cut.above (h : Cut key cmp k S A m B) : above key cmp k S = B := by
  rw [SortedSet.above, h.filter (· == .lt)]; simp

theorem Cut.erase (h : Cut key cmp k S A m B) : erase key cmp k S = A ++ B := by
  rw [SortedSet.erase, h.filter (· != .eq)]; simp

theorem Cut.insert (h : Cut key cmp k S A m B) : insert key cmp k a S = A ++ a :: B := by
  rw [SortedSet.insert, h.below, h.above]

theorem Cut.next (h : Cut key cmp k S A m B) : next key cmp k S = B.head? := by
  rw [SortedSet.next, h.above]

theorem Cut.prev (h : Cut key cmp k S A m B) : prev key cmp k S = A.getLast? := by
  rw [SortedSet.prev, h.below]

theorem Cut.lookup (h : Cut key cmp k S A m B) : lookup key cmp k S = m := by
  have hnone : ∀ L : List α, (∀ a ∈ L, cmp k (key a) ≠ .eq) →
      L.find? (fun a => cmp k (key a) == .eq) = none :=
    fun L hL => find?_eq_none.2 fun a ha => by simpa using hL a ha
  rw [SortedSet.lookup, h.eq, find?_append, hnone A fun a ha => by rw [h.left a ha]; nofun,
    find?_append, hnone B fun a ha => by rw [h.right a ha]; nofun]
  cases m with
  | none => rfl
  | some a =>
    have ha := h.mid a rfl
    simp [ha]

/-! ## Cuts of sorted lists -/

/-- Leaving the object of the key out keeps the order. -/
theorem Cut.sorted_erase (h : Cut key cmp k S A m B) (hS : Sorted key cmp S) :
    Sorted key cmp (A ++ B) := by
  rw [← h.erase]
  exact hS.filter _

section
variable [Std.TransCmp cmp]

open Std

/-- Whether a cut is found at an object of the set: the objects beside it are on their sides of the
key. -/
theorem Sorted.cut (hS : Sorted key cmp (A ++ a :: B)) (ha : cmp k (key a) = .eq) :
    Cut key cmp k (A ++ a :: B) A (some a) B := by
  obtain ⟨_, hB, hAB⟩ := pairwise_append.1 hS
  refine ⟨rfl, fun x hx => ?_, fun x hx => ?_, fun x hx => ?_⟩
  · have hxa := hAB x hx a mem_cons_self
    exact OrientedCmp.gt_of_lt (TransCmp.lt_of_lt_of_eq hxa (OrientedCmp.eq_symm ha))
  · rw [← Option.some.inj hx]; exact ha
  · exact TransCmp.lt_of_eq_of_lt ha ((pairwise_cons.1 hB).1 x hx)

/-- Every sorted list is cut at every key. -/
theorem Sorted.exists_cut (hS : Sorted key cmp S) (k : K) : ∃ A m B, Cut key cmp k S A m B := by
  induction S with
  | nil => exact ⟨[], none, [], rfl, nofun, nofun, nofun⟩
  | cons a S ih =>
    obtain ⟨ha, hS'⟩ := pairwise_cons.1 hS
    cases hka : cmp k (key a) with
    | lt =>
      refine ⟨[], none, a :: S, rfl, nofun, nofun, fun b hb => ?_⟩
      cases hb with
      | head => exact hka
      | tail _ hb => exact TransCmp.lt_trans hka (ha b hb)
    | eq => exact ⟨[], some a, S, Sorted.cut (A := []) hS hka⟩
    | gt =>
      obtain ⟨A, m, B, hcut⟩ := ih hS'
      refine ⟨a :: A, m, B, by rw [hcut.eq]; rfl, fun b hb => ?_, hcut.mid, hcut.right⟩
      cases hb with
      | head => exact hka
      | tail _ hb => exact hcut.left b hb

/-- Putting an object of the key between the two sides keeps the order. -/
theorem Cut.sorted_insert (h : Cut key cmp k S A m B) (hS : Sorted key cmp S)
    (ha : cmp k (key a) = .eq) : Sorted key cmp (A ++ a :: B) := by
  have hAB := pairwise_append.1 (h.sorted_erase hS)
  have hak := OrientedCmp.eq_symm ha
  refine pairwise_append.2 ⟨hAB.1, pairwise_cons.2 ⟨fun b hb => ?_, hAB.2.1⟩, ?_⟩
  · exact TransCmp.lt_of_eq_of_lt hak (h.right b hb)
  · intro x hx y hy
    have hxk := OrientedCmp.lt_of_gt (h.left x hx)
    cases hy with
    | head => exact TransCmp.lt_of_lt_of_eq hxk ha
    | tail _ hy => exact hAB.2.2 x hx y hy

/-- The key of an object that stands before one that is before `k`. -/
theorem gt_of_lt_of_gt {x y : K} (hxy : cmp x y = .lt) (hy : cmp k y = .gt) : cmp k x = .gt :=
  OrientedCmp.gt_of_lt (TransCmp.lt_trans hxy (OrientedCmp.lt_of_gt hy))

end

end SortedSet
