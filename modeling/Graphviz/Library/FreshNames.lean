import Mathlib.Data.List.Range

/-!
# Numbered names

Names with numbers are added to a list one after another, each unless it is there already. The list
grows with each of them only when none was there from the start.
-/

namespace FreshNames

open Function List

universe u

variable {β : Type u} [DecidableEq β] {f : ℕ → β} {names : List β} {j k : ℕ}

/-- The list with one more name, unless it is there. -/
def add (f : ℕ → β) (names : List β) (k : ℕ) : List β :=
  if f k ∈ names then names else names ++ [f k]

/-- Each name that is not there from the start is added. -/
theorem adds_eq (hf : Injective f) (names : List β) (k : ℕ) :
    (List.range k).foldl (add f) names =
      names ++ ((List.range k).filter fun j => f j ∉ names).map f := by
  induction k with
  | zero => exact (append_nil names).symm
  | succ k ih =>
    rw [range_succ, foldl_append, ih, filter_append, map_append, filter_singleton]
    have hmem : f k ∈ names ++ ((List.range k).filter fun j => f j ∉ names).map f ↔
        f k ∈ names := by
      refine mem_append.trans (or_iff_left fun hnew => ?_)
      obtain ⟨j, hj, heq⟩ := mem_map.1 hnew
      exact (mem_range.1 (mem_filter.1 hj).1).ne (hf heq)
    change add f _ k = _
    rw [add]
    split
    next h =>
      rw [decide_eq_false (not_not_intro (hmem.1 h)), cond_false, map_nil, append_nil]
    next h =>
      rw [decide_eq_true (mt hmem.2 h), cond_true, append_assoc]
      rfl

/-- The list grows with each name only when none is there from the start. -/
theorem notMem_of_length (hf : Injective f)
    (hlen : ((List.range k).foldl (add f) names).length = names.length + k) (hj : j < k) :
    f j ∉ names := by
  rw [adds_eq hf, length_append, length_map, Nat.add_left_cancel_iff] at hlen
  have hall : ((List.range k).filter fun j => f j ∉ names).length = (List.range k).length := by
    rw [length_range]
    exact hlen
  exact of_decide_eq_true (length_filter_eq_length_iff.1 hall j (mem_range.2 hj))

end FreshNames
