import Mathlib.Algebra.Order.Field.Basic
import Mathlib.Data.List.Nodup
import Mathlib.Tactic.Linarith
import Mathlib.Tactic.Ring

/-!
# Walking through a grid

A grid is walked through line by line. Along each axis the walk starts at one of the two ends and
goes to the other one. The cells of an axis of equal width cover the segment they are laid out on.
-/

namespace Raster

open Nat

/-! ## One axis -/

/-- An axis is walked from its low end up, or from its high end down. -/
def Axis (first step size : ℤ) : Prop :=
  first = 0 ∧ step = 1 ∨ first = size - 1 ∧ step = -1

variable {first step size : ℤ} {i j k m n : ℕ}

theorem Axis.inside (h : Axis first step size) (hi : (i : ℤ) < size) :
    0 ≤ first + i * step ∧ first + i * step < size := by
  rcases h with ⟨rfl, rfl⟩ | ⟨rfl, rfl⟩ <;> omega

/-- After the last place comes one that is outside. -/
theorem Axis.outside (h : Axis first step size) (hi : (i : ℤ) = size) :
    ¬(0 ≤ first + i * step ∧ first + i * step < size) := by
  rcases h with ⟨rfl, rfl⟩ | ⟨rfl, rfl⟩ <;> omega

theorem Axis.injective (h : Axis first step size)
    (heq : first + i * step = first + j * step) : i = j := by
  rcases h with ⟨rfl, rfl⟩ | ⟨rfl, rfl⟩ <;> omega

theorem Axis.surjective (h : Axis first step size) {c : ℤ} (hc : 0 ≤ c ∧ c < size) :
    ∃ i : ℕ, (i : ℤ) < size ∧ first + i * step = c := by
  obtain ⟨rfl, rfl⟩ | ⟨rfl, rfl⟩ := h
  · exact ⟨c.toNat, by omega, by omega⟩
  · exact ⟨(size - 1 - c).toNat, by omega, by omega⟩

/-! ## Two axes -/

/-- One step along a line of `m` cells. -/
theorem step_inside (h : k % m + 1 < m) : (k + 1) % m = k % m + 1 ∧ (k + 1) / m = k / m := by
  have hk := div_add_mod k m
  have heq : k + 1 = (k % m + 1) + m * (k / m) := by omega
  rw [heq, add_mul_mod_self_left, mod_eq_of_lt h,
    add_mul_div_left _ _ (by omega), div_eq_of_lt h, zero_add]
  exact ⟨rfl, rfl⟩

/-- The step from the end of a line to the next one. -/
theorem step_end (hm : 0 < m) (h : m ≤ k % m + 1) :
    (k + 1) % m = 0 ∧ (k + 1) / m = k / m + 1 ∧ k % m + 1 = m := by
  have hk := div_add_mod k m
  have hlt := mod_lt k hm
  have hend : k % m + 1 = m := by omega
  have heq : k + 1 = m * (k / m + 1) := by
    rw [mul_add, mul_one]
    omega
  rw [heq, Nat.mul_mod_right, Nat.mul_div_cancel_left _ hm]
  exact ⟨rfl, rfl, hend⟩

/-- The cells are numbered line by line. -/
theorem number_injective (hmod : i % m = j % m) (hdiv : i / m = j / m) : i = j := by
  rw [← div_add_mod i m, ← div_add_mod j m, hmod, hdiv]

theorem number_surjective (hi : i < m) (hj : j < n) :
    (i + m * j) % m = i ∧ (i + m * j) / m = j ∧ i + m * j < m * n := by
  have hle : m * (j + 1) ≤ m * n := mul_le_mul_left m hj
  rw [mul_add, mul_one] at hle
  rw [add_mul_mod_self_left, mod_eq_of_lt hi, add_mul_div_left _ _ (by omega),
    div_eq_of_lt hi, zero_add]
  exact ⟨rfl, rfl, by omega⟩

/-! ## Cells of equal width -/

variable {K : Type*} [Field K] [LinearOrder K] {a w t : K}

/-- Cells of equal width, laid out one after another, cover the whole. -/
theorem exists_cell (hn : 0 < n) (hlo : a ≤ t) (hhi : t ≤ a + n * w) :
    ∃ i < n, a + i * w ≤ t ∧ t ≤ a + i * w + w := by
  induction n with
  | zero => omega
  | succ n ih =>
    obtain rfl | hpos := Nat.eq_zero_or_pos n
    · exact ⟨0, one_pos, by simpa using hlo, by simpa using hhi⟩
    obtain hle | hgt := le_or_gt t (a + n * w)
    · obtain ⟨i, hi, hcell⟩ := ih hpos hle
      exact ⟨i, lt_succ_of_lt hi, hcell⟩
    · refine ⟨n, lt_succ_self n, hgt.le, hhi.trans_eq ?_⟩
      push_cast
      ring

/-- Two of the cells lie beside each other. -/
theorem cells_beside [IsStrictOrderedRing K] {i j : ℤ} (hw : 0 ≤ w) (hne : i ≠ j) :
    a + i * w + w ≤ a + j * w ∨ a + j * w + w ≤ a + i * w := by
  have hbefore : ∀ i j : ℤ, i < j → a + i * w + w ≤ a + j * w := by
    intro i j hlt
    have hle : ((i + 1 : ℤ) : K) ≤ (j : ℤ) := Int.cast_le.2 hlt
    have hmul := mul_le_mul_of_nonneg_right hle hw
    push_cast at hmul
    linarith
  exact hne.lt_or_gt.imp (hbefore i j) (hbefore j i)

end Raster
