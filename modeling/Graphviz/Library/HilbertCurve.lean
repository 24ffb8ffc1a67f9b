import Mathlib.Tactic.Ring

/-!
# The Hilbert curve

The curve of order `n + 1` goes through the four quadrants of the square of side `2 ^ (n + 1)`, each
time along the curve of order `n`: transposed in the first quadrant, as it is in the second and the
third, and transposed and turned over in the fourth. `index n x y` is the place of a point on the
curve of order `n`. The curve starts at the origin and ends at the other end of the first axis, so
that it goes from one quadrant to the next by one step.
-/

namespace HilbertCurve

open Nat

/-- The place of a point on the curve of order `n`. -/
def index : ℕ → ℕ → ℕ → ℕ
  | 0, _, _ => 0
  | n + 1, x, y =>
    if x < 2 ^ n then
      if y < 2 ^ n then index n y x else 4 ^ n + index n x (y - 2 ^ n)
    else
      if y < 2 ^ n then 3 * 4 ^ n + index n (2 ^ n - 1 - y) (2 * 2 ^ n - 1 - x)
      else 2 * 4 ^ n + index n (x - 2 ^ n) (y - 2 ^ n)

/-- Two points are neighbours on a horizontal or a vertical line. -/
def Neighbours (x y x' y' : ℕ) : Prop :=
  x = x' ∧ (y' = y + 1 ∨ y = y' + 1) ∨ y = y' ∧ (x' = x + 1 ∨ x = x' + 1)

variable {n x y x' y' m : ℕ}

/-! ## The four quadrants -/

theorem index_first (hx : x < 2 ^ n) (hy : y < 2 ^ n) : index (n + 1) x y = index n y x := by
  rw [index, if_pos hx, if_pos hy]

theorem index_second (hx : x < 2 ^ n) (hy : 2 ^ n ≤ y) :
    index (n + 1) x y = 4 ^ n + index n x (y - 2 ^ n) := by
  rw [index, if_pos hx, if_neg hy.not_gt]

theorem index_third (hx : 2 ^ n ≤ x) (hy : 2 ^ n ≤ y) :
    index (n + 1) x y = 2 * 4 ^ n + index n (x - 2 ^ n) (y - 2 ^ n) := by
  rw [index, if_neg hx.not_gt, if_neg hy.not_gt]

theorem index_fourth (hx : 2 ^ n ≤ x) (hy : y < 2 ^ n) :
    index (n + 1) x y = 3 * 4 ^ n + index n (2 ^ n - 1 - y) (2 * 2 ^ n - 1 - x) := by
  rw [index, if_neg hx.not_gt, if_pos hy]

/-- A point is in one of the quadrants, and there on a curve of the order before. -/
theorem quadrant_cases (hx : x < 2 ^ (n + 1)) (hy : y < 2 ^ (n + 1)) :
    (∃ a < 2 ^ n, ∃ b < 2 ^ n, x = b ∧ y = a ∧ index (n + 1) x y = index n a b) ∨
    (∃ a < 2 ^ n, ∃ b < 2 ^ n, x = a ∧ y = 2 ^ n + b ∧ index (n + 1) x y = 4 ^ n + index n a b) ∨
    (∃ a < 2 ^ n, ∃ b < 2 ^ n, x = 2 ^ n + a ∧ y = 2 ^ n + b ∧
      index (n + 1) x y = 2 * 4 ^ n + index n a b) ∨
    ∃ a < 2 ^ n, ∃ b < 2 ^ n, x + b + 1 = 2 * 2 ^ n ∧ y + a + 1 = 2 ^ n ∧
      index (n + 1) x y = 3 * 4 ^ n + index n a b := by
  rw [pow_succ] at hx hy
  rcases lt_or_ge x (2 ^ n) with hx' | hx' <;> rcases lt_or_ge y (2 ^ n) with hy' | hy'
  · exact .inl ⟨y, hy', x, hx', rfl, rfl, index_first hx' hy'⟩
  · exact .inr (.inl ⟨x, hx', y - 2 ^ n, by omega, rfl, by omega, index_second hx' hy'⟩)
  · exact .inr (.inr (.inr ⟨2 ^ n - 1 - y, by omega, 2 * 2 ^ n - 1 - x, by omega, by omega, by omega,
      index_fourth hx' hy'⟩))
  · exact .inr (.inr (.inl ⟨x - 2 ^ n, by omega, y - 2 ^ n, by omega, by omega, by omega,
      index_third hx' hy'⟩))

/-- The places are below `4 ^ n`. -/
theorem index_lt (hx : x < 2 ^ n) (hy : y < 2 ^ n) : index n x y < 4 ^ n := by
  induction n generalizing x y with
  | zero => exact zero_lt_one
  | succ n ih =>
    have hpow : 4 ^ (n + 1) = 4 * 4 ^ n := by rw [pow_succ, mul_comm]
    rcases quadrant_cases hx hy with ⟨a, ha, b, hb, -, -, h⟩ | ⟨a, ha, b, hb, -, -, h⟩ |
      ⟨a, ha, b, hb, -, -, h⟩ | ⟨a, ha, b, hb, -, -, h⟩
    all_goals
      have := ih ha hb
      omega

/-- Different points have different places. -/
theorem index_inj (hx : x < 2 ^ n) (hy : y < 2 ^ n) (hx' : x' < 2 ^ n) (hy' : y' < 2 ^ n)
    (h : index n x y = index n x' y') : x = x' ∧ y = y' := by
  induction n generalizing x y x' y' with
  | zero =>
    rw [pow_zero] at hx hy hx' hy'
    omega
  | succ n ih =>
    rcases quadrant_cases hx hy with ⟨a, ha, b, hb, hxa, hyb, hi⟩ | ⟨a, ha, b, hb, hxa, hyb, hi⟩ |
      ⟨a, ha, b, hb, hxa, hyb, hi⟩ | ⟨a, ha, b, hb, hxa, hyb, hi⟩ <;>
    rcases quadrant_cases hx' hy' with ⟨c, hc, d, hd, hxc, hyd, hj⟩ |
      ⟨c, hc, d, hd, hxc, hyd, hj⟩ | ⟨c, hc, d, hd, hxc, hyd, hj⟩ |
      ⟨c, hc, d, hd, hxc, hyd, hj⟩
    all_goals
      have hab := index_lt ha hb
      have hcd := index_lt hc hd
      rw [hi, hj] at h
    -- two points of one quadrant
    case inl.inl | inr.inl.inr.inl | inr.inr.inl.inr.inr.inl | inr.inr.inr.inr.inr.inr =>
      have := ih ha hb hc hd (by omega)
      omega
    all_goals omega

/-- Every place is that of a point. -/
theorem exists_index (hm : m < 4 ^ n) : ∃ x < 2 ^ n, ∃ y < 2 ^ n, index n x y = m := by
  induction n generalizing m with
  | zero => exact ⟨0, zero_lt_one, 0, zero_lt_one, (lt_one_iff.1 hm).symm⟩
  | succ n ih =>
    have hm' : m < 4 * 4 ^ n := by rwa [pow_succ, mul_comm] at hm
    rw [pow_succ]
    obtain h1 | h1 := lt_or_ge m (4 ^ n)
    · obtain ⟨a, ha, b, hb, h⟩ := ih h1
      exact ⟨b, by omega, a, by omega, (index_first hb ha).trans h⟩
    obtain h2 | h2 := lt_or_ge m (2 * 4 ^ n)
    · obtain ⟨a, ha, b, hb, h⟩ := ih (m := m - 4 ^ n) (by omega)
      refine ⟨a, by omega, 2 ^ n + b, by omega, ?_⟩
      rw [index_second ha (by omega), Nat.add_sub_cancel_left, h]
      omega
    obtain h3 | h3 := lt_or_ge m (3 * 4 ^ n)
    · obtain ⟨a, ha, b, hb, h⟩ := ih (m := m - 2 * 4 ^ n) (by omega)
      refine ⟨2 ^ n + a, by omega, 2 ^ n + b, by omega, ?_⟩
      rw [index_third (by omega) (by omega), Nat.add_sub_cancel_left, Nat.add_sub_cancel_left, h]
      omega
    · obtain ⟨a, ha, b, hb, h⟩ := ih (m := m - 3 * 4 ^ n) (by omega)
      refine ⟨2 * 2 ^ n - 1 - b, by omega, 2 ^ n - 1 - a, by omega, ?_⟩
      rw [index_fourth (by omega) (by omega), show 2 ^ n - 1 - (2 ^ n - 1 - a) = a by omega,
        show 2 * 2 ^ n - 1 - (2 * 2 ^ n - 1 - b) = b by omega, h]
      omega

/-! ## The steps of the curve -/

/-- The curve starts at the origin. -/
theorem index_start (n : ℕ) : index n 0 0 = 0 := by
  induction n with
  | zero => rfl
  | succ n ih =>
    have hpos := Nat.two_pow_pos n
    rw [index_first hpos hpos, ih]

/-- The curve ends at the other end of the first axis. -/
theorem index_end (n : ℕ) : index n (2 ^ n - 1) 0 + 1 = 4 ^ n := by
  induction n with
  | zero => rfl
  | succ n ih =>
    have hpos := Nat.two_pow_pos n
    have hpow : 4 ^ (n + 1) = 4 * 4 ^ n := by rw [pow_succ, mul_comm]
    have hside : 2 ^ (n + 1) = 2 * 2 ^ n := by rw [pow_succ, mul_comm]
    rw [index_fourth (by omega) hpos, show 2 * 2 ^ n - 1 - (2 ^ (n + 1) - 1) = 0 by omega,
      Nat.sub_zero]
    omega

/-- The last point of a curve is on the first axis. -/
theorem eq_end (hx : x < 2 ^ n) (hy : y < 2 ^ n) (h : index n x y + 1 = 4 ^ n) :
    x + 1 = 2 ^ n ∧ y = 0 := by
  have hpos := Nat.two_pow_pos n
  have hend := index_end n
  have hlast : x = 2 ^ n - 1 ∧ y = 0 := index_inj hx hy (by omega) hpos (by omega)
  omega

/-- The first point of a curve is the origin. -/
theorem eq_start (hx : x < 2 ^ n) (hy : y < 2 ^ n) (h : index n x y = 0) : x = 0 ∧ y = 0 :=
  index_inj hx hy (Nat.two_pow_pos n) (Nat.two_pow_pos n) (h.trans (index_start n).symm)

/-- The curve goes on by one step. -/
theorem index_succ (hx : x < 2 ^ n) (hy : y < 2 ^ n) (hx' : x' < 2 ^ n) (hy' : y' < 2 ^ n)
    (h : index n x' y' = index n x y + 1) : Neighbours x y x' y' := by
  induction n generalizing x y x' y' with
  | zero => cases h
  | succ n ih =>
    rcases quadrant_cases hx hy with ⟨a, ha, b, hb, hxa, hyb, hi⟩ | ⟨a, ha, b, hb, hxa, hyb, hi⟩ |
      ⟨a, ha, b, hb, hxa, hyb, hi⟩ | ⟨a, ha, b, hb, hxa, hyb, hi⟩ <;>
    rcases quadrant_cases hx' hy' with ⟨c, hc, d, hd, hxc, hyd, hj⟩ |
      ⟨c, hc, d, hd, hxc, hyd, hj⟩ | ⟨c, hc, d, hd, hxc, hyd, hj⟩ |
      ⟨c, hc, d, hd, hxc, hyd, hj⟩
    all_goals
      have hab := index_lt ha hb
      have hcd := index_lt hc hd
      rw [hi, hj] at h
    -- a step within a quadrant
    case inl.inl | inr.inl.inr.inl | inr.inr.inl.inr.inr.inl | inr.inr.inr.inr.inr.inr =>
      have := ih ha hb hc hd (by omega)
      rw [Neighbours] at this ⊢
      omega
    -- a step from the end of a quadrant to the start of the next
    case inl.inr.inl | inr.inl.inr.inr.inl | inr.inr.inl.inr.inr.inr =>
      obtain ⟨ha', hb'⟩ := eq_end ha hb (by omega)
      obtain ⟨hc', hd'⟩ := eq_start hc hd (by omega)
      rw [Neighbours]
      omega
    all_goals omega

end HilbertCurve
