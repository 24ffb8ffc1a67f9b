import Mathlib.Data.Rat.Floor

/-!
# Rounding

C's `round` on exact numbers, and its conversion to an integer.
-/

namespace Graphviz

/-- C's `round`, half away from zero, and the macro `ROUND`. -/
def cround (x : ℚ) : ℤ :=
  if 0 ≤ x then ⌊x + 1 / 2⌋ else -⌊-x + 1 / 2⌋

/-- The conversion of a `double` to `int`. -/
def toInt (x : ℚ) : ℤ :=
  if 0 ≤ x then ⌊x⌋ else ⌈x⌉

/-- The coordinate is an integer. -/
def IsInt (x : ℚ) : Prop := ∃ k : ℤ, x = k

theorem cround_intCast (k : ℤ) : cround k = k := by
  have hup : ⌊(k : ℚ) + 1 / 2⌋ = k := by rw [Int.floor_eq_iff]; constructor <;> linarith
  have hdown : ⌊-(k : ℚ) + 1 / 2⌋ = -k := by
    rw [Int.floor_eq_iff]; push_cast; constructor <;> linarith
  unfold cround
  split
  · exact hup
  · rw [hdown, neg_neg]

theorem IsInt.cround_eq {x : ℚ} (h : IsInt x) : (cround x : ℚ) = x := by
  obtain ⟨k, rfl⟩ := h
  rw [cround_intCast]

theorem isInt_zero : IsInt 0 := ⟨0, Int.cast_zero.symm⟩

theorem IsInt.add {x y : ℚ} (hx : IsInt x) (hy : IsInt y) : IsInt (x + y) := by
  obtain ⟨a, rfl⟩ := hx
  obtain ⟨b, rfl⟩ := hy
  exact ⟨a + b, (Int.cast_add a b).symm⟩

theorem IsInt.sub {x y : ℚ} (hx : IsInt x) (hy : IsInt y) : IsInt (x - y) := by
  obtain ⟨a, rfl⟩ := hx
  obtain ⟨b, rfl⟩ := hy
  exact ⟨a - b, (Int.cast_sub a b).symm⟩

theorem cround_le (x : ℚ) : (cround x : ℚ) ≤ x + 1 / 2 := by
  unfold cround
  split
  · exact Int.floor_le _
  · have := Int.lt_floor_add_one (-x + 1 / 2)
    push_cast
    linarith

theorem le_cround (x : ℚ) : x - 1 / 2 ≤ cround x := by
  unfold cround
  split
  · have := Int.lt_floor_add_one (x + 1 / 2)
    linarith
  · have := Int.floor_le (-x + 1 / 2)
    push_cast
    linarith

theorem cround_nonneg {x : ℚ} (h : 0 ≤ x) : 0 ≤ cround x := by
  rw [cround, if_pos h]
  exact Int.floor_nonneg.2 (by linarith)

theorem cround_mono {x y : ℚ} (h : x ≤ y) : cround x ≤ cround y := by
  unfold cround
  split <;> split
  · exact Int.floor_mono (by linarith)
  · linarith
  · have hx : 0 ≤ ⌊-x + 1 / 2⌋ := Int.floor_nonneg.2 (by linarith)
    have hy : 0 ≤ ⌊y + 1 / 2⌋ := Int.floor_nonneg.2 (by linarith)
    linarith
  · exact neg_le_neg (Int.floor_mono (by linarith))

end Graphviz
