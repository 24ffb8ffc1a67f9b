import Mathlib

/-!
# Bytes in memory

A part of a list is read with `slice` and written over with `splice`; a number is laid out in bytes
with the least one first.
-/

namespace Bytes

open List Nat

universe u

variable {α : Type u} {l w v : List α} {i j n : Nat}

/-! ## Parts of a list -/

/-- The `n` items from `i` on. -/
def slice (l : List α) (i n : Nat) : List α :=
  (l.drop i).take n

/-- The list with the items from `i` on written over. -/
def splice (l : List α) (i : Nat) (w : List α) : List α :=
  l.take i ++ (w ++ l.drop (i + w.length))

theorem length_splice (h : i + w.length ≤ l.length) : (splice l i w).length = l.length := by
  rw [splice, length_append, length_append, length_take, length_drop]
  omega

theorem take_splice (h : i ≤ l.length) (hn : n ≤ i) : (splice l i w).take n = l.take n := by
  rw [splice, take_append_of_le_length (by rw [length_take]; omega), take_take,
    min_eq_left hn]

theorem drop_splice (h : i + w.length ≤ l.length) (hj : i + w.length ≤ j) :
    (splice l i w).drop j = l.drop j := by
  obtain ⟨k, rfl⟩ := Nat.exists_eq_add_of_le hj
  have hlen : (l.take i ++ w).length = i + w.length := by
    rw [length_append, length_take]
    omega
  rw [splice, ← append_assoc, ← drop_drop, drop_left' hlen, drop_drop]

/-- What was written is read. -/
theorem slice_splice (h : i ≤ l.length) : slice (splice l i w) i w.length = w := by
  have hlen : (l.take i).length = i := by rw [length_take, min_eq_left h]
  rw [slice, splice, drop_left' hlen, take_left]

/-- What was not written over is read as before. -/
theorem slice_splice_of_disjoint (h : i + w.length ≤ l.length)
    (hj : j + n ≤ i ∨ i + w.length ≤ j) : slice (splice l i w) j n = slice l j n := by
  obtain hj | hj := hj
  · rw [slice, slice, take_drop, take_drop, take_splice (by omega) hj]
  · rw [slice, slice, drop_splice h hj]

/-- A prefix is continued by what is written after it. -/
theorem prefix_splice (hv : v <+: l) : v ++ w <+: splice l v.length w := by
  rw [splice, ← prefix_iff_eq_take.1 hv, ← append_assoc]
  exact prefix_append _ _

/-! ## Numbers -/

/-- The number of some bytes, the least one first. -/
def toNum : List UInt8 → Nat
  | [] => 0
  | b :: bs => b.toNat + 256 * toNum bs

/-- A number in `k` bytes. -/
def ofNum : Nat → Nat → List UInt8
  | 0, _ => []
  | k + 1, x => .ofNat x :: ofNum k (x / 256)

@[simp] theorem length_ofNum (k x : Nat) : (ofNum k x).length = k := by
  induction k generalizing x with
  | zero => rfl
  | succ k ih => rw [ofNum, length_cons, ih]

/-- A number that has room is read as it was written. -/
theorem toNum_ofNum {k x : Nat} (h : x < 256 ^ k) : toNum (ofNum k x) = x := by
  induction k generalizing x with
  | zero => exact (lt_one_iff.1 h).symm
  | succ k ih =>
    rw [ofNum, toNum, ih (by rw [Nat.pow_succ] at h; omega), UInt8.toNat_ofNat']
    exact mod_add_div x 256

end Bytes
