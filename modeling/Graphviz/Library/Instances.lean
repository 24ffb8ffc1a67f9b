import Mathlib

/-!
# Named instances

A numeral of `Fin n` carries a proof that `n` is not zero, and deciding membership in a list one
that equality is lawful. Definitions with several of these take the proofs by the names below.
-/

namespace Instances

theorem neZero_two : NeZero 2 := inferInstance

theorem neZero_three : NeZero 3 := inferInstance

theorem neZero_four : NeZero 4 := inferInstance

theorem atLeastTwo_two : Nat.AtLeastTwo 2 := inferInstance

theorem lawfulBEq_fin (n : ℕ) : LawfulBEq (Fin n) := inferInstance

theorem lawfulBEq_bytes : LawfulBEq (List UInt8) := inferInstance

theorem transCmp_nat : Std.TransCmp (compare : ℕ → ℕ → Ordering) := inferInstance

end Instances
