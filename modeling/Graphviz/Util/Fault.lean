import Graphviz.Library.Outcome

/-!
# How C code fails

The ways in which a modelled function ends without returning, `assert`, and the two codes by which
a function says how it went.
-/

namespace Graphviz

open Outcome

/-- How an operation ends when it does not return: a failed `assert`, `graphviz_exit`,
`abort`, or an access to memory that is not there. `fuel` is the model's own: a recursion of
the source that the model bounds did not end within the bound. -/
inductive Fault where
  | assertion
  | exitFailure
  | abort
  | segfault
  | fuel
  deriving DecidableEq, Repr

/-- `SUCCESS` and `FAILURE`. -/
inductive Status where
  | SUCCESS
  | FAILURE
  deriving DecidableEq, Repr

/-- `assert`. -/
def assert (p : Prop) [Decidable p] : Except Fault Unit :=
  if p then .ok () else .error .assertion

/-- An `assert` that holds is passed. -/
theorem Meets.assert {β : Type} {p : Prop} [Decidable p] {f : Unit → Except Fault β}
    {P : β → Prop} {E : Fault → Prop} (hp : p) (h : Meets (f ()) P E) :
    Meets (assert p >>= f) P E := by
  rw [Graphviz.assert, if_pos hp]; exact h

/-- What is asserted holds after the `assert`. -/
theorem assert_eq_ok {p : Prop} [Decidable p] {u : Unit} (h : assert p = .ok u) : p := by
  unfold assert at h
  split at h
  · assumption
  · cases h

end Graphviz
