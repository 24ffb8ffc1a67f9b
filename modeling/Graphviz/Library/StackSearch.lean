import Mathlib.Data.Fintype.Card

/-!
# A search with a stack and marks

A vertex is marked when it is put on the stack. A vertex that is taken from it is done, and those of
its neighbours that have no mark are put there. Marks may be left from earlier searches.
-/

namespace StackSearch

open Function List Relation

universe u

variable {α : Type u} [DecidableEq α]

/-- The marks, the stack with its top first, and the vertices that are done in their order. -/
structure State (α : Type u) where
  mark : α → Bool
  stack : List α
  done : List α

/-- A vertex is marked and put on the stack. -/
def State.push (s : State α) (x : α) : State α :=
  { s with mark := update s.mark x true, stack := x :: s.stack }

/-- The same unless it has a mark. -/
def State.pushNew (s : State α) (x : α) : State α :=
  if s.mark x then s else s.push x

/-- The vertex on top of the stack is done, and the others are left. -/
def State.finish (s : State α) (x : α) (stack : List α) : State α :=
  { s with stack := stack, done := s.done ++ [x] }

/-- The search goes on until the stack is empty. -/
def loop (adj : α → List α) : ℕ → State α → Option (State α)
  | 0, _ => none
  | fuel + 1, s =>
    match s.stack with
    | [] => some s
    | x :: stack => loop adj fuel ((adj x).foldl State.pushNew (s.finish x stack))

/-- A search from a vertex. -/
def search (adj : α → List α) (fuel : ℕ) (mark : α → Bool) (x : α) : Option (State α) :=
  loop adj fuel (State.push ⟨mark, [], []⟩ x)

/-- One vertex is a neighbour of the other. -/
def Next (adj : α → List α) (x y : α) : Prop :=
  y ∈ adj x

end StackSearch
