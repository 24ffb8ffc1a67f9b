import Graphviz.Library.StackSearch
import Graphviz.Util.Fault

/-!
# Connected components with pinned nodes (`pack/ccomps.c`)

The search of `dfs`, and `pccomps`, which puts all that is connected to a pinned node in one
component. The others are the connected components without pinned nodes.
-/

namespace Graphviz.Ccomps

open Relation StackSearch

variable {n : ℕ}

/-- `dfs`: the nodes that `actionfn` is called for in their order, and the marks. -/
def dfs (others : Fin n → List (Fin n)) (mark : Fin n → Bool) (v : Fin n) :
    Except Fault (List (Fin n) × (Fin n → Bool)) :=
  match search others (Fintype.card (Fin n) + 1) mark v with
  | some s => .ok (s.done, s.mark)
  | none => .error .fuel

/-- The marks, and the component of the pinned nodes when there is one. -/
structure Pinned (n : ℕ) where
  mark : Fin n → Bool
  out : Option (List (Fin n))

/-- The body of the loop over the pinned nodes. -/
def pinnedNode (others : Fin n → List (Fin n)) (isPinned : Fin n → Bool) (s : Pinned n)
    (v : Fin n) : Except Fault (Pinned n) :=
  if s.mark v ∨ ¬isPinned v then .ok s
  else do
    let (nodes, mark) ← dfs others s.mark v
    .ok ⟨mark, some (s.out.getD [] ++ nodes)⟩

/-- The marks and the components. -/
structure Remaining (n : ℕ) where
  mark : Fin n → Bool
  ccs : List (List (Fin n))

/-- The body of the loop over the remaining nodes. -/
def remainingNode (others : Fin n → List (Fin n)) (s : Remaining n) (v : Fin n) :
    Except Fault (Remaining n) :=
  if s.mark v then .ok s
  else do
    let (nodes, mark) ← dfs others s.mark v
    .ok ⟨mark, s.ccs ++ [nodes]⟩

/-- `pccomps`: the components, and whether there are pinned nodes. -/
def pccomps (others : Fin n → List (Fin n)) (isPinned : Fin n → Bool) :
    Except Fault (List (List (Fin n)) × Bool) := do
  let s ← (List.finRange n).foldlM (pinnedNode others isPinned) ⟨fun _ => false, none⟩
  let r ← (List.finRange n).foldlM (remainingNode others) ⟨s.mark, s.out.toList⟩
  .ok (r.ccs, s.out.isSome)

/-- The nodes are connected. -/
def Connected (others : Fin n → List (Fin n)) : Fin n → Fin n → Prop :=
  ReflTransGen (Next others)

end Graphviz.Ccomps
