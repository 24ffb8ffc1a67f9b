import Mathlib.Data.List.Basic

/-!
# Binary trees and their rotations

Trees with an object at each node, read from left to right. `popMin` and `popMax` rotate the
first or last object to the root, and `graft` hangs a tree at the leftmost place; a spine of
nodes with a hole is a list of frames that `plugRight` and `plugLeft` close.
-/

universe u

variable {α : Type u}

/-- Binary trees. -/
inductive BinTree (α : Type u) where
  | nil
  | node (left : BinTree α) (obj : α) (right : BinTree α)
  deriving DecidableEq, Repr

namespace BinTree

/-- The objects from left to right. -/
def toList : BinTree α → List α
  | nil => []
  | node l a r => l.toList ++ a :: r.toList

/-- The number of nodes. -/
def count : BinTree α → Nat
  | nil => 0
  | node l _ r => l.count + r.count + 1

/-- Rotate to the right while the root has a left child: the new root, and its right subtree. -/
def popMin : BinTree α → α → BinTree α → α × BinTree α
  | nil, a, r => (a, r)
  | node l b m, a, r => popMin l b (node m a r)

/-- Rotate to the left while the root has a right child: the new root, and its left subtree. -/
def popMax : BinTree α → α → BinTree α → BinTree α × α
  | l, a, nil => (l, a)
  | l, a, node m b r => popMax (node l a m) b r

/-- Hang a tree at the leftmost place. -/
def graft : BinTree α → BinTree α → BinTree α
  | nil, t => t
  | node l a r, t => node (graft l t) a r

/-- The objects met along right children. -/
def rightChain : BinTree α → List α
  | nil => []
  | node _ a r => a :: r.rightChain

/-- A tree without left children. -/
def ofList : List α → BinTree α
  | [] => nil
  | a :: l => node nil a (ofList l)

@[simp] theorem toList_nil : (nil : BinTree α).toList = [] := rfl

@[simp] theorem toList_node {l r : BinTree α} {a : α} :
    (node l a r).toList = l.toList ++ a :: r.toList := rfl

@[simp] theorem toList_ofList {l : List α} : (ofList l).toList = l := by
  induction l with
  | nil => rfl
  | cons a l ih => rw [ofList, toList_node, ih]; rfl

@[simp] theorem rightChain_ofList {l : List α} : (ofList l).rightChain = l := by
  induction l with
  | nil => rfl
  | cons a l ih => rw [ofList, rightChain, ih]

theorem toList_eq_nil {t : BinTree α} : t.toList = [] ↔ t = nil := by
  cases t with
  | nil => simp
  | node l a r => simp

theorem count_eq {t : BinTree α} : t.count = t.toList.length := by
  induction t with
  | nil => rfl
  | node l a r ihl ihr => rw [count, ihl, ihr, toList_node]; simp; omega

theorem toList_popMin {l r : BinTree α} {a : α} :
    (popMin l a r).1 :: (popMin l a r).2.toList = l.toList ++ a :: r.toList := by
  induction l generalizing a r with
  | nil => rfl
  | node l b m ihl _ => rw [popMin, ihl]; simp

theorem toList_popMax {l r : BinTree α} {a : α} :
    (popMax l a r).1.toList ++ [(popMax l a r).2] = l.toList ++ a :: r.toList := by
  induction r generalizing l a with
  | nil => rfl
  | node m b r _ ihr => rw [popMax, ihr]; simp

theorem toList_graft {s t : BinTree α} : (graft s t).toList = t.toList ++ s.toList := by
  induction s with
  | nil => simp [graft]
  | node l a r ihl _ => rw [graft, toList_node, ihl]; simp

/-- A search tree for an order: what is left of a node comes before it, what is right after it. -/
def Search (R : α → α → Prop) : BinTree α → Prop
  | nil => True
  | node l a r => l.Search R ∧ r.Search R ∧ (∀ x ∈ l.toList, R x a) ∧ ∀ y ∈ r.toList, R a y

/-- A tree is a search tree when it lists its objects in order. -/
theorem search_iff {R : α → α → Prop} (hR : ∀ a b c, R a b → R b c → R a c) {t : BinTree α} :
    t.Search R ↔ t.toList.Pairwise R := by
  induction t with
  | nil => exact ⟨fun _ => List.Pairwise.nil, fun _ => trivial⟩
  | node l a r ihl ihr =>
    rw [Search, ihl, ihr, toList_node, List.pairwise_append, List.pairwise_cons]
    constructor
    · intro ⟨hl, hr, hla, har⟩
      refine ⟨hl, ⟨har, hr⟩, fun x hx y hy => ?_⟩
      cases hy with
      | head => exact hla x hx
      | tail _ hy => exact hR x a y (hla x hx) (har y hy)
    · intro ⟨hl, ⟨har, hr⟩, hlr⟩
      exact ⟨hl, hr, fun x hx => hlr x hx a List.mem_cons_self, har⟩

/-! ## Spines -/

/-- Close a spine of nodes that each lack their right child, the deepest first. -/
def plugRight : List (BinTree α × α) → BinTree α → BinTree α
  | [], t => t
  | (l, a) :: fs, t => plugRight fs (node l a t)

/-- Close a spine of nodes that each lack their left child, the deepest first. -/
def plugLeft : List (α × BinTree α) → BinTree α → BinTree α
  | [], t => t
  | (a, r) :: fs, t => plugLeft fs (node t a r)

theorem toList_plugRight {fs : List (BinTree α × α)} {t : BinTree α} :
    (plugRight fs t).toList = (plugRight fs nil).toList ++ t.toList := by
  induction fs generalizing t with
  | nil => rfl
  | cons f fs ih => rw [plugRight, ih, plugRight, ih (t := node f.1 f.2 nil)]; simp

theorem toList_plugLeft {fs : List (α × BinTree α)} {t : BinTree α} :
    (plugLeft fs t).toList = t.toList ++ (plugLeft fs nil).toList := by
  induction fs generalizing t with
  | nil => simp [plugLeft]
  | cons f fs ih => rw [plugLeft, ih, plugLeft, ih (t := node nil f.1 f.2)]; simp

end BinTree
