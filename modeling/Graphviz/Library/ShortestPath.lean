import Mathlib.Algebra.BigOperators.Group.Finset.Basic

/-!
# Walks with weights

A relation gives the weights of the edges of a graph, and a walk adds them from its source on; the
sum need not be associative, as where it is rounded. Dijkstra's argument: when the distances of a
set of vertices are known and every edge out of the set leads no nearer than a bound, no vertex
outside of the set is nearer than that.
-/

namespace ShortestPath

open Finset

universe u v

variable {α : Type u} {K : Type v} [AddZeroClass K] [LinearOrder K] [AddLeftMono K] [AddRightMono K]

/-- The walks from a source, with their weights. -/
inductive Walk (w : α → α → K → Prop) (source : α) : α → K → Prop where
  | nil : Walk w source source 0
  | snoc {u v : α} {x c : K} (h : Walk w source u x) (hc : w u v c) : Walk w source v (x + c)

variable {w : α → α → K → Prop} {source v : α} {S : α → Prop} {bound d x : K}

/-- The weight of every walk to the vertex is at least this. -/
def Nearest (w : α → α → K → Prop) (source v : α) (d : K) : Prop :=
  ∀ x, Walk w source v x → d ≤ x

omit [AddRightMono K] in
theorem Walk.nonneg (hw : ∀ u v c, w u v c → 0 ≤ c) (h : Walk w source v x) : 0 ≤ x := by
  induction h with
  | nil => exact le_rfl
  | snoc _ hc ih => exact add_nonneg ih (hw _ _ _ hc)

omit [AddRightMono K] in
theorem nearest_source (hw : ∀ u v c, w u v c → 0 ≤ c) : Nearest w source source 0 :=
  fun _ h => h.nonneg hw

/-- No vertex outside of the set is nearer than the edges that leave it. -/
theorem nearest_of_frontier {d : α → K} (hw : ∀ u v c, w u v c → 0 ≤ c) (hsource : S source)
    (hS : ∀ u, S u → Nearest w source u (d u))
    (hfrontier : ∀ u, S u → ∀ v c, w u v c → ¬S v → bound ≤ d u + c) (hv : ¬S v) :
    Nearest w source v bound := by
  intro x h
  induction h with
  | nil => exact absurd hsource hv
  | @snoc u v x c h hc ih =>
    obtain hu | hu := Classical.em (S u)
    · exact (hfrontier u hu v c hc hv).trans (add_le_add (hS u hu x h) le_rfl)
    · exact (ih hu).trans (le_add_of_nonneg_right (hw _ _ _ hc))

omit [LinearOrder K] [AddLeftMono K] [AddRightMono K] in
/-- A set that no edge leaves has all that walks reach. -/
theorem Walk.mem_of_closed (hsource : S source) (hclosed : ∀ u, S u → ∀ v c, w u v c → S v)
    (h : Walk w source v x) : S v := by
  induction h with
  | nil => exact hsource
  | snoc _ hc ih => exact hclosed _ ih _ _ hc

/-- Every walk has one over other edges that is not longer, when that holds of the walk of every
edge. -/
theorem Walk.replace {w' : α → α → K → Prop} (hw' : ∀ u v c, w' u v c → 0 ≤ c)
    (hedge : ∀ u v c, w u v c → w' u v c ∨ ∃ x ≤ c, Walk w' source v x) (h : Walk w source v x) :
    ∃ x' ≤ x, Walk w' source v x' := by
  induction h with
  | nil => exact ⟨0, le_rfl, .nil⟩
  | @snoc u v x c h hc ih =>
    obtain ⟨x', hle, hwalk⟩ := ih
    obtain hc' | ⟨y, hy, hwalk'⟩ := hedge u v c hc
    · exact ⟨x' + c, add_le_add hle le_rfl, .snoc hwalk hc'⟩
    · exact ⟨y, hy.trans (le_add_of_nonneg_left ((hwalk.nonneg hw').trans hle)), hwalk'⟩

omit [LinearOrder K] [AddLeftMono K] [AddRightMono K] in
/-- A walk over some of the edges. -/
theorem Walk.mono {w' : α → α → K → Prop} (hedge : ∀ u v c, w u v c → w' u v c)
    (h : Walk w source v x) : Walk w' source v x := by
  induction h with
  | nil => exact .nil
  | snoc _ hc ih => exact .snoc ih (hedge _ _ _ hc)

/-- The weight of a walk to the vertex that no other walk is below. -/
def Shortest (w : α → α → K → Prop) (source v : α) (d : K) : Prop :=
  Walk w source v d ∧ Nearest w source v d

omit [AddLeftMono K] [AddRightMono K] in
theorem Shortest.unique {d' : K} (h : Shortest w source v d) (h' : Shortest w source v d') :
    d = d' :=
  le_antisymm (h.2 _ h'.1) (h'.2 _ h.1)

section Reverse

variable {M : Type v} [AddCommMonoid M] {w : α → α → M → Prop} {s u v : α} {x y : M}

/-- One walk after another. -/
theorem Walk.trans (h : Walk w s u x) (h' : Walk w u v y) : Walk w s v (x + y) := by
  induction h' with
  | nil =>
    rw [add_zero]
    exact h
  | snoc _ hc ih =>
    rw [← add_assoc]
    exact .snoc ih hc

/-- Where the edges go both ways, so do the walks. -/
theorem Walk.reverse (hw : ∀ u v c, w u v c → w v u c) (h : Walk w s v x) : Walk w v s x := by
  induction h with
  | nil => exact .nil
  | @snoc u v x c _ hc ih =>
    have hedge : Walk w v u (0 + c) := .snoc .nil (hw u v c hc)
    rw [zero_add] at hedge
    rw [add_comm]
    exact hedge.trans ih

end Reverse

/-! ## What a search has left to do -/

open Classical in
/-- The work for the vertices that are not settled, each with its edges. -/
noncomputable def workLeft [Fintype α] (deg : α → ℕ) (S : α → Prop) : ℕ :=
  ∑ v, if S v then 0 else deg v + 2

theorem workLeft_settle [Fintype α] {deg : α → ℕ} {x : α} (hx : ¬S x) :
    workLeft deg (fun v => v = x ∨ S v) + (deg x + 2) = workLeft deg S := by
  classical
  rw [workLeft, workLeft, ← sum_erase_add _ _ (mem_univ x),
    ← sum_erase_add (a := x) _ _ (mem_univ x), if_pos (Or.inl rfl), if_neg hx,
    add_zero]
  congr 1
  refine sum_congr rfl fun v hv => ?_
  rw [or_iff_right (ne_of_mem_erase hv)]

end ShortestPath
