import Mathlib.Data.Fintype.Card
import Mathlib.Order.WellFounded

/-!
# Acyclic relations

A relation, read as the edges of a directed graph, is acyclic when no path of one or more edges
returns to its start. On a finite type this is well-foundedness in both directions; an edge into
a sink or out of a source closes no cycle; and a nonempty finite set each of whose members has a
successor in the set holds a cycle.
-/

namespace RelGraph

open Relation

universe u

variable {α : Type u} {r s : α → α → Prop}

/-- No path of one or more edges returns to its start. -/
def Acyclic (r : α → α → Prop) : Prop :=
  ∀ a, ¬ TransGen r a a

/-- Vertices without an outgoing edge. -/
def Sink (r : α → α → Prop) (a : α) : Prop :=
  ∀ b, ¬ r a b

/-- Vertices without an incoming edge. -/
def Source (r : α → α → Prop) (a : α) : Prop :=
  ∀ b, ¬ r b a

/-- A graph with fewer edges has no more cycles. -/
theorem Acyclic.mono (h : Acyclic s) (hrs : ∀ a b, r a b → s a b) : Acyclic r :=
  fun a ha => h a (TransGen.mono hrs a a ha)

/-- Reversing every edge keeps a graph acyclic. -/
theorem Acyclic.swap (h : Acyclic r) : Acyclic (Function.swap r) :=
  fun a ha => h a (transGen_swap.1 ha)

/-- A vertex from which every path ends lies on no cycle. -/
theorem not_transGen_of_acc {a : α} (h : Acc (Function.swap r) a) : ¬ TransGen r a a := by
  induction h with
  | intro a _ ih =>
    intro ha
    obtain ⟨b, hab, hba⟩ := TransGen.head'_iff.1 ha
    exact ih b hab (TransGen.tail' hba hab)

/-- A graph all of whose paths end is acyclic. -/
theorem acyclic_of_acc (h : ∀ a, Acc (Function.swap r) a) : Acyclic r :=
  fun a => not_transGen_of_acc (h a)

/-- On a finite type, every path of an acyclic graph starts somewhere. -/
theorem Acyclic.wellFounded [Finite α] (h : Acyclic r) : WellFounded r := by
  have : IsTrans α (TransGen r) := ⟨fun _ _ _ => TransGen.trans⟩
  have : Std.Irrefl (TransGen r) := ⟨h⟩
  have hwf : WellFounded (TransGen r) := Finite.wellFounded_of_trans_of_irrefl _
  exact Subrelation.wf TransGen.single hwf

/-- A nonempty set of vertices each of which has a predecessor in the set holds a cycle. -/
theorem not_acyclic_of_pred [Finite α] {S : α → Prop} {a : α} (ha : S a)
    (hS : ∀ x, S x → ∃ y, S y ∧ r y x) : ¬ Acyclic r := by
  intro h
  obtain ⟨m, hm, hmin⟩ := h.wellFounded.has_min {x | S x} ⟨a, ha⟩
  obtain ⟨y, hy, hym⟩ := hS m hm
  exact hmin y hy hym

/-- A nonempty set of vertices each of which has a successor in the set holds a cycle. -/
theorem not_acyclic_of_succ [Finite α] {S : α → Prop} {a : α} (ha : S a)
    (hS : ∀ x, S x → ∃ y, S y ∧ r x y) : ¬ Acyclic r :=
  fun h => not_acyclic_of_pred (r := Function.swap r) ha hS h.swap

/-- A path that uses one more edge, into a sink, either does not use it or ends in the sink. -/
theorem transGen_add_sink {m x a b : α} (hm : Sink r m) (hxm : x ≠ m)
    (hs : ∀ c d, s c d → r c d ∨ (c = x ∧ d = m)) (h : TransGen s a b) :
    TransGen r a b ∨ b = m := by
  induction h with
  | single hab =>
    obtain h | ⟨_, rfl⟩ := hs _ _ hab
    · exact Or.inl (.single h)
    · exact Or.inr rfl
  | tail _ hbc ih =>
    obtain h | ⟨_, rfl⟩ := hs _ _ hbc
    · obtain ih | rfl := ih
      · exact Or.inl (ih.tail h)
      · exact absurd h (hm _)
    · exact Or.inr rfl

/-- One more edge into a sink closes no cycle. -/
theorem Acyclic.add_sink {m x : α} (h : Acyclic r) (hm : Sink r m) (hxm : x ≠ m)
    (hs : ∀ c d, s c d → r c d ∨ (c = x ∧ d = m)) : Acyclic s := by
  intro a ha
  obtain hr | rfl := transGen_add_sink hm hxm hs ha
  · exact h a hr
  · obtain ⟨b, hab, _⟩ := TransGen.head'_iff.1 ha
    obtain hr | ⟨rfl, _⟩ := hs _ _ hab
    · exact hm b hr
    · exact hxm rfl

/-- One more edge out of a source closes no cycle. -/
theorem Acyclic.add_source {m x : α} (h : Acyclic r) (hm : Source r m) (hxm : x ≠ m)
    (hs : ∀ c d, s c d → r c d ∨ (c = m ∧ d = x)) : Acyclic s := by
  have hsw : Acyclic (Function.swap s) :=
    h.swap.add_sink (m := m) (x := x) hm hxm fun c d hcd =>
      (hs d c hcd).imp id And.symm
  exact hsw.swap

/-- Along a change of the graph that leaves alone the edges out of a closed set, paths from the
set still end. -/
theorem Acc.congr_closed {S : α → Prop} (hS : ∀ x y, S x → r x y → S y)
    (heq : ∀ x y, S x → s x y → r x y) {a : α} (ha : S a) (h : Acc (Function.swap r) a) :
    Acc (Function.swap s) a := by
  induction h with
  | intro x _ ih =>
    refine Acc.intro x fun y hxy => ?_
    have hr : r x y := heq x y ha hxy
    exact ih y hr (hS x y ha hr)

end RelGraph

/-!
## Finishing orders

A list of vertices, the last one first, to which a vertex is added only when its successors are
all there: in such a list each edge leads from an earlier place to a later one.
-/

namespace RelGraph

open List Relation

universe u

variable {α : Type u} {r : α → α → Prop} {l : List α} {a b : α}

/-- Every vertex of the list has all its successors behind it. -/
def Finishing (r : α → α → Prop) : List α → Prop
  | [] => True
  | a :: l => (∀ b, r a b → b ∈ l) ∧ Finishing r l

/-- The list is closed under successors. -/
theorem Finishing.mem (h : Finishing r l) (ha : a ∈ l) (hr : r a b) : b ∈ l := by
  induction l with
  | nil => exact absurd ha not_mem_nil
  | cons c l ih =>
    obtain rfl | ha := mem_cons.1 ha
    · exact mem_cons_of_mem _ (h.1 b hr)
    · exact mem_cons_of_mem _ (ih h.2 ha)

/-- An edge leads to a later place. -/
theorem Finishing.idxOf_lt [DecidableEq α] (h : Finishing r l) (hnodup : l.Nodup) (ha : a ∈ l)
    (hr : r a b) : l.idxOf a < l.idxOf b := by
  induction l with
  | nil => exact absurd ha not_mem_nil
  | cons c l ih =>
    obtain ⟨hc, hnodup⟩ := nodup_cons.1 hnodup
    obtain rfl | ha := mem_cons.1 ha
    · have hne : a ≠ b := fun heq => hc (heq ▸ h.1 b hr)
      rw [idxOf_cons_self, idxOf_cons_ne _ hne]
      exact Nat.succ_pos _
    · have hb : b ∈ l := h.2.mem ha hr
      rw [idxOf_cons_ne _ fun heq : c = a => hc (heq ▸ ha),
        idxOf_cons_ne _ fun heq : c = b => hc (heq ▸ hb)]
      exact Nat.succ_lt_succ (ih h.2 hnodup ha)

/-- The order depends on the edges from its vertices alone. -/
theorem Finishing.mono {r' : α → α → Prop} (h : Finishing r l)
    (hr : ∀ a ∈ l, ∀ b, r' a b → r a b) : Finishing r' l := by
  induction l with
  | nil => trivial
  | cons a l ih =>
    exact ⟨fun b hb => h.1 b (hr a mem_cons_self b hb),
      ih h.2 fun c hc => hr c (mem_cons_of_mem a hc)⟩

/-- A graph with a finishing order of all its vertices has no cycle. -/
theorem Finishing.acyclic [DecidableEq α] (h : Finishing r l) (hnodup : l.Nodup)
    (hall : ∀ a, a ∈ l) : Acyclic r := by
  have hlt : ∀ a b, TransGen r a b → l.idxOf a < l.idxOf b := by
    intro a b hab
    induction hab with
    | single hab => exact h.idxOf_lt hnodup (hall _) hab
    | tail _ hbc ih => exact ih.trans (h.idxOf_lt hnodup (hall _) hbc)
  exact fun a ha => lt_irrefl _ (hlt a a ha)

end RelGraph
