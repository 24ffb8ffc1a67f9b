import Mathlib.Order.Lattice

/-!
# The staircase of some demands

A demand asks for a large first or a large second coordinate. A point that meets all of them lies
above a step of the staircase: with the demands in the order of their first coordinates, a step
meets some of the first ones by its first coordinate and all others by its second one. So the best
points among those that meet the demands are among the steps.
-/

namespace Staircase

open List

universe u v

variable {α : Type u} {β : Type v} [LinearOrder α] [LinearOrder β] {L : List (α × β)} {p : α × β}
  {x x₀ : α} {y y₀ : β}

/-- The point meets all demands. -/
def MeetsAll (L : List (α × β)) (x : α) (y : β) : Prop :=
  ∀ p ∈ L, p.1 ≤ x ∨ p.2 ≤ y

/-- The least second coordinate that meets all demands. -/
def top (y₀ : β) : List (α × β) → β
  | [] => y₀
  | p :: L => max p.2 (top y₀ L)

/-- The steps: up to some demand the first coordinate is large, and from there on the second one. -/
def steps (x₀ : α) (y₀ : β) : List (α × β) → List (α × β)
  | [] => [(x₀, y₀)]
  | p :: L => (x₀, top y₀ (p :: L)) :: steps p.1 y₀ L

omit [LinearOrder α] in
theorem le_top : y₀ ≤ top y₀ L := by
  induction L with
  | nil => exact le_rfl
  | cons p L ih => exact ih.trans (le_max_right _ _)

omit [LinearOrder α] in
theorem le_top_of_mem (hp : p ∈ L) : p.2 ≤ top y₀ L := by
  induction L with
  | nil => cases hp
  | cons q L ih =>
    obtain rfl | hp := mem_cons.1 hp
    · exact le_max_left _ _
    · exact (ih hp).trans (le_max_right _ _)

omit [LinearOrder α] in
theorem top_le (h₀ : y₀ ≤ y) (h : ∀ p ∈ L, p.2 ≤ y) : top y₀ L ≤ y := by
  induction L with
  | nil => exact h₀
  | cons p L ih =>
    exact max_le (h p mem_cons_self) (ih fun q hq => h q (mem_cons_of_mem p hq))

/-- Every step meets all demands. -/
theorem steps_meet (hsorted : L.Pairwise fun p q => p.1 ≤ q.1) (hx₀ : ∀ p ∈ L, x₀ ≤ p.1)
    (hp : p ∈ steps x₀ y₀ L) : x₀ ≤ p.1 ∧ y₀ ≤ p.2 ∧ MeetsAll L p.1 p.2 := by
  induction L generalizing x₀ with
  | nil =>
    rw [mem_singleton.1 hp]
    exact ⟨le_rfl, le_rfl, nofun⟩
  | cons q L ih =>
    obtain ⟨hq, hsorted⟩ := pairwise_cons.1 hsorted
    obtain rfl | hp := mem_cons.1 hp
    · exact ⟨le_rfl, le_top, fun r hr => Or.inr (le_top_of_mem hr)⟩
    · obtain ⟨hx, hy, hmeets⟩ := ih hsorted hq hp
      exact ⟨(hx₀ q mem_cons_self).trans hx, hy, forall_mem_cons.2 ⟨Or.inl hx, hmeets⟩⟩

/-- A point that meets all demands lies above a step. -/
theorem exists_step_le (hsorted : L.Pairwise fun p q => p.1 ≤ q.1) (hx : x₀ ≤ x) (hy : y₀ ≤ y)
    (hmeets : MeetsAll L x y) : ∃ p ∈ steps x₀ y₀ L, p.1 ≤ x ∧ p.2 ≤ y := by
  induction L generalizing x₀ with
  | nil => exact ⟨_, mem_singleton_self _, hx, hy⟩
  | cons q L ih =>
    obtain ⟨hq, hsorted⟩ := pairwise_cons.1 hsorted
    obtain ⟨hmeets1, hmeets⟩ := forall_mem_cons.1 hmeets
    obtain hle | hlt := le_or_gt q.1 x
    · obtain ⟨p, hp, hle'⟩ := ih hsorted hle hmeets
      exact ⟨p, mem_cons_of_mem _ hp, hle'⟩
    · -- this demand and all after it are met by the second coordinate
      refine ⟨_, mem_cons_self, hx, top_le hy ?_⟩
      refine forall_mem_cons.2 ⟨hmeets1.resolve_left hlt.not_ge, fun r hr => ?_⟩
      exact (hmeets r hr).resolve_left (hlt.trans_le (hq r hr)).not_ge

end Staircase
