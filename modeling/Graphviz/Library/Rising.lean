import Mathlib

/-!
# Lists along which a function rises

Such a list has no item twice, is determined by its items, and orders them as the function does.
-/

universe u v

variable {α : Type u} {β : Type v} [LinearOrder β]

/-- The values of a function rise along a list. -/
def Rises (f : α → β) (L : List α) : Prop := L.Pairwise fun a b => f a < f b

instance (f : α → β) (L : List α) : Decidable (Rises f L) :=
  inferInstanceAs (Decidable (L.Pairwise fun a b => f a < f b))

namespace Rises

open List

variable {f g : α → β} {L M : List α} {x y : α}

theorem nodup (h : Rises f L) : L.Nodup :=
  List.Pairwise.imp (fun hlt heq => absurd (congrArg f heq) hlt.ne) h

theorem sublist (h : Rises f L) (hM : M.Sublist L) : Rises f M := List.Pairwise.sublist hM h

theorem congr (h : Rises f L) (hfg : ∀ a ∈ L, g a = f a) : Rises g L :=
  List.Pairwise.imp_of_mem (fun ha hb hlt => by rwa [hfg _ ha, hfg _ hb]) h

/-- One function rises along a list from one item to another when the other function does. -/
theorem lt_of_lt (hf : Rises f L) (hg : Rises g L) (hx : x ∈ L) (hy : y ∈ L) (hlt : f x < f y) :
    g x < g y := by
  obtain ⟨i, hi, rfl⟩ := getElem_of_mem hx
  obtain ⟨j, hj, rfl⟩ := getElem_of_mem hy
  obtain hij | rfl | hij := Nat.lt_trichotomy i j
  · exact pairwise_iff_getElem.1 hg i j hi hj hij
  · exact absurd hlt (lt_irrefl _)
  · exact absurd hlt (pairwise_iff_getElem.1 hf j i hj hi hij).asymm

/-- The function is one-to-one on the list. -/
theorem inj (h : Rises f L) (hx : x ∈ L) (hy : y ∈ L) (heq : f x = f y) : x = y := by
  obtain ⟨i, hi, rfl⟩ := getElem_of_mem hx
  obtain ⟨j, hj, rfl⟩ := getElem_of_mem hy
  obtain hij | rfl | hij := Nat.lt_trichotomy i j
  · exact absurd heq (pairwise_iff_getElem.1 h i j hi hj hij).ne
  · rfl
  · exact absurd heq.symm (pairwise_iff_getElem.1 h j i hj hi hij).ne

/-- An item with a lower value comes first. -/
theorem idxOf_lt [DecidableEq α] (h : Rises f L) (hx : x ∈ L) (hy : y ∈ L) (hlt : f x < f y) :
    L.idxOf x < L.idxOf y := by
  by_contra hle
  have hix := idxOf_lt_length_of_mem hx
  have hiy := idxOf_lt_length_of_mem hy
  obtain hji | heq := Nat.lt_or_eq_of_le (Nat.not_lt.1 hle)
  · have := pairwise_iff_getElem.1 h _ _ hiy hix hji
    rw [getElem_idxOf, getElem_idxOf] at this
    exact hlt.asymm this
  · rw [(idxOf_inj hy).1 heq] at hlt
    exact lt_irrefl _ hlt

/-- A list along which a function rises is determined by its items. -/
theorem eq_of_mem (hL : Rises f L) (hM : Rises f M) (hmem : ∀ a, a ∈ L ↔ a ∈ M) : L = M :=
  ((perm_ext_iff_of_nodup hL.nodup hM.nodup).2 hmem).eq_of_pairwise
    (fun _ _ _ _ hlt hgt => absurd hlt hgt.asymm) hL hM

end Rises
