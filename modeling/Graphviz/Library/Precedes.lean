import Mathlib.Data.List.Nodup
import Mathlib.Data.List.Perm.Subperm

/-!
# What comes before what in a list

`Before l a b`: an `a` of the list comes before a `b`. In a list without repetitions this is an
order, so that a relation that only goes back in such a list has no cycle. A list may grow by
insertions anywhere, which leaves what was before what.
-/

namespace Precedes

open List

variable {α : Type*} {l l₁ l₂ m : List α} {a b : α}

/-- An `a` of the list comes before a `b`. -/
def Before (l : List α) (a b : α) : Prop := List.Sublist [a, b] l

theorem Before.mono (h : Before l a b) (hl : l.Sublist m) : Before m a b := h.trans hl

theorem Before.mem_left (h : Before l a b) : a ∈ l := h.subset List.mem_cons_self

theorem Before.mem_right (h : Before l a b) : b ∈ l := h.subset (by simp)

theorem before_append (ha : a ∈ l₁) (hb : b ∈ l₂) : Before (l₁ ++ l₂) a b :=
  (singleton_sublist.2 ha).append (singleton_sublist.2 hb)

/-- What comes before an item of a list without repetitions is on its left. -/
theorem Before.mem_of_cons (h : Before (l₁ ++ b :: l₂) a b) (hn : (l₁ ++ b :: l₂).Nodup) :
    a ∈ l₁ := by
  have hb : b ∉ l₂ := (nodup_cons.1 hn.of_append_right).1
  obtain ⟨k1, k2, hk, h1, h2⟩ := sublist_append_iff.1 h
  cases k1 with
  | cons x k1 =>
    obtain ⟨rfl, -⟩ := cons.inj hk
    exact h1.subset mem_cons_self
  | nil =>
    rw [nil_append] at hk
    subst hk
    cases h2 with
    | cons _ h2 => exact absurd (h2.subset (by simp)) hb
    | cons_cons _ h2 => exact absurd (h2.subset (by simp)) hb

theorem Before.idxOf_lt [DecidableEq α] (h : Before l a b) (hn : l.Nodup) :
    l.idxOf a < l.idxOf b := by
  obtain ⟨l1, l2, rfl⟩ := append_of_mem h.mem_right
  have ha := h.mem_of_cons hn
  have hb : b ∉ l1 := fun hb => (nodup_append'.1 hn).2.2 hb mem_cons_self
  rw [idxOf_append_of_mem ha, idxOf_append_of_notMem hb, idxOf_cons_self]
  exact idxOf_lt_length_of_mem ha

theorem Before.asymm (h : Before l a b) (hn : l.Nodup) : ¬ Before l b a := fun h' => by
  classical exact Nat.lt_asymm (h.idxOf_lt hn) (h'.idxOf_lt hn)

theorem Before.ne (h : Before l a b) (hn : l.Nodup) : a ≠ b := fun hab => by
  subst hab
  exact h.asymm hn h

/-- A relation that goes back in a list has no cycle. -/
theorem not_transGen_self {R : α → α → Prop} (hn : l.Nodup) (hR : ∀ a b, R a b → Before l b a)
    (a : α) : ¬ Relation.TransGen R a a := by
  classical
  have hlt : ∀ b, Relation.TransGen R a b → l.idxOf b < l.idxOf a := by
    intro b h
    induction h with
    | single h => exact (hR _ _ h).idxOf_lt hn
    | tail _ h ih => exact Nat.lt_trans ((hR _ _ h).idxOf_lt hn) ih
  exact fun h => Nat.lt_irrefl _ (hlt a h)

/-- A split of a list stays one at the same item when the list grows: on the left of it there is
nothing of the right. -/
theorem exists_split (h : (l₁ ++ l₂).Sublist m) (hn : m.Nodup) :
    ∃ m₁ m₂, m = m₁ ++ m₂ ∧ m₂.head? = l₂.head? ∧ ∀ x ∈ m₁, x ∈ l₁ ++ l₂ → x ∈ l₁ := by
  cases l₂ with
  | nil => exact ⟨m, [], (append_nil m).symm, rfl, fun x _ hx => by simpa using hx⟩
  | cons f l₂ =>
    obtain ⟨m₁, m₂, rfl⟩ := append_of_mem (h.subset (by simp) : f ∈ m)
    refine ⟨m₁, f :: m₂, rfl, rfl, fun x hx hmem => ?_⟩
    obtain hx1 | hx2 := mem_append.1 hmem
    · exact hx1
    · have hxf : Before (m₁ ++ f :: m₂) x f := before_append hx mem_cons_self
      obtain rfl | hx2 := mem_cons.1 hx2
      · exact absurd rfl (hxf.ne hn)
      · have hfx : Before (l₁ ++ f :: l₂) f x :=
          ((singleton_sublist.2 hx2).cons_cons f).trans (sublist_append_right _ _)
        exact absurd hxf ((hfx.mono h).asymm hn)

/-- Of a list that lost nothing and gained nothing, nothing was moved. -/
theorem eq_of_sublist (h : l.Sublist m) (hn : m.Nodup) (hm : m ⊆ l) : m = l :=
  (h.eq_of_length_le (hn.subperm hm).length_le).symm

/-- What is left of a list without an item is left of the rest of the list. -/
theorem sublist_of_notMem (h : m.Sublist (l₁ ++ a :: l₂)) (ha : a ∉ m) : m.Sublist (l₁ ++ l₂) := by
  obtain ⟨k1, k2, rfl, h1, h2⟩ := sublist_append_iff.1 h
  cases h2 with
  | cons _ h2 => exact h1.append h2
  | cons_cons _ h2 => exact absurd (mem_append_right k1 mem_cons_self) ha

end Precedes
