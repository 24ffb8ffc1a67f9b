import Mathlib.Data.List.Nodup

/-!
# Linked lists

A function that gives each member of a list the member after it, and one that gives the member
before it, as links of nodes do. Nodes are put in and taken out by changing the links of their
neighbours, which is all that these rules need to know of the new links. In a circular list the
member after the last one is the first.
-/

namespace Links

open List

universe u

variable {α : Type u} {f f' g g' : α → Option α} {L A B : List α} {v w : α}

/-- The function gives each member of the list the one after it. -/
def Next (L : List α) (f : α → Option α) : Prop :=
  ∀ A v B, L = A ++ v :: B → f v = B.head?

/-- Links in both directions: `f` to the member before, `g` to the member after. -/
structure Linked (L : List α) (f g : α → Option α) : Prop where
  prev : Next L.reverse f
  next : Next L g

theorem Linked.nil : Linked [] f g :=
  ⟨fun A v B h => by simp at h, fun A v B h => by simp at h⟩

theorem Linked.congr (h : Linked L f g) (hfg : ∀ v ∈ L, f' v = f v ∧ g' v = g v) :
    Linked L f' g' := by
  refine ⟨fun A v B hL => ?_, fun A v B hL => ?_⟩
  · have hv : v ∈ L := by rw [← mem_reverse, hL]; simp
    rw [(hfg v hv).1]
    exact h.prev A v B hL
  · rw [(hfg v (by rw [hL]; simp)).2]
    exact h.next A v B hL

/-- The neighbours of a member. -/
theorem Linked.at (h : Linked (A ++ v :: B) f g) : f v = A.getLast? ∧ g v = B.head? := by
  refine ⟨?_, h.next A v B rfl⟩
  have hrev := h.prev B.reverse v A.reverse (by simp)
  rw [hrev, head?_reverse]

/-- The member before the next one. -/
theorem Linked.next_eq_some (h : Linked L f g) (hv : v ∈ L) (hw : g v = some w) :
    w ∈ L ∧ f w = some v := by
  obtain ⟨A, B, rfl⟩ := append_of_mem hv
  rw [h.at.2] at hw
  obtain ⟨B, rfl⟩ := head?_eq_some_iff.1 hw
  have hcut : A ++ v :: w :: B = (A ++ [v]) ++ w :: B := by simp
  refine ⟨by simp, ?_⟩
  rw [hcut] at h
  rw [h.at.1, getLast?_concat]

/-- The member after the previous one. -/
theorem Linked.prev_eq_some (h : Linked L f g) (hw : w ∈ L) (hv : f w = some v) :
    v ∈ L ∧ g v = some w := by
  obtain ⟨A, B, rfl⟩ := append_of_mem hw
  rw [h.at.1] at hv
  obtain ⟨A, rfl⟩ := getLast?_eq_some_iff.1 hv
  have hcut : (A ++ [v]) ++ w :: B = A ++ v :: w :: B := by simp
  refine ⟨by simp, ?_⟩
  rw [hcut] at h
  rw [h.at.2]
  rfl

/-- Where a second member of a list taken apart at `v` stands. -/
theorem append_cons_cases {A' B' : List α} (h : A ++ v :: B = A' ++ w :: B') :
    (∃ C, A = A' ++ w :: C ∧ B' = C ++ v :: B) ∨ (A = A' ∧ v = w ∧ B = B') ∨
      ∃ C, A' = A ++ v :: C ∧ B = C ++ w :: B' := by
  obtain ⟨C, hA, hC⟩ | ⟨C, hA, hC⟩ := append_eq_append_iff.1 h
  · cases C with
    | nil =>
      rw [nil_append, cons.injEq] at hC
      exact Or.inr (Or.inl ⟨by rw [hA, append_nil], hC⟩)
    | cons c C =>
      rw [cons_append, cons.injEq] at hC
      exact Or.inr (Or.inr ⟨C, by rw [hA, hC.1], hC.2⟩)
  · cases C with
    | nil =>
      rw [nil_append, cons.injEq] at hC
      exact Or.inr (Or.inl ⟨by rw [hA, append_nil], hC.1.symm, hC.2.symm⟩)
    | cons c C =>
      rw [cons_append, cons.injEq] at hC
      exact Or.inl ⟨C, by rw [hA, hC.1], hC.2⟩

/-- Whether a member of a list is the last one. -/
theorem getLast?_eq_some_iff_nil {C : List α} (hn : (A ++ w :: C).Nodup) :
    (A ++ w :: C).getLast? = some w ↔ C = [] := by
  cases C with
  | nil => simp
  | cons c C =>
    have hw : w ∉ c :: C := (nodup_cons.1 (nodup_append.1 hn).2.1).1
    simp only [getLast?_append_cons, getLast?_cons_cons, reduceCtorEq, iff_false]
    exact fun h => hw (mem_of_getLast? h)

section
variable [DecidableEq α]

theorem Next.insert (h : Next (A ++ B) f) (hn : (A ++ v :: B).Nodup)
    (hf : ∀ w, f' w = if A.getLast? = some w then some v else if w = v then B.head? else f w) :
    Next (A ++ v :: B) f' := by
  obtain ⟨hA, hvB, hdisj⟩ := nodup_append.1 hn
  have hvA : v ∉ A := fun hv => hdisj v hv v mem_cons_self rfl
  have hlast : ∀ w, w ∉ A → A.getLast? ≠ some w := fun w hw h => hw (mem_of_getLast? h)
  intro A' w B' heq
  rw [hf]
  obtain ⟨C, rfl, rfl⟩ | ⟨rfl, rfl, rfl⟩ | ⟨C, rfl, rfl⟩ := append_cons_cases heq
  · have hwv : w ≠ v := fun hwv => hvA (hwv ▸ by simp)
    have hold := h A' w (C ++ B) (by simp)
    rw [if_neg hwv, hold]
    simp only [getLast?_eq_some_iff_nil hA]
    cases C with
    | nil => rfl
    | cons c C => rw [if_neg (cons_ne_nil _ _)]; rfl
  · rw [if_neg (hlast v hvA), if_pos rfl]
  · have hw : w ∈ v :: (C ++ w :: B') := by simp
    have hwA : w ∉ A := fun hwA => hdisj w hwA w hw rfl
    have hwv : w ≠ v := fun hwv => (nodup_cons.1 hvB).1 (hwv ▸ by simp)
    rw [if_neg (hlast w hwA), if_neg hwv]
    exact h (A ++ C) w B' (by simp)

theorem Next.remove (h : Next (A ++ v :: B) f) (hn : (A ++ v :: B).Nodup)
    (hf : ∀ w, f' w = if A.getLast? = some w then B.head? else f w) : Next (A ++ B) f' := by
  obtain ⟨hA, hvB, hdisj⟩ := nodup_append.1 hn
  intro A' w B' heq
  rw [hf]
  obtain ⟨C, rfl, rfl⟩ | ⟨C, rfl, hC⟩ := append_eq_append_iff.1 heq
  · have hw : w ∈ v :: (C ++ w :: B') := by simp
    have hwA : A.getLast? ≠ some w := fun h => hdisj w (mem_of_getLast? h) w hw rfl
    rw [if_neg hwA]
    exact h (A ++ v :: C) w B' (by simp)
  · cases C with
    | nil =>
      rw [nil_append] at hC
      subst hC
      have hwA : (A' ++ []).getLast? ≠ some w := fun h =>
        hdisj w (mem_of_getLast? h) w (by simp) rfl
      rw [if_neg hwA]
      exact h (A' ++ [v]) w B' (by simp)
    | cons c C =>
      rw [cons_append, cons.injEq] at hC
      obtain ⟨rfl, rfl⟩ := hC
      simp only [getLast?_eq_some_iff_nil hA]
      have hold := h A' w (C ++ v :: B) (by simp)
      rw [hold]
      cases C with
      | nil => rfl
      | cons c C => rw [if_neg (cons_ne_nil _ _)]; rfl

/-- A node is put between `A` and `B`. -/
theorem Linked.insert (h : Linked (A ++ B) f g) (hn : (A ++ v :: B).Nodup)
    (hf : ∀ w, f' w = if B.head? = some w then some v else if w = v then A.getLast? else f w)
    (hg : ∀ w, g' w = if A.getLast? = some w then some v else if w = v then B.head? else g w) :
    Linked (A ++ v :: B) f' g' := by
  refine ⟨?_, h.next.insert hn hg⟩
  have hprev := h.prev
  rw [reverse_append] at hprev
  rw [reverse_append, reverse_cons, append_assoc, singleton_append]
  refine hprev.insert ?_ fun w => ?_
  · rw [← nodup_reverse] at hn
    simpa using hn
  · rw [getLast?_reverse, head?_reverse]
    exact hf w

/-- A node is taken out, and its neighbours are linked. -/
theorem Linked.remove (h : Linked (A ++ v :: B) f g) (hn : (A ++ v :: B).Nodup)
    (hf : ∀ w, f' w = if B.head? = some w then A.getLast? else f w)
    (hg : ∀ w, g' w = if A.getLast? = some w then B.head? else g w) : Linked (A ++ B) f' g' := by
  refine ⟨?_, h.next.remove hn hg⟩
  have hprev := h.prev
  rw [reverse_append, reverse_cons, append_assoc, singleton_append] at hprev
  rw [reverse_append]
  refine hprev.remove ?_ fun w => ?_
  · rw [← nodup_reverse] at hn
    simpa using hn
  · rw [getLast?_reverse, head?_reverse]
    exact hf w

end

/-! ## Circular lists -/

/-- The function gives each member of the list the one after it, and the first to the last. -/
def Circular (L : List α) (f : α → Option α) : Prop :=
  ∀ A v B, L = A ++ v :: B → f v = (B ++ (A ++ [v])).head?

/-- A circular list may be read from any of its members on. -/
theorem Circular.rotate (h : Circular (A ++ B) f) : Circular (B ++ A) f := by
  intro C v D heq
  obtain ⟨E, hC, hA⟩ | ⟨E, hB, hD⟩ := append_eq_append_iff.1 heq
  · have hold := h E v (D ++ B) (by rw [hA]; simp)
    rw [hold, hC]
    simp
  · cases E with
    | nil =>
      rw [nil_append] at hD
      have hold := h [] v (D ++ B) (by rw [← hD]; simp)
      rw [hold, hB]
      simp
    | cons e E =>
      rw [cons_append, cons.injEq] at hD
      obtain ⟨rfl, rfl⟩ := hD
      have hold := h (A ++ C) v E (by rw [hB]; simp)
      rw [hold]
      simp

theorem Circular.congr (h : Circular L f) (hf : ∀ v ∈ L, f' v = f v) : Circular L f' := by
  intro A v B heq
  rw [hf v (by rw [heq]; simp)]
  exact h A v B heq

/-- The only member of a circular list is after itself. -/
theorem Circular.singleton (hv : f v = some v) : Circular [v] f := by
  intro A w B heq
  cases A with
  | nil =>
    obtain ⟨rfl, rfl⟩ := cons.inj heq
    exact hv
  | cons a A =>
    have hnil := (cons.inj heq).2
    simp at hnil

/-- A node is put after the first. -/
theorem Circular.insert (h : Circular (w :: L) f) (hv : f' v = f w) (hw : f' w = some v)
    (hf : ∀ u ∈ L, f' u = f u) : Circular (w :: v :: L) f' := by
  intro A u B heq
  cases A with
  | nil =>
    obtain ⟨rfl, rfl⟩ := cons.inj heq
    exact hw
  | cons a A =>
    rw [cons_append, cons.injEq] at heq
    obtain ⟨rfl, heq⟩ := heq
    cases A with
    | nil =>
      obtain ⟨rfl, rfl⟩ := cons.inj heq
      rw [hv, h [] w L rfl]
      cases L with
      | nil => rfl
      | cons b L => rfl
    | cons b A =>
      rw [cons_append, cons.injEq] at heq
      obtain ⟨rfl, rfl⟩ := heq
      rw [hf u (by simp), h (w :: A) u B rfl]
      cases B with
      | nil => rfl
      | cons c B => rfl

/-- The first node is taken out, and the last one is linked to the one after it. -/
theorem Circular.remove (h : Circular (v :: L) f) (hlast : ∀ u ∈ L.getLast?, f' u = f v)
    (hf : ∀ u ∈ L, L.getLast? ≠ some u → f' u = f u) (hn : L.Nodup) : Circular L f' := by
  intro A u B heq
  subst heq
  cases B with
  | nil =>
    rw [hlast u (by simp), h [] v _ rfl]
    cases A with
    | nil => rfl
    | cons a A => rfl
  | cons b B =>
    have hne : (A ++ u :: b :: B).getLast? ≠ some u := fun hu => by
      have hnil := (getLast?_eq_some_iff_nil hn).1 hu
      cases hnil
    rw [hf u (by simp) hne, h (v :: A) u (b :: B) rfl]
    rfl

end Links
