import Graphviz.Library.BinTree
import Graphviz.Library.SortedSet

/-!
# Descents in binary trees

A descent goes down a tree by comparisons with the objects it meets, and ends at the object that
compares equal or below the last node. In a search tree it ends at the object that it is for. What
it finds in any other tree depends on the comparisons with the objects on its trail alone, so a
change of one object's key matters to the descents that meet the object and to its own.
-/

universe u v

namespace BinTree

open Function List SortedSet Std

variable {α : Type u} {K : Type v}

/-- The object at which a descent ends. -/
def find (c : α → Ordering) : BinTree α → Option α
  | nil => none
  | node l a r =>
    match c a with
    | .lt => find c l
    | .eq => some a
    | .gt => find c r

/-- The objects that a descent passes. -/
def trail (c : α → Ordering) : BinTree α → List α
  | nil => []
  | node l a r =>
    match c a with
    | .lt => a :: trail c l
    | .eq => []
    | .gt => a :: trail c r

variable {c c' : α → Ordering} {t l r : BinTree α} {a x y : α}

theorem find_lt (h : c a = .lt) : find c (node l a r) = find c l := by rw [find, h]

theorem find_eq (h : c a = .eq) : find c (node l a r) = some a := by rw [find, h]

theorem find_gt (h : c a = .gt) : find c (node l a r) = find c r := by rw [find, h]

theorem trail_lt (h : c a = .lt) : trail c (node l a r) = a :: trail c l := by rw [trail, h]

theorem trail_eq (h : c a = .eq) : trail c (node l a r) = [] := by rw [trail, h]

theorem trail_gt (h : c a = .gt) : trail c (node l a r) = a :: trail c r := by rw [trail, h]

/-- What a descent ends at is an object of the tree that compares equal. -/
theorem mem_of_find (h : find c t = some x) : x ∈ t.toList ∧ c x = .eq := by
  induction t with
  | nil => cases h
  | node l a r ihl ihr =>
    rw [toList_node, mem_append, mem_cons]
    cases ha : c a with
    | lt =>
      rw [find_lt ha] at h
      exact ⟨.inl (ihl h).1, (ihl h).2⟩
    | eq =>
      rw [find_eq ha] at h
      cases h
      exact ⟨.inr (.inl rfl), ha⟩
    | gt =>
      rw [find_gt ha] at h
      exact ⟨.inr (.inr (ihr h).1), (ihr h).2⟩

theorem mem_of_trail (h : a ∈ trail c t) : a ∈ t.toList ∧ c a ≠ .eq := by
  induction t with
  | nil => cases h
  | node l b r ihl ihr =>
    rw [toList_node, mem_append, mem_cons]
    cases hb : c b with
    | lt =>
      rw [trail_lt hb] at h
      cases h with
      | head => exact ⟨.inr (.inl rfl), by rw [hb]; nofun⟩
      | tail _ h => exact ⟨.inl (ihl h).1, (ihl h).2⟩
    | eq =>
      rw [trail_eq hb] at h
      cases h
    | gt =>
      rw [trail_gt hb] at h
      cases h with
      | head => exact ⟨.inr (.inl rfl), by rw [hb]; nofun⟩
      | tail _ h => exact ⟨.inr (.inr (ihr h).1), (ihr h).2⟩

/-- A descent that compares alike along the trail ends at the same object. -/
theorem find_congr (h : find c t = some x) (hx : c' x = .eq) (hc : ∀ a ∈ trail c t, c' a = c a) :
    find c' t = some x := by
  induction t with
  | nil => cases h
  | node l a r ihl ihr =>
    cases ha : c a with
    | lt =>
      rw [find_lt ha] at h
      rw [trail_lt ha] at hc
      rw [find_lt ((hc a mem_cons_self).trans ha)]
      exact ihl h fun b hb => hc b (mem_cons_of_mem _ hb)
    | eq =>
      rw [find_eq ha] at h
      cases h
      exact find_eq hx
    | gt =>
      rw [find_gt ha] at h
      rw [trail_gt ha] at hc
      rw [find_gt ((hc a mem_cons_self).trans ha)]
      exact ihr h fun b hb => hc b (mem_cons_of_mem _ hb)

/-- Two descents that end at the same object of a tree without repetitions compare alike along the
way. -/
theorem trail_unique (hnodup : t.toList.Nodup) (h : find c t = some x) (h' : find c' t = some x) :
    ∀ a ∈ trail c t, c' a = c a := by
  induction t with
  | nil => cases h
  | node l a r ihl ihr =>
    rw [toList_node, nodup_append, nodup_cons] at hnodup
    obtain ⟨hl, ⟨har, hr⟩, hlr⟩ := hnodup
    have hleft : find c l = some x → c' a = .lt := by
      intro hx
      have hmem := (mem_of_find hx).1
      cases ha : c' a with
      | lt => rfl
      | eq =>
        rw [find_eq ha] at h'
        cases h'
        exact absurd rfl (hlr x hmem x mem_cons_self)
      | gt =>
        rw [find_gt ha] at h'
        exact absurd rfl (hlr x hmem x (mem_cons_of_mem _ (mem_of_find h').1))
    have hright : find c r = some x → c' a = .gt := by
      intro hx
      have hmem := (mem_of_find hx).1
      cases ha : c' a with
      | lt =>
        rw [find_lt ha] at h'
        exact absurd rfl (hlr x (mem_of_find h').1 x (mem_cons_of_mem _ hmem))
      | eq =>
        rw [find_eq ha] at h'
        cases h'
        exact absurd hmem har
      | gt => rfl
    cases ha : c a with
    | lt =>
      rw [find_lt ha] at h
      rw [find_lt (hleft h)] at h'
      rw [trail_lt ha]
      intro b hb
      cases hb with
      | head => exact (hleft h).trans ha.symm
      | tail _ hb => exact ihl hl h h' b hb
    | eq =>
      rw [trail_eq ha]
      nofun
    | gt =>
      rw [find_gt ha] at h
      rw [find_gt (hright h)] at h'
      rw [trail_gt ha]
      intro b hb
      cases hb with
      | head => exact (hright h).trans ha.symm
      | tail _ hb => exact ihr hr h h' b hb

/-- Whether another descent ends at the same object. -/
theorem find_iff (hnodup : t.toList.Nodup) (h : find c t = some x) :
    find c' t = some x ↔ c' x = .eq ∧ ∀ a ∈ trail c t, c' a = c a :=
  ⟨fun h' => ⟨(mem_of_find h').2, trail_unique hnodup h h'⟩, fun ⟨hx, hc⟩ => find_congr h hx hc⟩

/-! ## Search trees -/

section

variable {key : α → K} {cmp : K → K → Ordering} [TransCmp cmp]

theorem not_lt_self (k : K) : ¬ cmp k k = .lt := by
  have hself : cmp k k = .eq := ReflCmp.compare_self
  rw [hself]
  nofun

/-- What is below a node of a search tree is on its side of the node. -/
theorem sorted_sides (h : Sorted key cmp (l.toList ++ a :: r.toList)) :
    (∀ x ∈ l.toList, cmp (key x) (key a) = .lt) ∧ (∀ x ∈ r.toList, cmp (key x) (key a) = .gt) ∧
      Sorted key cmp l.toList ∧ Sorted key cmp r.toList := by
  obtain ⟨hl, hr, hlr⟩ := pairwise_append.1 h
  obtain ⟨har, hr⟩ := pairwise_cons.1 hr
  exact ⟨fun x hx => hlr x hx a mem_cons_self, fun x hx => OrientedCmp.gt_of_lt (har x hx),
    hl, hr⟩

/-- The objects of a list in order are in order by other keys, too, when each is before the same
objects by them. -/
theorem sorted_iff_of_sorted {K' : Type*} {S : List α} {key' : α → K'}
    {cmp' : K' → K' → Ordering} (h : Sorted key cmp S) :
    Sorted key' cmp' S ↔ ∀ a ∈ S, ∀ b ∈ S, cmp (key a) (key b) = .lt →
      cmp' (key' a) (key' b) = .lt := by
  constructor
  · intro h'
    have hkeep : S.Pairwise fun a b => cmp (key a) (key b) = .lt → cmp' (key' a) (key' b) = .lt :=
      Pairwise.imp (fun {a b} hlt => fun _ : cmp (key a) (key b) = .lt => hlt) h'
    refine Pairwise.forall_of_forall_of_flip (fun a _ hlt => absurd hlt (not_lt_self _))
      hkeep (Pairwise.imp (fun {a b} hlt hlt' => ?_) h)
    rw [OrientedCmp.gt_of_lt hlt] at hlt'
    cases hlt'
  · exact fun hall => Pairwise.imp_of_mem (fun ha hb hlt => hall _ ha _ hb hlt) h

/-- The objects of a search tree are distinct. -/
theorem sorted_nodup (h : Sorted key cmp t.toList) : t.toList.Nodup := by
  refine Pairwise.imp ?_ h
  rintro a _ hab rfl
  exact not_lt_self _ hab

/-- The descent for an object's key in a search tree ends at the object. -/
theorem find_key (h : Sorted key cmp t.toList) (hx : x ∈ t.toList) :
    find (fun a => cmp (key x) (key a)) t = some x := by
  induction t with
  | nil => cases hx
  | node l a r ihl ihr =>
    obtain ⟨hla, hra, hl, hr⟩ := sorted_sides h
    rw [toList_node, mem_append, mem_cons] at hx
    obtain hx | rfl | hx := hx
    · rw [find_lt (c := fun a => cmp (key x) (key a)) (hla x hx)]
      exact ihl hl hx
    · exact find_eq ReflCmp.compare_self
    · rw [find_gt (c := fun a => cmp (key x) (key a)) (hra x hx)]
      exact ihr hr hx

/-- A tree in which the descents for the keys of all objects end at them is a search tree. -/
theorem sorted_of_find (hnodup : t.toList.Nodup)
    (h : ∀ x ∈ t.toList, find (fun a => cmp (key x) (key a)) t = some x) :
    Sorted key cmp t.toList := by
  induction t with
  | nil => exact Pairwise.nil
  | node l a r ihl ihr =>
    rw [toList_node] at hnodup h ⊢
    obtain ⟨hl, hr, hlr⟩ := nodup_append.1 hnodup
    obtain ⟨hra, hr⟩ := nodup_cons.1 hr
    have hdisj : ∀ x ∈ l.toList, x ∉ a :: r.toList := fun x hx hx' => hlr x hx x hx' rfl
    have hleft : ∀ x ∈ l.toList, cmp (key x) (key a) = .lt ∧
        find (fun a => cmp (key x) (key a)) l = some x := by
      intro x hx
      have hx' := h x (mem_append_left _ hx)
      cases hc : cmp (key x) (key a) with
      | lt => exact ⟨rfl, by rwa [find_lt (c := fun a => cmp (key x) (key a)) hc] at hx'⟩
      | eq =>
        rw [find_eq (c := fun a => cmp (key x) (key a)) hc, Option.some.injEq] at hx'
        exact absurd (hx' ▸ mem_cons_self) (hdisj x hx)
      | gt =>
        rw [find_gt (c := fun a => cmp (key x) (key a)) hc] at hx'
        exact absurd (mem_cons_of_mem _ (mem_of_find hx').1) (hdisj x hx)
    have hright : ∀ x ∈ r.toList, cmp (key x) (key a) = .gt ∧
        find (fun a => cmp (key x) (key a)) r = some x := by
      intro x hx
      have hx' := h x (mem_append_right _ (mem_cons_of_mem _ hx))
      cases hc : cmp (key x) (key a) with
      | lt =>
        rw [find_lt (c := fun a => cmp (key x) (key a)) hc] at hx'
        exact absurd (mem_cons_of_mem _ hx) (hdisj x (mem_of_find hx').1)
      | eq =>
        rw [find_eq (c := fun a => cmp (key x) (key a)) hc, Option.some.injEq] at hx'
        exact absurd (hx' ▸ hx) hra
      | gt => exact ⟨rfl, by rwa [find_gt (c := fun a => cmp (key x) (key a)) hc] at hx'⟩
    have hbefore : ∀ y ∈ r.toList, cmp (key a) (key y) = .lt := fun y hy =>
      OrientedCmp.lt_of_gt (hright y hy).1
    refine pairwise_append.2 ⟨ihl hl fun x hx => (hleft x hx).2,
      pairwise_cons.2 ⟨hbefore, ihr hr fun x hx => (hright x hx).2⟩, fun x hx y hy => ?_⟩
    obtain rfl | hy := mem_cons.1 hy
    · exact (hleft x hx).1
    · exact TransCmp.lt_trans (hleft x hx).1 (hbefore y hy)

/-- A descent for a key that several objects may have ends at one of them, where the objects stand
in the order of the comparisons. -/
theorem exists_find (h : t.toList.Pairwise fun a b => (c a = .lt → c b = .lt) ∧
    (c b = .gt → c a = .gt)) (hx : x ∈ t.toList) (hc : c x = .eq) : ∃ y, find c t = some y := by
  induction t with
  | nil => cases hx
  | node l a r ihl ihr =>
    obtain ⟨hl, hr, hlr⟩ := pairwise_append.1 h
    obtain ⟨har, hr⟩ := pairwise_cons.1 hr
    rw [toList_node, mem_append, mem_cons] at hx
    cases ha : c a with
    | lt =>
      rw [find_lt ha]
      refine ihl hl ?_
      obtain hx | rfl | hx := hx
      · exact hx
      · cases ha.symm.trans hc
      · cases ((har x hx).1 ha).symm.trans hc
    | eq => exact ⟨a, find_eq ha⟩
    | gt =>
      rw [find_gt ha]
      refine ihr hr ?_
      obtain hx | rfl | hx := hx
      · cases ((hlr x hx a mem_cons_self).2 ha).symm.trans hc
      · cases ha.symm.trans hc
      · exact hx

/-- Of two objects of a search tree one is on the trail of the other, or an object between them is
on the trails of both. -/
theorem trail_meet (h : Sorted key cmp t.toList) (hx : x ∈ t.toList) (hy : y ∈ t.toList)
    (hxy : cmp (key x) (key y) = .lt) :
    x ∈ trail (fun a => cmp (key y) (key a)) t ∨ y ∈ trail (fun a => cmp (key x) (key a)) t ∨
      ∃ a ∈ trail (fun a => cmp (key x) (key a)) t, a ∈ trail (fun a => cmp (key y) (key a)) t ∧
        cmp (key x) (key a) = .lt ∧ cmp (key a) (key y) = .lt := by
  induction t with
  | nil => cases hx
  | node l a r ihl ihr =>
    obtain ⟨hla, hra, hl, hr⟩ := sorted_sides h
    rw [toList_node, mem_append, mem_cons] at hx hy
    obtain hx | rfl | hx := hx
    · have hxa := hla x hx
      rw [trail_lt (c := fun a => cmp (key x) (key a)) hxa]
      obtain hy | rfl | hy := hy
      · rw [trail_lt (c := fun a => cmp (key y) (key a)) (hla y hy)]
        obtain h | h | ⟨b, hb, hb', hlt⟩ := ihl hl hx hy
        · exact .inl (mem_cons_of_mem _ h)
        · exact .inr (.inl (mem_cons_of_mem _ h))
        · exact .inr (.inr ⟨b, mem_cons_of_mem _ hb, mem_cons_of_mem _ hb', hlt⟩)
      · exact .inr (.inl mem_cons_self)
      · have hya := hra y hy
        rw [trail_gt (c := fun a => cmp (key y) (key a)) hya]
        exact .inr (.inr ⟨a, mem_cons_self, mem_cons_self, hxa, OrientedCmp.lt_of_gt hya⟩)
    · obtain hy | rfl | hy := hy
      · have hya := hla y hy
        rw [OrientedCmp.gt_of_lt hya] at hxy
        cases hxy
      · exact absurd hxy (not_lt_self _)
      · rw [trail_gt (c := fun a => cmp (key y) (key a)) (hra y hy)]
        exact .inl mem_cons_self
    · have hxa := hra x hx
      have hya : cmp (key y) (key a) = .gt := OrientedCmp.gt_of_lt
        (TransCmp.lt_trans (OrientedCmp.lt_of_gt hxa) hxy)
      obtain hy | rfl | hy := hy
      · rw [hla y hy] at hya
        cases hya
      · exact absurd (OrientedCmp.lt_of_gt hya) (not_lt_self _)
      · rw [trail_gt (c := fun a => cmp (key x) (key a)) hxa,
          trail_gt (c := fun a => cmp (key y) (key a)) hya]
        obtain h | h | ⟨b, hb, hb', hlt⟩ := ihr hr hx hy
        · exact .inl (mem_cons_of_mem _ h)
        · exact .inr (.inl (mem_cons_of_mem _ h))
        · exact .inr (.inr ⟨b, mem_cons_of_mem _ hb, mem_cons_of_mem _ hb', hlt⟩)

/-! ## A change of one key -/

/-- A key strictly between two others, whichever of them is the smaller. -/
def Between (cmp : K → K → Ordering) (a b k : K) : Prop :=
  cmp a k = .lt ∧ cmp k b = .lt ∨ cmp b k = .lt ∧ cmp k a = .lt

/-- Two keys are on the same side of a third that is not between them. -/
theorem compare_iff_not_between {a b k : K} (ha : cmp a k ≠ .eq) (hb : cmp b k ≠ .eq) :
    cmp b k = cmp a k ↔ ¬ Between cmp a b k := by
  have hswap : cmp k a = (cmp a k).swap := OrientedCmp.eq_swap
  have hswap' : cmp k b = (cmp b k).swap := OrientedCmp.eq_swap
  rw [Between, hswap, hswap']
  cases hak : cmp a k with
  | eq => exact absurd hak ha
  | lt =>
    cases hbk : cmp b k with
    | eq => exact absurd hbk hb
    | lt => simp
    | gt => simp
  | gt =>
    cases hbk : cmp b k with
    | eq => exact absurd hbk hb
    | lt => simp
    | gt => simp

theorem swap_iff_not_between {a b k : K} (ha : cmp a k ≠ .eq) (hb : cmp b k ≠ .eq) :
    cmp k b = cmp k a ↔ ¬ Between cmp a b k := by
  have hswap : cmp k a = (cmp a k).swap := OrientedCmp.eq_swap
  have hswap' : cmp k b = (cmp b k).swap := OrientedCmp.eq_swap
  rw [← compare_iff_not_between ha hb, hswap, hswap', Ordering.swap_inj]

variable [DecidableEq α] {b : K}

/-- Where an object has got a new key, a descent for the key ends at it if no key on the trail of
the old one is between the two. -/
theorem find_rekey_self (h : Sorted key cmp t.toList) (hx : x ∈ t.toList)
    (hb : ∀ a ∈ t.toList, cmp b (key a) ≠ .eq) :
    find (fun a => cmp b (Function.update key x b a)) t = some x ↔
      ∀ a ∈ trail (fun a => cmp (key x) (key a)) t, ¬ Between cmp (key x) b (key a) := by
  rw [find_iff (sorted_nodup h) (find_key h hx), update_self]
  refine (and_iff_right ReflCmp.compare_self).trans (forall₂_congr fun a ha => ?_)
  obtain ⟨hmem, hne⟩ := mem_of_trail ha
  have hax : a ≠ x := by
    rintro rfl
    exact hne ReflCmp.compare_self
  rw [update_of_ne hax]
  exact compare_iff_not_between hne (hb a hmem)

/-- A descent for another object's key ends at that object unless it meets the object with the new
key and the other's is between the old and the new one. -/
theorem find_rekey_of_ne (h : Sorted key cmp t.toList) (hy : y ∈ t.toList) (hyx : y ≠ x)
    (hb : ∀ a ∈ t.toList, cmp b (key a) ≠ .eq) :
    find (fun a => cmp (key y) (Function.update key x b a)) t = some y ↔
      (x ∈ trail (fun a => cmp (key y) (key a)) t → ¬ Between cmp (key x) b (key y)) := by
  rw [find_iff (sorted_nodup h) (find_key h hy), update_of_ne hyx]
  have hback : cmp b (key y) ≠ .eq := hb y hy
  have hmeets : x ∈ trail (fun a => cmp (key y) (key a)) t → cmp (key x) (key y) ≠ .eq :=
    fun hx heq => (mem_of_trail hx).2 (OrientedCmp.eq_symm heq)
  refine (and_iff_right ReflCmp.compare_self).trans ⟨fun hall hx => ?_, fun hall a ha => ?_⟩
  · have heq := hall x hx
    rw [update_self] at heq
    exact (swap_iff_not_between (hmeets hx) hback).1 heq
  · by_cases hax : a = x
    · subst hax
      rw [update_self]
      exact (swap_iff_not_between (hmeets ha) hback).2 (hall ha)
    · rw [update_of_ne hax]

/-- Where an object has got a new key, the object and the others that `P` holds of are found by
their keys if and only if no key between the old and the new one is that of an object that `P` holds
of, or that is on the trail of the old key. -/
theorem find_rekey_iff (h : Sorted key cmp t.toList) (hx : x ∈ t.toList)
    (hb : ∀ a ∈ t.toList, cmp b (key a) ≠ .eq) (P : α → Prop) :
    (find (fun a => cmp b (Function.update key x b a)) t = some x ∧
      ∀ y ∈ t.toList, y ≠ x → P y →
        find (fun a => cmp (key y) (Function.update key x b a)) t = some y) ↔
      ∀ y ∈ t.toList, Between cmp (key x) b (key y) →
        ¬ P y ∧ y ∉ trail (fun a => cmp (key x) (key a)) t := by
  rw [find_rekey_self h hx hb]
  constructor
  · rintro ⟨hself, hothers⟩ y hy hbetween
    have hmet : y ∉ trail (fun a => cmp (key x) (key a)) t := fun hy' => hself y hy' hbetween
    refine ⟨fun hP => ?_, hmet⟩
    have hyx : y ≠ x := by
      rintro rfl
      obtain ⟨hlt, -⟩ | ⟨-, hlt⟩ := hbetween
      · exact not_lt_self _ hlt
      · exact not_lt_self _ hlt
    have hfree := (find_rekey_of_ne h hy hyx hb).1 (hothers y hy hyx hP)
    have hx' : x ∉ trail (fun a => cmp (key y) (key a)) t := fun hx' => hfree hx' hbetween
    -- an object that parts the two is between them, and so between the keys
    obtain ⟨hxy, hyb⟩ | ⟨hby, hyx⟩ := hbetween
    · obtain hmeet | hmeet | ⟨a, ha, -, hxa, hay⟩ := trail_meet h hx hy hxy
      · exact hx' hmeet
      · exact hmet hmeet
      · exact hself a ha (.inl ⟨hxa, TransCmp.lt_trans hay hyb⟩)
    · obtain hmeet | hmeet | ⟨a, -, ha, hya, hax⟩ := trail_meet h hy hx hyx
      · exact hmet hmeet
      · exact hx' hmeet
      · exact hself a ha (.inr ⟨TransCmp.lt_trans hby hya, hax⟩)
  · intro hall
    refine ⟨fun a ha hbetween => ?_, fun y hy hyx hP => ?_⟩
    · exact (hall a (mem_of_trail ha).1 hbetween).2 ha
    · rw [find_rekey_of_ne h hy hyx hb]
      exact fun _ hbetween => (hall y hy hbetween).1 hP

end

end BinTree
