import Graphviz.Library.SortedSet
import Mathlib

/-!
# Sets that cover one another

A list of finite sets, the nearest first. `nearest` looks a key up in the nearest set that has
it; `Overlay Ss U` says that `U` is the union in which the nearest object stands for each key.
`leastOf` is the least of one candidate from each set, the nearest among equals, and it is the
least object of the union when each candidate is the least of its own set.
-/

namespace SortedSet

open List Std

universe u v

variable {α : Type u} {K : Type v} {key : α → K} {cmp : K → K → Ordering}

section
variable (key cmp)

/-- The object of the key in the nearest set that has one. -/
def nearest (k : K) : List (List α) → Option α
  | [] => none
  | S :: Ss =>
    match lookup key cmp k S with
    | some a => some a
    | none => nearest k Ss

/-- The union of the sets, with the nearest object for each key, in order. -/
structure Overlay (Ss : List (List α)) (U : List α) : Prop where
  sorted : Sorted key cmp U
  mem : ∀ a, a ∈ U ↔ nearest key cmp (key a) Ss = some a

/-- Keep the candidate, or take a new one that comes strictly before it. -/
def lesser : Option α → Option α → Option α
  | n, none => n
  | none, some o => some o
  | some n, some o => if cmp (key o) (key n) = .lt then some o else some n

/-- The least candidate, the nearest among equals. -/
def leastOf (os : List (Option α)) : Option α :=
  os.foldl (lesser key cmp) none

end

variable {k : K} {S U : List α} {Ss : List (List α)}
  {a b : α}

/-! ## The union -/

theorem Sorted.reverse (hS : Sorted key cmp S) : Sorted key (fun x y => cmp y x) S.reverse :=
  pairwise_reverse.2 hS

theorem lookup_eq_none : lookup key cmp k S = none ↔ ∀ a ∈ S, cmp k (key a) ≠ .eq := by
  rw [lookup, find?_eq_none]
  simp

theorem nearest_cons (h : lookup key cmp k S = none) :
    nearest key cmp k (S :: Ss) = nearest key cmp k Ss := by
  rw [nearest, h]

theorem nearest_cons_some (h : lookup key cmp k S = some a) :
    nearest key cmp k (S :: Ss) = some a := by
  rw [nearest, h]

/-- The nearest object is in one of the sets. -/
theorem nearest_mem (h : nearest key cmp k Ss = some a) : ∃ S ∈ Ss, a ∈ S := by
  induction Ss with
  | nil => cases h
  | cons S Ss ih =>
    cases hS : lookup key cmp k S with
    | some b =>
      rw [nearest_cons_some hS] at h
      cases h
      exact ⟨S, mem_cons_self, mem_of_find?_eq_some hS⟩
    | none =>
      rw [nearest_cons hS] at h
      obtain ⟨T, hT, ha⟩ := ih h
      exact ⟨T, mem_cons_of_mem _ hT, ha⟩

theorem nearest_eq (h : nearest key cmp k Ss = some a) : cmp k (key a) = .eq := by
  induction Ss with
  | nil => cases h
  | cons S Ss ih =>
    cases hS : lookup key cmp k S with
    | some b =>
      rw [nearest_cons_some hS] at h
      cases h
      simpa using find?_some hS
    | none => exact ih (nearest_cons hS ▸ h)

theorem nearest_eq_none (h : nearest key cmp k Ss = none) :
    ∀ S ∈ Ss, ∀ a ∈ S, cmp k (key a) ≠ .eq := by
  induction Ss with
  | nil => nofun
  | cons S Ss ih =>
    cases hS : lookup key cmp k S with
    | some b => rw [nearest_cons_some hS] at h; cases h
    | none =>
      rw [nearest_cons hS] at h
      exact forall_mem_cons.2 ⟨lookup_eq_none.1 hS, ih h⟩

/-- Sets without the key do not change what is nearest. -/
theorem nearest_append {Ts : List (List α)} (h : ∀ S ∈ Ss, lookup key cmp k S = none) :
    nearest key cmp k (Ss ++ Ts) = nearest key cmp k Ts := by
  induction Ss with
  | nil => rfl
  | cons S Ss ih =>
    rw [cons_append, nearest_cons (h S mem_cons_self)]
    exact ih fun T hT => h T (mem_cons_of_mem _ hT)

theorem mem_insert : a ∈ insert key cmp k b S ↔
    a = b ∨ (a ∈ S ∧ cmp k (key a) ≠ .eq) := by
  simp only [insert, below, above, mem_append, mem_cons, mem_filter, beq_iff_eq]
  cases hc : cmp k (key a) with
  | lt | eq => simp
  | gt => simp [or_comm]

section
variable [TransCmp cmp]

theorem self_ne_lt {x : K} : cmp x x ≠ .lt := by
  rw [@ReflCmp.compare_self _ cmp _ x]
  nofun

theorem isLE_of_ne_lt {x y : K} (h : cmp x y ≠ .lt) : (cmp y x).isLE := by
  cases hc : cmp y x with
  | lt | eq => rfl
  | gt => exact absurd (OrientedCmp.lt_of_gt hc) h

theorem Sorted.lookup_eq_some (hS : Sorted key cmp S) :
    lookup key cmp k S = some a ↔ a ∈ S ∧ cmp k (key a) = .eq := by
  constructor
  · intro h
    exact ⟨mem_of_find?_eq_some h, by simpa using find?_some h⟩
  · intro ⟨ha, hka⟩
    obtain ⟨A, B, rfl⟩ := append_of_mem ha
    exact (hS.cut hka).lookup

theorem Sorted.insert (hS : Sorted key cmp S) : Sorted key cmp (insert key cmp (key a) a S) := by
  refine pairwise_append.2 ⟨hS.filter _, pairwise_cons.2 ⟨fun y hy => ?_, hS.filter _⟩, ?_⟩
  · simpa using (mem_filter.1 hy).2
  · intro x hx y hy
    have hxa : cmp (key x) (key a) = .lt :=
      OrientedCmp.lt_of_gt (by simpa using (mem_filter.1 hx).2)
    cases hy with
    | head => exact hxa
    | tail _ hy => exact TransCmp.lt_trans hxa (by simpa using (mem_filter.1 hy).2)

/-- Adding the objects of a set one after another covers those of their keys. -/
theorem foldl_insert (hS : Sorted key cmp S) (hU : Sorted key cmp U) :
    Sorted key cmp (S.foldl (fun U a => SortedSet.insert key cmp (key a) a U) U) ∧
      ∀ x, x ∈ S.foldl (fun U a => SortedSet.insert key cmp (key a) a U) U ↔
        x ∈ S ∨ (x ∈ U ∧ lookup key cmp (key x) S = none) := by
  induction S generalizing U with
  | nil => exact ⟨hU, fun x => by simp [lookup]⟩
  | cons a S ih =>
    obtain ⟨haS, hS'⟩ := pairwise_cons.1 hS
    obtain ⟨hsorted, hmem⟩ := ih hS' (hU.insert (a := a))
    refine ⟨hsorted, fun x => ?_⟩
    have hcomm : cmp (key a) (key x) ≠ .eq ↔ cmp (key x) (key a) ≠ .eq :=
      not_congr OrientedCmp.eq_comm
    have ha : lookup key cmp (key a) S = none :=
      lookup_eq_none.2 fun b hb => by rw [haS b hb]; rintro ⟨⟩
    rw [foldl_cons, hmem, mem_insert, lookup_eq_none, lookup_eq_none, forall_mem_cons,
      mem_cons, hcomm]
    constructor
    · intro h
      obtain h | ⟨rfl | ⟨hx, hne⟩, hnone⟩ := h
      · exact .inl (.inr h)
      · exact .inl (.inl rfl)
      · exact .inr ⟨hx, hne, hnone⟩
    · intro h
      rcases h with (rfl | h) | ⟨hx, hne, hnone⟩
      · exact .inr ⟨.inl rfl, lookup_eq_none.1 ha⟩
      · exact .inl h
      · exact .inr ⟨.inr ⟨hx, hne⟩, hnone⟩

theorem nearest_congr {k' : K} (h : cmp k k' = .eq) :
    nearest key cmp k Ss = nearest key cmp k' Ss := by
  induction Ss with
  | nil => rfl
  | cons S Ss ih =>
    have hS : lookup key cmp k S = lookup key cmp k' S := by
      rw [lookup, lookup]
      congr 1
      funext a
      rw [TransCmp.congr_left h]
    rw [nearest, nearest, hS, ih]

/-- Sorted sets have a union. -/
theorem exists_overlay (hS : ∀ S ∈ Ss, Sorted key cmp S) : ∃ U, Overlay key cmp Ss U := by
  induction Ss with
  | nil => exact ⟨[], List.Pairwise.nil, by simp [nearest]⟩
  | cons S Ss ih =>
    obtain ⟨U, hU⟩ := ih fun T hT => hS T (mem_cons_of_mem _ hT)
    have hS0 := hS S mem_cons_self
    obtain ⟨hsorted, hmem⟩ := foldl_insert hS0 hU.sorted
    refine ⟨_, hsorted, fun x => ?_⟩
    rw [hmem, hU.mem]
    cases hx : lookup key cmp (key x) S with
    | none =>
      rw [nearest_cons hx]
      constructor
      · intro h
        obtain h | h := h
        · exact absurd ReflCmp.compare_self (lookup_eq_none.1 hx x h)
        · exact h.1
      · exact fun h => .inr ⟨h, rfl⟩
    | some b =>
      rw [nearest_cons_some hx]
      constructor
      · intro h
        obtain h | h := h
        · rw [← hx]
          exact hS0.lookup_eq_some.2 ⟨h, ReflCmp.compare_self⟩
        · cases h.2
      · intro h
        cases h
        exact .inl (mem_of_find?_eq_some hx)

/-! ## The least candidate -/

/-- The first object of a sorted set that passes a test is the least one. -/
theorem Sorted.head?_filter {p : α → Bool} (hS : Sorted key cmp S) :
    (S.filter p).head? = some a ↔
      a ∈ S ∧ p a = true ∧ ∀ b ∈ S, p b = true → cmp (key b) (key a) ≠ .lt := by
  have hsub : Sorted key cmp (S.filter p) := hS.filter _
  constructor
  · intro h
    have ha := mem_filter.1 (mem_of_mem_head? h)
    refine ⟨ha.1, ha.2, fun b hb hpb => ?_⟩
    cases hl : S.filter p with
    | nil => rw [hl] at h; cases h
    | cons x l =>
      rw [hl] at h hsub
      cases h
      have hb' : b ∈ a :: l := hl ▸ mem_filter.2 ⟨hb, hpb⟩
      cases hb' with
      | head => exact self_ne_lt
      | tail _ hb' =>
        rw [OrientedCmp.gt_of_lt ((pairwise_cons.1 hsub).1 b hb')]
        nofun
  · intro ⟨ha, hpa, hleast⟩
    have ha' : a ∈ S.filter p := mem_filter.2 ⟨ha, hpa⟩
    cases hl : S.filter p with
    | nil => rw [hl] at ha'; cases ha'
    | cons x l =>
      rw [hl] at ha' hsub
      cases ha' with
      | head => rfl
      | tail _ ha' =>
        have hx : x ∈ S.filter p := by rw [hl]; exact mem_cons_self
        have hx := mem_filter.1 hx
        exact absurd ((pairwise_cons.1 hsub).1 a ha') (hleast x hx.1 hx.2)

/-- What a fold over candidates has chosen: the first of the least. -/
structure Chosen (key : α → K) (cmp : K → K → Ordering) (pre : List (Option α)) (n : α)
    (post : List (Option α)) : Prop where
  before : ∀ m, some m ∈ pre → cmp (key n) (key m) = .lt
  after : ∀ m, some m ∈ post → cmp (key m) (key n) ≠ .lt

/-- The least candidate, and where it stands among the candidates. -/
theorem leastOf_cases (os : List (Option α)) :
    (leastOf key cmp os = none ∧ ∀ m, some m ∉ os) ∨
      ∃ pre n post, os = pre ++ some n :: post ∧ leastOf key cmp os = some n ∧
        Chosen key cmp pre n post := by
  induction os using List.reverseRecOn with
  | nil => exact .inl ⟨rfl, nofun⟩
  | append_singleton os o ih =>
    have hstep : leastOf key cmp (os ++ [o]) = lesser key cmp (leastOf key cmp os) o := by
      rw [leastOf, foldl_append]
      rfl
    rw [hstep]
    obtain ⟨hnone, hno⟩ | ⟨pre, n, post, rfl, hn, hch⟩ := ih
    · cases o with
      | none =>
        refine .inl ⟨by rw [hnone, lesser], fun m hm => ?_⟩
        obtain h | h := mem_append.1 hm
        · exact hno m h
        · cases mem_singleton.1 h
      | some o =>
        exact .inr ⟨os, o, [], rfl, by rw [hnone, lesser],
          fun m hm => absurd hm (hno m), nofun⟩
    · rw [hn]
      cases o with
      | none =>
        refine .inr ⟨pre, n, post ++ [none], by simp, rfl, hch.before, fun m hm => ?_⟩
        obtain h | h := mem_append.1 hm
        · exact hch.after m h
        · cases mem_singleton.1 h
      | some o =>
        rw [lesser]
        split
        next hlt =>
          refine .inr ⟨pre ++ some n :: post, o, [], by simp, rfl, fun m hm => ?_, nofun⟩
          obtain h | h := mem_append.1 hm
          · exact TransCmp.lt_trans hlt (hch.before m h)
          · cases h with
            | head => exact hlt
            | tail _ h =>
              exact TransCmp.lt_of_lt_of_isLE hlt (isLE_of_ne_lt (hch.after m h))
        next hlt =>
          refine .inr ⟨pre, n, post ++ [some o], by simp, rfl, hch.before, fun m hm => ?_⟩
          obtain h | h := mem_append.1 hm
          · exact hch.after m h
          · cases mem_singleton.1 h
            exact hlt

/-- The least candidate is the least object of the union, when the candidates are the first objects
of their sets that pass a test of the key. -/
theorem Overlay.head?_filter {p : α → Bool} (h : Overlay key cmp Ss U)
    (hS : ∀ S ∈ Ss, Sorted key cmp S) (hp : ∀ a b, cmp (key a) (key b) = .eq → p a = p b) :
    leastOf key cmp (Ss.map fun S => (S.filter p).head?) = (U.filter p).head? := by
  have hcand : ∀ a ∈ U, p a = true →
      ∃ m, some m ∈ Ss.map (fun S => (S.filter p).head?) ∧ cmp (key a) (key m) ≠ .lt := by
    intro a ha hpa
    obtain ⟨S, hSs, haS⟩ := nearest_mem ((h.mem a).1 ha)
    cases hm : (S.filter p).head? with
    | none =>
      have hnil := head?_eq_none_iff.1 hm
      exact absurd (mem_filter.2 ⟨haS, hpa⟩) (by rw [hnil]; nofun)
    | some m =>
      exact ⟨m, mem_map.2 ⟨S, hSs, hm⟩, (((hS S hSs).head?_filter).1 hm).2.2 a haS hpa⟩
  rcases @leastOf_cases _ _ key cmp _ (Ss.map fun S => (S.filter p).head?) with
    ⟨hnone, hno⟩ | ⟨pre, n, post, hsplit, hn, hch⟩
  · rw [hnone]
    refine (head?_eq_none_iff.2 (filter_eq_nil_iff.2 fun a ha hpa => ?_)).symm
    obtain ⟨m, hm, _⟩ := hcand a ha hpa
    exact hno m hm
  · rw [hn]
    obtain ⟨Ss₁, Ss₂', rfl, hpre, hrest⟩ := map_eq_append_iff.1 hsplit
    obtain ⟨S, Ss₂, rfl, hSn, hpost⟩ := map_eq_cons_iff.1 hrest
    have hSsorted := hS S (by simp)
    obtain ⟨hnS, hpn, hnleast⟩ := (hSsorted.head?_filter).1 hSn
    have hfar : ∀ T ∈ Ss₁, lookup key cmp (key n) T = none := by
      intro T hT
      refine lookup_eq_none.2 fun b hb heq => ?_
      have hpb : p b = true := (hp n b heq).symm.trans hpn
      cases hm : (T.filter p).head? with
      | none =>
        have hnil := head?_eq_none_iff.1 hm
        exact absurd (mem_filter.2 ⟨hb, hpb⟩) (by rw [hnil]; nofun)
      | some m =>
        have hle := (((hS T (by simp [hT])).head?_filter).1 hm).2.2 b hb hpb
        have hnm := hch.before m (by rw [← hpre]; exact mem_map.2 ⟨T, hT, hm⟩)
        exact hle (TransCmp.lt_of_eq_of_lt (OrientedCmp.eq_symm heq) hnm)
    have hnU : n ∈ U := by
      rw [h.mem, nearest_append hfar]
      exact nearest_cons_some (hSsorted.lookup_eq_some.2 ⟨hnS, ReflCmp.compare_self⟩)
    refine (h.sorted.head?_filter.2 ⟨hnU, hpn, fun a ha hpa => ?_⟩).symm
    obtain ⟨m, hm, ham⟩ := hcand a ha hpa
    have hmn : cmp (key m) (key n) ≠ .lt := by
      rw [hsplit] at hm
      obtain h | h := mem_append.1 hm
      · rw [OrientedCmp.gt_of_lt (hch.before m h)]
        nofun
      · cases h with
        | head => exact self_ne_lt
        | tail _ h => exact hch.after m h
    intro han
    exact ham (TransCmp.lt_of_lt_of_isLE han (isLE_of_ne_lt hmn))

/-! ## The other direction -/

theorem Sorted.lookup_reverse (hS : Sorted key cmp S) :
    lookup key (fun x y => cmp y x) k S.reverse = lookup key cmp k S := by
  refine Option.ext fun a => ?_
  rw [hS.lookup_eq_some, hS.reverse.lookup_eq_some, mem_reverse, OrientedCmp.eq_comm]

theorem nearest_reverse (hS : ∀ S ∈ Ss, Sorted key cmp S) :
    nearest key (fun x y => cmp y x) k (Ss.map List.reverse) = nearest key cmp k Ss := by
  induction Ss with
  | nil => rfl
  | cons S Ss ih =>
    rw [map_cons, nearest, nearest, (hS S mem_cons_self).lookup_reverse,
      ih fun T hT => hS T (mem_cons_of_mem _ hT)]

/-- The union read backwards is the union of the sets read backwards. -/
theorem Overlay.reverse (h : Overlay key cmp Ss U) (hS : ∀ S ∈ Ss, Sorted key cmp S) :
    Overlay key (fun x y => cmp y x) (Ss.map List.reverse) U.reverse :=
  ⟨h.sorted.reverse, fun a => by rw [mem_reverse, h.mem, nearest_reverse hS]⟩

/-- Every key of the sets has an object in the union. -/
theorem Overlay.exists_mem (h : Overlay key cmp Ss U) (hS : S ∈ Ss) (ha : a ∈ S) :
    ∃ b ∈ U, cmp (key a) (key b) = .eq := by
  cases hn : nearest key cmp (key a) Ss with
  | none => exact absurd ReflCmp.compare_self (nearest_eq_none hn S hS a ha)
  | some b =>
    have hab := nearest_eq hn
    refine ⟨b, (h.mem b).2 ?_, hab⟩
    rw [← nearest_congr hab, hn]

end

end SortedSet
