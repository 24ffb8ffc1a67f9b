import Mathlib.Data.List.Nodup

/-!
# Ordered dictionaries

An ordered dictionary keeps items in the order of a comparator and at most one of the items
that compare equal. Its contents are described by membership: an insertion adds an item that
compares equal to none there, a deletion removes the one that compares equal.
-/

namespace Dict

open List

variable {α : Type _} {cmp : α → α → Ordering} {d : List α} {x y : α}

/-- The item that compares equal to `x`. -/
def search (cmp : α → α → Ordering) (d : List α) (x : α) : Option α :=
  d.find? fun y => cmp x y == .eq

/-- Insertion before the first greater item, unless an item compares equal. -/
def insert (cmp : α → α → Ordering) : List α → α → List α
  | [], x => [x]
  | y :: d, x =>
    match cmp x y with
    | .lt => x :: y :: d
    | .eq => y :: d
    | .gt => y :: insert cmp d x

/-- Deletion of the item that compares equal to `x`; nothing if there is none. -/
def delete (cmp : α → α → Ordering) (d : List α) (x : α) : Option (List α) :=
  match search cmp d x with
  | some _ => some (d.eraseP fun y => cmp x y == .eq)
  | none => none

/-- Among the items of `d`, only `x` itself compares equal to `x`. -/
def Separates (cmp : α → α → Ordering) (d : List α) (x : α) : Prop :=
  ∀ y ∈ d, cmp x y = .eq ↔ x = y

theorem Separates.tail (h : Separates cmp (y :: d) x) : Separates cmp d x :=
  fun z hz => h z (mem_cons_of_mem y hz)

theorem Separates.beq (h : Separates cmp d x) (hy : y ∈ d) : (cmp x y == .eq) = true ↔ x = y := by
  rw [beq_iff_eq]
  exact h y hy

/-- A search finds the item itself. -/
theorem search_eq_some (h : Separates cmp d x) (hx : x ∈ d) : search cmp d x = some x := by
  cases hs : search cmp d x with
  | none =>
    have := find?_eq_none.1 hs x hx
    exact absurd ((h.beq hx).2 rfl) this
  | some y =>
    have hy := mem_of_find?_eq_some hs
    have he := find?_some hs
    rw [(h.beq hy).1 he]

/-- An insertion adds the item. -/
theorem mem_insert (h : Separates cmp d x) : y ∈ insert cmp d x ↔ y = x ∨ y ∈ d := by
  induction d with
  | nil => simp [insert]
  | cons z d ih =>
    rw [insert]
    split
    · simp
    · rename_i he
      have hz : x = z := (h z (by simp)).1 he
      subst hz
      simp
    · rw [mem_cons, ih h.tail, mem_cons]
      tauto

/-- The insertion of a new item keeps the items distinct. -/
theorem nodup_insert (h : Separates cmp d x) (hd : d.Nodup) (hx : x ∉ d) :
    (insert cmp d x).Nodup := by
  induction d with
  | nil => simp [insert]
  | cons z d ih =>
    rw [insert]
    obtain ⟨hz, hd⟩ := nodup_cons.1 hd
    have hxz : x ≠ z := fun he => hx (by simp [he])
    have hxd : x ∉ d := fun he => hx (by simp [he])
    split
    · exact nodup_cons.2 ⟨hx, nodup_cons.2 ⟨hz, hd⟩⟩
    · exact nodup_cons.2 ⟨hz, hd⟩
    · refine nodup_cons.2 ⟨fun hm => ?_, ih h.tail hd hxd⟩
      obtain he | hm := (mem_insert h.tail).1 hm
      · exact hxz he.symm
      · exact hz hm

/-- A new item makes the dictionary one longer. -/
theorem length_insert (h : Separates cmp d x) (hx : x ∉ d) :
    (insert cmp d x).length = d.length + 1 := by
  induction d with
  | nil => rfl
  | cons z d ih =>
    have hxz : x ≠ z := fun he => hx (by simp [he])
    have hxd : x ∉ d := fun he => hx (by simp [he])
    rw [insert]
    split
    · rfl
    · rename_i he
      exact absurd ((h z (by simp)).1 he) hxz
    · rw [length_cons, ih h.tail hxd, length_cons]

/-- An insertion adds nothing else, whatever compares equal. -/
theorem mem_of_mem_insert (hy : y ∈ insert cmp d x) : y = x ∨ y ∈ d := by
  induction d with
  | nil => exact .inl (mem_singleton.1 hy)
  | cons z d ih =>
    rw [insert] at hy
    split at hy
    · exact mem_cons.1 hy
    · exact .inr hy
    · obtain rfl | hy := mem_cons.1 hy
      · exact .inr mem_cons_self
      · exact (ih hy).imp_right (mem_cons_of_mem z)

/-- An insertion keeps the order. -/
theorem pairwise_insert (htrans : ∀ {a b c}, cmp a b = .lt → cmp b c = .lt → cmp a c = .lt)
    (hgt : ∀ {a b}, cmp a b = .gt → cmp b a = .lt) (hd : d.Pairwise fun a b => cmp a b = .lt) :
    (insert cmp d x).Pairwise fun a b => cmp a b = .lt := by
  induction d with
  | nil => exact pairwise_singleton _ x
  | cons y d ih =>
    obtain ⟨hy, hd'⟩ := pairwise_cons.1 hd
    rw [insert]
    split
    · rename_i hlt
      refine pairwise_cons.2 ⟨fun z hz => ?_, hd⟩
      obtain rfl | hz := mem_cons.1 hz
      · exact hlt
      · exact htrans hlt (hy z hz)
    · exact hd
    · rename_i hxy
      refine pairwise_cons.2 ⟨fun z hz => ?_, ih hd'⟩
      obtain rfl | hz := mem_of_mem_insert hz
      · exact hgt hxy
      · exact hy z hz

/-- Erasing by a test that only `x` passes removes `x` alone. -/
theorem mem_eraseP {p : α → Bool} (hp : ∀ y ∈ d, p y = true ↔ x = y) (hd : d.Nodup)
    (hx : x ∈ d) : y ∈ d.eraseP p ↔ y ≠ x ∧ y ∈ d := by
  obtain ⟨a, l1, l2, -, ha, rfl, he⟩ := exists_of_eraseP hx ((hp x hx).2 rfl)
  have hxa : x = a := (hp a (by simp)).1 ha
  subst hxa
  rw [he]
  rw [nodup_middle, nodup_cons] at hd
  constructor
  · intro hy
    refine ⟨fun hyx => hd.1 (hyx ▸ hy), ?_⟩
    rw [mem_append] at hy
    rw [mem_append, mem_cons]
    tauto
  · rintro ⟨hne, hy⟩
    rw [mem_append, mem_cons] at hy
    rw [mem_append]
    tauto

/-- A deletion of an item that is there removes that item alone. -/
theorem delete_eq_some (h : Separates cmp d x) (hd : d.Nodup) (hx : x ∈ d) :
    ∃ d', delete cmp d x = some d' ∧ d'.Nodup ∧ ∀ y, y ∈ d' ↔ y ≠ x ∧ y ∈ d :=
  ⟨d.eraseP fun y => cmp x y == .eq, by rw [delete, search_eq_some h hx],
    hd.sublist eraseP_sublist, fun _ => mem_eraseP (fun _ hy => h.beq hy) hd hx⟩

end Dict
