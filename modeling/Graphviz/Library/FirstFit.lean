import Mathlib.Order.Interval.Finset.Nat

/-!
# Rectangles placed at the first column where they fit

Rectangles go into a grid one after another, each in a given row: at the least column from the end
of the one before it on, when that is in the same row, where it shares no slot with those that have
been placed. As the rows go down, the slots of the row in which a rectangle begins decide.
-/

namespace FirstFit

open Finset

/-- A rectangle of slots of a grid. -/
structure Tile where
  row : ℕ
  col : ℕ
  rowspan : ℕ
  colspan : ℕ

/-- The slots: their columns and rows. -/
def Tile.slots (t : Tile) : Finset (ℕ × ℕ) :=
  Ico t.col (t.col + t.colspan) ×ˢ Ico t.row (t.row + t.rowspan)

variable {t u : Tile} {ts us : List Tile} {p : ℕ × ℕ} {r : ℕ}

theorem Tile.mem_slots : p ∈ t.slots ↔
    (t.col ≤ p.1 ∧ p.1 < t.col + t.colspan) ∧ t.row ≤ p.2 ∧ p.2 < t.row + t.rowspan := by
  rw [Tile.slots, mem_product, mem_Ico, mem_Ico]

/-- The rectangle shares no slot with those that have been placed. -/
def Free (ts : List Tile) (t : Tile) : Prop :=
  ∀ u ∈ ts, Disjoint u.slots t.slots

/-- The column from which on the next rectangle of the row is placed. -/
def start (ts : List Tile) (r : ℕ) : ℕ :=
  match ts.getLast? with
  | some u => if u.row = r then u.col + u.colspan else 0
  | none => 0

/-- The rectangle is at the first column where it fits. -/
def Fits (ts : List Tile) (t : Tile) : Prop :=
  IsLeast {c | start ts t.row ≤ c ∧ Free ts { t with col := c }} t.col

/-- Every rectangle is at the first column where it fits. -/
def Placed (ts : List Tile) : Prop :=
  ∀ pre t post, ts = pre ++ t :: post → Fits pre t

theorem start_append : start (ts ++ [t]) r = if t.row = r then t.col + t.colspan else 0 := by
  rw [start, List.getLast?_append, List.getLast?_singleton]
  rfl

/-- In a new row the first column comes first. -/
theorem start_zero (h : ∀ u ∈ ts, u.row < r) : start ts r = 0 := by
  rw [start]
  cases hlast : ts.getLast? with
  | none => rfl
  | some u => exact if_neg (h u (List.mem_of_getLast? hlast)).ne

theorem placed_nil : Placed [] := by
  intro pre t post h
  cases List.append_eq_nil_iff.1 h.symm |>.2

theorem Placed.fits (h : Placed (ts ++ t :: us)) : Fits ts t :=
  h ts t us rfl

theorem placed_append : Placed (ts ++ [t]) ↔ Placed ts ∧ Fits ts t := by
  constructor
  · intro h
    refine ⟨fun pre u post heq => h pre u (post ++ [t]) ?_, h ts t [] rfl⟩
    rw [heq, List.append_assoc, List.cons_append]
  · rintro ⟨hts, ht⟩ pre u post heq
    obtain rfl | ⟨post, x, rfl⟩ := List.eq_nil_or_concat post
    · obtain ⟨rfl, hu⟩ := List.append_inj' heq rfl
      rw [← List.singleton_inj.1 hu]
      exact ht
    · rw [List.concat_eq_append, ← List.cons_append, ← List.append_assoc] at heq
      exact hts pre u post (List.append_inj' heq rfl).1

/-- No two rectangles share a slot. -/
theorem Placed.pairwise (h : Placed ts) : ts.Pairwise fun u t => Disjoint u.slots t.slots := by
  induction ts using List.reverseRecOn with
  | nil => exact .nil
  | append_singleton ts t ih =>
    obtain ⟨hts, ht⟩ := placed_append.1 h
    refine List.pairwise_append.2 ⟨ih hts, List.pairwise_singleton _ t, fun u hu x hx => ?_⟩
    rw [List.mem_singleton.1 hx]
    exact ht.1.2 u hu

/-- The slots of its first row decide whether a rectangle is free: one that has been placed above
it goes through this row when it has a slot in a later row. -/
theorem free_iff (hrows : ∀ u ∈ ts, u.row ≤ t.row) (hspan : 0 < t.rowspan) :
    Free ts t ↔ ∀ j < t.colspan, ∀ u ∈ ts, (t.col + j, t.row) ∉ u.slots := by
  constructor
  · intro h j hj u hu hin
    have hslot : (t.col + j, t.row) ∈ t.slots := Tile.mem_slots.2 ⟨⟨by omega, by omega⟩, by omega⟩
    exact disjoint_left.1 (h u hu) hin hslot
  · intro h u hu
    refine disjoint_left.2 fun p hpu hpt => ?_
    obtain ⟨hcol, hrow⟩ := Tile.mem_slots.1 hpu
    obtain ⟨hcol', hrow'⟩ := Tile.mem_slots.1 hpt
    have hle := hrows u hu
    refine h (p.1 - t.col) (by omega) u hu (Tile.mem_slots.2 ⟨?_, hle, by omega⟩)
    rw [Nat.add_sub_cancel' hcol'.1]
    exact hcol

end FirstFit
