import Graphviz.Html.Htmltable

/-!
# Columns and rows

The sizes that `set_cell_widths` and `set_cell_heights` give to columns and rows are enough for
every cell, and a cell gets as its size what it spans. The positions that `pos_html_tbl` puts in
their place leave each cell this size and its share of the extra space.
-/

namespace Graphviz.Html

open List Outcome

variable {count : ℕ} {space : ℤ} {sizes sizes' : ℕ → ℚ}

/-! ## Sizes -/

theorem spanSize_mono (h : ∀ k, sizes k ≤ sizes' k) (s : span) :
    spanSize sizes s ≤ spanSize sizes' s :=
  Finset.sum_le_sum fun _ _ => h _

theorem spanSize_single {s : span} (h : s.len = 1) : spanSize sizes s = sizes s.start := by
  simp [spanSize, h]

theorem spacing_single {s : span} (h : s.len = 1) : spacing space s = 0 := by
  simp [spacing, h]

/-- A span has room for its cell. -/
def Enough (space : ℤ) (sizes : ℕ → ℚ) (s : span) : Prop :=
  s.size ≤ spanSize sizes s + spacing space s

theorem Enough.mono {s : span} (h : ∀ k, sizes k ≤ sizes' k) (hs : Enough space sizes s) :
    Enough space sizes' s := by
  have := spanSize_mono h s
  unfold Enough at *
  linarith

/-- The first loop makes room for the cells that span one column. -/
theorem sizeSingle_spec {s : span} (h : sizeSingle count sizes s = .ok sizes') :
    (∀ k, sizes k ≤ sizes' k) ∧ (s.len = 1 → Enough space sizes' s) := by
  unfold sizeSingle at h
  split at h
  · rename_i hgt
    cases h
    exact ⟨fun k => le_rfl, fun h => by omega⟩
  · obtain ⟨_, _, h⟩ := bind_eq_ok.1 h
    cases h
    constructor
    · intro k
      obtain rfl | hk := eq_or_ne k s.start
      · simp
      · rw [Function.update_of_ne hk]
    · intro hone
      rw [Enough, spanSize_single hone, spacing_single hone, Function.update_self, add_zero]
      exact le_max_right _ _

/-- The second loop makes room for the others. -/
theorem sizeSpanning_spec {s : span} (hlen : 0 < s.len)
    (h : sizeSpanning count space sizes s = .ok sizes') :
    (∀ k, sizes k ≤ sizes' k) ∧ (s.len ≠ 1 → Enough space sizes' s) := by
  unfold sizeSpanning at h
  split at h
  · rename_i hone
    cases h
    exact ⟨fun k => le_rfl, fun h => absurd hone h⟩
  · obtain ⟨_, _, h⟩ := bind_eq_ok.1 h
    have hpos : (0 : ℚ) < s.len := by exact_mod_cast hlen
    split at h
    · rename_i hlt
      have hby : 0 ≤ (s.size - spacing space s - spanSize sizes s) / s.len :=
        div_nonneg (by linarith) hpos.le
      cases h
      constructor
      · intro k
        dsimp only
        split <;> linarith
      · intro _
        have hsum : spanSize (fun k => if s.start ≤ k ∧ k < s.start + s.len then
            sizes k + (s.size - spacing space s - spanSize sizes s) / s.len else sizes k) s =
            spanSize sizes s + s.len * ((s.size - spacing space s - spanSize sizes s) / s.len) := by
          simp only [spanSize]
          rw [Finset.sum_congr rfl fun j hj => if_pos ⟨Nat.le_add_right _ _, by
            have := Finset.mem_range.1 hj
            omega⟩, Finset.sum_add_distrib, Finset.sum_const, Finset.card_range, nsmul_eq_mul]
        rw [Enough, hsum, mul_div_cancel₀ _ hpos.ne']
        linarith
    · rename_i hge
      cases h
      exact ⟨fun k => le_rfl, fun _ => not_lt.1 hge⟩

/-- A loop whose rounds widen columns keeps what is large enough, and what a round makes large
enough stays so. -/
theorem foldlM_widens (space : ℤ) (P : span → Prop)
    {f : (ℕ → ℚ) → span → Except Fault (ℕ → ℚ)} {cells : List span}
    (hf : ∀ s ∈ cells, ∀ sizes sizes', f sizes s = .ok sizes' →
      (∀ k, sizes k ≤ sizes' k) ∧ (P s → Enough space sizes' s))
    (h : cells.foldlM f sizes = .ok sizes') :
    (∀ k, sizes k ≤ sizes' k) ∧ ∀ s ∈ cells, P s → Enough space sizes' s := by
  induction cells generalizing sizes with
  | nil =>
    cases h
    exact ⟨fun k => le_rfl, fun s hs => nomatch hs⟩
  | cons s cells ih =>
    rw [foldlM_cons] at h
    obtain ⟨mid, hmid, h⟩ := bind_eq_ok.1 h
    obtain ⟨hle, hs⟩ := hf s mem_cons_self _ _ hmid
    obtain ⟨hle', hcells⟩ := ih (fun t ht => hf t (mem_cons_of_mem _ ht)) h
    refine ⟨fun k => (hle k).trans (hle' k), fun t ht hP => ?_⟩
    obtain rfl | ht := mem_cons.1 ht
    · exact (hs hP).mono hle'
    · exact hcells t ht hP

/-- The third loop gives the cells that have room the sizes of what they span. -/
theorem mapM_sizeCell {cells : List span} {new : List ℚ} (hroom : ∀ s ∈ cells, Enough space sizes s)
    (h : cells.mapM (sizeCell count space sizes) = .ok new) :
    new = cells.map (fun s => spanSize sizes s + spacing space s) ∧
      ∀ s ∈ cells, s.start + s.len ≤ count := by
  induction cells generalizing new with
  | nil =>
    rw [mapM_nil] at h
    cases h
    exact ⟨rfl, fun s hs => nomatch hs⟩
  | cons s cells ih =>
    rw [mapM_cons] at h
    obtain ⟨x, hx, h⟩ := bind_eq_ok.1 h
    obtain ⟨xs, hxs, h⟩ := bind_eq_ok.1 h
    obtain ⟨_, hassert, hx⟩ := bind_eq_ok.1 hx
    cases hx
    cases h
    obtain ⟨rfl, hcount⟩ := ih (fun t ht => hroom t (mem_cons_of_mem _ ht)) hxs
    refine ⟨?_, fun t ht => ?_⟩
    · rw [map_cons, max_eq_right (hroom s mem_cons_self)]
    · obtain rfl | ht := mem_cons.1 ht
      · exact assert_eq_ok hassert
      · exact hcount t ht

/-- `set_cell_widths` and `set_cell_heights` along their axes: every cell has room in what it
spans and gets this as its size. -/
theorem set_cell_sizes_spec {cells : List span} {new : List ℚ} (hlen : ∀ s ∈ cells, 0 < s.len)
    (h : set_cell_sizes count space cells = .ok (sizes, new)) :
    (∀ k, 0 ≤ sizes k) ∧ (∀ s ∈ cells, Enough space sizes s) ∧
      new = cells.map (fun s => spanSize sizes s + spacing space s) ∧
      ∀ s ∈ cells, s.start + s.len ≤ count := by
  obtain ⟨single, hsingle, h⟩ := bind_eq_ok.1 h
  obtain ⟨sizes', hspan, h⟩ := bind_eq_ok.1 h
  obtain ⟨new', hnew, h⟩ := bind_eq_ok.1 h
  cases h
  obtain ⟨hle, hone⟩ := foldlM_widens space (fun s => s.len = 1)
    (fun _ _ _ _ hf => sizeSingle_spec hf) hsingle
  obtain ⟨hle', hmany⟩ := foldlM_widens space (fun s => s.len ≠ 1)
    (fun s hs _ _ hf => sizeSpanning_spec (hlen s hs) hf) hspan
  have hroom : ∀ s ∈ cells, Enough space sizes s := by
    intro s hs
    by_cases hs1 : s.len = 1
    · exact (hone s hs hs1).mono hle'
    · exact hmany s hs hs1
  exact ⟨fun k => (hle k).trans (hle' k), hroom, mapM_sizeCell hroom hnew⟩

/-! ## Positions -/

/-- The positions of two columns are apart by the steps between them. -/
theorem starts_add (x : ℚ) (step : ℕ → ℚ) (i n : ℕ) :
    starts x step (i + n) = starts x step i + ∑ j ∈ Finset.range n, step (i + j) := by
  induction n with
  | zero => simp
  | succ n ih => rw [← add_assoc, starts, ih, Finset.sum_range_succ, add_assoc]

/-- In exact arithmetic nothing is left over when the extra space is divided. -/
theorem advance_eq (hcount : 0 < count) (del : ℚ) (sizes : ℕ → ℚ) (i : ℕ) :
    advance count del sizes i = sizes i + del / count := by
  have hpos : (count : ℚ) ≠ 0 := by exact_mod_cast hcount.ne'
  have hplus : cround (del - del / count * count) = 0 := by
    rw [div_mul_cancel₀ _ hpos, sub_self]
    exact_mod_cast cround_intCast 0
  rw [advance, hplus, if_neg (by omega), add_zero]

/-- The sum of the steps over a span is its size, its spacing with one more space, and its share
of the extra space. -/
theorem sum_advance (hcount : 0 < count) (del : ℚ) (sizes : ℕ → ℚ) (space : ℤ) (s : span) :
    ∑ j ∈ Finset.range s.len, (advance count del sizes (s.start + j) + space) =
      spanSize sizes s + spacing space s + s.len * (del / count) + space := by
  simp only [advance_eq hcount, Finset.sum_add_distrib, Finset.sum_const, Finset.card_range,
    nsmul_eq_mul, spanSize, spacing]
  push_cast
  ring

end Graphviz.Html

/-!
## Sized tables

What `size_html_tbl` establishes when no warning says that something is too small: the cells of a
table are apart in its grid, they are as large as what they span, the table holds its columns and
rows, and a cell holds the table in it. `findCol` looks only at the row of a cell, which is enough
since every cell begins in that row or above it.
-/

namespace Graphviz.Html

open Finset Outcome

/-! ## Sized labels -/

/-- The columns and the rows of two cells do not both overlap. -/
def GridApart (a b : htmlcell_t) : Prop :=
  (a.fields.col + a.fields.colspan ≤ b.fields.col ∨
    b.fields.col + b.fields.colspan ≤ a.fields.col) ∨
  (a.fields.row + a.fields.rowspan ≤ b.fields.row ∨ b.fields.row + b.fields.rowspan ≤ a.fields.row)

/-- What holds of a sized table, without what is in its cells. -/
structure TblSized (tbl : tblfields) (cells : List htmlcell_t) : Prop where
  space : 0 ≤ tbl.data.space
  widths : ∀ k, 0 ≤ tbl.widths k
  heights : ∀ k, 0 ≤ tbl.heights k
  cols : ∀ c ∈ cells, c.fields.col + c.fields.colspan ≤ tbl.column_count
  rows : ∀ c ∈ cells, c.fields.row + c.fields.rowspan ≤ tbl.row_count
  urx : ∀ c ∈ cells, c.fields.data.box.UR.x =
    spanSize tbl.widths c.colSpan + spacing tbl.data.space c.colSpan
  ury : ∀ c ∈ cells, c.fields.data.box.UR.y =
    spanSize tbl.heights c.rowSpan + spacing tbl.data.space c.rowSpan
  apart : cells.Pairwise GridApart
  extentx : tblExtent tbl.column_count tbl.data.space tbl.data.border tbl.widths ≤
    tbl.data.box.UR.x
  extenty : tblExtent tbl.row_count tbl.data.space tbl.data.border tbl.heights ≤
    tbl.data.box.UR.y

/-- What the padding and the border of a cell take on one side. -/
def edge (data : htmldata_t) : ℚ := data.border + data.pad

/-- The cell has room for the table in it. -/
structure Holds (cell : htmldata_t) (tbl : htmldata_t) : Prop where
  x : tbl.box.UR.x + 2 * edge cell ≤ cell.box.UR.x
  y : tbl.box.UR.y + 2 * edge cell ≤ cell.box.UR.y

/-- A sized table, and the tables in its cells. -/
inductive Sized : htmltbl_t → Prop
  | mk {tbl : tblfields} {cells : List htmlcell_t} (sized : TblSized tbl cells)
      (child : ∀ c ∈ cells, ∀ t, c.child = .HTML_TBL t → Sized t)
      (holds : ∀ c ∈ cells, ∀ t, c.child = .HTML_TBL t → Holds c.fields.data t.fields.data) :
      Sized (.mk tbl cells)

/-! ## Places in the grid -/

/-- The columns that `findCol` finds are free in the row. -/
theorem findFree_free (ps : PointSet) (row colspan col j : ℕ) (hj : j < colspan) :
    (findFree ps row colspan col + j, row) ∉ ps := by
  fun_induction findFree ps row colspan col with
  | case1 col k _ ih => exact ih
  | case2 col hnone =>
    have := List.find?_eq_none.1 hnone j (List.mem_reverse.2 (List.mem_range.2 hj))
    simpa using this

/-- The cells of the grid that a cell has. -/
def htmlcell_t.grid (c : htmlcell_t) : PointSet :=
  covered c.fields.row c.fields.col c.fields.tocellhead

theorem mem_covered {row col x y : ℕ} {cellp : cellhead} : (x, y) ∈ covered row col cellp ↔
    (col ≤ x ∧ x < col + cellp.colspan) ∧ row ≤ y ∧ y < row + cellp.rowspan := by
  simp only [covered, mem_product, mem_Ico]

/-- Cells that share no cell of the grid are apart in it. -/
theorem gridApart_of_disjoint {a b : htmlcell_t} (h : Disjoint a.grid b.grid) : GridApart a b := by
  by_contra hover
  simp only [GridApart, not_or, not_le] at hover
  have ha := a.fields.colspan_pos
  have hb := b.fields.colspan_pos
  have ha' := a.fields.rowspan_pos
  have hb' := b.fields.rowspan_pos
  have hmem : (max a.fields.col b.fields.col, max a.fields.row b.fields.row) ∈ a.grid :=
    mem_covered.2 (by omega)
  have hmem' : (max a.fields.col b.fields.col, max a.fields.row b.fields.row) ∈ b.grid :=
    mem_covered.2 (by omega)
  exact disjoint_left.1 h hmem hmem'

/-- The loops of `processTbl` at the row `r`: the taken cells of the grid are those of the cells,
which begin at this row or above it and share none. -/
structure GridInv (r : ℕ) (s : tblstate) : Prop where
  sub : ∀ c ∈ s.cells, c.grid ⊆ s.ps
  row : ∀ c ∈ s.cells, c.fields.row ≤ r
  apart : s.cells.Pairwise fun a b => Disjoint a.grid b.grid

theorem GridInv.succ {r : ℕ} {s : tblstate} (h : GridInv r s) : GridInv (r + 1) s :=
  { h with row := fun c hc => (h.row c hc).trans (Nat.le_succ r) }

/-- A cell whose columns are free in its row shares nothing with the cells there are. -/
theorem GridInv.disjoint {r : ℕ} {s : tblstate} (h : GridInv r s) {col : ℕ} {cellp : cellhead}
    (hfree : ∀ j < cellp.colspan, (col + j, r) ∉ s.ps) (c : htmlcell_t) (hc : c ∈ s.cells) :
    Disjoint c.grid (covered r col cellp) := by
  refine disjoint_left.2 fun p hp hp' => ?_
  obtain ⟨x, y⟩ := p
  obtain ⟨hx, hy⟩ := mem_covered.1 hp
  obtain ⟨hx', hy'⟩ := mem_covered.1 hp'
  -- the cell above also has the cell of the grid in this column of the row
  have hrow : (x, r) ∈ c.grid := mem_covered.2 ⟨hx, h.row c hc, by omega⟩
  have := hfree (x - col) (by omega)
  rw [show col + (x - col) = x by omega] at this
  exact this (h.sub c hc hrow)

/-- What `placeCell` does: the cell gets its place, and nothing else changes. -/
theorem placeCell_spec {ruled : List Bool} {r c c' : ℕ} {s s' : tblstate} {cellp : cellhead}
    {child : htmllabel_t} {warn : List warning} (hinv : GridInv r s)
    (h : placeCell ruled r c s cellp child warn = .ok (c', s')) :
    GridInv r s' ∧ s'.warnings = s.warnings ++ warn ∧
      ∃ cell : cellfields, cell.tocellhead = cellp ∧ s'.cells = s.cells ++ [.mk cell child] := by
  obtain ⟨⟨col, ps⟩, hcol, h⟩ := bind_eq_ok.1 h
  obtain ⟨hruled, _, h⟩ := bind_eq_ok.1 h
  obtain ⟨_, _, hcol⟩ := bind_eq_ok.1 hcol
  cases hcol
  cases h
  have hfree := findFree_free s.ps r cellp.colspan c
  refine ⟨⟨?_, ?_, ?_⟩, rfl, _, rfl, rfl⟩
  · intro d hd
    obtain hd | hd := List.mem_append.1 hd
    · exact (hinv.sub d hd).trans subset_union_left
    · rw [List.mem_singleton.1 hd]
      exact subset_union_right
  · intro d hd
    obtain hd | hd := List.mem_append.1 hd
    · exact hinv.row d hd
    · rw [List.mem_singleton.1 hd]
      exact le_rfl
  · refine List.pairwise_append.2 ⟨hinv.apart, List.pairwise_singleton _ _, fun d hd e he => ?_⟩
    rw [List.mem_singleton.1 he]
    exact hinv.disjoint hfree d hd

/-! ## The end of `size_html_tbl` -/

/-- The cells as `set_cell_widths` leaves them. -/
theorem set_cell_widths_spec {tbl tbl' : tblfields} {cells cells' : List htmlcell_t}
    (h : set_cell_widths tbl cells = .ok (tbl', cells')) :
    ∃ widths : ℕ → ℚ, tbl' = { tbl with widths } ∧ (∀ k, 0 ≤ widths k) ∧
      (∀ c ∈ cells, c.fields.col + c.fields.colspan ≤ tbl.column_count) ∧
      (∀ c ∈ cells, Enough tbl.data.space widths c.colSpan) ∧
      cells' = cells.map fun c => c.setURx (spanSize widths c.colSpan +
        spacing tbl.data.space c.colSpan) := by
  obtain ⟨⟨widths, xs⟩, hsizes, h⟩ := bind_eq_ok.1 h
  cases h
  have hlen : ∀ s ∈ cells.map (·.colSpan), 0 < s.len := by
    intro s hs
    obtain ⟨c, _, rfl⟩ := List.mem_map.1 hs
    exact c.fields.colspan_pos
  obtain ⟨hnonneg, hroom, rfl, hcount⟩ := set_cell_sizes_spec hlen hsizes
  refine ⟨widths, rfl, hnonneg, fun c hc => hcount _ (List.mem_map_of_mem hc),
    fun c hc => hroom _ (List.mem_map_of_mem hc), ?_⟩
  rw [List.map_map, List.zipWith_map_right, List.zipWith_self]
  rfl

/-- The cells as `set_cell_heights` leaves them. -/
theorem set_cell_heights_spec {tbl tbl' : tblfields} {cells cells' : List htmlcell_t}
    (h : set_cell_heights tbl cells = .ok (tbl', cells')) :
    ∃ heights : ℕ → ℚ, tbl' = { tbl with heights } ∧ (∀ k, 0 ≤ heights k) ∧
      (∀ c ∈ cells, c.fields.row + c.fields.rowspan ≤ tbl.row_count) ∧
      (∀ c ∈ cells, Enough tbl.data.space heights c.rowSpan) ∧
      cells' = cells.map fun c => c.setURy (spanSize heights c.rowSpan +
        spacing tbl.data.space c.rowSpan) := by
  obtain ⟨⟨heights, ys⟩, hsizes, h⟩ := bind_eq_ok.1 h
  cases h
  have hlen : ∀ s ∈ cells.map (·.rowSpan), 0 < s.len := by
    intro s hs
    obtain ⟨c, _, rfl⟩ := List.mem_map.1 hs
    exact c.fields.rowspan_pos
  obtain ⟨hnonneg, hroom, rfl, hcount⟩ := set_cell_sizes_spec hlen hsizes
  refine ⟨heights, rfl, hnonneg, fun c hc => hcount _ (List.mem_map_of_mem hc),
    fun c hc => hroom _ (List.mem_map_of_mem hc), ?_⟩
  rw [List.map_map, List.zipWith_map_right, List.zipWith_self]
  rfl

/-- No warning says that something is too small. -/
def NoneTooSmall (warn : List warning) : Prop :=
  .cell_too_small ∉ warn ∧ .table_too_small ∉ warn

theorem NoneTooSmall.of_append {w w' : List warning} (h : NoneTooSmall (w ++ w')) :
    NoneTooSmall w ∧ NoneTooSmall w' := by
  simp only [NoneTooSmall, List.mem_append, not_or] at *
  exact ⟨⟨h.1.1, h.2.1⟩, h.1.2, h.2.2⟩

/-- A table that is not too small holds its columns and rows. -/
theorem tblSize_extent {tbl : tblfields} (h : NoneTooSmall (tblSize tbl).2) :
    tblExtent tbl.column_count tbl.data.space tbl.data.border tbl.widths ≤ (tblSize tbl).1.x ∧
      tblExtent tbl.row_count tbl.data.space tbl.data.border tbl.heights ≤ (tblSize tbl).1.y := by
  unfold tblSize at *
  dsimp only at *
  split at h
  · split at h
    · rename_i hfixed hdims
      split at h
      · exact absurd List.mem_cons_self h.2
      · rename_i hfits
        simp only [if_pos hfixed, if_pos hdims]
        push Not at hfits
        exact ⟨hfits.1.trans (le_max_right _ _), hfits.2.trans (le_max_right _ _)⟩
    · rename_i hfixed hdims
      simp only [if_pos hfixed, if_neg hdims]
      exact ⟨le_max_left _ _, le_max_left _ _⟩
  · rename_i hfixed
    simp only [if_neg hfixed]
    exact ⟨le_max_left _ _, le_max_left _ _⟩

/-- What is known of a cell before the sizes of the columns: what is in it is sized and fits. -/
structure ChildSized (cell : htmldata_t) (child : htmllabel_t) : Prop where
  sized : ∀ t, child = .HTML_TBL t → Sized t
  holds : ∀ t, child = .HTML_TBL t → Holds cell t.fields.data

/-- `finishTbl` sizes the table. -/
theorem finishTbl_sized {tbl : tblhead} {s : tblstate} {t : htmltbl_t} {warn : List warning}
    {r : ℕ} (hspace : tbl.data.flags.SPACE_SET → 0 ≤ tbl.data.space) (hgrid : GridInv r s)
    (hcells : ∀ c ∈ s.cells, ChildSized c.fields.data c.child)
    (h : finishTbl tbl s = .ok (t, warn)) (hwarn : NoneTooSmall warn) : Sized t := by
  obtain ⟨⟨tbl1, cells1⟩, hx, h⟩ := bind_eq_ok.1 h
  obtain ⟨⟨tbl2, cells2⟩, hy, h⟩ := bind_eq_ok.1 h
  obtain ⟨widths, rfl, hw, hcol, hroomx, rfl⟩ := set_cell_widths_spec hx
  obtain ⟨heights, rfl, hh, hrow, hroomy, rfl⟩ := set_cell_heights_spec hy
  cases h
  obtain ⟨hex, hey⟩ := tblSize_extent hwarn.of_append.2
  refine .mk ⟨?_, hw, hh, ?_, ?_, ?_, ?_, ?_, hex, hey⟩ ?_ ?_
  · dsimp only
    split
    · exact hspace ‹_›
    · decide
  · intro c hc
    simp only [List.mem_map] at hc
    obtain ⟨_, ⟨d, hd, rfl⟩, rfl⟩ := hc
    exact hcol d hd
  · intro c hc
    simp only [List.mem_map] at hc
    obtain ⟨_, ⟨d, hd, rfl⟩, rfl⟩ := hc
    exact hrow (d.setURx _) (List.mem_map_of_mem hd)
  · intro c hc
    simp only [List.mem_map] at hc
    obtain ⟨_, ⟨d, hd, rfl⟩, rfl⟩ := hc
    rfl
  · intro c hc
    simp only [List.mem_map] at hc
    obtain ⟨_, ⟨d, hd, rfl⟩, rfl⟩ := hc
    rfl
  · rw [List.pairwise_map, List.pairwise_map]
    exact hgrid.apart.imp fun hab => gridApart_of_disjoint hab
  · intro c hc t ht
    simp only [List.mem_map] at hc
    obtain ⟨_, ⟨d, hd, rfl⟩, rfl⟩ := hc
    exact (hcells d hd).sized t ht
  · intro c hc t ht
    simp only [List.mem_map] at hc
    obtain ⟨_, ⟨d, hd, rfl⟩, rfl⟩ := hc
    have hold := (hcells d hd).holds t ht
    have hroom := hroomy _ (List.mem_map.2 ⟨d, hd, rfl⟩)
    exact ⟨hold.x.trans (hroomx d hd), hold.y.trans hroom⟩

/-! ## The recursion -/

/-- The spacing of a table, where it is set, and of the tables in its cells is not negative. -/
inductive SpacingNonneg : parsed_tbl → Prop
  | mk {tbl : tblhead} {rows : List parsed_row}
      (space : tbl.data.flags.SPACE_SET → 0 ≤ tbl.data.space)
      (child : ∀ ruled rp, .mk ruled rp ∈ rows → ∀ cell t, .mk cell (.HTML_TBL t) ∈ rp →
        SpacingNonneg t) :
      SpacingNonneg (.mk tbl rows)

/-- What the loops of `processTbl` keep. -/
structure LoopInv (r : ℕ) (s : tblstate) : Prop where
  grid : GridInv r s
  cells : NoneTooSmall s.warnings → ∀ c ∈ s.cells, ChildSized c.fields.data c.child

/-- A cell that is not too small holds what is in it. -/
theorem cellSize_holds {data : htmldata_t} {child_sz : pointf}
    (h : NoneTooSmall (cellSize data child_sz false).2) :
    child_sz.x + 2 * edge data ≤ (cellSize data child_sz false).1.x ∧
      child_sz.y + 2 * edge data ≤ (cellSize data child_sz false).1.y := by
  unfold cellSize at *
  dsimp only [edge] at *
  split at h
  · split at h
    · rename_i hfixed hdims
      split at h
      · exact absurd List.mem_cons_self h.1
      · rename_i hfits
        simp only [if_pos hfixed, if_pos hdims]
        simp only [Bool.false_eq_true, not_false_eq_true, and_true, not_or, not_lt] at hfits
        exact ⟨by linarith [hfits.1, le_max_right (0 : ℚ) data.width],
          by linarith [hfits.2, le_max_right (0 : ℚ) data.height]⟩
    · rename_i hfixed hdims
      simp only [if_pos hfixed, if_neg hdims]
      constructor
      · exact le_trans (by linarith) (le_max_left _ _)
      · exact le_trans (by linarith) (le_max_left _ _)
  · rename_i hfixed
    simp only [if_neg hfixed]
    constructor
    · exact le_trans (by linarith) (le_max_left _ _)
    · exact le_trans (by linarith) (le_max_left _ _)

mutual

/-- A table of which no part is too small is sized. -/
theorem size_html_tbl_sized {p : parsed_tbl} (hp : SpacingNonneg p) {t : htmltbl_t}
    {warn : List warning} (h : size_html_tbl p = .ok (t, warn)) (hwarn : NoneTooSmall warn) :
    Sized t := by
  match p with
  | .mk tbl rows =>
    rw [size_html_tbl] at h
    split at h
    · cases h
    · obtain ⟨s, hs, h⟩ := bind_eq_ok.1 h
      cases hp with
      | mk hspace hchild =>
        have hinv : LoopInv 0 ⟨∅, 0, 0, [], []⟩ :=
          ⟨⟨fun _ h => (nomatch h), fun _ h => (nomatch h), .nil⟩, fun _ _ h => nomatch h⟩
        obtain ⟨r, hr⟩ := processRows_inv hchild hinv hs
        have hw : NoneTooSmall s.warnings := by
          obtain ⟨⟨_, _⟩, _, h⟩ := bind_eq_ok.1 h
          obtain ⟨⟨_, _⟩, _, h⟩ := bind_eq_ok.1 h
          cases h
          exact hwarn.of_append.1
        exact finishTbl_sized hspace hr.grid (hr.cells hw) h hwarn

theorem processRows_inv {tbl : tblhead} {ruled : List Bool} {rows : List parsed_row} {r : ℕ}
    (hrows : ∀ ruled rp, .mk ruled rp ∈ rows → ∀ cell t, .mk cell (.HTML_TBL t) ∈ rp →
      SpacingNonneg t) {s s' : tblstate} (hinv : LoopInv r s)
    (h : processRows tbl ruled rows r s = .ok s') : ∃ r', LoopInv r' s' := by
  match rows with
  | [] =>
    cases h
    exact ⟨r, hinv⟩
  | .mk isRuled rp :: rows =>
    rw [processRows, processRow] at h
    obtain ⟨mid, hmid, h⟩ := bind_eq_ok.1 h
    have hcells := processCells_inv (hrows isRuled rp List.mem_cons_self) hinv hmid
    exact processRows_inv (fun ruled' rp' hmem => hrows ruled' rp' (List.mem_cons_of_mem _ hmem))
      ⟨hcells.grid.succ, hcells.cells⟩ h

theorem processCells_inv {tbl : tblhead} {ruled : List Bool} {rp : List parsed_cell} {r c : ℕ}
    (hrp : ∀ cell t, .mk cell (.HTML_TBL t) ∈ rp → SpacingNonneg t) {s s' : tblstate}
    (hinv : LoopInv r s) (h : processCells tbl ruled rp r c s = .ok s') : LoopInv r s' := by
  match rp with
  | [] =>
    cases h
    exact hinv
  | .mk cp plabel :: rp =>
    rw [processCells] at h
    obtain ⟨⟨cell, child, warn⟩, hcell, hrest⟩ := bind_eq_ok.1 h
    obtain ⟨⟨c', mid⟩, hplace, hcells'⟩ := bind_eq_ok.1 hrest
    have hsized := size_html_cell_sized
      (fun t ht => hrp cp t (by rw [← ht]; exact List.mem_cons_self)) hcell
    obtain ⟨hgrid, hw, fields, rfl, hcells⟩ := placeCell_spec hinv.grid hplace
    refine processCells_inv (fun cell t hmem => hrp cell t (List.mem_cons_of_mem _ hmem))
      ⟨hgrid, fun hsmall d hd => ?_⟩ hcells'
    rw [hw] at hsmall
    rw [hcells] at hd
    obtain hd | hd := List.mem_append.1 hd
    · exact hinv.cells hsmall.of_append.1 d hd
    · rw [List.mem_singleton.1 hd]
      exact hsized hsmall.of_append.2

theorem size_html_cell_sized {parent : tblhead} {cp : cellhead} {plabel : parsed_label}
    (hp : ∀ t, plabel = .HTML_TBL t → SpacingNonneg t) {cell : cellhead} {child : htmllabel_t}
    {warn : List warning} (h : size_html_cell parent (.mk cp plabel) = .ok (cell, child, warn))
    (hwarn : NoneTooSmall warn) : ChildSized cell.data child := by
  rw [size_html_cell] at h
  obtain ⟨⟨child', warn'⟩, hlabel, h⟩ := bind_eq_ok.1 h
  cases h
  constructor
  · rintro t rfl
    match plabel with
    | .HTML_TBL p =>
      rw [size_html_label] at hlabel
      obtain ⟨⟨t', w⟩, ht, hlabel⟩ := bind_eq_ok.1 hlabel
      cases hlabel
      exact size_html_tbl_sized (hp p rfl) ht hwarn.of_append.1
    | .HTML_TEXT txt => cases hlabel
    | .HTML_IMAGE img => cases hlabel
  · rintro t rfl
    have := cellSize_holds hwarn.of_append.2
    exact ⟨this.1, this.2⟩

end

end Graphviz.Html
