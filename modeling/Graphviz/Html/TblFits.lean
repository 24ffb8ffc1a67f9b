import Graphviz.Html.Sized
import Graphviz.Library.FirstFit

/-!
# The places of the cells in the grid

`findCol` finds the first column from which on the slots of the row are free, so that a cell is at
the first column where it fits, as long as no column number leaves its type. What is left of the
size of a table does not fail when its cells are within its rows and columns.
-/

namespace Graphviz.Html

open List Nat Outcome

/-! ## Rows and cells -/

/-- The cells of a row. -/
def parsed_row.rp : parsed_row → List parsed_cell
  | .mk _ rp => rp

/-- A cell without what is in it. -/
def parsed_cell.head : parsed_cell → cellhead
  | .mk cell _ => cell

/-- What is in a cell. -/
def parsed_cell.child : parsed_cell → parsed_label
  | .mk _ child => child

/-- The rectangle of slots that a cell has. -/
def htmlcell_t.tile (c : htmlcell_t) : FirstFit.Tile :=
  ⟨c.fields.row, c.fields.col, c.fields.rowspan, c.fields.colspan⟩

/-- The rectangles of the cells. -/
abbrev tblstate.tiles (s : tblstate) : List FirstFit.Tile :=
  s.cells.map (·.tile)

/-- A rectangle without its column. -/
def shape (t : FirstFit.Tile) : ℕ × ℕ × ℕ :=
  (t.row, t.rowspan, t.colspan)

/-- The rectangles of the cells of a row, without their columns. -/
def rowShapes (r : ℕ) (rp : List parsed_cell) : List (ℕ × ℕ × ℕ) :=
  rp.map fun c => (r, c.head.rowspan, c.head.colspan)

/-- The rectangles of the cells of some rows. -/
def shapes : ℕ → List parsed_row → List (ℕ × ℕ × ℕ)
  | _, [] => []
  | r, row :: rows => rowShapes r row.rp ++ shapes (r + 1) rows

/-! ## One cell -/

variable {ps : PointSet} {row colspan col k r c c' : ℕ} {ruled : List Bool} {s s' : tblstate}
  {cellp : cellhead} {child : htmllabel_t} {warn : List warning} {t : FirstFit.Tile}

theorem findFree_le : col ≤ findFree ps row colspan col := by
  fun_induction findFree ps row colspan col with
  | case1 col j hj ih => omega
  | case2 col hnone => exact le_rfl

/-- No column before the one that `findCol` finds is free. -/
theorem findFree_least (hle : col ≤ k) (hfree : ∀ j < colspan, (k + j, row) ∉ ps) :
    findFree ps row colspan col ≤ k := by
  fun_induction findFree ps row colspan col with
  | case1 col j hj ih =>
    refine ih (succ_le_of_lt (not_le.1 fun hkj => ?_))
    -- the column is one of those of the cell at `k`
    have hmem : (col + j, row) ∈ ps := by simpa using find?_some hj
    have hlt : j < colspan := by simpa using mem_of_find?_eq_some hj
    refine hfree (col + j - k) (by omega) ?_
    rwa [Nat.add_sub_cancel' hkj]
  | case2 col hnone => exact hle

/-- What the loops of `processTbl` keep, at the row `r`. -/
structure GridPlaces (ruled : List Bool) (r : ℕ) (s : tblstate) : Prop where
  slots : ∀ p, p ∈ s.ps ↔ ∃ d ∈ s.cells, p ∈ d.tile.slots
  row : ∀ d ∈ s.cells, d.fields.row ≤ r
  rows : ∀ d ∈ s.cells, d.fields.row + d.fields.rowspan ≤ s.n_rows
  rowspan : ∀ d ∈ s.cells, d.fields.row + d.fields.rowspan ≤ 65535
  n_cols : s.n_cols ≤ 65535
  hruled : ∀ d ∈ s.cells, d.fields.hruled = true ↔
    ruled[d.fields.row + d.fields.rowspan - 1]? = some true

/-- The cells are placed at the first columns where they fit, within the columns of the table. -/
structure InOrder (s : tblstate) : Prop where
  placed : FirstFit.Placed s.tiles
  cols : ∀ d ∈ s.cells, d.fields.col + d.fields.colspan ≤ s.n_cols

/-- `findCol` finds the first column where the cell fits. -/
theorem findFree_fits (hg : GridPlaces ruled r s) (hspan : 0 < t.rowspan) (hrow : t.row = r) :
    IsLeast {c | FirstFit.start s.tiles r ≤ c ∧ FirstFit.Free s.tiles { t with col := c }}
      (findFree s.ps r t.colspan (FirstFit.start s.tiles r)) := by
  have hfree : ∀ k, FirstFit.Free s.tiles { t with col := k } ↔
      ∀ j < t.colspan, (k + j, r) ∉ s.ps := by
    intro k
    rw [@FirstFit.free_iff { t with col := k } _ ?_ hspan]
    · refine forall₂_congr fun j _ => ?_
      rw [hg.slots, forall_mem_map, hrow]
      exact (not_exists.trans (forall_congr' fun d => not_and)).symm
    · rw [forall_mem_map]
      intro d hd
      exact hrow ▸ hg.row d hd
  constructor
  · exact ⟨findFree_le, (hfree _).2 fun j hj => findFree_free s.ps r t.colspan _ j hj⟩
  · rintro k ⟨hle, hk⟩
    exact findFree_least hle ((hfree k).1 hk)

/-- The cell that `placeCell` places. -/
def placed (ruled : List Bool) (r c : ℕ) (s : tblstate) (cellp : cellhead) (child : htmllabel_t) :
    htmlcell_t :=
  .mk { cellp with col := findFree s.ps r cellp.colspan c, row := r
                   hruled := decide (r + cellp.rowspan ≠ 0 ∧
                     ruled[r + cellp.rowspan - 1]? = some true) } child

/-- `placeCell` returns when the cell is within the rows and columns that there can be. -/
theorem placeCell_iff {x : ℕ × tblstate} : placeCell ruled r c s cellp child warn = .ok x ↔
    findFree s.ps r cellp.colspan c ≤ 65535 ∧ r + cellp.rowspan ≤ 65535 ∧
      x = ((findFree s.ps r cellp.colspan c + cellp.colspan) % 65536,
        { ps := s.ps ∪ (placed ruled r c s cellp child).grid
          n_rows := max (r + cellp.rowspan) s.n_rows
          n_cols := max ((findFree s.ps r cellp.colspan c + cellp.colspan) % 65536) s.n_cols
          cells := s.cells ++ [placed ruled r c s cellp child]
          warnings := s.warnings ++ warn }) := by
  constructor
  · intro h
    obtain ⟨⟨col, ps⟩, hcol, h⟩ := bind_eq_ok.1 h
    obtain ⟨hruled, hbit, h⟩ := bind_eq_ok.1 h
    obtain ⟨_, hassert, hcol⟩ := bind_eq_ok.1 hcol
    obtain ⟨_, hassert', hbit⟩ := bind_eq_ok.1 hbit
    cases hcol
    cases hbit
    cases h
    exact ⟨assert_eq_ok hassert, le_of_lt_succ (assert_eq_ok hassert'), rfl⟩
  · rintro ⟨hcol, hrow, rfl⟩
    rw [placeCell, findCol, ruledBelow, assert, if_pos hcol, assert, if_pos (lt_succ_of_le hrow)]
    rfl

theorem tiles_append {d : htmlcell_t} (h : s'.cells = s.cells ++ [d]) :
    s'.tiles = s.tiles ++ [d.tile] := by
  rw [tblstate.tiles, h, map_append]
  rfl

theorem placed_grid : (placed ruled r c s cellp child).grid =
    (placed ruled r c s cellp child).tile.slots :=
  rfl

/-- A cell that has been placed. -/
theorem placeCell_places (hg : GridPlaces ruled r s)
    (h : placeCell ruled r c s cellp child warn = .ok (c', s')) : GridPlaces ruled r s' := by
  obtain ⟨-, hrow, heq⟩ := placeCell_iff.1 h
  obtain ⟨-, rfl⟩ := Prod.mk.inj heq
  have hadd : ∀ {P : htmlcell_t → Prop}, (∀ d ∈ s.cells, P d) →
      P (placed ruled r c s cellp child) →
      ∀ d ∈ s.cells ++ [placed ruled r c s cellp child], P d := fun hold hnew =>
    forall_mem_append.2 ⟨hold, forall_mem_singleton.2 hnew⟩
  refine ⟨fun p => ?_, hadd hg.row le_rfl, hadd (fun d hd => ?_) (le_max_left _ _),
    hadd hg.rowspan hrow, max_le ?_ hg.n_cols, hadd hg.hruled ?_⟩
  · rw [Finset.mem_union, hg.slots, placed_grid]
    simp only [mem_append, mem_singleton, or_and_right, exists_or, exists_eq_left]
  · exact (hg.rows d hd).trans (le_max_right _ _)
  · omega
  · change decide (r + cellp.rowspan ≠ 0 ∧ _) = true ↔ _
    rw [decide_eq_true_iff]
    exact and_iff_right (Nat.add_pos_right r cellp.rowspan_pos).ne'

/-- Within the columns that there can be, a cell is at the first column where it fits. -/
theorem placeCell_inOrder (hg : GridPlaces ruled r s) (hs : InOrder s)
    (hc : c = FirstFit.start s.tiles r) (h : placeCell ruled r c s cellp child warn = .ok (c', s'))
    (hends : ∀ d ∈ s'.cells, d.fields.col + d.fields.colspan ≤ 65535) :
    InOrder s' ∧ c' = FirstFit.start s'.tiles r := by
  obtain ⟨-, -, heq⟩ := placeCell_iff.1 h
  obtain ⟨rfl, rfl⟩ := Prod.mk.inj heq
  have hend : findFree s.ps r cellp.colspan c + cellp.colspan ≤ 65535 :=
    hends (placed ruled r c s cellp child) (mem_append_right _ mem_cons_self)
  have hmod := mod_eq_of_lt (lt_succ_of_le hend)
  have hfits : FirstFit.Fits s.tiles (placed ruled r c s cellp child).tile := by
    have hleast := findFree_fits hg
      (show 0 < (placed ruled r c s cellp child).tile.rowspan from cellp.rowspan_pos) rfl
    rw [← hc] at hleast
    rw [FirstFit.Fits]
    exact hc ▸ hleast
  refine ⟨⟨?_, forall_mem_append.2 ⟨fun d hd => ?_, ?_⟩⟩, ?_⟩
  · rw [tiles_append rfl]
    exact FirstFit.placed_append.2 ⟨hs.placed, hfits⟩
  · exact (hs.cols d hd).trans (le_max_right _ _)
  · rw [forall_mem_singleton]
    refine le_trans ?_ (le_max_left _ _)
    rw [hmod]
    exact le_rfl
  · rw [tiles_append rfl, FirstFit.start_append, hmod]
    exact (if_pos rfl).symm

/-- A cell has its place when there is one within the columns that there can be. -/
theorem placeCell_ok (child : htmllabel_t) (warn : List warning) (hg : GridPlaces ruled r s)
    (hc : c = FirstFit.start s.tiles r)
    (hfits : FirstFit.Fits s.tiles t) (hshape : shape t = (r, cellp.rowspan, cellp.colspan))
    (hrow : r + cellp.rowspan ≤ 65535) (hcol : t.col + t.colspan ≤ 65535) :
    ∃ c' s', placeCell ruled r c s cellp child warn = .ok (c', s') ∧
      s'.tiles = s.tiles ++ [t] := by
  obtain ⟨row, col, rowspan, colspan⟩ := t
  obtain ⟨rfl, rfl, rfl⟩ : row = r ∧ rowspan = cellp.rowspan ∧ colspan = cellp.colspan := by
    simpa only [shape, Prod.mk.injEq] using hshape
  have hleast := findFree_fits (t := ⟨row, col, cellp.rowspan, cellp.colspan⟩) hg
    cellp.rowspan_pos rfl
  obtain rfl : findFree s.ps row cellp.colspan c = col := by
    rw [hc]
    exact hleast.unique hfits
  refine ⟨_, _, placeCell_iff.2 ⟨?_, hrow, rfl⟩, ?_⟩
  · exact (le_add_right _ _).trans hcol
  · exact @tiles_append s _ (placed ruled row c s cellp child) rfl

end Graphviz.Html

/-!
## The tables that fit

A table fits when the rows and columns that its cells need fit into the types of their numbers, and
so do the tables in its cells. `size_html_tbl` returns for these tables and no others.
-/

namespace Graphviz.Html

open List Outcome

/-! ## Tables that fit -/

/-- The rows of a table and the places of their cells fit into 16 bits. -/
structure RowsFit (rows : List parsed_row) : Prop where
  count : rows.length ≤ 65535
  rowspan : ∀ x ∈ shapes 0 rows, x.1 + x.2.1 ≤ 65535
  colspan : ∃ ts, FirstFit.Placed ts ∧ ts.map shape = shapes 0 rows ∧
    ∀ t ∈ ts, t.col + t.colspan ≤ 65535

/-- The rows of a table fit, and those of the tables in its cells. -/
inductive TblFits : parsed_tbl → Prop
  | mk {tbl : tblhead} {rows : List parsed_row} (fits : RowsFit rows)
      (child : ∀ row ∈ rows, ∀ cell ∈ row.rp, ∀ t, cell.child = .HTML_TBL t → TblFits t) :
      TblFits (.mk tbl rows)

/-! ## The sizes of the columns -/

variable {count : ℕ} {space : ℤ} {sizes : ℕ → ℚ} {spans : List span}

theorem exists_bind_ok {α β : Type} {x : Except Fault α} {f : α → Except Fault β}
    (hx : ∃ a, x = .ok a) (hf : ∀ a, x = .ok a → ∃ b, f a = .ok b) : ∃ b, x >>= f = .ok b := by
  obtain ⟨a, ha⟩ := hx
  obtain ⟨b, hb⟩ := hf a ha
  exact ⟨b, bind_eq_ok.2 ⟨a, ha, hb⟩⟩

theorem foldlM_ok {α β : Type} {f : β → α → Except Fault β} {l : List α} {b : β}
    (h : ∀ a ∈ l, ∀ b, ∃ b', f b a = .ok b') : ∃ b', l.foldlM f b = .ok b' := by
  induction l generalizing b with
  | nil => exact ⟨b, rfl⟩
  | cons a l ih =>
    obtain ⟨b', hb'⟩ := h a mem_cons_self b
    rw [foldlM_cons, hb']
    exact ih fun a ha => h a (mem_cons_of_mem _ ha)

theorem mapM_ok {α β : Type} {f : α → Except Fault β} {l : List α}
    (h : ∀ a ∈ l, ∃ b, f a = .ok b) : ∃ bs, l.mapM f = .ok bs := by
  induction l with
  | nil => exact ⟨[], rfl⟩
  | cons a l ih =>
    obtain ⟨b, hb⟩ := h a mem_cons_self
    obtain ⟨bs, hbs⟩ := ih fun a ha => h a (mem_cons_of_mem _ ha)
    rw [mapM_cons, hb, hbs]
    exact ⟨_, rfl⟩

/-- The sizes are found when the cells are within the columns. -/
theorem set_cell_sizes_ok (hlen : ∀ s ∈ spans, 0 < s.len)
    (hcount : ∀ s ∈ spans, s.start + s.len ≤ count) :
    ∃ x, set_cell_sizes count space spans = .ok x := by
  have hassert : ∀ {p : Prop} [Decidable p], p → assert p = .ok () := fun hp => if_pos hp
  obtain ⟨sizes1, h1⟩ : ∃ sizes, spans.foldlM (sizeSingle count) (fun _ => 0) = .ok sizes := by
    refine foldlM_ok fun s hs sizes => ?_
    rw [sizeSingle]
    split
    next => exact ⟨_, rfl⟩
    next hone =>
      have hle := hcount s hs
      have hpos := hlen s hs
      rw [hassert (show s.start < count by omega)]
      exact ⟨_, rfl⟩
  obtain ⟨sizes2, h2⟩ : ∃ sizes, spans.foldlM (sizeSpanning count space) sizes1 = .ok sizes := by
    refine foldlM_ok fun s hs sizes => ?_
    rw [sizeSpanning]
    split
    next => exact ⟨_, rfl⟩
    next hone =>
      rw [hassert (hcount s hs), ok_bind]
      split <;> exact ⟨_, rfl⟩
  obtain ⟨new, h3⟩ : ∃ new, spans.mapM (sizeCell count space sizes2) = .ok new := by
    refine mapM_ok fun s hs => ?_
    rw [sizeCell, hassert (hcount s hs)]
    exact ⟨_, rfl⟩
  rw [set_cell_sizes, h1, ok_bind, h2, ok_bind, h3]
  exact ⟨_, rfl⟩

theorem set_cell_widths_ok {tbl : tblfields} {cells : List htmlcell_t}
    (h : ∀ d ∈ cells, d.fields.col + d.fields.colspan ≤ tbl.column_count) :
    ∃ x, set_cell_widths tbl cells = .ok x := by
  have hsizes : ∃ x, set_cell_sizes tbl.column_count tbl.data.space (cells.map (·.colSpan)) =
      .ok x := by
    refine set_cell_sizes_ok ?_ ?_ <;> rw [forall_mem_map]
    · exact fun d _ => d.fields.colspan_pos
    · exact h
  obtain ⟨x, hx⟩ := hsizes
  exact ⟨_, bind_eq_ok.2 ⟨x, hx, rfl⟩⟩

theorem set_cell_heights_ok {tbl : tblfields} {cells : List htmlcell_t}
    (h : ∀ d ∈ cells, d.fields.row + d.fields.rowspan ≤ tbl.row_count) :
    ∃ x, set_cell_heights tbl cells = .ok x := by
  have hsizes : ∃ x, set_cell_sizes tbl.row_count tbl.data.space (cells.map (·.rowSpan)) =
      .ok x := by
    refine set_cell_sizes_ok ?_ ?_ <;> rw [forall_mem_map]
    · exact fun d _ => d.fields.rowspan_pos
    · exact h
  obtain ⟨x, hx⟩ := hsizes
  exact ⟨_, bind_eq_ok.2 ⟨x, hx, rfl⟩⟩

/-- The end of `size_html_tbl` returns when the cells are within the table. -/
theorem finishTbl_ok (tbl : tblhead) {s : tblstate}
    (hcols : ∀ d ∈ s.cells, d.fields.col + d.fields.colspan ≤ s.n_cols)
    (hrows : ∀ d ∈ s.cells, d.fields.row + d.fields.rowspan ≤ s.n_rows) :
    ∃ x, finishTbl tbl s = .ok x := by
  rw [finishTbl]
  refine exists_bind_ok (set_cell_widths_ok hcols) fun ⟨tbl1, cells1⟩ hx => ?_
  obtain ⟨widths, rfl, -, -, -, rfl⟩ := set_cell_widths_spec hx
  refine exists_bind_ok (set_cell_heights_ok ?_) fun _ _ => ⟨_, rfl⟩
  rw [forall_mem_map]
  exact hrows

/-- The cells are within the table when the end of `size_html_tbl` returns. -/
theorem finishTbl_cols {tbl : tblhead} {s : tblstate} {x : htmltbl_t × List warning}
    (h : finishTbl tbl s = .ok x) : ∀ d ∈ s.cells, d.fields.col + d.fields.colspan ≤ s.n_cols := by
  obtain ⟨⟨tbl1, cells1⟩, hx, -⟩ := bind_eq_ok.1 h
  obtain ⟨-, -, -, hcol, -⟩ := set_cell_widths_spec hx
  exact hcol

/-! ## The recursion -/

section Placed

variable {tbl : tblhead} {ruled : List Bool} {rows : List parsed_row} {rp : List parsed_cell}
  {r c : ℕ} {s s' : tblstate}

/-- Some cells have been placed: those of the shapes, in their order, if the column `c` is where
the first of them comes. -/
structure CellsPlaced (ruled : List Bool) (new : List (ℕ × ℕ × ℕ)) (hc : Prop) (r : ℕ)
    (s s' : tblstate) : Prop where
  grid : GridPlaces ruled r s'
  cells : ∃ added, s'.cells = s.cells ++ added ∧ added.map (fun d => shape d.tile) = new
  order : hc → InOrder s → (∀ d ∈ s'.cells, d.fields.col + d.fields.colspan ≤ 65535) → InOrder s'

theorem size_html_cell_spans {parent : tblhead} {cp : parsed_cell} {cell : cellhead}
    {child : htmllabel_t} {warn : List warning}
    (h : size_html_cell parent cp = .ok (cell, child, warn)) :
    cell.rowspan = cp.head.rowspan ∧ cell.colspan = cp.head.colspan := by
  cases cp with
  | mk cp label =>
    rw [size_html_cell] at h
    obtain ⟨⟨_, _⟩, -, h⟩ := bind_eq_ok.1 h
    cases h
    exact ⟨rfl, rfl⟩

theorem CellsPlaced.nil {hc : Prop} (hg : GridPlaces ruled r s) : CellsPlaced ruled [] hc r s s :=
  ⟨hg, ⟨[], (append_nil _).symm, rfl⟩, fun _ hs _ => hs⟩

/-- One more cell first. -/
theorem CellsPlaced.cons {cell : cellhead} {child : htmllabel_t} {warn : List warning} {c' : ℕ}
    {mid : tblstate} {new : List (ℕ × ℕ × ℕ)} (hg : GridPlaces ruled r s)
    (h : placeCell ruled r c s cell child warn = .ok (c', mid))
    (hrest : CellsPlaced ruled new (c' = FirstFit.start mid.tiles r) r mid s') :
    CellsPlaced ruled ((r, cell.rowspan, cell.colspan) :: new) (c = FirstFit.start s.tiles r) r s
      s' := by
  obtain ⟨added, hadded, hshape⟩ := hrest.cells
  obtain ⟨-, -, heq⟩ := placeCell_iff.1 h
  have hmid : mid.cells = s.cells ++ [placed ruled r c s cell child] := by
    rw [(Prod.mk.inj heq).2]
  refine ⟨hrest.grid, ⟨placed ruled r c s cell child :: added, ?_, ?_⟩, fun hc hs hends => ?_⟩
  · rw [hadded, hmid, append_assoc]
    rfl
  · rw [map_cons, hshape]
    rfl
  · obtain ⟨hs1, hc1⟩ := placeCell_inOrder hg hs hc h fun d hd =>
      hends d (hadded ▸ mem_append_left _ hd)
    exact hrest.order hc1 hs1 hends

/-- A row, and the rows below it. -/
theorem CellsPlaced.append {mid : tblstate} {r' : ℕ} {new new' : List (ℕ × ℕ × ℕ)} {hc hc' : Prop}
    (h : CellsPlaced ruled new hc r s mid) (h' : CellsPlaced ruled new' hc' r' mid s') (hc₁ : hc')
    : CellsPlaced ruled (new ++ new') hc r' s s' := by
  obtain ⟨added, hadded, hshape⟩ := h.cells
  obtain ⟨added', hadded', hshape'⟩ := h'.cells
  refine ⟨h'.grid, ⟨added ++ added', ?_, ?_⟩, fun hc hs hends => ?_⟩
  · rw [hadded', hadded, append_assoc]
  · rw [map_append, hshape, hshape']
  · refine h'.order hc₁ (h.order hc hs fun d hd => ?_) hends
    exact hends d (hadded' ▸ mem_append_left _ hd)

theorem GridPlaces.succ (hg : GridPlaces ruled r s) : GridPlaces ruled (r + 1) s :=
  { hg with row := fun d hd => (hg.row d hd).trans (Nat.le_succ r) }

theorem GridPlaces.start (hg : GridPlaces ruled r s) : FirstFit.start s.tiles (r + 1) = 0 := by
  refine FirstFit.start_zero ?_
  rw [forall_mem_map]
  exact fun d hd => Nat.lt_succ_of_le (hg.row d hd)

/-- The state before the first row. -/
abbrev noCells : tblstate :=
  ⟨∅, 0, 0, [], []⟩

theorem noCells_places : GridPlaces ruled 0 noCells :=
  ⟨fun p => iff_of_false (Finset.notMem_empty p) nofun, nofun, nofun, nofun, Nat.zero_le _, nofun⟩

theorem noCells_inOrder : InOrder noCells :=
  ⟨FirstFit.placed_nil, nofun⟩

/-- The rectangles of the cells are those of the rows. -/
theorem CellsPlaced.shapes_eq {hc : Prop}
    (h : CellsPlaced ruled (shapes 0 rows) hc r noCells s) : s.tiles.map shape = shapes 0 rows := by
  obtain ⟨added, hadded, hshape⟩ := h.cells
  rw [← hshape, tblstate.tiles, hadded, map_map]
  rfl

/-- The places of the cells show that the table fits. -/
theorem CellsPlaced.rowsFit (h : CellsPlaced ruled (shapes 0 rows) True r noCells s)
    (hcount : rows.length ≤ 65535)
    (hcols : ∀ d ∈ s.cells, d.fields.col + d.fields.colspan ≤ s.n_cols) : RowsFit rows := by
  have hends : ∀ d ∈ s.cells, d.fields.col + d.fields.colspan ≤ 65535 := fun d hd =>
    (hcols d hd).trans h.grid.n_cols
  refine ⟨hcount, ?_, s.tiles, (h.order trivial noCells_inOrder hends).placed, h.shapes_eq, ?_⟩
  · rw [← h.shapes_eq, forall_mem_map, forall_mem_map]
    exact h.grid.rowspan
  · rw [forall_mem_map]
    exact hends

end Placed

mutual

/-- A table that has been sized fits. -/
theorem size_html_tbl_fits {p : parsed_tbl} {x : htmltbl_t × List warning}
    (h : size_html_tbl p = .ok x) : TblFits p := by
  match p with
  | .mk tbl rows =>
    rw [size_html_tbl] at h
    split at h
    next => cases h
    next hcount =>
      obtain ⟨s, hs, hfinish⟩ := bind_eq_ok.1 h
      obtain ⟨⟨r, hplaced⟩, hchild⟩ := processRows_places noCells_places rfl hs
      exact .mk (hplaced.rowsFit (not_lt.1 hcount) (finishTbl_cols hfinish)) hchild

theorem processRows_places {tbl : tblhead} {ruled : List Bool} {rows : List parsed_row} {r : ℕ}
    {s s' : tblstate} (hg : GridPlaces ruled r s) (hstart : FirstFit.start s.tiles r = 0)
    (h : processRows tbl ruled rows r s = .ok s') :
    (∃ r', CellsPlaced ruled (shapes r rows) True r' s s') ∧
      ∀ row ∈ rows, ∀ cell ∈ row.rp, ∀ t, cell.child = .HTML_TBL t → TblFits t := by
  match rows with
  | [] =>
    cases h
    exact ⟨⟨r, .nil hg⟩, nofun⟩
  | .mk isRuled rp :: rows =>
    rw [processRows, processRow] at h
    obtain ⟨mid, hmid, h⟩ := bind_eq_ok.1 h
    obtain ⟨hcells, hchild⟩ := processCells_places hg hmid
    obtain ⟨⟨r', hrows⟩, hchild'⟩ := processRows_places hcells.grid.succ hcells.grid.start h
    refine ⟨⟨r', ?_⟩, forall_mem_cons.2 ⟨hchild, hchild'⟩⟩
    have happ := hcells.append hrows trivial
    exact ⟨happ.grid, happ.cells, fun _ => happ.order hstart.symm⟩

theorem processCells_places {tbl : tblhead} {ruled : List Bool} {rp : List parsed_cell} {r c : ℕ}
    {s s' : tblstate} (hg : GridPlaces ruled r s) (h : processCells tbl ruled rp r c s = .ok s') :
    CellsPlaced ruled (rowShapes r rp) (c = FirstFit.start s.tiles r) r s s' ∧
      ∀ cell ∈ rp, ∀ t, cell.child = .HTML_TBL t → TblFits t := by
  match rp with
  | [] =>
    cases h
    exact ⟨.nil hg, nofun⟩
  | cp :: rp =>
    rw [processCells] at h
    obtain ⟨⟨cell, child, warn⟩, hcell, hrest⟩ := bind_eq_ok.1 h
    obtain ⟨⟨c', mid⟩, hplace, hcells⟩ := bind_eq_ok.1 hrest
    obtain ⟨hrow, hcol⟩ := size_html_cell_spans hcell
    obtain ⟨hplaced, hchild⟩ := processCells_places (placeCell_places hg hplace) hcells
    refine ⟨?_, forall_mem_cons.2 ⟨size_html_cell_fits hcell, hchild⟩⟩
    rw [rowShapes, map_cons, ← hrow, ← hcol]
    exact hplaced.cons hg hplace

theorem size_html_cell_fits {parent : tblhead} {cp : parsed_cell}
    {x : cellhead × htmllabel_t × List warning} (h : size_html_cell parent cp = .ok x) :
    ∀ t, cp.child = .HTML_TBL t → TblFits t := by
  match cp with
  | .mk cp label =>
    rw [size_html_cell] at h
    obtain ⟨⟨child, warn⟩, hlabel, -⟩ := bind_eq_ok.1 h
    match label with
    | .HTML_TBL p =>
      rw [size_html_label] at hlabel
      obtain ⟨y, hy, -⟩ := bind_eq_ok.1 hlabel
      intro t ht
      cases ht
      exact size_html_tbl_fits hy
    | .HTML_TEXT txt => exact nofun
    | .HTML_IMAGE img => exact nofun

end

mutual

/-- A table that fits is sized. -/
theorem size_html_tbl_ok {p : parsed_tbl} (h : TblFits p) : ∃ x, size_html_tbl p = .ok x := by
  match p with
  | .mk tbl rows =>
    cases h with
    | mk hfits hchild =>
      obtain ⟨ts, hplaced, hshape, hcol⟩ := hfits.colspan
      have hg : GridPlaces (rows.map parsed_row.ruled) 0 noCells := noCells_places
      obtain ⟨s, r, hrun, hcells, hs⟩ := processRows_ok tbl hchild hg noCells_inOrder rfl hplaced
        hshape hfits.rowspan hcol
      obtain ⟨x, hx⟩ := finishTbl_ok tbl hs.cols hcells.rows
      rw [size_html_tbl, if_neg hfits.count.not_gt]
      exact ⟨x, bind_eq_ok.2 ⟨s, hrun, hx⟩⟩

theorem processRows_ok (tbl : tblhead) {ruled : List Bool} {rows : List parsed_row} {r : ℕ}
    {s : tblstate} {ts : List FirstFit.Tile}
    (hchild : ∀ row ∈ rows, ∀ cell ∈ row.rp, ∀ t, cell.child = .HTML_TBL t → TblFits t)
    (hg : GridPlaces ruled r s) (hs : InOrder s) (hstart : FirstFit.start s.tiles r = 0)
    (hplaced : FirstFit.Placed (s.tiles ++ ts)) (hshape : ts.map shape = shapes r rows)
    (hrow : ∀ x ∈ shapes r rows, x.1 + x.2.1 ≤ 65535) (hcol : ∀ t ∈ ts, t.col + t.colspan ≤ 65535) :
    ∃ s' r', processRows tbl ruled rows r s = .ok s' ∧ GridPlaces ruled r' s' ∧ InOrder s' := by
  match rows with
  | [] => exact ⟨s, r, rfl, hg, hs⟩
  | .mk isRuled rp :: rows =>
    obtain ⟨ts1, ts2, rfl, hshape1, hshape2⟩ := map_eq_append_iff.1 hshape
    obtain ⟨hrow1, hrow2⟩ := forall_mem_append.1 hrow
    obtain ⟨hcol1, hcol2⟩ := forall_mem_append.1 hcol
    rw [← append_assoc] at hplaced
    obtain ⟨mid, hmid, htiles, hg1, hs1⟩ := processCells_ok tbl
      (hchild _ mem_cons_self) hg hs hstart.symm hplaced hshape1 hrow1 hcol1
    obtain ⟨s', r', hrun, hg', hs'⟩ := processRows_ok tbl
      (fun row hrow => hchild row (mem_cons_of_mem _ hrow)) hg1.succ hs1 hg1.start
      (htiles ▸ hplaced) hshape2 hrow2 hcol2
    refine ⟨s', r', ?_, hg', hs'⟩
    rw [processRows, processRow]
    exact bind_eq_ok.2 ⟨mid, hmid, hrun⟩

theorem processCells_ok (tbl : tblhead) {ruled : List Bool} {rp : List parsed_cell} {r c : ℕ}
    {s : tblstate} {ts us : List FirstFit.Tile}
    (hchild : ∀ cell ∈ rp, ∀ t, cell.child = .HTML_TBL t → TblFits t)
    (hg : GridPlaces ruled r s) (hs : InOrder s) (hc : c = FirstFit.start s.tiles r)
    (hplaced : FirstFit.Placed (s.tiles ++ ts ++ us)) (hshape : ts.map shape = rowShapes r rp)
    (hrow : ∀ x ∈ rowShapes r rp, x.1 + x.2.1 ≤ 65535)
    (hcol : ∀ t ∈ ts, t.col + t.colspan ≤ 65535) :
    ∃ s', processCells tbl ruled rp r c s = .ok s' ∧ s'.tiles = s.tiles ++ ts ∧
      GridPlaces ruled r s' ∧ InOrder s' := by
  match rp with
  | [] =>
    obtain rfl := map_eq_nil_iff.1 hshape
    exact ⟨s, rfl, (append_nil _).symm, hg, hs⟩
  | cp :: rp =>
    obtain ⟨t, ts, rfl, hshape1, hshape2⟩ := map_eq_cons_iff.1 hshape
    obtain ⟨hrow1, hrow2⟩ := forall_mem_cons.1 hrow
    obtain ⟨hcol1, hcol2⟩ := forall_mem_cons.1 hcol
    obtain ⟨⟨cell, child, warn⟩, hcell⟩ := size_html_cell_ok tbl (hchild cp mem_cons_self)
    obtain ⟨hrowspan, hcolspan⟩ := size_html_cell_spans hcell
    have hshape1' : shape t = (r, cell.rowspan, cell.colspan) := by
      rw [hrowspan, hcolspan]
      exact hshape1
    have hrow1' : r + cell.rowspan ≤ 65535 := by
      rw [hrowspan]
      exact hrow1
    rw [append_assoc, cons_append] at hplaced
    obtain ⟨c', mid, hplace, htiles⟩ := placeCell_ok child warn hg hc hplaced.fits hshape1'
      hrow1' hcol1
    have hg1 := placeCell_places hg hplace
    have hends : ∀ d ∈ mid.cells, d.fields.col + d.fields.colspan ≤ 65535 := by
      have htile : ∀ u ∈ mid.tiles, u.col + u.colspan ≤ 65535 := by
        rw [htiles, forall_mem_append, forall_mem_map, forall_mem_singleton]
        exact ⟨fun d hd => (hs.cols d hd).trans hg.n_cols, hcol1⟩
      exact fun d hd => htile d.tile (mem_map_of_mem hd)
    obtain ⟨hs1, hc1⟩ := placeCell_inOrder hg hs hc hplace hends
    have hplaced1 : FirstFit.Placed (mid.tiles ++ ts ++ us) := by
      rw [htiles, append_assoc, append_assoc]
      exact hplaced
    obtain ⟨s', hrun, htiles', hg', hs'⟩ := processCells_ok tbl
      (fun cell hcell => hchild cell (mem_cons_of_mem _ hcell)) hg1 hs1 hc1 hplaced1
      hshape2 hrow2 hcol2
    refine ⟨s', ?_, ?_, hg', hs'⟩
    · rw [processCells, hcell, ok_bind]
      change (placeCell ruled r c s cell child warn >>= _) = _
      rw [hplace]
      exact hrun
    · rw [htiles', htiles, append_assoc]
      rfl

theorem size_html_cell_ok (parent : tblhead) {cp : parsed_cell}
    (h : ∀ t, cp.child = .HTML_TBL t → TblFits t) : ∃ x, size_html_cell parent cp = .ok x := by
  match cp with
  | .mk cp label =>
    rw [size_html_cell]
    match label with
    | .HTML_TBL p =>
      obtain ⟨⟨t, warn⟩, ht⟩ := size_html_tbl_ok (h p rfl)
      rw [size_html_label, ht]
      exact ⟨_, rfl⟩
    | .HTML_TEXT txt =>
      rw [size_html_label]
      exact ⟨_, rfl⟩
    | .HTML_IMAGE img =>
      rw [size_html_label]
      exact ⟨_, rfl⟩

end

end Graphviz.Html
