import Graphviz.Html.Geometry
import Graphviz.Html.TblFits

/-!
# `processTbl` with its row numbers

The loops of `processTbl` go through the rows with a number of 16 bits and set and read the bits of
a bit array for the rules below the rows. With more rows than the type of the row number has values
they do not end. Else `processTbl` returns with every cell in its place exactly when the table fits.
-/

namespace Graphviz.Html

open Nat Outcome

/-! ## The loops -/

/-- The bit array: the size is that of `is`. -/
def bitarraySize : ℕ := 65535 + 1

/-- `bitarray_set`. -/
def bitarray_set (is : ℕ → Bool) (index : ℕ) (value : Bool) : Except Fault (ℕ → Bool) := do
  assert (index < bitarraySize)
  return Function.update is index value

/-- `bitarray_get`. -/
def bitarray_get (is : ℕ → Bool) (index : ℕ) : Except Fault Bool := do
  assert (index < bitarraySize)
  return is index

/-- What the first loop of `processTbl` does with a row. -/
def markRow (is : ℕ → Bool) (r : ℕ) (rp : parsed_row) : Except Fault (ℕ → Bool) :=
  if rp.ruled then bitarray_set is (r + 1) true else .ok is

/-- The first loop of `processTbl`, over the rows; `r` is a `uint16_t`. -/
def markRuled (rows : List parsed_row) : ℕ → ℕ → (ℕ → Bool) → Except Fault (ℕ → Bool)
  | 0, _, _ => .error .fuel
  | fuel + 1, r, is =>
    match rows[r]? with
    | none => .ok is
    | some rp => do
      let is ← markRow is r rp
      markRuled rows fuel ((r + 1) % 65536) is

/-- What `processTbl` does with a cell. -/
def processCell (tbl : tblhead) (is : ℕ → Bool) (r : ℕ) (cs : ℕ × tblstate) (cellp : parsed_cell) :
    Except Fault (ℕ × tblstate) := do
  let (c, s) := cs
  let (cell, child, warn) ← size_html_cell tbl cellp
  let (col, ps) ← findCol s.ps r c cell
  -- `c` is a `uint16_t`
  let c := (col + cell.colspan) % 65536
  let hruled ← bitarray_get is (r + cell.rowspan)
  return (c, { ps
               n_rows := max (r + cell.rowspan) s.n_rows
               n_cols := max c s.n_cols
               cells := s.cells ++ [.mk { cell with col, row := r, hruled } child]
               warnings := s.warnings ++ warn })

/-- The second loop of `processTbl`. -/
def placeRows (tbl : tblhead) (is : ℕ → Bool) (rows : List parsed_row) :
    ℕ → ℕ → tblstate → Except Fault tblstate
  | 0, _, _ => .error .fuel
  | fuel + 1, r, s =>
    match rows[r]? with
    | none => .ok s
    | some rp => do
      let (_, s) ← rp.rp.foldlM (processCell tbl is r) (0, s)
      placeRows tbl is rows fuel ((r + 1) % 65536) s

/-- `processTbl`: `row_count` and `column_count` are `n_rows` and `n_cols` of the state that it
returns, and `rv` tells whether there are warnings. -/
def processTbl (fuel : ℕ) (tbl : tblhead) (rows : List parsed_row) : Except Fault tblstate := do
  let is ← markRuled rows fuel 0 fun _ => false
  placeRows tbl is rows fuel 0 ⟨∅, 0, 0, [], []⟩

section Rows

variable {tbl : tblhead} {rows : List parsed_row} {is is' : ℕ → Bool} {r fuel : ℕ}
  {s s' : tblstate}

/-- With too many rows the row number is never past the last one, and neither is it when the rounds
of the loop are fewer than the rows. -/
theorem markRuled_endless (hshort : rows.length ≤ 65535 → r + fuel ≤ rows.length)
    (hr : r < 65536) : markRuled rows fuel r is ≠ .ok is' := by
  induction fuel generalizing r is with
  | zero => exact nofun
  | succ fuel ih =>
    intro h
    have hlt : r < rows.length := by omega
    rw [markRuled, List.getElem?_eq_getElem hlt] at h
    simp only at h
    obtain ⟨is1, -, h⟩ := bind_eq_ok.1 h
    exact ih (fun hlen => by rw [mod_eq_of_lt] <;> omega) (mod_lt _ (by decide)) h

/-- The bits below the ruled rows from the row `r` on. -/
def ruledBits (rows : List parsed_row) (r : ℕ) (is : ℕ → Bool) (k : ℕ) : Bool :=
  is k || decide (r < k ∧ (rows.map parsed_row.ruled)[k - 1]? = some true)

theorem ruledBits_step {rp : parsed_row} (hrp : rows[r]? = some rp) :
    ruledBits rows (r + 1) (if rp.ruled then Function.update is (r + 1) true else is) =
      ruledBits rows r is := by
  funext k
  have hrow : (rows.map parsed_row.ruled)[r]? = some rp.ruled := by rw [List.getElem?_map, hrp]; rfl
  obtain hlt | rfl | hgt := lt_trichotomy k (r + 1)
  · have hk : (if rp.ruled then Function.update is (r + 1) true else is) k = is k := by
      split
      next => exact Function.update_of_ne hlt.ne _ _
      next => rfl
    rw [ruledBits, ruledBits, hk, decide_eq_false (by omega), decide_eq_false (by omega)]
  · rw [ruledBits, ruledBits, decide_eq_false (fun h => lt_irrefl _ h.1), Bool.or_false]
    rw [Nat.add_sub_cancel, hrow]
    split
    next h => simp [h]
    next h => simp [h]
  · have hk : (if rp.ruled then Function.update is (r + 1) true else is) k = is k := by
      split
      next => exact Function.update_of_ne hgt.ne' _ _
      next => rfl
    rw [ruledBits, ruledBits, hk]
    congr 2
    rw [eq_iff_iff]
    exact and_congr_left' (iff_of_true hgt (by omega))

/-- The first loop sets the bits below the ruled rows. -/
theorem markRuled_eq (hlen : rows.length ≤ 65535) (hr : r ≤ rows.length)
    (hfuel : rows.length < r + fuel) : markRuled rows fuel r is = .ok (ruledBits rows r is) := by
  induction fuel generalizing r is with
  | zero => omega
  | succ fuel ih =>
    rw [markRuled]
    obtain rfl | hlt := hr.eq_or_lt
    · rw [List.getElem?_eq_none le_rfl]
      refine congrArg Except.ok (funext fun k => ?_)
      have hnone : ¬(rows.length < k ∧ (rows.map parsed_row.ruled)[k - 1]? = some true) := by
        rintro ⟨hk, hsome⟩
        rw [List.getElem?_eq_none (by rw [List.length_map]; omega)] at hsome
        cases hsome
      exact (by rw [ruledBits, decide_eq_false hnone, Bool.or_false])
    · have hrp := List.getElem?_eq_getElem hlt
      have hmark : markRow is r rows[r] =
          .ok (if rows[r].ruled then Function.update is (r + 1) true else is) := by
        rw [markRow]
        split
        next => rw [bitarray_set, assert, if_pos (by rw [bitarraySize]; omega), ok_bind]; rfl
        next => rfl
      rw [hrp]
      simp only
      rw [hmark, ok_bind, mod_eq_of_lt (by omega), ih (by omega) (by omega),
        ruledBits_step hrp]

theorem bitarray_get_eq {k : ℕ} : bitarray_get (ruledBits rows 0 fun _ => false) k =
    ruledBelow (rows.map parsed_row.ruled) k := by
  have hbit : ruledBits rows 0 (fun _ => false) k =
      decide (k ≠ 0 ∧ (rows.map parsed_row.ruled)[k - 1]? = some true) := by
    rw [ruledBits, Bool.false_or, decide_eq_decide]
    exact and_congr_left' pos_iff_ne_zero
  rw [bitarray_get, ruledBelow, hbit]
  rfl

theorem processCell_eq {c : ℕ} {cp : parsed_cell} :
    processCell tbl (ruledBits rows 0 fun _ => false) r (c, s) cp = size_html_cell tbl cp >>=
      fun x => placeCell (rows.map parsed_row.ruled) r c s x.1 x.2.1 x.2.2 := by
  rw [processCell]
  simp only [bitarray_get_eq]
  rfl

/-- With the bits below the ruled rows the cells of a row are placed as by `processCells`. -/
theorem foldlM_processCell {rp : List parsed_cell} {c : ℕ} :
    (rp.foldlM (processCell tbl (ruledBits rows 0 fun _ => false) r) (c, s) >>= fun x => .ok x.2) =
      processCells tbl (rows.map parsed_row.ruled) rp r c s := by
  induction rp generalizing c s with
  | nil => rfl
  | cons cp rp ih =>
    rw [List.foldlM_cons, processCells, processCell_eq]
    cases hcell : size_html_cell tbl cp with
    | error e => rfl
    | ok x =>
      obtain ⟨cell, child, warn⟩ := x
      rw [ok_bind, ok_bind]
      simp only
      cases hplace : placeCell (rows.map parsed_row.ruled) r c s cell child warn with
      | error e => rfl
      | ok y =>
        rw [ok_bind, ok_bind]
        exact ih

/-- The second loop goes through the rows that are left. -/
theorem placeRows_eq (hlen : rows.length ≤ 65535) (hr : r ≤ rows.length)
    (hfuel : rows.length < r + fuel) :
    placeRows tbl (ruledBits rows 0 fun _ => false) rows fuel r s =
      processRows tbl (rows.map parsed_row.ruled) (rows.drop r) r s := by
  induction fuel generalizing r s with
  | zero => omega
  | succ fuel ih =>
    rw [placeRows]
    obtain rfl | hlt := hr.eq_or_lt
    · rw [List.getElem?_eq_none le_rfl, List.drop_length, processRows]
    · rw [List.getElem?_eq_getElem hlt, List.drop_eq_getElem_cons hlt, processRows]
      have hrow : processRow tbl (rows.map parsed_row.ruled) rows[r] r s =
          processCells tbl (rows.map parsed_row.ruled) rows[r].rp r 0 s := by
        cases rows[r] with
        | mk isRuled rp => rw [processRow]; rfl
      rw [hrow, ← foldlM_processCell]
      simp only
      cases rows[r].rp.foldlM (processCell tbl (ruledBits rows 0 fun _ => false) r) (0, s) with
      | error e => rfl
      | ok x =>
        rw [ok_bind, ok_bind, ok_bind, mod_eq_of_lt (by omega)]
        exact ih (by omega) (by omega)

/-- `processTbl` returns what `processRows` does, when the row numbers fit. -/
theorem processTbl_eq (hlen : rows.length ≤ 65535) (hfuel : rows.length < fuel) :
    processTbl fuel tbl rows = processRows tbl (rows.map parsed_row.ruled) rows 0 noCells := by
  rw [processTbl, markRuled_eq hlen (zero_le _) (by omega), ok_bind,
    placeRows_eq hlen (zero_le _) (by omega), List.drop_zero]

end Rows

/-! ## Places -/

/-- The cells of the rows have their places: rectangles of the size of their spans in their rows,
that share no slot and lie within the table, each at the first column where it fits, and a cell is
ruled when there is a rule below its last row. -/
structure CellsInPlace (rows : List parsed_row) (s : tblstate) : Prop where
  shapes : s.tiles.map shape = shapes 0 rows
  apart : s.cells.Pairwise fun a b => Disjoint a.grid b.grid
  within : ∀ d ∈ s.cells, d.fields.col + d.fields.colspan ≤ s.n_cols ∧
    d.fields.row + d.fields.rowspan ≤ s.n_rows
  placed : FirstFit.Placed s.tiles
  hruled : ∀ d ∈ s.cells, d.fields.hruled = true ↔
    ∃ row, rows[d.fields.row + d.fields.rowspan - 1]? = some row ∧ row.ruled = true

variable {tbl : tblhead} {rows : List parsed_row} {s : tblstate} {fuel : ℕ}

/-- A table whose cells have got their places fits. -/
theorem processTbl_fits (hrun : processTbl fuel tbl rows = .ok s) (hplace : CellsInPlace rows s) :
    TblFits (.mk tbl rows) := by
  obtain ⟨is, his, hrows⟩ := bind_eq_ok.1 hrun
  -- the first loop has come to its end
  have hend : ¬(rows.length ≤ 65535 → 0 + fuel ≤ rows.length) := fun hshort =>
    markRuled_endless hshort (by decide) his
  obtain ⟨hcount, hfuel⟩ := Classical.not_imp.1 hend
  rw [processTbl_eq hcount (by omega)] at hrun
  obtain ⟨⟨r, hplaced⟩, hchild⟩ := processRows_places noCells_places rfl hrun
  exact .mk (hplaced.rowsFit hcount fun d hd => (hplace.within d hd).1) hchild

/-- The cells of a table that fits get their places. -/
theorem processTbl_ok (h : TblFits (.mk tbl rows)) :
    ∃ fuel s, processTbl fuel tbl rows = .ok s ∧ CellsInPlace rows s := by
  cases h with
  | mk hfits hchild =>
    obtain ⟨ts, hplaced, hshape, hcol⟩ := hfits.colspan
    have hg : GridPlaces (rows.map parsed_row.ruled) 0 noCells := noCells_places
    obtain ⟨s, r, hrun, hcells, hs⟩ := processRows_ok tbl hchild hg noCells_inOrder rfl hplaced
      hshape hfits.rowspan hcol
    obtain ⟨⟨r', hall⟩, -⟩ := processRows_places hg rfl hrun
    refine ⟨rows.length + 1, s, ?_, hall.shapes_eq, ?_,
      fun d hd => ⟨hs.cols d hd, hcells.rows d hd⟩, hs.placed, fun d hd => ?_⟩
    · rw [processTbl_eq hfits.count (lt_succ_self _), hrun]
    · have hpair := hs.placed.pairwise
      rw [List.pairwise_map] at hpair
      exact hpair
    · rw [hcells.hruled d hd, List.getElem?_map, Option.map_eq_some_iff]

/-- `processTbl` ends and gives every cell its place exactly when the table and the tables in its
cells have at most 65535 rows, no cell ends below row 65535, and at the first columns where they fit
no cell ends right of column 65535. -/
theorem processTbl_in_place_iff (tbl : tblhead) (rows : List parsed_row) :
    (∃ fuel s, processTbl fuel tbl rows = .ok s ∧ CellsInPlace rows s) ↔
      TblFits (.mk tbl rows) :=
  ⟨fun ⟨_, _, hrun, hplace⟩ => processTbl_fits hrun hplace, processTbl_ok⟩

/-- A cell with text. -/
def textCell (rowspan : ℕ) (hpos : 0 < rowspan) : parsed_cell :=
  .mk ⟨plainData false .HALIGN_CENTER 0 0, 1, rowspan, Nat.one_pos, hpos⟩
    (.HTML_TEXT ⟨⟨0, 0⟩, [], ⟨⟨0, 0⟩, ⟨0, 0⟩⟩⟩)

/-- A cell of the second row that spans all rows that there can be ends below row 65535. -/
theorem processTbl_long_span :
    let rows : List parsed_row :=
      [.mk false [textCell 1 one_pos], .mk false [textCell 65535 (by decide)]]
    ¬∃ fuel s, processTbl fuel ⟨plainData false .HALIGN_CENTER 0 0, -1⟩ rows = .ok s ∧
      CellsInPlace rows s := by
  intro rows
  rintro ⟨fuel, s, hrun, hplace⟩
  cases processTbl_fits hrun hplace with
  | mk hfits _ =>
    have hlast := hfits.rowspan (1, 65535, 1) (List.mem_cons_of_mem _ List.mem_cons_self)
    exact absurd hlast (by decide)

end Graphviz.Html
