import Graphviz.Common.Geom
import Graphviz.Util.Fault

/-!
# HTML-like tables

The sizes of the cells and tables of a label, found from the inside out, and their positions,
found from the outside in. Coordinates are exact. A text carries the size that its fonts give it
and an image the size that its file gives it.
-/

namespace Graphviz.Html

open Finset

/-! ## Labels -/

/-- `HALIGN_MASK`: what a cell or table says of its horizontal alignment. -/
inductive halign where
  | HALIGN_LEFT
  | HALIGN_RIGHT
  | HALIGN_TEXT
  | HALIGN_CENTER
  deriving DecidableEq

/-- `VALIGN_MASK`. -/
inductive valign where
  | VALIGN_TOP
  | VALIGN_BOTTOM
  | VALIGN_MIDDLE
  deriving DecidableEq

/-- `BALIGN_MASK`. -/
inductive balign where
  | BALIGN_LEFT
  | BALIGN_RIGHT
  | BALIGN_CENTER
  deriving DecidableEq

/-- `flags` of a `htmldata_t`. -/
structure htmlflags where
  FIXED_FLAG : Bool
  HALIGN : halign
  VALIGN : valign
  BALIGN : balign
  BORDER_SET : Bool
  PAD_SET : Bool
  SPACE_SET : Bool

/-- `htmldata_t`. -/
structure htmldata_t where
  pencolor : Option String
  space : ℤ
  border : ℕ
  pad : ℕ
  sides : UInt8
  flags : htmlflags
  width : ℕ
  height : ℕ
  box : boxf

/-- `htmltxt_t`: the size of the text, and the alignment of its lines. -/
structure htmltxt_t where
  size : pointf
  just : List (Option Char)
  box : boxf

/-- `htmlimg_t`: the size of the image, unless its file is missing or improper. -/
structure htmlimg_t where
  size : Option (ℤ × ℤ)
  box : boxf

/-- A table as it is parsed, without its rows. -/
structure tblhead where
  data : htmldata_t
  cellborder : ℤ

/-- A cell as it is parsed, without what is in it. -/
structure cellhead where
  data : htmldata_t
  colspan : ℕ
  rowspan : ℕ
  colspan_pos : 0 < colspan
  rowspan_pos : 0 < rowspan

/-- `htmltbl_t`, without its cells: the sizes of the rows and columns, then their positions. -/
structure tblfields extends tblhead where
  heights : ℕ → ℚ
  widths : ℕ → ℚ
  row_count : ℕ
  column_count : ℕ

/-- `htmlcell_t`, without what is in it. -/
structure cellfields extends cellhead where
  col : ℕ
  row : ℕ
  hruled : Bool

mutual

/-- A parsed table: rows of cells. -/
inductive parsed_tbl where
  | mk (tbl : tblhead) (rows : List parsed_row)

/-- `row_t`. -/
inductive parsed_row where
  | mk (ruled : Bool) (rp : List parsed_cell)

/-- A parsed cell. -/
inductive parsed_cell where
  | mk (cell : cellhead) (child : parsed_label)

/-- A parsed label. -/
inductive parsed_label where
  | HTML_TBL (tbl : parsed_tbl)
  | HTML_TEXT (txt : htmltxt_t)
  | HTML_IMAGE (img : htmlimg_t)

end

mutual

/-- `htmltbl_t` in its final form. -/
inductive htmltbl_t where
  | mk (tbl : tblfields) (cells : List htmlcell_t)

/-- `htmlcell_t`. -/
inductive htmlcell_t where
  | mk (cell : cellfields) (child : htmllabel_t)

/-- `htmllabel_t`. -/
inductive htmllabel_t where
  | HTML_TBL (tbl : htmltbl_t)
  | HTML_TEXT (txt : htmltxt_t)
  | HTML_IMAGE (img : htmlimg_t)

end

/-- The fields of a table. -/
def htmltbl_t.fields : htmltbl_t → tblfields
  | .mk tbl _ => tbl

/-- The fields of a cell. -/
def htmlcell_t.fields : htmlcell_t → cellfields
  | .mk cell _ => cell

/-- What is in a cell. -/
def htmlcell_t.child : htmlcell_t → htmllabel_t
  | .mk _ child => child

/-- `box.UR` of a label, which is its size before it has a position. -/
def htmllabel_t.UR : htmllabel_t → pointf
  | .HTML_TBL tbl => tbl.fields.data.box.UR
  | .HTML_TEXT txt => txt.box.UR
  | .HTML_IMAGE img => img.box.UR

/-- The warnings while a table is sized; each of them makes the status nonzero. -/
inductive warning where
  | cell_too_small
  | cell_unspecified
  | table_too_small
  | table_unspecified
  | improper_image
  deriving DecidableEq

/-! ## Sizes of columns and rows -/

/-- A cell along one axis: the first column or row, how many it spans, and its size. -/
structure span where
  start : ℕ
  len : ℕ
  size : ℚ

/-- What the columns of a span have together. -/
def spanSize (sizes : ℕ → ℚ) (s : span) : ℚ :=
  ∑ j ∈ Finset.range s.len, sizes (s.start + j)

/-- The spacing within a span. -/
def spacing (space : ℤ) (s : span) : ℚ :=
  ((s.len : ℤ) - 1) * space

/-- The first loop of `set_cell_widths`, over the cells that span one column only. -/
def sizeSingle (count : ℕ) (sizes : ℕ → ℚ) (s : span) : Except Fault (ℕ → ℚ) :=
  if s.len > 1 then .ok sizes
  else do
    assert (s.start < count)
    return Function.update sizes s.start (max (sizes s.start) s.size)

/-- The second loop of `set_cell_widths`, which widens what a cell spans. -/
def sizeSpanning (count : ℕ) (space : ℤ) (sizes : ℕ → ℚ) (s : span) : Except Fault (ℕ → ℚ) :=
  if s.len = 1 then .ok sizes
  else do
    assert (s.start + s.len ≤ count)
    if spanSize sizes s + spacing space s < s.size then
      let widen_by := (s.size - spacing space s - spanSize sizes s) / s.len
      return fun k => if s.start ≤ k ∧ k < s.start + s.len then sizes k + widen_by else sizes k
    else return sizes

/-- The third loop of `set_cell_widths`: the new size of a cell. -/
def sizeCell (count : ℕ) (space : ℤ) (sizes : ℕ → ℚ) (s : span) : Except Fault ℚ := do
  assert (s.start + s.len ≤ count)
  return max s.size (spanSize sizes s + spacing space s)

/-- What `set_cell_widths` and `set_cell_heights` do along their axes: the sizes of the columns
and of the cells. -/
def set_cell_sizes (count : ℕ) (space : ℤ) (cells : List span) :
    Except Fault ((ℕ → ℚ) × List ℚ) := do
  let sizes ← cells.foldlM (sizeSingle count) fun _ => 0
  let sizes ← cells.foldlM (sizeSpanning count space) sizes
  let new ← cells.mapM (sizeCell count space sizes)
  return (sizes, new)

/-- The columns of a cell. -/
def htmlcell_t.colSpan (cp : htmlcell_t) : span :=
  ⟨cp.fields.col, cp.fields.colspan, cp.fields.data.box.UR.x⟩

/-- The rows of a cell. -/
def htmlcell_t.rowSpan (cp : htmlcell_t) : span :=
  ⟨cp.fields.row, cp.fields.rowspan, cp.fields.data.box.UR.y⟩

/-- A cell with a new width. -/
def htmlcell_t.setURx (cp : htmlcell_t) (x : ℚ) : htmlcell_t :=
  let c := cp.fields
  .mk { c with data := { c.data with box := { c.data.box with UR := ⟨x, c.data.box.UR.y⟩ } } }
    cp.child

/-- A cell with a new height. -/
def htmlcell_t.setURy (cp : htmlcell_t) (y : ℚ) : htmlcell_t :=
  let c := cp.fields
  .mk { c with data := { c.data with box := { c.data.box with UR := ⟨c.data.box.UR.x, y⟩ } } }
    cp.child

/-- `set_cell_widths`. -/
def set_cell_widths (tbl : tblfields) (cells : List htmlcell_t) :
    Except Fault (tblfields × List htmlcell_t) := do
  let (widths, xs) ← set_cell_sizes tbl.column_count tbl.data.space (cells.map (·.colSpan))
  return ({ tbl with widths }, cells.zipWith htmlcell_t.setURx xs)

/-- `set_cell_heights`. -/
def set_cell_heights (tbl : tblfields) (cells : List htmlcell_t) :
    Except Fault (tblfields × List htmlcell_t) := do
  let (heights, ys) ← set_cell_sizes tbl.row_count tbl.data.space (cells.map (·.rowSpan))
  return ({ tbl with heights }, cells.zipWith htmlcell_t.setURy ys)

/-! ## Places in the grid -/

/-- `PointSet`, of columns and rows. -/
abbrev PointSet := Finset (ℕ × ℕ)

/-- The search of `findCol` for a column from which on the cell's columns are free in the row. -/
def findFree (ps : PointSet) (row colspan col : ℕ) : ℕ :=
  -- the loop from the last column down to `col` stops at the last column that is taken
  match h : (List.range colspan).reverse.find? fun j => (col + j, row) ∈ ps with
  | some j => findFree ps row colspan (col + j + 1)
  | none => col
termination_by (ps.filter fun p => col ≤ p.1).card
decreasing_by
  have hj : (col + j, row) ∈ ps := by simpa using List.find?_some h
  refine card_lt_card ⟨fun p hp => ?_, fun hsub => ?_⟩
  · obtain ⟨hp, hle⟩ := mem_filter.1 hp
    exact mem_filter.2 ⟨hp, by omega⟩
  · have := hsub (mem_filter.2 ⟨hj, by simp⟩)
    have := (mem_filter.1 this).2
    simp at this

/-- The cells of the grid that a cell covers. -/
def covered (row col : ℕ) (cellp : cellhead) : PointSet :=
  Ico col (col + cellp.colspan) ×ˢ Ico row (row + cellp.rowspan)

/-- `findCol`: the column, and the cells of the grid taken. -/
def findCol (ps : PointSet) (row col : ℕ) (cellp : cellhead) : Except Fault (ℕ × PointSet) := do
  let col := findFree ps row cellp.colspan col
  assert (col ≤ 65535)
  return (col, ps ∪ covered row col cellp)

/-! ## Sizes -/

/-- `size_html_txt`, given the size of the text. -/
def size_html_txt (ftxt : htmltxt_t) : htmltxt_t :=
  { ftxt with box := { ftxt.box with UR := ftxt.size } }

/-- `size_html_img`, given the size of the image. -/
def size_html_img (img : htmlimg_t) : htmlimg_t × List warning :=
  match img.size with
  | none => ({ img with box := ⟨⟨0, 0⟩, ⟨0, 0⟩⟩ }, [.improper_image])
  | some UR => ({ img with box := ⟨⟨0, 0⟩, ⟨UR.1, UR.2⟩⟩ }, [])

/-- The padding of a cell. -/
def cellPad (cp : htmldata_t) (parent : tblhead) : ℕ :=
  if cp.flags.PAD_SET then cp.pad
  else if parent.data.flags.PAD_SET then parent.data.pad
  else 2

/-- The border of a cell. -/
def cellBorder (cp : htmldata_t) (parent : tblhead) : ℕ :=
  if cp.flags.BORDER_SET then cp.border
  else if parent.cellborder ≥ 0 then parent.cellborder.toNat
  else if parent.data.flags.BORDER_SET then parent.data.border
  else 1

/-- The size of a cell with the given data whose child has the size `child_sz`. -/
def cellSize (data : htmldata_t) (child_sz : pointf) (isImage : Bool) : pointf × List warning :=
  let margin : ℚ := 2 * (data.pad + data.border)
  let sz : pointf := ⟨child_sz.x + margin, child_sz.y + margin⟩
  let (sz, warn) : pointf × List warning :=
    if data.flags.FIXED_FLAG then
      if data.width ≠ 0 ∧ data.height ≠ 0 then
        (⟨0, 0⟩, if (data.width < sz.x ∨ data.height < sz.y) ∧ ¬ isImage then [.cell_too_small]
          else [])
      else (sz, [.cell_unspecified])
    else (sz, [])
  (⟨max sz.x data.width, max sz.y data.height⟩, warn)

/-- The sums at the end of `size_html_tbl`: the size of a table along one axis. -/
def tblExtent (count : ℕ) (space : ℤ) (border : ℕ) (sizes : ℕ → ℚ) : ℚ :=
  (count + 1) * space + 2 * border + ∑ i ∈ Finset.range count, sizes i

/-- The size of a table whose columns and rows are sized. -/
def tblSize (tbl : tblfields) : pointf × List warning :=
  let wd := tblExtent tbl.column_count tbl.data.space tbl.data.border tbl.widths
  let ht := tblExtent tbl.row_count tbl.data.space tbl.data.border tbl.heights
  let ((wd, ht), warn) : (ℚ × ℚ) × List warning :=
    if tbl.data.flags.FIXED_FLAG then
      if tbl.data.width ≠ 0 ∧ tbl.data.height ≠ 0 then
        ((0, 0), if tbl.data.width < wd ∨ tbl.data.height < ht then [.table_too_small] else [])
      else ((wd, ht), [.table_unspecified])
    else ((wd, ht), [])
  (⟨max wd tbl.data.width, max ht tbl.data.height⟩, warn)

/-- The state of the loops of `processTbl`: the cells of the grid taken, the counts, the cells in
their final form, and the warnings. -/
structure tblstate where
  ps : PointSet
  n_rows : ℕ
  n_cols : ℕ
  cells : List htmlcell_t
  warnings : List warning

/-- `bitarray_get`, of the bits that `processTbl` sets below the ruled rows. -/
def ruledBelow (rows : List Bool) (k : ℕ) : Except Fault Bool := do
  assert (k < 65536)
  return k ≠ 0 ∧ rows[k - 1]? = some true

/-- What `processTbl` does with a cell that is sized; `c` is the column from which on it is put. -/
def placeCell (ruled : List Bool) (r c : ℕ) (s : tblstate) (cellp : cellhead)
    (child : htmllabel_t) (warn : List warning) : Except Fault (ℕ × tblstate) := do
  let (col, ps) ← findCol s.ps r c cellp
  -- `c` is a `uint16_t`
  let c := (col + cellp.colspan) % 65536
  let hruled ← ruledBelow ruled (r + cellp.rowspan)
  return (c, { ps := ps
               n_rows := max (r + cellp.rowspan) s.n_rows
               n_cols := max c s.n_cols
               cells := s.cells ++ [.mk { cellp with col, row := r, hruled } child]
               warnings := s.warnings ++ warn })

/-- `size_html_tbl` after `processTbl`: the defaults, the sizes of columns and rows, and that of
the table. -/
def finishTbl (tbl : tblhead) (s : tblstate) : Except Fault (htmltbl_t × List warning) := do
  let data := { tbl.data with
    space := if tbl.data.flags.SPACE_SET then tbl.data.space else 2
    border := if tbl.data.flags.BORDER_SET then tbl.data.border else 1 }
  let tbl : tblfields := { tbl with data, heights := fun _ => 0, widths := fun _ => 0,
                                    row_count := s.n_rows, column_count := s.n_cols }
  let (tbl, cells) ← set_cell_widths tbl s.cells
  let (tbl, cells) ← set_cell_heights tbl cells
  let (UR, warn) := tblSize tbl
  let tbl := { tbl with data := { tbl.data with box := { tbl.data.box with UR } } }
  return (.mk tbl cells, s.warnings ++ warn)

/-- Whether a row has a rule below it. -/
def parsed_row.ruled : parsed_row → Bool
  | .mk ruled _ => ruled

mutual

/-- `size_html_tbl`; the rows are gone through as in `processTbl`, whose row number is a
`uint16_t`. -/
def size_html_tbl : parsed_tbl → Except Fault (htmltbl_t × List warning)
  | .mk tbl rows => do
    if rows.length > 65535 then throw .fuel
    let s ← processRows tbl (rows.map parsed_row.ruled) rows 0 ⟨∅, 0, 0, [], []⟩
    finishTbl tbl s

/-- The outer loop of `processTbl`. -/
def processRows (tbl : tblhead) (ruled : List Bool) :
    List parsed_row → ℕ → tblstate → Except Fault tblstate
  | [], _, s => .ok s
  | row :: rows, r, s => do
    let s ← processRow tbl ruled row r s
    processRows tbl ruled rows (r + 1) s

/-- The body of the outer loop of `processTbl`. -/
def processRow (tbl : tblhead) (ruled : List Bool) :
    parsed_row → ℕ → tblstate → Except Fault tblstate
  | .mk _ rp, r, s => processCells tbl ruled rp r 0 s

/-- The inner loop of `processTbl`. -/
def processCells (tbl : tblhead) (ruled : List Bool) :
    List parsed_cell → ℕ → ℕ → tblstate → Except Fault tblstate
  | [], _, _, s => .ok s
  | cellp :: rp, r, c, s => do
    let (cell, child, warn) ← size_html_cell tbl cellp
    let (c, s) ← placeCell ruled r c s cell child warn
    processCells tbl ruled rp r c s

/-- `size_html_cell`. -/
def size_html_cell (parent : tblhead) :
    parsed_cell → Except Fault (cellhead × htmllabel_t × List warning)
  | .mk cp child => do
    let (child, warn) ← size_html_label child
    let data := { cp.data with pad := cellPad cp.data parent, border := cellBorder cp.data parent }
    let isImage := match child with
      | .HTML_IMAGE _ => true
      | _ => false
    let (UR, warn') := cellSize data child.UR isImage
    return ({ cp with data := { data with box := { data.box with UR } } }, child, warn ++ warn')

/-- The switch of `size_html_cell` on what is in the cell. -/
def size_html_label : parsed_label → Except Fault (htmllabel_t × List warning)
  | .HTML_TBL tbl => do
    let (tbl, warn) ← size_html_tbl tbl
    return (.HTML_TBL tbl, warn)
  | .HTML_TEXT txt => return (.HTML_TEXT (size_html_txt txt), [])
  | .HTML_IMAGE img => do
    let (img, warn) := size_html_img img
    return (.HTML_IMAGE img, warn)

end

/-! ## Positions -/

/-- The horizontal alignment of a fixed cell in `pos_html_cell`. -/
def alignCellX (data : htmldata_t) (pos : boxf) : boxf :=
  let oldsz := data.box.UR
  let delx := pos.UR.x - pos.LL.x - oldsz.x
  if delx > 0 then
    match data.flags.HALIGN with
    | .HALIGN_LEFT => ⟨pos.LL, ⟨pos.LL.x + oldsz.x, pos.UR.y⟩⟩
    | .HALIGN_RIGHT => ⟨⟨pos.LL.x + delx, pos.LL.y⟩, ⟨pos.UR.x + delx, pos.UR.y⟩⟩
    | _ => ⟨⟨pos.LL.x + delx / 2, pos.LL.y⟩, ⟨pos.UR.x - delx / 2, pos.UR.y⟩⟩
  else pos

/-- The vertical alignment of a fixed cell in `pos_html_cell`. -/
def alignCellY (data : htmldata_t) (pos : boxf) : boxf :=
  let oldsz := data.box.UR
  let dely := pos.UR.y - pos.LL.y - oldsz.y
  if dely > 0 then
    match data.flags.VALIGN with
    | .VALIGN_BOTTOM => ⟨pos.LL, ⟨pos.UR.x, pos.LL.y + oldsz.y⟩⟩
    | .VALIGN_TOP => ⟨⟨pos.LL.x, pos.LL.y + dely⟩, ⟨pos.UR.x, pos.UR.y + dely⟩⟩
    | .VALIGN_MIDDLE => ⟨⟨pos.LL.x, pos.LL.y + dely / 2⟩, ⟨pos.UR.x, pos.UR.y - dely / 2⟩⟩
  else pos

/-- The alignment of a cell in `pos_html_cell`. -/
def alignCell (data : htmldata_t) (pos : boxf) : boxf :=
  if data.flags.FIXED_FLAG then alignCellY data (alignCellX data pos) else pos

/-- The box that a cell at `pos` leaves to what is in it. -/
def childBox (data : htmldata_t) (pos : boxf) : boxf :=
  ⟨⟨pos.LL.x + data.border + data.pad, pos.LL.y + data.border + data.pad⟩,
    ⟨pos.UR.x - data.border - data.pad, pos.UR.y - data.border - data.pad⟩⟩

/-- The alignment of an image in `pos_html_cell`. -/
def alignImg (data : htmldata_t) (oldsz : pointf) (cbox : boxf) : boxf :=
  let delx := cbox.UR.x - cbox.LL.x - oldsz.x
  let cbox : boxf :=
    if delx > 0 then
      match data.flags.HALIGN with
      | .HALIGN_LEFT => ⟨cbox.LL, ⟨cbox.UR.x - delx, cbox.UR.y⟩⟩
      | .HALIGN_RIGHT => ⟨⟨cbox.LL.x + delx, cbox.LL.y⟩, cbox.UR⟩
      | _ => cbox
    else cbox
  let dely := cbox.UR.y - cbox.LL.y - oldsz.y
  if dely > 0 then
    match data.flags.VALIGN with
    | .VALIGN_BOTTOM => ⟨cbox.LL, ⟨cbox.UR.x, cbox.UR.y - dely⟩⟩
    | .VALIGN_TOP => ⟨⟨cbox.LL.x, cbox.LL.y + dely⟩, cbox.UR⟩
    | .VALIGN_MIDDLE => cbox
  else cbox

/-- The alignment of a text in `pos_html_cell`. -/
def alignTxt (data : htmldata_t) (oldsz : pointf) (cbox : boxf) : boxf :=
  let delx := cbox.UR.x - cbox.LL.x - oldsz.x
  let cbox : boxf :=
    if delx > 0 then
      match data.flags.HALIGN with
      | .HALIGN_TEXT => cbox
      | .HALIGN_LEFT => ⟨cbox.LL, ⟨cbox.UR.x - delx, cbox.UR.y⟩⟩
      | .HALIGN_RIGHT => ⟨⟨cbox.LL.x + delx, cbox.LL.y⟩, cbox.UR⟩
      | .HALIGN_CENTER => ⟨⟨cbox.LL.x + delx / 2, cbox.LL.y⟩, ⟨cbox.UR.x - delx / 2, cbox.UR.y⟩⟩
    else cbox
  let dely := cbox.UR.y - cbox.LL.y - oldsz.y
  if dely > 0 then
    match data.flags.VALIGN with
    | .VALIGN_BOTTOM => ⟨cbox.LL, ⟨cbox.UR.x, cbox.UR.y - dely⟩⟩
    | .VALIGN_TOP => ⟨⟨cbox.LL.x, cbox.LL.y + dely⟩, cbox.UR⟩
    | .VALIGN_MIDDLE => ⟨⟨cbox.LL.x, cbox.LL.y + dely / 2⟩, ⟨cbox.UR.x, cbox.UR.y - dely / 2⟩⟩
  else cbox

/-- The default alignment of the lines of a text in a cell. -/
def dfltalign : balign → Char
  | .BALIGN_LEFT => 'l'
  | .BALIGN_RIGHT => 'r'
  | .BALIGN_CENTER => 'n'

/-- `pos_html_txt`. -/
def pos_html_txt (ftxt : htmltxt_t) (c : Char) : htmltxt_t :=
  { ftxt with just := ftxt.just.map fun just => some (just.getD c) }

/-- `pos_html_img`. -/
def pos_html_img (cp : htmlimg_t) (pos : boxf) : htmlimg_t :=
  { cp with box := pos }

/-- The horizontal alignment of a fixed table in `pos_html_tbl`, with `delx` to spare; `oldsz` is
what the variable of this name holds there, the height. -/
def alignTblX (data : htmldata_t) (oldsz delx : ℚ) (pos : boxf) : boxf :=
  if delx > 0 then
    match data.flags.HALIGN with
    | .HALIGN_LEFT => ⟨pos.LL, ⟨pos.LL.x + oldsz, pos.UR.y⟩⟩
    | .HALIGN_RIGHT => ⟨⟨pos.LL.x + delx, pos.LL.y⟩, ⟨pos.UR.x + delx, pos.UR.y⟩⟩
    | _ => ⟨⟨pos.LL.x + delx / 2, pos.LL.y⟩, ⟨pos.UR.x - delx / 2, pos.UR.y⟩⟩
  else pos

/-- The vertical alignment of a fixed table in `pos_html_tbl`, with `dely` to spare. -/
def alignTblY (data : htmldata_t) (oldsz dely : ℚ) (pos : boxf) : boxf :=
  if dely > 0 then
    match data.flags.VALIGN with
    | .VALIGN_BOTTOM => ⟨pos.LL, ⟨pos.UR.x, pos.LL.y + oldsz⟩⟩
    | .VALIGN_TOP => ⟨⟨pos.LL.x, pos.LL.y + dely⟩, ⟨pos.UR.x, pos.LL.y + dely + oldsz⟩⟩
    | .VALIGN_MIDDLE => ⟨⟨pos.LL.x, pos.LL.y + dely / 2⟩, ⟨pos.UR.x, pos.UR.y - dely / 2⟩⟩
  else pos

/-- The start of `pos_html_tbl`: the box of the table, and the extra width and height left for its
cells. -/
def alignTbl (data : htmldata_t) (pos : boxf) : boxf × ℚ × ℚ :=
  let oldsz := data.box.UR.x
  let delx := max (pos.UR.x - pos.LL.x - oldsz) 0
  let oldsz := data.box.UR.y
  let dely := max (pos.UR.y - pos.LL.y - oldsz) 0
  if data.flags.FIXED_FLAG then
    (alignTblY data oldsz dely (alignTblX data oldsz delx pos), if delx > 0 then 0 else delx,
      if dely > 0 then 0 else dely)
  else (pos, delx, dely)

/-- What the loops of `pos_html_tbl` go on by after a column or row, without the spacing. -/
def advance (count : ℕ) (del : ℚ) (sizes : ℕ → ℚ) (i : ℕ) : ℚ :=
  let extra := del / count
  let plus := cround (del - extra * count)
  sizes i + extra + if i ≤ 2147483647 ∧ (i : ℤ) < plus then 1 else 0

/-- The values of a coordinate that starts at `x` and changes by `step i` in the round `i`. -/
def starts (x : ℚ) (step : ℕ → ℚ) : ℕ → ℚ
  | 0 => x
  | i + 1 => starts x step i + step i

/-- The fields of a table that has its position. -/
def posTbl (tbl : tblfields) (pos : boxf) (sides : UInt8) (pencolor : Option String) : tblfields :=
  let (pos, delx, dely) := alignTbl tbl.data pos
  let x := pos.LL.x + tbl.data.border + tbl.data.space
  let y := pos.UR.y - tbl.data.border - tbl.data.space
  { tbl with
    data := { tbl.data with box := pos, sides, pencolor := tbl.data.pencolor.or pencolor }
    widths := starts x fun i => advance tbl.column_count delx tbl.widths i + tbl.data.space
    heights := starts y fun i => -(advance tbl.row_count dely tbl.heights i + tbl.data.space) }

/-- The box that a table with its position gives to a cell. -/
def cellBox (tbl : tblfields) (cp : cellfields) : boxf :=
  ⟨⟨tbl.widths cp.col, tbl.heights (cp.row + cp.rowspan) + tbl.data.space⟩,
    ⟨tbl.widths (cp.col + cp.colspan) - tbl.data.space, tbl.heights cp.row⟩⟩

/-- The sides of a table that a cell is at. -/
def cellSides (tbl : tblfields) (cp : cellfields) : UInt8 :=
  if tbl.data.sides = 0 then 0
  else
    (if cp.col = 0 then 8 else 0) ||| (if cp.row = 0 then 4 else 0) |||
      (if cp.col + cp.colspan = tbl.column_count then 2 else 0) |||
      if cp.row + cp.rowspan = tbl.row_count then 1 else 0

/-- The fields of a cell that has its position. -/
def posCell (cell : cellfields) (pos : boxf) (sides : UInt8) (pencolor : Option String) :
    cellfields :=
  { cell with
    data := { cell.data with
      box := alignCell cell.data pos, sides, pencolor := cell.data.pencolor.or pencolor } }

mutual

/-- `pos_html_tbl`, for a table in a cell with the given pen colour. -/
def pos_html_tbl (pos : boxf) (sides : UInt8) (pencolor : Option String) : htmltbl_t → htmltbl_t
  | .mk tbl cells =>
    let tbl := posTbl tbl pos sides pencolor
    .mk tbl (pos_html_cells tbl cells)

/-- The loop of `pos_html_tbl` over the cells. -/
def pos_html_cells (tbl : tblfields) : List htmlcell_t → List htmlcell_t
  | [] => []
  | .mk cp child :: cells =>
    pos_html_cell (cellBox tbl cp) (tbl.data.sides &&& cellSides tbl cp) tbl.data.pencolor
      (.mk cp child) :: pos_html_cells tbl cells

/-- `pos_html_cell`, for a cell of a table with the given pen colour. -/
def pos_html_cell (pos : boxf) (sides : UInt8) (pencolor : Option String) :
    htmlcell_t → htmlcell_t
  | .mk cell child =>
    let cell := posCell cell pos sides pencolor
    .mk cell (pos_html_label cell.data child)

/-- The end of `pos_html_cell`: the position of what is in the cell. -/
def pos_html_label (data : htmldata_t) : htmllabel_t → htmllabel_t
  | .HTML_TBL tbl =>
    .HTML_TBL (pos_html_tbl (childBox data data.box) data.sides data.pencolor tbl)
  | .HTML_IMAGE img =>
    .HTML_IMAGE (pos_html_img img (alignImg data img.box.UR (childBox data data.box)))
  | .HTML_TEXT txt =>
    .HTML_TEXT (pos_html_txt { txt with box := alignTxt data txt.box.UR (childBox data data.box) }
      (dfltalign data.flags.BALIGN))

end

end Graphviz.Html
