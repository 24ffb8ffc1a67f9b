import Graphviz.Html.Sized

/-!
# The geometry of tables

After `pos_html_tbl` the cells and the tables in them lie in the boxes that are allotted to them
and have their computed sizes, exactly if they are fixed, unless a fixed cell or table with room
to spare has an alignment whose formula moves it out of its box or mixes up width and height.
-/

namespace Graphviz.Html

open Nat

/-- The width of a box. -/
def wide (b : boxf) : ℚ := b.UR.x - b.LL.x

/-- The height of a box. -/
def high (b : boxf) : ℚ := b.UR.y - b.LL.y

/-! ## Alignment of cells and tables -/

/-- The size that a cell or table takes of the size allotted to it. -/
def taken (fixed : Bool) (size room : ℚ) : ℚ := if fixed then size else room

/-- Along one axis, the interval from `l'` to `u'` fits a cell or table of the given size that is
allotted the interval from `l` to `u`. -/
structure FitsAxis (fixed : Bool) (size l u l' u' : ℚ) : Prop where
  low : l ≤ l'
  up : u' ≤ u
  size_le : size ≤ u' - l'
  eq : fixed → u' - l' = size

/-- What an alignment does along one axis: the result fits if the alignment is straight, and else
a fixed cell or table does not get its size. -/
structure Aligns (straight : Prop) (fixed : Bool) (size l u l' u' : ℚ) : Prop where
  fits : straight → FitsAxis fixed size l u l' u'
  taken : straight → u' - l' = taken fixed size (u - l)
  off : ¬ straight → fixed = true ∧ u' - l' ≠ size

theorem Aligns.iff {straight : Prop} {fixed : Bool} {size l u l' u' : ℚ}
    (h : Aligns straight fixed size l u l' u') : FitsAxis fixed size l u l' u' ↔ straight := by
  refine ⟨fun hfit => ?_, h.fits⟩
  by_contra hnot
  obtain ⟨hfixed, hne⟩ := h.off hnot
  exact hne (hfit.eq hfixed)

/-- An interval left as it is. -/
theorem Aligns.same {straight : Prop} {fixed : Bool} {size l u : ℚ} (hsize : size ≤ u - l)
    (hs : straight) (hfixed : fixed → u - l ≤ size) : Aligns straight fixed size l u l u := by
  refine ⟨fun _ => ⟨le_rfl, le_rfl, hsize, fun h => le_antisymm (hfixed h) hsize⟩, fun _ => ?_,
    fun h => absurd hs h⟩
  unfold Html.taken
  split
  · exact le_antisymm (hfixed ‹_›) hsize
  · rfl

/-- An interval cut to the size. -/
theorem Aligns.cut {straight : Prop} {size l u l' u' : ℚ} (hs : straight) (hl : l ≤ l')
    (hu : u' ≤ u) (h : u' - l' = size) : Aligns straight true size l u l' u' :=
  ⟨fun _ => ⟨hl, hu, h.ge, fun _ => h⟩, fun _ => h, fun hnot => absurd hs hnot⟩

/-- An interval that does not get the size. -/
theorem Aligns.wrong {straight : Prop} {size l u l' u' : ℚ} (hs : ¬ straight)
    (h : u' - l' ≠ size) : Aligns straight true size l u l' u' :=
  ⟨fun h => absurd h hs, fun h => absurd h hs, fun _ => ⟨rfl, h⟩⟩

/-- A fixed cell that is allotted the width `w` is not aligned to the right with room to spare. -/
def StraightCellX (data : htmldata_t) (w : ℚ) : Prop :=
  data.flags.FIXED_FLAG → data.box.UR.x < w → data.flags.HALIGN ≠ .HALIGN_RIGHT

/-- A fixed cell that is allotted the height `h` is not aligned to the top with room to spare. -/
def StraightCellY (data : htmldata_t) (h : ℚ) : Prop :=
  data.flags.FIXED_FLAG → data.box.UR.y < h → data.flags.VALIGN ≠ .VALIGN_TOP

instance (data : htmldata_t) (w : ℚ) : Decidable (StraightCellX data w) :=
  inferInstanceAs (Decidable (_ → _ → _))

instance (data : htmldata_t) (h : ℚ) : Decidable (StraightCellY data h) :=
  inferInstanceAs (Decidable (_ → _ → _))

/-- A fixed table that is allotted the width `w` and has room to spare is not aligned to the right,
and to the left only if it is as wide as it is high. -/
def StraightTbl (data : htmldata_t) (w : ℚ) : Prop :=
  data.flags.FIXED_FLAG → data.box.UR.x < w → data.flags.HALIGN ≠ .HALIGN_RIGHT ∧
    (data.flags.HALIGN = .HALIGN_LEFT → data.box.UR.x = data.box.UR.y)

instance (data : htmldata_t) (w : ℚ) : Decidable (StraightTbl data w) :=
  inferInstanceAs (Decidable (_ → _ → _ ∧ (_ → _)))

variable {data : htmldata_t} {pos : boxf}

theorem alignCell_x (hx : data.box.UR.x ≤ wide pos) :
    Aligns (StraightCellX data (wide pos)) data.flags.FIXED_FLAG data.box.UR.x pos.LL.x pos.UR.x
      (alignCell data pos).LL.x (alignCell data pos).UR.x := by
  have hkeep : ∀ b, (alignCellY data b).LL.x = b.LL.x ∧ (alignCellY data b).UR.x = b.UR.x := by
    intro b
    unfold alignCellY
    dsimp only
    split
    · split <;> exact ⟨rfl, rfl⟩
    · exact ⟨rfl, rfl⟩
  unfold wide at *
  unfold alignCell StraightCellX
  cases hfixed : data.flags.FIXED_FLAG with
  | false =>
    rw [if_neg (by simp)]
    exact .same hx (by simp) (by simp)
  | true =>
    rw [if_pos rfl, (hkeep _).1, (hkeep _).2, alignCellX]
    split
    · rename_i hroom
      cases hal : data.flags.HALIGN with
      | HALIGN_LEFT => exact .cut (by simp) le_rfl (by dsimp only; linarith) (by dsimp only; ring)
      | HALIGN_RIGHT =>
        refine .wrong ?_ ?_
        · simp only [forall_const, ne_eq, not_true_eq_false, imp_false, not_not]
          linarith
        · dsimp only
          linarith
      | HALIGN_TEXT | HALIGN_CENTER =>
        exact .cut (by simp) (by dsimp only; linarith) (by dsimp only; linarith)
          (by dsimp only; ring)
    · rename_i hroom
      refine .same hx (fun _ h => ?_) fun _ => ?_
      · linarith
      · linarith

theorem alignCell_y (hy : data.box.UR.y ≤ high pos) :
    Aligns (StraightCellY data (high pos)) data.flags.FIXED_FLAG data.box.UR.y pos.LL.y pos.UR.y
      (alignCell data pos).LL.y (alignCell data pos).UR.y := by
  have hkeep : ∀ b, (alignCellX data b).LL.y = b.LL.y ∧ (alignCellX data b).UR.y = b.UR.y := by
    intro b
    unfold alignCellX
    dsimp only
    split
    · split <;> exact ⟨rfl, rfl⟩
    · exact ⟨rfl, rfl⟩
  unfold high at *
  unfold alignCell StraightCellY
  cases hfixed : data.flags.FIXED_FLAG with
  | false =>
    rw [if_neg (by simp)]
    exact .same hy (by simp) (by simp)
  | true =>
    rw [if_pos rfl, alignCellY, (hkeep pos).1, (hkeep pos).2]
    split
    · rename_i hroom
      cases hal : data.flags.VALIGN with
      | VALIGN_BOTTOM =>
        refine .cut (by simp) (hkeep pos).1.ge ?_ ?_
        · dsimp only
          linarith
        · dsimp only
          rw [(hkeep pos).1]
          ring
      | VALIGN_TOP =>
        refine .wrong ?_ ?_
        · simp only [forall_const, ne_eq, not_true_eq_false, imp_false, not_not]
          linarith
        · dsimp only
          linarith
      | VALIGN_MIDDLE =>
        exact .cut (by simp) (by dsimp only; linarith) (by dsimp only; linarith)
          (by dsimp only; ring)
    · rename_i hroom
      rw [(hkeep pos).1, (hkeep pos).2]
      refine .same hy (fun _ h => ?_) fun _ => ?_
      · linarith
      · linarith

/-- The box of a table along the horizontal axis; what is left for its cells is what it takes
beyond its size. -/
theorem alignTbl_x (hx : data.box.UR.x ≤ wide pos) :
    Aligns (StraightTbl data (wide pos)) data.flags.FIXED_FLAG data.box.UR.x pos.LL.x pos.UR.x
      (alignTbl data pos).1.LL.x (alignTbl data pos).1.UR.x ∧ (alignTbl data pos).2.1 =
      taken data.flags.FIXED_FLAG data.box.UR.x (wide pos) - data.box.UR.x := by
  have hkeep : ∀ o d b, (alignTblY data o d b).LL.x = b.LL.x ∧
      (alignTblY data o d b).UR.x = b.UR.x := by
    intro o d b
    unfold alignTblY
    split
    · split <;> exact ⟨rfl, rfl⟩
    · exact ⟨rfl, rfl⟩
  unfold wide at *
  have hmax : max (pos.UR.x - pos.LL.x - data.box.UR.x) 0 = pos.UR.x - pos.LL.x - data.box.UR.x :=
    max_eq_left (sub_nonneg.2 hx)
  unfold alignTbl StraightTbl taken
  cases hfixed : data.flags.FIXED_FLAG with
  | false =>
    rw [if_neg (by simp), if_neg (by simp)]
    exact ⟨.same hx (by simp) (by simp), hmax⟩
  | true =>
    simp only [if_true, hmax, (hkeep _ _ _).1, (hkeep _ _ _).2, alignTblX]
    split
    · rename_i hroom
      refine ⟨?_, by ring⟩
      cases hal : data.flags.HALIGN with
      | HALIGN_LEFT =>
        by_cases hsquare : data.box.UR.x = data.box.UR.y
        · refine .cut (fun _ _ => ⟨by simp, fun _ => hsquare⟩) le_rfl ?_ ?_
          · dsimp only
            linarith
          · dsimp only
            linarith
        · refine .wrong (fun h => hsquare ((h trivial ?_).2 rfl)) fun h => hsquare ?_
          · linarith
          · dsimp only at h
            linarith
      | HALIGN_RIGHT =>
        refine .wrong (fun h => (h trivial ?_).1 rfl) ?_
        · linarith
        · dsimp only
          linarith
      | HALIGN_TEXT | HALIGN_CENTER =>
        refine .cut (by simp) ?_ ?_ ?_
        · dsimp only
          linarith
        · dsimp only
          linarith
        · dsimp only
          ring
    · rename_i hroom
      refine ⟨.same hx (fun _ h => absurd ?_ hroom) fun _ => ?_, ?_⟩ <;> linarith

/-- The box of a table along the vertical axis, where every alignment is right. -/
theorem alignTbl_y (hy : data.box.UR.y ≤ high pos) :
    Aligns True data.flags.FIXED_FLAG data.box.UR.y pos.LL.y pos.UR.y
      (alignTbl data pos).1.LL.y (alignTbl data pos).1.UR.y ∧ (alignTbl data pos).2.2 =
      taken data.flags.FIXED_FLAG data.box.UR.y (high pos) - data.box.UR.y := by
  have hkeep : ∀ o d b, (alignTblX data o d b).LL.y = b.LL.y ∧
      (alignTblX data o d b).UR.y = b.UR.y := by
    intro o d b
    unfold alignTblX
    split
    · split <;> exact ⟨rfl, rfl⟩
    · exact ⟨rfl, rfl⟩
  unfold high at *
  have hmax : max (pos.UR.y - pos.LL.y - data.box.UR.y) 0 = pos.UR.y - pos.LL.y - data.box.UR.y :=
    max_eq_left (sub_nonneg.2 hy)
  unfold alignTbl taken
  cases hfixed : data.flags.FIXED_FLAG with
  | false =>
    rw [if_neg (by simp), if_neg (by simp)]
    exact ⟨.same hy trivial (by simp), hmax⟩
  | true =>
    simp only [if_true, hmax]
    generalize hb : alignTblX data data.box.UR.y _ pos = b
    have hl : b.LL.y = pos.LL.y := by rw [← hb, (hkeep _ _ _).1]
    have hu : b.UR.y = pos.UR.y := by rw [← hb, (hkeep _ _ _).2]
    unfold alignTblY
    split
    · rename_i hroom
      refine ⟨?_, by ring⟩
      cases hal : data.flags.VALIGN with
      | VALIGN_BOTTOM | VALIGN_TOP | VALIGN_MIDDLE =>
        refine .cut trivial ?_ ?_ ?_ <;> dsimp only <;> linarith
    · rename_i hroom
      rw [hl, hu]
      refine ⟨.same hy trivial fun _ => ?_, ?_⟩ <;> linarith

/-! ## The boxes of the cells of a table -/

theorem starts_eq (x : ℚ) (step : ℕ → ℚ) (i : ℕ) : starts x step i = x + starts 0 step i := by
  induction i with
  | zero => simp [starts]
  | succ i ih => rw [starts, starts, ih, add_assoc]

theorem starts_neg (step : ℕ → ℚ) (i : ℕ) : starts 0 (fun i => -step i) i = -starts 0 step i := by
  induction i with
  | zero => simp [starts]
  | succ i ih => rw [starts, starts, ih, neg_add]

/-- How far the columns, or the rows, are from the first one. -/
def offset (count : ℕ) (del : ℚ) (sizes : ℕ → ℚ) (space : ℤ) : ℕ → ℚ :=
  starts 0 fun i => advance count del sizes i + space

section Axis

variable {count : ℕ} {space : ℤ} {sizes : ℕ → ℚ} {del : ℚ}

theorem offset_mono (hcount : 0 < count) (hdel : 0 ≤ del) (hspace : 0 ≤ space)
    (hsizes : ∀ k, 0 ≤ sizes k) {i j : ℕ} (hij : i ≤ j) :
    offset count del sizes space i ≤ offset count del sizes space j := by
  obtain ⟨n, rfl⟩ := Nat.exists_eq_add_of_le hij
  have hstep : ∀ k, 0 ≤ advance count del sizes k + space := by
    intro k
    have h1 : 0 ≤ del / count := div_nonneg hdel (cast_nonneg _)
    have h2 : (0 : ℚ) ≤ space := by exact_mod_cast hspace
    rw [advance_eq hcount]
    linarith [hsizes k]
  rw [offset, starts_add]
  linarith [Finset.sum_nonneg fun k (_ : k ∈ Finset.range n) => hstep (i + k)]

/-- What lies between the first column of a span and the end of the last. -/
theorem offset_span (hcount : 0 < count) (del : ℚ) (sizes : ℕ → ℚ) (space : ℤ) (s : span) :
    offset count del sizes space (s.start + s.len) - space - offset count del sizes space s.start =
      spanSize sizes s + spacing space s + s.len * (del / count) := by
  have := sum_advance hcount del sizes space s
  rw [offset, starts_add]
  linarith

/-- The last column ends within the table, with room for the border and the spacing. -/
theorem offset_last (hcount : 0 < count) (border : ℕ) :
    offset count del sizes space count =
      tblExtent count space border sizes - space - 2 * border + del := by
  have hpos : (count : ℚ) ≠ 0 := by exact_mod_cast hcount.ne'
  have hsum := sum_advance hcount del sizes space ⟨0, count, 0⟩
  have hadd := starts_add 0 (fun i => advance count del sizes i + (space : ℚ)) 0 count
  simp only [zero_add, spanSize, spacing, starts] at hsum hadd
  rw [offset, hadd, hsum, tblExtent, mul_div_cancel₀ _ hpos]
  push_cast
  ring

end Axis

variable {tbl : tblfields} {cells : List htmlcell_t} {sides : UInt8} {pencolor : Option String}

/-- The box allotted to a cell, from the corner of the table's box and the offsets. -/
theorem cellBox_eq (c : cellfields) :
    cellBox (posTbl tbl pos sides pencolor) c =
      let b := (alignTbl tbl.data pos).1
      let e : ℚ := tbl.data.border + tbl.data.space
      let X := offset tbl.column_count (alignTbl tbl.data pos).2.1 tbl.widths tbl.data.space
      let Y := offset tbl.row_count (alignTbl tbl.data pos).2.2 tbl.heights tbl.data.space
      ⟨⟨b.LL.x + e + X c.col, b.UR.y - e - Y (c.row + c.rowspan) + tbl.data.space⟩,
        ⟨b.LL.x + e + X (c.col + c.colspan) - tbl.data.space, b.UR.y - e - Y c.row⟩⟩ := by
  simp only [cellBox, posTbl, offset]
  rw [starts_eq, starts_eq _ _ (c.col + c.colspan), starts_eq _ _ c.row,
    starts_eq _ _ (c.row + c.rowspan), starts_neg, starts_neg]
  simp only [boxf.mk.injEq, pointf.mk.injEq]
  refine ⟨⟨?_, ?_⟩, ?_, ?_⟩ <;> ring

theorem taken_ge (fixed : Bool) {size room : ℚ} (h : size ≤ room) :
    size ≤ taken fixed size room := by
  unfold taken
  split
  · exact le_rfl
  · exact h

/-- A cell's share of the extra width or height of its table. -/
def share (fixed : Bool) (size room : ℚ) (count len : ℕ) : ℚ :=
  len * ((taken fixed size room - size) / count)

theorem share_nonneg {fixed : Bool} {size room : ℚ} (h : size ≤ room) (count len : ℕ) :
    0 ≤ share fixed size room count len :=
  mul_nonneg (cast_nonneg _)
    (div_nonneg (sub_nonneg.2 (taken_ge _ h)) (cast_nonneg _))

section Cells

variable (h : TblSized tbl cells) (hx : tbl.data.box.UR.x ≤ wide pos)
  (hy : tbl.data.box.UR.y ≤ high pos)

include h

theorem TblSized.count_pos {c : htmlcell_t} (hc : c ∈ cells) :
    0 < tbl.column_count ∧ 0 < tbl.row_count :=
  ⟨lt_of_lt_of_le (Nat.add_pos_right _ c.fields.colspan_pos) (h.cols c hc),
    lt_of_lt_of_le (Nat.add_pos_right _ c.fields.rowspan_pos) (h.rows c hc)⟩

include hx hy

/-- The size of the box allotted to a cell: the computed size, and a share of what is to spare. -/
theorem cellBox_size (sides : UInt8) (pencolor : Option String) {c : htmlcell_t} (hc : c ∈ cells) :
    wide (cellBox (posTbl tbl pos sides pencolor) c.fields) = c.fields.data.box.UR.x +
      share tbl.data.flags.FIXED_FLAG tbl.data.box.UR.x (wide pos) tbl.column_count
        c.fields.colspan ∧
    high (cellBox (posTbl tbl pos sides pencolor) c.fields) = c.fields.data.box.UR.y +
      share tbl.data.flags.FIXED_FLAG tbl.data.box.UR.y (high pos) tbl.row_count
        c.fields.rowspan := by
  obtain ⟨hcol, hrow⟩ := h.count_pos hc
  have hX := offset_span hcol (alignTbl tbl.data pos).2.1 tbl.widths tbl.data.space c.colSpan
  have hY := offset_span hrow (alignTbl tbl.data pos).2.2 tbl.heights tbl.data.space c.rowSpan
  rw [share, share, ← (alignTbl_x hx).2, ← (alignTbl_y hy).2, cellBox_eq, h.urx c hc, h.ury c hc]
  simp only [wide, high, htmlcell_t.colSpan, htmlcell_t.rowSpan] at hX hY ⊢
  constructor <;> linarith

/-- The boxes allotted to the cells of a table are apart. -/
theorem cellBox_apart (sides : UInt8) (pencolor : Option String) {a b : htmlcell_t}
    (ha : a ∈ cells) (hab : GridApart a b) :
    (cellBox (posTbl tbl pos sides pencolor) a.fields).Apart
      (cellBox (posTbl tbl pos sides pencolor) b.fields) := by
  obtain ⟨hcol, hrow⟩ := h.count_pos ha
  have hspace : (0 : ℚ) ≤ tbl.data.space := by exact_mod_cast h.space
  have hdx : 0 ≤ (alignTbl tbl.data pos).2.1 := by
    rw [(alignTbl_x hx).2]
    exact sub_nonneg.2 (taken_ge _ hx)
  have hdy : 0 ≤ (alignTbl tbl.data pos).2.2 := by
    rw [(alignTbl_y hy).2]
    exact sub_nonneg.2 (taken_ge _ hy)
  rw [cellBox_eq, cellBox_eq]
  rcases hab with (hcols | hcols) | hrows | hrows
  · have := offset_mono hcol hdx h.space h.widths hcols
    exact .inl (.inl (by dsimp only; linarith))
  · have := offset_mono hcol hdx h.space h.widths hcols
    exact .inl (.inr (by dsimp only; linarith))
  · have := offset_mono hrow hdy h.space h.heights hrows
    exact .inr (.inr (by dsimp only; linarith))
  · have := offset_mono hrow hdy h.space h.heights hrows
    exact .inr (.inl (by dsimp only; linarith))

/-- The boxes allotted to the cells of a table lie in the box of the table, if this is aligned as
it should. -/
theorem cellBox_within (hs : StraightTbl tbl.data (wide pos)) {c : htmlcell_t} (hc : c ∈ cells) :
    (cellBox (posTbl tbl pos sides pencolor) c.fields).Within
      (posTbl tbl pos sides pencolor).data.box := by
  obtain ⟨hcol, hrow⟩ := h.count_pos hc
  have hspace : (0 : ℚ) ≤ tbl.data.space := by exact_mod_cast h.space
  have hborder : (0 : ℚ) ≤ tbl.data.border := cast_nonneg _
  have hdx : 0 ≤ (alignTbl tbl.data pos).2.1 := by
    rw [(alignTbl_x hx).2]
    exact sub_nonneg.2 (taken_ge _ hx)
  have hdy : 0 ≤ (alignTbl tbl.data pos).2.2 := by
    rw [(alignTbl_y hy).2]
    exact sub_nonneg.2 (taken_ge _ hy)
  have hX0 := offset_mono hcol hdx h.space h.widths (zero_le c.fields.col)
  have hX1 := offset_mono hcol hdx h.space h.widths (h.cols c hc)
  have hY0 := offset_mono hrow hdy h.space h.heights (zero_le c.fields.row)
  have hY1 := offset_mono hrow hdy h.space h.heights (h.rows c hc)
  rw [offset_last hcol tbl.data.border] at hX1
  rw [offset_last hrow tbl.data.border] at hY1
  have hw := (alignTbl_x hx).1.taken hs
  have hh := (alignTbl_y hy).1.taken trivial
  have hdx' := (alignTbl_x hx).2
  have hdy' := (alignTbl_y hy).2
  have hex := h.extentx
  have hey := h.extenty
  have hzero : ∀ n d s t, offset n d s t 0 = 0 := fun _ _ _ _ => rfl
  rw [hzero] at hX0 hY0
  unfold wide at hdx'
  unfold high at hdy'
  rw [cellBox_eq]
  constructor <;> simp only [posTbl] <;> linarith

end Cells

/-! ## The geometry of a label -/

/-- What holds of a cell or table with the computed size and flags of `old` that has got the box
`box` in the allotted box `pos`. -/
structure Fits (old : htmldata_t) (box pos : boxf) : Prop where
  within : box.Within pos
  x : old.box.UR.x ≤ wide box
  y : old.box.UR.y ≤ high box
  fixed : old.flags.FIXED_FLAG → wide box = old.box.UR.x ∧ high box = old.box.UR.y

theorem fits_iff {old : htmldata_t} {box pos : boxf} : Fits old box pos ↔
    FitsAxis old.flags.FIXED_FLAG old.box.UR.x pos.LL.x pos.UR.x box.LL.x box.UR.x ∧
      FitsAxis old.flags.FIXED_FLAG old.box.UR.y pos.LL.y pos.UR.y box.LL.y box.UR.y := by
  constructor
  · intro h
    exact ⟨⟨h.within.llx, h.within.urx, h.x, fun hf => (h.fixed hf).1⟩,
      ⟨h.within.lly, h.within.ury, h.y, fun hf => (h.fixed hf).2⟩⟩
  · rintro ⟨hx, hy⟩
    exact ⟨⟨hx.low, hy.low, hx.up, hy.up⟩, hx.size_le, hy.size_le, fun hf => ⟨hx.eq hf, hy.eq hf⟩⟩

mutual

/-- The geometry of a table in its allotted box, given the table before it had its position: it
fits its box, its cells do not overlap, it allots them boxes in its own, and they have their
geometry in these. -/
def TblGeometry (pos : boxf) : htmltbl_t → htmltbl_t → Prop
  | .mk tbl cells, .mk tbl' cells' =>
    Fits tbl.data tbl'.data.box pos ∧
      cells'.Pairwise (fun a b => Disjoint a.fields.data.box.interior b.fields.data.box.interior) ∧
      (∀ c ∈ cells', (cellBox tbl' c.fields).Within tbl'.data.box) ∧
      CellsGeometry tbl' cells cells'

/-- The geometry of the cells of a table in the boxes allotted to them. -/
def CellsGeometry (tbl' : tblfields) : List htmlcell_t → List htmlcell_t → Prop
  | [], [] => True
  | c :: cells, c' :: cells' =>
    CellGeometry (cellBox tbl' c'.fields) c c' ∧ CellsGeometry tbl' cells cells'
  | _, _ => False

/-- The geometry of a cell in its allotted box, and of what is in it in the box within its border
and padding. -/
def CellGeometry (pos : boxf) : htmlcell_t → htmlcell_t → Prop
  | .mk cell child, .mk cell' child' =>
    Fits cell.data cell'.data.box pos ∧
      LabelGeometry (childBox cell'.data cell'.data.box) child child'

/-- The geometry of what is in a cell. -/
def LabelGeometry (pos : boxf) : htmllabel_t → htmllabel_t → Prop
  | .HTML_TBL t, .HTML_TBL t' => TblGeometry pos t t'
  | .HTML_TEXT _, .HTML_TEXT _ => True
  | .HTML_IMAGE _, .HTML_IMAGE _ => True
  | _, _ => False

end

mutual

/-- No fixed part of a table that is allotted `w` by `h` has room to spare and an alignment that
goes wrong. -/
def TblStraight (w h : ℚ) : htmltbl_t → Prop
  | .mk tbl cells =>
    StraightTbl tbl.data w ∧
      CellsStraight
        (share tbl.data.flags.FIXED_FLAG tbl.data.box.UR.x w tbl.column_count)
        (share tbl.data.flags.FIXED_FLAG tbl.data.box.UR.y h tbl.row_count) cells

/-- The cells of a table, which are allotted their computed sizes and shares of what is to
spare. -/
def CellsStraight (sharex sharey : ℕ → ℚ) : List htmlcell_t → Prop
  | [] => True
  | c :: cells =>
    CellStraight (c.fields.data.box.UR.x + sharex c.fields.colspan)
      (c.fields.data.box.UR.y + sharey c.fields.rowspan) c ∧
    CellsStraight sharex sharey cells

/-- A cell that is allotted `w` by `h`, and what is in it. -/
def CellStraight (w h : ℚ) : htmlcell_t → Prop
  | .mk cell child =>
    (StraightCellX cell.data w ∧ StraightCellY cell.data h) ∧
      LabelStraight (taken cell.data.flags.FIXED_FLAG cell.data.box.UR.x w - 2 * edge cell.data)
        (taken cell.data.flags.FIXED_FLAG cell.data.box.UR.y h - 2 * edge cell.data) child

/-- What is in a cell. -/
def LabelStraight (w h : ℚ) : htmllabel_t → Prop
  | .HTML_TBL t => TblStraight w h t
  | .HTML_TEXT _ => True
  | .HTML_IMAGE _ => True

end

theorem wide_childBox (data : htmldata_t) (b : boxf) :
    wide (childBox data b) = wide b - 2 * edge data ∧
      high (childBox data b) = high b - 2 * edge data := by
  unfold wide high childBox edge
  constructor <;> dsimp only <;> ring

/-- A cell of a table that has its position. -/
def placedCell (tbl : tblfields) (c : htmlcell_t) : htmlcell_t :=
  pos_html_cell (cellBox tbl c.fields) (tbl.data.sides &&& cellSides tbl c.fields)
    tbl.data.pencolor c

theorem pos_html_cells_eq (tbl : tblfields) (cells : List htmlcell_t) :
    pos_html_cells tbl cells = cells.map (placedCell tbl) := by
  induction cells with
  | nil => rw [pos_html_cells, List.map_nil]
  | cons c cells ih =>
    cases c
    rw [pos_html_cells, ih]
    rfl

theorem cellBox_placed (tbl : tblfields) (c : htmlcell_t) :
    cellBox tbl (placedCell tbl c).fields = cellBox tbl c.fields := by
  cases c
  rw [placedCell, pos_html_cell]
  rfl

/-- The cells of a table lie in the boxes allotted to them. -/
theorem placed_within {tbl : tblfields} {cells : List htmlcell_t}
    (h : CellsGeometry tbl cells (cells.map (placedCell tbl))) (c : htmlcell_t) (hc : c ∈ cells) :
    (placedCell tbl c).fields.data.box.Within (cellBox tbl c.fields) := by
  induction cells with
  | nil => cases hc
  | cons d cells ih =>
    rw [List.map_cons, CellsGeometry, cellBox_placed] at h
    obtain rfl | hc := List.mem_cons.1 hc
    · cases hplaced : placedCell tbl c
      cases c
      rw [hplaced, CellGeometry] at h
      exact h.1.1.within
    · exact ih h.2 hc

mutual

/-- A sized table that is given a box of its size or larger has its geometry just if no alignment
in it goes wrong. -/
theorem tblGeometry_iff {t : htmltbl_t} (ht : Sized t) {pos : boxf}
    (hx : t.fields.data.box.UR.x ≤ wide pos) (hy : t.fields.data.box.UR.y ≤ high pos)
    (sides : UInt8) (pencolor : Option String) :
    TblGeometry pos t (pos_html_tbl pos sides pencolor t) ↔
      TblStraight (wide pos) (high pos) t := by
  match t with
  | .mk tbl cells =>
    cases ht with
    | mk hsized hchild hholds =>
      rw [pos_html_tbl, TblGeometry, TblStraight, fits_iff]
      have hX := (alignTbl_x hx).1
      have hY := (alignTbl_y hy).1
      have hcells := cellsGeometry_iff hchild hholds
        (fun c hc => (cellBox_size hsized hx hy sides pencolor hc).1)
        (fun c hc => (cellBox_size hsized hx hy sides pencolor hc).2)
        (fun n => share_nonneg hx tbl.column_count n) fun n => share_nonneg hy tbl.row_count n
      rw [← hcells]
      constructor
      · rintro ⟨⟨hfitx, -⟩, -, -, hgeo⟩
        exact ⟨hX.iff.1 hfitx, hgeo⟩
      · rintro ⟨hs, hgeo⟩
        refine ⟨⟨hX.iff.2 hs, hY.iff.2 trivial⟩, ?_, ?_, hgeo⟩
        · rw [pos_html_cells_eq] at hgeo ⊢
          refine List.pairwise_map.2 (hsized.apart.imp_of_mem fun {a b} ha hb hab => ?_)
          have hapart := cellBox_apart hsized hx hy sides pencolor ha hab
          exact (hapart.mono (placed_within hgeo a ha) (placed_within hgeo b hb)).disjoint
        · rw [pos_html_cells_eq]
          intro c hc
          obtain ⟨d, hd, rfl⟩ := List.mem_map.1 hc
          rw [cellBox_placed]
          exact cellBox_within hsized hx hy hs hd

theorem cellsGeometry_iff {tbl' : tblfields} {sharex sharey : ℕ → ℚ} {cells : List htmlcell_t}
    (hchild : ∀ c ∈ cells, ∀ t, c.child = .HTML_TBL t → Sized t)
    (hholds : ∀ c ∈ cells, ∀ t, c.child = .HTML_TBL t → Holds c.fields.data t.fields.data)
    (hx : ∀ c ∈ cells, wide (cellBox tbl' c.fields) =
      c.fields.data.box.UR.x + sharex c.fields.colspan)
    (hy : ∀ c ∈ cells, high (cellBox tbl' c.fields) =
      c.fields.data.box.UR.y + sharey c.fields.rowspan)
    (hsharex : ∀ n, 0 ≤ sharex n) (hsharey : ∀ n, 0 ≤ sharey n) :
    CellsGeometry tbl' cells (pos_html_cells tbl' cells) ↔ CellsStraight sharex sharey cells := by
  match cells with
  | [] => rw [pos_html_cells, CellsGeometry, CellsStraight]
  | .mk cp child :: cells =>
    have hx0 := hx _ List.mem_cons_self
    have hy0 := hy _ List.mem_cons_self
    have hcell := @cellGeometry_iff cp child (cellBox tbl' cp)
      (hchild _ List.mem_cons_self) (hholds _ List.mem_cons_self)
      (by rw [show wide (cellBox tbl' cp) = _ from hx0]; exact le_add_of_nonneg_right (hsharex _))
      (by rw [show high (cellBox tbl' cp) = _ from hy0]; exact le_add_of_nonneg_right (hsharey _))
      (tbl'.data.sides &&& cellSides tbl' cp) tbl'.data.pencolor
    have hrest := @cellsGeometry_iff tbl' sharex sharey cells
      (fun c hc => hchild c (List.mem_cons_of_mem _ hc))
      (fun c hc => hholds c (List.mem_cons_of_mem _ hc))
      (fun c hc => hx c (List.mem_cons_of_mem _ hc))
      (fun c hc => hy c (List.mem_cons_of_mem _ hc)) hsharex hsharey
    rw [show wide (cellBox tbl' cp) = _ from hx0, show high (cellBox tbl' cp) = _ from hy0] at hcell
    rw [pos_html_cells, CellsGeometry, CellsStraight]
    rw [pos_html_cell] at hcell ⊢
    exact and_congr hcell hrest

theorem cellGeometry_iff {cell : cellfields} {child : htmllabel_t} {pos : boxf}
    (hchild : ∀ t, child = .HTML_TBL t → Sized t)
    (hholds : ∀ t, child = .HTML_TBL t → Holds cell.data t.fields.data)
    (hx : cell.data.box.UR.x ≤ wide pos) (hy : cell.data.box.UR.y ≤ high pos)
    (sides : UInt8) (pencolor : Option String) :
    CellGeometry pos (.mk cell child) (pos_html_cell pos sides pencolor (.mk cell child)) ↔
      CellStraight (wide pos) (high pos) (.mk cell child) := by
  have hX := alignCell_x hx
  have hY := alignCell_y hy
  rw [pos_html_cell, CellGeometry, CellStraight, fits_iff]
  refine (and_congr_left' (and_congr hX.iff hY.iff)).trans (and_congr_right fun hs => ?_)
  have hw := hX.taken hs.1
  have hh := hY.taken hs.2
  have hwide : wide (childBox cell.data (alignCell cell.data pos)) =
      taken cell.data.flags.FIXED_FLAG cell.data.box.UR.x (wide pos) - 2 * edge cell.data := by
    rw [(wide_childBox _ _).1]
    exact congrArg (· - 2 * edge cell.data) hw
  have hhigh : high (childBox cell.data (alignCell cell.data pos)) =
      taken cell.data.flags.FIXED_FLAG cell.data.box.UR.y (high pos) - 2 * edge cell.data := by
    rw [(wide_childBox _ _).2]
    exact congrArg (· - 2 * edge cell.data) hh
  match child with
  | .HTML_TEXT txt => rw [pos_html_label, LabelGeometry, LabelStraight]
  | .HTML_IMAGE img => rw [pos_html_label, LabelGeometry, LabelStraight]
  | .HTML_TBL t =>
    have hroom := hholds t rfl
    have hix := taken_ge cell.data.flags.FIXED_FLAG hx
    have hiy := taken_ge cell.data.flags.FIXED_FLAG hy
    rw [pos_html_label, LabelGeometry, LabelStraight, ← hwide, ← hhigh]
    refine tblGeometry_iff (hchild t rfl) ?_ ?_ _ _
    · refine le_trans ?_ hwide.ge
      linarith [hroom.x]
    · refine le_trans ?_ hhigh.ge
      linarith [hroom.y]

end

/-- After `size_html_tbl` without a warning that something is too small, and `pos_html_tbl` with a
box that is large enough, a table has its geometry just if no alignment in it goes wrong. -/
theorem html_geometry_iff {p : parsed_tbl} (hp : SpacingNonneg p) {t : htmltbl_t}
    {warn : List warning} (h : size_html_tbl p = .ok (t, warn)) (hwarn : NoneTooSmall warn)
    {pos : boxf} (hx : t.fields.data.box.UR.x ≤ wide pos) (hy : t.fields.data.box.UR.y ≤ high pos)
    (sides : UInt8) (pencolor : Option String) :
    TblGeometry pos t (pos_html_tbl pos sides pencolor t) ↔
      TblStraight (wide pos) (high pos) t :=
  tblGeometry_iff (size_html_tbl_sized hp h hwarn) hx hy sides pencolor

/-! ## A label whose cell leaves its table -/

mutual

/-- Whether no alignment in a table goes wrong can be computed. -/
def decTblStraight (w h : ℚ) : (t : htmltbl_t) → Decidable (TblStraight w h t)
  | .mk tbl cells =>
    have := decCellsStraight
      (share tbl.data.flags.FIXED_FLAG tbl.data.box.UR.x w tbl.column_count)
      (share tbl.data.flags.FIXED_FLAG tbl.data.box.UR.y h tbl.row_count) cells
    decidable_of_iff (StraightTbl tbl.data w ∧ CellsStraight _ _ cells) (by rw [TblStraight])

def decCellsStraight (sharex sharey : ℕ → ℚ) :
    (cells : List htmlcell_t) → Decidable (CellsStraight sharex sharey cells)
  | [] => decidable_of_iff True (by rw [CellsStraight])
  | c :: cells =>
    have := decCellStraight (c.fields.data.box.UR.x + sharex c.fields.colspan)
      (c.fields.data.box.UR.y + sharey c.fields.rowspan) c
    have := decCellsStraight sharex sharey cells
    decidable_of_iff (CellStraight _ _ c ∧ CellsStraight sharex sharey cells)
      (by rw [CellsStraight])

def decCellStraight (w h : ℚ) : (c : htmlcell_t) → Decidable (CellStraight w h c)
  | .mk cell child =>
    have := decLabelStraight
      (taken cell.data.flags.FIXED_FLAG cell.data.box.UR.x w - 2 * edge cell.data)
      (taken cell.data.flags.FIXED_FLAG cell.data.box.UR.y h - 2 * edge cell.data) child
    decidable_of_iff ((StraightCellX cell.data w ∧ StraightCellY cell.data h) ∧
      LabelStraight _ _ child) (by rw [CellStraight])

def decLabelStraight (w h : ℚ) : (l : htmllabel_t) → Decidable (LabelStraight w h l)
  | .HTML_TBL t =>
    have := decTblStraight w h t
    decidable_of_iff (TblStraight w h t) (by rw [LabelStraight])
  | .HTML_TEXT _ => decidable_of_iff True (by rw [LabelStraight])
  | .HTML_IMAGE _ => decidable_of_iff True (by rw [LabelStraight])

end

instance (w h : ℚ) (t : htmltbl_t) : Decidable (TblStraight w h t) := decTblStraight w h t

/-- `<TD FIXEDSIZE="TRUE" WIDTH="10" HEIGHT="10" ALIGN="RIGHT">`, and other parts without borders
and spacing. -/
def plainData (fixed : Bool) (al : halign) (width height : ℕ) : htmldata_t where
  pencolor := none
  space := 0
  border := 0
  pad := 0
  sides := 0
  flags :=
    { FIXED_FLAG := fixed, HALIGN := al, VALIGN := .VALIGN_MIDDLE, BALIGN := .BALIGN_CENTER,
      BORDER_SET := true, PAD_SET := true, SPACE_SET := true }
  width := width
  height := height
  box := ⟨⟨0, 0⟩, ⟨0, 0⟩⟩

/-- A table of one cell. -/
def oneCell (data : htmldata_t) (child : parsed_label) : parsed_tbl :=
  .mk ⟨plainData false .HALIGN_CENTER 0 0, -1⟩
    [.mk false [.mk ⟨data, 1, 1, Nat.one_pos, Nat.one_pos⟩ child]]

/-- In a cell 20 wide, a table with a fixed cell 10 wide that is aligned as given. -/
def nested (al : halign) : parsed_tbl :=
  oneCell (plainData false .HALIGN_CENTER 20 10)
    (.HTML_TBL (oneCell (plainData true al 10 10) (.HTML_TEXT ⟨⟨0, 0⟩, [], ⟨⟨0, 0⟩, ⟨0, 0⟩⟩⟩)))

theorem oneCell_spacing {data : htmldata_t} {child : parsed_label}
    (h : ∀ t, child = .HTML_TBL t → SpacingNonneg t) : SpacingNonneg (oneCell data child) := by
  refine .mk (fun _ => le_rfl) fun ruled rp hrow cell t hcell => h t ?_
  obtain ⟨-, rfl⟩ := parsed_row.mk.inj (List.mem_singleton.1 hrow)
  exact (parsed_cell.mk.inj (List.mem_singleton.1 hcell)).2.symm

theorem nested_spacing (al : halign) : SpacingNonneg (nested al) :=
  oneCell_spacing fun _ ht => by
    cases ht
    exact oneCell_spacing fun _ ht => nomatch ht

/-- The box that `make_html_label` gives to the table, of its computed size. -/
def nestedBox : boxf := ⟨⟨-10, -5⟩, ⟨10, 5⟩⟩

/-- The table is sized without a warning and fits its box. -/
theorem nested_sized (al : halign) : ∃ t, size_html_tbl (nested al) = .ok (t, []) ∧
    (t.fields.data.box.UR.x ≤ wide nestedBox ∧ t.fields.data.box.UR.y ≤ high nestedBox) ∧
    (TblStraight (wide nestedBox) (high nestedBox) t ↔ al ≠ .HALIGN_RIGHT) := by
  have hrun : ∃ r ∈ (size_html_tbl (nested al)).toOption.toList, r.2 = [] ∧
      (r.1.fields.data.box.UR.x ≤ wide nestedBox ∧ r.1.fields.data.box.UR.y ≤ high nestedBox) ∧
      (TblStraight (wide nestedBox) (high nestedBox) r.1 ↔ al ≠ .HALIGN_RIGHT) := by
    cases al <;> decide +kernel
  obtain ⟨⟨t, w⟩, hmem, rfl, h⟩ := hrun
  cases hsize : size_html_tbl (nested al) with
  | error e => simp [hsize, Except.toOption] at hmem
  | ok r =>
    rw [hsize] at hmem
    cases List.mem_singleton.1 hmem
    exact ⟨t, rfl, h⟩

theorem html_geometry_iff_nested : ∃ t, size_html_tbl (nested .HALIGN_LEFT) = .ok (t, []) ∧
    TblStraight (wide nestedBox) (high nestedBox) t ∧
    (TblGeometry nestedBox t (pos_html_tbl nestedBox 15 none t) ↔
      TblStraight (wide nestedBox) (high nestedBox) t) := by
  obtain ⟨t, ht, ⟨hx, hy⟩, hs⟩ := nested_sized .HALIGN_LEFT
  have hwarn : NoneTooSmall [] := by simp [NoneTooSmall]
  exact ⟨t, ht, hs.2 (by decide),
    html_geometry_iff (nested_spacing _) ht hwarn hx hy 15 none⟩

/-- Aligned to the right, the cell is as wide as its table and sticks out of it. -/
theorem html_geometry_right : ∃ (p : parsed_tbl) (t : htmltbl_t) (pos : boxf) (sides : UInt8),
    SpacingNonneg p ∧ size_html_tbl p = .ok (t, []) ∧
    (t.fields.data.box.UR.x ≤ wide pos ∧ t.fields.data.box.UR.y ≤ high pos) ∧
    ¬ TblGeometry pos t (pos_html_tbl pos sides none t) := by
  obtain ⟨t, ht, hfit, hs⟩ := nested_sized .HALIGN_RIGHT
  have hsized : Sized t := size_html_tbl_sized (nested_spacing _) ht (by simp [NoneTooSmall])
  refine ⟨_, t, nestedBox, 15, nested_spacing _, ht, hfit, fun hgeo => ?_⟩
  exact hs.1 ((tblGeometry_iff hsized hfit.1 hfit.2 15 none).1 hgeo) rfl

end Graphviz.Html
