import Graphviz.Pack.Pack

/-!
# Array packing

The boxes are put into the cells of an array, row by row or column by column, and each is moved to
its cell. A column is as wide as the widest box of it with the margin, and a row as high as the
highest one. Where boxes are aligned to a side of their cells, the place is found without the
corner of the box, so a box is in its cell exactly when the corner leaves room for it there.
-/

namespace Graphviz.Pack

open Function List Nat

variable {ng : ℕ}

/-- `PK_COL_MAJOR`. -/
def PK_COL_MAJOR : UInt32 := (1 : UInt32) <<< 0
/-- `PK_LEFT_ALIGN`. -/
def PK_LEFT_ALIGN : UInt32 := (1 : UInt32) <<< 2
/-- `PK_RIGHT_ALIGN`. -/
def PK_RIGHT_ALIGN : UInt32 := (1 : UInt32) <<< 3
/-- `PK_TOP_ALIGN`. -/
def PK_TOP_ALIGN : UInt32 := (1 : UInt32) <<< 4
/-- `PK_BOT_ALIGN`. -/
def PK_BOT_ALIGN : UInt32 := (1 : UInt32) <<< 5
/-- `PK_INPUT_ORDER`. -/
def PK_INPUT_ORDER : UInt32 := (1 : UInt32) <<< 6

/-- `pack_info`, of the fields that `arrayRects` reads. -/
structure array_info (ng : ℕ) where
  sz : ℤ
  margin : UInt32
  vals : Option (Fin ng → UInt32)
  flags : UInt32

/-- Whether a flag is set. -/
def array_info.flag (pinfo : array_info ng) (f : UInt32) : Bool :=
  pinfo.flags &&& f != 0

/-- `ainfo`. -/
structure ainfo (ng : ℕ) where
  width : ℚ
  height : ℚ
  index : Fin ng

/-- `ucmpf`. -/
def ucmpf (userVals : Fin ng → UInt32) (x y : ainfo ng) : ℤ :=
  let dX := userVals x.index
  let dY := userVals y.index
  if dX > dY then 1 else if dX < dY then -1 else 0

/-- `acmpf`. -/
def acmpf (x y : ainfo ng) : ℤ :=
  let dX := x.height + x.width
  let dY := y.height + y.width
  if dX < dY then 1 else if dX > dY then -1 else 0

/-- `INC`, on the column and the row. -/
def INC (m : Bool) (cr : ℕ × ℕ) (nc nr : ℕ) : ℕ × ℕ :=
  let (c, r) := cr
  if m then if c + 1 = nc then (0, r + 1) else (c + 1, r)
  else if r + 1 = nr then (c + 1, 0) else (c, r + 1)

/-- `ceil(sqrt(ng))`. -/
def ceilSqrt (n : ℕ) : ℕ :=
  if n.sqrt * n.sqrt = n then n.sqrt else n.sqrt + 1

/-- The rows and columns in `arrayRects`, and `rowMajor`. -/
structure Shape where
  nr : ℕ
  nc : ℕ
  rowMajor : Bool

/-- The number of rows and columns in `arrayRects`. -/
def arrayShape (ng : ℕ) (pinfo : array_info ng) : Shape :=
  let sz := pinfo.sz
  if pinfo.flag PK_COL_MAJOR then
    let nr := if sz > 0 then sz.toNat else ceilSqrt ng
    ⟨nr, (ng + (nr - 1)) / nr, false⟩
  else
    let nc := if sz > 0 then sz.toNat else ceilSqrt ng
    ⟨(ng + (nc - 1)) / nc, nc, true⟩

/-- The sizes of a box with the margin. -/
def boxInfo (gs : Fin ng → boxf) (pinfo : array_info ng) (i : Fin ng) : ainfo ng :=
  let bb := gs i
  { width := bb.UR.x - bb.LL.x + pinfo.margin.toNat
    height := bb.UR.y - bb.LL.y + pinfo.margin.toNat
    index := i }

/-- `sinfo`, after `gv_sort` or `qsort`. -/
def sortBoxes (gv_sort : (vals : Fin ng → UInt32) → Qsort (ucmpf vals)) (qsort : Qsort (@acmpf ng))
    (gs : Fin ng → boxf) (pinfo : array_info ng) : List (ainfo ng) :=
  let sinfo := ofFn (boxInfo gs pinfo)
  match pinfo.vals with
  | some vals => (gv_sort vals).run sinfo
  | none => if pinfo.flag PK_INPUT_ORDER then sinfo else qsort.run sinfo

/-- The loop that computes the widths of the columns and the heights of the rows. -/
def cellSizes (shape : Shape) :
    List (ainfo ng) → ℕ × ℕ → (ℕ → ℚ) × (ℕ → ℚ) → (ℕ → ℚ) × (ℕ → ℚ)
  | [], _, s => s
  | ip :: sinfo, (c, r), (widths, heights) =>
    cellSizes shape sinfo (INC shape.rowMajor (c, r) shape.nc shape.nr)
      (Function.update widths c (max (widths c) ip.width),
        Function.update heights r (max (heights r) ip.height))

/-- The loop that turns the widths into positions, from the column `i` on. -/
def widthPositions : ℕ → ℕ → ℚ → (ℕ → ℚ) → ℕ → ℚ
  | 0, _, _, widths => widths
  | k + 1, i, wd, widths =>
    widthPositions k (i + 1) (wd + widths i) (Function.update widths i wd)

/-- The loop that turns the heights into positions, from the row `i` on downwards, with the
assignment of `heights[0]` after it. -/
def heightPositions : ℕ → ℚ → (ℕ → ℚ) → ℕ → ℚ
  | 0, ht, heights => Function.update heights 0 ht
  | i + 1, ht, heights =>
    heightPositions i (ht + heights i) (Function.update heights (i + 1) ht)

/-- The place of a box in the cell of column `c` and row `r`. -/
def placeRect (bb : boxf) (pinfo : array_info ng) (widths heights : ℕ → ℚ) (c r : ℕ) : pointf where
  x :=
    if pinfo.flag PK_LEFT_ALIGN then cround (widths c)
    else if pinfo.flag PK_RIGHT_ALIGN then cround (widths (c + 1) - (bb.UR.x - bb.LL.x))
    else cround ((widths c + widths (c + 1) - bb.UR.x - bb.LL.x) / 2)
  y :=
    if pinfo.flag PK_TOP_ALIGN then cround (heights r - (bb.UR.y - bb.LL.y))
    else if pinfo.flag PK_BOT_ALIGN then cround (heights (r + 1))
    else cround ((heights r + heights (r + 1) - bb.UR.y - bb.LL.y) / 2)

/-- The places of the boxes, with the cell that each was put into, its column and its row. -/
structure Arrangement (ng : ℕ) where
  places : Fin ng → pointf
  cells : Fin ng → ℕ × ℕ

/-- The loop that positions the boxes. -/
def positionRects (shape : Shape) (gs : Fin ng → boxf) (pinfo : array_info ng)
    (widths heights : ℕ → ℚ) : List (ainfo ng) → ℕ × ℕ → Arrangement ng → Arrangement ng
  | [], _, s => s
  | ip :: sinfo, (c, r), s =>
    positionRects shape gs pinfo widths heights sinfo
      (INC shape.rowMajor (c, r) shape.nc shape.nr)
      ⟨Function.update s.places ip.index (placeRect (gs ip.index) pinfo widths heights c r),
        Function.update s.cells ip.index (c, r)⟩

/-- The positions of the columns and of the rows. -/
def cellPositions (shape : Shape) (sinfo : List (ainfo ng)) : (ℕ → ℚ) × (ℕ → ℚ) :=
  let (widths, heights) := cellSizes shape sinfo (0, 0) (fun _ => 0, fun _ => 0)
  (widthPositions (shape.nc + 1) 0 0 widths, heightPositions shape.nr 0 heights)

/-- The loops of `arrayRects` over the sorted boxes. -/
def arrangeRects (shape : Shape) (sinfo : List (ainfo ng)) (gs : Fin ng → boxf)
    (pinfo : array_info ng) : Arrangement ng :=
  let (widths, heights) := cellPositions shape sinfo
  positionRects shape gs pinfo widths heights sinfo (0, 0) ⟨fun _ => ⟨0, 0⟩, fun _ => (0, 0)⟩

/-- The places and the cells of the boxes in `arrayRects`. -/
def arrangement (gv_sort : (vals : Fin ng → UInt32) → Qsort (ucmpf vals))
    (qsort : Qsort (@acmpf ng))
    (gs : Fin ng → boxf) (pinfo : array_info ng) : Arrangement ng :=
  arrangeRects (arrayShape ng pinfo) (sortBoxes gv_sort qsort gs pinfo) gs pinfo

/-- `arrayRects`, which its callers call with at least one box. -/
def arrayRects (gv_sort : (vals : Fin ng → UInt32) → Qsort (ucmpf vals)) (qsort : Qsort (@acmpf ng))
    (gs : Fin ng → boxf) (pinfo : array_info ng) : Fin ng → pointf :=
  (arrangement gv_sort qsort gs pinfo).places

/-! ## The cells -/

/-- The column and the row of the box at a position. -/
def Shape.cellAt (shape : Shape) (k : ℕ) : ℕ × ℕ :=
  if shape.rowMajor then (k % shape.nc, k / shape.nc) else (k / shape.nr, k % shape.nr)

/-- There are cells for all the boxes. -/
structure Shape.Holds (shape : Shape) (ng : ℕ) : Prop where
  pos : 0 < if shape.rowMajor then shape.nc else shape.nr
  le : ng ≤ shape.nr * shape.nc

variable {shape : Shape} {k : ℕ}

theorem divMod_succ {d : ℕ} (hd : 0 < d) (k : ℕ) :
    (if k % d + 1 = d then (0, k / d + 1) else (k % d + 1, k / d)) = ((k + 1) % d, (k + 1) / d) := by
  have hlt := mod_lt k hd
  have hk : k + 1 = k % d + 1 + d * (k / d) := by rw [add_right_comm, mod_add_div]
  split
  next h =>
    rw [hk, h, add_mul_mod_self_left, mod_self, add_mul_div_left _ _ hd,
      Nat.div_self hd, Nat.add_comm 1]
  next h =>
    have hlt' : k % d + 1 < d := by omega
    rw [hk, add_mul_mod_self_left, mod_eq_of_lt hlt', add_mul_div_left _ _ hd,
      div_eq_of_lt hlt', zero_add]

/-- `INC` goes on to the cell of the next position. -/
theorem INC_cellAt (h : shape.Holds ng) (k : ℕ) :
    INC shape.rowMajor (shape.cellAt k) shape.nc shape.nr = shape.cellAt (k + 1) := by
  obtain ⟨hpos, -⟩ := h
  unfold INC Shape.cellAt
  cases hm : shape.rowMajor with
  | true =>
    rw [hm, if_pos rfl] at hpos
    exact divMod_succ hpos k
  | false =>
    rw [hm, if_neg Bool.false_ne_true] at hpos
    have hnext := congrArg Prod.swap (divMod_succ hpos k)
    rw [apply_ite Prod.swap] at hnext
    exact hnext

theorem Shape.Holds.cellAt_lt (h : shape.Holds ng) (hk : k < ng) :
    (shape.cellAt k).1 < shape.nc ∧ (shape.cellAt k).2 < shape.nr := by
  obtain ⟨hpos, hle⟩ := h
  unfold Shape.cellAt
  cases hm : shape.rowMajor with
  | true =>
    rw [hm, if_pos rfl] at hpos
    exact ⟨Nat.mod_lt k hpos, Nat.div_lt_of_lt_mul (hk.trans_le (hle.trans (Nat.mul_comm _ _).le))⟩
  | false =>
    rw [hm, if_neg Bool.false_ne_true] at hpos
    exact ⟨Nat.div_lt_of_lt_mul (hk.trans_le hle), Nat.mod_lt k hpos⟩

theorem Shape.cellAt_inj {l : ℕ} (h : shape.cellAt k = shape.cellAt l) : k = l := by
  unfold Shape.cellAt at h
  split at h
  · obtain ⟨hmod, hdiv⟩ := Prod.mk.inj h
    rw [← mod_add_div k shape.nc, hmod, hdiv, mod_add_div]
  · obtain ⟨hdiv, hmod⟩ := Prod.mk.inj h
    rw [← mod_add_div k shape.nr, hmod, hdiv, mod_add_div]

theorem ceilSqrt_pos {n : ℕ} (hn : 0 < n) : 0 < ceilSqrt n := by
  unfold ceilSqrt
  split
  · exact sqrt_pos.2 hn
  · exact succ_pos _

theorem le_ceil_mul {n d : ℕ} (hd : 0 < d) : n ≤ (n + (d - 1)) / d * d := by
  have hlt := lt_div_mul_add hd (a := n + (d - 1))
  omega

/-- The array has a cell for each box. -/
theorem arrayShape_holds (hng : 0 < ng) (pinfo : array_info ng) : (arrayShape ng pinfo).Holds ng := by
  have hpos : 0 < if pinfo.sz > 0 then pinfo.sz.toNat else ceilSqrt ng := by
    split
    · omega
    · exact ceilSqrt_pos hng
  unfold arrayShape
  split
  · exact ⟨hpos, (le_ceil_mul hpos).trans (mul_comm _ _).le⟩
  · exact ⟨hpos, le_ceil_mul hpos⟩

/-! ## The loops -/

variable {order : List (Fin ng)} {gs : Fin ng → boxf} {pinfo : array_info ng}
  {widths heights : ℕ → ℚ}

theorem le_update_max {f : ℕ → ℚ} {c d : ℕ} {v x : ℚ} :
    x ≤ Function.update f c (max (f c) v) d ↔ x ≤ f d ∨ c = d ∧ x ≤ v := by
  by_cases hd : c = d
  · subst hd
    rw [update_self, le_max_iff]
    exact or_congr_right ⟨fun h => ⟨rfl, h⟩, And.right⟩
  · rw [update_of_ne (Ne.symm hd)]
    exact ⟨.inl, fun h => h.resolve_right fun h' => hd h'.1⟩

/-- A column gets as wide as the widest box of it, and a row as high as the highest one. -/
theorem le_cellSizes (h : shape.Holds ng) (g : Fin ng → ainfo ng) (k : ℕ) (widths heights : ℕ → ℚ)
    (c : ℕ) (x : ℚ) :
    (x ≤ (cellSizes shape (order.map g) (shape.cellAt k) (widths, heights)).1 c ↔
      x ≤ widths c ∨ ∃ p ∈ order.zipIdx k, (shape.cellAt p.2).1 = c ∧ x ≤ (g p.1).width) ∧
    (x ≤ (cellSizes shape (order.map g) (shape.cellAt k) (widths, heights)).2 c ↔
      x ≤ heights c ∨ ∃ p ∈ order.zipIdx k, (shape.cellAt p.2).2 = c ∧ x ≤ (g p.1).height) := by
  induction order generalizing k widths heights with
  | nil => exact ⟨⟨.inl, fun hx => hx.resolve_right nofun⟩, .inl, fun hx => hx.resolve_right nofun⟩
  | cons i order ih =>
    rw [map_cons, cellSizes, INC_cellAt h, zipIdx_cons, exists_mem_cons_iff,
      exists_mem_cons_iff, ← or_assoc, ← or_assoc, ← le_update_max, ← le_update_max]
    exact ih _ _ _

theorem isInt_update {f : ℕ → ℚ} (hf : ∀ c, IsInt (f c)) {v : ℚ} (hv : IsInt v) (c d : ℕ) :
    IsInt (Function.update f c (max (f c) v) d) := by
  by_cases hd : d = c
  · subst hd
    rw [update_self]
    obtain h | h := max_choice (f d) v
    · rw [h]
      exact hf d
    · rw [h]
      exact hv
  · rw [update_of_ne hd]
    exact hf d

theorem cellSizes_isInt {sinfo : List (ainfo ng)}
    (hsize : ∀ ip ∈ sinfo, IsInt ip.width ∧ IsInt ip.height) (cr : ℕ × ℕ) {s : (ℕ → ℚ) × (ℕ → ℚ)}
    (hs : (∀ c, IsInt (s.1 c)) ∧ ∀ r, IsInt (s.2 r)) :
    (∀ c, IsInt ((cellSizes shape sinfo cr s).1 c)) ∧
      ∀ r, IsInt ((cellSizes shape sinfo cr s).2 r) := by
  induction sinfo generalizing cr s with
  | nil => exact hs
  | cons ip sinfo ih =>
    obtain ⟨hip, hsize⟩ := forall_mem_cons.1 hsize
    exact ih hsize _ ⟨isInt_update hs.1 hip.1 _, isInt_update hs.2 hip.2 _⟩

/-- The loop leaves the entries before its own, starts at `wd`, and goes on by a width each time. -/
theorem widthPositions_spec (k i : ℕ) (wd : ℚ) (widths : ℕ → ℚ) :
    (∀ c < i, widthPositions k i wd widths c = widths c) ∧
    (0 < k → widthPositions k i wd widths i = wd) ∧
    ∀ c, i ≤ c → c + 1 < i + k →
      widthPositions k i wd widths (c + 1) = widthPositions k i wd widths c + widths c := by
  induction k generalizing i wd widths with
  | zero => exact ⟨fun c _ => rfl, nofun, fun c hi hc => absurd hc (by omega)⟩
  | succ k ih =>
    obtain ⟨hbefore, hfirst, hnext⟩ := ih (i + 1) (wd + widths i) (Function.update widths i wd)
    have hi : widthPositions (k + 1) i wd widths i = wd := by
      rw [widthPositions, hbefore i (lt_succ_self i), update_self]
    refine ⟨fun c hc => ?_, fun _ => hi, fun c hic hc => ?_⟩
    · rw [widthPositions, hbefore c (by omega), update_of_ne (by omega)]
    · obtain rfl | hlt := eq_or_lt_of_le hic
      · rw [hi, widthPositions, hfirst (by omega)]
      · rw [widthPositions, hnext c hlt (by omega), update_of_ne (by omega)]

/-- The loop leaves the entries after its own, starts at `ht`, and goes on by a height each time. -/
theorem heightPositions_spec (i : ℕ) (ht : ℚ) (heights : ℕ → ℚ) :
    (∀ r > i, heightPositions i ht heights r = heights r) ∧ heightPositions i ht heights i = ht ∧
    ∀ r < i, heightPositions i ht heights r =
      heightPositions i ht heights (r + 1) + heights r := by
  induction i generalizing ht heights with
  | zero =>
    refine ⟨fun r hr => ?_, ?_, nofun⟩
    · rw [heightPositions, update_of_ne (by omega)]
    · rw [heightPositions, update_self]
  | succ i ih =>
    obtain ⟨hafter, hfirst, hnext⟩ := ih (ht + heights i) (Function.update heights (i + 1) ht)
    have hi : heightPositions (i + 1) ht heights (i + 1) = ht := by
      rw [heightPositions, hafter (i + 1) (lt_succ_self i), update_self]
    refine ⟨fun r hr => ?_, hi, fun r hr => ?_⟩
    · rw [heightPositions, hafter r (by omega), update_of_ne (by omega)]
    · obtain rfl | hlt := Nat.eq_or_lt_of_le (Nat.lt_succ_iff.1 hr)
      · rw [hi, heightPositions, hfirst]
      · rw [heightPositions, hnext r hlt, update_of_ne (by omega)]

/-- Each box is put into the cell of its position. -/
theorem positionRects_spec (h : shape.Holds ng) (widths heights : ℕ → ℚ) (k : ℕ)
    (s : Arrangement ng) (hnodup : order.Nodup) :
    let s' := positionRects shape gs pinfo widths heights (order.map (boxInfo gs pinfo))
      (shape.cellAt k) s
    (∀ i ∉ order, s'.cells i = s.cells i ∧ s'.places i = s.places i) ∧
    ∀ p ∈ order.zipIdx k, s'.cells p.1 = shape.cellAt p.2 ∧ s'.places p.1 =
      placeRect (gs p.1) pinfo widths heights (shape.cellAt p.2).1 (shape.cellAt p.2).2 := by
  induction order generalizing k s with
  | nil => exact ⟨fun i _ => ⟨rfl, rfl⟩, nofun⟩
  | cons i order ih =>
    obtain ⟨hi, hnodup⟩ := nodup_cons.1 hnodup
    obtain ⟨hout, hin⟩ := ih (k + 1) ⟨Function.update s.places i
      (placeRect (gs i) pinfo widths heights (shape.cellAt k).1 (shape.cellAt k).2),
      Function.update s.cells i (shape.cellAt k)⟩ hnodup
    rw [← INC_cellAt h] at hout hin
    rw [zipIdx_cons]
    refine ⟨fun j hj => ?_, forall_mem_cons.2 ⟨?_, hin⟩⟩
    · obtain ⟨hji, hj⟩ := not_or.1 (mt mem_cons.2 hj)
      obtain ⟨hcell, hplace⟩ := hout j hj
      exact ⟨hcell.trans (update_of_ne hji _ _), hplace.trans (update_of_ne hji _ _)⟩
    · obtain ⟨hcell, hplace⟩ := hout i hi
      exact ⟨hcell.trans (update_self _ _ _), hplace.trans (update_self _ _ _)⟩

/-! ## The sides of the cells -/

/-- What the loops over the sizes leave: the sides of the columns from left to right and those of
the rows from top to bottom, with room for each box. -/
structure Sides (shape : Shape) (order : List (Fin ng)) (g : Fin ng → ainfo ng)
    (widths heights : ℕ → ℚ) : Prop where
  x_int : ∀ c ≤ shape.nc, IsInt (widths c)
  y_int : ∀ r ≤ shape.nr, IsInt (heights r)
  x_nonneg : ∀ c < shape.nc, widths c ≤ widths (c + 1)
  y_nonneg : ∀ r < shape.nr, heights (r + 1) ≤ heights r
  le_x : ∀ c < shape.nc, ∀ x > 0, x ≤ widths (c + 1) - widths c ↔
    ∃ p ∈ order.zipIdx, (shape.cellAt p.2).1 = c ∧ x ≤ (g p.1).width
  le_y : ∀ r < shape.nr, ∀ y > 0, y ≤ heights r - heights (r + 1) ↔
    ∃ p ∈ order.zipIdx, (shape.cellAt p.2).2 = r ∧ y ≤ (g p.1).height

theorem cellPositions_sides (h : shape.Holds ng) {g : Fin ng → ainfo ng}
    (hg : ∀ i, IsInt (g i).width ∧ IsInt (g i).height) :
    Sides shape order g (cellPositions shape (order.map g)).1
      (cellPositions shape (order.map g)).2 := by
  have hcell : shape.cellAt 0 = (0, 0) := by
    unfold Shape.cellAt
    split <;> rw [Nat.zero_mod, Nat.zero_div]
  have hle := @le_cellSizes _ _ order h g 0 (fun _ => 0) fun _ => 0
  have hsize : ∀ ip ∈ order.map g, IsInt ip.width ∧ IsInt ip.height := by
    intro ip hip
    obtain ⟨i, -, rfl⟩ := mem_map.1 hip
    exact hg i
  have hint := @cellSizes_isInt _ shape _ hsize (0, 0) (fun _ => 0, fun _ => 0)
    ⟨fun _ => isInt_zero, fun _ => isInt_zero⟩
  rw [hcell] at hle
  unfold cellPositions
  generalize cellSizes shape (order.map g) (0, 0) (fun _ => 0, fun _ => 0) = s at hle hint
  obtain ⟨widths, heights⟩ := s
  obtain ⟨-, hx0, hx⟩ := widthPositions_spec (shape.nc + 1) 0 0 widths
  obtain ⟨-, hy0, hy⟩ := heightPositions_spec shape.nr 0 heights
  change Sides shape order g (widthPositions (shape.nc + 1) 0 0 widths)
    (heightPositions shape.nr 0 heights)
  have hx : ∀ c < shape.nc, widthPositions (shape.nc + 1) 0 0 widths (c + 1) =
      widthPositions (shape.nc + 1) 0 0 widths c + widths c := fun c hc =>
    hx c (zero_le c) (by omega)
  have hwidth : ∀ c, 0 ≤ widths c := fun c => (hle c 0).1.2 (.inl le_rfl)
  have hheight : ∀ r, 0 ≤ heights r := fun r => (hle r 0).2.2 (.inl le_rfl)
  refine ⟨fun c hc => ?_, fun r hr => ?_, fun c hc => ?_, fun r hr => ?_, fun c hc x hpos => ?_,
    fun r hr y hpos => ?_⟩
  · induction c with
    | zero =>
      rw [hx0 (succ_pos _)]
      exact isInt_zero
    | succ c ih =>
      rw [hx c hc]
      exact (ih (by omega)).add (hint.1 c)
  · induction hr using Nat.decreasingInduction with
    | self =>
      rw [hy0]
      exact isInt_zero
    | of_succ r hr ih =>
      rw [hy r hr]
      exact ih.add (hint.2 r)
  · rw [hx c hc]
    exact le_add_of_nonneg_right (hwidth c)
  · rw [hy r hr]
    exact le_add_of_nonneg_right (hheight r)
  · rw [hx c hc, add_sub_cancel_left, (hle c x).1]
    exact or_iff_right hpos.not_ge
  · rw [hy r hr, add_sub_cancel_left, (hle r y).2]
    exact or_iff_right hpos.not_ge

theorem mem_zipIdx_iff {α : Type} [DecidableEq α] {l : List α} (hl : l.Nodup) {p : α × ℕ} :
    p ∈ l.zipIdx ↔ p.1 ∈ l ∧ p.2 = l.idxOf p.1 := by
  rw [mem_zipIdx_iff_getElem?]
  constructor
  · intro h
    obtain ⟨hlt, heq⟩ := List.getElem?_eq_some_iff.1 h
    exact ⟨heq ▸ getElem_mem hlt, heq ▸ (hl.idxOf_getElem p.2 hlt).symm⟩
  · rintro ⟨hmem, hidx⟩
    rw [hidx]
    exact getElem?_idxOf hmem

/-- The cell of a box, by its position in the order. -/
def Shape.cellOf (shape : Shape) (order : List (Fin ng)) (i : Fin ng) : ℕ × ℕ :=
  shape.cellAt (order.idxOf i)

variable {g : Fin ng → ainfo ng} {i : Fin ng}

theorem Sides.le_width (h : Sides shape order g widths heights) (hall : ∀ i, i ∈ order)
    (hnodup : order.Nodup) (hlt : (shape.cellOf order i).1 < shape.nc) (hi : 0 ≤ (g i).width)
    (x : ℚ) :
    x ≤ widths ((shape.cellOf order i).1 + 1) - widths (shape.cellOf order i).1 ↔
      ∃ j, (shape.cellOf order j).1 = (shape.cellOf order i).1 ∧ x ≤ (g j).width := by
  obtain hx | hx := le_or_gt x 0
  · have hroom := h.x_nonneg _ hlt
    exact ⟨fun _ => ⟨i, rfl, hx.trans hi⟩, fun _ => by linarith⟩
  · rw [h.le_x _ hlt x hx]
    constructor
    · rintro ⟨p, hp, hcol, hle⟩
      rw [((mem_zipIdx_iff hnodup).1 hp).2] at hcol
      exact ⟨p.1, hcol, hle⟩
    · rintro ⟨j, hcol, hle⟩
      exact ⟨(j, order.idxOf j), (mem_zipIdx_iff hnodup).2 ⟨hall j, rfl⟩, hcol, hle⟩

theorem Sides.le_height (h : Sides shape order g widths heights) (hall : ∀ i, i ∈ order)
    (hnodup : order.Nodup) (hlt : (shape.cellOf order i).2 < shape.nr) (hi : 0 ≤ (g i).height)
    (y : ℚ) :
    y ≤ heights (shape.cellOf order i).2 - heights ((shape.cellOf order i).2 + 1) ↔
      ∃ j, (shape.cellOf order j).2 = (shape.cellOf order i).2 ∧ y ≤ (g j).height := by
  obtain hy | hy := le_or_gt y 0
  · have hroom := h.y_nonneg _ hlt
    exact ⟨fun _ => ⟨i, rfl, hy.trans hi⟩, fun _ => by linarith⟩
  · rw [h.le_y _ hlt y hy]
    constructor
    · rintro ⟨p, hp, hrow, hle⟩
      rw [((mem_zipIdx_iff hnodup).1 hp).2] at hrow
      exact ⟨p.1, hrow, hle⟩
    · rintro ⟨j, hrow, hle⟩
      exact ⟨(j, order.idxOf j), (mem_zipIdx_iff hnodup).2 ⟨hall j, rfl⟩, hrow, hle⟩

/-! ## A box in an interval -/

section Interval

variable {lo hi l u : ℚ}

/-- A box moved by the lower end of an interval is in it when its own lower end leaves room. -/
theorem atLow_iff (hlo : IsInt lo) :
    (lo ≤ l + cround lo ∧ u + cround lo ≤ hi) ↔ 0 ≤ l ∧ u ≤ hi - lo := by
  rw [hlo.cround_eq, le_add_iff_nonneg_left, ← le_sub_iff_add_le]

/-- A box moved so that one of its size at the origin would end with the interval. -/
theorem atHigh_iff (hhi : IsInt hi) (hl : IsInt l) (hu : IsInt u) :
    (lo ≤ l + cround (hi - (u - l)) ∧ u + cround (hi - (u - l)) ≤ hi) ↔
      l ≤ 0 ∧ u - l - l ≤ hi - lo := by
  rw [(hhi.sub (hu.sub hl)).cround_eq]
  constructor <;> rintro ⟨h1, h2⟩ <;> constructor <;> linarith

/-- A box that is not longer than the interval is in it when it is moved to its middle. -/
theorem centred_between (hlo : IsInt lo) (hhi : IsInt hi) (hl : IsInt l) (hu : IsInt u)
    (hroom : u - l ≤ hi - lo) :
    lo ≤ l + cround ((lo + hi - u - l) / 2) ∧ u + cround ((lo + hi - u - l) / 2) ≤ hi := by
  obtain heq | hlt := hroom.eq_or_lt
  · have hmid : (lo + hi - u - l) / 2 = lo - l := by linarith
    rw [hmid, (hlo.sub hl).cround_eq]
    constructor <;> linarith
  · have hstep : u - l + 1 ≤ hi - lo := by
      obtain ⟨a, ha⟩ := hu.sub hl
      obtain ⟨b, hb⟩ := hhi.sub hlo
      rw [ha, hb] at hlt ⊢
      exact_mod_cast Int.add_one_le_of_lt (Int.cast_lt.1 hlt)
    have hbelow := le_cround ((lo + hi - u - l) / 2)
    have habove := cround_le ((lo + hi - u - l) / 2)
    constructor <;> linarith

end Interval

/-! ## The boxes in their cells -/

/-- Each box has a cell of its own, lies between the sides of its cell, and does not overlap
another one. -/
structure InCells (shape : Shape) (sides : (ℕ → ℚ) × (ℕ → ℚ)) (gs : Fin ng → boxf)
    (places : Fin ng → pointf) (cells : Fin ng → ℕ × ℕ) : Prop where
  inj : Function.Injective cells
  lt : ∀ i, (cells i).1 < shape.nc ∧ (cells i).2 < shape.nr
  x : ∀ i, sides.1 (cells i).1 ≤ ((gs i).translate (places i)).LL.x ∧
    ((gs i).translate (places i)).UR.x ≤ sides.1 ((cells i).1 + 1)
  y : ∀ i, sides.2 ((cells i).2 + 1) ≤ ((gs i).translate (places i)).LL.y ∧
    ((gs i).translate (places i)).UR.y ≤ sides.2 (cells i).2
  apart : ∀ i j, i ≠ j → ((gs i).translate (places i)).Apart ((gs j).translate (places j))

/-- The corner of a box leaves room for it in its column: always where boxes are centred; where
they are aligned to the left, it is not left of the origin, and some box of the column with the
margin is as wide as this one reaches; and the other way round where they are aligned to the
right. -/
def RoomX (shape : Shape) (order : List (Fin ng)) (gs : Fin ng → boxf) (pinfo : array_info ng)
    (i : Fin ng) : Prop :=
  if pinfo.flag PK_LEFT_ALIGN then
    0 ≤ (gs i).LL.x ∧ ∃ j, (shape.cellOf order j).1 = (shape.cellOf order i).1 ∧
      (gs i).UR.x ≤ (boxInfo gs pinfo j).width
  else if pinfo.flag PK_RIGHT_ALIGN then
    (gs i).LL.x ≤ 0 ∧ ∃ j, (shape.cellOf order j).1 = (shape.cellOf order i).1 ∧
      (gs i).UR.x - (gs i).LL.x - (gs i).LL.x ≤ (boxInfo gs pinfo j).width
  else True

/-- The corner of a box leaves room for it in its row. -/
def RoomY (shape : Shape) (order : List (Fin ng)) (gs : Fin ng → boxf) (pinfo : array_info ng)
    (i : Fin ng) : Prop :=
  if pinfo.flag PK_TOP_ALIGN then
    (gs i).LL.y ≤ 0 ∧ ∃ j, (shape.cellOf order j).2 = (shape.cellOf order i).2 ∧
      (gs i).UR.y - (gs i).LL.y - (gs i).LL.y ≤ (boxInfo gs pinfo j).height
  else if pinfo.flag PK_BOT_ALIGN then
    0 ≤ (gs i).LL.y ∧ ∃ j, (shape.cellOf order j).2 = (shape.cellOf order i).2 ∧
      (gs i).UR.y ≤ (boxInfo gs pinfo j).height
  else True

theorem boxInfo_isInt (hgs : ∀ i, (gs i).IntBox) (i : Fin ng) :
    IsInt (boxInfo gs pinfo i).width ∧ IsInt (boxInfo gs pinfo i).height :=
  ⟨((hgs i).urx.sub (hgs i).llx).add ⟨_, rfl⟩, ((hgs i).ury.sub (hgs i).lly).add ⟨_, rfl⟩⟩

theorem size_le_boxInfo (i : Fin ng) : (gs i).UR.x - (gs i).LL.x ≤ (boxInfo gs pinfo i).width ∧
    (gs i).UR.y - (gs i).LL.y ≤ (boxInfo gs pinfo i).height :=
  ⟨le_add_of_nonneg_right (cast_nonneg _), le_add_of_nonneg_right (cast_nonneg _)⟩

theorem boxInfo_nonneg (hgs : ∀ i, (gs i).IntBox) (i : Fin ng) :
    0 ≤ (boxInfo gs pinfo i).width ∧ 0 ≤ (boxInfo gs pinfo i).height :=
  ⟨(sub_nonneg.2 (hgs i).x).trans (size_le_boxInfo i).1,
    (sub_nonneg.2 (hgs i).y).trans (size_le_boxInfo i).2⟩

section Placed

variable (hgs : ∀ i, (gs i).IntBox) (hall : ∀ i, i ∈ order) (hnodup : order.Nodup)
  (hs : Sides shape order (boxInfo gs pinfo) widths heights)

include hgs hall hnodup hs

/-- A box is between the sides of its column when its corner leaves room for it. -/
theorem placeRect_x_iff (hlt : (shape.cellOf order i).1 < shape.nc) (r : ℕ) :
    let b := (gs i).translate (placeRect (gs i) pinfo widths heights (shape.cellOf order i).1 r)
    (widths (shape.cellOf order i).1 ≤ b.LL.x ∧ b.UR.x ≤ widths ((shape.cellOf order i).1 + 1)) ↔
      RoomX shape order gs pinfo i := by
  have hroom := hs.le_width hall hnodup hlt (boxInfo_nonneg hgs i).1
  have hlo := hs.x_int _ hlt.le
  have hhi := hs.x_int _ hlt
  unfold RoomX placeRect boxf.translate add_pointf
  dsimp only
  split_ifs
  · rw [atLow_iff hlo, hroom]
  · rw [atHigh_iff hhi (hgs i).llx (hgs i).urx, hroom]
  · exact iff_true_intro (centred_between hlo hhi (hgs i).llx (hgs i).urx
      ((hroom _).2 ⟨i, rfl, (size_le_boxInfo i).1⟩))

/-- A box is between the sides of its row when its corner leaves room for it. -/
theorem placeRect_y_iff (hlt : (shape.cellOf order i).2 < shape.nr) (c : ℕ) :
    let b := (gs i).translate (placeRect (gs i) pinfo widths heights c (shape.cellOf order i).2)
    (heights ((shape.cellOf order i).2 + 1) ≤ b.LL.y ∧ b.UR.y ≤ heights (shape.cellOf order i).2) ↔
      RoomY shape order gs pinfo i := by
  have hroom := hs.le_height hall hnodup hlt (boxInfo_nonneg hgs i).2
  have hlo := hs.y_int _ hlt
  have hhi := hs.y_int _ hlt.le
  unfold RoomY placeRect boxf.translate add_pointf
  dsimp only
  split_ifs
  · rw [atHigh_iff hhi (hgs i).lly (hgs i).ury, hroom]
  · rw [atLow_iff hlo, hroom]
  · rw [add_comm (heights (shape.cellOf order i).2)]
    exact iff_true_intro (centred_between hlo hhi (hgs i).lly (hgs i).ury
      ((hroom _).2 ⟨i, rfl, (size_le_boxInfo i).2⟩))

end Placed

theorem sides_mono (h : Sides shape order g widths heights) {c d : ℕ} :
    (c ≤ d → d ≤ shape.nc → widths c ≤ widths d) ∧
      (c ≤ d → d ≤ shape.nr → heights d ≤ heights c) := by
  constructor
  · intro hcd
    induction hcd with
    | refl => exact fun _ => le_rfl
    | @step d _ ih => exact fun hd => (ih (by omega)).trans (h.x_nonneg d hd)
  · intro hcd
    induction hcd with
    | refl => exact fun _ => le_rfl
    | @step d _ ih => exact fun hd => (h.y_nonneg d hd).trans (ih (by omega))

/-- Boxes in different cells do not overlap. -/
theorem apart_of_cells (h : Sides shape order g widths heights) {a b : boxf} {p q : ℕ × ℕ}
    (hpq : p ≠ q) (hp : p.1 < shape.nc ∧ p.2 < shape.nr) (hq : q.1 < shape.nc ∧ q.2 < shape.nr)
    (hax : widths p.1 ≤ a.LL.x ∧ a.UR.x ≤ widths (p.1 + 1))
    (hay : heights (p.2 + 1) ≤ a.LL.y ∧ a.UR.y ≤ heights p.2)
    (hbx : widths q.1 ≤ b.LL.x ∧ b.UR.x ≤ widths (q.1 + 1))
    (hby : heights (q.2 + 1) ≤ b.LL.y ∧ b.UR.y ≤ heights q.2) : a.Apart b := by
  obtain hlt | heq | hgt := lt_trichotomy p.1 q.1
  · exact .inl (.inl (hax.2.trans (((sides_mono h).1 hlt hq.1.le).trans hbx.1)))
  · obtain hlt | heq' | hgt := lt_trichotomy p.2 q.2
    · exact .inr (.inr (hby.2.trans (((sides_mono h).2 hlt hq.2.le).trans hay.1)))
    · exact absurd (Prod.ext heq heq') hpq
    · exact .inr (.inl (hay.2.trans (((sides_mono h).2 hgt hp.2.le).trans hby.1)))
  · exact .inl (.inr (hbx.2.trans (((sides_mono h).1 hgt hp.1.le).trans hax.1)))

/-- Sorting leaves the boxes in some order. -/
theorem sortBoxes_eq (gv_sort : (vals : Fin ng → UInt32) → Qsort (ucmpf vals))
    (qsort : Qsort (@acmpf ng)) (gs : Fin ng → boxf) (pinfo : array_info ng) :
    sortBoxes gv_sort qsort gs pinfo =
      ((sortBoxes gv_sort qsort gs pinfo).map (·.index)).map (boxInfo gs pinfo) ∧
    ((sortBoxes gv_sort qsort gs pinfo).map (·.index)).Perm (finRange ng) := by
  have hperm : (sortBoxes gv_sort qsort gs pinfo).Perm (ofFn (boxInfo gs pinfo)) := by
    unfold sortBoxes
    dsimp only
    split
    · exact (gv_sort _).perm _
    · split
      · exact .refl _
      · exact qsort.perm _
  constructor
  · rw [map_map]
    refine (map_id _).symm.trans (map_congr_left fun ip hip => ?_)
    obtain ⟨i, rfl⟩ := mem_ofFn.1 (hperm.subset hip)
    rfl
  · have hmap := hperm.map (·.index)
    have hindex : (finRange ng).map ((·.index) ∘ boxInfo gs pinfo) = finRange ng :=
      map_id _
    rwa [map_ofFn, ofFn_eq_map, hindex] at hmap

/-- In every order, the boxes are in their cells exactly when their corners leave room for them. -/
theorem arrangeRects_iff (hgs : ∀ i, (gs i).IntBox) (h : shape.Holds ng)
    (horder : order.Perm (finRange ng)) :
    InCells shape (cellPositions shape (order.map (boxInfo gs pinfo))) gs
        (arrangeRects shape (order.map (boxInfo gs pinfo)) gs pinfo).places
        (arrangeRects shape (order.map (boxInfo gs pinfo)) gs pinfo).cells ↔
      ∀ i, RoomX shape order gs pinfo i ∧ RoomY shape order gs pinfo i := by
  have hnodup : order.Nodup := horder.nodup_iff.2 (nodup_finRange ng)
  have hall : ∀ i, i ∈ order := fun i => horder.mem_iff.2 (mem_finRange i)
  have hs : Sides shape order (boxInfo gs pinfo) _ _ := cellPositions_sides h (boxInfo_isInt hgs)
  have hcell : shape.cellAt 0 = (0, 0) := by
    unfold Shape.cellAt
    split <;> rw [Nat.zero_mod, Nat.zero_div]
  have hplaced : ∀ i, (arrangeRects shape (order.map (boxInfo gs pinfo)) gs pinfo).cells i =
      shape.cellOf order i ∧ (arrangeRects shape (order.map (boxInfo gs pinfo)) gs pinfo).places i =
      placeRect (gs i) pinfo (cellPositions shape (order.map (boxInfo gs pinfo))).1
        (cellPositions shape (order.map (boxInfo gs pinfo))).2 (shape.cellOf order i).1
        (shape.cellOf order i).2 := by
    intro i
    have hspec := (@positionRects_spec ng shape order gs pinfo h
      (cellPositions shape (order.map (boxInfo gs pinfo))).1
      (cellPositions shape (order.map (boxInfo gs pinfo))).2 0 ⟨fun _ => ⟨0, 0⟩, fun _ => (0, 0)⟩
      hnodup).2 (i, order.idxOf i) ((mem_zipIdx_iff hnodup).2 ⟨hall i, rfl⟩)
    rw [hcell] at hspec
    exact hspec
  have hlt : ∀ i, (shape.cellOf order i).1 < shape.nc ∧ (shape.cellOf order i).2 < shape.nr := by
    intro i
    refine h.cellAt_lt ((idxOf_lt_length_of_mem (hall i)).trans_eq ?_)
    rw [horder.length_eq, length_finRange]
  have hx := fun i => placeRect_x_iff hgs hall hnodup hs (hlt i).1 (shape.cellOf order i).2
  have hy := fun i => placeRect_y_iff hgs hall hnodup hs (hlt i).2 (shape.cellOf order i).1
  constructor
  · intro hin i
    have hxi := hin.x i
    have hyi := hin.y i
    rw [(hplaced i).1, (hplaced i).2] at hxi hyi
    exact ⟨(hx i).1 hxi, (hy i).1 hyi⟩
  · intro hroom
    have hbox : ∀ i, _ := fun i => And.intro ((hx i).2 (hroom i).1) ((hy i).2 (hroom i).2)
    have hinj : ∀ i j, shape.cellOf order i = shape.cellOf order j → i = j := fun i j hij =>
      (idxOf_inj (hall i)).1 (Shape.cellAt_inj hij)
    refine ⟨fun i j hij => hinj i j ?_, fun i => ?_, fun i => ?_, fun i => ?_, fun i j hij => ?_⟩
    · rwa [(hplaced i).1, (hplaced j).1] at hij
    · rw [(hplaced i).1]
      exact hlt i
    · rw [(hplaced i).1, (hplaced i).2]
      exact (hbox i).1
    · rw [(hplaced i).1, (hplaced i).2]
      exact (hbox i).2
    · rw [(hplaced i).2, (hplaced j).2]
      exact apart_of_cells hs (fun heq => hij (hinj i j heq)) (hlt i) (hlt j) (hbox i).1 (hbox i).2
        (hbox j).1 (hbox j).2

/-- A merge sort by sizes. -/
def mergeBySize : Qsort (@acmpf ng) where
  run l := l.mergeSort fun x y => acmpf x y ≤ 0
  perm l := mergeSort_perm l _
  sorted l := by
    have hle : ∀ x y : ainfo ng, acmpf x y ≤ 0 ↔ y.height + y.width ≤ x.height + x.width := by
      intro x y
      unfold acmpf
      dsimp only
      split_ifs with h h'
      · exact ⟨by omega, fun hle => absurd hle h.not_ge⟩
      · exact ⟨fun _ => h'.le, by omega⟩
      · exact ⟨fun _ => not_lt.1 h, by omega⟩
    refine (pairwise_mergeSort (fun x y z => ?_) (fun x y => ?_) l).imp fun h => ?_
    · simp only [hle, decide_eq_true_eq]
      exact fun hxy hyz => hyz.trans hxy
    · simp only [hle, Bool.or_eq_true, decide_eq_true_eq]
      exact le_total _ _
    · simpa using h

/-- A merge sort by user values. -/
def mergeByValue (vals : Fin ng → UInt32) : Qsort (ucmpf vals) where
  run l := l.mergeSort fun x y => ucmpf vals x y ≤ 0
  perm l := mergeSort_perm l _
  sorted l := by
    have hle : ∀ x y : ainfo ng, ucmpf vals x y ≤ 0 ↔ vals x.index ≤ vals y.index := by
      intro x y
      unfold ucmpf
      dsimp only
      split_ifs with h h'
      · exact ⟨by omega, fun hle => absurd hle (UInt32.not_le.2 h)⟩
      · exact ⟨fun _ => UInt32.le_of_lt h', by omega⟩
      · exact ⟨fun _ => UInt32.not_lt.1 h, by omega⟩
    refine (pairwise_mergeSort (fun x y z => ?_) (fun x y => ?_) l).imp fun h => ?_
    · simp only [hle, decide_eq_true_eq]
      exact UInt32.le_trans
    · simp only [hle, Bool.or_eq_true, decide_eq_true_eq]
      exact UInt32.le_total _ _
    · simpa using h

/-- One box of ten by ten points, with its corner five points right of the origin. -/
def offOrigin : Fin 1 → boxf := fun _ => ⟨⟨5, 0⟩, ⟨15, 10⟩⟩

theorem offOrigin_intBox (i : Fin 1) : (offOrigin i).IntBox :=
  ⟨⟨by norm_num [offOrigin], by norm_num [offOrigin]⟩, ⟨5, rfl⟩, ⟨0, rfl⟩, ⟨15, rfl⟩, ⟨10, rfl⟩⟩

end Graphviz.Pack
