import Graphviz.Common.Geom

/-!
# The fields of a record (`common/shapes.c`)

The label of a record is a tree of fields: a text, or a row or column of fields. `size_reclbl` finds
the sizes of the fields from their texts, `resize_reclbl` shares out what the record has more than
it needs, and `pos_reclbl` places the fields and finds which sides of the record each can be reached
from. Numbers are exact.
-/

namespace Graphviz.Reclbl

/-- The bits `BOTTOM`, `RIGHT`, `TOP` and `LEFT`. -/
inductive Side where
  | BOTTOM
  | RIGHT
  | TOP
  | LEFT
  deriving DecidableEq

/-- What of `textlabel_t` is about its size. -/
structure textlabel_t where
  dimen : pointf
  space : pointf
  deriving DecidableEq

/-- The members of `field_t` next to its text or its fields. -/
structure field_data where
  /-- Its dimension. -/
  size : pointf
  /-- Its placement in the node's coordinates. -/
  b : boxf
  /-- If the box list is horizontal. -/
  LR : Bool
  /-- The sides of the node exposed to the field. -/
  sides : Finset Side

/-- `field_t`: a field with a text has no fields. -/
inductive field_t where
  | text (d : field_data) (lp : textlabel_t)
  | table (d : field_data) (fld : List field_t)

namespace field_t

/-- The members next to the text or the fields. -/
def data : field_t → field_data
  | text d _ => d
  | table d _ => d

/-- The member `size`. -/
def size (f : field_t) : pointf := f.data.size

/-- The member `b`. -/
def b (f : field_t) : boxf := f.data.b

/-- The member `LR`. -/
def LR (f : field_t) : Bool := f.data.LR

/-- The member `sides`. -/
def sides (f : field_t) : Finset Side := f.data.sides

/-- The member `fld`. -/
def fld : field_t → List field_t
  | text _ _ => []
  | table _ fld => fld

end field_t

/-- `INCH2PS`. -/
def INCH2PS (inches : ℚ) : ℚ := inches * 72

/-- `GAP`. -/
def GAP : ℚ := 4

/-- `PAD`. -/
def PAD (d : pointf) : pointf :=
  ⟨d.x + 4 * GAP, d.y + 2 * GAP⟩

/-- The size of a text with the whitespace around it. `margin` has the numbers that `sscanf` finds
in the attribute, at least one. -/
def padded (margin : Option (ℚ × Option ℚ)) (dimen : pointf) : pointf :=
  if dimen.x > 0 ∨ dimen.y > 0 then
    match margin with
    | some (marginx, some marginy) =>
      ⟨dimen.x + 2 * INCH2PS marginx, dimen.y + 2 * INCH2PS marginy⟩
    | some (marginx, none) => ⟨dimen.x + 2 * INCH2PS marginx, dimen.y + 2 * INCH2PS marginx⟩
    | none => PAD dimen
  else dimen

/-- The size of a row or column with one more field. -/
def gather (LR : Bool) (d d0 : pointf) : pointf :=
  if LR then ⟨d.x + d0.x, max d.y d0.y⟩ else ⟨max d.x d0.x, d.y + d0.y⟩

mutual

/-- `size_reclbl`. -/
def size_reclbl (margin : Option (ℚ × Option ℚ)) : field_t → field_t
  | .text d lp => .text { d with size := padded margin lp.dimen } lp
  | .table d fld =>
    let fld := size_fields margin fld
    .table { d with size := (fld.map field_t.size).foldl (gather d.LR) ⟨0, 0⟩ } fld

/-- The calls of `size_reclbl` in its loop. -/
def size_fields (margin : Option (ℚ × Option ℚ)) : List field_t → List field_t
  | [] => []
  | f :: fld => size_reclbl margin f :: size_fields margin fld

end

/-- What the field numbered `i` gets of the extra space. -/
def amt (inc : ℚ) (i : ℕ) : ℤ :=
  toInt ((i + 1) * inc) - toInt (i * inc)

/-- The new size of a field of size `size` in a row or column that gets the size `sz`. -/
def newsz (LR : Bool) (sz : pointf) (inc : ℚ) (i : ℕ) (size : pointf) : pointf :=
  if LR then ⟨size.x + amt inc i, sz.y⟩ else ⟨sz.x, size.y + amt inc i⟩

mutual

/-- `resize_reclbl`. -/
def resize_reclbl (nojustify_p : Bool) : field_t → pointf → field_t
  | .text data lp, sz =>
    let d := sub_pointf sz data.size
    .text { data with size := sz }
      (if nojustify_p then lp else { lp with space := add_pointf lp.space d })
  | .table data fld, sz =>
    let d := sub_pointf sz data.size
    let inc := (if data.LR then d.x else d.y) / fld.length
    .table { data with size := sz } (resize_fields nojustify_p data.LR sz inc 0 fld)

/-- The loop of `resize_reclbl` from the field numbered `i` on. -/
def resize_fields (nojustify_p LR : Bool) (sz : pointf) (inc : ℚ) : ℕ → List field_t → List field_t
  | _, [] => []
  | i, sf :: fld =>
    resize_reclbl nojustify_p sf (newsz LR sz inc i sf.size) ::
      resize_fields nojustify_p LR sz inc (i + 1) fld

end

open Side in
/-- The sides that the field numbered `i` leaves in `mask`. -/
def maskOf (LR : Bool) (i last : ℤ) : Finset Side :=
  if LR then
    if i = 0 then
      if i = last then {TOP, BOTTOM, RIGHT, LEFT} else {TOP, BOTTOM, LEFT}
    else if i = last then {TOP, BOTTOM, RIGHT}
    else {TOP, BOTTOM}
  else
    if i = 0 then
      if i = last then {TOP, BOTTOM, RIGHT, LEFT} else {TOP, RIGHT, LEFT}
    else if i = last then {LEFT, BOTTOM, RIGHT}
    else {LEFT, RIGHT}

/-- `ul` after a field. -/
def advance (LR : Bool) (ul size : pointf) : pointf :=
  if LR then ⟨ul.x + size.x, ul.y⟩ else ⟨ul.x, ul.y - size.y⟩

/-- The box of a field with the upper left corner `ul`. -/
def boxAt (ul size : pointf) : boxf :=
  ⟨⟨ul.x, ul.y - size.y⟩, ⟨ul.x + size.x, ul.y⟩⟩

mutual

/-- `pos_reclbl`. -/
def pos_reclbl : field_t → pointf → Finset Side → field_t
  | .text d lp, ul, sides => .text { d with sides := sides, b := boxAt ul d.size } lp
  | .table d fld, ul, sides =>
    let last : ℤ := fld.length - 1
    .table { d with sides := sides, b := boxAt ul d.size } (pos_fields d.LR sides last ul 0 fld)

/-- The loop of `pos_reclbl` from the field numbered `i` on. -/
def pos_fields (LR : Bool) (sides : Finset Side) (last : ℤ) :
    pointf → ℕ → List field_t → List field_t
  | _, _, [] => []
  | ul, i, f :: fld =>
    let mask := if sides.Nonempty then maskOf LR i last else ∅
    pos_reclbl f ul (sides ∩ mask) ::
      pos_fields LR sides last (advance LR ul f.size) (i + 1) fld

end

/-- What `record_init` does with the fields when the record is to have the size `sz`. -/
def layout (margin : Option (ℚ × Option ℚ)) (nojustify_p : Bool) (info : field_t)
    (sz ul : pointf) (sides : Finset Side) : field_t :=
  pos_reclbl (resize_reclbl nojustify_p (size_reclbl margin info) sz) ul sides

end Graphviz.Reclbl

/-!
## The geometry of a record

The fields of a row or column fill it from its first side on and leave less than a unit at its last,
on every level of the record. The rounding does not add up, since the extra space of the first
fields together is one rounded number.
-/

namespace Graphviz.Reclbl

open List

/-! ## Shares of the extra space -/

theorem toInt_of_nonneg {x : ℚ} (hx : 0 ≤ x) : toInt x = ⌊x⌋ := if_pos hx

theorem toInt_zero : toInt 0 = 0 := by
  rw [toInt_of_nonneg le_rfl, Int.floor_zero]

theorem toInt_le {x : ℚ} (hx : 0 ≤ x) : (toInt x : ℚ) ≤ x := by
  rw [toInt_of_nonneg hx]
  exact Int.floor_le x

theorem lt_toInt_add_one {x : ℚ} (hx : 0 ≤ x) : x < toInt x + 1 := by
  rw [toInt_of_nonneg hx]
  exact Int.lt_floor_add_one x

theorem amt_nonneg {inc : ℚ} (hinc : 0 ≤ inc) (i : ℕ) : 0 ≤ amt inc i := by
  have hi : (0 : ℚ) ≤ i * inc := mul_nonneg i.cast_nonneg hinc
  have hle : (i : ℚ) * inc ≤ (i + 1) * inc := by linarith [add_mul (i : ℚ) 1 inc]
  rw [amt, toInt_of_nonneg hi, toInt_of_nonneg (hi.trans hle)]
  exact sub_nonneg.2 (Int.floor_mono hle)

theorem toInt_mul_zero (inc : ℚ) : toInt ((0 : ℕ) * inc) = 0 := by
  rw [Nat.cast_zero, zero_mul, toInt_zero]

theorem toInt_succ_mul (inc : ℚ) (i : ℕ) :
    (toInt ((i + 1 : ℕ) * inc) : ℚ) = toInt (i * inc) + amt inc i := by
  rw [amt, Nat.cast_succ]
  push_cast
  ring

/-! ## Directions -/

/-- The extent of a size in the direction of a row or column. -/
def along (LR : Bool) (p : pointf) : ℚ := if LR then p.x else p.y

/-- The extent of a size across the direction of a row or column. -/
def across (LR : Bool) (p : pointf) : ℚ := if LR then p.y else p.x

/-- A corner further on in the direction of a row or column. -/
def shift (LR : Bool) (ul : pointf) (o : ℚ) : pointf :=
  if LR then ⟨ul.x + o, ul.y⟩ else ⟨ul.x, ul.y - o⟩

/-- Where a box starts in the direction of a row or column. -/
def start (LR : Bool) (b : boxf) : ℚ := if LR then b.LL.x else -b.UR.y

/-- Where a box ends in the direction of a row or column. -/
def stop (LR : Bool) (b : boxf) : ℚ := if LR then b.UR.x else -b.LL.y

/-- The extent of a box across the direction of a row or column. -/
def span (LR : Bool) (b : boxf) : ℚ × ℚ :=
  if LR then (b.LL.y, b.UR.y) else (b.LL.x, b.UR.x)

section Directions

variable (LR : Bool) (ul size sz : pointf) (o o' : ℚ)

theorem shift_zero : shift LR ul 0 = ul := by
  cases LR <;> simp [shift]

theorem shift_shift : shift LR (shift LR ul o) o' = shift LR ul (o + o') := by
  cases LR <;> simp [shift, add_assoc, sub_sub]

theorem advance_eq : advance LR ul size = shift LR ul (along LR size) := by
  cases LR <;> rfl

theorem along_gather (d : pointf) : along LR (gather LR d size) = along LR d + along LR size := by
  cases LR <;> rfl

theorem across_gather (d : pointf) :
    across LR (gather LR d size) = max (across LR d) (across LR size) := by
  cases LR <;> rfl

theorem along_newsz (inc : ℚ) (i : ℕ) :
    along LR (newsz LR sz inc i size) = along LR size + amt inc i := by
  cases LR <;> rfl

theorem across_newsz (inc : ℚ) (i : ℕ) : across LR (newsz LR sz inc i size) = across LR sz := by
  cases LR <;> rfl

theorem start_boxAt_shift : start LR (boxAt (shift LR ul o) size) = start LR (boxAt ul sz) + o := by
  cases LR
  · simp only [start, boxAt, shift, Bool.false_eq_true, if_false]
    ring
  · rfl

theorem stop_boxAt : stop LR (boxAt ul size) = start LR (boxAt ul size) + along LR size := by
  cases LR
  · simp only [start, stop, boxAt, along, Bool.false_eq_true, if_false]
    ring
  · rfl

theorem span_boxAt_shift (h : across LR size = across LR sz) :
    span LR (boxAt (shift LR ul o) size) = span LR (boxAt ul sz) := by
  cases LR <;> simpa [span, boxAt, shift, across] using h

end Directions

/-! ## The fields of a field -/

section Fields

variable (margin : Option (ℚ × Option ℚ)) (nojustify_p LR : Bool) (f : field_t)
  (sz ul : pointf) (sides : Finset Side) (inc : ℚ) (last : ℤ)

theorem size_resize_reclbl : (resize_reclbl nojustify_p f sz).size = sz := by
  cases f <;> rw [resize_reclbl] <;> rfl

theorem size_pos_reclbl : (pos_reclbl f ul sides).size = f.size := by
  cases f <;> rw [pos_reclbl] <;> rfl

theorem b_pos_reclbl : (pos_reclbl f ul sides).b = boxAt ul f.size := by
  cases f <;> rw [pos_reclbl] <;> rfl

theorem sides_pos_reclbl : (pos_reclbl f ul sides).sides = sides := by
  cases f <;> rw [pos_reclbl] <;> rfl

theorem LR_size_reclbl : (size_reclbl margin f).LR = f.LR := by
  cases f <;> rw [size_reclbl] <;> rfl

theorem LR_resize_reclbl : (resize_reclbl nojustify_p f sz).LR = f.LR := by
  cases f <;> rw [resize_reclbl] <;> rfl

theorem LR_pos_reclbl : (pos_reclbl f ul sides).LR = f.LR := by
  cases f <;> rw [pos_reclbl] <;> rfl

theorem size_layout : (layout margin nojustify_p f sz ul sides).size = sz := by
  rw [layout, size_pos_reclbl, size_resize_reclbl]

theorem b_layout : (layout margin nojustify_p f sz ul sides).b = boxAt ul sz := by
  rw [layout, b_pos_reclbl, size_resize_reclbl]

theorem sides_layout : (layout margin nojustify_p f sz ul sides).sides = sides := by
  rw [layout, sides_pos_reclbl]

theorem LR_layout : (layout margin nojustify_p f sz ul sides).LR = f.LR := by
  rw [layout, LR_pos_reclbl, LR_resize_reclbl, LR_size_reclbl]

theorem size_fields_eq (fld : List field_t) :
    size_fields margin fld = fld.map (size_reclbl margin) := by
  induction fld with
  | nil => rw [size_fields, map_nil]
  | cons f fld ih => rw [size_fields, ih, map_cons]

theorem getElem?_resize_fields (fld : List field_t) (i k : ℕ) :
    (resize_fields nojustify_p LR sz inc i fld)[k]? =
      fld[k]?.map fun c => resize_reclbl nojustify_p c (newsz LR sz inc (i + k) c.size) := by
  induction fld generalizing i k with
  | nil => rw [resize_fields, getElem?_nil, Option.map_none]
  | cons f fld ih =>
    cases k with
    | zero => rw [resize_fields, getElem?_cons_zero, getElem?_cons_zero]; rfl
    | succ k =>
      rw [resize_fields, getElem?_cons_succ, getElem?_cons_succ, ih,
        add_right_comm, add_assoc]

/-- The sides that the field numbered `i` takes over. -/
def mask (LR : Bool) (sides : Finset Side) (i last : ℤ) : Finset Side :=
  if sides.Nonempty then maskOf LR i last else ∅

theorem getElem?_pos_fields (fld : List field_t) (i k : ℕ) :
    (pos_fields LR sides last ul i fld)[k]? =
      fld[k]?.map fun c => pos_reclbl c
        (shift LR ul ((fld.take k).map fun c => along LR c.size).sum)
        (sides ∩ mask LR sides (i + k : ℕ) last) := by
  induction fld generalizing i k ul with
  | nil => rw [pos_fields, getElem?_nil, Option.map_none]
  | cons f fld ih =>
    cases k with
    | zero =>
      rw [pos_fields, getElem?_cons_zero, getElem?_cons_zero, take_zero,
        map_nil, sum_nil, shift_zero]
      rfl
    | succ k =>
      rw [pos_fields, getElem?_cons_succ, getElem?_cons_succ, ih, advance_eq,
        shift_shift, take_succ_cons, map_cons, sum_cons, add_right_comm,
        add_assoc]

/-- The first fields get the sum of their sizes and one rounded number. -/
theorem sum_resize_fields (fld : List field_t) (i k : ℕ) (hk : k ≤ fld.length) :
    (((resize_fields nojustify_p LR sz inc i fld).take k).map fun c => along LR c.size).sum =
      ((fld.take k).map fun c => along LR c.size).sum + toInt ((i + k : ℕ) * inc) -
        toInt (i * inc) := by
  induction fld generalizing i k with
  | nil =>
    obtain rfl : k = 0 := Nat.le_zero.1 hk
    simp [resize_fields]
  | cons f fld ih =>
    cases k with
    | zero => simp
    | succ k =>
      rw [resize_fields, take_succ_cons, take_succ_cons, map_cons, map_cons,
        sum_cons, sum_cons, ih (i + 1) k (Nat.le_of_succ_le_succ hk),
        size_resize_reclbl, along_newsz, toInt_succ_mul, add_right_comm, add_assoc]
      ring

theorem fld_size_reclbl : (size_reclbl margin f).fld = f.fld.map (size_reclbl margin) := by
  cases f with
  | text d lp => rw [size_reclbl]; rfl
  | table d fld => rw [size_reclbl]; exact size_fields_eq margin fld

theorem fld_resize_reclbl :
    (resize_reclbl nojustify_p f sz).fld = resize_fields nojustify_p f.LR sz
      ((along f.LR sz - along f.LR f.size) / f.fld.length) 0 f.fld := by
  cases f with
  | text d lp => rw [resize_reclbl]; exact (resize_fields.eq_1 ..).symm
  | table d fld =>
    have hd : (if d.LR then (sub_pointf sz d.size).x else (sub_pointf sz d.size).y) =
        along d.LR sz - along d.LR d.size := by
      cases d.LR <;> rfl
    rw [resize_reclbl, hd]
    rfl

theorem fld_pos_reclbl :
    (pos_reclbl f ul sides).fld = pos_fields f.LR sides (f.fld.length - 1) ul 0 f.fld := by
  cases f with
  | text d lp => rw [pos_reclbl]; exact (pos_fields.eq_1 ..).symm
  | table d fld => rw [pos_reclbl]; rfl

theorem length_resize_fields (fld : List field_t) (i : ℕ) :
    (resize_fields nojustify_p LR sz inc i fld).length = fld.length := by
  induction fld generalizing i with
  | nil => rw [resize_fields]
  | cons f fld ih => rw [resize_fields, List.length_cons, List.length_cons, ih]

theorem length_pos_fields (fld : List field_t) (i : ℕ) :
    (pos_fields LR sides last ul i fld).length = fld.length := by
  induction fld generalizing ul i with
  | nil => rw [pos_fields]
  | cons f fld ih => rw [pos_fields, List.length_cons, List.length_cons, ih]

theorem length_fld_layout :
    (layout margin nojustify_p f sz ul sides).fld.length = f.fld.length := by
  rw [layout, fld_pos_reclbl, length_pos_fields, fld_resize_reclbl, length_resize_fields,
    fld_size_reclbl, length_map]

/-- What each field of a field gets of the extra space, before rounding. -/
def incOf : ℚ :=
  (along f.LR sz - along f.LR (size_reclbl margin f).size) / f.fld.length

/-- How far the field numbered `k` is from the start of the field. -/
def offset (k : ℕ) : ℚ :=
  ((f.fld.take k).map fun c => along f.LR (size_reclbl margin c).size).sum +
    toInt (k * incOf margin f sz)

/-- A field of a field is laid out as a record of its own. -/
theorem getElem?_layout (k : ℕ) :
    (layout margin nojustify_p f sz ul sides).fld[k]? =
      f.fld[k]?.map fun c => layout margin nojustify_p c
        (newsz f.LR sz (incOf margin f sz) k (size_reclbl margin c).size)
        (shift f.LR ul (offset margin f sz k)) (sides ∩ mask f.LR sides k (f.fld.length - 1)) := by
  rw [layout, fld_pos_reclbl, getElem?_pos_fields, LR_resize_reclbl, LR_size_reclbl,
    fld_resize_reclbl, getElem?_resize_fields, length_resize_fields, fld_size_reclbl,
    LR_size_reclbl, length_map, getElem?_map, Option.map_map, Option.map_map]
  cases hc : f.fld[k]? with
  | none => rfl
  | some c =>
    have hk : k ≤ (f.fld.map (size_reclbl margin)).length := by
      rw [length_map]
      exact (List.getElem?_eq_some_iff.1 hc).1.le
    rw [sum_resize_fields _ _ _ _ _ _ _ hk, zero_add, toInt_mul_zero, Int.cast_zero, sub_zero,
      ← map_take, map_map]
    rfl

end Fields

/-! ## Sizes -/

section Sizes

variable {margin : Option (ℚ × Option ℚ)} {LR : Bool} {f c : field_t} {sz : pointf} {k : ℕ}

theorem along_foldl_gather (ds : List pointf) (d : pointf) :
    along LR (ds.foldl (gather LR) d) = along LR d + (ds.map (along LR)).sum := by
  induction ds generalizing d with
  | nil => rw [foldl_nil, map_nil, sum_nil, add_zero]
  | cons e ds ih => rw [foldl_cons, ih, along_gather, map_cons, sum_cons, add_assoc]

theorem across_foldl_gather (ds : List pointf) (d : pointf) :
    across LR d ≤ across LR (ds.foldl (gather LR) d) ∧
      ∀ e ∈ ds, across LR e ≤ across LR (ds.foldl (gather LR) d) := by
  induction ds generalizing d with
  | nil => exact ⟨le_rfl, fun e he => absurd he not_mem_nil⟩
  | cons a ds ih =>
    obtain ⟨hd, hds⟩ := ih (gather LR d a)
    rw [across_gather] at hd
    refine ⟨(le_max_left _ _).trans hd, fun e he => ?_⟩
    obtain rfl | he := mem_cons.1 he
    · exact (le_max_right _ _).trans hd
    · exact hds e he

theorem size_table (d : field_data) (fld : List field_t) :
    (size_reclbl margin (.table d fld)).size =
      (fld.map fun c => (size_reclbl margin c).size).foldl (gather d.LR) ⟨0, 0⟩ := by
  rw [size_reclbl, size_fields_eq, map_map]
  rfl

theorem along_zero : along LR ⟨0, 0⟩ = 0 := by cases LR <;> rfl

theorem across_zero : across LR ⟨0, 0⟩ = 0 := by cases LR <;> rfl

/-- In its direction a row or column is as large as its fields together. -/
theorem along_size (hf : f.fld ≠ []) :
    along f.LR (size_reclbl margin f).size =
      (f.fld.map fun c => along f.LR (size_reclbl margin c).size).sum := by
  cases f with
  | text d lp => exact absurd rfl hf
  | table d fld =>
    rw [size_table]
    show along d.LR _ = (fld.map _).sum
    rw [along_foldl_gather, along_zero, zero_add, map_map]
    rfl

/-- Across its direction a row or column is as large as its largest field. -/
theorem across_le (hc : c ∈ f.fld) :
    across f.LR (size_reclbl margin c).size ≤ across f.LR (size_reclbl margin f).size := by
  cases f with
  | text d lp => exact absurd hc not_mem_nil
  | table d fld =>
    rw [size_table]
    exact (across_foldl_gather _ _).2 _ (mem_map_of_mem hc)

/-- The field needs no more than the size. -/
structure Fits (margin : Option (ℚ × Option ℚ)) (f : field_t) (sz : pointf) : Prop where
  x : (size_reclbl margin f).size.x ≤ sz.x
  y : (size_reclbl margin f).size.y ≤ sz.y

theorem fits_iff (LR : Bool) : Fits margin f sz ↔
    along LR (size_reclbl margin f).size ≤ along LR sz ∧
      across LR (size_reclbl margin f).size ≤ across LR sz := by
  cases LR
  · exact ⟨fun h => ⟨h.y, h.x⟩, fun h => ⟨h.2, h.1⟩⟩
  · exact ⟨fun h => ⟨h.x, h.y⟩, fun h => ⟨h.1, h.2⟩⟩

theorem Fits.incOf_nonneg (h : Fits margin f sz) : 0 ≤ incOf margin f sz :=
  div_nonneg (sub_nonneg.2 ((fits_iff f.LR).1 h).1) (Nat.cast_nonneg _)

/-- Every field of a field gets what it needs. -/
theorem Fits.child (h : Fits margin f sz) (hc : f.fld[k]? = some c) :
    Fits margin c (newsz f.LR sz (incOf margin f sz) k (size_reclbl margin c).size) := by
  have hamt : (0 : ℚ) ≤ amt (incOf margin f sz) k := Int.cast_nonneg (amt_nonneg h.incOf_nonneg k)
  refine (fits_iff f.LR).2 ⟨?_, ?_⟩
  · rw [along_newsz]
    linarith
  · rw [across_newsz]
    exact (across_le (mem_of_getElem? hc)).trans ((fits_iff f.LR).1 h).2

theorem offset_zero : offset margin f sz 0 = 0 := by
  rw [offset, take_zero, map_nil, sum_nil, toInt_mul_zero, Int.cast_zero, zero_add]

theorem offset_succ (hc : f.fld[k]? = some c) :
    offset margin f sz (k + 1) = offset margin f sz k +
      along f.LR (newsz f.LR sz (incOf margin f sz) k (size_reclbl margin c).size) := by
  rw [offset, offset, along_newsz, toInt_succ_mul, take_add_one, hc, Option.toList_some,
    map_append, sum_append, map_singleton, sum_singleton]
  ring

/-- The fields of a field leave less than a unit of it. -/
theorem Fits.offset_length (h : Fits margin f sz) (hf : f.fld ≠ []) :
    offset margin f sz f.fld.length ≤ along f.LR sz ∧
      along f.LR sz < offset margin f sz f.fld.length + 1 := by
  have hn : (f.fld.length : ℚ) ≠ 0 := Nat.cast_ne_zero.2 fun h0 => hf (length_eq_zero_iff.1 h0)
  have hd : (0 : ℚ) ≤ along f.LR sz - along f.LR (size_reclbl margin f).size :=
    sub_nonneg.2 ((fits_iff f.LR).1 h).1
  have hle := toInt_le hd
  have hlt := lt_toInt_add_one hd
  have hoff : offset margin f sz f.fld.length = along f.LR (size_reclbl margin f).size +
      toInt (along f.LR sz - along f.LR (size_reclbl margin f).size) := by
    rw [offset, take_length, ← along_size hf, incOf, mul_div_cancel₀ _ hn]
  rw [hoff]
  constructor <;> linarith

end Sizes

/-! ## One level -/

/-- Boxes follow one another in a box from its start on, with its extent across, and leave less than
a unit at its end. -/
structure Fills (LR : Bool) (b : boxf) (cs : List boxf) : Prop where
  first : ∀ c, cs[0]? = some c → start LR c = start LR b
  next : ∀ i c c', cs[i]? = some c → cs[i + 1]? = some c' → start LR c' = stop LR c
  span : ∀ c ∈ cs, span LR c = span LR b
  rest : ∀ c, cs.getLast? = some c → stop LR c ≤ stop LR b ∧ stop LR b < stop LR c + 1

/-- Boxes lie in a box, each after those before it. -/
structure Packed (LR : Bool) (b : boxf) (cs : List boxf) : Prop where
  within : ∀ c ∈ cs, c.Within b
  apart : cs.Pairwise fun c c' => stop LR c ≤ start LR c'

theorem within_of {LR : Bool} {c b : boxf} (hstart : start LR b ≤ start LR c)
    (hstop : stop LR c ≤ stop LR b) (hspan : span LR c = span LR b) : c.Within b := by
  cases LR
  · obtain ⟨hl, hr⟩ := Prod.mk.inj hspan
    exact ⟨hl.ge, neg_le_neg_iff.1 hstop, hr.le, neg_le_neg_iff.1 hstart⟩
  · obtain ⟨hl, hr⟩ := Prod.mk.inj hspan
    exact ⟨hstart, hl.ge, hstop, hr.le⟩

section Level

variable {margin : Option (ℚ × Option ℚ)} {nojustify_p : Bool} {f : field_t} {sz ul : pointf}
  {sides : Finset Side} {b : boxf} {k : ℕ}

/-- Where the box of a field of a field is. -/
theorem box_child
    (hb : ((layout margin nojustify_p f sz ul sides).fld.map field_t.b)[k]? = some b) :
    ∃ c, f.fld[k]? = some c ∧
      start f.LR b = start f.LR (boxAt ul sz) + offset margin f sz k ∧
      stop f.LR b = start f.LR (boxAt ul sz) + offset margin f sz (k + 1) ∧
      span f.LR b = span f.LR (boxAt ul sz) := by
  rw [getElem?_map, getElem?_layout, Option.map_map] at hb
  obtain ⟨c, hc, rfl⟩ := Option.map_eq_some_iff.1 hb
  refine ⟨c, hc, ?_⟩
  rw [Function.comp_apply, b_layout, stop_boxAt, start_boxAt_shift _ _ _ sz, offset_succ hc,
    ← add_assoc, span_boxAt_shift _ _ _ sz _ (across_newsz ..)]
  exact ⟨rfl, rfl, rfl⟩

theorem lt_of_getElem? (hb :
    ((layout margin nojustify_p f sz ul sides).fld.map field_t.b)[k]? = some b) :
    k < f.fld.length := by
  have hk := (List.getElem?_eq_some_iff.1 hb).1
  rwa [length_map, length_fld_layout] at hk

theorem fills_layout (h : Fits margin f sz) :
    Fills f.LR (boxAt ul sz) ((layout margin nojustify_p f sz ul sides).fld.map field_t.b) where
  first c hc := by
    obtain ⟨-, -, hstart, -⟩ := box_child hc
    rw [hstart, offset_zero, add_zero]
  next i c c' hc hc' := by
    obtain ⟨-, -, -, hstop, -⟩ := box_child hc
    obtain ⟨-, -, hstart, -⟩ := box_child hc'
    rw [hstart, hstop]
  span c hc := by
    obtain ⟨k, hk⟩ := getElem?_of_mem hc
    obtain ⟨-, -, -, -, hspan⟩ := box_child hk
    exact hspan
  rest c hc := by
    rw [getLast?_eq_getElem?, length_map, length_fld_layout] at hc
    have hpos := lt_of_getElem? hc
    obtain ⟨-, -, -, hstop, -⟩ := box_child hc
    have hf : f.fld ≠ [] := ne_nil_of_length_pos (Nat.zero_lt_of_lt hpos)
    have hoff := h.offset_length hf
    rw [Nat.sub_add_cancel (Nat.zero_lt_of_lt hpos)] at hstop
    rw [hstop, stop_boxAt]
    constructor <;> linarith

/-- The sizes of the texts of the field are not negative. -/
def Solid (margin : Option (ℚ × Option ℚ)) : field_t → Prop
  | .text _ lp => 0 ≤ (padded margin lp.dimen).x ∧ 0 ≤ (padded margin lp.dimen).y
  | .table _ fld => ∀ c ∈ fld, Solid margin c

theorem Solid.child (h : Solid margin f) {c : field_t} (hc : c ∈ f.fld) : Solid margin c := by
  cases f with
  | text d lp => exact absurd hc not_mem_nil
  | table d fld => rw [Solid] at h; exact h c hc

theorem nonneg_of_along {d : pointf} (LR LR' : Bool) (h : 0 ≤ along LR' d ∧ 0 ≤ across LR' d) :
    0 ≤ along LR d ∧ 0 ≤ across LR d := by
  cases LR <;> cases LR'
  · exact h
  · exact h.symm
  · exact h.symm
  · exact h

/-- The sizes of the fields are not negative either. -/
theorem Solid.size_nonneg (LR : Bool) : ∀ {f : field_t}, Solid margin f →
    0 ≤ along LR (size_reclbl margin f).size ∧ 0 ≤ across LR (size_reclbl margin f).size
  | .text d lp, h => by
    rw [Solid] at h
    rw [size_reclbl]
    exact nonneg_of_along LR true h
  | .table d fld, h => by
    refine nonneg_of_along LR d.LR ?_
    rw [size_table]
    constructor
    · rw [along_foldl_gather, along_zero, zero_add, map_map]
      refine sum_nonneg fun e he => ?_
      obtain ⟨c, hc, rfl⟩ := mem_map.1 he
      exact (Solid.size_nonneg d.LR (h.child hc)).1
    · have hle : across d.LR ⟨0, 0⟩ ≤ _ := (across_foldl_gather
        (fld.map fun c => (size_reclbl margin c).size) ⟨0, 0⟩).1
      rwa [across_zero] at hle

/-- The fields of a solid field start later the later they are. -/
theorem Fits.offset_mono (h : Fits margin f sz) (hs : Solid margin f) {i j : ℕ} (hij : i ≤ j)
    (hj : j ≤ f.fld.length) : offset margin f sz i ≤ offset margin f sz j := by
  induction j, hij using Nat.le_induction with
  | base => exact le_rfl
  | succ j hij ih =>
    obtain ⟨c, hc⟩ : ∃ c, f.fld[j]? = some c := ⟨_, getElem?_eq_getElem hj⟩
    have hamt : (0 : ℚ) ≤ amt (incOf margin f sz) j :=
      Int.cast_nonneg (amt_nonneg h.incOf_nonneg j)
    have hsize := ((hs.child (mem_of_getElem? hc)).size_nonneg f.LR).1
    have hle := ih (Nat.le_of_succ_le hj)
    rw [offset_succ hc, along_newsz]
    linarith

theorem packed_layout (h : Fits margin f sz) (hs : Solid margin f) :
    Packed f.LR (boxAt ul sz) ((layout margin nojustify_p f sz ul sides).fld.map field_t.b) where
  within c hc := by
    obtain ⟨k, hk⟩ := getElem?_of_mem hc
    have hlt := lt_of_getElem? hk
    obtain ⟨-, -, hstart, hstop, hspan⟩ := box_child hk
    have hfirst := h.offset_mono hs (Nat.zero_le k) hlt.le
    have hlast := h.offset_mono hs (Nat.succ_le_of_lt hlt) le_rfl
    have hoff := (h.offset_length (ne_nil_of_length_pos (Nat.zero_lt_of_lt hlt))).1
    rw [offset_zero] at hfirst
    refine within_of ?_ ?_ hspan
    · rw [hstart]
      linarith
    · rw [hstop, stop_boxAt]
      linarith
  apart := by
    refine pairwise_iff_getElem.2 fun i j hi hj hij => ?_
    have hbi := getElem?_eq_getElem hi
    have hbj := getElem?_eq_getElem hj
    obtain ⟨-, -, -, hstop, -⟩ := box_child hbi
    obtain ⟨-, -, hstart, -⟩ := box_child hbj
    rw [hstop, hstart]
    linarith [h.offset_mono hs (Nat.succ_le_of_lt hij) (lt_of_getElem? hbj).le]

end Level

/-! ## All levels -/

/-- The field that a path of numbers leads to. -/
def fieldAt : field_t → List ℕ → Option field_t
  | f, [] => some f
  | f, i :: p => f.fld[i]?.bind fun c => fieldAt c p

/-- The field numbered `i` of the `n` fields of a row or column is at the side of it. -/
def OnSide (LR : Bool) (i n : ℕ) : Side → Prop
  | .LEFT => LR = true → i = 0
  | .RIGHT => LR = true → i + 1 = n
  | .TOP => LR = false → i = 0
  | .BOTTOM => LR = false → i + 1 = n

/-- Each field on the path is at the side of the field above it. -/
def AtSide (s : Side) : field_t → List ℕ → Prop
  | _, [] => True
  | f, i :: p => OnSide f.LR i f.fld.length s ∧ ∀ c, f.fld[i]? = some c → AtSide s c p

section Levels

variable {margin : Option (ℚ × Option ℚ)} {nojustify_p : Bool} {f c : field_t} {sz ul : pointf}
  {sides : Finset Side} {p : List ℕ} {s : Side}

theorem mem_inter_mask {LR : Bool} {i n : ℕ} :
    s ∈ sides ∩ mask LR sides i (n - 1) ↔ s ∈ sides ∧ OnSide LR i n s := by
  have hlast : (i : ℤ) = n - 1 ↔ i + 1 = n := by omega
  rw [Finset.mem_inter]
  refine and_congr_right fun hs => ?_
  have hzero : (i : ℤ) = 0 ↔ i = 0 := Int.natCast_eq_zero
  rw [mask, if_pos ⟨s, hs⟩, maskOf]
  simp only [hlast, hzero]
  split_ifs with hLR <;> cases s <;> simp_all [OnSide]

/-- Every field of a record is laid out as a record of its own, with the sides that it is at. -/
theorem fieldAt_layout (hfit : Fits margin f sz) (hc : fieldAt f p = some c) :
    ∃ sz' ul' sides', Fits margin c sz' ∧ (∀ s, s ∈ sides' ↔ s ∈ sides ∧ AtSide s f p) ∧
      fieldAt (layout margin nojustify_p f sz ul sides) p =
        some (layout margin nojustify_p c sz' ul' sides') := by
  induction p generalizing f sz ul sides with
  | nil =>
    rw [fieldAt] at hc
    obtain rfl := Option.some.inj hc
    exact ⟨sz, ul, sides, hfit, fun s => (and_iff_left trivial).symm, by rw [fieldAt]⟩
  | cons i p ih =>
    rw [fieldAt] at hc
    obtain ⟨d, hd, hc⟩ := Option.bind_eq_some_iff.1 hc
    obtain ⟨sz', ul', sides', hfit', hsides', hg⟩ := ih (hfit.child hd) hc
    refine ⟨sz', ul', sides', hfit', fun s => ?_, ?_⟩
    · rw [hsides', mem_inter_mask, AtSide, hd, and_assoc]
      exact and_congr_right fun _ => and_congr_right fun _ =>
        ⟨fun h e he => Option.some.inj he ▸ h, fun h => h d rfl⟩
    · rw [fieldAt, getElem?_layout, hd]
      exact hg

theorem fieldAt_size_reclbl :
    fieldAt (size_reclbl margin f) p = (fieldAt f p).map (size_reclbl margin) := by
  induction p generalizing f with
  | nil => rw [fieldAt, fieldAt, Option.map_some]
  | cons i p ih =>
    rw [fieldAt, fieldAt, fld_size_reclbl, getElem?_map]
    cases f.fld[i]? with
    | none => rfl
    | some d => exact ih

theorem Solid.fieldAt (h : Solid margin f) (hc : fieldAt f p = some c) : Solid margin c := by
  induction p generalizing f with
  | nil =>
    rw [Reclbl.fieldAt] at hc
    exact Option.some.inj hc ▸ h
  | cons i p ih =>
    rw [Reclbl.fieldAt] at hc
    obtain ⟨d, hd, hc⟩ := Option.bind_eq_some_iff.1 hc
    exact ih (h.child (mem_of_getElem? hd)) hc

end Levels

/-- A record laid out in at least its computed size: the fields of each field fill it in its
direction from the start on but for less than a unit at the end, and lie in it one after another if
no text has a negative size. Each field is as large as its computed size at least, and it can be
reached from the sides that it is at. -/
theorem record_geometry (margin : Option (ℚ × Option ℚ)) (nojustify_p : Bool) (f : field_t)
    (sz ul : pointf) (sides : Finset Side) (hfit : Fits margin f sz) (p : List ℕ) (c : field_t)
    (hc : fieldAt (size_reclbl margin f) p = some c) :
    ∃ g, fieldAt (layout margin nojustify_p f sz ul sides) p = some g ∧
      Fills g.LR g.b (g.fld.map field_t.b) ∧
      (Solid margin f → Packed g.LR g.b (g.fld.map field_t.b)) ∧
      (g.b.UR.x - g.b.LL.x = g.size.x ∧ g.b.UR.y - g.b.LL.y = g.size.y) ∧
      (c.size.x ≤ g.size.x ∧ c.size.y ≤ g.size.y) ∧
      ∀ s, s ∈ g.sides ↔ s ∈ sides ∧ AtSide s f p := by
  rw [fieldAt_size_reclbl] at hc
  obtain ⟨d, hd, rfl⟩ := Option.map_eq_some_iff.1 hc
  obtain ⟨sz', ul', sides', hfit', hsides', hg⟩ := fieldAt_layout hfit hd
  refine ⟨_, hg, ?_, fun hs => ?_, ?_, ?_, ?_⟩
  · rw [LR_layout, b_layout]
    exact fills_layout hfit'
  · rw [LR_layout, b_layout]
    exact packed_layout hfit' (hs.fieldAt hd)
  · rw [b_layout, size_layout]
    exact ⟨add_sub_cancel_left _ _, sub_sub_cancel _ _⟩
  · rw [size_layout]
    exact ⟨hfit'.x, hfit'.y⟩
  · rw [sides_layout]
    exact hsides'

/-- A row of two texts of the given widths. -/
def rowOf (a b : ℚ) : field_t :=
  let data : field_data := ⟨⟨0, 0⟩, ⟨⟨0, 0⟩, ⟨0, 0⟩⟩, true, ∅⟩
  .table data [.text data ⟨⟨a, 14⟩, ⟨0, 0⟩⟩, .text data ⟨⟨b, 14⟩, ⟨0, 0⟩⟩]

theorem record_geometry_row : ∃ c g,
    fieldAt (size_reclbl none (rowOf 20 31)) [0] = some c ∧
      fieldAt (layout none false (rowOf 20 31) ⟨90, 36⟩ ⟨-45, 18⟩ {.TOP, .LEFT}) [0] = some g ∧
      Fills g.LR g.b (g.fld.map field_t.b) ∧
      (Solid none (rowOf 20 31) → Packed g.LR g.b (g.fld.map field_t.b)) ∧
      (g.b.UR.x - g.b.LL.x = g.size.x ∧ g.b.UR.y - g.b.LL.y = g.size.y) ∧
      (c.size.x ≤ g.size.x ∧ c.size.y ≤ g.size.y) ∧
      ∀ s, s ∈ g.sides ↔ s ∈ ({.TOP, .LEFT} : Finset Side) ∧ AtSide s (rowOf 20 31) [0] := by
  obtain ⟨c, hc⟩ : ∃ c, fieldAt (size_reclbl none (rowOf 20 31)) [0] = some c :=
    Option.isSome_iff_exists.1 (by decide +kernel)
  have hfit : Fits none (rowOf 20 31) ⟨90, 36⟩ := ⟨by decide +kernel, by decide +kernel⟩
  obtain ⟨g, hg⟩ := record_geometry none false (rowOf 20 31) ⟨90, 36⟩ ⟨-45, 18⟩ {.TOP, .LEFT}
    hfit [0] c hc
  exact ⟨c, g, hc, hg⟩

/-- A negative margin can make a text so small that the fields after it stick out. -/
theorem record_geometry_negative : ¬ ∀ (margin : Option (ℚ × Option ℚ)) (nojustify_p : Bool)
    (f : field_t) (sz ul : pointf) (sides : Finset Side), Fits margin f sz → ∀ p g,
      fieldAt (layout margin nojustify_p f sz ul sides) p = some g →
        ∀ c ∈ g.fld, c.b.Within g.b := by
  intro h
  have hin := h (some (-1, none)) false (rowOf 5 500) ⟨217, 36⟩ ⟨0, 0⟩ ∅
    ⟨by decide +kernel, by decide +kernel⟩ [] _ rfl _
    (getElem_mem (n := 1) (by decide +kernel))
  exact absurd hin.llx (by decide +kernel)

end Graphviz.Reclbl
