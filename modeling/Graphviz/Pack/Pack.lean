import Graphviz.Common.Geom
import Graphviz.Util.Fault
import Graphviz.Util.Libc

/-!
# Polyomino packing

Each part is covered by cells of a square grid, the cells of its boxes and of its edges, and is
moved to the first place around the origin where its cells are free. Coordinates are exact, and
the integers of the grid have no bound. The loop of `placeGraph` over the rings around the origin
has fuel.
-/

namespace Graphviz.Pack

/-- The maximal average number of cells of a part. -/
def C : ℚ := 100

/-- `GRID`: how many cells of size `s` are needed for the size `x`. -/
def GRID (x : ℚ) (s : ℤ) : ℤ := ⌈x / s⌉

/-- `CVAL`, on a coordinate that is a `double`. -/
def CVAL (v : ℚ) (s : ℤ) : ℚ :=
  if v ≥ 0 then v / s else (v + 1) / s - 1

/-- `CELL`. -/
def CELL (p : pointf) (s : ℤ) : pointf :=
  ⟨CVAL p.x s, CVAL p.y s⟩

/-- `PointSet`, of cells. -/
abbrev PointSet := Finset (ℤ × ℤ)

/-- `addPS`. -/
def addPS (ps : PointSet) (x y : ℤ) : PointSet := insert (x, y) ps

/-- `ginfo`: half the perimeter of the part in cells, its cells, and its index. -/
structure ginfo (ng : ℕ) where
  perim : ℤ
  cells : PointSet
  index : Fin ng

/-- `pack_mode`, of the modes that pack polyominoes without clusters. -/
inductive pack_mode where
  | l_node
  | l_graph
  deriving DecidableEq

/-- `pack_info`. -/
structure pack_info where
  margin : UInt32
  doSplines : Bool
  mode : pack_mode

variable {ng : ℕ}

/-! ## The step of the grid -/

/-- `(int)((-b + sqrt(d)) / (2 * a))`, the greatest number up to a bound that is not above it. -/
def intRoot (a b d : ℚ) : ℕ :=
  Nat.findGreatest (fun r => 2 * a * r + b ≤ 0 ∨ (2 * a * r + b) ^ 2 ≤ d)
    ⌈(|b| + Nat.sqrt ⌈d⌉₊ + 1) / (2 * a)⌉₊

/-- The width and height of a box with its margin in `computeStep`; the margin is doubled as an
`unsigned int`. -/
def marginSize (bb : boxf) (margin : UInt32) : ℚ × ℚ :=
  (bb.UR.x - bb.LL.x + (2 * margin).toNat, bb.UR.y - bb.LL.y + (2 * margin).toNat)

/-- `computeStep`. -/
def computeStep (bbs : Fin ng → boxf) (margin : UInt32) : Except Fault ℤ := do
  let a := C * ng - 1
  let (b, c) := (List.finRange ng).foldl (fun (b, c) i =>
    let (W, H) := marginSize (bbs i) margin
    (b - (W + H), c - W * H)) ((0, 0) : ℚ × ℚ)
  let d := b * b - 4 * a * c
  assert (d ≥ 0)
  let root := intRoot a b d
  return if root = 0 then 1 else root

/-! ## The cells of a part -/

/-- `sgn`. -/
def sgn (x : ℤ) : ℤ := if x > 0 then 1 else -1

/-- The loop of `fillLine` along the dominant axis, which ends after as many rounds as the line is
long; `add` marks a cell given its coordinates along the dominant and the other axis. -/
def fillDominant (add : PointSet → ℤ → ℤ → PointSet) (ax ay sx sy : ℤ) :
    ℕ → ℤ → ℤ → ℤ → PointSet → PointSet
  | 0, _, x, y, ps => add ps x y
  | k + 1, d, x, y, ps =>
    let ps := add ps x y
    if d ≥ 0 then fillDominant add ax ay sx sy k (d - ax + ay) (x + sx) (y + sy) ps
    else fillDominant add ax ay sx sy k (d + ay) (x + sx) y ps

/-- `fillLine`. -/
def fillLine (p q : pointf) (ps : PointSet) : PointSet :=
  let x1 := cround p.x
  let y1 := cround p.y
  let x2 := cround q.x
  let y2 := cround q.y
  let dx := x2 - x1
  let ax := |dx| * 2
  let sx := sgn dx
  let dy := y2 - y1
  let ay := |dy| * 2
  let sy := sgn dy
  if ax > ay then
    fillDominant addPS ax ay sx sy dx.natAbs (ay - ax / 2) x1 y1 ps
  else
    fillDominant (fun ps y x => addPS ps x y) ay ax sy sx dy.natAbs (ax - ay / 2) y1 x1 ps

/-- The lines between the points of a polyline. -/
def fillPolyline : List pointf → PointSet → PointSet
  | pt :: hpt :: l, ps => fillPolyline (hpt :: l) (fillLine pt hpt ps)
  | _, ps => ps

/-- The points of a spline that `fillEdge` joins. -/
def bezier.points (bz : bezier) : List pointf :=
  (if bz.sflag then [bz.sp] else []) ++ bz.list ++ (if bz.eflag then [bz.ep] else [])

/-- `MOVEPT` and `CELL`. -/
def moveCell (dx dy : ℚ) (ssize : ℤ) (p : pointf) : pointf :=
  CELL ⟨p.x + dx, p.y + dy⟩ ssize

/-- `fillEdge`. -/
def fillEdge (e : Agedge) (p : pointf) (ps : PointSet) (dx dy : ℚ) (ssize : ℤ) (doS : Bool) :
    PointSet :=
  match doS, e.spl with
  | true, some spl =>
    spl.foldl (fun ps bz => fillPolyline (bz.points.map (moveCell dx dy ssize)) ps) ps
  | _, _ => fillLine p (moveCell dx dy ssize e.head) ps

/-- A corner's cell. -/
def roundCell (p : pointf) (ssize : ℤ) : ℤ × ℤ :=
  (cround (CELL p ssize).x, cround (CELL p ssize).y)

/-- The values of a loop variable that goes from `a` to `b`. -/
def loopRange (a b : ℤ) : Finset ℤ :=
  @Finset.Icc ℤ Int.instLinearOrder.toPartialOrder.toPreorder Int.instLocallyFiniteOrder a b

@[simp] theorem mem_loopRange {a b i : ℤ} : i ∈ loopRange a b ↔ a ≤ i ∧ i ≤ b :=
  Finset.mem_Icc

/-- The two loops that mark the cells from the one of a lower corner to that of an upper one. -/
def boxCells (LL UR : pointf) (ssize : ℤ) : PointSet :=
  loopRange (roundCell LL ssize).1 (roundCell UR ssize).1 ×ˢ
    loopRange (roundCell LL ssize).2 (roundCell UR ssize).2

/-- `perim`, for a part with the given bounding box. -/
def halfPerim (bb : boxf) (ssize : ℤ) (margin : UInt32) : ℤ :=
  GRID (marginSize bb margin).1 ssize + GRID (marginSize bb margin).2 ssize

/-- The corners between which `genBox` marks the cells. -/
def genBoxCorners (bb0 : boxf) (margin : UInt32) (center : pointf) : boxf :=
  let bb : boxf := ⟨⟨cround bb0.LL.x, cround bb0.LL.y⟩, ⟨cround bb0.UR.x, cround bb0.UR.y⟩⟩
  let m : ℚ := margin.toNat
  ⟨⟨center.x - m, center.y - m⟩,
    ⟨center.x + bb.UR.x - bb.LL.x + m, center.y + bb.UR.y - bb.LL.y + m⟩⟩

/-- `genBox`. -/
def genBox (bb0 : boxf) (index : Fin ng) (ssize : ℤ) (margin : UInt32) (center : pointf) :
    ginfo ng :=
  let bb := genBoxCorners bb0 margin center
  { perim := halfPerim bb0 ssize margin, cells := boxCells bb.LL bb.UR ssize, index }

/-- `pt` of a node in `genPoly`, after `MOVEPT`. -/
def movedNode (n : Agnode) (dx dy : ℚ) : pointf :=
  ⟨cround (coord n).x + dx, cround (coord n).y + dy⟩

/-- The corners between which `genPoly` marks the cells of a node. -/
def genNodeCorners (n : Agnode) (margin : UInt32) (dx dy : ℚ) : boxf :=
  let m : ℚ := margin.toNat
  let s2 : pointf := ⟨cround (m + ND_xsize n / 2), cround (m + ND_ysize n / 2)⟩
  ⟨sub_pointf (movedNode n dx dy) s2, add_pointf (movedNode n dx dy) s2⟩

/-- The round of the loop of `genPoly` for a node. -/
def genNode (eg : Agnode → List Agedge) (ssize : ℤ) (pinfo : pack_info) (dx dy : ℚ)
    (ps : PointSet) (n : Agnode) : PointSet :=
  let bb := genNodeCorners n pinfo.margin dx dy
  let ps := ps ∪ boxCells bb.LL bb.UR ssize
  let c := roundCell (movedNode n dx dy) ssize
  (eg n).foldl (fun ps e => fillEdge e ⟨c.1, c.2⟩ ps dx dy ssize pinfo.doSplines) ps

/-- `genPoly`, for `l_node`. The root, if there is one, gives the edges of a node. -/
def genPoly (root : Option (Agnode → List Agedge)) (g : Agraph) (index : Fin ng) (ssize : ℤ)
    (pinfo : pack_info) (center : pointf) : ginfo ng :=
  let eg := root.getD Agnode.out
  let dx := center.x - cround g.bb.LL.x
  let dy := center.y - cround g.bb.LL.y
  { perim := halfPerim g.bb ssize pinfo.margin
    cells := g.nodes.foldl (genNode eg ssize pinfo dx dy) ∅
    index }

/-! ## Placing the parts -/

/-- A part's cells, moved. -/
def shift (p : ℤ × ℤ) (cells : PointSet) : PointSet :=
  cells.map (addRightEmbedding p)

/-- The lower left corner of a part whose cells are moved by `(x, y)`. -/
def cornerAt (step : ℤ) (bb : boxf) (p : ℤ × ℤ) : pointf :=
  ⟨step * p.1 - cround bb.LL.x, step * p.2 - cround bb.LL.y⟩

/-- `fits`: the cells taken and the place, if the part fits at the point. -/
def fits (p : ℤ × ℤ) (info : ginfo ng) (ps : PointSet) (step : ℤ) (bbs : Fin ng → boxf) :
    Option (PointSet × pointf) :=
  if ∃ cell ∈ shift p info.cells, cell ∈ ps then none
  else some (ps ∪ shift p info.cells, cornerAt step (bbs info.index) p)

/-- The values of the loop `for (; v < e; v++)` that starts at `s`. -/
def upto (s e : ℤ) : List ℤ := (List.range (e - s).toNat).map fun k : ℕ => s + k

/-- The values of the loop `for (; v > e; v--)` that starts at `s`. -/
def downto (s e : ℤ) : List ℤ := (List.range (s - e).toNat).map fun k : ℕ => s - k

/-- The points of a ring in the order of `placeGraph`, for a part that is wider than high. -/
def ringWide (bnd : ℤ) : List (ℤ × ℤ) :=
  ((upto 0 bnd).map fun x => (x, -bnd)) ++ ((upto (-bnd) bnd).map fun y => (bnd, y)) ++
    ((downto bnd (-bnd)).map fun x => (x, bnd)) ++ ((downto bnd (-bnd)).map fun y => (-bnd, y)) ++
    ((upto (-bnd) 0).map fun x => (x, -bnd))

/-- The points of a ring in the order of `placeGraph`, for a part that is higher than wide. -/
def ringTall (bnd : ℤ) : List (ℤ × ℤ) :=
  ((downto 0 (-bnd)).map fun y => (-bnd, y)) ++ ((upto (-bnd) bnd).map fun x => (x, -bnd)) ++
    ((upto (-bnd) bnd).map fun y => (bnd, y)) ++ ((downto bnd (-bnd)).map fun x => (x, bnd)) ++
    ((downto bnd 0).map fun y => (-bnd, y))

/-- The loop of `placeGraph` over the rings. -/
def searchRings {α : Type} (ring : ℤ → List (ℤ × ℤ)) (fit : ℤ × ℤ → Option α) :
    ℕ → ℤ → Except Fault α
  | 0, _ => .error .fuel
  | fuel + 1, bnd =>
    match (ring bnd).findSome? fit with
    | some r => .ok r
    | none => searchRings ring fit fuel (bnd + 1)

/-- `placeGraph`: the cells taken and the place. -/
def placeGraph (fuel : ℕ) (i : ℕ) (info : ginfo ng) (ps : PointSet) (step : ℤ) (margin : UInt32)
    (bbs : Fin ng → boxf) : Except Fault (PointSet × pointf) :=
  let bb := bbs info.index
  let fit := fun p => fits p info ps step bbs
  let first :=
    if i = 0 then
      let W := GRID (marginSize bb margin).1 step
      let H := GRID (marginSize bb margin).2 step
      fit ((-W).tdiv 2, (-H).tdiv 2)
    else none
  match first with
  | some r => .ok r
  | none =>
    match fit (0, 0) with
    | some r => .ok r
    | none =>
      let W := ⌈bb.UR.x - bb.LL.x⌉
      let H := ⌈bb.UR.y - bb.LL.y⌉
      searchRings (if W ≥ H then ringWide else ringTall) fit fuel 1

/-- `cmpf`. -/
def cmpf (x y : ginfo ng) : ℤ :=
  if y.perim < x.perim then -1 else if y.perim > x.perim then 1 else 0

/-- The loop over the sorted parts that places them. -/
def placeGraphs (fuel : ℕ) (sinfo : List (ginfo ng)) (step : ℤ) (margin : UInt32)
    (bbs : Fin ng → boxf) : Except Fault (PointSet × (Fin ng → pointf)) :=
  sinfo.zipIdx.foldlM (fun (ps, places) (info, i) => do
    let (ps, place) ← placeGraph fuel i info ps step margin bbs
    return (ps, Function.update places info.index place)) (∅, fun _ => ⟨0, 0⟩)

/-- `polyRects`; a null pointer is `none`. -/
def polyRects (qsort : Qsort (@cmpf ng)) (fuel : ℕ) (gs : Fin ng → boxf) (pinfo : pack_info) :
    Except Fault (Option (Fin ng → pointf)) := do
  let stepSize ← computeStep gs pinfo.margin
  if stepSize ≤ 0 then return none
  let info := fun i => genBox (gs i) i stepSize pinfo.margin ⟨0, 0⟩
  let sinfo := qsort.run (List.ofFn info)
  let (_, places) ← placeGraphs fuel sinfo stepSize pinfo.margin gs
  return some places

/-- `polyGraphs`, without fixed graphs. -/
def polyGraphs (qsort : Qsort (@cmpf ng)) (fuel : ℕ) (gs : Fin ng → Agraph)
    (root : Option (Agnode → List Agedge)) (pinfo : pack_info) :
    Except Fault (Option (Fin ng → pointf)) := do
  if ng = 0 then return none
  let gs := fun i => { gs i with bb := compute_bb (gs i) }
  let bbs := fun i => (gs i).bb
  let stepSize ← computeStep bbs pinfo.margin
  if stepSize ≤ 0 then return none
  let info := fun i =>
    if pinfo.mode = .l_graph then genBox (gs i).bb i stepSize pinfo.margin ⟨0, 0⟩
    else genPoly root (gs i) i stepSize pinfo ⟨0, 0⟩
  let sinfo := qsort.run (List.ofFn info)
  let (_, places) ← placeGraphs fuel sinfo stepSize pinfo.margin bbs
  return some places

/-- `putRects`. -/
def putRects (qsort : Qsort (@cmpf ng)) (fuel : ℕ) (bbs : Fin ng → boxf) (pinfo : pack_info) :
    Except Fault (Option (Fin ng → pointf)) :=
  if ng = 0 then return none
  else if pinfo.mode = .l_node then return none
  else polyRects qsort fuel bbs pinfo

/-- `packRects`: the status and the new boxes. -/
def packRects (qsort : Qsort (@cmpf ng)) (fuel : ℕ) (bbs : Fin ng → boxf) (pinfo : pack_info) :
    Except Fault (ℕ × (Fin ng → boxf)) := do
  if ng ≤ 1 then return (0, bbs)
  let pp ← putRects qsort fuel bbs pinfo
  match pp with
  | none => return (1, bbs)
  | some pp => return (0, fun i => (bbs i).translate (pp i))

end Graphviz.Pack

/-!
## The cells of a box

The cell of a coordinate is within half a cell of it, on the side that keeps boxes apart: where
the upper end of one interval lies in an earlier cell than the lower end of another, the
intervals have at most one point in common. Hence boxes with disjoint cells do not overlap.
-/

namespace Graphviz.Pack

open Outcome

/-! ## Rounding -/

/-- A centre is rounded no further than the half size of the box around it. -/
theorem abs_cround_sub_le {c h m : ℚ} (hlow : IsInt (c - h)) (hhigh : IsInt (c + h))
    (hm : IsInt m) (hpos : 0 ≤ m + h) : |cround c - c| ≤ cround (m + h) - (m + h) := by
  obtain ⟨a, ha⟩ := hlow
  obtain ⟨b, hb⟩ := hhigh
  obtain ⟨k, rfl⟩ := hm
  obtain ⟨j, hj | hj⟩ := Int.even_or_odd' (b - a)
  · have hbj : (b : ℚ) = a + 2 * j := by rw [← sub_eq_iff_eq_add']; exact_mod_cast hj
    have hc : c = (a + j : ℤ) := by push_cast; linarith
    have hh : k + h = (k + j : ℤ) := by push_cast; linarith
    rw [hc, hh, cround_intCast, cround_intCast]
    simp
  · have hbj : (b : ℚ) = a + (2 * j + 1) := by rw [← sub_eq_iff_eq_add']; exact_mod_cast hj
    have hh : k + h + 1 / 2 = (k + j + 1 : ℤ) := by push_cast; linarith
    have hround : (cround (k + h) : ℚ) = k + h + 1 / 2 := by
      rw [cround, if_pos hpos, hh, Int.floor_intCast]
    rw [hround, abs_le]
    have := cround_le c
    have := le_cround c
    constructor <;> linarith

/-! ## Cells of coordinates -/

variable {s : ℤ}

theorem CVAL_mono (hs : 0 < s) {u v : ℚ} (h : u ≤ v) : CVAL u s ≤ CVAL v s := by
  have hs' : (1 : ℚ) ≤ s := by exact_mod_cast hs
  have hpos : (0 : ℚ) < s := by linarith
  unfold CVAL
  split <;> split
  · exact div_le_div_of_nonneg_right h hpos.le
  · linarith
  · have hu : (u + 1) / s ≤ 1 := by rw [div_le_one hpos]; linarith
    have hv : 0 ≤ v / s := div_nonneg ‹_› hpos.le
    linarith
  · have := div_le_div_of_nonneg_right (show u + 1 ≤ v + 1 by linarith) hpos.le
    linarith

theorem mul_cell_le (hs : 0 < s) (v : ℚ) : s * (cround (CVAL v s) : ℚ) ≤ v + s / 2 := by
  have hs' : (1 : ℚ) ≤ s := by exact_mod_cast hs
  have hpos : (0 : ℚ) < s := by linarith
  have hmul := mul_le_mul_of_nonneg_left (cround_le (CVAL v s)) hpos.le
  refine hmul.trans ?_
  unfold CVAL
  split
  · have : (s : ℚ) * (v / s) = v := mul_div_cancel₀ v hpos.ne'
    linarith
  · have : (s : ℚ) * ((v + 1) / s) = v + 1 := mul_div_cancel₀ _ hpos.ne'
    linarith

theorem le_mul_cell (hs : 0 < s) {v : ℚ} (hv : 0 ≤ v) :
    v - s / 2 ≤ s * (cround (CVAL v s) : ℚ) := by
  have hpos : (0 : ℚ) < s := by exact_mod_cast hs
  have hmul := mul_le_mul_of_nonneg_left (le_cround (CVAL v s)) hpos.le
  refine le_trans ?_ hmul
  have : (s : ℚ) * (v / s) = v := mul_div_cancel₀ v hpos.ne'
  rw [CVAL, if_pos hv]
  linarith

/-- A coordinate in an earlier cell is not greater. -/
theorem le_of_cell_lt (hs : 0 < s) {u v : ℚ} (hu : 0 ≤ u) {i j : ℤ}
    (h : cround (CVAL u s) + i < cround (CVAL v s) + j) : u + s * i ≤ v + s * j := by
  have hpos : (0 : ℚ) < s := by exact_mod_cast hs
  have hstep : (cround (CVAL u s) + i + 1 : ℚ) ≤ cround (CVAL v s) + j := by exact_mod_cast h
  have hmul := mul_le_mul_of_nonneg_left hstep hpos.le
  have hlow := le_mul_cell hs hu
  have hhigh := mul_cell_le hs v
  linarith

/-! ## Cells of boxes -/

/-- The corners are in order and the upper one is in the first quadrant. -/
structure Covers (b : boxf) : Prop where
  x : b.LL.x ≤ b.UR.x
  y : b.LL.y ≤ b.UR.y
  urx : 0 ≤ b.UR.x
  ury : 0 ≤ b.UR.y

/-- The box where `placeGraph` moves it with the cells. -/
def moved (b : boxf) (step : ℤ) (p : ℤ × ℤ) : boxf :=
  b.translate ⟨step * p.1, step * p.2⟩

theorem mem_shift {p c : ℤ × ℤ} {cells : PointSet} : c ∈ shift p cells ↔ c - p ∈ cells := by
  rw [shift, Finset.mem_map]
  constructor
  · rintro ⟨d, hd, rfl⟩
    rwa [addRightEmbedding_apply, add_sub_cancel_right]
  · intro hc
    exact ⟨c - p, hc, by rw [addRightEmbedding_apply, sub_add_cancel]⟩

/-- Intervals whose cells overlap nowhere are apart; else they have a cell in common. -/
theorem interval_cells (hs : 0 < s) {l u l' u' : ℚ} (hlu : l ≤ u) (hlu' : l' ≤ u') (hu : 0 ≤ u)
    (hu' : 0 ≤ u') (i j : ℤ) :
    (u + s * i ≤ l' + s * j ∨ u' + s * j ≤ l + s * i) ∨
      ∃ c, (cround (CVAL l s) ≤ c - i ∧ c - i ≤ cround (CVAL u s)) ∧
        cround (CVAL l' s) ≤ c - j ∧ c - j ≤ cround (CVAL u' s) := by
  have hκ := cround_mono (CVAL_mono hs hlu)
  have hκ' := cround_mono (CVAL_mono hs hlu')
  obtain h | h := lt_or_ge (cround (CVAL u s) + i) (cround (CVAL l' s) + j)
  · exact .inl (.inl (le_of_cell_lt hs hu h))
  obtain h' | h' := lt_or_ge (cround (CVAL u' s) + j) (cround (CVAL l s) + i)
  · exact .inl (.inr (le_of_cell_lt hs hu' h'))
  refine .inr ⟨max (cround (CVAL l s) + i) (cround (CVAL l' s) + j), ?_, ?_⟩ <;> omega

/-- Boxes whose moved cells are disjoint are apart where they are moved. -/
theorem apart_of_disjoint (hs : 0 < s) {a b : boxf} (ha : Covers a) (hb : Covers b) {p q : ℤ × ℤ}
    (h : Disjoint (shift p (boxCells a.LL a.UR s)) (shift q (boxCells b.LL b.UR s))) :
    (moved a s p).Apart (moved b s q) := by
  obtain hx | ⟨x, hx, hx'⟩ := interval_cells hs ha.x hb.x ha.urx hb.urx p.1 q.1
  · exact .inl hx
  obtain hy | ⟨y, hy, hy'⟩ := interval_cells hs ha.y hb.y ha.ury hb.ury p.2 q.2
  · exact .inr hy
  have hmem : (x, y) ∈ shift p (boxCells a.LL a.UR s) := by
    simp only [mem_shift, boxCells, roundCell, CELL, Finset.mem_product, mem_loopRange]
    exact ⟨hx, hy⟩
  have hmem' : (x, y) ∈ shift q (boxCells b.LL b.UR s) := by
    simp only [mem_shift, boxCells, roundCell, CELL, Finset.mem_product, mem_loopRange]
    exact ⟨hx', hy'⟩
  exact absurd hmem' (Finset.disjoint_left.1 h hmem)

end Graphviz.Pack
