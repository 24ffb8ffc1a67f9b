import Mathlib.Algebra.Order.Field.Basic
import Mathlib.Algebra.Order.Ring.WithTop
import Mathlib.Data.Prod.Lex
import Mathlib.Tactic.FieldSimp
import Mathlib.Tactic.Linarith
import Mathlib.Tactic.Ring
import Graphviz.Library.OrderedMultiset
import Graphviz.Library.Staircase
import Graphviz.Util.Fault

/-!
# Scaling a layout to remove overlaps (`neatogen/constraint.c`)

For two boxes that overlap, one of the factors of the scaling has to be large enough to part them.
`scAdjust` finds the factors from these thresholds. Coordinates are exact, in any ordered field, and
`HUGE_VAL` is a value above all of them.
-/

namespace Graphviz.ScAdjust

open Outcome

/-- A point: its `x` and its `y`. -/
abbrev pointf (R : Type) := R × R

structure boxf (K : Type) where
  LL : pointf K
  UR : pointf K

/-- The margin of the nodes: if `doAdd` is set, `x` and `y` are in points. -/
structure expand_t (K : Type) where
  x : K
  y : K
  doAdd : Bool

structure node_t (K : Type) where
  ND_pos : pointf K
  ND_width : K
  ND_height : K

structure info (K : Type) where
  pos : pointf K
  bb : boxf K
  wd2 : K
  ht2 : K

variable {K : Type} [Field K] [LinearOrder K]

/-- `HUGE_VAL`. -/
abbrev HUGE_VAL : WithTop K := ⊤

/-- `PS2INCH`. -/
def PS2INCH (a : K) : K :=
  a / 72

/-- The margin in inches. -/
def inches (margin : expand_t K) : expand_t K :=
  if margin.doAdd then { margin with x := PS2INCH margin.x, y := PS2INCH margin.y } else margin

/-- The box of a node. -/
def mkInfo (margin : expand_t K) (n : node_t K) : info K :=
  let w2 := if margin.doAdd then n.ND_width / 2 + margin.x else margin.x * n.ND_width / 2
  let h2 := if margin.doAdd then n.ND_height / 2 + margin.y else margin.y * n.ND_height / 2
  let pos := n.ND_pos
  { pos
    bb := { LL := (pos.1 - w2, pos.2 - h2), UR := (pos.1 + w2, pos.2 + h2) }
    wd2 := w2
    ht2 := h2 }

/-- `OVERLAP`. -/
def OVERLAP (b0 b1 : boxf K) : Prop :=
  b1.LL.1 ≤ b0.UR.1 ∧ b0.LL.1 ≤ b1.UR.1 ∧ b1.LL.2 ≤ b0.UR.2 ∧ b0.LL.2 ≤ b1.UR.2

instance (b0 b1 : boxf K) : Decidable (OVERLAP b0 b1) :=
  inferInstanceAs (Decidable (_ ∧ _))

/-! ## Thresholds -/

/-- The factor that parts two intervals, in `compress`. -/
def ratio (half2 a b : K) : WithTop K :=
  if a = b then HUGE_VAL else ((half2 / |a - b| : K) : WithTop K)

/-- The inner loop of `compress`: `none` is `return 0`. -/
def compressRow (p : info K) : List (info K) → WithTop K → Option (WithTop K)
  | [], sc => some sc
  | q :: nl, sc =>
    if OVERLAP p.bb q.bb then none
    else
      let ptx := ratio (p.wd2 + q.wd2) p.pos.1 q.pos.1
      let pty := ratio (p.ht2 + q.ht2) p.pos.2 q.pos.2
      let s := if pty < ptx then pty else ptx
      compressRow p nl (if sc < s then s else sc)

/-- The outer loop of `compress`. -/
def compressLoop : List (info K) → WithTop K → Option (WithTop K)
  | [], sc => some sc
  | p :: nl, sc => (compressRow p nl sc).bind (compressLoop nl)

/-- `compress`. -/
def compress (nl : List (info K)) : WithTop K :=
  (compressLoop nl 0).getD 0

/-- The factor that parts two intervals, in `mkOverlapSet`. -/
def threshold (half2 a b : K) : WithTop K :=
  if a = b then HUGE_VAL
  else
    let pt : WithTop K := ((half2 / |a - b| : K) : WithTop K)
    if pt < 1 then 1 else pt

/-- The points that `mkOverlapSet` appends. -/
def overlapPoints : List (info K) → List (pointf (WithTop K))
  | [] => []
  | p :: nl =>
    ((nl.filter fun q => OVERLAP p.bb q.bb).map fun q =>
      (threshold (p.wd2 + q.wd2) p.pos.1 q.pos.1, threshold (p.ht2 + q.ht2) p.pos.2 q.pos.2)) ++
    overlapPoints nl

/-- `mkOverlapSet`. -/
def mkOverlapSet (nl : List (info K)) : List (pointf (WithTop K)) :=
  (0, 0) :: overlapPoints nl

/-! ## Factors -/

/-- `sortf`. -/
def sortf (p q : pointf (WithTop K)) : Ordering :=
  if p.1 < q.1 then .lt
  else if q.1 < p.1 then .gt
  else if p.2 < q.2 then .lt
  else if q.2 < p.2 then .gt
  else .eq

/-- `barr`. -/
def mkBarr : List (pointf (WithTop K)) → List (pointf (WithTop K))
  | [] => []
  | [a] => [(a.1, 1)]
  | a :: a' :: l =>
    match mkBarr (a' :: l) with
    | [] => []
    | b :: bs => (a.1, max a'.2 b.2) :: b :: bs

/-- The loop that finds the best cost. -/
def bestLoop : List (pointf (WithTop K)) → ℕ → WithTop K → ℕ → WithTop K × ℕ
  | [], _, bestcost, best => (bestcost, best)
  | b :: barr, k, bestcost, best =>
    let cost := b.1 * b.2
    if cost < bestcost then bestLoop barr (k + 1) cost k else bestLoop barr (k + 1) bestcost best

/-- `computeScaleXY`. -/
def computeScaleXY (aarr : List (pointf (WithTop K))) :
    Except Fault (pointf (WithTop K)) := do
  let aarr := (1, HUGE_VAL) :: aarr.tail.insertionSort fun p q => sortf p q ≠ .gt
  let barr := mkBarr aarr
  let (bestcost, best) := bestLoop barr 0 HUGE_VAL 0
  assert (bestcost < HUGE_VAL)
  match barr[best]? with
  | none => .error .segfault
  | some scale => .ok scale

/-- `computeScale`. -/
def computeScale (aarr : List (pointf (WithTop K))) : WithTop K :=
  aarr.tail.foldl (fun sc p => let v := min p.1 p.2; if sc < v then v else sc) 0

/-- The factors of `scAdjust`: `none` is `return 0`. -/
def scaleFactors (nlist : List (info K)) (equal : ℤ) :
    Except Fault (Option (pointf (WithTop K))) :=
  if equal < 0 then
    let s := compress nlist
    -- overlaps exist
    if s = 0 then .ok none else .ok (some (s, s))
  else
    let aarr := mkOverlapSet nlist
    -- no overlaps
    if aarr.length = 1 then .ok none
    else if equal ≠ 0 then
      let s := computeScale aarr
      .ok (some (s, s))
    else do
      let s ← computeScaleXY aarr
      .ok (some s)

/-- A coordinate times a factor, which has to be a number. -/
def times (s : WithTop K) (a : K) : Except Fault K :=
  match s with
  | none => .error .abort
  | some s => .ok (s * a)

/-- The last loop of `scAdjust`. -/
def scalePos (s : pointf (WithTop K)) : List (info K) → Except Fault (List (pointf K))
  | [] => .ok []
  | p :: nlist => do
    let x ← times s.1 p.pos.1
    let y ← times s.2 p.pos.2
    let rest ← scalePos s nlist
    .ok ((x, y) :: rest)

/-- `scAdjust`: what it returns, and the positions of the nodes. -/
def scAdjust (margin : expand_t K) (g : List (node_t K)) (equal : ℤ) :
    Except Fault (ℕ × List (pointf K)) := do
  let nlist := g.map (mkInfo (inches margin))
  match ← scaleFactors nlist equal with
  | none => .ok (0, g.map node_t.ND_pos)
  | some s => do
    let pos ← scalePos s nlist
    .ok (1, pos)

end Graphviz.ScAdjust

/-!
## The factors of the scaling are the best ones

Two boxes are apart after the scaling exactly when one of the factors has reached its threshold for
them. Boxes that do not touch have a threshold below one, so the demands that are left are those of
the overlapping pairs, and the best pair of factors is a step of their staircase.
-/

namespace Graphviz.ScAdjust

open List Outcome Staircase

variable {K : Type} [Field K] [LinearOrder K]

/-- A point inside the box of a node, in the scaled layout. -/
def Inside (sx sy : K) (p : info K) (x y : K) : Prop :=
  |x - sx * p.pos.1| < p.wd2 ∧ |y - sy * p.pos.2| < p.ht2

/-- The interiors of two boxes have no common point in the scaled layout. -/
def Apart (sx sy : K) (p q : info K) : Prop :=
  ∀ x y, ¬(Inside sx sy p x y ∧ Inside sx sy q x y)

/-- No two boxes overlap in their interior in the scaled layout. -/
def Spread (nlist : List (info K)) (sx sy : K) : Prop :=
  nlist.Pairwise (Apart sx sy)

/-- A box around the position of a node. -/
structure IsBox (p : info K) : Prop where
  wd2 : 0 < p.wd2
  ht2 : 0 < p.ht2
  bb : p.bb = { LL := (p.pos.1 - p.wd2, p.pos.2 - p.ht2), UR := (p.pos.1 + p.wd2, p.pos.2 + p.ht2) }

variable [IsStrictOrderedRing K] {p q : info K} {nlist : List (info K)} {a b s sx sy t w w' : K}

/-! ## Two boxes -/

/-- Two open intervals meet when their centres are near. -/
theorem intervals_meet (hw : 0 < w) (hw' : 0 < w') :
    (∃ x, |x - a| < w ∧ |x - b| < w') ↔ |a - b| < w + w' := by
  constructor
  · rintro ⟨x, ha, hb⟩
    calc |a - b| ≤ |a - x| + |x - b| := abs_sub_le a x b
      _ < w + w' := by
        rw [abs_sub_comm a x]
        exact add_lt_add ha hb
  · intro hab
    have hsum : 0 < w + w' := add_pos hw hw'
    refine ⟨(a * w' + b * w) / (w + w'), ?_, ?_⟩
    · have heq : (a * w' + b * w) / (w + w') - a = (b - a) * (w / (w + w')) := by
        field_simp
        ring
      rw [heq, abs_mul, abs_of_pos (div_pos hw hsum), abs_sub_comm, mul_div_assoc',
        div_lt_iff₀ hsum, mul_comm]
      exact mul_lt_mul_of_pos_left hab hw
    · have heq : (a * w' + b * w) / (w + w') - b = (a - b) * (w' / (w + w')) := by
        field_simp
        ring
      rw [heq, abs_mul, abs_of_pos (div_pos hw' hsum), mul_div_assoc', div_lt_iff₀ hsum, mul_comm]
      exact mul_lt_mul_of_pos_left hab hw'

theorem ratio_le_iff (hw : 0 < w) (hs : 0 ≤ s) :
    ratio w a b ≤ (s : WithTop K) ↔ w ≤ |s * a - s * b| := by
  rw [← mul_sub, abs_mul, abs_of_nonneg hs, ratio]
  split
  next heq =>
    rw [heq, sub_self, abs_zero, mul_zero]
    exact iff_of_false (fun h => absurd h (not_le.2 (WithTop.coe_lt_top s))) hw.not_ge
  next hne =>
    rw [WithTop.coe_le_coe, div_le_iff₀ (abs_pos.2 (sub_ne_zero.2 hne))]

theorem one_le_ratio_iff (hw : 0 < w) : 1 ≤ ratio w a b ↔ |a - b| ≤ w := by
  rw [ratio]
  split
  next heq =>
    rw [heq, sub_self, abs_zero]
    exact iff_of_true le_top hw.le
  next hne =>
    rw [← WithTop.coe_one, WithTop.coe_le_coe, le_div_iff₀ (abs_pos.2 (sub_ne_zero.2 hne)), one_mul]

/-- Two boxes are apart when one of the factors has reached its threshold. -/
theorem apart_iff (hp : IsBox p) (hq : IsBox q) (hsx : 0 ≤ sx) (hsy : 0 ≤ sy) :
    Apart sx sy p q ↔ ratio (p.wd2 + q.wd2) p.pos.1 q.pos.1 ≤ (sx : WithTop K) ∨
      ratio (p.ht2 + q.ht2) p.pos.2 q.pos.2 ≤ (sy : WithTop K) := by
  rw [ratio_le_iff (add_pos hp.wd2 hq.wd2) hsx, ratio_le_iff (add_pos hp.ht2 hq.ht2) hsy]
  have hx := intervals_meet (a := sx * p.pos.1) (b := sx * q.pos.1) hp.wd2 hq.wd2
  have hy := intervals_meet (a := sy * p.pos.2) (b := sy * q.pos.2) hp.ht2 hq.ht2
  rw [← not_lt, ← not_lt, ← not_and_or, ← hx, ← hy]
  constructor
  · rintro h ⟨⟨x, hxp, hxq⟩, y, hyp, hyq⟩
    exact h x y ⟨⟨hxp, hyp⟩, hxq, hyq⟩
  · rintro h x y ⟨⟨hxp, hyp⟩, hxq, hyq⟩
    exact h ⟨⟨x, hxp, hxq⟩, y, hyp, hyq⟩

/-- Two boxes touch when no threshold is below one. -/
theorem overlap_iff (hp : IsBox p) (hq : IsBox q) : OVERLAP p.bb q.bb ↔
    1 ≤ ratio (p.wd2 + q.wd2) p.pos.1 q.pos.1 ∧ 1 ≤ ratio (p.ht2 + q.ht2) p.pos.2 q.pos.2 := by
  rw [one_le_ratio_iff (add_pos hp.wd2 hq.wd2), one_le_ratio_iff (add_pos hp.ht2 hq.ht2), abs_le,
    abs_le, OVERLAP, hp.bb, hq.bb]
  constructor
  · rintro ⟨h1, h2, h3, h4⟩
    simp only at h1 h2 h3 h4
    refine ⟨⟨?_, ?_⟩, ?_, ?_⟩ <;> linarith
  · rintro ⟨⟨h1, h2⟩, h3, h4⟩
    refine ⟨?_, ?_, ?_, ?_⟩ <;> simp only <;> linarith

omit [IsStrictOrderedRing K] in
/-- A threshold that is not below one is not changed. -/
theorem threshold_eq (h : 1 ≤ ratio w a b) : threshold w a b = ratio w a b := by
  rw [threshold, ratio] at *
  split
  next => rfl
  next hne =>
    rw [if_neg hne] at h
    exact if_neg h.not_gt

/-- Boxes that do not touch are apart under all factors from one on. -/
theorem apart_of_not_overlap (hp : IsBox p) (hq : IsBox q) (hno : ¬OVERLAP p.bb q.bb)
    (hsx : 1 ≤ sx) (hsy : 1 ≤ sy) : Apart sx sy p q := by
  rw [apart_iff hp hq (zero_le_one.trans hsx) (zero_le_one.trans hsy)]
  rw [overlap_iff hp hq, not_and_or, not_le, not_le] at hno
  have hone : ∀ {s : K}, 1 ≤ s → (1 : WithTop K) ≤ s := fun h => by
    rwa [← WithTop.coe_one, WithTop.coe_le_coe]
  exact hno.imp (fun h => h.le.trans (hone hsx)) fun h => h.le.trans (hone hsy)

/-! ## All boxes -/

/-- The least factor that parts two boxes when both axes are scaled by it. -/
def parts (p q : info K) : WithTop K :=
  min (ratio (p.wd2 + q.wd2) p.pos.1 q.pos.1) (ratio (p.ht2 + q.ht2) p.pos.2 q.pos.2)

theorem apart_iff_parts (hp : IsBox p) (hq : IsBox q) (ht : 0 ≤ t) :
    Apart t t p q ↔ parts p q ≤ (t : WithTop K) := by
  rw [apart_iff hp hq ht ht, parts, min_le_iff]

theorem parts_pos (hp : IsBox p) (hq : IsBox q) : 0 < parts p q := by
  have hpos : ∀ {w a b : K}, 0 < w → 0 < ratio w a b := by
    intro w a b hw
    rw [ratio]
    split
    next => exact WithTop.coe_lt_top 0
    next hne =>
      rw [← WithTop.coe_zero, WithTop.coe_lt_coe]
      exact div_pos hw (abs_pos.2 (sub_ne_zero.2 hne))
  exact lt_min (hpos (add_pos hp.wd2 hq.wd2)) (hpos (add_pos hp.ht2 hq.ht2))

omit [IsStrictOrderedRing K] in
/-- Boxes with different centres can be parted. -/
theorem parts_lt_top (hne : p.pos ≠ q.pos) : parts p q < ⊤ := by
  have hfin : ∀ {w a b : K}, a ≠ b → ratio w a b < ⊤ := by
    intro w a b hne
    rw [ratio, if_neg hne]
    exact WithTop.coe_lt_top _
  obtain hx | hx := eq_or_ne p.pos.1 q.pos.1
  · exact (min_le_right _ _).trans_lt (hfin fun hy => hne (Prod.ext hx hy))
  · exact (min_le_left _ _).trans_lt (hfin hx)

/-- The point of a pair of boxes. -/
def point (p q : info K) : pointf (WithTop K) :=
  (threshold (p.wd2 + q.wd2) p.pos.1 q.pos.1, threshold (p.ht2 + q.ht2) p.pos.2 q.pos.2)

theorem point_eq (hp : IsBox p) (hq : IsBox q) (hov : OVERLAP p.bb q.bb) : point p q =
    (ratio (p.wd2 + q.wd2) p.pos.1 q.pos.1, ratio (p.ht2 + q.ht2) p.pos.2 q.pos.2) := by
  obtain ⟨hx, hy⟩ := (overlap_iff hp hq).1 hov
  rw [point, threshold_eq hx, threshold_eq hy]

omit [IsStrictOrderedRing K] in
/-- The points are those of the pairs that touch. -/
theorem forall_overlapPoints {P : pointf (WithTop K) → Prop} : (∀ pt ∈ overlapPoints nlist, P pt) ↔
    nlist.Pairwise fun p q => OVERLAP p.bb q.bb → P (point p q) := by
  induction nlist with
  | nil => exact iff_of_true nofun .nil
  | cons p nl ih =>
    rw [overlapPoints, forall_mem_append, ih, pairwise_cons, forall_mem_map]
    refine and_congr_left' (forall_congr' fun q => ?_)
    rw [mem_filter, decide_eq_true_iff, and_imp]
    rfl

/-- From one on the factors part the boxes when they meet the demands of the points. -/
theorem spread_iff_meets (hbox : ∀ p ∈ nlist, IsBox p) (hsx : 1 ≤ sx) (hsy : 1 ≤ sy) :
    Spread nlist sx sy ↔ MeetsAll (overlapPoints nlist) (sx : WithTop K) sy := by
  rw [Spread, MeetsAll, forall_overlapPoints]
  refine Pairwise.iff_of_mem fun {p q} hp hq => ?_
  constructor
  · intro hapart hov
    rw [point_eq (hbox p hp) (hbox q hq) hov]
    exact (apart_iff (hbox p hp) (hbox q hq) (zero_le_one.trans hsx) (zero_le_one.trans hsy)).1
      hapart
  · intro hmeets
    obtain hov | hov := Decidable.em (OVERLAP p.bb q.bb)
    · have hpt := hmeets hov
      rw [point_eq (hbox p hp) (hbox q hq) hov] at hpt
      exact (apart_iff (hbox p hp) (hbox q hq) (zero_le_one.trans hsx)
        (zero_le_one.trans hsy)).2 hpt
    · exact apart_of_not_overlap (hbox p hp) (hbox q hq) hov hsx hsy

/-- A single factor that parts the boxes is above the points. -/
theorem Spread.points_le (hbox : ∀ p ∈ nlist, IsBox p) (ht : 0 ≤ t) (h : Spread nlist t t) :
    ∀ pt ∈ overlapPoints nlist, min pt.1 pt.2 ≤ (t : WithTop K) := by
  rw [forall_overlapPoints]
  refine h.imp_of_mem fun {p q} hp hq hapart hov => ?_
  rw [point_eq (hbox p hp) (hbox q hq) hov]
  exact (apart_iff_parts (hbox p hp) (hbox q hq) ht).1 hapart

/-- No point is below one. -/
theorem one_le_points (hbox : ∀ p ∈ nlist, IsBox p) :
    ∀ pt ∈ overlapPoints nlist, 1 ≤ min pt.1 pt.2 := by
  rw [forall_overlapPoints]
  refine pairwise_of_forall_mem_list fun p hp q hq hov => ?_
  rw [point_eq (hbox p hp) (hbox q hq) hov, le_min_iff]
  exact (overlap_iff (hbox p hp) (hbox q hq)).1 hov

/-- The points are finite in one coordinate. -/
theorem points_lt_top (hbox : ∀ p ∈ nlist, IsBox p)
    (hdist : nlist.Pairwise fun p q => p.pos ≠ q.pos) :
    ∀ pt ∈ overlapPoints nlist, min pt.1 pt.2 < ⊤ := by
  rw [forall_overlapPoints]
  refine hdist.imp_of_mem fun {p q} hp hq hne hov => ?_
  rw [point_eq (hbox p hp) (hbox q hq) hov]
  exact parts_lt_top hne

/-! ## A single factor -/

section Largest

variable {α : Type} [LinearOrder α] {l : List α} {m x : α}

theorem foldl_max_le : l.foldl max m ≤ x ↔ m ≤ x ∧ ∀ y ∈ l, y ≤ x := by
  induction l generalizing m with
  | nil => simp
  | cons y l ih => rw [foldl_cons, ih, max_le_iff, forall_mem_cons, and_assoc]

theorem foldl_max_lt : l.foldl max m < x ↔ m < x ∧ ∀ y ∈ l, y < x := by
  induction l generalizing m with
  | nil => simp
  | cons y l ih => rw [foldl_cons, ih, max_lt_iff, forall_mem_cons, and_assoc]

theorem ite_lt_eq_max (m x : α) : (if m < x then x else m) = max m x :=
  (max_def_lt m x).symm

end Largest

omit [IsStrictOrderedRing K] in
theorem computeScale_eq (pt : pointf (WithTop K)) (pts : List (pointf (WithTop K))) :
    computeScale (pt :: pts) = (pts.map fun p => min p.1 p.2).foldl max 0 := by
  rw [computeScale, tail_cons, foldl_map]
  congr 1
  funext sc p
  exact ite_lt_eq_max sc _

/-- The least factors of the pairs of boxes. -/
def pairParts : List (info K) → List (WithTop K)
  | [] => []
  | p :: nl => nl.map (parts p) ++ pairParts nl

omit [IsStrictOrderedRing K] in
theorem forall_pairParts {P : WithTop K → Prop} :
    (∀ x ∈ pairParts nlist, P x) ↔ nlist.Pairwise fun p q => P (parts p q) := by
  induction nlist with
  | nil => exact iff_of_true nofun .nil
  | cons p nl ih =>
    rw [pairParts, forall_mem_append, ih, pairwise_cons, forall_mem_map]

omit [IsStrictOrderedRing K] in
theorem compressRow_eq {sc : WithTop K} (hno : ∀ q ∈ nlist, ¬OVERLAP p.bb q.bb) :
    compressRow p nlist sc = some ((nlist.map (parts p)).foldl max sc) := by
  induction nlist generalizing sc with
  | nil => rfl
  | cons q nl ih =>
    have hmin : ∀ x y : WithTop K, (if y < x then y else x) = min x y := fun x y => by
      rw [min_comm, min_def_lt]
    obtain ⟨hq, hnl⟩ := forall_mem_cons.1 hno
    rw [compressRow, if_neg hq]
    simp only [hmin, ite_lt_eq_max]
    rw [ih hnl]
    rfl

omit [IsStrictOrderedRing K] in
theorem compressRow_none {sc : WithTop K} (hov : ∃ q ∈ nlist, OVERLAP p.bb q.bb) :
    compressRow p nlist sc = none := by
  induction nlist generalizing sc with
  | nil =>
    obtain ⟨q, hq, -⟩ := hov
    cases hq
  | cons q nl ih =>
    rw [compressRow]
    split
    next => rfl
    next hq =>
      obtain ⟨r, hr, hov⟩ := hov
      obtain rfl | hr := mem_cons.1 hr
      · exact absurd hov hq
      · exact ih ⟨r, hr, hov⟩

omit [IsStrictOrderedRing K] in
theorem compressLoop_eq {sc : WithTop K} (hno : nlist.Pairwise fun p q => ¬OVERLAP p.bb q.bb) :
    compressLoop nlist sc = some ((pairParts nlist).foldl max sc) := by
  induction nlist generalizing sc with
  | nil => rfl
  | cons p nl ih =>
    obtain ⟨hp, hnl⟩ := pairwise_cons.1 hno
    rw [compressLoop, compressRow_eq hp, Option.bind_some, ih hnl, pairParts, foldl_append]

omit [IsStrictOrderedRing K] in
theorem compressLoop_none {sc : WithTop K}
    (hov : ¬nlist.Pairwise fun p q => ¬OVERLAP p.bb q.bb) : compressLoop nlist sc = none := by
  induction nlist generalizing sc with
  | nil => exact absurd .nil hov
  | cons p nl ih =>
    rw [compressLoop]
    obtain hrow | hrow := Classical.em (∃ q ∈ nl, OVERLAP p.bb q.bb)
    · rw [compressRow_none hrow, Option.bind_none]
    · have hrow' : ∀ q ∈ nl, ¬OVERLAP p.bb q.bb := fun q hq h => hrow ⟨q, hq, h⟩
      rw [compressRow_eq hrow', Option.bind_some]
      exact ih fun hnl => hov (pairwise_cons.2 ⟨hrow', hnl⟩)

/-! ## Two factors -/

omit [Field K] [IsStrictOrderedRing K] in
theorem sortf_eq_gt (p q : pointf (WithTop K)) :
    sortf p q = .gt ↔ (toLex q : WithTop K ×ₗ WithTop K) < toLex p := by
  rw [Prod.Lex.toLex_lt_toLex, sortf]
  split
  next h => exact iff_of_false nofun fun hor => hor.elim h.not_gt fun heq => h.ne heq.1.symm
  next h =>
    split
    next h' => exact iff_of_true rfl (.inl h')
    next h' =>
      have heq : q.1 = p.1 := le_antisymm (not_lt.1 h) (not_lt.1 h')
      split
      next h2 => exact iff_of_false nofun fun hor => hor.elim h' fun hand => h2.not_gt hand.2
      next h2 =>
        split
        next h3 => exact iff_of_true rfl (.inr ⟨heq, h3⟩)
        next h3 => exact iff_of_false nofun fun hor => hor.elim h' fun hand => h3 hand.2

omit [Field K] [IsStrictOrderedRing K] in
theorem sorted_points (pts : List (pointf (WithTop K))) :
    (pts.insertionSort fun p q => sortf p q ≠ .gt).Pairwise fun p q => p.1 ≤ q.1 := by
  have := OrderedMultiset.cmp_total (@sortf_eq_gt K _)
  have := OrderedMultiset.cmp_trans (@sortf_eq_gt K _)
  refine (pairwise_insertionSort _ pts).imp fun {p q} hpq => ?_
  rw [Ne, sortf_eq_gt, Prod.Lex.toLex_lt_toLex, not_or] at hpq
  exact not_lt.1 hpq.1

omit [IsStrictOrderedRing K] in
/-- The points that `computeScaleXY` chooses from are the steps of the staircase. -/
theorem mkBarr_eq (x y : WithTop K) (L : List (pointf (WithTop K))) :
    mkBarr ((x, y) :: L) = steps x 1 L := by
  induction L generalizing x y with
  | nil => rfl
  | cons p L ih =>
    rw [mkBarr, ih p.1 p.2, steps]
    cases L with
    | nil => rfl
    | cons q L => rfl

omit [IsStrictOrderedRing K] in
/-- The loop finds a point of the least cost. -/
theorem bestLoop_spec {barr : List (pointf (WithTop K))} {k best : ℕ} {bestcost : WithTop K} :
    (bestLoop barr k bestcost best).1 ≤ bestcost ∧
      (∀ b ∈ barr, (bestLoop barr k bestcost best).1 ≤ b.1 * b.2) ∧
      (bestLoop barr k bestcost best = (bestcost, best) ∨
        ∃ i b, barr[i]? = some b ∧ bestLoop barr k bestcost best = (b.1 * b.2, k + i)) := by
  induction barr generalizing k bestcost best with
  | nil => exact ⟨le_rfl, nofun, .inl rfl⟩
  | cons b barr ih =>
    rw [bestLoop]
    split
    next hlt =>
      obtain ⟨hle, hall, hfrom⟩ := @ih (k + 1) k (b.1 * b.2)
      refine ⟨hle.trans hlt.le, forall_mem_cons.2 ⟨hle, hall⟩, .inr ?_⟩
      obtain heq | ⟨i, c, hc, heq⟩ := hfrom
      · exact ⟨0, b, rfl, heq⟩
      · exact ⟨i + 1, c, hc, heq.trans (by rw [Nat.add_right_comm, Nat.add_assoc])⟩
    next hge =>
      obtain ⟨hle, hall, hfrom⟩ := @ih (k + 1) best bestcost
      refine ⟨hle, forall_mem_cons.2 ⟨hle.trans (not_lt.1 hge), hall⟩, hfrom.imp_right ?_⟩
      rintro ⟨i, c, hc, heq⟩
      exact ⟨i + 1, c, hc, heq.trans (by rw [Nat.add_right_comm, Nat.add_assoc])⟩

omit [IsStrictOrderedRing K] in
/-- A point between one and some numbers has numbers as its coordinates. -/
theorem exists_coe {b : pointf (WithTop K)} (hone : 1 ≤ b.1 ∧ 1 ≤ b.2)
    (hle : b.1 ≤ (sx : WithTop K) ∧ b.2 ≤ (sy : WithTop K)) :
    ∃ cx cy : K, b = ((cx : WithTop K), (cy : WithTop K)) ∧ 1 ≤ cx ∧ 1 ≤ cy ∧
      cx ≤ sx ∧ cy ≤ sy := by
  obtain ⟨x, y⟩ := b
  obtain ⟨cx, rfl, hcx⟩ := WithTop.le_coe_iff.1 hle.1
  obtain ⟨cy, rfl, hcy⟩ := WithTop.le_coe_iff.1 hle.2
  exact ⟨cx, cy, rfl, WithTop.one_le_coe.1 hone.1, WithTop.one_le_coe.1 hone.2, hcx, hcy⟩

/-- The factors of a finite cost are numbers. -/
theorem lt_top_of_mul {x y : WithTop K} (hx : 1 ≤ x) (hy : 1 ≤ y) (hlt : x * y < ⊤) :
    x < ⊤ ∧ y < ⊤ := by
  have hne : ∀ {z : WithTop K}, 1 ≤ z → z ≠ 0 := fun h => (zero_lt_one.trans_le h).ne'
  constructor
  · refine WithTop.lt_top_iff_ne_top.2 fun heq => hlt.ne ?_
    rw [heq, WithTop.top_mul (hne hy)]
  · refine WithTop.lt_top_iff_ne_top.2 fun heq => hlt.ne ?_
    rw [heq, WithTop.mul_top (hne hx)]

/-- The factors are a step of the staircase with the least product, when some factors meet the
demands. -/
theorem computeScaleXY_spec {pt : pointf (WithTop K)} {pts : List (pointf (WithTop K))}
    (hpts : ∀ p ∈ pts, 1 ≤ p.1) (hx : 1 ≤ sx) (hy : 1 ≤ sy)
    (hmeets : MeetsAll pts (sx : WithTop K) sy) :
    ∃ tx ty : K, computeScaleXY (pt :: pts) = .ok ((tx : WithTop K), (ty : WithTop K)) ∧
      1 ≤ tx ∧ 1 ≤ ty ∧ MeetsAll pts (tx : WithTop K) ty ∧
      ∀ ux uy : K, 1 ≤ ux → 1 ≤ uy → MeetsAll pts (ux : WithTop K) uy → tx * ty ≤ ux * uy := by
  let L := pts.insertionSort fun p q => sortf p q ≠ .gt
  have hperm : ∀ x y : WithTop K, MeetsAll L x y ↔ MeetsAll pts x y := fun x y =>
    forall_congr' fun p => by rw [mem_insertionSort]
  have hsteps : ∀ b ∈ steps 1 1 L, 1 ≤ b.1 ∧ 1 ≤ b.2 ∧ MeetsAll L b.1 b.2 := fun b hb =>
    steps_meet (sorted_points pts) (fun p hp => hpts p (mem_insertionSort _ |>.1 hp)) hb
  obtain ⟨-, hall, hfrom⟩ := @bestLoop_spec K _ _ (steps 1 1 L) 0 0 HUGE_VAL
  -- no factors that meet the demands have a smaller product than the best cost
  have hbest : ∀ ux uy : K, 1 ≤ ux → 1 ≤ uy → MeetsAll pts (ux : WithTop K) uy →
      (bestLoop (steps 1 1 L) 0 HUGE_VAL 0).1 ≤ ((ux * uy : K) : WithTop K) := by
    intro ux uy hux huy hu
    obtain ⟨b, hb, hle⟩ := exists_step_le (sorted_points pts) (WithTop.one_le_coe.2 hux)
      (WithTop.one_le_coe.2 huy) ((hperm _ _).2 hu)
    have hone := hsteps b hb
    obtain ⟨cx, cy, rfl, hcx, hcy, hxu, hyu⟩ := exists_coe ⟨hone.1, hone.2.1⟩ hle
    refine (hall _ hb).trans ?_
    rw [← WithTop.coe_mul, WithTop.coe_le_coe]
    exact mul_le_mul hxu hyu (zero_le_one.trans hcy) (zero_le_one.trans hux)
  have hlt : (bestLoop (steps 1 1 L) 0 HUGE_VAL 0).1 < ⊤ :=
    (hbest sx sy hx hy hmeets).trans_lt (WithTop.coe_lt_top _)
  obtain ⟨i, b, hi, hloop⟩ := hfrom.resolve_left fun heq => by
    rw [heq] at hlt
    exact lt_irrefl _ hlt
  have hb := hsteps b (mem_of_getElem? hi)
  rw [hloop] at hlt hbest
  obtain ⟨hxt, hyt⟩ := lt_top_of_mul hb.1 hb.2.1 hlt
  obtain ⟨tx, htx⟩ := WithTop.ne_top_iff_exists.1 hxt.ne
  obtain ⟨ty, hty⟩ := WithTop.ne_top_iff_exists.1 hyt.ne
  obtain rfl : ((tx : WithTop K), (ty : WithTop K)) = b := Prod.ext htx hty
  refine ⟨tx, ty, ?_, WithTop.one_le_coe.1 hb.1, WithTop.one_le_coe.1 hb.2.1,
    (hperm _ _).1 hb.2.2, fun ux uy hux huy hu => ?_⟩
  · rw [computeScaleXY, mkBarr_eq, tail_cons]
    change (assert ((bestLoop (steps 1 1 L) 0 HUGE_VAL 0).1 < HUGE_VAL) >>= fun _ =>
      match (steps 1 1 L)[(bestLoop (steps 1 1 L) 0 HUGE_VAL 0).2]? with
      | none => .error .segfault
      | some scale => .ok scale) = _
    rw [hloop, assert, if_pos hlt, ok_bind, Nat.zero_add, hi]
  · exact WithTop.coe_le_coe.1 (hbest ux uy hux huy hu)

/-- The largest of the smaller coordinates, when there are points. -/
theorem computeScale_spec {pt : pointf (WithTop K)} {pts : List (pointf (WithTop K))}
    (hne : pts ≠ []) (hone : ∀ p ∈ pts, 1 ≤ min p.1 p.2) (htop : ∀ p ∈ pts, min p.1 p.2 < ⊤) :
    ∃ t : K, computeScale (pt :: pts) = t ∧ 1 ≤ t ∧
      ∀ u : K, t ≤ u ↔ ∀ p ∈ pts, min p.1 p.2 ≤ (u : WithTop K) := by
  have hlt : computeScale (pt :: pts) < ⊤ := by
    rw [computeScale_eq, foldl_max_lt, forall_mem_map]
    exact ⟨WithTop.coe_lt_top 0, htop⟩
  obtain ⟨t, ht⟩ := WithTop.ne_top_iff_exists.1 hlt.ne
  have hle : ∀ u : WithTop K, t ≤ u ↔ 0 ≤ u ∧ ∀ p ∈ pts, min p.1 p.2 ≤ u := fun u => by
    rw [ht, computeScale_eq, foldl_max_le, forall_mem_map]
  obtain ⟨p, hp⟩ := exists_mem_of_ne_nil pts hne
  refine ⟨t, ht.symm, WithTop.one_le_coe.1 ?_, fun u => ?_⟩
  · exact (hone p hp).trans (((hle t).1 le_rfl).2 p hp)
  · rw [← WithTop.coe_le_coe, hle]
    refine and_iff_right_of_imp fun h => ?_
    exact (zero_le_one.trans (hone p hp)).trans (h p hp)

end Graphviz.ScAdjust

/-!
## The scaled layout

With two factors the layout is scaled by the best pair of them, with a single factor by the least
one that removes the overlaps, and without overlaps by the least one that keeps the boxes apart.
-/

namespace Graphviz.ScAdjust

open List Outcome Staircase

variable {K : Type} [Field K] [LinearOrder K] [IsStrictOrderedRing K] {nlist : List (info K)}
  {sx sy t : K} {margin : expand_t K} {g : List (node_t K)} {equal : ℤ}

/-- The boxes of the nodes. -/
def boxes (margin : expand_t K) (g : List (node_t K)) : List (info K) :=
  g.map (mkInfo (inches margin))

/-- The positions of the nodes, scaled. -/
def scaled (sx sy : K) (g : List (node_t K)) : List (pointf K) :=
  g.map fun n => (sx * n.ND_pos.1, sy * n.ND_pos.2)

omit [IsStrictOrderedRing K] [LinearOrder K] in
theorem scaled_one (g : List (node_t K)) : scaled 1 1 g = g.map node_t.ND_pos :=
  map_congr_left fun _ _ => Prod.ext (one_mul _) (one_mul _)

omit [IsStrictOrderedRing K] [LinearOrder K] in
theorem scalePos_eq (sx sy : K) :
    scalePos ((sx : WithTop K), (sy : WithTop K)) (boxes margin g) = .ok (scaled sx sy g) := by
  induction g with
  | nil => rfl
  | cons n g ih =>
    change (times _ _ >>= fun x => times _ _ >>= fun y =>
      scalePos _ (boxes margin g) >>= fun rest => .ok ((x, y) :: rest)) = _
    rw [ih]
    rfl

omit [IsStrictOrderedRing K] in
theorem scAdjust_none (h : scaleFactors (boxes margin g) equal = .ok none) :
    scAdjust margin g equal = .ok (0, scaled 1 1 g) := by
  rw [scAdjust, scaled_one]
  change (scaleFactors (boxes margin g) equal >>= _) = _
  rw [h]
  rfl

omit [IsStrictOrderedRing K] in
theorem scAdjust_some
    (h : scaleFactors (boxes margin g) equal = .ok (some ((sx : WithTop K), (sy : WithTop K)))) :
    scAdjust margin g equal = .ok (1, scaled sx sy g) := by
  rw [scAdjust]
  change (scaleFactors (boxes margin g) equal >>= _) = _
  rw [h, ok_bind]
  change (scalePos _ (boxes margin g) >>= _) = _
  rw [scalePos_eq]
  rfl

/-- Two factors part the boxes, and no two factors from one on with a smaller product do. -/
structure BestPair (nlist : List (info K)) (sx sy : K) : Prop where
  one_le : 1 ≤ sx ∧ 1 ≤ sy
  spread : Spread nlist sx sy
  least : ∀ tx ty, 1 ≤ tx → 1 ≤ ty → Spread nlist tx ty → sx * sy ≤ tx * ty

omit [IsStrictOrderedRing K] in
theorem scaleFactors_nil (hequal : 0 ≤ equal) (hnil : overlapPoints nlist = []) :
    scaleFactors nlist equal = .ok none := by
  rw [scaleFactors, if_neg hequal.not_gt, mkOverlapSet, hnil]
  rfl

omit [IsStrictOrderedRing K] in
theorem scaleFactors_points (hequal : 0 ≤ equal) (hne : overlapPoints nlist ≠ []) :
    scaleFactors nlist equal =
      if equal ≠ 0 then .ok (some (computeScale (mkOverlapSet nlist),
        computeScale (mkOverlapSet nlist)))
      else computeScaleXY (mkOverlapSet nlist) >>= fun s => .ok (some s) := by
  have hlen : ¬(mkOverlapSet nlist).length = 1 := fun h =>
    hne (length_eq_zero_iff.1 (Nat.succ.inj h))
  rw [scaleFactors, if_neg hequal.not_gt]
  exact if_neg hlen

theorem scaleFactors_pair (hbox : ∀ p ∈ nlist, IsBox p)
    (hdist : nlist.Pairwise fun p q => p.pos ≠ q.pos) :
    (∃ sx sy : K, scaleFactors nlist 0 = .ok (some ((sx : WithTop K), (sy : WithTop K))) ∧
      BestPair nlist sx sy) ∨ scaleFactors nlist 0 = .ok none ∧ BestPair nlist 1 1 := by
  have hone := one_le_points hbox
  obtain hnil | hne := eq_or_ne (overlapPoints nlist) []
  · refine .inr ⟨scaleFactors_nil le_rfl hnil, ⟨le_rfl, le_rfl⟩, ?_, fun tx ty htx hty _ => ?_⟩
    · rw [spread_iff_meets hbox le_rfl le_rfl, hnil]
      exact nofun
    · rw [one_mul]
      exact one_le_mul_of_one_le_of_one_le htx hty
  · -- a single large factor shows that the demands can be met
    obtain ⟨t, -, ht, hle⟩ := @computeScale_spec _ _ _ _ (0, 0) _ hne hone
      (points_lt_top hbox hdist)
    have hmeets : MeetsAll (overlapPoints nlist) (t : WithTop K) t := fun p hp =>
      min_le_iff.1 ((hle t).1 le_rfl p hp)
    obtain ⟨sx, sy, hrun, hsx, hsy, hs, hleast⟩ := @computeScaleXY_spec _ _ _ _ _ _ (0, 0) _
      (fun p hp => (le_min_iff.1 (hone p hp)).1) ht ht hmeets
    refine .inl ⟨sx, sy, ?_, ⟨hsx, hsy⟩, (spread_iff_meets hbox hsx hsy).2 hs,
      fun tx ty htx hty htxy => hleast tx ty htx hty ((spread_iff_meets hbox htx hty).1 htxy)⟩
    rw [scaleFactors_points le_rfl hne, if_neg (not_not_intro rfl), mkOverlapSet, hrun]
    rfl

/-- The factor is the least one that removes the overlaps: without overlaps it is one, and else
there is none that is less, not even below one. -/
structure BestScale (nlist : List (info K)) (s : K) : Prop where
  least : IsLeast {t | 1 ≤ t ∧ Spread nlist t t} s
  removes : ¬Spread nlist 1 1 → IsLeast {t | 0 ≤ t ∧ Spread nlist t t} s

theorem scaleFactors_single (hbox : ∀ p ∈ nlist, IsBox p)
    (hdist : nlist.Pairwise fun p q => p.pos ≠ q.pos) (hequal : 0 < equal) :
    (∃ s : K, scaleFactors nlist equal = .ok (some ((s : WithTop K), (s : WithTop K))) ∧
      BestScale nlist s) ∨ scaleFactors nlist equal = .ok none ∧ BestScale nlist 1 := by
  have hone := one_le_points hbox
  obtain hnil | hne := eq_or_ne (overlapPoints nlist) []
  · have hspread : Spread nlist 1 1 := by
      rw [spread_iff_meets hbox le_rfl le_rfl, hnil]
      exact nofun
    exact .inr ⟨scaleFactors_nil hequal.le hnil, ⟨⟨le_rfl, hspread⟩, fun t ht => ht.1⟩,
      fun hno => absurd hspread hno⟩
  · obtain ⟨t, hrun, ht, hle⟩ := @computeScale_spec _ _ _ _ (0, 0) _ hne hone
      (points_lt_top hbox hdist)
    have hspread : Spread nlist t t := by
      rw [spread_iff_meets hbox ht ht]
      exact fun p hp => min_le_iff.1 ((hle t).1 le_rfl p hp)
    have hleast : ∀ u, 0 ≤ u → Spread nlist u u → t ≤ u := fun u hu hs =>
      (hle u).2 (hs.points_le hbox hu)
    refine .inl ⟨t, ?_, ⟨⟨ht, hspread⟩, fun u hu => ?_⟩, fun _ => ⟨⟨?_, hspread⟩, fun u hu => ?_⟩⟩
    · rw [scaleFactors_points hequal.le hne, if_pos hequal.ne', mkOverlapSet, hrun]
    · exact hleast u (zero_le_one.trans hu.1) hu.2
    · exact zero_le_one.trans ht
    · exact hleast u hu.1 hu.2

/-- The factor is the least one that keeps the boxes apart; fewer than two boxes have no least one,
and are left where they are. -/
def BestCompress (nlist : List (info K)) (s : K) : Prop :=
  IsLeast {t | 0 < t ∧ Spread nlist t t} s ∨
    (∀ t, ¬IsLeast {t | 0 < t ∧ Spread nlist t t} t) ∧ s = 1

omit [IsStrictOrderedRing K] in
theorem scaleFactors_neg (hequal : equal < 0) : scaleFactors nlist equal =
    if compress nlist = 0 then .ok none else .ok (some (compress nlist, compress nlist)) :=
  if_pos hequal

/-- A single factor parts the boxes when it is above those of the pairs. -/
theorem spread_iff_pairs (hbox : ∀ p ∈ nlist, IsBox p) (ht : 0 ≤ t) :
    Spread nlist t t ↔ (pairParts nlist).foldl max 0 ≤ (t : WithTop K) := by
  have hzero : (0 : WithTop K) ≤ t := WithTop.coe_le_coe.2 ht
  rw [foldl_max_le, forall_pairParts, Spread, and_iff_right hzero]
  exact Pairwise.iff_of_mem fun hp hq => apart_iff_parts (hbox _ hp) (hbox _ hq) ht

theorem scaleFactors_compress (hbox : ∀ p ∈ nlist, IsBox p)
    (hdist : nlist.Pairwise fun p q => p.pos ≠ q.pos) (hequal : equal < 0)
    (hspread : Spread nlist 1 1) :
    (∃ s : K, scaleFactors nlist equal = .ok (some ((s : WithTop K), (s : WithTop K))) ∧
      BestCompress nlist s) ∨ scaleFactors nlist equal = .ok none ∧ BestCompress nlist 1 := by
  rw [scaleFactors_neg hequal]
  obtain hno | hov := Classical.em (nlist.Pairwise fun p q => ¬OVERLAP p.bb q.bb)
  · have hcompress : compress nlist = (pairParts nlist).foldl max 0 := by
      rw [compress, compressLoop_eq hno, Option.getD_some]
    obtain hnil | hne := eq_or_ne (pairParts nlist) []
    · -- fewer than two boxes
      rw [if_pos (by rw [hcompress, hnil]; rfl)]
      have hall : ∀ t, 0 < t → Spread nlist t t := fun t ht => by
        rw [spread_iff_pairs hbox ht.le, hnil]
        exact WithTop.coe_le_coe.2 ht.le
      refine .inr ⟨rfl, .inr ⟨fun t ht => ?_, rfl⟩⟩
      have hhalf : 0 < t / 2 := half_pos ht.1.1
      exact (half_lt_self ht.1.1).not_ge (ht.2 ⟨hhalf, hall _ hhalf⟩)
    · have hpos : 0 < compress nlist := by
        obtain ⟨x, hx⟩ := exists_mem_of_ne_nil _ hne
        have hall : ∀ x ∈ pairParts nlist, 0 < x := forall_pairParts.2
          (pairwise_of_forall_mem_list fun p hp q hq => parts_pos (hbox p hp) (hbox q hq))
        rw [hcompress]
        exact (hall x hx).trans_le ((foldl_max_le.1 le_rfl).2 x hx)
      have hlt : compress nlist < ⊤ := by
        rw [hcompress, foldl_max_lt, forall_pairParts]
        exact ⟨WithTop.coe_lt_top 0, hdist.imp parts_lt_top⟩
      obtain ⟨s, hs⟩ := WithTop.ne_top_iff_exists.1 hlt.ne
      rw [if_neg hpos.ne', ← hs]
      rw [← hs] at hpos
      have hiff : ∀ u, 0 ≤ u → (Spread nlist u u ↔ s ≤ u) := fun u hu => by
        rw [spread_iff_pairs hbox hu, ← hcompress, ← hs, WithTop.coe_le_coe]
      have hs0 : 0 < s := WithTop.coe_pos.1 hpos
      exact .inl ⟨s, rfl, .inl ⟨⟨hs0, (hiff s hs0.le).2 le_rfl⟩,
        fun u hu => (hiff u hu.1.le).1 hu.2⟩⟩
  · -- two boxes touch, so that no factor below one keeps them apart
    have hzero : compress nlist = 0 := by rw [compress, compressLoop_none hov, Option.getD_none]
    have hne : overlapPoints nlist ≠ [] := fun hnil => hov (by
      have hnone : ∀ pt ∈ overlapPoints nlist, False := by
        rw [hnil]
        exact nofun
      exact forall_overlapPoints.1 hnone)
    obtain ⟨pt, hpt⟩ := exists_mem_of_ne_nil _ hne
    refine .inr ⟨if_pos hzero, .inl ⟨⟨zero_lt_one, hspread⟩, fun u hu => ?_⟩⟩
    have hle := (one_le_points hbox pt hpt).trans (hu.2.points_le hbox hu.1.le pt hpt)
    exact WithTop.one_le_coe.1 hle

/-! ## The factors of `scAdjust` -/

/-- For boxes with different centres `scAdjust` scales the layout by the best factors. -/
theorem scAdjust_best (hbox : ∀ p ∈ boxes margin g, 0 < p.wd2 ∧ 0 < p.ht2)
    (hdist : g.Pairwise fun m n => m.ND_pos ≠ n.ND_pos) :
    (∃ ret sx sy, scAdjust margin g 0 = .ok (ret, scaled sx sy g) ∧
      BestPair (boxes margin g) sx sy) ∧
    (∀ equal > 0, ∃ ret s, scAdjust margin g equal = .ok (ret, scaled s s g) ∧
      BestScale (boxes margin g) s) ∧
    ∀ equal < 0, Spread (boxes margin g) 1 1 →
      ∃ ret s, scAdjust margin g equal = .ok (ret, scaled s s g) ∧
        BestCompress (boxes margin g) s := by
  have hbox' : ∀ p ∈ boxes margin g, IsBox p := by
    intro p hp
    obtain ⟨hw, hh⟩ := hbox p hp
    obtain ⟨n, -, rfl⟩ := mem_map.1 hp
    exact ⟨hw, hh, rfl⟩
  have hdist' : (boxes margin g).Pairwise fun p q => p.pos ≠ q.pos := pairwise_map.2 hdist
  refine ⟨?_, fun equal hequal => ?_, fun equal hequal hspread => ?_⟩
  · obtain ⟨sx, sy, hrun, hbest⟩ | ⟨hrun, hbest⟩ := scaleFactors_pair hbox' hdist'
    · exact ⟨1, sx, sy, scAdjust_some hrun, hbest⟩
    · exact ⟨0, 1, 1, scAdjust_none hrun, hbest⟩
  · obtain ⟨s, hrun, hbest⟩ | ⟨hrun, hbest⟩ := scaleFactors_single hbox' hdist' hequal
    · exact ⟨1, s, scAdjust_some hrun, hbest⟩
    · exact ⟨0, 1, scAdjust_none hrun, hbest⟩
  · obtain ⟨s, hrun, hbest⟩ | ⟨hrun, hbest⟩ := scaleFactors_compress hbox' hdist' hequal hspread
    · exact ⟨1, s, scAdjust_some hrun, hbest⟩
    · exact ⟨0, 1, scAdjust_none hrun, hbest⟩

/-- Two boxes that overlap. -/
theorem scAdjust_best_two :
    let margin : expand_t ℚ := ⟨0, 0, true⟩
    let g : List (node_t ℚ) := [⟨(0, 0), 4, 4⟩, ⟨(1, 2), 4, 4⟩]
    ∃ ret sx sy, scAdjust margin g 0 = .ok (ret, scaled sx sy g) ∧
      BestPair (boxes margin g) sx sy := by
  intro margin g
  exact (scAdjust_best (by decide +kernel) (by decide +kernel)).1

end Graphviz.ScAdjust
