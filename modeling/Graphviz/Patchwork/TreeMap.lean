import Graphviz.Common.Geom
import Graphviz.Util.Fault

/-!
# Squarified treemaps (`patchwork/tree_map.c`)

A rectangle is filled with rectangles of given areas. Rows are laid out along the shorter side of
the space that is left; a row is closed when one more area would make the worst aspect ratio in it
worse. Numbers are exact.
-/

namespace Graphviz.TreeMap

open Outcome

/-- `rectangle`: the centre, and the sizes in both directions. -/
structure rectangle where
  x : pointf
  size : pointf
  deriving DecidableEq

/-- A row along the `x` direction, left to right, in `squarify`. -/
def rowX (hh y : ℚ) : ℚ → List ℚ → List rectangle
  | _, [] => []
  | xx, a :: area =>
    let ww := a / hh
    { x := ⟨xx + ww / 2, y⟩, size := ⟨ww, hh⟩ } :: rowX hh y (xx + ww) area

/-- A row along the `y` direction, top to bottom. -/
def rowY (ww x : ℚ) : ℚ → List ℚ → List rectangle
  | _, [] => []
  | yy, a :: area =>
    let hh := a / ww
    { x := ⟨x, yy - hh / 2⟩, size := ⟨ww, hh⟩ } :: rowY ww x (yy - hh) area

/-- The items that have been added are laid out; the rectangle that is left. -/
def fixRow (area : List ℚ) (totalarea : ℚ) (fillrec : rectangle) : List rectangle × rectangle :=
  let w := min fillrec.size.x fillrec.size.y
  if fillrec.size.x ≤ fillrec.size.y then
    let hh := totalarea / w
    let xx := fillrec.x.x - fillrec.size.x / 2
    (rowX hh (fillrec.x.y + 1 / 2 * fillrec.size.y - hh / 2) xx area,
      { x := ⟨fillrec.x.x, fillrec.x.y - hh / 2⟩, size := ⟨fillrec.size.x, fillrec.size.y - hh⟩ })
  else
    let ww := totalarea / w
    let yy := fillrec.x.y + fillrec.size.y / 2
    (rowY ww (fillrec.x.x - 1 / 2 * fillrec.size.x + ww / 2) yy area,
      { x := ⟨fillrec.x.x + ww / 2, fillrec.x.y⟩, size := ⟨fillrec.size.x - ww, fillrec.size.y⟩ })

/-- `squarify`: the rectangles of all items; `n` is the length of `area`. -/
def squarify : ℕ → List ℚ → ℕ → ℚ → ℚ → ℚ → ℚ → rectangle → Except Fault (List rectangle)
  | 0, _, _, _, _, _, _, _ => .error .fuel
  | fuel + 1, area, nadded, maxarea, minarea, totalarea, asp, fillrec =>
    let w := min fillrec.size.x fillrec.size.y
    match area with
    | [] => .ok []
    | a :: _ =>
      if nadded = 0 then
        squarify fuel area 1 a a a (max (a / (w * w)) (w * w / a)) fillrec
      else
        let fix := do
          let (row, fillrec) := fixRow (area.take nadded) totalarea fillrec
          let rest ← squarify fuel (area.drop nadded) 0 0 0 0 1 fillrec
          .ok (row ++ rest)
        match area[nadded]? with
        | some a =>
          let newmaxarea := max maxarea a
          let newminarea := min minarea a
          let s := totalarea + a
          let h := s / w
          let maxw := newmaxarea / h
          let minw := newminarea / h
          let newasp := max (h / minw) (maxw / h)
          if newasp ≤ asp then
            squarify fuel area (nadded + 1) newmaxarea newminarea s newasp fillrec
          else fix
        | none => fix

/-- `tree_map`; `none` is the null pointer that it returns when there is not enough area. -/
def tree_map (area : List ℚ) (fillrec : rectangle) : Except Fault (Option (List rectangle)) :=
  if fillrec.size.x * fillrec.size.y + 1 / 1000 < area.sum then .ok none
  else do
    let recs ← squarify (2 * area.length + 1) area 0 0 1 0 1 fillrec
    .ok (some recs)

end Graphviz.TreeMap

/-!
## What a treemap covers (`patchwork/tree_map.c`)

Whatever decides where the rows end, each row is cut off from the rectangle that is left, and each
item from its row. So the rectangles lie within the given one and beside each other, and they have
the areas that were asked for.
-/

namespace Graphviz.TreeMap

open Outcome

/-! ## Cutting a box -/

/-- Boxes that come from a box by cutting it again and again; parts of it may be left out. -/
inductive Cut : boxf → List boxf → Prop where
  | nil (b : boxf) : Cut b []
  | one {b b' : boxf} : b'.Within b → Cut b [b']
  | split {b b₁ b₂ : boxf} {l₁ l₂ : List boxf} : b₁.Within b → b₂.Within b → b₁.Apart b₂ →
    Cut b₁ l₁ → Cut b₂ l₂ → Cut b (l₁ ++ l₂)

variable {b b' : boxf} {l : List boxf}

/-- What is cut from a box lies within it. -/
theorem Cut.within (h : Cut b l) : ∀ c ∈ l, c.Within b := by
  induction h with
  | nil b => exact fun c hc => absurd hc List.not_mem_nil
  | one hb =>
    intro c hc
    rwa [List.mem_singleton.1 hc]
  | split hb1 hb2 _ _ _ ih1 ih2 =>
    intro c hc
    obtain hc | hc := List.mem_append.1 hc
    · exact (ih1 c hc).trans hb1
    · exact (ih2 c hc).trans hb2

/-- What is cut from a box lies beside each other. -/
theorem Cut.apart (h : Cut b l) : l.Pairwise boxf.Apart := by
  induction h with
  | nil b => exact List.Pairwise.nil
  | one => exact List.pairwise_singleton _ _
  | split _ _ hapart h1 h2 ih1 ih2 =>
    exact List.pairwise_append.2
      ⟨ih1, ih2, fun c hc d hd => hapart.mono (h1.within c hc) (h2.within d hd)⟩

/-! ## Rows -/

/-- The rectangle as a box. -/
def rectangle.box (r : rectangle) : boxf :=
  ⟨⟨r.x.x - r.size.x / 2, r.x.y - r.size.y / 2⟩, ⟨r.x.x + r.size.x / 2, r.x.y + r.size.y / 2⟩⟩

/-- The rectangle has this area. -/
def HasArea (a : ℚ) (r : rectangle) : Prop :=
  (0 < r.size.x ∧ 0 < r.size.y) ∧ r.size.x * r.size.y = a

variable {area : List ℚ} {hh ww x xx y yy : ℚ} {fillrec : rectangle} {fuel nadded : ℕ}

theorem rowX_area (hh₀ : 0 < hh) (harea : ∀ a ∈ area, 0 < a) :
    List.Forall₂ HasArea area (rowX hh y xx area) := by
  induction area generalizing xx with
  | nil => exact List.Forall₂.nil
  | cons a area ih =>
    have ha := harea a List.mem_cons_self
    exact List.Forall₂.cons ⟨⟨div_pos ha hh₀, hh₀⟩, div_mul_cancel₀ a hh₀.ne'⟩
      (ih fun a ha => harea a (List.mem_cons_of_mem _ ha))

theorem rowY_area (ww₀ : 0 < ww) (harea : ∀ a ∈ area, 0 < a) :
    List.Forall₂ HasArea area (rowY ww x yy area) := by
  induction area generalizing yy with
  | nil => exact List.Forall₂.nil
  | cons a area ih =>
    have ha := harea a List.mem_cons_self
    exact List.Forall₂.cons ⟨⟨ww₀, div_pos ha ww₀⟩, mul_div_cancel₀ a ww₀.ne'⟩
      (ih fun a ha => harea a (List.mem_cons_of_mem _ ha))

/-- A row is cut from left to right. -/
theorem rowX_cut (hh₀ : 0 < hh) (harea : ∀ a ∈ area, 0 < a) :
    Cut ⟨⟨xx, y - hh / 2⟩, ⟨xx + area.sum / hh, y + hh / 2⟩⟩
      ((rowX hh y xx area).map rectangle.box) := by
  induction area generalizing xx with
  | nil => exact Cut.nil _
  | cons a area ih =>
    have ha : 0 < a / hh := div_pos (harea a List.mem_cons_self) hh₀
    have hsum : 0 ≤ area.sum / hh :=
      div_nonneg (List.sum_nonneg fun a ha => (harea a (List.mem_cons_of_mem _ ha)).le) hh₀.le
    have hrest := @ih (xx + a / hh) fun a ha => harea a (List.mem_cons_of_mem _ ha)
    have hend : xx + (a :: area).sum / hh = xx + a / hh + area.sum / hh := by
      rw [List.sum_cons, add_div, add_assoc]
    rw [hend]
    refine @Cut.split _ ⟨⟨xx, y - hh / 2⟩, ⟨xx + a / hh, y + hh / 2⟩⟩ _ _ _ ?_ ?_ ?_
      (Cut.one ?_) hrest
    · exact ⟨le_rfl, le_rfl, by dsimp only; linarith, le_rfl⟩
    · exact ⟨by dsimp only; linarith, le_rfl, le_rfl, le_rfl⟩
    · exact .inl (.inl le_rfl)
    · constructor <;> simp only [rectangle.box] <;> linarith

/-- A row is cut from top to bottom. -/
theorem rowY_cut (ww₀ : 0 < ww) (harea : ∀ a ∈ area, 0 < a) :
    Cut ⟨⟨x - ww / 2, yy - area.sum / ww⟩, ⟨x + ww / 2, yy⟩⟩
      ((rowY ww x yy area).map rectangle.box) := by
  induction area generalizing yy with
  | nil => exact Cut.nil _
  | cons a area ih =>
    have ha : 0 < a / ww := div_pos (harea a List.mem_cons_self) ww₀
    have hsum : 0 ≤ area.sum / ww :=
      div_nonneg (List.sum_nonneg fun a ha => (harea a (List.mem_cons_of_mem _ ha)).le) ww₀.le
    have hrest := @ih (yy - a / ww) fun a ha => harea a (List.mem_cons_of_mem _ ha)
    have hend : yy - (a :: area).sum / ww = yy - a / ww - area.sum / ww := by
      rw [List.sum_cons, add_div, sub_sub]
    rw [hend]
    refine @Cut.split _ ⟨⟨x - ww / 2, yy - a / ww⟩, ⟨x + ww / 2, yy⟩⟩ _ _ _ ?_ ?_ ?_
      (Cut.one ?_) hrest
    · exact ⟨le_rfl, by dsimp only; linarith, le_rfl, le_rfl⟩
    · exact ⟨le_rfl, le_rfl, le_rfl, by dsimp only; linarith⟩
    · exact .inr (.inr le_rfl)
    · constructor <;> simp only [rectangle.box] <;> linarith

/-- Closing a row cuts it off from the rectangle; the rest has the area that is left. -/
theorem fixRow_spec {row rest : List rectangle} {fillrec' : rectangle} (hx : 0 < fillrec.size.x)
    (hy : 0 < fillrec.size.y) (harea : ∀ a ∈ area, 0 < a) (hne : area ≠ [])
    (hle : area.sum ≤ fillrec.size.x * fillrec.size.y)
    (hfix : fixRow area area.sum fillrec = (row, fillrec'))
    (hrest : Cut fillrec'.box (rest.map rectangle.box)) :
    List.Forall₂ HasArea area row ∧ (0 ≤ fillrec'.size.x ∧ 0 ≤ fillrec'.size.y) ∧
      fillrec'.size.x * fillrec'.size.y = fillrec.size.x * fillrec.size.y - area.sum ∧
      Cut fillrec.box ((row ++ rest).map rectangle.box) := by
  have hsum : 0 < area.sum := List.sum_pos _ harea hne
  rw [List.map_append]
  unfold fixRow at hfix
  dsimp only at hfix
  split at hfix
  · next htall =>
    rw [min_eq_left htall, Prod.mk.injEq] at hfix
    obtain ⟨rfl, rfl⟩ := hfix
    have hh0 : 0 < area.sum / fillrec.size.x := div_pos hsum hx
    have hmul : area.sum / fillrec.size.x * fillrec.size.x = area.sum := div_mul_cancel₀ _ hx.ne'
    have hh1 : area.sum / fillrec.size.x ≤ fillrec.size.y := (div_le_iff₀' hx).2 hle
    have hwidth : area.sum / (area.sum / fillrec.size.x) = fillrec.size.x :=
      div_div_cancel₀ hsum.ne'
    refine ⟨rowX_area hh0 harea, ⟨hx.le, sub_nonneg.2 hh1⟩, by dsimp only; linarith, ?_⟩
    refine Cut.split ?_ ?_ ?_ (rowX_cut hh0 harea) hrest
    · constructor <;> simp only [rectangle.box, hwidth] <;> linarith
    · constructor <;> simp only [rectangle.box] <;> linarith
    · refine .inr (.inr ?_)
      simp only [rectangle.box]
      linarith
  · next hshort =>
    rw [min_eq_right (not_le.1 hshort).le, Prod.mk.injEq] at hfix
    obtain ⟨rfl, rfl⟩ := hfix
    have ww0 : 0 < area.sum / fillrec.size.y := div_pos hsum hy
    have hmul : area.sum / fillrec.size.y * fillrec.size.y = area.sum := div_mul_cancel₀ _ hy.ne'
    have ww1 : area.sum / fillrec.size.y ≤ fillrec.size.x := (div_le_iff₀ hy).2 hle
    have hheight : area.sum / (area.sum / fillrec.size.y) = fillrec.size.y :=
      div_div_cancel₀ hsum.ne'
    refine ⟨rowY_area ww0 harea, ⟨sub_nonneg.2 ww1, hy.le⟩, by dsimp only; linarith, ?_⟩
    refine Cut.split ?_ ?_ ?_ (rowY_cut ww0 harea) hrest
    · constructor <;> simp only [rectangle.box, hheight] <;> linarith
    · constructor <;> simp only [rectangle.box] <;> linarith
    · refine .inl (.inl ?_)
      simp only [rectangle.box]
      linarith

/-! ## All rows -/

/-- The rectangles of the items that are left, in what is left of the rectangle. -/
def Filled (area : List ℚ) (fillrec : rectangle) (recs : List rectangle) : Prop :=
  List.Forall₂ HasArea area recs ∧ Cut fillrec.box (recs.map rectangle.box)

theorem size_pos (hx : 0 ≤ fillrec.size.x) (hy : 0 ≤ fillrec.size.y)
    (harea : ∀ a ∈ area, 0 < a) (hne : area ≠ [])
    (hle : area.sum ≤ fillrec.size.x * fillrec.size.y) :
    0 < fillrec.size.x ∧ 0 < fillrec.size.y := by
  have hpos := (List.sum_pos _ harea hne).trans_le hle
  exact ⟨hx.lt_of_ne' (left_ne_zero_of_mul hpos.ne'), hy.lt_of_ne' (right_ne_zero_of_mul hpos.ne')⟩

/-- The row is closed, and the rest of the items is laid out in the rest of the rectangle. -/
theorem fixRow_then (hx : 0 ≤ fillrec.size.x) (hy : 0 ≤ fillrec.size.y)
    (harea : ∀ a ∈ area, 0 < a) (hle : area.sum ≤ fillrec.size.x * fillrec.size.y)
    (hopen : nadded ≠ 0) (hne : area ≠ [])
    (hrest : ∀ fillrec' : rectangle, 0 ≤ fillrec'.size.x → 0 ≤ fillrec'.size.y →
      (area.drop nadded).sum ≤ fillrec'.size.x * fillrec'.size.y →
      ∃ recs, squarify fuel (area.drop nadded) 0 0 0 0 1 fillrec' = .ok recs ∧
        Filled (area.drop nadded) fillrec' recs) :
    ∃ recs, (do
      let (row, fillrec) := fixRow (area.take nadded) (area.take nadded).sum fillrec
      let rest ← squarify fuel (area.drop nadded) 0 0 0 0 1 fillrec
      .ok (row ++ rest) : Except Fault (List rectangle)) = .ok recs ∧
        Filled area fillrec recs := by
  obtain ⟨hx₀, hy₀⟩ := size_pos hx hy harea hne hle
  have hsum : (area.take nadded).sum + (area.drop nadded).sum = area.sum := by
    rw [← List.sum_append, List.take_append_drop]
  have hdrop : 0 ≤ (area.drop nadded).sum :=
    List.sum_nonneg fun a ha => (harea a (List.mem_of_mem_drop ha)).le
  have htake : ∀ a ∈ area.take nadded, 0 < a := fun a ha => harea a (List.mem_of_mem_take ha)
  have htake' : area.take nadded ≠ [] := by
    rw [Ne, List.take_eq_nil_iff, not_or]
    exact ⟨hopen, hne⟩
  cases hfix : fixRow (area.take nadded) (area.take nadded).sum fillrec with
  | mk row fillrec' =>
    have hspec := fun rest => @fixRow_spec _ _ row rest fillrec' hx₀ hy₀ htake htake'
      (by linarith) hfix
    obtain ⟨hrow, ⟨hx', hy'⟩, hleft, _⟩ := hspec [] (Cut.nil _)
    obtain ⟨rest, hrun, harea', hcut⟩ := hrest fillrec' hx' hy' (by linarith)
    refine ⟨row ++ rest, ?_, ?_, (hspec rest hcut).2.2.2⟩
    · dsimp only
      rw [hrun]
      rfl
    · rw [← List.take_append_drop nadded area]
      exact List.rel_append hrow harea'

/-- `squarify` ends, and fills the rectangle with what is left; the first `nadded` items are in the
row that is open. -/
theorem squarify_spec {maxarea minarea asp : ℚ} (hx : 0 ≤ fillrec.size.x)
    (hy : 0 ≤ fillrec.size.y) (harea : ∀ a ∈ area, 0 < a)
    (hle : area.sum ≤ fillrec.size.x * fillrec.size.y) (hnadded : nadded ≤ area.length)
    (hfuel : 2 * area.length + 1 ≤ fuel + nadded) :
    ∃ recs, squarify fuel area nadded maxarea minarea (area.take nadded).sum asp fillrec =
      .ok recs ∧ Filled area fillrec recs := by
  induction fuel generalizing area nadded maxarea minarea asp fillrec with
  | zero => omega
  | succ fuel ih =>
    cases area with
    | nil => exact ⟨[], rfl, List.Forall₂.nil, Cut.nil _⟩
    | cons a area =>
      -- an item is added to the row
      have hadd : ∀ maxarea minarea asp s : ℚ, nadded < (a :: area).length →
          s = ((a :: area).take (nadded + 1)).sum →
          ∃ recs, squarify fuel (a :: area) (nadded + 1) maxarea minarea s asp fillrec =
            .ok recs ∧ Filled (a :: area) fillrec recs := by
        rintro maxarea minarea asp s hlt rfl
        exact ih hx hy harea hle hlt (by omega)
      rw [squarify]
      dsimp only
      split
      · next hzero =>
        subst hzero
        exact hadd a a _ a (Nat.succ_pos _) (by simp)
      · next hopen =>
        have hfix := fixRow_then hx hy harea hle hopen (List.cons_ne_nil a area)
          fun fillrec' hx' hy' hle' => by
            have hpos : ∀ b ∈ (a :: area).drop nadded, 0 < b :=
              fun b hb => harea b (List.mem_of_mem_drop hb)
            have hlen : ((a :: area).drop nadded).length = (a :: area).length - nadded :=
              List.length_drop
            exact ih hx' hy' hpos hle' (Nat.zero_le _) (by omega)
        cases hget : (a :: area)[nadded]? with
        | none => exact hfix
        | some a' =>
          obtain ⟨hlt, hval⟩ := List.getElem?_eq_some_iff.1 hget
          dsimp only
          split
          · refine hadd _ _ _ _ hlt ?_
            rw [List.take_succ_eq_append_getElem hlt, List.sum_append, hval, List.sum_singleton]
          · exact hfix

/-- `tree_map` returns rectangles of the given areas, within the given rectangle and with disjoint
interiors. -/
theorem tree_map_spec (area : List ℚ) (fillrec : rectangle) (hx : 0 ≤ fillrec.size.x)
    (hy : 0 ≤ fillrec.size.y) (harea : ∀ a ∈ area, 0 < a)
    (hle : area.sum ≤ fillrec.size.x * fillrec.size.y) :
    ∃ recs, tree_map area fillrec = .ok (some recs) ∧ List.Forall₂ HasArea area recs ∧
      (∀ r ∈ recs, r.box.Within fillrec.box) ∧
      recs.Pairwise fun r r' => Disjoint r.box.interior r'.box.interior := by
  obtain ⟨recs, hrun, hareas, hcut⟩ := @squarify_spec area fillrec (2 * area.length + 1) 0 0 1 1 hx
    hy harea hle (Nat.zero_le _) le_rfl
  refine ⟨recs, ?_, hareas, fun r hr => hcut.within _ (List.mem_map_of_mem hr), ?_⟩
  · rw [tree_map, if_neg (by linarith)]
    rw [List.take_zero, List.sum_nil] at hrun
    rw [hrun]
    rfl
  · exact (List.pairwise_map.1 hcut.apart).imp boxf.Apart.disjoint

/-- Seven items in a rectangle of width 6 and height 4. -/
theorem tree_map_seven :
    let area : List ℚ := [6, 6, 4, 3, 2, 2, 1]
    let fillrec : rectangle := ⟨⟨0, 0⟩, ⟨6, 4⟩⟩
    ∃ recs, tree_map area fillrec = .ok (some recs) ∧ List.Forall₂ HasArea area recs ∧
      (∀ r ∈ recs, r.box.Within fillrec.box) ∧
      recs.Pairwise fun r r' => Disjoint r.box.interior r'.box.interior :=
  tree_map_spec _ _ (by decide +kernel) (by decide +kernel) (by decide +kernel) (by decide +kernel)

end Graphviz.TreeMap
