import Graphviz.Library.Instances
import Graphviz.Library.RelGraph
import Graphviz.Vpsc.ScanLine

/-!
# Rectangles without overlaps

The constraints of the vertical pass order the rectangles without a cycle, and keep apart those
that share a stretch of the horizontal axis: their nodes are open together after the later of the
two opens. With the boxes of `removeoverlaps` no two rectangles overlap afterwards.
-/

namespace Graphviz.Vpsc

open List Outcome

variable {n : ℕ} {rs : Fin n → Rectangle} {addr : Fin n ↪ ℕ} {es : List (Event n)}

/-- Rectangles with width and height. -/
def Proper (rs : Fin n → Rectangle) : Prop :=
  ∀ i, 0 < (rs i).width ∧ 0 < (rs i).height

/-- The horizontal intervals of two rectangles overlap in their interior. -/
def OverlapX (r s : Rectangle) : Prop :=
  r.minX < s.maxX ∧ s.minX < r.maxX

/-- The interiors of two boxes overlap. -/
def boxf.Overlap (a b : boxf) : Prop :=
  (a.LLx < b.URx ∧ b.LLx < a.URx) ∧ a.LLy < b.URy ∧ b.LLy < a.URy

/-- The graph of the constraints. -/
def Precedes (cs : List (Constraint n)) (u v : Fin n) : Prop :=
  ∃ c ∈ cs, c.left = u ∧ c.right = v

/-! ## Order -/

/-- Constraints that follow an order of the nodes close no cycle. -/
theorem acyclic_of_ordered {cs : List (Constraint n)}
    (h : ∀ c ∈ cs, CmpNodePos rs addr c.left c.right = .lt) : RelGraph.Acyclic (Precedes cs) := by
  have hpath : ∀ u v, Relation.TransGen (Precedes cs) u v → CmpNodePos rs addr u v = .lt := by
    intro u v huv
    induction huv with
    | single hab =>
      obtain ⟨c, hc, rfl, rfl⟩ := hab
      exact h c hc
    | tail _ hbc ih =>
      obtain ⟨c, hc, rfl, rfl⟩ := hbc
      exact Std.TransCmp.lt_trans ih (h c hc)
  intro u hu
  have hlt := hpath u u hu
  rw [cmpNodePos_eq.2 rfl] at hlt
  cases hlt

/-! ## Nodes that are open together -/

/-- When the later of two overlapping rectangles opens, both are open. -/
theorem both_open (h : Sorts (events rs) es) {A B : List (Event n)} {i j : Fin n}
    (hes : es = A ++ opens rs j :: B) (hi : opens rs i ∈ A) (hij : i ≠ j)
    (hov : (rs j).minX < (rs i).maxX) : ∀ k, k = i ∨ k = j → opens rs k ∉ B ∧ closes rs k ∈ B := by
  have hsched := h.schedule
  have hsorted := h.sorted
  have hnodup := hsched.nodup
  have horder := hsched.order
  have hcloses : ∀ k, closes rs k ∈ es := fun k => hsched.closed k (h.mem_opens k)
  rw [hes] at hsorted hnodup horder hcloses
  obtain ⟨_, hB, hdisj⟩ := nodup_append.1 hnodup
  have hbefore := fun e he => (pairwise_append.1 hsorted).2.2 e he _ mem_cons_self
  have hlate : ∀ k, closes rs k ∉ A → closes rs k ∈ B := fun k hk =>
    (mem_cons.1 ((mem_append.1 (hcloses k)).resolve_left hk)).resolve_left
      opens_ne_closes.symm
  rintro k (rfl | rfl)
  · refine ⟨fun hk => hdisj _ hi _ (mem_cons_of_mem _ hk) rfl, hlate k fun hk => ?_⟩
    have hcmp := hbefore _ hk
    simp [compare_events, opens, closes, hij.symm, hov] at hcmp
    exact absurd hcmp hov.le.not_gt
  · refine ⟨(nodup_cons.1 hB).1, hlate k fun hk => ?_⟩
    exact (pairwise_append.1 horder).2.2 _ hk _ mem_cons_self ⟨k, rfl, rfl⟩

/-- Two overlapping rectangles are open together at some time. -/
theorem open_together (h : Sorts (events rs) es) {i j : Fin n} (hij : i ≠ j)
    (hov : OverlapX (rs i) (rs j)) : ∃ pre post, es = pre ++ post ∧
      ∀ k, k = i ∨ k = j → opens rs k ∉ post ∧ closes rs k ∈ post := by
  obtain ⟨A, B, hAB⟩ := append_of_mem (h.mem_opens i)
  have hj := h.mem_opens j
  rw [hAB, mem_append] at hj
  obtain hj | hj := hj
  · refine ⟨A ++ [opens rs i], B, by rw [hAB]; simp, fun k hk => ?_⟩
    exact both_open h hAB hj hij.symm hov.1 k hk.symm
  · have hj := (mem_cons.1 hj).resolve_left fun hji => hij (opens_inj.1 hji).symm
    obtain ⟨C, D, rfl⟩ := append_of_mem hj
    refine ⟨A ++ opens rs i :: (C ++ [opens rs j]), D, by rw [hAB]; simp, ?_⟩
    exact both_open h (A := A ++ opens rs i :: C) (by rw [hAB]; simp) (by simp) hij hov.2

theorem halfHeights_comm (rs : Fin n → Rectangle) (i j : Fin n) :
    halfHeights rs i j = halfHeights rs j i := by
  rw [halfHeights, halfHeights, add_comm]

/-- Positions that satisfy the constraints keep overlapping rectangles apart. -/
theorem scan_separates (hes : Sorts (events rs) es) (hheight : ∀ i, 0 ≤ (rs i).height)
    {y : Fin n → ℚ} (hy : Satisfies y (scan rs addr es .init).constraints) {i j : Fin n}
    (hij : i ≠ j) (hov : OverlapX (rs i) (rs j)) : halfHeights rs i j ≤ |y i - y j| := by
  obtain ⟨pre, post, rfl, hopen⟩ := open_together hes hij hov
  obtain ⟨hinv, hpost⟩ := (@ScanInv.init n rs addr _ hes.mem_opens).run hes.schedule
  have hrun : scan rs addr (pre ++ post) .init = scan rs addr post (scan rs addr pre .init) :=
    foldl_append
  rw [hrun] at hy
  have hapart := hinv.apart hpost hheight hy
  have hi := (hinv.mem i).2 (hopen i (Or.inl rfl))
  have hj := (hinv.mem j).2 (hopen j (Or.inr rfl))
  cases hcmp : CmpNodePos rs addr i j with
  | lt =>
    rw [abs_sub_comm]
    exact (hapart i hi j hj hcmp).trans (le_abs_self _)
  | eq => exact absurd (cmpNodePos_eq.1 hcmp) hij
  | gt =>
    rw [halfHeights_comm]
    exact (hapart j hj i hi (cmpNodePos_gt.1 hcmp)).trans (le_abs_self _)

/-! ## The vertical pass -/

/-- The constraints are made unless a rectangle is too wide for the assertion of `Node`. -/
theorem generateYConstraints_spec (hpos : Proper rs) (hes : Sorts (events rs) es) :
    Meets (generateYConstraints rs addr es)
      (fun r => RelGraph.Acyclic (Precedes r.2) ∧ ∀ y, Satisfies y r.2 →
        ∀ i j, i ≠ j → OverlapX (rs i) (rs j) → halfHeights rs i j ≤ |y i - y j|)
      (fun f => f = .assertion ∧ ∃ i, 10 ^ 40 ≤ (rs i).width) := by
  rw [generateYConstraints, assert]
  split
  next =>
    have hinv := (@ScanInv.init n rs addr _ hes.mem_opens).run_all hes.schedule
    exact ⟨acyclic_of_ordered hinv.ordered, fun y hy i j hij hov =>
      scan_separates hes (fun i => (hpos i).2.le) hy hij hov⟩
  next hwide =>
    obtain ⟨i, hi⟩ := not_forall.1 hwide
    exact ⟨rfl, i, not_lt.1 hi⟩

/-- After the second pass of `removeoverlaps` no two boxes overlap. -/
theorem removeoverlapsY_spec {opt : ipsep_options n} {coords coords' : (Fin n → ℚ) × (Fin n → ℚ)}
    (hsize : ∀ i, 0 < opt.nsizex i + opt.gapx ∧ 0 < opt.nsizey i + opt.gapy)
    (h : removeoverlapsY opt addr coords coords') {i j : Fin n} (hij : i ≠ j) :
    ¬ (nodeBox opt coords' i).Overlap (nodeBox opt coords' j) := by
  obtain ⟨rs, es, r, hrs, hes, hr, hy, hx⟩ := h
  rw [boxRects] at hrs
  split at hrs
  next hbox =>
    obtain rfl := Except.ok.inj hrs
    have hpos : Proper fun i => (⟨(nodeBox opt coords i).LLx, (nodeBox opt coords i).URx,
        (nodeBox opt coords i).LLy, (nodeBox opt coords i).URy, (hbox i).1, (hbox i).2⟩ :
        Rectangle) := by
      intro k
      have hk := hsize k
      simp only [Rectangle.width, Rectangle.height, nodeBox]
      constructor <;> linarith
    have hsep := ((generateYConstraints_spec hpos hes).of_ok hr).2 coords'.2 hy i j hij
    rintro ⟨⟨hxi, hxj⟩, hyi, hyj⟩
    simp only [nodeBox, hx] at hxi hxj hyi hyj
    have hsep := hsep ⟨by simp only [nodeBox]; linarith, by simp only [nodeBox]; linarith⟩
    simp only [halfHeights, Rectangle.height, nodeBox] at hsep
    obtain ⟨habs, _⟩ | ⟨habs, _⟩ := abs_cases (coords'.2 i - coords'.2 j)
    · rw [habs] at hsep; linarith
    · rw [habs] at hsep; linarith
  next => cases hrs

/-- For all rectangles with width and height: the constraints close no cycle, and positions that
satisfy them keep apart the rectangles that overlap horizontally; and after the second pass of
`removeoverlaps` no two boxes overlap. -/
theorem overlap_constraints_sound (addr : Fin n ↪ ℕ) :
    (∀ rs es, Proper rs → Sorts (events rs) es → Meets (generateYConstraints rs addr es)
      (fun r => RelGraph.Acyclic (Precedes r.2) ∧ ∀ y, Satisfies y r.2 →
        ∀ i j, i ≠ j → OverlapX (rs i) (rs j) →
          ((rs i).height + (rs j).height) / 2 ≤ |y i - y j|)
      (fun f => f = .assertion ∧ ∃ i, 10 ^ 40 ≤ (rs i).width)) ∧
    ∀ opt coords coords', (∀ i, 0 < opt.nsizex i + opt.gapx ∧ 0 < opt.nsizey i + opt.gapy) →
      removeoverlapsY opt addr coords coords' → ∀ i j, i ≠ j →
        ¬ (nodeBox opt coords' i).Overlap (nodeBox opt coords' j) :=
  ⟨fun _ _ hpos hes => generateYConstraints_spec hpos hes,
    fun _ _ _ hsize h _ _ hij => removeoverlapsY_spec hsize h hij⟩

attribute [local instance] Instances.neZero_two

/-- Two squares that overlap in a corner. -/
def squares (i : Fin 2) : Rectangle :=
  if i = 0 then ⟨0, 2, 0, 2, by decide, by decide⟩ else ⟨1, 3, 1, 3, by decide, by decide⟩

theorem overlap_constraints_squares : ∀ y, Satisfies y [(⟨0, 1, 2⟩ : Constraint 2)] →
    2 ≤ |y 0 - y 1| := by
  have hpos : Proper squares := by unfold Proper; decide +kernel
  have hes : Sorts (events squares) [opens squares 0, opens squares 1, closes squares 0,
      closes squares 1] := ⟨by decide, by decide⟩
  have hscan : (scan squares Fin.valEmbedding [opens squares 0, opens squares 1, closes squares 0,
      closes squares 1] .init).constraints = [(⟨0, 1, 2⟩ : Constraint 2)] := by decide +kernel
  intro y hy
  rw [← hscan] at hy
  have hrun := (overlap_constraints_sound Fin.valEmbedding).1 squares _ hpos hes
  rw [generateYConstraints, assert, if_pos (by decide +kernel)] at hrun
  have hsep := hrun.2 y hy 0 1 (by decide) (by unfold OverlapX; decide)
  exact (by decide +kernel : (2 : ℚ) ≤ ((squares 0).height + (squares 1).height) / 2).trans hsep

end Graphviz.Vpsc
