import Graphviz.Pack.Pack

/-!
# Packing separates the parts

`placeGraph` ends, since far enough below or left of the origin no cell of a part is taken. The
loop over the parts keeps their moved cells disjoint, so that the parts covered by these cells do
not overlap.
-/

namespace Graphviz.Pack

open Function List Nat Outcome

variable {ng : ℕ}

/-! ## The step of the grid -/

/-- For boxes with their corners in order the step is positive. -/
theorem computeStep_pos {bbs : Fin ng → boxf} (hng : 0 < ng) (hbbs : ∀ i, (bbs i).Ordered)
    (margin : UInt32) : ∃ step, computeStep bbs margin = .ok step ∧ 0 < step := by
  have hsize : ∀ i, 0 ≤ (marginSize (bbs i) margin).1 ∧ 0 ≤ (marginSize (bbs i) margin).2 := by
    intro i
    have hx := (hbbs i).x
    have hy := (hbbs i).y
    have hm : (0 : ℚ) ≤ (2 * margin).toNat := cast_nonneg _
    constructor <;> simp only [marginSize] <;> linarith
  have hfold : ∀ f : ℚ × ℚ → Fin ng → ℚ × ℚ,
      (∀ s i, (f s i).2 = s.2 - (marginSize (bbs i) margin).1 * (marginSize (bbs i) margin).2) →
      ∀ (l : List (Fin ng)) (s : ℚ × ℚ), s.2 ≤ 0 → (l.foldl f s).2 ≤ 0 := by
    intro f hf l
    induction l with
    | nil => exact fun s hs => hs
    | cons i l ih =>
      intro s hs
      refine ih _ ?_
      have := mul_nonneg (hsize i).1 (hsize i).2
      rw [hf]
      linarith
  unfold computeStep
  split
  next b c heq =>
  have hc0 : ((b, c) : ℚ × ℚ).2 ≤ 0 := by
    rw [← heq]
    exact hfold _ (fun _ _ => rfl) _ _ le_rfl
  have ha : 0 < C * ng - 1 := by
    have : (1 : ℚ) ≤ ng := by exact_mod_cast hng
    rw [C]
    linarith
  have hd : b * b - 4 * (C * ng - 1) * c ≥ 0 := by
    have := mul_self_nonneg b
    have := mul_nonneg ha.le (neg_nonneg.2 hc0)
    linarith
  simp only [assert, if_pos hd, ok_bind]
  refine ⟨_, rfl, ?_⟩
  split <;> omega

/-! ## A place is found -/

theorem mem_upto_self {s e : ℤ} (h : s < e) : s ∈ upto s e := by
  have hpos : 0 < (e - s).toNat := by omega
  rw [upto, mem_map]
  exact ⟨0, mem_range.2 hpos, by simp⟩

theorem mem_downto_self {s e : ℤ} (h : e < s) : s ∈ downto s e := by
  have hpos : 0 < (s - e).toNat := by omega
  rw [downto, mem_map]
  exact ⟨0, mem_range.2 hpos, by simp⟩

/-- The search over the rings ends when some ring has a point that fits, and returns such a
point. -/
theorem searchRings_ends {α : Type} {ring : ℤ → List (ℤ × ℤ)} {fit : ℤ × ℤ → Option α} {bnd : ℤ}
    {k : ℕ} {p : ℤ × ℤ} (hp : p ∈ ring (bnd + k)) (hfit : (fit p).isSome) :
    Outcome.Ends (fun fuel => searchRings ring fit fuel bnd) fun r => ∃ p, fit p = some r := by
  induction k generalizing bnd with
  | zero =>
    have hsome : ((ring bnd).findSome? fit).isSome := by
      rw [findSome?_isSome_iff]
      exact ⟨p, by simpa using hp, hfit⟩
    obtain ⟨r, hr⟩ := Option.isSome_iff_exists.1 hsome
    obtain ⟨_, q, _, _, hq, _⟩ := findSome?_eq_some_iff.1 hr
    refine ⟨r, ⟨q, hq⟩, 1, fun fuel hfuel => ?_⟩
    obtain ⟨f, rfl⟩ : ∃ f, fuel = f + 1 := ⟨fuel - 1, by omega⟩
    simp only [searchRings, hr]
  | succ k ih =>
    cases hr : (ring bnd).findSome? fit with
    | some r =>
      obtain ⟨_, q, _, _, hq, _⟩ := findSome?_eq_some_iff.1 hr
      refine ⟨r, ⟨q, hq⟩, 1, fun fuel hfuel => ?_⟩
      obtain ⟨f, rfl⟩ : ∃ f, fuel = f + 1 := ⟨fuel - 1, by omega⟩
      simp only [searchRings, hr]
    | none =>
      have hp' : p ∈ ring (bnd + 1 + k) := by
        rwa [show bnd + 1 + (k : ℤ) = bnd + (k + 1 : ℕ) by push_cast; ring]
      obtain ⟨r, hr', N, hN⟩ := ih hp'
      refine ⟨r, hr', N + 1, fun fuel hfuel => ?_⟩
      obtain ⟨f, rfl⟩ : ∃ f, fuel = f + 1 := ⟨fuel - 1, by omega⟩
      have hrest : searchRings ring fit f (bnd + 1) = .ok r := hN f (by omega)
      simp only [searchRings, hr, hrest]

/-- The coordinates of finitely many cells are bounded. -/
theorem exists_bound (cells : PointSet) : ∃ B : ℕ, ∀ c ∈ cells, |c.1| ≤ B ∧ |c.2| ≤ B := by
  obtain ⟨M, hM⟩ := (cells.image fun c => max c.1.natAbs c.2.natAbs).exists_le
  refine ⟨M, fun c hc => ?_⟩
  have hc : max c.1.natAbs c.2.natAbs ≤ M := hM _ (Finset.mem_image_of_mem _ hc)
  rw [Int.abs_eq_natAbs, Int.abs_eq_natAbs]
  omega

/-- What `fits` finds: free cells, which it takes, and the corner of the part. -/
theorem fits_eq_some {p : ℤ × ℤ} {info : ginfo ng} {ps : PointSet} {step : ℤ}
    {bbs : Fin ng → boxf} {r : PointSet × pointf} : fits p info ps step bbs = some r ↔
      Disjoint (shift p info.cells) ps ∧
        r = (ps ∪ shift p info.cells, cornerAt step (bbs info.index) p) := by
  unfold fits
  split
  · rename_i h
    obtain ⟨c, hc, hps⟩ := h
    constructor
    · intro h
      cases h
    · intro h
      exact absurd hps (Finset.disjoint_left.1 h.1 hc)
  · rename_i h
    have hfree : Disjoint (shift p info.cells) ps :=
      Finset.disjoint_left.2 fun c hc hps => h ⟨c, hc, hps⟩
    rw [Option.some.injEq, eq_comm, and_iff_right hfree]

/-- A part fits at a point far enough from the origin in one coordinate. -/
theorem fits_far (info : ginfo ng) (ps : PointSet) (step : ℤ) (bbs : Fin ng → boxf) :
    ∃ k : ℕ, (fits (0, -(1 + k : ℤ)) info ps step bbs).isSome ∧
      (fits (-(1 + k : ℤ), 0) info ps step bbs).isSome := by
  obtain ⟨B, hB⟩ := exists_bound info.cells
  obtain ⟨B', hB'⟩ := exists_bound ps
  have hfar : ∀ p : ℤ × ℤ, p.1 < -(B + B' : ℤ) ∨ p.2 < -(B + B' : ℤ) →
      (fits p info ps step bbs).isSome := by
    intro p hp
    refine Option.isSome_iff_exists.2 ⟨_, fits_eq_some.2 ⟨?_, rfl⟩⟩
    refine Finset.disjoint_left.2 fun c hc hps => ?_
    have h1 := hB _ (mem_shift.1 hc)
    have h2 := hB' _ hps
    simp only [Prod.fst_sub, Prod.snd_sub, abs_le] at h1 h2
    omega
  exact ⟨B + B', hfar _ (.inr (by push_cast; omega)), hfar _ (.inl (by push_cast; omega))⟩

/-- `placeGraph` ends and has placed the part where it fits. -/
theorem placeGraph_ends (i : ℕ) (info : ginfo ng) (ps : PointSet) (step : ℤ) (margin : UInt32)
    (bbs : Fin ng → boxf) :
    Outcome.Ends (fun fuel => placeGraph fuel i info ps step margin bbs)
      fun r => ∃ p, fits p info ps step bbs = some r := by
  unfold placeGraph
  extract_lets bb fit W H first
  cases hfirst : first with
  | some r =>
    refine Outcome.Ends.ok ?_
    unfold first at hfirst
    split at hfirst
    · exact ⟨_, hfirst⟩
    · cases hfirst
  | none =>
    cases hzero : fit (0, 0) with
    | some r => exact Outcome.Ends.ok ⟨_, hzero⟩
    | none =>
      obtain ⟨k, hdown, hleft⟩ := fits_far info ps step bbs
      dsimp only
      split
      · refine searchRings_ends (k := k) (p := (0, -(1 + k : ℤ))) ?_ hdown
        simp only [ringWide, mem_append, mem_map]
        exact .inl (.inl (.inl (.inl ⟨0, mem_upto_self (by omega), rfl⟩)))
      · refine searchRings_ends (k := k) (p := (-(1 + k : ℤ), 0)) ?_ hleft
        simp only [ringTall, mem_append, mem_map]
        exact .inl (.inl (.inl (.inl ⟨0, mem_downto_self (by omega), rfl⟩)))

/-! ## The loop over the parts -/

/-- The parts placed so far: each is where its cells are moved to, its cells are taken, and no
cell is taken twice. -/
structure Placed (step : ℤ) (bbs : Fin ng → boxf) (off : Fin ng → ℤ × ℤ) (done : List (ginfo ng))
    (s : PointSet × (Fin ng → pointf)) : Prop where
  taken : ∀ a ∈ done, shift (off a.index) a.cells ⊆ s.1
  place : ∀ a ∈ done, s.2 a.index = cornerAt step (bbs a.index) (off a.index)
  disjoint : done.Pairwise fun a b => Disjoint (shift (off a.index) a.cells)
    (shift (off b.index) b.cells)

/-- Placing a further part where it fits. -/
theorem Placed.append {step : ℤ} {bbs : Fin ng → boxf} {off : Fin ng → ℤ × ℤ}
    {done : List (ginfo ng)} {s : PointSet × (Fin ng → pointf)} (h : Placed step bbs off done s)
    {info : ginfo ng} (hnew : ∀ a ∈ done, a.index ≠ info.index) {p : ℤ × ℤ}
    (hfree : Disjoint (shift p info.cells) s.1) :
    Placed step bbs (Function.update off info.index p) (done ++ [info])
      (s.1 ∪ shift p info.cells,
        Function.update s.2 info.index (cornerAt step (bbs info.index) p)) := by
  have hold : ∀ a ∈ done, Function.update off info.index p a.index = off a.index :=
    fun a ha => update_of_ne (hnew a ha) _ _
  constructor
  · intro a ha
    obtain ha | ha := mem_append.1 ha
    · rw [hold a ha]
      exact (h.taken a ha).trans Finset.subset_union_left
    · rw [mem_singleton.1 ha, update_self]
      exact Finset.subset_union_right
  · intro a ha
    obtain ha | ha := mem_append.1 ha
    · rw [hold a ha]
      exact (update_of_ne (hnew a ha) _ _).trans (h.place a ha)
    · rw [mem_singleton.1 ha]
      simp only [update_self]
  · refine pairwise_append.2 ⟨?_, pairwise_singleton _ _, fun a ha b hb => ?_⟩
    · refine h.disjoint.imp_of_mem fun {a b} ha hb hab => ?_
      rwa [hold a ha, hold b hb]
    · rw [mem_singleton.1 hb, hold a ha, update_self]
      exact (hfree.mono_right (h.taken a ha)).symm

/-- The loop ends with every part placed, whatever the order of the parts. -/
theorem placeGraphs_ends {sinfo : List (ginfo ng)} (hnodup : (sinfo.map ginfo.index).Nodup)
    (step : ℤ) (margin : UInt32) (bbs : Fin ng → boxf) :
    Outcome.Ends (fun fuel => placeGraphs fuel sinfo step margin bbs)
      fun s => ∃ off, Placed step bbs off sinfo s := by
  unfold placeGraphs
  refine Outcome.Ends.imp (Outcome.Ends.foldlM
    (I := fun done s => ∃ off, Placed step bbs off (done.map Prod.fst) s)
    ?_ ⟨fun _ => 0, ?_⟩) fun s hs => ?_
  · rintro done ⟨info, i⟩ todo s hl ⟨off, hoff⟩
    refine (placeGraph_ends i info s.1 step margin bbs).bind fun r hr => Outcome.Ends.ok ?_
    obtain ⟨p, hp⟩ := hr
    obtain ⟨hfree, rfl⟩ := fits_eq_some.1 hp
    have hsplit : sinfo = done.map Prod.fst ++ info :: todo.map Prod.fst := by
      rw [← zipIdx_map_fst 0 sinfo, hl]
      simp
    have hnew : ∀ a ∈ done.map Prod.fst, a.index ≠ info.index := by
      intro a ha heq
      rw [hsplit, map_append, map_cons] at hnodup
      exact (nodup_append.1 hnodup).2.2 _ (mem_map_of_mem ha) _ mem_cons_self heq
    refine ⟨Function.update off info.index p, ?_⟩
    rw [map_append]
    exact hoff.append hnew hfree
  · constructor <;> simp
  · rwa [zipIdx_map_fst] at hs

/-- The sorted parts are placed with disjoint cells. -/
theorem placed_parts (qsort : Qsort (@cmpf ng)) {info : Fin ng → ginfo ng}
    (hindex : ∀ i, (info i).index = i) (step : ℤ) (margin : UInt32) (bbs : Fin ng → boxf) :
    Outcome.Ends (fun fuel => placeGraphs fuel (qsort.run (ofFn info)) step margin bbs)
      fun s => ∃ off : Fin ng → ℤ × ℤ, (∀ i, s.2 i = cornerAt step (bbs i) (off i)) ∧
        ∀ i j, i ≠ j → Disjoint (shift (off i) (info i).cells) (shift (off j) (info j).cells) := by
  have hperm := qsort.perm (ofFn info)
  have hmem : ∀ i, info i ∈ qsort.run (ofFn info) :=
    fun i => hperm.mem_iff.2 (mem_ofFn.2 ⟨i, rfl⟩)
  have hnodup : ((qsort.run (ofFn info)).map ginfo.index).Nodup := by
    rw [(hperm.map ginfo.index).nodup_iff, map_ofFn, nodup_ofFn]
    intro i j hij
    simpa [hindex] using hij
  refine (placeGraphs_ends hnodup step margin bbs).imp fun s hs => ?_
  obtain ⟨off, hoff⟩ := hs
  refine ⟨off, fun i => ?_, fun i j hij => ?_⟩
  · have := hoff.place _ (hmem i)
    rwa [hindex i] at this
  · have hne : info i ≠ info j := fun h => hij (by rw [← hindex i, h, hindex j])
    have hsymm : Std.Symm fun a b : ginfo ng => Disjoint (shift (off a.index) a.cells)
        (shift (off b.index) b.cells) := ⟨fun _ _ h => h.symm⟩
    have := hoff.disjoint.forall (hmem i) (hmem j) hne
    rwa [hindex i, hindex j] at this

/-! ## The boxes that the cells cover -/

/-- `genBox` covers the bounding box with its margin. -/
theorem genBox_covers {bb : boxf} (h : bb.IntBox) (margin : UInt32) :
    Covers (genBoxCorners bb margin ⟨0, 0⟩) := by
  have hm : (0 : ℚ) ≤ margin.toNat := cast_nonneg _
  have hx := h.x
  have hy := h.y
  constructor <;>
    simp only [genBoxCorners, h.llx.cround_eq, h.lly.cround_eq, h.urx.cround_eq,
      h.ury.cround_eq] <;> linarith

theorem genBox_moved {bb : boxf} (h : bb.IntBox) (margin : UInt32) (step : ℤ) (p : ℤ × ℤ) :
    moved (genBoxCorners bb margin ⟨0, 0⟩) step p =
      (bb.translate (cornerAt step bb p)).grow margin.toNat := by
  simp only [genBoxCorners, moved, boxf.translate, boxf.grow, cornerAt, add_pointf,
    h.llx.cround_eq, h.lly.cround_eq, h.urx.cround_eq, h.ury.cround_eq, boxf.mk.injEq,
    pointf.mk.injEq]
  refine ⟨⟨?_, ?_⟩, ?_, ?_⟩ <;> ring

/-- One coordinate of a node: the rounded centre and size cover it with its margin, and its upper
end is not below the lower end of a box that the node lies in. -/
theorem genNode_coord {c size l : ℚ} (m : ℕ) (hlow : IsInt (c - size / 2))
    (hhigh : IsInt (c + size / 2)) (hsize : c - size / 2 ≤ c + size / 2) (hl : l ≤ c - size / 2) :
    cround c - cround (m + size / 2) ≤ c - size / 2 - m ∧
      c + size / 2 + m ≤ cround c + cround (m + size / 2) ∧
      0 ≤ cround (m + size / 2) ∧ cround l ≤ cround c := by
  have hm : (0 : ℚ) ≤ m := cast_nonneg m
  have hpos : 0 ≤ m + size / 2 := by linarith
  have habs := abs_le.1 (abs_cround_sub_le hlow hhigh ⟨m, by simp⟩ hpos)
  refine ⟨by linarith [habs.2], by linarith [habs.1], cround_nonneg hpos, ?_⟩
  exact cround_mono (by linarith)

variable {g : Agraph} {n : Agnode}

/-- `genPoly` covers the box of a node with its margin. -/
theorem genNode_covers (h : (nodeBox n).IntBox) (hin : (nodeBox n).Within g.bb)
    (margin : UInt32) (step : ℤ) (p : ℤ × ℤ) :
    Covers (genNodeCorners n margin (-cround g.bb.LL.x) (-cround g.bb.LL.y)) ∧
      (((nodeBox n).translate (cornerAt step g.bb p)).grow margin.toNat).Within
        (moved (genNodeCorners n margin (-cround g.bb.LL.x) (-cround g.bb.LL.y)) step p) := by
  obtain ⟨hx1, hx2, hx3, hx4⟩ := genNode_coord margin.toNat h.llx h.urx h.x hin.llx
  obtain ⟨hy1, hy2, hy3, hy4⟩ := genNode_coord margin.toNat h.lly h.ury h.y hin.lly
  have hx3' : (0 : ℚ) ≤ cround (margin.toNat + ND_xsize n / 2) := by exact_mod_cast hx3
  have hy3' : (0 : ℚ) ≤ cround (margin.toNat + ND_ysize n / 2) := by exact_mod_cast hy3
  have hx4' : (cround g.bb.LL.x : ℚ) ≤ cround (coord n).x := by exact_mod_cast hx4
  have hy4' : (cround g.bb.LL.y : ℚ) ≤ cround (coord n).y := by exact_mod_cast hy4
  constructor
  · constructor <;>
      simp only [genNodeCorners, movedNode, sub_pointf, add_pointf] <;> linarith
  · constructor <;>
      simp only [genNodeCorners, movedNode, sub_pointf, add_pointf, moved, boxf.translate,
        boxf.grow, cornerAt, nodeBox] <;> linarith

/-! ## Lines only add cells -/

theorem subset_foldl {α : Type} {f : PointSet → α → PointSet} (hf : ∀ ps x, ps ⊆ f ps x)
    (l : List α) (ps : PointSet) : ps ⊆ l.foldl f ps := by
  induction l generalizing ps with
  | nil => exact subset_rfl
  | cons x l ih => exact (hf ps x).trans (ih (f ps x))

theorem subset_fillDominant {add : PointSet → ℤ → ℤ → PointSet} (hadd : ∀ ps x y, ps ⊆ add ps x y)
    (ax ay sx sy : ℤ) (k : ℕ) (d x y : ℤ) (ps : PointSet) :
    ps ⊆ fillDominant add ax ay sx sy k d x y ps := by
  induction k generalizing d x y ps with
  | zero => exact hadd ps x y
  | succ k ih =>
    unfold fillDominant
    dsimp only
    split
    · exact (hadd ps x y).trans (ih ..)
    · exact (hadd ps x y).trans (ih ..)

theorem subset_fillLine (p q : pointf) (ps : PointSet) : ps ⊆ fillLine p q ps := by
  unfold fillLine
  dsimp only
  split
  · exact subset_fillDominant (fun ps x y => Finset.subset_insert (x, y) ps) ..
  · exact subset_fillDominant (fun ps y x => Finset.subset_insert (x, y) ps) ..

theorem subset_fillPolyline (l : List pointf) (ps : PointSet) : ps ⊆ fillPolyline l ps := by
  fun_induction fillPolyline l ps with
  | case1 pt hpt l ps ih => exact (subset_fillLine pt hpt ps).trans ih
  | case2 => exact subset_rfl

theorem subset_fillEdge (e : Agedge) (p : pointf) (ps : PointSet) (dx dy : ℚ) (ssize : ℤ)
    (doS : Bool) : ps ⊆ fillEdge e p ps dx dy ssize doS := by
  unfold fillEdge
  split
  · exact subset_foldl (fun ps bz => subset_fillPolyline _ ps) _ ps
  · exact subset_fillLine ..

/-- A node adds the cells of its box to those that are there. -/
theorem subset_genNode (eg : Agnode → List Agedge) (ssize : ℤ) (pinfo : pack_info) (dx dy : ℚ)
    (ps : PointSet) (n : Agnode) :
    ps ∪ boxCells (genNodeCorners n pinfo.margin dx dy).LL (genNodeCorners n pinfo.margin dx dy).UR
      ssize ⊆ genNode eg ssize pinfo dx dy ps n :=
  subset_foldl (fun ps e => subset_fillEdge e _ ps dx dy ssize pinfo.doSplines) _ _

/-- The cells of a part contain those of the boxes of its nodes. -/
theorem boxCells_subset_genPoly (root : Option (Agnode → List Agedge)) (hn : n ∈ g.nodes)
    (index : Fin ng) (ssize : ℤ) (pinfo : pack_info) :
    boxCells (genNodeCorners n pinfo.margin (-cround g.bb.LL.x) (-cround g.bb.LL.y)).LL
      (genNodeCorners n pinfo.margin (-cround g.bb.LL.x) (-cround g.bb.LL.y)).UR ssize ⊆
      (genPoly root g index ssize pinfo ⟨0, 0⟩).cells := by
  obtain ⟨A, B, hAB⟩ := append_of_mem hn
  simp only [genPoly, zero_sub, hAB, foldl_append, foldl_cons]
  refine (Finset.subset_union_right.trans (subset_genNode ..)).trans (subset_foldl ?_ B _)
  exact fun ps m => Finset.subset_union_left.trans (subset_genNode ..)

/-! ## Packing -/

/-- After packing parts do not overlap: their bounding boxes with their margins, or the boxes of
the nodes of different parts with theirs. -/
def Separated (pinfo : pack_info) (gs : Fin ng → Agraph) (places : Fin ng → pointf) : Prop :=
  ∀ i j, i ≠ j → match pinfo.mode with
    | .l_graph => Disjoint
        (((compute_bb (gs i)).translate (places i)).grow pinfo.margin.toNat).interior
        (((compute_bb (gs j)).translate (places j)).grow pinfo.margin.toNat).interior
    | .l_node => ∀ n ∈ (gs i).nodes, ∀ m ∈ (gs j).nodes, Disjoint
        (((nodeBox n).translate (places i)).grow pinfo.margin.toNat).interior
        (((nodeBox m).translate (places j)).grow pinfo.margin.toNat).interior

/-- `polyRects` ends and separates the boxes. -/
theorem polyRects_ends (qsort : Qsort (@cmpf ng)) (pinfo : pack_info) (hng : 0 < ng)
    {gs : Fin ng → boxf} (hgs : ∀ i, (gs i).IntBox) :
    Outcome.Ends (fun fuel => polyRects qsort fuel gs pinfo) fun r => ∃ places, r = some places ∧
      ∀ i j, i ≠ j → Disjoint (((gs i).translate (places i)).grow pinfo.margin.toNat).interior
        (((gs j).translate (places j)).grow pinfo.margin.toNat).interior := by
  obtain ⟨step, hstep, hpos⟩ := computeStep_pos hng (fun i => (hgs i).toOrdered) pinfo.margin
  have hnot : ¬ step ≤ 0 := by omega
  simp only [polyRects, hstep, ok_bind, if_neg hnot]
  refine (placed_parts qsort (fun _ => rfl) step pinfo.margin gs).bind fun s hs => Outcome.Ends.ok ?_
  obtain ⟨off, hplace, hdisj⟩ := hs
  refine ⟨s.2, rfl, fun i j hij => ?_⟩
  rw [hplace i, hplace j, ← genBox_moved (hgs i), ← genBox_moved (hgs j)]
  exact (apart_of_disjoint hpos (genBox_covers (hgs i) _) (genBox_covers (hgs j) _)
    (hdisj i j hij)).disjoint

/-- `polyGraphs` ends and separates the parts. -/
theorem polyGraphs_ends (qsort : Qsort (@cmpf ng)) (pinfo : pack_info) (hng : 0 < ng)
    {gs : Fin ng → Agraph} (root : Option (Agnode → List Agedge))
    (hgs : ∀ i, (compute_bb (gs i)).IntBox) (hnodes : ∀ i, ∀ n ∈ (gs i).nodes, (nodeBox n).IntBox) :
    Outcome.Ends (fun fuel => polyGraphs qsort fuel gs root pinfo) fun r =>
      ∃ places, r = some places ∧ Separated pinfo gs places := by
  obtain ⟨step, hstep, hpos⟩ := computeStep_pos hng (fun i => (hgs i).toOrdered) pinfo.margin
  have hnot : ¬ step ≤ 0 := by omega
  have hzero : ng ≠ 0 := by omega
  simp only [polyGraphs, if_neg hzero, hstep, ok_bind, if_neg hnot]
  refine (placed_parts qsort ?_ step pinfo.margin _).bind fun s hs => Outcome.Ends.ok ?_
  · intro i
    split <;> rfl
  obtain ⟨off, hplace, hdisj⟩ := hs
  refine ⟨s.2, rfl, fun i j hij => ?_⟩
  have hcells := hdisj i j hij
  cases hmode : pinfo.mode with
  | l_graph =>
    simp only [hmode, if_true] at hcells ⊢
    rw [hplace i, hplace j, ← genBox_moved (hgs i), ← genBox_moved (hgs j)]
    exact (apart_of_disjoint hpos (genBox_covers (hgs i) _) (genBox_covers (hgs j) _)
      hcells).disjoint
  | l_node =>
    simp only [hmode, reduceCtorEq, if_false] at hcells ⊢
    intro n hn m hm
    -- the parts as `compute_bb` leaves them
    let G : Fin ng → Agraph := fun k => { gs k with bb := compute_bb (gs k) }
    obtain ⟨hcov, hwithin⟩ := genNode_covers (g := G i) (hnodes i n hn) (nodeBox_within hn)
      pinfo.margin step (off i)
    obtain ⟨hcov', hwithin'⟩ := genNode_covers (g := G j) (hnodes j m hm) (nodeBox_within hm)
      pinfo.margin step (off j)
    have hsub := boxCells_subset_genPoly (g := G i) root hn i step pinfo
    have hsub' := boxCells_subset_genPoly (g := G j) root hm j step pinfo
    have hfree := hcells.mono (Finset.map_subset_map.2 hsub) (Finset.map_subset_map.2 hsub')
    rw [hplace i, hplace j]
    exact ((apart_of_disjoint hpos hcov hcov' hfree).mono hwithin hwithin').disjoint

/-- Packing parts with integer boxes ends and separates them, for rectangles and for graphs,
whatever the margin, the mode and the order of the parts of equal size. -/
theorem packing_separates (qsort : Qsort (@cmpf ng)) (pinfo : pack_info) (hng : 0 < ng) :
    (pinfo.mode = .l_graph → ∀ bbs : Fin ng → boxf, (∀ i, (bbs i).IntBox) →
      Outcome.Ends (fun fuel => packRects qsort fuel bbs pinfo) fun r =>
        r.1 = 0 ∧ (∀ i, ∃ p, r.2 i = (bbs i).translate p) ∧
          ∀ i j, i ≠ j → Disjoint ((r.2 i).grow pinfo.margin.toNat).interior
            ((r.2 j).grow pinfo.margin.toNat).interior) ∧
    ∀ (gs : Fin ng → Agraph) (root : Option (Agnode → List Agedge)),
      (∀ i, (compute_bb (gs i)).IntBox) → (∀ i, ∀ n ∈ (gs i).nodes, (nodeBox n).IntBox) →
      Outcome.Ends (fun fuel => polyGraphs qsort fuel gs root pinfo) fun r =>
        ∃ places, r = some places ∧ Separated pinfo gs places := by
  refine ⟨fun hmode bbs hbbs => ?_, fun gs root => polyGraphs_ends qsort pinfo hng root⟩
  by_cases hone : ng ≤ 1
  · simp only [packRects, if_pos hone]
    refine Outcome.Ends.ok ⟨rfl, fun i => ⟨⟨0, 0⟩, ?_⟩, fun i j hij => absurd (Fin.ext ?_) hij⟩
    · simp [boxf.translate, add_pointf]
    · omega
  · have hzero : ng ≠ 0 := by omega
    have hnode : pinfo.mode ≠ .l_node := by simp [hmode]
    simp only [packRects, putRects, if_neg hone, if_neg hzero, if_neg hnode]
    refine (polyRects_ends qsort pinfo hng hbbs).bind fun r hr => ?_
    obtain ⟨places, rfl, hdisj⟩ := hr
    exact Outcome.Ends.ok ⟨rfl, fun i => ⟨places i, rfl⟩, hdisj⟩

/-- `qsort` as a merge sort. -/
def mergeQsort : Qsort (@cmpf ng) where
  run l := l.mergeSort fun x y => cmpf x y ≤ 0
  perm l := mergeSort_perm l _
  sorted l := by
    have hle : ∀ x y : ginfo ng, cmpf x y ≤ 0 ↔ y.perim ≤ x.perim := by
      intro x y
      unfold cmpf
      split <;> [omega; split <;> omega]
    refine (pairwise_mergeSort (fun x y z => ?_) (fun x y => ?_) l).imp fun h => ?_
    · simp only [hle, decide_eq_true_eq]
      omega
    · simp only [hle, Bool.or_eq_true, decide_eq_true_eq]
      omega
    · simpa using h

/-- A node of one inch at a point in inches. -/
def inchNode (x y : ℚ) : Agnode :=
  { pos := ⟨x, y⟩, lw := 36, rw := 36, ht := 72, xlabel := none, out := [] }

/-- A part with one node. -/
def inchPart (x y : ℚ) : Agraph :=
  { bb := ⟨⟨0, 0⟩, ⟨0, 0⟩⟩, nodes := [inchNode x y], clust := [], label := none, flip := false }

theorem inchNode_box (k : ℤ) : (nodeBox (inchNode k 0)).IntBox where
  x := by simp only [nodeBox, inchNode, ND_xsize, sub_pointf, add_pointf]; linarith
  y := by simp only [nodeBox, inchNode, ND_ysize, sub_pointf, add_pointf]; linarith
  llx := ⟨72 * k - 36, by simp [nodeBox, inchNode, coord, ND_xsize, sub_pointf]⟩
  lly := ⟨-36, by simp [nodeBox, inchNode, coord, ND_ysize, sub_pointf]; norm_num⟩
  urx := ⟨72 * k + 36, by simp [nodeBox, inchNode, coord, ND_xsize, add_pointf]⟩
  ury := ⟨36, by simp [nodeBox, inchNode, coord, ND_ysize, add_pointf]; norm_num⟩

theorem packing_separates_nodes :
    (∀ i : Fin 2, (compute_bb (![inchPart 0 0, inchPart 1 0] i)).IntBox) ∧
    (∀ i : Fin 2, ∀ n ∈ (![inchPart 0 0, inchPart 1 0] i).nodes, (nodeBox n).IntBox) ∧
    Outcome.Ends (fun fuel => polyGraphs mergeQsort fuel ![inchPart 0 0, inchPart 1 0] none
      ⟨8, false, .l_node⟩) fun r => ∃ places, r = some places ∧
        Separated ⟨8, false, .l_node⟩ ![inchPart 0 0, inchPart 1 0] places := by
  have hbb : ∀ i : Fin 2, (compute_bb (![inchPart 0 0, inchPart 1 0] i)).IntBox := by
    have h0 : compute_bb (inchPart 0 0) = nodeBox (inchNode (0 : ℤ) 0) := by decide +kernel
    have h1 : compute_bb (inchPart 1 0) = nodeBox (inchNode (1 : ℤ) 0) := by decide +kernel
    exact Fin.forall_fin_two.2 ⟨h0 ▸ inchNode_box 0, h1 ▸ inchNode_box 1⟩
  have hnodes : ∀ i : Fin 2, ∀ n ∈ (![inchPart 0 0, inchPart 1 0] i).nodes,
      (nodeBox n).IntBox := by
    refine Fin.forall_fin_two.2 ⟨fun n hn => ?_, fun n hn => ?_⟩
    · rw [mem_singleton.1 hn]
      exact_mod_cast inchNode_box 0
    · rw [mem_singleton.1 hn]
      exact_mod_cast inchNode_box 1
  refine ⟨hbb, hnodes, ?_⟩
  exact (packing_separates mergeQsort ⟨8, false, .l_node⟩ two_pos).2 _ none hbb hnodes

end Graphviz.Pack
