import Graphviz.Pack.Separate

/-!
# Packing around fixed parts

With an array `fixed`, the cells of fixed parts are marked first, where the parts are, and the
others are placed around them. The array is read by the positions of the sorted parts, so it is for
the parts themselves exactly when it has the same values in both orders.
-/

namespace Graphviz.Pack

open Finset Function Outcome

variable {ng : ℕ}

/-- A call of `placeFixed` or of `placeGraph`: its part, and the cells it marked. -/
structure Call (ng : ℕ) where
  movable : Bool
  index : Fin ng
  cells : PointSet

/-- The cells that are taken, the places, and the calls that were made. -/
structure Packing (ng : ℕ) where
  ps : PointSet
  places : Fin ng → pointf
  calls : List (Call ng)

/-- The box of the fixed parts in `polyGraphs`, and `fixed_cnt`. -/
def fixedBox (bbs : Fin ng → boxf) (fixed : Fin ng → Bool) : boxf × ℕ :=
  (List.finRange ng).foldl (fun (fixed_bb, fixed_cnt) i =>
    if fixed i then
      let bb : boxf := ⟨⟨cround (bbs i).LL.x, cround (bbs i).LL.y⟩,
        ⟨cround (bbs i).UR.x, cround (bbs i).UR.y⟩⟩
      (if fixed_cnt ≠ 0 then expandbbf bb fixed_bb else bb, fixed_cnt + 1)
    else (fixed_bb, fixed_cnt)) (⟨⟨0, 0⟩, ⟨0, 0⟩⟩, 0)

/-- `center` in `polyGraphs`. -/
def fixedCenter (bbs : Fin ng → boxf) : Option (Fin ng → Bool) → pointf
  | none => ⟨0, 0⟩
  | some fixed =>
    let fixed_bb := (fixedBox bbs fixed).1
    ⟨cround ((fixed_bb.LL.x + fixed_bb.UR.x) / 2), cround ((fixed_bb.LL.y + fixed_bb.UR.y) / 2)⟩

/-- `placeFixed`. -/
def placeFixed (info : ginfo ng) (center : pointf) (s : Packing ng) : Packing ng where
  ps := s.ps ∪ info.cells
  places := Function.update s.places info.index ⟨-center.x, -center.y⟩
  calls := s.calls ++ [⟨false, info.index, info.cells⟩]

/-- `placeGraph` on the place of a part. -/
def placeMovable (fuel : ℕ) (i : ℕ) (info : ginfo ng) (step : ℤ) (margin : UInt32)
    (bbs : Fin ng → boxf) (s : Packing ng) : Except Fault (Packing ng) := do
  let (ps, place) ← placeGraph fuel i info s.ps step margin bbs
  return { ps, places := Function.update s.places info.index place,
           calls := s.calls ++ [⟨true, info.index, ps \ s.ps⟩] }

/-- The sorted parts, each with the entry of `fixed` and its own position. -/
def sortedParts (fixed : Fin ng → Bool) (sinfo : List (ginfo ng)) : List ((ginfo ng × Bool) × ℕ) :=
  (sinfo.zip (List.ofFn fixed)).zipIdx

/-- The loop over the sorted parts that calls `placeFixed`. -/
def placeFixeds (parts : List ((ginfo ng × Bool) × ℕ)) (center : pointf) : Packing ng :=
  parts.foldl (fun s ((info, fixed), _) => if fixed then placeFixed info center s else s)
    ⟨∅, fun _ => ⟨0, 0⟩, []⟩

/-- The loop over the sorted parts that calls `placeGraph`. -/
def placeMovables (fuel : ℕ) (parts : List ((ginfo ng × Bool) × ℕ)) (step : ℤ) (margin : UInt32)
    (bbs : Fin ng → boxf) (s : Packing ng) : Except Fault (Packing ng) :=
  parts.foldlM (fun s ((info, fixed), i) =>
    if !fixed then placeMovable fuel i info step margin bbs s else .ok s) s

/-- The loops over the sorted parts. -/
def placeParts (fuel : ℕ) (fixed : Option (Fin ng → Bool)) (sinfo : List (ginfo ng)) (step : ℤ)
    (margin : UInt32) (bbs : Fin ng → boxf) (center : pointf) : Except Fault (Packing ng) :=
  match fixed with
  | some fixed =>
    let parts := sortedParts fixed sinfo
    placeMovables fuel parts step margin bbs (placeFixeds parts center)
  | none =>
    sinfo.zipIdx.foldlM (fun s (info, i) => placeMovable fuel i info step margin bbs s)
      ⟨∅, fun _ => ⟨0, 0⟩, []⟩

/-- The half perimeter and the cells of a part by `genBox` or `genPoly`, from the size of the cells
and the center. -/
def cover (pinfo : pack_info) (root : Option (Agnode → List Agedge)) (gs : Fin ng → Agraph)
    (i : Fin ng) (ssize : ℤ) (center : pointf) : ℤ × PointSet :=
  let info :=
    if pinfo.mode = .l_graph then genBox (gs i).bb i ssize pinfo.margin center
    else genPoly root (gs i) i ssize pinfo center
  (info.perim, info.cells)

/-- `info` in `polyGraphs`. -/
def partInfo (cover : Fin ng → ℤ → pointf → ℤ × PointSet) (ssize : ℤ) (center : pointf)
    (i : Fin ng) : ginfo ng :=
  let (perim, cells) := cover i ssize center
  { perim, cells, index := i }

/-- `polyGraphs`, with the covers of its mode. -/
def polyGraphsFixed (qsort : Qsort (@cmpf ng)) (fuel : ℕ) (gs : Fin ng → Agraph)
    (cover : (Fin ng → Agraph) → Fin ng → ℤ → pointf → ℤ × PointSet) (margin : UInt32)
    (fixed : Option (Fin ng → Bool)) : Except Fault (Option (Packing ng)) := do
  if ng = 0 then return none
  let gs := fun i => { gs i with bb := compute_bb (gs i) }
  let bbs := fun i => (gs i).bb
  let stepSize ← computeStep bbs margin
  if stepSize ≤ 0 then return none
  let center := fixedCenter bbs fixed
  let sinfo := qsort.run (List.ofFn (partInfo (cover gs) stepSize center))
  let s ← placeParts fuel fixed sinfo stepSize margin bbs center
  return some s

/-! ## The loops -/

variable {info : Fin ng → ginfo ng} {step : ℤ} {margin : UInt32} {bbs : Fin ng → boxf}
  {center : pointf} {fs ms : List (Fin ng)} {s : Packing ng} {i : Fin ng}

/-- The parts `fs` are placed by `placeFixed` and after them the parts `ms` by `placeGraph`. -/
structure Laid (info : Fin ng → ginfo ng) (step : ℤ) (bbs : Fin ng → boxf) (center : pointf)
    (fs ms : List (Fin ng)) (s : Packing ng) : Prop where
  mem_fixed : ∀ i, i ∈ fs ↔ ∃ c ∈ s.calls, c.movable = false ∧ c.index = i
  mem_movable : ∀ i, i ∈ ms ↔ ∃ c ∈ s.calls, c.movable = true ∧ c.index = i
  fixed : ∀ c ∈ s.calls, c.movable = false →
    c.cells = (info c.index).cells ∧ s.places c.index = ⟨-center.x, -center.y⟩
  movable : ∀ c ∈ s.calls, c.movable = true → ∃ p, c.cells = shift p (info c.index).cells ∧
    s.places c.index = cornerAt step (bbs c.index) p
  first : s.calls.Pairwise fun a b => b.movable = false → a.movable = false
  taken : ∀ c ∈ s.calls, c.cells ⊆ s.ps
  disjoint : s.calls.Pairwise fun a b => b.movable = true → Disjoint a.cells b.cells

theorem Laid.start : Laid info step bbs center [] [] ⟨∅, fun _ => ⟨0, 0⟩, []⟩ := by
  constructor <;> simp

/-- The parts of the calls are those of the two lists. -/
theorem Laid.mem_of_call (h : Laid info step bbs center fs ms s) {c : Call ng} (hc : c ∈ s.calls) :
    c.index ∈ fs ++ ms := by
  rw [List.mem_append]
  cases hm : c.movable with
  | false => exact .inl ((h.mem_fixed _).2 ⟨c, hc, hm, rfl⟩)
  | true => exact .inr ((h.mem_movable _).2 ⟨c, hc, hm, rfl⟩)

theorem exists_call_append {l : List (Call ng)} {c : Call ng} {P : Call ng → Prop} :
    (∃ d ∈ l ++ [c], P d) ↔ (∃ d ∈ l, P d) ∨ P c := by
  simp only [List.mem_append, List.mem_singleton, or_and_right, exists_or, exists_eq_left]

/-- `placeFixed` places a further part before all movable ones. -/
theorem Laid.placeFixed (h : Laid info step bbs center fs [] s) (hindex : (info i).index = i)
    (hi : i ∉ fs) : Laid info step bbs center (fs ++ [i]) [] (placeFixed (info i) center s) := by
  have hne : ∀ c ∈ s.calls, c.index ≠ i := fun c hc heq => hi <| by
    have := h.mem_of_call hc
    rwa [List.append_nil, heq] at this
  have hfixed : ∀ c ∈ s.calls, c.movable = false := fun c hc => by
    cases hm : c.movable with
    | false => rfl
    | true => exact absurd ((h.mem_movable c.index).2 ⟨c, hc, hm, rfl⟩) List.not_mem_nil
  refine ⟨?_, ?_, ?_, ?_, ?_, ?_, ?_⟩ <;> simp only [Pack.placeFixed, hindex]
  · intro j
    rw [List.mem_append, h.mem_fixed, exists_call_append, List.mem_singleton]
    exact or_congr_right ⟨fun h => ⟨rfl, h.symm⟩, fun h => h.2.symm⟩
  · intro j
    simp only [List.not_mem_nil, false_iff]
    rintro ⟨c, hc, hm, -⟩
    obtain hc | hc := List.mem_append.1 hc
    · rw [hfixed c hc] at hm
      cases hm
    · rw [List.mem_singleton.1 hc] at hm
      cases hm
  · intro c hc hm
    obtain hc | hc := List.mem_append.1 hc
    · rw [update_of_ne (hne c hc)]
      exact h.fixed c hc hm
    · rw [List.mem_singleton.1 hc, update_self]
      exact ⟨rfl, rfl⟩
  · intro c hc hm
    obtain hc | hc := List.mem_append.1 hc
    · rw [hfixed c hc] at hm
      cases hm
    · rw [List.mem_singleton.1 hc] at hm
      cases hm
  · refine List.pairwise_append.2 ⟨h.first, List.pairwise_singleton _ _, fun a ha _ _ _ => ?_⟩
    exact hfixed a ha
  · intro c hc
    obtain hc | hc := List.mem_append.1 hc
    · exact (h.taken c hc).trans subset_union_left
    · rw [List.mem_singleton.1 hc]
      exact subset_union_right
  · refine List.pairwise_append.2 ⟨h.disjoint, List.pairwise_singleton _ _, fun a _ b hb hm => ?_⟩
    rw [List.mem_singleton.1 hb] at hm
    cases hm

/-- `placeGraph` places a further part clear of all the others. -/
theorem Laid.placeMovable (h : Laid info step bbs center fs ms s) (hindex : (info i).index = i)
    (hi : i ∉ fs ++ ms) (k : ℕ) :
    Ends (fun fuel => placeMovable fuel k (info i) step margin bbs s)
      (Laid info step bbs center fs (ms ++ [i])) := by
  have hne : ∀ c ∈ s.calls, c.index ≠ i := fun c hc heq => hi (heq ▸ h.mem_of_call hc)
  refine (placeGraph_ends k (info i) s.ps step margin bbs).bind fun r ⟨p, hp⟩ => Ends.ok ?_
  obtain ⟨hfree, rfl⟩ := fits_eq_some.1 hp
  have hcells : (s.ps ∪ shift p (info i).cells) \ s.ps = shift p (info i).cells :=
    union_sdiff_cancel_left hfree.symm
  refine ⟨?_, ?_, ?_, ?_, ?_, ?_, ?_⟩ <;> simp only [hindex, hcells]
  · intro j
    rw [h.mem_fixed, exists_call_append]
    simp
  · intro j
    rw [List.mem_append, h.mem_movable, exists_call_append, List.mem_singleton]
    exact or_congr_right ⟨fun h => ⟨rfl, h.symm⟩, fun h => h.2.symm⟩
  · intro c hc hm
    obtain hc | hc := List.mem_append.1 hc
    · rw [update_of_ne (hne c hc)]
      exact h.fixed c hc hm
    · rw [List.mem_singleton.1 hc] at hm
      cases hm
  · intro c hc hm
    obtain hc | hc := List.mem_append.1 hc
    · rw [update_of_ne (hne c hc)]
      exact h.movable c hc hm
    · rw [List.mem_singleton.1 hc, update_self]
      exact ⟨p, rfl, rfl⟩
  · refine List.pairwise_append.2 ⟨h.first, List.pairwise_singleton _ _, fun a _ b hb hm => ?_⟩
    rw [List.mem_singleton.1 hb] at hm
    cases hm
  · intro c hc
    obtain hc | hc := List.mem_append.1 hc
    · exact (h.taken c hc).trans subset_union_left
    · rw [List.mem_singleton.1 hc]
      exact subset_union_right
  · refine List.pairwise_append.2 ⟨h.disjoint, List.pairwise_singleton _ _, fun a ha b hb _ => ?_⟩
    rw [List.mem_singleton.1 hb]
    exact (hfree.mono_right (h.taken a ha)).symm

/-- The parts that are `placeFixed`, or `placeGraph`. -/
def partsOf (b : Bool) (parts : List ((ginfo ng × Bool) × ℕ)) : List (Fin ng) :=
  (parts.filter fun x => x.1.2 == b).map fun x => x.1.1.index

theorem mem_partsOf {b : Bool} {parts : List ((ginfo ng × Bool) × ℕ)} :
    i ∈ partsOf b parts ↔ ∃ x ∈ parts, x.1.2 = b ∧ x.1.1.index = i := by
  simp [partsOf, and_assoc]

theorem partsOf_append (b : Bool) (done : List ((ginfo ng × Bool) × ℕ))
    (x : (ginfo ng × Bool) × ℕ) :
    partsOf b (done ++ [x]) = partsOf b done ++ if x.1.2 = b then [x.1.1.index] else [] := by
  rw [partsOf, List.filter_append, List.map_append, ← partsOf, List.filter_singleton]
  cases x.1.2 <;> cases b <;> rfl

/-- A part comes once. -/
theorem index_notMem {parts done todo : List ((ginfo ng × Bool) × ℕ)} {x : (ginfo ng × Bool) × ℕ}
    (hnodup : (parts.map fun x => x.1.1.index).Nodup) (hparts : parts = done ++ x :: todo)
    (b : Bool) : x.1.1.index ∉ partsOf b done := by
  rw [hparts, List.map_append, List.map_cons] at hnodup
  rintro h
  obtain ⟨y, hy, -, hyx⟩ := mem_partsOf.1 h
  exact (List.nodup_append.1 hnodup).2.2 _ (List.mem_map_of_mem hy) _ List.mem_cons_self hyx

/-- The first loop places the fixed parts. -/
theorem placeFixeds_laid {parts : List ((ginfo ng × Bool) × ℕ)}
    (hinfo : ∀ x ∈ parts, x.1.1 = info x.1.1.index) (hindex : ∀ i, (info i).index = i)
    (hnodup : (parts.map fun x => x.1.1.index).Nodup) :
    Laid info step bbs center (partsOf true parts) [] (placeFixeds parts center) := by
  have main : ∀ todo done s, parts = done ++ todo →
      Laid info step bbs center (partsOf true done) [] s →
      Laid info step bbs center (partsOf true parts) []
        (todo.foldl (fun s ((info, fixed), _) => if fixed then placeFixed info center s else s) s) := by
    intro todo
    induction todo with
    | nil =>
      intro done s hparts h
      rwa [hparts, List.append_nil]
    | cons x todo ih =>
      intro done s hparts h
      refine ih (done ++ [x]) _ (by rw [hparts, List.append_assoc]; rfl) ?_
      rw [partsOf_append]
      cases hx : x.1.2 with
      | false =>
        simp only [hx, Bool.false_eq_true, if_false, List.append_nil]
        exact h
      | true =>
        simp only [hx, if_true]
        rw [hinfo x (by rw [hparts]; simp), hindex]
        exact h.placeFixed (hindex _) (index_notMem hnodup hparts true)
  exact main parts [] _ rfl .start

/-- The two loops place the parts as they are marked. -/
theorem placeParts_ends {parts : List ((ginfo ng × Bool) × ℕ)}
    (hinfo : ∀ x ∈ parts, x.1.1 = info x.1.1.index) (hindex : ∀ i, (info i).index = i)
    (hnodup : (parts.map fun x => x.1.1.index).Nodup) :
    Ends (fun fuel => placeMovables fuel parts step margin bbs (placeFixeds parts center))
      (Laid info step bbs center (partsOf true parts) (partsOf false parts)) := by
  refine Ends.foldlM (I := fun done => Laid info step bbs center (partsOf true parts)
    (partsOf false done)) (fun done x todo s hparts hs => ?_)
    (placeFixeds_laid hinfo hindex hnodup)
  have hx : x ∈ parts := by
    rw [hparts]
    exact List.mem_append_right _ List.mem_cons_self
  rw [partsOf_append]
  cases hfixed : x.1.2 with
  | true =>
    simp only [hfixed, Bool.not_true, Bool.false_eq_true, if_false, reduceCtorEq, List.append_nil]
    exact Ends.ok hs
  | false =>
    simp only [hfixed, Bool.not_false, if_true]
    have hnot : x.1.1.index ∉ partsOf true parts ++ partsOf false done := by
      rw [List.mem_append]
      rintro (h | h)
      · obtain ⟨y, hy, hyfixed, hyx⟩ := mem_partsOf.1 h
        have := List.inj_on_of_nodup_map hnodup hy hx hyx
        rw [this, hfixed] at hyfixed
        cases hyfixed
      · exact index_notMem hnodup hparts false h
    have hplaced : Ends (fun fuel => placeMovable fuel x.2 (info x.1.1.index) step margin bbs s)
        (Laid info step bbs center (partsOf true parts) (partsOf false done ++ [x.1.1.index])) :=
      hs.placeMovable (hindex _) hnot x.2
    rwa [← hinfo x hx] at hplaced

/-! ## The claims of the parts -/

/-- The fixed parts stay where they are, their cells and no others are marked first, and each of the
other parts is placed clear of all that are placed before it. -/
structure Stays (info : Fin ng → ginfo ng) (step : ℤ) (bbs : Fin ng → boxf) (center : pointf)
    (fixed : Fin ng → Bool) (s : Packing ng) : Prop where
  place : ∀ i, fixed i = true → s.places i = ⟨-center.x, -center.y⟩
  marked : ∀ i, fixed i = true ↔ ∃ c ∈ s.calls, c.movable = false ∧ c.index = i
  cells : ∀ c ∈ s.calls, c.movable = false → c.cells = (info c.index).cells
  first : s.calls.Pairwise fun a b => b.movable = false → a.movable = false
  movable : ∀ i, fixed i = false → ∃ c ∈ s.calls, c.movable = true ∧ c.index = i ∧
    ∃ p, c.cells = shift p (info i).cells ∧ s.places i = cornerAt step (bbs i) p
  disjoint : s.calls.Pairwise fun a b => b.movable = true → Disjoint a.cells b.cells

/-- The array says the same of the part that is sorted to a position as of the part of that
number. -/
def SameFixed (fixed : Fin ng → Bool) (sinfo : List (ginfo ng)) : Prop :=
  ∀ (i : Fin ng) (info : ginfo ng), sinfo[i.val]? = some info → fixed info.index = fixed i

variable {fixed : Fin ng → Bool} {sinfo : List (ginfo ng)}

theorem mem_sortedParts {x : (ginfo ng × Bool) × ℕ} : x ∈ sortedParts fixed sinfo ↔
    ∃ i : Fin ng, sinfo[i.val]? = some x.1.1 ∧ fixed i = x.1.2 ∧ i.val = x.2 := by
  obtain ⟨⟨info, b⟩, k⟩ := x
  rw [sortedParts, List.mem_zipIdx_iff_getElem?, List.getElem?_zip_eq_some, List.getElem?_ofFn]
  constructor
  · rintro ⟨hinfo, hfixed⟩
    split at hfixed
    next hk => exact ⟨⟨k, hk⟩, hinfo, Option.some.inj hfixed, rfl⟩
    next => cases hfixed
  · rintro ⟨i, hinfo, rfl, rfl⟩
    exact ⟨hinfo, dif_pos i.isLt⟩

theorem map_index_sortedParts (hlen : sinfo.length = ng) :
    (sortedParts fixed sinfo).map (fun x => x.1.1.index) = sinfo.map ginfo.index := by
  have hfst : (sinfo.zip (List.ofFn fixed)).map Prod.fst = sinfo :=
    List.map_fst_zip (by rw [hlen, List.length_ofFn])
  calc (sortedParts fixed sinfo).map (fun x => x.1.1.index)
      = (((sortedParts fixed sinfo).map Prod.fst).map Prod.fst).map ginfo.index := by
        rw [List.map_map, List.map_map]
        rfl
    _ = sinfo.map ginfo.index := by rw [sortedParts, List.zipIdx_map_fst, hfst]

/-- Once the parts are placed as they are marked, the fixed parts stay exactly if the array is the
same in both orders. -/
theorem Laid.stays_iff (hnodup : ((sortedParts fixed sinfo).map fun x => x.1.1.index).Nodup)
    (hall : ∀ i, ∃ x ∈ sortedParts fixed sinfo, x.1.1.index = i)
    (h : Laid info step bbs center (partsOf true (sortedParts fixed sinfo))
      (partsOf false (sortedParts fixed sinfo)) s) :
    Stays info step bbs center fixed s ↔ SameFixed fixed sinfo := by
  constructor
  · intro hstays i info' hi
    have hx : ((info', fixed i), i.val) ∈ sortedParts fixed sinfo :=
      mem_sortedParts.2 ⟨i, hi, rfl, rfl⟩
    have hmarked : ∀ j, fixed j = true ↔ j ∈ partsOf true (sortedParts fixed sinfo) :=
      fun j => (hstays.marked j).trans (h.mem_fixed j).symm
    rw [Bool.eq_iff_iff, hmarked, mem_partsOf]
    constructor
    · rintro ⟨y, hy, hyfixed, hyindex⟩
      have hyx := List.inj_on_of_nodup_map hnodup hy hx hyindex
      rwa [hyx] at hyfixed
    · exact fun hfixed => ⟨_, hx, hfixed, rfl⟩
  · intro hsame
    have hmem : ∀ b i, i ∈ partsOf b (sortedParts fixed sinfo) ↔ fixed i = b := by
      intro b i
      rw [mem_partsOf]
      have hflag : ∀ x ∈ sortedParts fixed sinfo, fixed x.1.1.index = x.1.2 := by
        intro x hx
        obtain ⟨k, hk, hfixed, -⟩ := mem_sortedParts.1 hx
        rw [hsame k _ hk, hfixed]
      constructor
      · rintro ⟨x, hx, rfl, rfl⟩
        exact hflag x hx
      · rintro rfl
        obtain ⟨x, hx, rfl⟩ := hall i
        exact ⟨x, hx, (hflag x hx).symm, rfl⟩
    refine ⟨fun i hi => ?_, fun i => ?_, fun c hc hm => (h.fixed c hc hm).1, h.first, fun i hi => ?_,
      h.disjoint⟩
    · obtain ⟨c, hc, hm, rfl⟩ := (h.mem_fixed i).1 ((hmem true i).2 hi)
      exact (h.fixed c hc hm).2
    · rw [← hmem, h.mem_fixed]
    · obtain ⟨c, hc, hm, rfl⟩ := (h.mem_movable i).1 ((hmem false i).2 hi)
      exact ⟨c, hc, hm, rfl, h.movable c hc hm⟩

/-- The step is positive. -/
theorem pos_of_computeStep (h : computeStep bbs margin = .ok step) : 0 < step := by
  rw [computeStep] at h
  dsimp only at h
  obtain ⟨-, -, h⟩ := bind_eq_ok.1 h
  have hstep := Except.ok.inj h
  split at hstep <;> omega

/-- The sorted parts are placed, and the fixed ones stay exactly if the array is the same in both
orders. -/
theorem placeParts_stays_iff (qsort : Qsort (@cmpf ng)) (hindex : ∀ i, (info i).index = i) :
    Ends (fun fuel => placeParts fuel (some fixed) (qsort.run (List.ofFn info)) step margin bbs center)
      fun s => Stays info step bbs center fixed s ↔
        SameFixed fixed (qsort.run (List.ofFn info)) := by
  have hperm := qsort.perm (List.ofFn info)
  generalize qsort.run (List.ofFn info) = sinfo at hperm
  have hlen : sinfo.length = ng := hperm.length_eq.trans (List.length_ofFn ..)
  have hnodup : ((sortedParts fixed sinfo).map fun x => x.1.1.index).Nodup := by
    rw [map_index_sortedParts hlen, (hperm.map ginfo.index).nodup_iff, List.map_ofFn,
      List.nodup_ofFn]
    intro i j hij
    simpa [hindex] using hij
  have hinfo : ∀ x ∈ sortedParts fixed sinfo, x.1.1 = info x.1.1.index := by
    intro x hx
    obtain ⟨k, hk, -, -⟩ := mem_sortedParts.1 hx
    obtain ⟨i, hi⟩ := List.mem_ofFn.1 (hperm.mem_iff.1 (List.mem_of_getElem? hk))
    rw [← hi, hindex]
  have hall : ∀ i, ∃ x ∈ sortedParts fixed sinfo, x.1.1.index = i := by
    intro i
    have hi : info i ∈ sinfo := hperm.mem_iff.2 (List.mem_ofFn.2 ⟨i, rfl⟩)
    obtain ⟨k, hk⟩ := List.mem_iff_getElem?.1 hi
    have hklt : k < ng := hlen ▸ (List.getElem?_eq_some_iff.1 hk).1
    exact ⟨((info i, fixed ⟨k, hklt⟩), k), mem_sortedParts.2 ⟨⟨k, hklt⟩, hk, rfl, rfl⟩, hindex i⟩
  exact (placeParts_ends hinfo hindex hnodup).imp fun s hs => hs.stays_iff hnodup hall

/-- The boxes of the parts in `polyGraphs`. -/
def partBoxes (gs : Fin ng → Agraph) : Fin ng → boxf := fun i => compute_bb (gs i)

/-- The parts in `polyGraphs`, with their cells. -/
def parts (cover : (Fin ng → Agraph) → Fin ng → ℤ → pointf → ℤ × PointSet) (gs : Fin ng → Agraph)
    (step : ℤ) (fixed : Fin ng → Bool) : Fin ng → ginfo ng :=
  partInfo (cover fun i => { gs i with bb := compute_bb (gs i) }) step
    (fixedCenter (partBoxes gs) (some fixed))

/-- `polyGraphs` on some parts is its loops over the sorted parts. -/
theorem polyGraphsFixed_eq (qsort : Qsort (@cmpf ng)) (fuel : ℕ) {gs : Fin ng → Agraph}
    (cover : (Fin ng → Agraph) → Fin ng → ℤ → pointf → ℤ × PointSet)
    (hng : ng ≠ 0) (hstep : computeStep (partBoxes gs) margin = .ok step) :
    polyGraphsFixed qsort fuel gs cover margin (some fixed) =
      some <$> placeParts fuel (some fixed) (qsort.run (List.ofFn (parts cover gs step fixed))) step
        margin (partBoxes gs) (fixedCenter (partBoxes gs) (some fixed)) := by
  have hpos := pos_of_computeStep hstep
  have hnot : ¬step ≤ 0 := by omega
  have hstep' : computeStep (fun i => compute_bb (gs i)) margin = .ok step := hstep
  simp only [polyGraphsFixed, if_neg hng, hstep', ok_bind, if_neg hnot]
  rfl

/-- Packing with an array of fixed parts ends, and the fixed parts stay and the others are placed
around them exactly if the array says the same of the part that is sorted to a position as of the
part of that number, for every position. -/
theorem polyGraphs_stays_iff (qsort : Qsort (@cmpf ng)) (gs : Fin ng → Agraph)
    (cover : (Fin ng → Agraph) → Fin ng → ℤ → pointf → ℤ × PointSet) (margin : UInt32)
    (fixed : Fin ng → Bool) (hstep : computeStep (partBoxes gs) margin = .ok step) :
    Ends (fun fuel => polyGraphsFixed qsort fuel gs cover margin (some fixed)) fun r =>
      (r = none ↔ ng = 0) ∧ ∀ s, r = some s →
        (Stays (parts cover gs step fixed) step (partBoxes gs)
          (fixedCenter (partBoxes gs) (some fixed)) fixed s ↔
        SameFixed fixed (qsort.run (List.ofFn (parts cover gs step fixed)))) := by
  by_cases hng : ng = 0
  · simp only [polyGraphsFixed, if_pos hng]
    exact Ends.ok ⟨⟨fun _ => hng, fun _ => rfl⟩, nofun⟩
  · simp only [polyGraphsFixed_eq qsort _ cover hng hstep]
    refine (placeParts_stays_iff qsort fun _ => rfl).bind fun s hs =>
      Ends.ok ⟨⟨nofun, fun h => absurd h hng⟩, ?_⟩
    rintro _ ⟨rfl⟩
    exact hs

/-! ## A fixed part that is smaller than the other -/

/-- A part with one node of two inches. -/
def bigPart : Agraph :=
  { inchPart 0 0 with nodes := [{ inchNode 0 0 with lw := 72, rw := 72, ht := 144 }] }

/-- A part that is fixed and a bigger one that is not. -/
def smallFirst : Fin 2 → Agraph := ![inchPart 0 0, bigPart]

theorem computeStep_smallFirst : computeStep (partBoxes smallFirst) 8 = .ok 14 := by
  decide +kernel

theorem polyGraphs_stays_iff_smallFirst :
    Ends (fun fuel => polyGraphsFixed mergeQsort fuel smallFirst (cover ⟨8, false, .l_graph⟩ none) 8
      (some ![true, false])) fun r => (r = none ↔ 2 = 0) ∧ ∀ s, r = some s →
        (Stays (parts (cover ⟨8, false, .l_graph⟩ none) smallFirst 14 ![true, false]) 14
          (partBoxes smallFirst) (fixedCenter (partBoxes smallFirst) (some ![true, false]))
          ![true, false] s ↔
        SameFixed ![true, false] (mergeQsort.run
          (List.ofFn (parts (cover ⟨8, false, .l_graph⟩ none) smallFirst 14 ![true, false])))) :=
  polyGraphs_stays_iff mergeQsort smallFirst _ 8 ![true, false] computeStep_smallFirst

/-- The bigger part is sorted first. -/
theorem not_sameFixed (qsort : Qsort (@cmpf 2)) {info : Fin 2 → ginfo 2}
    (hindex : ∀ i, (info i).index = i) (hlt : (info 0).perim < (info 1).perim) :
    ¬SameFixed ![true, false] (qsort.run (List.ofFn info)) := by
  have hperm := qsort.perm (List.ofFn info)
  have hsorted := qsort.sorted (List.ofFn info)
  generalize qsort.run (List.ofFn info) = sinfo at hperm hsorted
  intro hsame
  obtain ⟨x, y, rfl⟩ := List.length_eq_two.1 (hperm.length_eq.trans (List.length_ofFn ..))
  have hx : ![true, false] x.index = true := hsame 0 x rfl
  have hmem : x ∈ List.ofFn info := hperm.mem_iff.1 List.mem_cons_self
  obtain ⟨i, rfl⟩ := List.mem_ofFn.1 hmem
  have hfixed : ∀ i : Fin 2, ![true, false] i = true → i = 0 := by decide
  obtain rfl := hfixed i (hindex i ▸ hx)
  have hy : info 1 ∈ [info 0, y] := hperm.mem_iff.2 (List.mem_ofFn.2 ⟨1, rfl⟩)
  have hcmp := List.rel_of_pairwise_cons hsorted List.mem_cons_self
  have hone : info 1 = y := by
    obtain h | h := List.mem_cons.1 hy
    · rw [h] at hlt
      exact absurd hlt (lt_irrefl _)
    · exact List.mem_singleton.1 h
  rw [← hone, cmpf, if_neg (by omega), if_pos hlt] at hcmp
  omega

/-- The small part is fixed, but the bigger one is placed as if it were. -/
theorem polyGraphs_moves_fixed :
    Ends (fun fuel => polyGraphsFixed mergeQsort fuel smallFirst (cover ⟨8, false, .l_graph⟩ none) 8
      (some ![true, false])) fun r => ∃ s, r = some s ∧
        ¬Stays (parts (cover ⟨8, false, .l_graph⟩ none) smallFirst 14 ![true, false]) 14
          (partBoxes smallFirst) (fixedCenter (partBoxes smallFirst) (some ![true, false]))
          ![true, false] s := by
  simp only [polyGraphsFixed_eq mergeQsort _ _ two_ne_zero computeStep_smallFirst]
  refine (placeParts_stays_iff mergeQsort fun _ => rfl).bind fun s hs => Ends.ok ⟨s, rfl, ?_⟩
  rw [hs]
  exact not_sameFixed mergeQsort (fun _ => rfl) (by decide +kernel)

end Graphviz.Pack
