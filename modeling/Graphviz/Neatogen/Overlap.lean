import Graphviz.Library.Instances
import Graphviz.Library.OrderedMultiset
import Graphviz.Sparse.Coordinates

/-!
# The graph of overlapping boxes

`get_overlap_graph` of `lib/neatogen/overlap.c` sweeps over the sides of the boxes from left to
right. The lower and the upper end of a box go into a red-black tree when its left side is met. When
its right side is met, the walk over the predecessors of its upper end reports the boxes whose
height interval overlaps, and the upper end is deleted. The lower end stays in the tree.

Coordinates are exact, in any ordered field, and the tree is any ordered multiset.
-/

namespace Graphviz.Overlap

open Nat Outcome Sparse

/-- `INTV_OPEN` and `INTV_CLOSE`. -/
inductive IntvStatus where
  | INTV_OPEN
  | INTV_CLOSE
  deriving DecidableEq, Repr

/-- `scan_point`. -/
structure scan_point (K : Type) where
  node : ℕ
  x : K
  status : IntvStatus

variable {K : Type} [Field K] [LinearOrder K]

/-- `comp_scan_points`. -/
def comp_scan_points (pp qq : scan_point K) : Ordering :=
  if qq.x < pp.x then .gt
  else if pp.x < qq.x then .lt
  else if qq.node < pp.node then .gt
  else if pp.node < qq.node then .lt
  else .eq

/-- `scanpointsx`, after the sort. -/
def scanpointsx (dim n : ℕ) (x width : ℕ → K) : List (scan_point K) :=
  ((List.range n).flatMap fun i =>
    [⟨i, x (i * dim) - width (i * dim), .INTV_OPEN⟩,
      ⟨i + n, x (i * dim) + width (i * dim), .INTV_CLOSE⟩]).insertionSort
    fun p q => comp_scan_points p q ≠ .gt

/-- `scanpointsy[j]`. -/
def scanpointsy (dim n : ℕ) (x width : ℕ → K) (j : ℕ) : scan_point K :=
  if j < n then ⟨j, x (j * dim + 1) - width (j * dim + 1), .INTV_OPEN⟩
  else ⟨j - n, x ((j - n) * dim + 1) + width ((j - n) * dim + 1), .INTV_CLOSE⟩

attribute [local instance] Instances.atLeastTwo_two

/-- The distance of the centers of the intervals is less than the sum of the widths. -/
def clash (n : ℕ) (scanpointsy : ℕ → scan_point K) (ii neighbor : ℕ) : Prop :=
  let bsta := (scanpointsy ii).x
  let bsto := (scanpointsy (ii + n)).x
  let bbsta := (scanpointsy neighbor).x
  let bbsto := (scanpointsy (neighbor + n)).x
  |1 / 2 * (bsta + bsto) - 1 / 2 * (bbsta + bbsto)| <
    1 / 2 * (bsto - bsta) + 1 / 2 * (bbsto - bbsta)

instance (n : ℕ) (scanpointsy : ℕ → scan_point K) (ii neighbor : ℕ) :
    Decidable (clash n scanpointsy ii neighbor) :=
  inferInstanceAs (Decidable (_ < _))

/-- The walk over the predecessors of a node: `true` is `goto check_overlap_RETURN`. -/
def walk (n : ℕ) (scanpointsy : ℕ → scan_point K) (k ii : ℕ) (check_overlap_only : Bool)
    (keys : List (scan_point K)) : ℕ → CoordMatrix K → Except Fault (Bool × CoordMatrix K)
  | 0, A => .ok (false, A)
  | newNode + 1, A =>
    match keys[newNode]? with
    | none => .error .segfault
    | some key =>
      let neighbor := key.node % n
      if neighbor ≠ k ∧ clash n scanpointsy ii neighbor then do
        let A ← SparseMatrix_coordinate_form_add_entry A neighbor k 1 .MATRIX_TYPE_REAL
        if check_overlap_only then .ok (true, A)
        else walk n scanpointsy k ii check_overlap_only keys newNode A
      else walk n scanpointsy k ii check_overlap_only keys newNode A

/-- The tree and the matrix that the sweep works on. -/
structure Sweep (T : OrderedMultiset (scan_point K) comp_scan_points) where
  treey : T.Tree
  A : CoordMatrix K

variable (T : OrderedMultiset (scan_point K) comp_scan_points)

/-- One side of a box: `true` is `goto check_overlap_RETURN`. -/
def scanPoint (n : ℕ) (scanpointsy : ℕ → scan_point K) (check_overlap_only : Bool) (s : Sweep T)
    (point : scan_point K) : Except Fault (Bool × Sweep T) :=
  let k := point.node % n
  match point.status with
  -- add both open and close int for y
  | .INTV_OPEN => .ok (false,
      { s with treey := T.insert (T.insert s.treey (scanpointsy k)) (scanpointsy (k + n)) })
  | .INTV_CLOSE => do
    assert (n ≤ point.node)
    match T.query s.treey (scanpointsy (k + n)) with
    | none => .error .segfault
    | some newNode0 =>
      match (T.keys s.treey)[newNode0]? with
      | none => .error .segfault
      | some key => do
        let ii := key.node
        assert (ii < n)
        let (found, A) ← walk n scanpointsy k ii check_overlap_only (T.keys s.treey) newNode0 s.A
        if found then .ok (true, { s with A := A })
        else .ok (false, ⟨T.delete s.treey newNode0, A⟩)

/-- The loop over the sides of the boxes. -/
def scan (n : ℕ) (scanpointsy : ℕ → scan_point K) (check_overlap_only : Bool) :
    List (scan_point K) → Sweep T → Except Fault (CoordMatrix K)
  | [], s => .ok s.A
  | point :: points, s => do
    let (found, s) ← scanPoint T n scanpointsy check_overlap_only s point
    if found then .ok s.A else scan n scanpointsy check_overlap_only points s

/-- `SYMMETRY_EPSILON`. -/
def SYMMETRY_EPSILON : K :=
  1 / 10000000

/-- `get_overlap_graph`. -/
def get_overlap_graph (dim n : ℕ) (x width : ℕ → K) (check_overlap_only : Bool) :
    Except Fault (FlaggedMatrix K) := do
  let A ← scan T n (scanpointsy dim n x width) check_overlap_only (scanpointsx dim n x width)
    ⟨T.empty, CoordMatrix_new n n 1 .MATRIX_TYPE_REAL⟩
  let B ← SparseMatrix_from_coordinate_format A
  SparseMatrix_symmetrize (fun a b => decide (SYMMETRY_EPSILON < |b - a|)) ⟨B, false, false⟩ false

end Graphviz.Overlap

/-!
## The sweep

The tree holds the lower ends of all boxes whose left side was met, and the upper ends of those
whose right side was not. So the box that closes finds all boxes before it whose height interval
overlaps its own, wherever they are, and every pair of such boxes is found by the one of them that
closes last.
-/

namespace Graphviz.Overlap

open List Outcome Sparse

variable {K : Type} [Field K] [LinearOrder K]

/-! ## The order of the sides -/

/-- What two scan points are compared by. -/
def scanKey (p : scan_point K) : K ×ₗ ℕ :=
  toLex (p.x, p.node)

omit [Field K] in
theorem scanKey_lt {p q : scan_point K} :
    scanKey p < scanKey q ↔ p.x < q.x ∨ p.x = q.x ∧ p.node < q.node :=
  Prod.Lex.toLex_lt_toLex

omit [Field K] [LinearOrder K] in
theorem scanKey_eq {p q : scan_point K} : scanKey p = scanKey q ↔ p.x = q.x ∧ p.node = q.node := by
  rw [scanKey, scanKey, toLex_inj, Prod.mk.injEq]

omit [Field K] in
theorem comp_eq_gt {p q : scan_point K} : comp_scan_points p q = .gt ↔ scanKey q < scanKey p := by
  rw [scanKey_lt, comp_scan_points]
  obtain hx | hx | hx := lt_trichotomy p.x q.x
  · simp [hx, hx.not_gt, hx.ne']
  · obtain hn | hn | hn := lt_trichotomy p.node q.node
    · simp [hx, hn, hn.not_gt]
    · simp [hx, hn]
    · simp [hx, hn]
  · simp [hx]

omit [Field K] in
theorem comp_eq_eq {p q : scan_point K} : comp_scan_points p q = .eq ↔ scanKey p = scanKey q := by
  rw [scanKey_eq, comp_scan_points]
  obtain hx | hx | hx := lt_trichotomy p.x q.x
  · simp [hx, hx.not_gt, hx.ne]
  · obtain hn | hn | hn := lt_trichotomy p.node q.node
    · simp [hx, hn, hn.not_gt, hn.ne]
    · simp [hx, hn]
    · simp [hx, hn, hn.ne']
  · simp [hx, hx.ne']

variable {dim n : ℕ} {x width : ℕ → K}

/-- The left side of a box. -/
def openPoint (dim : ℕ) (x width : ℕ → K) (i : ℕ) : scan_point K :=
  ⟨i, x (i * dim) - width (i * dim), .INTV_OPEN⟩

/-- The right side of a box. -/
def closePoint (dim n : ℕ) (x width : ℕ → K) (i : ℕ) : scan_point K :=
  ⟨i + n, x (i * dim) + width (i * dim), .INTV_CLOSE⟩

omit [LinearOrder K] in
theorem openPoint_ne {i j : ℕ} : openPoint dim x width i ≠ closePoint dim n x width j :=
  fun h => nomatch congrArg scan_point.status h

omit [LinearOrder K] in
theorem openPoint_inj {i j : ℕ} (h : openPoint dim x width i = openPoint dim x width j) : i = j :=
  congrArg scan_point.node h

omit [LinearOrder K] in
theorem closePoint_inj {i j : ℕ} (h : closePoint dim n x width i = closePoint dim n x width j) :
    i = j :=
  add_right_cancel (congrArg scan_point.node h)

theorem mem_scanpointsx {p : scan_point K} : p ∈ scanpointsx dim n x width ↔
    ∃ i < n, p = openPoint dim x width i ∨ p = closePoint dim n x width i := by
  rw [scanpointsx, mem_insertionSort, mem_flatMap]
  simp only [mem_range, mem_cons, not_mem_nil, or_false, openPoint, closePoint]

theorem scanpointsx_sorted :
    (scanpointsx dim n x width).Pairwise fun p q => comp_scan_points p q ≠ .gt := by
  have hcmp : ∀ p q : scan_point K, comp_scan_points p q = .gt ↔ scanKey q < scanKey p :=
    fun _ _ => comp_eq_gt
  have := OrderedMultiset.cmp_total hcmp
  have := OrderedMultiset.cmp_trans hcmp
  exact pairwise_insertionSort _ _

theorem scanpointsx_nodup : (scanpointsx dim n x width).Nodup := by
  rw [scanpointsx, (perm_insertionSort _ _).nodup_iff, nodup_flatMap]
  refine ⟨fun i hi => ?_, nodup_range.imp_of_mem fun {i j} hi hj hne => ?_⟩
  · rw [nodup_cons, mem_singleton]
    exact ⟨openPoint_ne (i := i) (j := i), nodup_singleton _⟩
  · refine disjoint_left.2 fun p hpi hpj => ?_
    rw [mem_cons, mem_singleton] at hpi hpj
    obtain rfl | rfl := hpi
    · exact hpj.elim (fun h => hne (openPoint_inj h)) (openPoint_ne (i := i) (j := j))
    · exact hpj.elim (fun h => openPoint_ne (i := j) (j := i) h.symm) fun h =>
        hne (closePoint_inj h)

variable {i j k : ℕ}

/-- The right side of a box comes after its left side. -/
theorem openPoint_lt [IsStrictOrderedRing K] (hi : i < n) (hw : 0 ≤ width (i * dim)) :
    scanKey (openPoint dim x width i) < scanKey (closePoint dim n x width i) := by
  rw [scanKey_lt]
  dsimp only [openPoint, closePoint]
  obtain hpos | hzero := hw.lt_or_eq
  · exact .inl (by linarith)
  · exact .inr ⟨by rw [← hzero, sub_zero, add_zero], by omega⟩

variable {pre post : List (scan_point K)}

/-- When the right side of a box has been met then so has its left side. -/
theorem openPoint_mem [IsStrictOrderedRing K] (hpts : scanpointsx dim n x width = pre ++ post)
    (hi : i < n) (hw : 0 ≤ width (i * dim)) (hclose : closePoint dim n x width i ∈ pre) :
    openPoint dim x width i ∈ pre := by
  have hmem : openPoint dim x width i ∈ scanpointsx dim n x width :=
    mem_scanpointsx.2 ⟨i, hi, .inl rfl⟩
  have hsorted : (scanpointsx dim n x width).Pairwise _ := scanpointsx_sorted
  rw [hpts] at hmem hsorted
  refine (mem_append.1 hmem).resolve_right fun hpost => ?_
  exact (pairwise_append.1 hsorted).2.2 _ hclose _ hpost (comp_eq_gt.2 (openPoint_lt hi hw))

/-! ## The ends of the height intervals -/

/-- The height intervals of two boxes overlap: the distance of the centres is less than the sum of
the half heights. -/
def HeightsOverlap (dim : ℕ) (x width : ℕ → K) (i j : ℕ) : Prop :=
  |x (i * dim + 1) - x (j * dim + 1)| < width (i * dim + 1) + width (j * dim + 1)

theorem HeightsOverlap.symm (h : HeightsOverlap dim x width i j) :
    HeightsOverlap dim x width j i := by
  rwa [HeightsOverlap, abs_sub_comm, add_comm (width _)]

omit [LinearOrder K] in
theorem scanpointsy_lower (hi : i < n) : scanpointsy dim n x width i =
    ⟨i, x (i * dim + 1) - width (i * dim + 1), .INTV_OPEN⟩ :=
  if_pos hi

omit [LinearOrder K] in
theorem scanpointsy_upper : scanpointsy dim n x width (i + n) =
    ⟨i, x (i * dim + 1) + width (i * dim + 1), .INTV_CLOSE⟩ := by
  rw [scanpointsy, if_neg (Nat.not_lt.2 (Nat.le_add_left n i)), Nat.add_sub_cancel]

/-- What is tested is the overlap. -/
theorem clash_iff [IsStrictOrderedRing K] (hi : i < n) (hj : j < n) :
    clash n (scanpointsy dim n x width) i j ↔ HeightsOverlap dim x width i j := by
  rw [clash, HeightsOverlap, scanpointsy_lower hi, scanpointsy_lower hj, scanpointsy_upper,
    scanpointsy_upper]
  have hcentre : ∀ c h : K, 1 / 2 * (c - h + (c + h)) = c := fun c h => by ring
  have hhalf : ∀ c h : K, 1 / 2 * (c + h - (c - h)) = h := fun c h => by ring
  dsimp only
  rw [hcentre, hcentre, hhalf, hhalf]

/-- The lower end of the one is below the upper end of the other. -/
theorem HeightsOverlap.lower_lt [IsStrictOrderedRing K] (h : HeightsOverlap dim x width i j)
    (hj : j < n) :
    scanKey (scanpointsy dim n x width j) < scanKey (scanpointsy dim n x width (i + n)) := by
  rw [scanKey_lt, scanpointsy_lower hj, scanpointsy_upper]
  have := (abs_lt.1 h).1
  exact .inl (by dsimp only; linarith)

/-! ## The walk over the predecessors -/

/-- Entries that stand for boxes whose height intervals overlap. -/
def Sound (dim : ℕ) (x width : ℕ → K) (L : List (ℕ × ℕ × K)) : Prop :=
  ∀ e ∈ L, e.2.2 = 1 ∧ e.1 ≠ e.2.1 ∧ HeightsOverlap dim x width e.1 e.2.1

/-- The matrix of the sweep, with its entries. -/
structure Reported (dim n : ℕ) (x width : ℕ → K) (A : CoordMatrix K) (L : List (ℕ × ℕ × K)) :
    Prop where
  holds : A.Holds n L
  type : A.type = .MATRIX_TYPE_REAL
  sound : Sound dim x width L

variable {A : CoordMatrix K} {L : List (ℕ × ℕ × K)} (check_overlap_only : Bool)

/-- One more pair of boxes is reported. -/
theorem Reported.add (h : Reported dim n x width A L) (hi : i < n) (hj : j < n) (hne : i ≠ j)
    (hover : HeightsOverlap dim x width i j) :
    ∃ A', SparseMatrix_coordinate_form_add_entry A i j 1 .MATRIX_TYPE_REAL = .ok A' ∧
      Reported dim n x width A' (L ++ [(i, j, 1)]) := by
  obtain ⟨A', hA', htype, hholds⟩ := add_entry_spec h.holds hi hj 1
  rw [h.type] at hA' htype
  refine ⟨A', hA', hholds, htype, fun e he => ?_⟩
  rw [mem_append, mem_singleton] at he
  obtain he | rfl := he
  · exact h.sound e he
  · exact ⟨rfl, hne, hover⟩

/-- What the walk from a node reports for a box. -/
structure Walked (dim n : ℕ) (x width : ℕ → K) (check_overlap_only : Bool) (k : ℕ)
    (keys : List (scan_point K)) (newNode : ℕ) (L : List (ℕ × ℕ × K)) (found : Bool)
    (A' : CoordMatrix K) (L' : List (ℕ × ℕ × K)) : Prop where
  reported : Reported dim n x width A' L'
  subset : ∀ e ∈ L, e ∈ L'
  stopped : found = true → check_overlap_only = true ∧ L' ≠ []
  ended : found = false → ∀ q < newNode, ∀ key, keys[q]? = some key → key.node ≠ k →
    HeightsOverlap dim x width k key.node → (key.node, k) ∈ places L'

theorem walk_spec [IsStrictOrderedRing K] {keys : List (scan_point K)} (hk : k < n)
    (hkeys : ∀ key ∈ keys, key.node < n) {newNode : ℕ} (hle : newNode ≤ keys.length)
    (h : Reported dim n x width A L) :
    ∃ found A' L', walk n (scanpointsy dim n x width) k k check_overlap_only keys newNode A =
      .ok (found, A') ∧
        Walked dim n x width check_overlap_only k keys newNode L found A' L' := by
  induction newNode generalizing A L with
  | zero =>
    exact ⟨false, A, L, rfl, h, fun _ => id, nofun,
      fun _ _ hq => absurd hq (Nat.not_lt_zero _)⟩
  | succ newNode ih =>
    have hget : keys[newNode]? = some keys[newNode] := getElem?_eq_getElem hle
    have hnode : keys[newNode].node < n := hkeys _ (getElem_mem hle)
    rw [walk, hget]
    simp only [Nat.mod_eq_of_lt hnode]
    -- the key at the node is the only one that the rest of the walk leaves out
    have hsplit : ∀ {L' : List (ℕ × ℕ × K)}, (∀ q < newNode, ∀ key, keys[q]? = some key →
        key.node ≠ k → HeightsOverlap dim x width k key.node → (key.node, k) ∈ places L') →
        (keys[newNode].node ≠ k → HeightsOverlap dim x width k keys[newNode].node →
          (keys[newNode].node, k) ∈ places L') →
        ∀ q < newNode + 1, ∀ key, keys[q]? = some key → key.node ≠ k →
          HeightsOverlap dim x width k key.node → (key.node, k) ∈ places L' := by
      intro L' hrest hlast q hq key hkey
      obtain hlt | rfl := Nat.lt_succ_iff_lt_or_eq.1 hq
      · exact hrest q hlt key hkey
      · rw [hget, Option.some.injEq] at hkey
        exact hkey ▸ hlast
    split
    next hclash =>
      obtain ⟨hne, hclash⟩ := hclash
      rw [clash_iff hk hnode] at hclash
      obtain ⟨A', hA', hrep⟩ := h.add hnode hk hne hclash.symm
      rw [hA', ok_bind]
      split
      next hcheck =>
        exact ⟨true, A', _, rfl, hrep, fun e he => mem_append_left _ he,
          fun _ => ⟨hcheck, append_ne_nil_of_right_ne_nil _ (cons_ne_nil _ _)⟩, nofun⟩
      next =>
        obtain ⟨found, A'', L', hwalk, hw⟩ := ih (Nat.le_of_succ_le hle) hrep
        refine ⟨found, A'', L', hwalk, hw.reported, fun e he => hw.subset e ?_, hw.stopped,
          fun hf => hsplit (hw.ended hf) fun _ _ => ?_⟩
        · exact mem_append_left _ he
        · exact mem_map.2 ⟨_, hw.subset _ (mem_append_right _ mem_cons_self), rfl⟩
    next hclash =>
      obtain ⟨found, A', L', hwalk, hw⟩ := ih (Nat.le_of_succ_le hle) h
      refine ⟨found, A', L', hwalk, hw.reported, hw.subset, hw.stopped,
        fun hf => hsplit (hw.ended hf) fun hne hover => absurd ⟨hne, ?_⟩ hclash⟩
      exact (clash_iff hk hnode).2 hover

/-! ## The invariant of the sweep -/

variable {T : OrderedMultiset (scan_point K) comp_scan_points} {s : Sweep T}
  {opened running : List ℕ}

/-- The sides `pre` have been met: the left sides of the boxes `opened`, among which the boxes
`running` have their right sides ahead. -/
structure SweepInv (dim n : ℕ) (x width : ℕ → K) (pre : List (scan_point K))
    (opened running : List ℕ) (L : List (ℕ × ℕ × K)) (s : Sweep T) : Prop where
  reported : Reported dim n x width s.A L
  tree : ((T.keys s.treey).map scanKey).Perm
    (opened.map (fun i => scanKey (scanpointsy dim n x width i)) ++
      running.map fun i => scanKey (scanpointsy dim n x width (i + n)))
  opened_iff : ∀ i, i ∈ opened ↔ i < n ∧ openPoint dim x width i ∈ pre
  running_iff : ∀ i, i ∈ running ↔ i ∈ opened ∧ closePoint dim n x width i ∉ pre
  running_nodup : running.Nodup
  complete : ∀ i j, closePoint dim n x width i ∈ pre → closePoint dim n x width j ∈ pre →
    i < n → j < n → i ≠ j → HeightsOverlap dim x width i j →
      (i, j) ∈ places L ∨ (j, i) ∈ places L

theorem sweepInv_start (treey : T.Tree) (htree : T.keys treey = []) :
    SweepInv dim n x width [] [] [] []
      (⟨treey, CoordMatrix_new n n 1 .MATRIX_TYPE_REAL⟩ : Sweep T) :=
  ⟨⟨CoordMatrix_new_holds 1, rfl, nofun⟩, by rw [htree]; exact .nil,
    fun i => ⟨nofun, fun h => (nomatch h.2)⟩, fun i => ⟨nofun, fun h => h.1⟩, .nil, nofun⟩

/-- The keys of the tree are those of boxes. -/
theorem SweepInv.node_lt (h : SweepInv dim n x width pre opened running L s) {key : scan_point K}
    (hkey : key ∈ T.keys s.treey) : key.node < n := by
  have hmem := h.tree.subset (mem_map_of_mem hkey)
  rw [mem_append, mem_map, mem_map] at hmem
  obtain ⟨i, hi, heq⟩ | ⟨i, hi, heq⟩ := hmem
  · have hin := ((h.opened_iff i).1 hi).1
    rw [scanpointsy_lower hin, scanKey_eq] at heq
    exact heq.2 ▸ hin
  · have hin := ((h.opened_iff i).1 ((h.running_iff i).1 hi).1).1
    rw [scanpointsy_upper, scanKey_eq] at heq
    exact heq.2 ▸ hin

/-- A left side is met. -/
theorem SweepInv.opens (h : SweepInv dim n x width pre opened running L s) (hi : i < n)
    (hnew : openPoint dim x width i ∉ pre) (hclose : closePoint dim n x width i ∉ pre) :
    ∃ s', scanPoint T n (scanpointsy dim n x width) check_overlap_only s
      (openPoint dim x width i) = .ok (false, s') ∧
        SweepInv dim n x width (pre ++ [openPoint dim x width i]) (i :: opened)
          (i :: running) L s' := by
  have hnotin : i ∉ opened := fun hin => hnew ((h.opened_iff i).1 hin).2
  have hclosed : ∀ l, closePoint dim n x width l ∈ pre ++ [openPoint dim x width i] ↔
      closePoint dim n x width l ∈ pre := fun l => by
    rw [mem_append, mem_singleton, or_iff_left openPoint_ne.symm]
  refine ⟨_, rfl, h.reported, ?_, fun j => ?_, fun j => ?_, ?_, fun j l hj hl => ?_⟩
  · have hins := (T.keys_insert (T.insert s.treey (scanpointsy dim n x width i))
      (scanpointsy dim n x width (i + n))).trans
        ((T.keys_insert s.treey (scanpointsy dim n x width i)).cons _)
    dsimp only [openPoint]
    rw [Nat.mod_eq_of_lt hi]
    refine (hins.map scanKey).trans
      (((h.tree.cons _).cons _).trans ((Perm.swap _ _ _).trans ?_))
    exact perm_middle.symm.cons _
  · rw [mem_cons, h.opened_iff, mem_append, mem_singleton]
    refine ⟨?_, fun ⟨hj, hmem⟩ => hmem.elim (fun hmem => .inr ⟨hj, hmem⟩) fun heq =>
      .inl (openPoint_inj heq)⟩
    rintro (rfl | ⟨hj, hmem⟩)
    · exact ⟨hi, .inr rfl⟩
    · exact ⟨hj, .inl hmem⟩
  · rw [mem_cons, h.running_iff, mem_cons, hclosed]
    refine ⟨?_, fun ⟨hmem, hnot⟩ => hmem.imp_right fun hmem => ⟨hmem, hnot⟩⟩
    rintro (rfl | ⟨hmem, hnot⟩)
    · exact ⟨.inl rfl, hclose⟩
    · exact ⟨.inr hmem, hnot⟩
  · exact nodup_cons.2 ⟨fun hin => hnotin ((h.running_iff i).1 hin).1, h.running_nodup⟩
  · exact h.complete j l ((hclosed j).1 hj) ((hclosed l).1 hl)

/-- The sweep stops at the first pair, or goes on with the invariant. -/
def Scanned (dim n : ℕ) (x width : ℕ → K) (check_overlap_only : Bool) (pre : List (scan_point K))
    (found : Bool) (s' : Sweep T) : Prop :=
  if found then check_overlap_only = true ∧ ∃ L', L' ≠ [] ∧ Reported dim n x width s'.A L'
  else ∃ opened running L', SweepInv dim n x width pre opened running L' s'

/-- A right side is met. -/
theorem SweepInv.closes [IsStrictOrderedRing K] (h : SweepInv dim n x width pre opened running L s)
    (hopen : ∀ i < n, closePoint dim n x width i ∈ pre → openPoint dim x width i ∈ pre)
    (hk : k < n) (hkopen : openPoint dim x width k ∈ pre)
    (hnew : closePoint dim n x width k ∉ pre) :
    ∃ found s', scanPoint T n (scanpointsy dim n x width) check_overlap_only s
      (closePoint dim n x width k) = .ok (found, s') ∧
        Scanned dim n x width check_overlap_only (pre ++ [closePoint dim n x width k])
          found s' := by
  have hopened : k ∈ opened := (h.opened_iff k).2 ⟨hk, hkopen⟩
  have hrunning : k ∈ running := (h.running_iff k).2 ⟨hopened, hnew⟩
  have hupper : scanKey (scanpointsy dim n x width (k + n)) ∈ (T.keys s.treey).map scanKey :=
    h.tree.symm.subset (mem_append_right _ (mem_map_of_mem hrunning))
  obtain ⟨key', hkey', heq'⟩ := mem_map.1 hupper
  obtain ⟨newNode0, key, hquery, hget, hkey⟩ := T.exists_query hkey' (comp_eq_eq.2 heq')
  rw [comp_eq_eq] at hkey
  have hnode : key.node = k := by
    rw [scanpointsy_upper, scanKey_eq] at hkey
    exact hkey.2
  obtain ⟨hlt, -⟩ := List.getElem?_eq_some_iff.1 hget
  obtain ⟨found, A', L', hwalk, hw⟩ := walk_spec check_overlap_only hk
    (fun key hkey => h.node_lt hkey) hlt.le h.reported
  have hrun : scanPoint T n (scanpointsy dim n x width) check_overlap_only s
      (closePoint dim n x width k) =
      .ok (found, if found then { s with A := A' } else ⟨T.delete s.treey newNode0, A'⟩) := by
    have hle : n ≤ (closePoint dim n x width k).node := Nat.le_add_left n k
    have hmod : (closePoint dim n x width k).node % n = k := by
      rw [closePoint, Nat.add_mod_right, Nat.mod_eq_of_lt hk]
    rw [scanPoint]
    simp only [hmod, hquery, hget, hnode, assert, hle, hk, if_true, hwalk, ok_bind]
    cases found with
    | true => rfl
    | false => rfl
  refine ⟨found, _, hrun, ?_⟩
  cases found with
  | true =>
    obtain ⟨hcheck, hne⟩ := hw.stopped rfl
    exact ⟨hcheck, L', hne, hw.reported⟩
  | false =>
    refine ⟨opened, running.erase k, L', hw.reported, ?_, fun i => ?_, fun i => ?_,
      h.running_nodup.erase k, fun i j hi hj hin hjn hne hover => ?_⟩
    · -- the upper end goes from the tree as the box goes from those that run
      have htree := ((T.perm_delete hget).map scanKey).symm.trans (h.tree.trans
        ((((perm_cons_erase hrunning).map _).append_left _).trans perm_middle))
      rw [map_cons, hkey] at htree
      exact htree.cons_inv
    · rw [h.opened_iff, mem_append, mem_singleton, or_iff_left openPoint_ne]
    · rw [h.running_nodup.mem_erase_iff, h.running_iff, mem_append, mem_singleton, not_or]
      refine ⟨fun h => ⟨h.2.1, h.2.2, fun heq => h.1 (closePoint_inj heq)⟩,
        fun h => ⟨fun heq => h.2.2 (heq ▸ rfl), h.1, h.2.1⟩⟩
    · have hold : ∀ i j, (i, j) ∈ places L → (i, j) ∈ places L' := fun i j hmem => by
        obtain ⟨e, he, heq⟩ := mem_map.1 hmem
        exact mem_map.2 ⟨e, hw.subset e he, heq⟩
      -- a box that has closed before is found through its lower end
      have hfound : ∀ i < n, closePoint dim n x width i ∈ pre → i ≠ k →
          HeightsOverlap dim x width k i → (i, k) ∈ places L' := by
        intro i hin hi hne hover
        have hlower : scanKey (scanpointsy dim n x width i) ∈ (T.keys s.treey).map scanKey :=
          h.tree.symm.subset (mem_append_left _
            (mem_map_of_mem ((h.opened_iff i).2 ⟨hin, hopen i hin hi⟩)))
        obtain ⟨low, hlow, hlowkey⟩ := mem_map.1 hlower
        have hlownode : low.node = i := by
          rw [scanpointsy_lower hin, scanKey_eq] at hlowkey
          exact hlowkey.2
        obtain ⟨q, hq, hqget⟩ := T.lt_of_cmp hget hlow
          (comp_eq_gt.2 (by rw [hkey, hlowkey]; exact hover.lower_lt hin))
          fun heq => hne (hlownode.symm.trans ((congrArg _ heq).trans hnode))
        rw [← hlownode]
        refine hw.ended rfl q hq low hqget ?_ ?_
        · rwa [hlownode]
        · rwa [hlownode]
      rw [mem_append, mem_singleton] at hi hj
      obtain hi | hi := hi
      · obtain hj | hj := hj
        · exact (h.complete i j hi hj hin hjn hne hover).imp (hold i j) (hold j i)
        · obtain rfl := closePoint_inj hj
          exact .inl (hfound i hin hi hne hover.symm)
      · obtain rfl := closePoint_inj hi
        obtain hj | hj := hj
        · exact .inr (hfound j hjn hj hne.symm hover)
        · exact absurd (closePoint_inj hj).symm hne

/-! ## The whole sweep -/

/-- What the sweep leaves: sound entries, which are complete unless the sweep stopped at one. -/
structure Swept (dim n : ℕ) (x width : ℕ → K) (check_overlap_only : Bool) (A : CoordMatrix K)
    (L : List (ℕ × ℕ × K)) : Prop where
  reported : Reported dim n x width A L
  complete : (check_overlap_only = true ∧ L ≠ []) ∨ ∀ i < n, ∀ j < n, i ≠ j →
    HeightsOverlap dim x width i j → (i, j) ∈ places L ∨ (j, i) ∈ places L

theorem scan_spec [IsStrictOrderedRing K] (hw : ∀ i < n, 0 ≤ width (i * dim))
    (hpts : scanpointsx dim n x width = pre ++ post)
    (h : SweepInv dim n x width pre opened running L s) :
    ∃ A L', scan T n (scanpointsy dim n x width) check_overlap_only post s = .ok A ∧
      Swept dim n x width check_overlap_only A L' := by
  induction post generalizing pre opened running L s with
  | nil =>
    rw [append_nil] at hpts
    have hclose : ∀ i < n, closePoint dim n x width i ∈ pre := fun i hi =>
      hpts ▸ mem_scanpointsx.2 ⟨i, hi, .inr rfl⟩
    exact ⟨s.A, L, rfl, h.reported, .inr fun i hi j hj hne hover =>
      h.complete i j (hclose i hi) (hclose j hj) hi hj hne hover⟩
  | cons point post ih =>
    have hnodup : (scanpointsx dim n x width).Nodup := scanpointsx_nodup
    rw [hpts, nodup_append] at hnodup
    have hnew : point ∉ pre := fun hmem => hnodup.2.2 point hmem point mem_cons_self rfl
    have hpts' : scanpointsx dim n x width = (pre ++ [point]) ++ post := by
      rw [hpts, append_assoc, singleton_append]
    obtain ⟨i, hi, heq⟩ := mem_scanpointsx.1
      (hpts ▸ mem_append_right pre mem_cons_self)
    have hstep : ∃ found s', scanPoint T n (scanpointsy dim n x width) check_overlap_only s point =
        .ok (found, s') ∧ Scanned dim n x width check_overlap_only (pre ++ [point]) found s' := by
      obtain rfl | rfl := heq
      · obtain ⟨s', hrun, hinv⟩ := h.opens check_overlap_only hi hnew
          fun hclose => hnew (openPoint_mem hpts hi (hw i hi) hclose)
        exact ⟨false, s', hrun, _, _, _, hinv⟩
      · refine h.closes check_overlap_only (fun j hj => openPoint_mem hpts hj (hw j hj)) hi ?_ hnew
        have hopen := openPoint_mem hpts' hi (hw i hi)
          (mem_append_right _ (mem_singleton_self _))
        rw [mem_append, mem_singleton] at hopen
        exact hopen.resolve_right openPoint_ne
    obtain ⟨found, s', hrun, hscanned⟩ := hstep
    rw [scan, hrun, ok_bind]
    cases found with
    | true =>
      obtain ⟨hcheck, L', hne, hrep⟩ := hscanned
      exact ⟨s'.A, L', rfl, hrep, .inl ⟨hcheck, hne⟩⟩
    | false =>
      obtain ⟨opened', running', L', hinv⟩ := hscanned
      exact ih hpts' hinv

end Graphviz.Overlap

/-!
## The overlap graph is exact only where overlapping heights are overlaps

The matrix has an entry for every two boxes whose height intervals overlap. The lower end of a box
is not deleted when the box closes, so that boxes far apart from each other are reported. The graph
is that of the boxes that intersect exactly if there are no others whose height intervals overlap.
-/

namespace Graphviz.Overlap

open Outcome Sparse

variable {K : Type} [Field K] [LinearOrder K] {T : OrderedMultiset (scan_point K) comp_scan_points}
  {dim n : ℕ} {x width : ℕ → K} {check_overlap_only : Bool} {i j : ℕ}

/-- The open boxes intersect in both axes. -/
def BoxesIntersect (dim : ℕ) (x width : ℕ → K) (i j : ℕ) : Prop :=
  ∀ d < 2, (Set.Ioo (x (i * dim + d) - width (i * dim + d))
    (x (i * dim + d) + width (i * dim + d)) ∩ Set.Ioo (x (j * dim + d) - width (j * dim + d))
      (x (j * dim + d) + width (j * dim + d))).Nonempty

/-- The matrix of `get_overlap_graph` has the boxes that intersect as its entries, and with
`check_overlap_only` it has an entry if two boxes intersect. -/
structure OverlapGraphExact (T : OrderedMultiset (scan_point K) comp_scan_points) (dim n : ℕ)
    (x width : ℕ → K) : Prop where
  graph : ∃ A, get_overlap_graph T dim n x width false = .ok A ∧
    ∀ i < n, ∀ j < n, i ≠ j → (j ∈ A.matrix.cols i ↔ BoxesIntersect dim x width i j)
  check : ∃ A, get_overlap_graph T dim n x width true = .ok A ∧
    ((∃ i < n, ∃ j < n, j ∈ A.matrix.cols i) ↔
      ∃ i < n, ∃ j < n, i ≠ j ∧ BoxesIntersect dim x width i j)

/-- Boxes that intersect overlap in height. -/
theorem BoxesIntersect.heights [IsStrictOrderedRing K] (h : BoxesIntersect dim x width i j) :
    HeightsOverlap dim x width i j := by
  obtain ⟨z, hi, hj⟩ := h 1 one_lt_two
  rw [Set.mem_Ioo] at hi hj
  rw [HeightsOverlap, abs_lt]
  constructor <;> linarith [hi.1, hi.2, hj.1, hj.2]

/-- Without boxes the matrix cannot be converted. -/
theorem get_overlap_graph_zero : get_overlap_graph T dim 0 x width check_overlap_only =
    .error .assertion := rfl

/-- The entries of the matrix are those that the sweep reports, in both directions. -/
theorem get_overlap_graph_spec [IsStrictOrderedRing K] (hn : 0 < n)
    (hw : ∀ i < n, 0 ≤ width (i * dim)) (T : OrderedMultiset (scan_point K) comp_scan_points)
    (check_overlap_only : Bool) :
    ∃ A C L, get_overlap_graph T dim n x width check_overlap_only = .ok A ∧
      Swept dim n x width check_overlap_only C L ∧
      ∀ i < n, ∀ j < n, j ∈ A.matrix.cols i ↔ (i, j) ∈ places L ∨ (j, i) ∈ places L := by
  obtain ⟨C, L, hscan, hswept⟩ := scan_spec check_overlap_only hw
    (List.nil_append (scanpointsx dim n x width)).symm (sweepInv_start (T := T) _ T.keys_empty)
  have hrep := hswept.reported
  obtain ⟨B, hB, -, hplaces⟩ := (from_coordinate_format_spec hrep.holds hn
    fun e he => (hrep.sound e he).1 ▸ zero_lt_one).exists_ok
  obtain ⟨A, hA, hsym⟩ := (symmetrize_cols (A := ⟨B, false, false⟩) hplaces.valid hplaces.nonzero
    rfl rfl false).exists_ok
  refine ⟨A, C, L, ?_, hswept, fun i hi j hj => ?_⟩
  · rw [get_overlap_graph, hscan, ok_bind, hB, ok_bind]
    exact hA
  · rw [hsym.cols i hi j hj, hplaces.cols i hi j hj, hplaces.cols j hj i hi]

/-- What is reported overlaps in height. -/
theorem Reported.places {A : CoordMatrix K} {L : List (ℕ × ℕ × K)}
    (h : Reported dim n x width A L) (hmem : (i, j) ∈ places L) :
    i ≠ j ∧ HeightsOverlap dim x width i j := by
  obtain ⟨e, he, heq⟩ := List.mem_map.1 hmem
  obtain ⟨rfl, rfl⟩ := Prod.mk.inj heq
  exact (h.sound e he).2

/-- The matrix has an entry for every two boxes whose heights overlap. -/
theorem overlapGraph_cols [IsStrictOrderedRing K] (hn : 0 < n)
    (hw : ∀ i < n, 0 ≤ width (i * dim)) (T : OrderedMultiset (scan_point K) comp_scan_points) :
    ∃ A, get_overlap_graph T dim n x width false = .ok A ∧
      ∀ i < n, ∀ j < n, i ≠ j → (j ∈ A.matrix.cols i ↔ HeightsOverlap dim x width i j) := by
  obtain ⟨A, C, L, hA, hswept, hcols⟩ := get_overlap_graph_spec hn hw T false
  refine ⟨A, hA, fun i hi j hj hne => (hcols i hi j hj).trans ⟨fun h => ?_, fun h => ?_⟩⟩
  · obtain h | h := h
    · exact (hswept.reported.places h).2
    · exact (hswept.reported.places h).2.symm
  · obtain ⟨hfalse, -⟩ | hall := hswept.complete
    · exact (nomatch hfalse)
    · exact hall i hi j hj hne h

/-- With `check_overlap_only` the matrix has an entry if the heights of two boxes overlap. -/
theorem overlapCheck_cols [IsStrictOrderedRing K] (hn : 0 < n)
    (hw : ∀ i < n, 0 ≤ width (i * dim)) (T : OrderedMultiset (scan_point K) comp_scan_points) :
    ∃ A, get_overlap_graph T dim n x width true = .ok A ∧
      ((∃ i < n, ∃ j < n, j ∈ A.matrix.cols i) ↔
        ∃ i < n, ∃ j < n, i ≠ j ∧ HeightsOverlap dim x width i j) := by
  obtain ⟨A, C, L, hA, hswept, hcols⟩ := get_overlap_graph_spec hn hw T true
  refine ⟨A, hA, ⟨fun ⟨i, hi, j, hj, hmem⟩ => ?_, fun ⟨i, hi, j, hj, hne, hover⟩ => ?_⟩⟩
  · obtain h | h := (hcols i hi j hj).1 hmem
    · exact ⟨i, hi, j, hj, hswept.reported.places h⟩
    · exact ⟨j, hj, i, hi, hswept.reported.places h⟩
  · obtain ⟨-, hsome⟩ | hall := hswept.complete
    · obtain ⟨e, he⟩ := List.exists_mem_of_ne_nil L hsome
      obtain ⟨hrow, hcol⟩ := hswept.reported.holds.inRange e he
      exact ⟨e.1, hrow, e.2.1, hcol, (hcols e.1 hrow e.2.1 hcol).2 (.inl (List.mem_map_of_mem he))⟩
    · exact ⟨i, hi, j, hj, (hcols i hi j hj).2 (hall i hi j hj hne hover)⟩

/-- The overlap graph is exact exactly when there are boxes, and every two of them whose heights
overlap intersect. -/
theorem overlapGraph_iff [IsStrictOrderedRing K]
    (T : OrderedMultiset (scan_point K) comp_scan_points) (hw : ∀ i < n, 0 ≤ width (i * dim)) :
    OverlapGraphExact T dim n x width ↔ 0 < n ∧ ∀ i < n, ∀ j < n, i ≠ j →
      HeightsOverlap dim x width i j → BoxesIntersect dim x width i j := by
  refine ⟨fun h => ?_, fun ⟨hn, hall⟩ => ⟨?_, ?_⟩⟩
  · obtain ⟨A, hA, hexact⟩ := h.graph
    have hn : 0 < n := pos_of_ne_zero fun hzero => by
      subst hzero
      rw [get_overlap_graph_zero] at hA
      cases hA
    obtain ⟨A', hA', hcols⟩ := overlapGraph_cols (x := x) hn hw T
    rw [hA, Except.ok.injEq] at hA'
    subst hA'
    exact ⟨hn, fun i hi j hj hne hover =>
      (hexact i hi j hj hne).1 ((hcols i hi j hj hne).2 hover)⟩
  · obtain ⟨A, hA, hcols⟩ := overlapGraph_cols (x := x) hn hw T
    exact ⟨A, hA, fun i hi j hj hne => (hcols i hi j hj hne).trans
      ⟨hall i hi j hj hne, BoxesIntersect.heights⟩⟩
  · obtain ⟨A, hA, hcols⟩ := overlapCheck_cols (x := x) hn hw T
    refine ⟨A, hA, hcols.trans ⟨?_, ?_⟩⟩
    · exact fun ⟨i, hi, j, hj, hne, hover⟩ => ⟨i, hi, j, hj, hne, hall i hi j hj hne hover⟩
    · exact fun ⟨i, hi, j, hj, hne, hmeet⟩ => ⟨i, hi, j, hj, hne, hmeet.heights⟩

/-- The trees of sorted lists. -/
def scanTree : OrderedMultiset (scan_point ℚ) comp_scan_points :=
  .sortedList (f := scanKey) fun _ _ => comp_eq_gt

/-- The centres of two boxes, the second to the right of the first one. -/
def apart (distance : ℚ) (c : ℕ) : ℚ :=
  if c = 2 then distance else 0

/-- Two boxes that intersect. -/
theorem overlapGraph_iff_apart : OverlapGraphExact scanTree 2 2 (apart 1) fun _ => 1 := by
  refine (overlapGraph_iff scanTree fun _ _ => zero_le_one).2 ⟨two_pos, ?_⟩
  intro i hi j hj hne _ d hd
  refine ⟨if d = 0 then 1 / 2 else 0, ?_, ?_⟩
  · rw [Set.mem_Ioo]
    interval_cases i <;> interval_cases d <;> norm_num [apart]
  · rw [Set.mem_Ioo]
    interval_cases j <;> interval_cases d <;> norm_num [apart]

/-- Two boxes that are far apart from each other are reported. -/
theorem overlapGraph_apart : ¬OverlapGraphExact scanTree 2 2 (apart 10) fun _ => 1 := by
  intro h
  obtain ⟨A, hA, hexact⟩ := h.graph
  obtain ⟨A', hA', hcols⟩ := @overlapGraph_cols ℚ _ _ 2 2 (apart 10) (fun _ => 1) _ two_pos
    (fun _ _ => zero_le_one) scanTree
  rw [hA, Except.ok.injEq] at hA'
  subst hA'
  have hmem : 1 ∈ A.matrix.cols 0 := (hcols 0 two_pos 1 one_lt_two zero_ne_one).2
    (by norm_num [HeightsOverlap, apart])
  obtain ⟨z, hleft, hright⟩ :=
    (hexact 0 two_pos 1 one_lt_two zero_ne_one).1 hmem 0 two_pos
  rw [Set.mem_Ioo] at hleft hright
  norm_num [apart] at hleft hright
  linarith [hleft.2, hright.1]

end Graphviz.Overlap
