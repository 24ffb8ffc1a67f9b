import Graphviz.Library.Instances
import Graphviz.Util.Fault

/-!
# The quadtree of a set of points

`QuadTree_add` sends a point down the cells that contain it. A cell without children holds its
points in a list; it is opened when a second point comes, unless it is at the level limit, where
the list grows. Numbers are exact. `1 << dim` is `2 ^ dim`, without overflow.
-/

namespace Graphviz.Quad

open Finset Function Multiset Nat Outcome

/-- `node_data_struct`: a point with its weight and its id. -/
structure node_data (dim : ℕ) (K : Type) where
  node_weight : K
  coord : Fin dim → K
  id : ℤ

/-- The fields of `QuadTree_struct` that are the cell's own. `dim` and `max_level` are the same in
every cell; `average` is zero here while it is `NULL` there, before the first point. -/
structure cell_t (dim : ℕ) (K : Type) where
  n : ℕ
  total_weight : K
  center : Fin dim → K
  width : K
  average : Fin dim → K
  l : List (node_data dim K)

/-- `QuadTree`: a null pointer, or a cell with `qts`; `opened` tells whether that array exists. -/
inductive QuadTree (dim : ℕ) (K : Type) where
  | null
  | cell (c : cell_t dim K) (opened : Bool) (qts : Fin (2 ^ dim) → QuadTree dim K)

variable {dim : ℕ} {K : Type}

/-- The test of a pointer. -/
def QuadTree.isNull : QuadTree dim K → Bool
  | .null => true
  | .cell .. => false

/-- The points in the lists of a cell and of the cells under it. -/
def QuadTree.points : QuadTree dim K → Multiset (node_data dim K)
  | .null => 0
  | .cell c _ qts => c.l + ∑ i, (qts i).points

variable [Field K] [LinearOrder K]

/-- `QuadTree_new` -/
def QuadTree_new (center : Fin dim → K) (width : K) : Except Fault (QuadTree dim K) := do
  assert (0 < width)
  return .cell ⟨0, 0, center, width, fun _ => 0, []⟩ false fun _ => .null

/-- `QuadTree_get_quadrant` -/
def QuadTree_get_quadrant (center coord : Fin dim → K) : ℕ :=
  Fin.foldr dim (fun i d => if coord i - center i < 0 then 2 * d else 2 * d + 1) 0

/-- The centre of the cell in quadrant `i`. At step `k` of its loop the source has halved `i` `k`
times. -/
def quadrantCenter (center : Fin dim → K) (width : K) (i : ℕ) : Fin dim → K :=
  fun k => if i / 2 ^ k.1 % 2 = 0 then center k - width else center k + width

/-- `QuadTree_new_in_quadrant` -/
def QuadTree_new_in_quadrant (center : Fin dim → K) (width : K) (i : ℕ) :
    Except Fault (QuadTree dim K) :=
  QuadTree_new (quadrantCenter center width i) width

attribute [local instance] Instances.atLeastTwo_two

/-- The child in quadrant `ii`, created where there is none. -/
def childAt (c : cell_t dim K) (q : QuadTree dim K) (ii : ℕ) : Except Fault (QuadTree dim K) :=
  match q with
  | .null => QuadTree_new_in_quadrant c.center (c.width / 2) ii
  | .cell c o qts => pure (.cell c o qts)

/-- The lines of `QuadTree_add_internal`, written twice there, that add a point to the child in
its quadrant. -/
def addToChild (add : QuadTree dim K → node_data dim K → Except Fault (QuadTree dim K))
    (c : cell_t dim K) (qts : Fin (2 ^ dim) → QuadTree dim K) (nd : node_data dim K) :
    Except Fault (Fin (2 ^ dim) → QuadTree dim K) :=
  let ii := QuadTree_get_quadrant c.center nd.coord
  if h : ii < 2 ^ dim then do
    let q ← childAt c (qts ⟨ii, h⟩) ii
    let q ← add q nd
    assert (!q.isNull)
    return update qts ⟨ii, h⟩ q
  else .error .assertion

/-- The point that a cell held until now goes to its child. -/
def addOld (add : QuadTree dim K → node_data dim K → Except Fault (QuadTree dim K))
    (c : cell_t dim K) (qts : Fin (2 ^ dim) → QuadTree dim K) :
    Except Fault (Fin (2 ^ dim) → QuadTree dim K) :=
  match c.l with
  | [] => pure qts
  | old :: _ => do
    assert (c.n = 1)
    addToChild add c qts old

/-- `QuadTree_add_internal`. The first argument is `max_level - level`. -/
def QuadTree_add_internal :
    ℕ → QuadTree dim K → node_data dim K → Except Fault (QuadTree dim K)
  | _, .null, _ => .error .segfault
  | rest, .cell c opened qts, nd =>
    if c.n = 0 then do
      assert c.l.isEmpty
      return .cell { c with n := 1, total_weight := nd.node_weight, average := nd.coord, l := [nd] }
        opened qts
    else match rest with
      | rest + 1 => do
        let average k := (c.average k * c.n + nd.coord k) / (c.n + 1)
        let qts := if opened then qts else fun _ => .null
        let qts ← addToChild (QuadTree_add_internal rest) c qts nd
        let qts ← addOld (QuadTree_add_internal rest) c qts
        let total_weight := c.total_weight + nd.node_weight
        return .cell { c with n := c.n + 1, total_weight, average, l := [] } true qts
      | 0 => do
        assert (!opened)
        -- `q->n++` stands before the average is taken
        let n := c.n + 1
        let average k := (c.average k * n + nd.coord k) / (n + 1)
        assert (!c.l.isEmpty)
        let total_weight := c.total_weight + nd.node_weight
        return .cell { c with n, total_weight, average, l := nd :: c.l } opened qts

/-- `QuadTree_add` -/
def QuadTree_add (max_level : ℤ) (q : QuadTree dim K) (nd : node_data dim K) :
    Except Fault (QuadTree dim K) :=
  if q.isNull then .ok q else QuadTree_add_internal max_level.toNat q nd

/-- `QuadTree_new`, then `QuadTree_add` for each point. -/
def addAll (center : Fin dim → K) (width : K) (max_level : ℤ) (pts : List (node_data dim K)) :
    Except Fault (QuadTree dim K) := do
  let q ← QuadTree_new center width
  pts.foldlM (QuadTree_add max_level) q

/-! ## Quadrants and boxes -/

/-- The box of a cell, its centre ± its width. -/
def InBox (center : Fin dim → K) (width : K) (x : Fin dim → K) : Prop :=
  ∀ k, |x k - center k| ≤ width

/-- The quadrants that a point goes through on its way down from a cell. -/
def path : ℕ → (Fin dim → K) → K → (Fin dim → K) → List ℕ
  | 0, _, _, _ => []
  | rest + 1, center, width, x =>
    let i := QuadTree_get_quadrant center x
    i :: path rest (quadrantCenter center (width / 2) i) (width / 2) x

variable {center x : Fin dim → K} {width : K} {nd : node_data dim K} {rest : ℕ}

theorem quadrant_eq_ofBits :
    QuadTree_get_quadrant center x = ofBits fun i => !decide (x i - center i < 0) := by
  unfold QuadTree_get_quadrant ofBits
  congr
  funext i d
  split <;> simp [*]

theorem quadrant_lt : QuadTree_get_quadrant center x < 2 ^ dim := by
  rw [quadrant_eq_ofBits]
  exact ofBits_lt_two_pow _

section
variable [IsStrictOrderedRing K]

/-- A digit of the quadrant tells the side of the centre. -/
theorem quadrant_digit (k : Fin dim) :
    QuadTree_get_quadrant center x / 2 ^ k.1 % 2 = 0 ↔ x k < center k := by
  have h := testBit_ofBits_lt (fun i => !decide (x i - center i < 0)) k k.2
  rw [← quadrant_eq_ofBits, testBit_eq_decide_div_mod_eq] at h
  rw [← mod_two_ne_one, Ne, ← decide_eq_false_iff_not, h]
  simp

/-- A point of a cell's box lies in the box of its quadrant. -/
theorem InBox.quadrant (h : InBox center width x) :
    InBox (quadrantCenter center (width / 2) (QuadTree_get_quadrant center x)) (width / 2) x := by
  intro k
  have hk := abs_le.1 (h k)
  rw [quadrantCenter, abs_le]
  split
  · have hlt := (quadrant_digit k).1 ‹_›
    constructor <;> linarith
  · have hge := not_lt.1 (mt (quadrant_digit k).2 ‹_›)
    constructor <;> linarith

end

/-! ## The cells' books -/

/-- What a cell's fields say of the points under it and of its children. -/
structure Books (rest : ℕ) (c : cell_t dim K) (opened : Bool)
    (qts : Fin (2 ^ dim) → QuadTree dim K) : Prop where
  pos : 0 < c.width
  count : c.n = (QuadTree.cell c opened qts).points.card
  weight : c.total_weight = ((QuadTree.cell c opened qts).points.map node_data.node_weight).sum
  closed : opened = false → ∀ i, qts i = .null
  opened : opened = true → rest ≠ 0 ∧ c.l = [] ∧ c.n ≠ 0
  single : rest ≠ 0 → c.l.length ≤ 1

/-- The cell that a pointer leads to has this centre and this width. -/
def QuadTree.At (center : Fin dim → K) (width : K) : QuadTree dim K → Prop
  | .null => False
  | .cell c _ _ => c.center = center ∧ c.width = width

/-- A child lies in its quadrant, and so do the points under it. -/
structure Placed (center : Fin dim → K) (width : K) (qts : Fin (2 ^ dim) → QuadTree dim K) :
    Prop where
  quadrant : ∀ i, ∀ p ∈ (qts i).points, QuadTree_get_quadrant center p.coord = i
  child : ∀ i, qts i = .null ∨ (qts i).At (quadrantCenter center (width / 2) i) (width / 2)

/-- The cells of a tree that may still be opened `rest` times are sound. -/
def QuadTree.Sound : ℕ → QuadTree dim K → Prop
  | _, .null => True
  | rest, .cell c opened qts =>
    Books rest c opened qts ∧ Placed c.center c.width qts ∧ ∀ i, (qts i).Sound (rest - 1)

/-- The averages of the cells of a tree are the means of the points under them. -/
def QuadTree.Means : QuadTree dim K → Prop
  | .null => True
  | .cell c opened qts =>
    (∀ k, c.average k * c.n = ((QuadTree.cell c opened qts).points.map (·.coord k)).sum) ∧
      ∀ i, (qts i).Means

/-- Points that never part on their way down are in one place. -/
def Apart (rest : ℕ) (center : Fin dim → K) (width : K) (s : Multiset (node_data dim K)) : Prop :=
  ∀ p ∈ s, ∀ q ∈ s,
    path rest center width p.coord = path rest center width q.coord → p.coord = q.coord

theorem Apart.mono {s t : Multiset (node_data dim K)} (h : Apart rest center width t)
    (hst : s ⊆ t) : Apart rest center width s :=
  fun p hp q hq => h p (hst hp) q (hst hq)

/-- What adding the point `nd` makes of a tree. -/
structure Added (rest : ℕ) (center : Fin dim → K) (width : K) (nd : node_data dim K)
    (q q' : QuadTree dim K) : Prop where
  sound : q'.Sound rest
  at_ : q'.At center width
  points : q'.points = nd ::ₘ q.points
  means : Apart rest center width (nd ::ₘ q.points) → q.Means → q'.Means

/-- What the children become when the points under them are `s`. -/
structure Filled (rest : ℕ) (center : Fin dim → K) (width : K) (s : Multiset (node_data dim K))
    (qts qts' : Fin (2 ^ dim) → QuadTree dim K) : Prop where
  sound : ∀ i, (qts' i).Sound rest
  placed : Placed center width qts'
  points : ∑ i, (qts' i).points = s
  means : Apart (rest + 1) center width s → (∀ i, (qts i).Means) → ∀ i, (qts' i).Means

/-- The points of a child are points of the cell. -/
theorem mem_points_child {c : cell_t dim K} {o : Bool} {qts : Fin (2 ^ dim) → QuadTree dim K}
    {p : node_data dim K} (i : Fin (2 ^ dim)) (h : p ∈ (qts i).points) :
    p ∈ (QuadTree.cell c o qts).points :=
  Multiset.mem_add.2 (.inr (mem_sum.2 ⟨i, mem_univ i, h⟩))

theorem QuadTree.At.isNull {q : QuadTree dim K} (h : q.At center width) : q.isNull = false := by
  cases q with
  | null => exact h.elim
  | cell _ _ _ => rfl

/-- The points under an array with one entry replaced. -/
theorem sum_points_update {qts : Fin (2 ^ dim) → QuadTree dim K} {i : Fin (2 ^ dim)}
    {q : QuadTree dim K} (h : q.points = nd ::ₘ (qts i).points) :
    ∑ j, (update qts i q j).points = nd ::ₘ ∑ j, (qts j).points := by
  have hcomp : (fun j => (update qts i q j).points) =
      update (fun j => (qts j).points) i q.points :=
    funext fun j => apply_update (fun _ => QuadTree.points) qts i q j
  rw [hcomp, sum_update_of_mem (mem_univ i), h, ← erase_eq, cons_add,
    add_sum_erase univ (fun j => (qts j).points) (mem_univ i)]

variable {c : cell_t dim K} {opened : Bool} {qts qts' : Fin (2 ^ dim) → QuadTree dim K}
  {add : QuadTree dim K → node_data dim K → Except Fault (QuadTree dim K)}

/-- A new cell is sound. -/
theorem QuadTree_new_spec (rest : ℕ) (hpos : 0 < width) :
    Meets (QuadTree_new center width) (fun q => q.Sound rest ∧ q.At center width ∧
      q.points = 0 ∧ q.Means) (fun _ => False) := by
  refine Meets.assert hpos ?_
  have hpts : (QuadTree.cell ⟨0, 0, center, width, fun _ => 0, []⟩ false
      fun _ => .null : QuadTree dim K).points = 0 := by
    simp [QuadTree.points]
  refine ⟨⟨⟨hpos, ?_, ?_, fun _ _ => rfl, nofun, fun _ => Nat.zero_le _⟩,
    ⟨fun i p hp => absurd hp (notMem_zero p), fun i => .inl rfl⟩, fun i => trivial⟩,
    ⟨rfl, rfl⟩, hpts, fun k => ?_, fun i => trivial⟩
  all_goals simp [hpts]

/-- Adding a point to the child in its quadrant. -/
theorem addToChild_spec (hadd : ∀ nd {q center width}, q.Sound rest → q.At center width →
      Meets (add q nd) (Added rest center width nd q) fun _ => False)
    (hpos : 0 < c.width / 2) (hs : ∀ i, (qts i).Sound rest) (hp : Placed c.center c.width qts) :
    Meets (addToChild add c qts nd)
      (Filled rest c.center c.width (nd ::ₘ ∑ i, (qts i).points) qts) fun _ => False := by
  have hlt : QuadTree_get_quadrant c.center nd.coord < 2 ^ dim := quadrant_lt
  rw [addToChild, dif_pos hlt]
  generalize hi : (⟨QuadTree_get_quadrant c.center nd.coord, hlt⟩ : Fin (2 ^ dim)) = i
  have hi' : QuadTree_get_quadrant c.center nd.coord = i := congrArg Fin.val hi
  rw [hi']
  have hchild : Meets (childAt c (qts i) i) (fun q => q.Sound rest ∧
      q.At (quadrantCenter c.center (c.width / 2) i) (c.width / 2) ∧
      q.points = (qts i).points ∧ ((qts i).Means → q.Means)) fun _ => False := by
    cases hq : qts i with
    | null =>
      exact (QuadTree_new_spec rest hpos).imp fun q h => ⟨h.1, h.2.1, h.2.2.1, fun _ => h.2.2.2⟩
    | cell c' o' qts' =>
      have hat := (hp.child i).resolve_left (hq ▸ nofun)
      exact ⟨hq ▸ hs i, hq ▸ hat, rfl, id⟩
  refine hchild.bind fun q ⟨hsq, hat, hpts, hmeans⟩ => (hadd nd hsq hat).bind fun q' h => ?_
  have hpts' : q'.points = nd ::ₘ (qts i).points := hpts ▸ h.points
  have hquad : ∀ p ∈ nd ::ₘ (qts i).points, QuadTree_get_quadrant c.center p.coord = i :=
    fun p hmem => (Multiset.mem_cons.1 hmem).elim (fun heq => heq ▸ hi') (hp.quadrant i p)
  have hsub : ∀ p ∈ nd ::ₘ (qts i).points, p ∈ nd ::ₘ ∑ j, (qts j).points := fun p hmem =>
    Multiset.mem_cons.2 <| (Multiset.mem_cons.1 hmem).imp_right fun hmem =>
      mem_sum.2 ⟨i, mem_univ i, hmem⟩
  refine Meets.assert (by rw [h.at_.isNull]; rfl)
    ⟨?_, ⟨?_, ?_⟩, sum_points_update hpts', fun ha hm => ?_⟩
  · exact (forall_update_iff qts fun _ t => t.Sound rest).2 ⟨h.sound, fun j _ => hs j⟩
  · exact (forall_update_iff qts fun j t => ∀ p ∈ t.points,
      QuadTree_get_quadrant c.center p.coord = j).2
      ⟨fun p hmem => hquad p (hpts' ▸ hmem), fun j _ => hp.quadrant j⟩
  · exact (forall_update_iff qts fun j t => t = .null ∨
      t.At (quadrantCenter c.center (c.width / 2) j) (c.width / 2)).2
      ⟨.inr h.at_, fun j _ => hp.child j⟩
  · refine (forall_update_iff qts fun _ t => t.Means).2 ⟨?_, fun j _ => hm j⟩
    refine h.means (hpts ▸ fun p hmem p' hmem' heq => ?_) (hmeans (hm i))
    -- the points of the child have their first quadrant in common
    refine ha p (hsub p hmem) p' (hsub p' hmem') ?_
    rw [path, path, hquad p hmem, hquad p' hmem', heq]

theorem sum_points_null (h : ∀ i, qts i = .null) : ∑ i, (qts i).points = 0 :=
  sum_eq_zero fun i _ => by rw [h i, QuadTree.points]

/-- A cell that is not opened has no points but those of its list. -/
theorem Books.points_eq (hb : Books rest c opened qts) (h : opened = false) :
    (QuadTree.cell c opened qts).points = c.l := by
  rw [QuadTree.points, sum_points_null (hb.closed h), add_zero]

/-- The point that an opened cell held goes to its child. -/
theorem addOld_spec (hadd : ∀ nd {q center width}, q.Sound rest → q.At center width →
      Meets (add q nd) (Added rest center width nd q) fun _ => False)
    (hpos : 0 < c.width / 2) (hs : (QuadTree.cell c opened qts).Sound (rest + 1))
    (h : Filled rest c.center c.width (nd ::ₘ ∑ i, (qts i).points) qts qts') :
    Meets (addOld add c qts') (Filled rest c.center c.width
      (nd ::ₘ (QuadTree.cell c opened qts).points) qts) fun _ => False := by
  obtain ⟨hb, -⟩ := hs
  unfold addOld
  cases hl : c.l with
  | nil =>
    rw [QuadTree.points, hl, coe_nil, zero_add]
    exact h
  | cons old t =>
    have hop : opened = false := Bool.eq_false_iff.2 fun ho =>
      nomatch hl.symm.trans (hb.opened ho).2.1
    have ht : t = [] := by
      have := hb.single (succ_ne_zero rest)
      rw [hl, List.length_cons] at this
      exact List.eq_nil_of_length_eq_zero (by omega)
    have hpts : (QuadTree.cell c opened qts).points = {old} := by
      rw [hb.points_eq hop, hl, ht, Multiset.coe_singleton]
    have hsum := sum_points_null (hb.closed hop)
    have h1 : c.n = 1 := by rw [hb.count, hpts, Multiset.card_singleton]
    have hall : old ::ₘ ∑ i, (qts' i).points = nd ::ₘ (QuadTree.cell c opened qts).points := by
      rw [h.points, hsum, hpts, Multiset.cons_swap]
      rfl
    refine Meets.assert h1 ((addToChild_spec hadd hpos h.sound h.placed).imp fun qts'' h' =>
      ⟨h'.sound, h'.placed, h'.points.trans hall, fun ha hm =>
        h'.means (hall ▸ ha) (h.means (ha.mono ?_) hm)⟩)
    exact hsum ▸ Multiset.cons_subset_cons (Multiset.zero_subset _)

variable [IsStrictOrderedRing K]

/-- The first point of a cell. -/
theorem QuadTree.Sound.first (hs : (QuadTree.cell c opened qts).Sound rest) (hn : c.n = 0)
    (nd : node_data dim K) :
    c.l = [] ∧ Added rest c.center c.width nd (.cell c opened qts)
      (.cell { c with n := 1, total_weight := nd.node_weight, average := nd.coord, l := [nd] }
        opened qts) := by
  obtain ⟨hb, hp, hc⟩ := hs
  have hop : opened = false := Bool.eq_false_iff.2 fun ho => (hb.opened ho).2.2 hn
  have hl : c.l = [] := by
    rw [← Multiset.coe_eq_zero, ← hb.points_eq hop, ← Multiset.card_eq_zero, ← hb.count, hn]
  have hsum := sum_points_null (hb.closed hop)
  refine ⟨hl, ⟨⟨⟨hb.pos, ?_, ?_, hb.closed, fun h => ?_, fun _ => le_rfl⟩, hp, hc⟩, ⟨rfl, rfl⟩,
    ?_, fun _ hm => ⟨fun k => ?_, hm.2⟩⟩⟩
  case refine_3 => exact absurd (hop.symm.trans h) nofun
  all_goals simp [QuadTree.points, hsum, hl]

/-- A further point of a cell at the level limit. -/
theorem QuadTree.Sound.append (hs : (QuadTree.cell c opened qts).Sound 0) (hn : c.n ≠ 0)
    (nd : node_data dim K) :
    opened = false ∧ c.l ≠ [] ∧ Added 0 c.center c.width nd (.cell c opened qts)
      (.cell { c with
        n := c.n + 1, total_weight := c.total_weight + nd.node_weight, l := nd :: c.l
        average := fun k => (c.average k * (c.n + 1 : ℕ) + nd.coord k) / ((c.n + 1 : ℕ) + 1) }
        opened qts) := by
  obtain ⟨hb, hp, hc⟩ := hs
  have hop : opened = false := Bool.eq_false_iff.2 fun ho => (hb.opened ho).1 rfl
  have hpts := hb.points_eq hop
  have hadd : ∀ a : cell_t dim K, a.l = nd :: c.l →
      (QuadTree.cell a opened qts).points = nd ::ₘ (QuadTree.cell c opened qts).points := by
    intro a ha
    rw [QuadTree.points, QuadTree.points, ha, ← cons_coe, cons_add]
  refine ⟨hop, fun hl => hn ?_, ⟨⟨⟨hb.pos, ?_, ?_, hb.closed, fun h => ?_, absurd rfl⟩, hp, hc⟩,
    ⟨rfl, rfl⟩, hadd _ rfl, fun ha hm => ⟨fun k => ?_, hm.2⟩⟩⟩
  · rw [hb.count, hpts, hl, coe_nil, Multiset.card_zero]
  · rw [hadd _ rfl, Multiset.card_cons, ← hb.count]
  · rw [hadd _ rfl, Multiset.map_cons, Multiset.sum_cons, ← hb.weight]
    exact add_comm _ _
  · exact absurd (hop.symm.trans h) nofun
  -- all the points of the list are where the new one is
  have hsame : ∀ p ∈ (QuadTree.cell c opened qts).points, p.coord k = nd.coord k := fun p hmem =>
    congrFun (ha p (Multiset.mem_cons_of_mem hmem) nd (Multiset.mem_cons_self ..) rfl) k
  have havg := hm.1 k
  rw [Multiset.map_congr rfl hsame, map_const', sum_replicate, ← hb.count,
    nsmul_eq_mul, mul_comm] at havg
  have hn' : (c.n : K) ≠ 0 := cast_ne_zero.2 hn
  have heq := mul_left_cancel₀ hn' havg
  rw [hadd _ rfl, Multiset.map_cons, Multiset.sum_cons, ← hm.1 k]
  have hpos : ((c.n + 1 : ℕ) : K) + 1 ≠ 0 := by positivity
  have hnew : (c.average k * (c.n + 1 : ℕ) + nd.coord k) / ((c.n + 1 : ℕ) + 1) = nd.coord k := by
    rw [heq, div_eq_iff hpos]
    ring
  refine (congrArg (· * ((c.n + 1 : ℕ) : K)) hnew).trans ?_
  rw [heq]
  push_cast
  ring

/-- A cell whose points have gone to its children. -/
theorem QuadTree.Sound.split (hs : (QuadTree.cell c opened qts).Sound (rest + 1)) (hn : c.n ≠ 0)
    (h : Filled rest c.center c.width (nd ::ₘ (QuadTree.cell c opened qts).points) qts qts') :
    Added (rest + 1) c.center c.width nd (.cell c opened qts)
      (.cell { c with
        n := c.n + 1, total_weight := c.total_weight + nd.node_weight, l := []
        average := fun k => (c.average k * c.n + nd.coord k) / (c.n + 1) } true qts') := by
  have hb := hs.1
  have hadd : ∀ a : cell_t dim K, a.l = [] → (QuadTree.cell a true qts').points =
      nd ::ₘ (QuadTree.cell c opened qts).points := by
    intro a ha
    rw [QuadTree.points, ha, coe_nil, zero_add, h.points]
  refine ⟨⟨⟨hb.pos, ?_, ?_, nofun, fun _ => ⟨nofun, rfl, nofun⟩, fun _ => Nat.zero_le _⟩,
    h.placed, h.sound⟩, ⟨rfl, rfl⟩, hadd _ rfl, fun ha hm => ⟨fun k => ?_, h.means ha hm.2⟩⟩
  · rw [hadd _ rfl, Multiset.card_cons, ← hb.count]
  · rw [hadd _ rfl, Multiset.map_cons, Multiset.sum_cons, ← hb.weight]
    exact add_comm _ _
  · rw [hadd _ rfl, Multiset.map_cons, Multiset.sum_cons, ← hm.1 k]
    have hpos : (c.n : K) + 1 ≠ 0 := by positivity
    push_cast
    field_simp
    ring

/-- Adding a point to a sound tree. -/
theorem QuadTree_add_internal_spec (nd : node_data dim K) {q : QuadTree dim K}
    {center : Fin dim → K} {width : K} (hs : q.Sound rest) (hat : q.At center width) :
    Meets (QuadTree_add_internal rest q nd) (Added rest center width nd q) fun _ => False := by
  induction rest generalizing q center width nd with
  | zero =>
    cases q with
    | null => exact hat.elim
    | cell c opened qts =>
      obtain ⟨rfl, rfl⟩ := hat
      rw [QuadTree_add_internal]
      split
      · obtain ⟨hl, h⟩ := hs.first ‹_› nd
        exact Meets.assert (by rw [hl]; rfl) h
      · obtain ⟨hop, hl, h⟩ := hs.append ‹_› nd
        refine Meets.assert (by rw [hop]; rfl) (Meets.assert ?_ h)
        rw [Bool.not_eq_true', List.isEmpty_eq_false_iff]
        exact hl
  | succ rest ih =>
    cases q with
    | null => exact hat.elim
    | cell c opened qts =>
      obtain ⟨rfl, rfl⟩ := hat
      rw [QuadTree_add_internal]
      split
      · obtain ⟨hl, h⟩ := hs.first ‹_› nd
        exact Meets.assert (by rw [hl]; rfl) h
      have hn : c.n ≠ 0 := ‹_›
      have hqts : (if opened then qts else fun _ => .null) = qts := by
        cases opened with
        | true => rfl
        | false => exact funext fun i => (hs.1.closed rfl i).symm
      have hpos : 0 < c.width / 2 := half_pos hs.1.pos
      rw [hqts]
      refine (addToChild_spec ih hpos hs.2.2 hs.2.1).bind fun qts1 h1 => ?_
      exact (addOld_spec ih hpos hs h1).bind fun qts' h => hs.split hn h

/-! ## Runs -/

/-- The cells of a tree. -/
inductive QuadTree.Under : QuadTree dim K → QuadTree dim K → Prop
  | self (q : QuadTree dim K) : Under q q
  | child {s c opened qts} (i : Fin (2 ^ dim)) (h : Under s (qts i)) : Under s (.cell c opened qts)

/-- A cell's fields are right about the points `s` under it; a cell with children has no list. -/
structure Right (center : Fin dim → K) (width : K) (c : cell_t dim K)
    (qts : Fin (2 ^ dim) → QuadTree dim K) (s : Multiset (node_data dim K)) : Prop where
  n_eq : c.n = s.card
  weight : c.total_weight = (s.map node_data.node_weight).sum
  mean : ∀ k, c.average k * c.n = (s.map (·.coord k)).sum
  leaf : c.l ≠ [] → ∀ i, qts i = .null
  box : ∀ p ∈ s, InBox center width p.coord → InBox c.center c.width p.coord

/-- The tree holds the points and every cell is right. -/
structure Kept (center : Fin dim → K) (width : K) (pts : List (node_data dim K))
    (q : QuadTree dim K) : Prop where
  stored : q.points = pts
  right : ∀ {c o qts}, (QuadTree.cell c o qts).Under q →
    Right center width c qts (QuadTree.cell c o qts).points

variable {q : QuadTree dim K} {pts : List (node_data dim K)}

/-- What a tree's root keeps, its cells keep. -/
theorem QuadTree.Under.inv {s : QuadTree dim K} (hu : s.Under q) (hs : q.Sound rest)
    (hat : q = .null ∨ q.At center width) :
    (∃ rest', s.Sound rest') ∧ (q.Means → s.Means) ∧ ∀ {center' width'}, s.At center' width' →
      ∀ p ∈ s.points, p ∈ q.points ∧
        (InBox center width p.coord → InBox center' width' p.coord) := by
  induction hu generalizing rest center width with
  | self =>
    refine ⟨⟨rest, hs⟩, id, fun hat' p hp => ⟨hp, fun hbox => ?_⟩⟩
    cases s with
    | null => exact hat'.elim
    | cell c _ _ =>
      obtain ⟨rfl, rfl⟩ := hat'
      obtain ⟨rfl, rfl⟩ := hat.resolve_left nofun
      exact hbox
  | @child c opened qts i _ ih =>
    obtain ⟨rfl, rfl⟩ := hat.resolve_left nofun
    obtain ⟨hsound, hmeans, hbox⟩ := ih (hs.2.2 i) (hs.2.1.child i)
    refine ⟨hsound, fun hm => hmeans (hm.2 i), fun hat' p hp => ?_⟩
    obtain ⟨hp', hin⟩ := hbox hat' p hp
    refine ⟨mem_points_child i hp', fun h => hin ?_⟩
    rw [← hs.2.1.quadrant i p hp']
    exact h.quadrant

/-- A sound tree whose averages are means is right. -/
theorem QuadTree.Sound.kept (hs : q.Sound rest) (hat : q.At center width) (hm : q.Means)
    (hpts : q.points = pts) : Kept center width pts q := by
  refine ⟨hpts, fun hu => ?_⟩
  obtain ⟨⟨_, hb, _⟩, hmeans, hbox⟩ := hu.inv hs (.inr hat)
  exact ⟨hb.count, hb.weight, (hmeans hm).1,
    fun hl => hb.closed (Bool.eq_false_iff.2 fun ho => hl (hb.opened ho).2.1),
    fun p hp => (hbox ⟨rfl, rfl⟩ p hp).2⟩

/-- A run of `QuadTree_add` passes every assertion and keeps the tree sound. -/
theorem foldlM_QuadTree_add {max_level : ℤ} (hs : q.Sound max_level.toNat)
    (hat : q.At center width) :
    Meets (pts.foldlM (QuadTree_add max_level) q) (fun q' => q'.Sound max_level.toNat ∧
      q'.At center width ∧ q'.points = pts + q.points ∧
      (Apart max_level.toNat center width (pts + q.points) → q.Means → q'.Means))
      fun _ => False := by
  induction pts generalizing q with
  | nil => exact ⟨hs, hat, (zero_add _).symm, fun _ => id⟩
  | cons nd pts ih =>
    rw [List.foldlM_cons, QuadTree_add, hat.isNull]
    refine (QuadTree_add_internal_spec nd hs hat).bind fun q1 h1 => ?_
    have hpts : (pts : Multiset (node_data dim K)) + q1.points =
        (nd :: pts : List _) + q.points := by
      rw [h1.points, add_cons, ← cons_coe, cons_add]
    refine (ih h1.sound h1.at_).imp fun q' ⟨hs', hat', hpts', hm'⟩ =>
      ⟨hs', hat', hpts'.trans hpts, fun ha hm => hm' (hpts ▸ ha) (h1.means (ha.mono ?_) hm)⟩
    rw [← cons_coe, cons_add]
    exact Multiset.cons_subset_cons (Multiset.subset_of_le (Multiset.le_add_left _ _))

/-- A tree made of a list of points is sound and holds them; it needs the points to be `Apart`
only for its averages. -/
theorem addAll_spec {max_level : ℤ} (hw : 0 < width) :
    Meets (addAll center width max_level pts) (fun q => q.Sound max_level.toNat ∧
      q.At center width ∧ q.points = pts ∧
      (Apart max_level.toNat center width pts → q.Means)) fun _ => False := by
  refine (QuadTree_new_spec max_level.toNat hw).bind fun q ⟨hs, hat, hpts, hm⟩ => ?_
  refine (foldlM_QuadTree_add hs hat).imp fun q' h => ?_
  rw [hpts, add_zero] at h
  exact ⟨h.1, h.2.1, h.2.2.1, fun ha => h.2.2.2 ha hm⟩

/-- No assertion fails, and after each point that is added every cell's fields are right, when
points that go through the same quadrants down to the level limit are in one place. -/
theorem QuadTree_add_kept (center : Fin dim → K) (width : K) (hw : 0 < width) (max_level : ℤ)
    (pts : List (node_data dim K)) (ha : Apart max_level.toNat center width pts) :
    ∀ done, done <+: pts →
      ∃ q, addAll center width max_level done = .ok q ∧ Kept center width done q := by
  intro done hdone
  obtain ⟨q, hq, hs, hat, hpts, hm⟩ := (addAll_spec hw).exists_ok
  exact ⟨q, hq, hs.kept hat (hm (ha.mono fun _ h => hdone.subset h)) hpts⟩

/-- Two points in one place, in one list. -/
theorem QuadTree_add_kept_twice :
    ∃ q : QuadTree 1 ℚ, addAll (fun _ => 0) 1 0 [⟨1, fun _ => 0, 0⟩, ⟨2, fun _ => 0, 1⟩] = .ok q ∧
      Kept (fun _ => 0) 1 [⟨1, fun _ => 0, 0⟩, ⟨2, fun _ => 0, 1⟩] q :=
  QuadTree_add_kept _ _ one_pos 0 _ (fun p hp q hq _ => by
    simp only [Multiset.mem_coe, List.mem_cons, List.not_mem_nil, or_false] at hp hq
    rcases hp with rfl | rfl <;> rcases hq with rfl | rfl <;> rfl) _ List.prefix_rfl

/-- The points 0 and 1 in one list: their average comes out as 1/3. -/
theorem QuadTree_add_two :
    ¬ ∀ pts : List (node_data 1 ℚ), (∀ p ∈ pts, 0 < p.node_weight) →
      ∃ q, addAll (fun _ => 0) 1 0 pts = .ok q ∧ Kept (fun _ => 0) 1 pts q := by
  intro h
  obtain ⟨q, hq, hk⟩ := h [⟨1, fun _ => 0, 0⟩, ⟨1, fun _ => 1, 1⟩] (by simp)
  obtain ⟨c, o, qts, rfl, hn, havg⟩ : ∃ c o qts, q = .cell c o qts ∧ c.n = 2 ∧
      c.average 0 = (0 * 2 + 1) / (2 + 1) := ⟨_, _, _, (Except.ok.inj hq).symm, rfl, rfl⟩
  have hmean := (hk.right (.self _)).mean 0
  rw [hk.stored, hn, havg] at hmean
  norm_num at hmean

end Graphviz.Quad
