import Graphviz.Sparse.QuadTree

/-!
# The point of a quadtree nearest to a given one

`QuadTree_get_nearest` goes down once, greedily, for a first bound, and then through the whole
tree, leaving out the cells that are too far away. Numbers are exact and `sqrt` is a parameter.
-/

namespace Graphviz.Quad

open Finset List Outcome

variable {dim n : ℕ} {K : Type} [Field K] [LinearOrder K]

/-- The loops that leave the least coordinates in `xmin` and the greatest in `xmax`. -/
def xmin (coord : Fin (n + 1) → Fin dim → K) (k : Fin dim) : K :=
  (finRange n).foldl (fun m i => min m (coord i.succ k)) (coord 0 k)

/-- The other one of these loops. -/
def xmax (coord : Fin (n + 1) → Fin dim → K) (k : Fin dim) : K :=
  (finRange n).foldl (fun m i => max m (coord i.succ k)) (coord 0 k)

attribute [local instance] Instances.atLeastTwo_two

/-- `QuadTree_new_from_point_list`, from `n + 1` points. -/
def QuadTree_new_from_point_list (max_level : ℤ) (coord : Fin (n + 1) → Fin (dim + 1) → K) :
    Except Fault (QuadTree (dim + 1) K) :=
  let center i := (xmin coord i + xmax coord i) * (1 / 2)
  let width := (finRange (dim + 1)).foldl (fun w i => max w (xmax coord i - xmin coord i))
    (xmax coord 0 - xmin coord 0)
  let width := max width (1 / 100000) * (52 / 100)
  addAll center width max_level ((finRange (n + 1)).map fun i => ⟨1, coord i, i⟩)

/-- What `QuadTree_get_nearest` returns through its pointers. -/
structure nearest_t (dim : ℕ) (K : Type) where
  min : K
  imin : ℤ
  y : Fin dim → K

variable (sqrt : K → K)

/-- `point_distance` -/
def point_distance (p1 p2 : Fin dim → K) : K :=
  sqrt (∑ i, (p1 i - p2 i) * (p1 i - p2 i))

/-- One turn of the loop over a cell's list. -/
def nearer (x : Fin dim → K) (s : nearest_t dim K) (l : node_data dim K) : nearest_t dim K :=
  let dist := point_distance sqrt x l.coord
  if s.min < 0 ∨ dist < s.min then ⟨dist, l.id, l.coord⟩ else s

/-- The child whose average is nearest: the loop's `qmin` and `iq`. -/
def nearestChild (x : Fin dim → K) (qts : Fin (2 ^ dim) → QuadTree dim K)
    (s : K × Option (Fin (2 ^ dim))) (i : Fin (2 ^ dim)) : K × Option (Fin (2 ^ dim)) :=
  match qts i with
  | .null => s
  | .cell c _ _ =>
    let dist := point_distance sqrt c.average x
    if dist < s.1 ∨ s.1 < 0 then (dist, some i) else s

/-- `QuadTree_get_nearest_internal` -/
def QuadTree_get_nearest_internal (x : Fin dim → K) (tentative : Bool) :
    QuadTree dim K → nearest_t dim K → Except Fault (nearest_t dim K)
  | .null, s => .ok s
  | .cell c opened qts, s =>
    let s := c.l.foldl (nearer sqrt x) s
    if opened then
      let dist := point_distance sqrt c.center x
      if 0 ≤ s.min ∧ dist - sqrt dim * c.width > s.min then .ok s
      else if tentative then
        match ((finRange (2 ^ dim)).foldl (nearestChild sqrt x qts) (-1, none)).2 with
        | none => .error .assertion
        | some iq => QuadTree_get_nearest_internal x tentative (qts iq) s
      else (finRange (2 ^ dim)).foldlM
        (fun s i => QuadTree_get_nearest_internal x tentative (qts i) s) s
    else .ok s

/-- `QuadTree_get_nearest` -/
def QuadTree_get_nearest (q : QuadTree dim K) (x : Fin dim → K) (s : nearest_t dim K) :
    Except Fault (nearest_t dim K) := do
  let s ← QuadTree_get_nearest_internal sqrt x true q { s with min := -1 }
  QuadTree_get_nearest_internal sqrt x false q s

/-! ## Distances -/

/-- The distance in the plane, in space and so on. -/
theorem point_distance_eq (p q : Fin dim → ℝ) :
    point_distance Real.sqrt p q = dist (WithLp.toLp 2 p) (WithLp.toLp 2 q) := by
  rw [EuclideanSpace.dist_eq, point_distance]
  simp only [Real.dist_eq, sq, abs_mul_abs_self]

theorem point_distance_nonneg (p q : Fin dim → ℝ) : 0 ≤ point_distance Real.sqrt p q :=
  Real.sqrt_nonneg _

/-- The points of a box are within `√dim * width` of its centre. -/
theorem InBox.distance_le {center x : Fin dim → ℝ} {width : ℝ} (hw : 0 ≤ width)
    (h : InBox center width x) : point_distance Real.sqrt center x ≤ Real.sqrt dim * width := by
  rw [point_distance, ← Real.sqrt_mul_self hw, ← Real.sqrt_mul (Nat.cast_nonneg dim)]
  refine Real.sqrt_le_sqrt ?_
  calc ∑ i, (center i - x i) * (center i - x i) ≤ ∑ _i : Fin dim, width * width :=
        List.sum_le_sum fun i _ => by
          rw [← abs_mul_abs_self, abs_sub_comm]
          exact mul_self_le_mul_self (abs_nonneg _) (h i)
    _ = dim * (width * width) := by rw [sum_const, card_univ, Fintype.card_fin, nsmul_eq_mul]

/-! ## The search -/

variable {x : Fin dim → ℝ} {P : Multiset (node_data dim ℝ)} {s s' s'' : nearest_t dim ℝ}

/-- A distance is recorded, and it is at most `b`. -/
def Least (s : nearest_t dim ℝ) (b : ℝ) : Prop :=
  0 ≤ s.min ∧ s.min ≤ b

/-- What is recorded, if anything is, is one of the points `P` and its distance. -/
def Found (P : Multiset (node_data dim ℝ)) (x : Fin dim → ℝ) (s : nearest_t dim ℝ) : Prop :=
  0 ≤ s.min → ∃ p ∈ P, s = ⟨point_distance Real.sqrt x p.coord, p.id, p.coord⟩

/-- The record only gets better. -/
structure Nearer (P : Multiset (node_data dim ℝ)) (x : Fin dim → ℝ) (s s' : nearest_t dim ℝ) :
    Prop where
  found : Found P x s → Found P x s'
  least : ∀ {b}, Least s b → Least s' b

theorem Nearer.refl (s : nearest_t dim ℝ) : Nearer P x s s := ⟨id, id⟩

theorem Nearer.trans (h : Nearer P x s s') (h' : Nearer P x s' s'') : Nearer P x s s'' :=
  ⟨h'.found ∘ h.found, h'.least ∘ h.least⟩

theorem nearer_spec {p : node_data dim ℝ} (hp : p ∈ P) (s : nearest_t dim ℝ) :
    Nearer P x s (nearer Real.sqrt x s p) ∧
      Least (nearer Real.sqrt x s p) (point_distance Real.sqrt x p.coord) := by
  have h0 := point_distance_nonneg x p.coord
  unfold nearer
  simp only
  split
  · refine ⟨⟨fun _ _ => ⟨p, hp, rfl⟩, fun hb => ⟨h0, ?_⟩⟩, h0, le_rfl⟩
    obtain hneg | hlt := ‹_ ∨ _›
    · exact absurd hb.1 (not_le.2 hneg)
    · exact hlt.le.trans hb.2
  · rw [not_or, not_lt, not_lt] at *
    exact ⟨.refl s, ‹_›⟩

/-- A loop each of whose steps makes the record better and settles its own item. -/
theorem foldlM_nearer {ι : Type} {f : nearest_t dim ℝ → ι → Except Fault (nearest_t dim ℝ)}
    {Q : ι → nearest_t dim ℝ → Prop} {l : List ι}
    (hQ : ∀ i {s s'}, Nearer P x s s' → Q i s → Q i s')
    (h : ∀ i ∈ l, ∀ s, Meets (f s i) (fun s' => Nearer P x s s' ∧ Q i s') fun _ => False)
    (s : nearest_t dim ℝ) :
    Meets (l.foldlM f s) (fun s' => Nearer P x s s' ∧ ∀ i ∈ l, Q i s') fun _ => False := by
  induction l generalizing s with
  | nil => exact ⟨.refl s, nofun⟩
  | cons i l ih =>
    rw [foldlM_cons]
    refine (h i List.mem_cons_self s).bind fun s1 ⟨h1, hq⟩ => ?_
    refine (ih (fun j hj => h j (List.mem_cons_of_mem i hj)) s1).imp fun s2 ⟨h2, hall⟩ =>
      ⟨h1.trans h2, fun j hj => ?_⟩
    obtain rfl | hj := List.mem_cons.1 hj
    · exact hQ j h2 hq
    · exact hall j hj

/-- The greedy descent finds a child when there is one. -/
theorem nearestChild_none {qts : Fin (2 ^ dim) → QuadTree dim ℝ} {l : List (Fin (2 ^ dim))}
    {s : ℝ × Option (Fin (2 ^ dim))} (hs : s.2 = none → s.1 < 0)
    (h : (l.foldl (nearestChild Real.sqrt x qts) s).2 = none) :
    s.2 = none ∧ ∀ i ∈ l, qts i = .null := by
  induction l generalizing s with
  | nil => exact ⟨h, nofun⟩
  | cons i l ih =>
    rw [foldl_cons, nearestChild] at h
    cases hi : qts i with
    | null =>
      rw [hi] at h
      obtain ⟨hnone, hall⟩ := ih hs h
      exact ⟨hnone, List.forall_mem_cons.2 ⟨hi, hall⟩⟩
    | cell c o q =>
      simp only [hi] at h
      split at h
      · obtain ⟨hnone, _⟩ := ih (s := (_, some i)) (fun hn => nomatch hn) h
        cases hnone
      · exact absurd (Or.inr (hs (ih hs h).1)) ‹_›

/-- A cell that is left out has no point nearer than the one recorded. -/
theorem Least.of_far {center : Fin dim → ℝ} {width : ℝ} (hw : 0 ≤ width) {y : Fin dim → ℝ}
    (hy : InBox center width y) (h : 0 ≤ s.min ∧
      point_distance Real.sqrt center x - Real.sqrt dim * width > s.min) :
    Least s (point_distance Real.sqrt x y) := by
  have htri : point_distance Real.sqrt center x ≤
      point_distance Real.sqrt center y + point_distance Real.sqrt x y := by
    simp only [point_distance_eq]
    exact dist_triangle_right _ _ _
  have hle := hy.distance_le hw
  exact ⟨h.1, by linarith [h.2]⟩

theorem QuadTree_get_nearest_internal_spec {q : QuadTree dim ℝ} {rest : ℕ}
    {center : Fin dim → ℝ} {width : ℝ} {tentative : Bool} (hs : q.Sound rest)
    (hat : q = .null ∨ q.At center width) (hbox : ∀ p ∈ q.points, InBox center width p.coord)
    (hP : ∀ p ∈ q.points, p ∈ P) (s : nearest_t dim ℝ) :
    Meets (QuadTree_get_nearest_internal Real.sqrt x tentative q s) (fun s' => Nearer P x s s' ∧
      (tentative = false → ∀ p ∈ q.points, Least s' (point_distance Real.sqrt x p.coord)))
      fun _ => False := by
  induction q generalizing rest center width s with
  | null => exact ⟨.refl s, fun _ p hp => absurd hp (Multiset.notMem_zero p)⟩
  | cell c opened qts ih =>
    obtain ⟨rfl, rfl⟩ := hat.resolve_left (by rintro ⟨⟩)
    obtain ⟨hb, hp, hc⟩ := hs
    have hchild : ∀ i s, Meets (QuadTree_get_nearest_internal Real.sqrt x tentative (qts i) s)
        (fun s' => Nearer P x s s' ∧ (tentative = false →
          ∀ p ∈ (qts i).points, Least s' (point_distance Real.sqrt x p.coord))) fun _ => False := by
      refine fun i s => ih i (hc i) (hp.child i) (fun p hmem => ?_)
        (fun p hmem => hP p (mem_points_child i hmem)) s
      rw [← hp.quadrant i p hmem]
      exact (hbox p (mem_points_child i hmem)).quadrant
    obtain ⟨h1, hlist⟩ : Nearer P x s (c.l.foldl (nearer Real.sqrt x) s) ∧ ∀ p ∈ c.l,
        Least (c.l.foldl (nearer Real.sqrt x) s) (point_distance Real.sqrt x p.coord) := by
      have h := foldlM_nearer (P := P) (x := x) (l := c.l)
        (f := fun s p => .ok (nearer Real.sqrt x s p))
        (Q := fun p s => Least s (point_distance Real.sqrt x p.coord))
        (fun _ _ _ h => h.least)
        (fun p hmem s => nearer_spec (hP p (Multiset.mem_add.2 (.inl hmem))) s) s
      rwa [foldlM_eq_ok fun _ _ _ => rfl] at h
    rw [QuadTree_get_nearest_internal]
    generalize c.l.foldl (nearer Real.sqrt x) s = s1 at *
    simp only
    split
    · have ho : opened = true := ‹_›
      split
      · exact ⟨h1, fun _ p hmem => .of_far hb.pos.le (hbox p hmem) ‹_›⟩
      cases tentative with
      | true =>
        rw [if_pos rfl]
        split
        · have hnull := (nearestChild_none (fun _ => neg_one_lt_zero) ‹_›).2
          refine absurd hb.count ?_
          rw [QuadTree.points, (hb.opened ho).2.1,
            sum_points_null fun i => hnull i (mem_finRange i)]
          exact (hb.opened ho).2.2
        · exact (hchild _ s1).imp fun s' h => ⟨h1.trans h.1, by rintro ⟨⟩⟩
      | false =>
        rw [if_neg Bool.false_ne_true]
        refine (foldlM_nearer (fun i _ _ h h' p hmem => h.least (h' p hmem))
          (fun i _ s => (hchild i s).imp fun s' h => ⟨h.1, h.2 rfl⟩) s1).imp
          fun s' h => ⟨h1.trans h.1, fun _ p hmem => ?_⟩
        obtain ⟨h2, hall⟩ := h
        obtain hmem | hmem := Multiset.mem_add.1 hmem
        · exact h2.least (hlist p hmem)
        · obtain ⟨i, _, hmem⟩ := Multiset.mem_sum.1 hmem
          exact hall i (mem_finRange i) p hmem
    · rw [hb.points_eq (Bool.eq_false_iff.2 ‹_›)]
      exact ⟨h1, fun _ => hlist⟩

/-! ## The tree of a list of points -/

/-- What a loop with `fmin` or `fmax` returns bounds all it has seen. -/
theorem foldl_bounds {ι : Type} {r : ℝ → ℝ → Prop} [Std.Refl r] [IsTrans ℝ r] {op : ℝ → ℝ → ℝ}
    (hl : ∀ a b, r (op a b) a) (hr : ∀ a b, r (op a b) b) {g : ι → ℝ} (l : List ι) (a : ℝ) :
    r (l.foldl (fun m i => op m (g i)) a) a ∧
      ∀ i ∈ l, r (l.foldl (fun m i => op m (g i)) a) (g i) := by
  induction l generalizing a with
  | nil => exact ⟨refl_of r a, nofun⟩
  | cons i l ih =>
    obtain ⟨ha, hall⟩ := ih (op a (g i))
    exact ⟨trans_of r ha (hl a _), List.forall_mem_cons.2 ⟨trans_of r ha (hr a _), hall⟩⟩

/-- The root's box holds all the points. -/
theorem QuadTree_new_from_point_list_box (coord : Fin (n + 1) → Fin (dim + 1) → ℝ) :
    ∃ center width, 0 < width ∧ (∀ i, InBox center width (coord i)) ∧ ∀ max_level,
      QuadTree_new_from_point_list max_level coord = addAll center width max_level
        ((finRange (n + 1)).map fun i => ⟨1, coord i, i⟩) := by
  have hpos : ∀ a : ℝ, 0 < max a (1 / 100000) := fun a => lt_max_of_lt_right (by norm_num)
  refine ⟨_, _, mul_pos (hpos _) (by norm_num), fun i k => ?_, fun _ => rfl⟩
  obtain ⟨hmin0, hmin⟩ : xmin coord k ≤ coord 0 k ∧ ∀ j ∈ finRange n, xmin coord k ≤ _ :=
    foldl_bounds (r := (· ≤ ·)) min_le_left min_le_right _ _
  obtain ⟨hmax0, hmax⟩ : xmax coord k ≥ coord 0 k ∧ ∀ j ∈ finRange n, xmax coord k ≥ _ :=
    foldl_bounds (r := (· ≥ ·)) le_max_left le_max_right _ _
  have hrange := (foldl_bounds (r := (· ≥ ·)) le_max_left le_max_right
    (g := fun i => xmax coord i - xmin coord i) (finRange (dim + 1))
    (xmax coord 0 - xmin coord 0)).2 k (mem_finRange k)
  have hle := hrange.le.trans (le_max_left _ (1 / 100000))
  have hlo : xmin coord k ≤ coord i k := Fin.cases hmin0 (fun j => hmin j (mem_finRange j)) i
  have hhi : xmax coord k ≥ coord i k := Fin.cases hmax0 (fun j => hmax j (mem_finRange j)) i
  rw [abs_le]
  constructor <;> linarith

/-- The least distance to the points and a point at that distance. -/
theorem QuadTree_get_nearest_spec (max_level : ℤ) (coord : Fin (n + 1) → Fin (dim + 1) → ℝ)
    (x : Fin (dim + 1) → ℝ) (s₀ : nearest_t (dim + 1) ℝ) :
    ∃ q s, QuadTree_new_from_point_list max_level coord = .ok q ∧
      QuadTree_get_nearest Real.sqrt q x s₀ = .ok s ∧
      (∃ i : Fin (n + 1), s = ⟨point_distance Real.sqrt x (coord i), i, coord i⟩) ∧
      ∀ i, s.min ≤ point_distance Real.sqrt x (coord i) := by
  obtain ⟨center, width, hw, hbox, hnew⟩ := QuadTree_new_from_point_list_box coord
  obtain ⟨q, hq, hs, hat, hpts, -⟩ := Meets.exists_ok (x := addAll center width max_level
    ((finRange (n + 1)).map fun i => ⟨1, coord i, i⟩)) (addAll_spec hw)
  have hmem : ∀ {p}, p ∈ q.points ↔ ∃ i : Fin (n + 1), ⟨1, coord i, i⟩ = p := by simp [hpts]
  have hin : ∀ p ∈ q.points, InBox center width p.coord := fun p hp => by
    obtain ⟨i, rfl⟩ := hmem.1 hp
    exact hbox i
  have hspec : ∀ b s, Meets (QuadTree_get_nearest_internal Real.sqrt x b q s) _ _ := fun b =>
    QuadTree_get_nearest_internal_spec (P := q.points) hs (.inr hat) hin fun _ => id
  obtain ⟨s1, hs1, h1, -⟩ := (hspec true { s₀ with min := -1 }).exists_ok
  obtain ⟨s2, hs2, h2, hall⟩ := (hspec false s1).exists_ok
  have hleast : ∀ i, Least s2 (point_distance Real.sqrt x (coord i)) := fun i =>
    hall rfl _ (hmem.2 ⟨i, rfl⟩)
  have hfound := h2.found (h1.found fun h => absurd h (by norm_num))
  obtain ⟨p, hp, heq⟩ := hfound (hleast 0).1
  obtain ⟨i, rfl⟩ := hmem.1 hp
  refine ⟨q, s2, (hnew max_level).trans hq, ?_, ⟨i, heq⟩, fun i => (hleast i).2⟩
  rw [QuadTree_get_nearest, hs1]
  exact hs2

end Graphviz.Quad
