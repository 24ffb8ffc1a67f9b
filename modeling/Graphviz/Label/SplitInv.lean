import Graphviz.Label.Index

/-!
# Splitting a node of an R-tree

`MethodZero` puts every branch of the buffer into one of two groups, neither of them empty, when
`PickSeeds` finds two branches that would waste area. It starts from a worst waste of zero and
takes greater ones only: without such a pair both seeds stay the first branch, and the assertion
of `Classify` fails.
-/

namespace Graphviz.Label

open Function List Nat Outcome

/-- A property of rectangles that `CombineRect` keeps, with the failures of `RectArea` on them. -/
structure Areas (P : Rect → Prop) (E : Fault → Prop) : Prop where
  combine : ∀ r s, P r → P s → P (CombineRect r s)
  area : ∀ r, P r → Meets (RectArea r) (fun _ => True) E

theorem Areas.all : Areas (fun _ => True) (· = .exitFailure) :=
  ⟨fun _ _ _ _ => trivial, fun r _ => rectArea_meets r⟩

variable {α : Type} {buf : Fin (NODECARD + 1) → Branch α} {p : PartitionVars}
variable {P : Rect → Prop} {E : Fault → Prop}

/-- Some pair of the rectangles would waste area, as `PickSeeds` computes it. -/
def Wasteful (buf : Fin (NODECARD + 1) → Branch α) : Prop :=
  ∃ i j, i < j ∧ waste buf i j ≠ .ok 0

/-- The branches that are in a group. -/
def groupOf (partition : Fin (NODECARD + 1) → Int) (taken : Fin (NODECARD + 1) → Bool)
    (g : Fin 2) : Finset (Fin (NODECARD + 1)) :=
  Finset.univ.filter fun i => taken i = true ∧ partition i = g

/-- The branches that are in some group. -/
def PartitionVars.takenSet (p : PartitionVars) : Finset (Fin (NODECARD + 1)) :=
  Finset.univ.filter fun i => p.taken i = true

/-- The counters count the groups, a branch that is taken is in one of them, and the covers of
groups in use have the property `P`. -/
structure PartInv (P : Rect → Prop) (p : PartitionVars) : Prop where
  count : ∀ g, p.count g = (groupOf p.partition p.taken g).card
  covered : ∀ i, p.taken i = true → p.partition i = 0 ∨ p.partition i = 1
  cover : ∀ g, p.count g ≠ 0 → P (p.cover g)

theorem PartInv.init : PartInv P InitPVars := by
  refine ⟨fun g => ?_, nofun, fun g hg => absurd rfl hg⟩
  rw [groupOf, Finset.filter_false_of_mem fun i _ h => (nomatch h.1)]
  rfl

/-- The two counters together count the branches that are taken. -/
theorem PartInv.total (h : PartInv P p) : p.count 0 + p.count 1 = p.takenSet.card := by
  have hdisj : Disjoint (groupOf p.partition p.taken 0) (groupOf p.partition p.taken 1) := by
    refine Finset.disjoint_filter.2 fun i _ h0 h1 => ?_
    have := h0.2.symm.trans h1.2
    simp at this
  have hunion : p.takenSet = groupOf p.partition p.taken 0 ∪ groupOf p.partition p.taken 1 := by
    ext i
    simp only [PartitionVars.takenSet, groupOf, Finset.mem_union, Finset.mem_filter,
      Finset.mem_univ, true_and]
    constructor
    · intro ht
      exact (h.covered i ht).imp (fun h => ⟨ht, h⟩) fun h => ⟨ht, h⟩
    · exact fun h => h.elim And.left And.left
  rw [h.count, h.count, hunion, Finset.card_union_of_disjoint hdisj]

/-- While the groups are not full together, some branch is not taken. -/
theorem PartInv.exists_free (h : PartInv P p) (hlt : p.count 0 + p.count 1 < NODECARD + 1) :
    ∃ i, p.taken i = false := by
  by_contra hno
  have hall : p.takenSet = Finset.univ := by
    refine Finset.filter_true_of_mem fun i _ => ?_
    cases hi : p.taken i with
    | true => rfl
    | false => exact absurd ⟨i, hi⟩ hno
  rw [h.total, hall, Finset.card_univ, Fintype.card_fin] at hlt
  exact lt_irrefl _ hlt

/-- With the groups full together, every branch is taken. -/
theorem PartInv.all_taken (h : PartInv P p) (heq : p.count 0 + p.count 1 = NODECARD + 1)
    (i : Fin (NODECARD + 1)) : p.taken i = true := by
  have hall : p.takenSet = Finset.univ := by
    refine Finset.eq_univ_of_card _ ?_
    rw [← h.total, heq, Fintype.card_fin]
  have hi : i ∈ p.takenSet := hall ▸ Finset.mem_univ i
  exact (Finset.mem_filter.1 hi).2

theorem PartInv.total_le (h : PartInv P p) : p.count 0 + p.count 1 ≤ NODECARD + 1 := by
  rw [h.total]
  exact (Finset.card_le_univ _).trans_eq (Fintype.card_fin _)

/-- A branch put into a group joins it, and the other group stays as it is. -/
theorem card_groupOf_update {partition : Fin (NODECARD + 1) → Int}
    {taken : Fin (NODECARD + 1) → Bool} {i : Fin (NODECARD + 1)} (hi : taken i = false)
    (g g' : Fin 2) :
    (groupOf (Function.update partition i g) (Function.update taken i true) g').card =
      Function.update (fun g => (groupOf partition taken g).card) g
        ((groupOf partition taken g).card + 1) g' := by
  have hmem : ∀ j, (j ∈ groupOf (Function.update partition i g) (Function.update taken i true) g') ↔
      (j = i ∧ g' = g) ∨ j ∈ groupOf partition taken g' := by
    intro j
    simp only [groupOf, Finset.mem_filter, Finset.mem_univ, true_and, update_apply]
    split
    next hj =>
      subst hj
      have hcast : ((g : ℕ) : Int) = ((g' : ℕ) : Int) ↔ g' = g := by
        rw [Int.ofNat_inj, Fin.val_inj, eq_comm]
      simp [hcast, hi]
    next hj => simp [hj]
  have hfree : i ∉ groupOf partition taken g' := fun h => by
    rw [groupOf, Finset.mem_filter, hi] at h
    exact (nomatch h.2.1)
  rw [update_apply]
  split
  next hg =>
    subst hg
    rw [← Finset.card_insert_of_notMem hfree]
    congr 1
    ext j
    rw [hmem, Finset.mem_insert]
    simp
  next hg =>
    congr 1
    ext j
    rw [hmem]
    simp [hg]

/-- `Classify` puts a branch that is not taken into the group. -/
theorem classify_spec (hA : Areas P E) (hbuf : ∀ i, P (buf i).rect) (h : PartInv P p)
    {i : Fin (NODECARD + 1)} (hi : p.taken i = false) (g : Fin 2) :
    Meets (Classify buf p i g) (fun q => PartInv P q ∧
      q.taken = Function.update p.taken i true ∧
      q.count = Function.update p.count g (p.count g + 1)) E := by
  rw [Classify]
  refine Meets.assert hi ?_
  have hcover : P (if p.count g = 0 then (buf i).rect
      else CombineRect (buf i).rect (p.cover g)) := by
    split
    next => exact hbuf i
    next hg => exact hA.combine _ _ (hbuf i) (h.cover g hg)
  refine (hA.area _ hcover).bind fun area _ => ?_
  refine ⟨⟨fun g' => ?_, fun j hj => ?_, fun g' hg' => ?_⟩, rfl, rfl⟩
  · have hcount : p.count = fun g => (groupOf p.partition p.taken g).card := funext h.count
    simp only
    rw [card_groupOf_update hi, hcount]
  · simp only [update_apply] at hj ⊢
    split
    · match g with
      | 0 => exact .inl rfl
      | 1 => exact .inr rfl
    next hji =>
      rw [if_neg hji] at hj
      exact h.covered j hj
  · simp only [update_apply] at hg' ⊢
    split
    next => exact hcover
    next hne =>
      rw [if_neg hne] at hg'
      exact h.cover g' hg'

theorem mem_seedPairs {ij : Fin (NODECARD + 1) × Fin (NODECARD + 1)} :
    ij ∈ seedPairs ↔ ij.1 < ij.2 := by
  obtain ⟨i, j⟩ := ij
  simp [seedPairs]

/-- The area that a pair wastes is computed, or the program ends. -/
theorem waste_meets (hA : Areas P E) (hbuf : ∀ i, P (buf i).rect) (i j : Fin (NODECARD + 1)) :
    Meets (waste buf i j) (fun w => waste buf i j = .ok w) E := by
  have h : Meets (waste buf i j) (fun _ => True) E :=
    (hA.area _ (hbuf i)).bind fun _ _ => (hA.area _ (hbuf j)).bind fun _ _ =>
      (hA.area _ (hA.combine _ _ (hbuf i) (hbuf j))).bind fun _ _ => trivial
  exact h.self.imp fun w hw => hw.2

/-- The loops of `PickSeeds` find two different seeds when some pair is wasteful. -/
theorem seeds_spec (hA : Areas P E) (hbuf : ∀ i, P (buf i).rect) (hw : Wasteful buf) :
    Meets (seedPairs.foldlM (pickSeedsStep buf) ⟨0, 0, 0⟩) (fun s => s.seed0 ≠ s.seed1) E := by
  obtain ⟨i, j, hij, hne⟩ := hw
  -- the seeds differ once a waste has been found
  let I : List (Fin (NODECARD + 1) × Fin (NODECARD + 1)) → Seeds → Prop := fun rest s =>
    (∀ ij ∈ rest, ij.1 < ij.2) ∧ (0 < s.worst → s.seed0 ≠ s.seed1) ∧
      (0 < s.worst ∨ (i, j) ∈ rest)
  have hstart : I seedPairs ⟨0, 0, 0⟩ :=
    ⟨fun ij h => mem_seedPairs.1 h, nofun, .inr (mem_seedPairs.2 hij)⟩
  refine (Meets.foldlM I (fun ij rest s hs => ?_) _ hstart).imp fun s hs => ?_
  · obtain ⟨hlt, hdiff, hfound⟩ := hs
    have hrest : ∀ ij ∈ rest, ij.1 < ij.2 := fun x hx => hlt x (mem_cons_of_mem _ hx)
    rw [pickSeedsStep]
    refine (waste_meets hA hbuf ij.1 ij.2).bind fun w hwij => ?_
    split
    next hgt => exact ⟨hrest, fun _ => (hlt ij mem_cons_self).ne, .inl (zero_lt_of_lt hgt)⟩
    next hle =>
      refine ⟨hrest, hdiff, hfound.elim .inl fun hmem => ?_⟩
      cases hmem with
      | head =>
        refine .inl (Nat.pos_of_ne_zero fun h0 => hne ?_)
        rw [hwij]
        congr 1
        omega
      | tail _ hmem => exact .inr hmem
  · exact hs.2.1 (hs.2.2.resolve_right fun h => (nomatch h))

/-- After `PickSeeds` each group has its seed. -/
theorem pickSeeds_spec (hA : Areas P E) (hbuf : ∀ i, P (buf i).rect) (hw : Wasteful buf) :
    Meets (PickSeeds buf InitPVars) (fun p => PartInv P p ∧ p.count 0 = 1 ∧ p.count 1 = 1) E := by
  rw [PickSeeds]
  refine (seeds_spec hA hbuf hw).bind fun s hs => ?_
  refine (classify_spec hA hbuf PartInv.init rfl 0).bind fun p ⟨hp, htaken, hcount⟩ => ?_
  have hfree : p.taken s.seed1 = false := by
    rw [htaken, update_of_ne hs.symm]
    rfl
  refine (classify_spec hA hbuf hp hfree 1).imp fun q ⟨hq, _, hqc⟩ => ⟨hq, ?_, ?_⟩
  · rw [hqc, update_of_ne (by decide), hcount]
    rfl
  · rw [hqc, update_self, hcount, update_of_ne (by decide)]
    rfl

/-- The inner loop of `MethodZero` chooses a branch that is not taken. -/
theorem choose_spec (hA : Areas P E) (hbuf : ∀ i, P (buf i).rect) (hcover : ∀ g, P (p.cover g))
    (hfree : ∃ i, p.taken i = false) (c : Fin (NODECARD + 1)) (g : Fin 2) :
    Meets ((finRange (NODECARD + 1)).foldlM (chooseStep buf p) ⟨false, 0, c, g⟩)
      (fun s => p.taken s.chosen = false) E := by
  obtain ⟨i, hi⟩ := hfree
  let I : List (Fin (NODECARD + 1)) → Choice → Prop := fun rest s =>
    (s.biggestDiffSet = true → p.taken s.chosen = false) ∧ (s.biggestDiffSet = true ∨ i ∈ rest)
  have hstart : I (finRange (NODECARD + 1)) ⟨false, 0, c, g⟩ :=
    ⟨nofun, .inr (mem_finRange i)⟩
  refine (Meets.foldlM I (fun j rest s hs => ?_) _ hstart).imp fun s hs =>
    hs.1 (hs.2.resolve_right fun h => (nomatch h))
  rw [chooseStep]
  split
  next hj =>
    refine ⟨hs.1, hs.2.imp id fun hmem => ?_⟩
    cases hmem with
    | head => rw [hi] at hj; cases hj
    | tail _ hmem => exact hmem
  next hj =>
    have hj : p.taken j = false := by simpa using hj
    have hend : ∀ (group : Fin 2) (diff : Nat), Meets
        (if !s.biggestDiffSet || diff > s.biggestDiff then .ok ⟨true, diff, j, group⟩
          else if diff = s.biggestDiff ∧ p.count group < p.count s.betterGroup then
            .ok { s with chosen := j, betterGroup := group }
          else .ok s) (I rest) E := by
      intro group diff
      split
      next => exact ⟨fun _ => hj, .inl rfl⟩
      next hset =>
        have hset : s.biggestDiffSet = true := by
          cases hb : s.biggestDiffSet with
          | true => rfl
          | false => rw [hb] at hset; simp at hset
        split
        next => exact ⟨fun _ => hj, .inl hset⟩
        next => exact ⟨hs.1, .inl hset⟩
    exact (hA.area _ (hA.combine _ _ (hbuf j) (hcover 0))).bind fun _ _ =>
      (hA.area _ (hA.combine _ _ (hbuf j) (hcover 1))).bind fun _ _ => hend _ _

/-- Every branch is in a group, and no group is empty. -/
structure Partitioned (P : Rect → Prop) (p : PartitionVars) : Prop where
  inv : PartInv P p
  total : p.count 0 + p.count 1 = NODECARD + 1
  pos0 : 1 ≤ p.count 0
  pos1 : 1 ≤ p.count 1

/-- The outer loop goes on until every branch is in a group. -/
theorem methodZeroLoop_spec (hA : Areas P E) (hbuf : ∀ i, P (buf i).rect) (k : Nat)
    (hp : PartInv P p) (h₀ : 1 ≤ p.count 0) (h1 : 1 ≤ p.count 1)
    (hk : NODECARD + 1 ≤ p.count 0 + p.count 1 + k) (c : Fin (NODECARD + 1)) (g : Fin 2) :
    Meets (methodZeroLoop buf k p c g) (Partitioned P) E := by
  induction k generalizing p c g with
  | zero => exact ⟨hp, le_antisymm hp.total_le (by omega), h₀, h1⟩
  | succ k ih =>
    rw [methodZeroLoop]
    split
    next hlt =>
      have hcover : ∀ g, P (p.cover g) := fun g => hp.cover g <| by
        match g with
        | 0 => exact ne_of_gt h₀
        | 1 => exact ne_of_gt h1
      refine (choose_spec hA hbuf hcover (hp.exists_free hlt.1) c g).bind fun s hs => ?_
      refine (classify_spec hA hbuf hp hs s.betterGroup).bind fun q ⟨hq, _, hcount⟩ => ?_
      have hgrow : q.count 0 + q.count 1 = p.count 0 + p.count 1 + 1 ∧ 1 ≤ q.count 0 ∧
          1 ≤ q.count 1 := by
        rw [hcount]
        match s.betterGroup with
        | 0 => simp; omega
        | 1 => simp; omega
      exact ih hq hgrow.2.1 hgrow.2.2 (by omega) _ _
    next hge =>
      have hle := hp.total_le
      refine ⟨hp, ?_, h₀, h1⟩
      by_contra hne
      exact hge ⟨by omega, by omega, by omega⟩

theorem methodZero_spec (hA : Areas P E) (hbuf : ∀ i, P (buf i).rect) (hw : Wasteful buf) :
    Meets (MethodZero buf) (Partitioned P) E := by
  rw [MethodZero]
  refine (pickSeeds_spec hA hbuf hw).bind fun p ⟨hp, h0, h1⟩ => ?_
  refine (methodZeroLoop_spec hA hbuf (NODECARD + 1) hp (by omega) (by omega) (by omega) 0 0).bind
    fun q hq => ?_
  have hrest : classifyRest buf q = .ok q := by
    rw [classifyRest, if_neg (by rw [hq.total]; exact lt_irrefl _)]
  rw [hrest]
  exact Meets.assert hq.total hq

/-! ## Loading the two nodes -/

/-- The branches of the buffer, in order. -/
def bufList (buf : Fin (NODECARD + 1) → Branch α) : List (Branch α) :=
  (finRange (NODECARD + 1)).map buf

/-- The buffer holds the branches of the full node and the new one. -/
theorem bufList_perm {n : Node α} (hfull : n.branches.length = NODECARD) (b : Branch α) :
    (bufList (branchBuf n b)).Perm (b :: n.branches) := by
  have hall : n.branches = (finRange NODECARD).map n.cell := by
    rw [Node.branches, filter_eq_self.2 fun i _ => some_of_full hfull i]
  have hinit : ((finRange NODECARD).map Fin.castSucc).map (branchBuf n b) = n.branches := by
    rw [hall, map_map]
    refine map_congr_left fun i _ => ?_
    exact dif_pos i.isLt
  have hlast : branchBuf n b (Fin.last NODECARD) = b := dif_neg (lt_irrefl NODECARD)
  rw [bufList, finRange_succ_last, map_append, hinit, map_cons, hlast]
  exact perm_append_comm

/-- What a group of the buffer is loaded into: a node of the level with those branches. -/
structure Loaded (l : Int) (bs : List (Branch α)) (n : Node α) : Prop where
  level : n.level = l
  count : n.count = n.branches.length
  perm : n.branches.Perm bs

theorem Loaded.fill {l : Int} {bs : List (Branch α)} {n : Node α} {b : Branch α}
    (h : Loaded l bs n) (hb : b.child.some = true) (hlt : bs.length < NODECARD)
    {E : Fault → Prop} : Meets (fillBranch b n) (Loaded l (b :: bs)) E := by
  have hlen := h.perm.length_eq
  refine (fillBranch_spec (by omega) hb).imp fun n' ⟨hperm, hcount, hlevel⟩ =>
    ⟨hlevel.trans h.level, ?_, hperm.trans (h.perm.cons b)⟩
  rw [hcount, h.count, hperm.length_eq, length_cons, Int.natCast_succ]

theorem Loaded.new (l : Int) : Loaded l [] ({ RTreeNewNode with level := l } : Node α) := by
  refine ⟨rfl, ?_, ?_⟩
  · rw [branches_new]; rfl
  · rw [branches_new]

/-- The branches of the buffer in a group. -/
def groupList (p : PartitionVars) (g : Int) (is : List (Fin (NODECARD + 1))) :
    List (Fin (NODECARD + 1)) :=
  is.filter fun i => p.partition i = g

theorem Partitioned.groupList_length (h : Partitioned P p) (g : Fin 2) :
    (groupList p g (finRange (NODECARD + 1))).length = p.count g := by
  rw [h.inv.count, groupList, groupOf]
  have hset : (Finset.univ.filter fun i => p.taken i = true ∧ p.partition i = g) =
      ((finRange (NODECARD + 1)).filter fun i => p.partition i = g).toFinset := by
    ext i
    simp [h.inv.all_taken h.total]
  rw [hset, toFinset_card_of_nodup ((nodup_finRange _).filter _)]

/-- `LoadNodes` gives each node its group. -/
theorem loadNodes_spec (h : Partitioned P p) (hsome : ∀ i, (buf i).child.some = true) (l : Int) :
    Meets (LoadNodes buf p { RTreeNewNode with level := l } { RTreeNewNode with level := l })
      (fun s => ∃ xs ys, Loaded l xs s.1 ∧ Loaded l ys s.2 ∧ xs.length = p.count 0 ∧
        ys.length = p.count 1 ∧ (xs ++ ys).Perm (bufList buf)) E := by
  have hcov : ∀ i, p.partition i = 0 ∨ p.partition i = 1 :=
    fun i => h.inv.covered i (h.inv.all_taken h.total i)
  -- what is loaded, what is left for each group, and the whole buffer
  let I : List (Fin (NODECARD + 1)) → Node α × Node α → Prop := fun rest s =>
    ∃ xs ys, Loaded l xs s.1 ∧ Loaded l ys s.2 ∧
      xs.length + (groupList p 0 rest).length = p.count 0 ∧
      ys.length + (groupList p 1 rest).length = p.count 1 ∧
      (xs ++ ys ++ rest.map buf).Perm (bufList buf)
  have hstart : I (finRange (NODECARD + 1))
      ({ RTreeNewNode with level := l }, { RTreeNewNode with level := l }) :=
    ⟨[], [], .new l, .new l, (Nat.zero_add _).trans (h.groupList_length 0),
      (Nat.zero_add _).trans (h.groupList_length 1), List.Perm.refl _⟩
  rw [LoadNodes]
  refine (Meets.foldlM I (fun i rest s hs => ?_) _ hstart).imp fun s hs => ?_
  · obtain ⟨xs, ys, hx, hy, hx0, hy1, hperm⟩ := hs
    refine Meets.assert (hcov i) ?_
    have htotal := h.total
    have hpos0 := h.pos0
    have hpos1 := h.pos1
    split
    next h₀ =>
      have h1 : ¬ p.partition i = 1 := by rw [h₀]; decide
      rw [groupList, filter_cons_of_pos (by simpa using h₀), length_cons] at hx0
      rw [groupList, filter_cons_of_neg (by simpa using h1)] at hy1
      refine (hx.fill (hsome i) (by omega)).bind fun n hn => ?_
      refine ⟨buf i :: xs, ys, hn, hy, ?_, hy1, ?_⟩
      · rw [length_cons, groupList]; omega
      · refine Perm.trans ?_ hperm
        rw [map_cons, cons_append, cons_append]
        exact perm_middle.symm
    next h₀ =>
      have h1 : p.partition i = 1 := (hcov i).resolve_left h₀
      rw [groupList, filter_cons_of_neg (by simpa using h₀)] at hx0
      rw [groupList, filter_cons_of_pos (by simpa using h1), length_cons] at hy1
      refine (hy.fill (hsome i) (by omega)).bind fun n hn => ?_
      refine ⟨xs, buf i :: ys, hx, hn, hx0, ?_, ?_⟩
      · rw [length_cons, groupList]; omega
      · refine Perm.trans ?_ hperm
        rw [map_cons, append_assoc, append_assoc, cons_append]
        exact (@List.perm_middle _ _ ys _).symm.append_left xs
  · obtain ⟨xs, ys, hx, hy, hx0, hy1, hperm⟩ := hs
    simp only [map_nil, append_nil] at hperm
    exact ⟨xs, ys, hx, hy, hx0, hy1, hperm⟩

theorem coverSplit_keeps (hA : Areas P E) (hbuf : ∀ i, P (buf i).rect) : P (CoverSplit buf) := by
  have hfold : ∀ (L : List (Fin (NODECARD + 1))) (r : Rect), P r →
      P (L.foldl (fun cover i => CombineRect cover (buf i).rect) r) := by
    intro L
    induction L with
    | nil => exact fun _ hr => hr
    | cons i L ih => exact fun r hr => ih _ (hA.combine _ _ hr (hbuf i))
  exact hfold _ _ (hbuf 0)

/-- `SplitNode` divides the branches and the extra one between two nodes of the level. -/
theorem splitNode_spec {n : Node α} {b : Branch α} (hA : Areas P E)
    (hbuf : ∀ i, P (branchBuf n b i).rect) (hfull : n.branches.length = NODECARD)
    (hb : b.child.some = true) (hw : Wasteful (branchBuf n b)) :
    Meets (SplitNode n b) (fun s => ∃ xs ys, Loaded n.level xs s.1 ∧ Loaded n.level ys s.2 ∧
      xs ≠ [] ∧ ys ≠ [] ∧ (xs ++ ys).Perm (b :: n.branches)) E := by
  have hsome : ∀ i, (branchBuf n b i).child.some = true := by
    intro i
    rw [branchBuf]
    split
    · exact some_of_full hfull _
    · exact hb
  have hbufs : Meets (GetBranches n b) (fun buf => buf = branchBuf n b) E := by
    rw [GetBranches]
    refine Meets.assert (some_of_full hfull) ?_
    exact (hA.area _ (coverSplit_keeps hA hbuf)).bind fun _ _ => rfl
  rw [SplitNode]
  refine hbufs.bind fun buf hbuf => ?_
  subst hbuf
  refine (methodZero_spec hA hbuf hw).bind fun p hp => ?_
  refine (loadNodes_spec hp hsome n.level).bind fun s ⟨xs, ys, hx, hy, hx0, hy1, hperm⟩ => ?_
  have hsum : s.1.count + s.2.count = (NODECARD : Int) + 1 := by
    have htotal := hp.total
    rw [hx.count, hy.count, hx.perm.length_eq, hy.perm.length_eq, hx0, hy1]
    omega
  refine Meets.assert hsum ?_
  refine ⟨xs, ys, hx, hy, ?_, ?_, hperm.trans (bufList_perm hfull b)⟩
  · have hpos0 := hp.pos0
    intro h
    rw [h, length_nil] at hx0
    omega
  · have hpos1 := hp.pos1
    intro h
    rw [h, length_nil] at hy1
    omega

/-- What `AddBranch` does to a node: one more branch, or two nodes that share them. -/
theorem addBranch_spec {n : Node α} {b : Branch α} (hA : Areas P E)
    (hbuf : ∀ i, P (branchBuf n b i).rect) (hcount : n.count = n.branches.length)
    (hb : b.child.some = true) (hw : n.branches.length = NODECARD → Wasteful (branchBuf n b)) :
    Meets (AddBranch b n) (fun s => match s.2 with
      | none => Loaded n.level (b :: n.branches) s.1
      | some m => ∃ xs ys, Loaded n.level xs s.1 ∧ Loaded n.level ys m ∧ xs ≠ [] ∧ ys ≠ [] ∧
          (xs ++ ys).Perm (b :: n.branches)) E := by
  have hle := branches_length_le n
  rw [AddBranch, hcount]
  split
  next hlt =>
    have hold : Loaded n.level n.branches n := ⟨rfl, hcount, List.Perm.refl _⟩
    exact (hold.fill hb (by omega)).bind fun n' hn' => hn'
  next hge =>
    have hfull : n.branches.length = NODECARD := by omega
    exact (splitNode_spec hA hbuf hfull hb (hw hfull)).bind fun s hs => hs

end Graphviz.Label
