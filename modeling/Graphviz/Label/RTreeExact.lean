import Graphviz.Label.RTreeRun

/-!
# When the R-tree's search is exact

The seeds that a split needs are needed for the insertion to return, so the search is exact, and
the rectangles contain what is below them, in exactly the runs whose splits find seeds and whose
branches have rectangles of the same high sides below them. More data than a node has branches,
with different high sides, are never all found.
-/

namespace Graphviz.Label

open List Nat Outcome

variable {α : Type} {buf : Fin (NODECARD + 1) → Branch α} {n : Node α} {b : Branch α}
variable {r : Rect} {data : α} {xs ys : List (Rect × α)}

/-! ## A split without seeds fails -/

/-- Without a wasteful pair the seeds stay as they start, the first branch twice. -/
theorem seeds_stay (hno : ¬ Wasteful buf) (L : List (Fin (NODECARD + 1) × Fin (NODECARD + 1)))
    (hL : ∀ ij ∈ L, ij.1 < ij.2) : L.foldlM (pickSeedsStep buf) ⟨0, 0, 0⟩ = .ok ⟨0, 0, 0⟩ := by
  induction L with
  | nil => rfl
  | cons ij L ih =>
    have hwaste : waste buf ij.1 ij.2 = .ok 0 := by
      by_contra hne
      exact hno ⟨ij.1, ij.2, hL ij mem_cons_self, hne⟩
    have hstep : pickSeedsStep buf ⟨0, 0, 0⟩ ij = .ok ⟨0, 0, 0⟩ := by
      rw [pickSeedsStep, hwaste]
      rfl
    rw [foldlM_cons, hstep]
    exact ih fun x hx => hL x (mem_cons_of_mem _ hx)

/-- The second seed is taken already. -/
theorem pickSeeds_fails (hno : ¬ Wasteful buf) :
    Meets (PickSeeds buf InitPVars) (fun _ => False) fun _ => True := by
  rw [PickSeeds, seeds_stay hno _ fun ij h => mem_seedPairs.1 h]
  have hfirst : Meets (Classify buf InitPVars 0 0) (fun p => p.taken 0 = true) fun _ => True :=
    (classify_spec .all (fun _ => trivial) PartInv.init rfl 0).mono
      (fun p hp => by rw [hp.2.1, Function.update_self]) fun _ _ => trivial
  refine Meets.bind (P := fun s => s = ⟨0, 0, 0⟩) (meets_ok.2 rfl) fun s hs => ?_
  subst hs
  refine hfirst.bind fun p hp => ?_
  rw [Classify, assert, if_neg (by rw [hp]; decide)]
  trivial

/-- A node is split only if two of the branches would waste area. -/
theorem splitNode_wasteful {s : Node α × Node α} (h : SplitNode n b = .ok s) :
    Wasteful (branchBuf n b) := by
  by_contra hno
  have hfail : Meets (SplitNode n b) (fun _ => False) fun _ => True := by
    have hbuf : Meets (GetBranches n b) (fun buf => buf = branchBuf n b) fun _ => True := by
      rw [GetBranches, assert]
      split
      next =>
        exact ((rectArea_meets _).mono (fun _ h => h) fun _ _ => trivial).bind fun _ _ => rfl
      next => trivial
    rw [SplitNode]
    refine hbuf.bind fun buf hbuf => ?_
    subst hbuf
    rw [MethodZero]
    exact ((pickSeeds_fails hno).bind fun _ h => False.elim h).bind fun _ h => False.elim h
  exact hfail.of_ok h

theorem addBranch_wasteful {s : Node α × Option (Node α)} (h : AddBranch b n = .ok s)
    (hfull : NODECARD ≤ n.count) : Wasteful (branchBuf n b) := by
  rw [AddBranch, if_neg (by omega)] at h
  cases hsplit : SplitNode n b with
  | error e => rw [hsplit] at h; cases h
  | ok s' => exact splitNode_wasteful hsplit

/-- Every split of an insertion that returns has found its seeds. -/
theorem insert2_wasteful {c : Child α} {s : Node α × Option (Node α)}
    (h : RTreeInsert2 r data 0 c = .ok s) : SplitsWasteful r data c := by
  induction c generalizing s with
  | null => trivial
  | data d => trivial
  | node count level rect child ih =>
    rw [RTreeInsert2, bind_eq_ok] at h
    obtain ⟨_, _, h⟩ := h
    rw [SplitsWasteful]
    dsimp only at h
    split at h
    next hpos =>
      rw [if_pos hpos]
      intro i hi
      obtain ⟨i', hi', h⟩ := bind_eq_ok.1 h
      obtain rfl : i' = i := Except.ok.inj (hi'.symm.trans hi)
      obtain ⟨t, ht, h⟩ := bind_eq_ok.1 h
      refine ⟨ih i' ht, fun m n2 hm hfull => ?_⟩
      obtain rfl : t = (m, some n2) := Except.ok.inj (ht.symm.trans hm)
      exact addBranch_wasteful h hfull
    next hpos =>
      rw [if_neg hpos]
      exact fun hfull => addBranch_wasteful h hfull

/-- Insertions that return have found the seeds of all their splits. -/
theorem insertAll_seeds {n n' : Node α} (h : insertAll n xs = .ok n') : SeedsFound n xs := by
  induction xs generalizing n with
  | nil => trivial
  | cons x xs ih =>
    rw [insertAll, foldlM_cons] at h
    obtain ⟨m, hm, h⟩ := bind_eq_ok.1 h
    refine ⟨?_, fun m' hm' => ?_⟩
    · rw [RTreeInsert] at hm
      obtain ⟨_, _, hm⟩ := bind_eq_ok.1 hm
      obtain ⟨s, hs, _⟩ := bind_eq_ok.1 hm
      exact insert2_wasteful hs
    · obtain rfl : m = m' := Except.ok.inj (hm.symm.trans hm')
      exact ih h

/-! ## Insertions into the root -/

/-- The branch of a datum in a leaf node. -/
def leafBranch (x : Rect × α) : Branch α :=
  ⟨x.1, .data x.2⟩

theorem insert2_leaf (hlevel : n.level = 0) (x : Rect × α) :
    RTreeInsert2 x.1 x.2 0 n.toChild = AddBranch (leafBranch x) n := by
  obtain ⟨count, level, rect, child⟩ := n
  subst hlevel
  rfl

/-- An insertion into a leaf node with room. -/
theorem insert_room {bs : List (Branch α)} (h : Loaded 0 bs n) {x : Rect × α} (hx : Valid x.1)
    (hlt : bs.length < NODECARD) {E : Fault → Prop} :
    Meets (RTreeInsert x.1 x.2 n) (Loaded 0 (leafBranch x :: bs)) E := by
  rw [RTreeInsert, insert2_leaf h.level]
  refine Meets.assert hx ?_
  refine (addBranch_room h rfl hlt).bind fun s hs => ?_
  rw [hs.2]
  exact hs.1

/-- As many insertions as the root has room for. -/
theorem insertAll_room {bs : List (Branch α)} (h : Loaded 0 bs n) (hvalid : ∀ x ∈ xs, Valid x.1)
    (hlen : xs.length + bs.length ≤ NODECARD) {E : Fault → Prop} :
    Meets (insertAll n xs) (Loaded 0 ((xs.map leafBranch).reverse ++ bs)) E := by
  induction xs generalizing n bs with
  | nil => exact h
  | cons x xs ih =>
    rw [length_cons] at hlen
    rw [insertAll, foldlM_cons]
    refine (insert_room h (hvalid x mem_cons_self) (by omega)).bind fun m hm => ?_
    have hrest := ih hm (fun y hy => hvalid y (mem_cons_of_mem _ hy))
      (by rw [length_cons]; omega)
    rw [map_cons, reverse_cons, append_assoc]
    exact hrest

/-- One insertion more splits the root, which returns when the areas are computed. -/
theorem insert_full {P : Rect → Prop} (hA : Areas P fun _ => False) {bs : List (Branch α)}
    (h : Loaded 0 bs n) {x : Rect × α} (hx : Valid x.1)
    (hbuf : ∀ i, P (branchBuf n (leafBranch x) i).rect)
    (hw : Wasteful (branchBuf n (leafBranch x))) :
    Meets (RTreeInsert x.1 x.2 n) (fun _ => True) fun _ => False := by
  rw [RTreeInsert, insert2_leaf h.level]
  refine Meets.assert hx ?_
  refine (addBranch_spec hA hbuf h.count rfl fun _ => hw).bind fun s _ => ?_
  cases s.2 with
  | none => trivial
  | some m =>
    have hcard : 2 < NODECARD := by rw [nodecard_eq]; decide
    refine (addBranch_room (Loaded.new _) rfl (by simp only [length_nil]; omega)).bind
      fun s1 h1 => ?_
    exact (addBranch_room h1.1 rfl (by simp only [length_cons, length_nil]; omega)).bind
      fun _ _ => trivial

/-! ## Exact searches -/

/-- With the same high sides below each branch, data with different ones fill one node at most. -/
theorem length_le_nodecard (hn : Good n) (hsame : n.toChild.SameHighs)
    (hnodup : (n.items.map fun x => x.1.b2).Nodup) : n.items.length ≤ NODECARD := by
  obtain ⟨l, hinv, _⟩ := hn
  obtain ⟨hlevel, _, hbranches⟩ := inv_iff.1 hinv
  have hone : ∀ b ∈ n.branches, b.items.length ≤ 1 := by
    intro b hb
    obtain ⟨i, hi, rfl⟩ := mem_branches.1 hb
    obtain ⟨_, ⟨d, hd⟩, _⟩ | ⟨k, hl, hk, _⟩ := hbranches _ hb
    · rw [Branch.items, hd]
      exact le_refl 1
    · have hpos : 0 < n.level := by omega
      have hhigh := (hsame hpos i hi).1
      obtain ⟨A, B, hAB⟩ := append_of_mem hb
      rw [Node.items, hAB, flatMap_append, flatMap_cons, map_append, map_append]
        at hnodup
      have hnodup := (nodup_append.1 (nodup_append.1 hnodup).2.1).1
      rcases hitems : (n.cell i).items with _ | ⟨x, _ | ⟨y, l⟩⟩
      · exact zero_le 1
      · exact le_refl 1
      · rw [hitems] at hnodup
        have hx : x ∈ (n.cell i).items := by rw [hitems]; exact mem_cons_self
        have hy : y ∈ (n.cell i).items := by
          rw [hitems]; exact mem_cons_of_mem _ mem_cons_self
        refine absurd (hhigh x hx y hy).1 fun heq => ?_
        exact (nodup_cons.1 hnodup).1 (mem_cons.2 (Or.inl heq))
  rw [Node.items, length_flatMap]
  have hsum := sum_le_card_nsmul (n.branches.map fun b => b.items.length) 1 fun k hk => by
    obtain ⟨b, hb, rfl⟩ := mem_map.1 hk
    exact hone b hb
  rw [length_map] at hsum
  exact (by simpa using hsum : _ ≤ _).trans (branches_length_le n)

/-! ## Rectangles that are not found -/

/-- 65 rectangles between the same low sides, each wider than those before it. -/
def widening : List (Rect × Nat) :=
  (List.range 65).map fun (i : Nat) => (⟨0, 0, i + 1, 1⟩, i)

/-- A rectangle like those of `widening`. -/
def Wide (r : Rect) : Prop :=
  r.b0 = 0 ∧ r.b1 = 0 ∧ r.b3 = 1 ∧ 1 ≤ r.b2 ∧ r.b2 ≤ 65

theorem timesDim_wide {a d : Nat} (ha : a ≤ 65) (hd : d ≤ 65) (hpos : 0 < d) :
    timesDim a d = .ok (a * d) := by
  have hfit : ¬ UINT64_MAX / d < a := by
    rw [not_lt, le_div_iff_mul_le hpos, UINT64_MAX]
    exact (Nat.mul_le_mul ha hd).trans (by decide)
  rw [timesDim, if_neg hfit]

theorem rectArea_wide (h : Wide r) : RectArea r = .ok r.b2.toNat := by
  obtain ⟨h0, h1, h3, hlo, hhi⟩ := h
  have hundef : Undefined r = false := by
    rw [Undefined, decide_eq_false_iff_not]
    omega
  have hw : (r.b2 - r.b0).toNat = r.b2.toNat := by rw [h0, Int.sub_zero]
  have hh : (r.b3 - r.b1).toNat = 1 := by rw [h1, h3]; rfl
  rw [RectArea, hundef, hw, hh, if_neg (by decide), if_neg (by omega),
    timesDim_wide (by decide) (by omega) (by omega), one_mul]
  exact (timesDim_wide (by omega) (by decide) (by decide)).trans (by rw [mul_one])

theorem combine_wide {s : Rect} (hr : Wide r) (hs : Wide s) :
    Wide (CombineRect r s) ∧ (CombineRect r s).b2 = min r.b2 s.b2 := by
  obtain ⟨h0, h1, h3, hlo, hhi⟩ := hr
  obtain ⟨h0', h1', h3', hlo', hhi'⟩ := hs
  have hr : Undefined r = false := by rw [Undefined, decide_eq_false_iff_not]; omega
  have hs : Undefined s = false := by rw [Undefined, decide_eq_false_iff_not]; omega
  rw [CombineRect, hr, hs]
  exact ⟨⟨by simp only [h0, h0']; rfl, by simp only [h1, h1']; rfl, by simp only [h3, h3']; rfl,
    le_min hlo hlo', (min_le_left _ _).trans hhi⟩, rfl⟩

theorem areas_wide : Areas Wide fun _ => False := by
  refine ⟨fun r s hr hs => (combine_wide hr hs).1, fun r hr => ?_⟩
  rw [rectArea_wide hr]
  trivial

/-- Two wide rectangles overlap: together they seem to need less than apart. -/
theorem wasteful_wide (hbuf : ∀ i, Wide (buf i).rect) : Wasteful buf := by
  have hcard : 1 < NODECARD := by rw [nodecard_eq]; decide
  let i : Fin (NODECARD + 1) := ⟨0, by omega⟩
  let j : Fin (NODECARD + 1) := ⟨1, by omega⟩
  refine ⟨i, j, Nat.zero_lt_one, fun hzero => ?_⟩
  have hi := hbuf i
  have hj := hbuf j
  obtain ⟨hij, hmin⟩ := combine_wide hi hj
  rw [waste, rectArea_wide hi, rectArea_wide hj, rectArea_wide hij, hmin] at hzero
  have hzero := Except.ok.inj hzero
  obtain ⟨_, _, _, hlo, hhi⟩ := hi
  obtain ⟨_, _, _, hlo', hhi'⟩ := hj
  simp only [areaSub] at hzero
  omega

theorem widening_wide {x : Rect × Nat} (hx : x ∈ widening) : Wide x.1 ∧ Valid x.1 := by
  obtain ⟨i, hi, rfl⟩ := mem_map.1 hx
  rw [mem_range] at hi
  refine ⟨⟨rfl, rfl, rfl, ?_, ?_⟩, ?_, ?_⟩ <;> dsimp only <;> omega

/-- The last of the 65 insertions splits the root, and returns. -/
theorem widening_returns : ∃ n, insertAll RTreeOpen widening = .ok n := by
  have hsplit : widening = widening.take 64 ++ widening.drop 64 := (take_append_drop ..).symm
  have hlast : widening.drop 64 = [(⟨0, 0, 65, 1⟩, 64)] := by decide
  have hmem : ∀ x ∈ widening.take 64, x ∈ widening := fun x hx => mem_of_mem_take hx
  have hlen : (widening.take 64).length + ([] : List (Branch Nat)).length ≤ NODECARD := by
    rw [nodecard_eq]
    decide
  have hfirst := insertAll_room (E := fun _ => False) (Loaded.new (α := Nat) 0)
    (fun x hx => (widening_wide (hmem x hx)).2) hlen
  have hrun : Meets (insertAll RTreeOpen widening) (fun _ => True) fun _ => False := by
    rw [hsplit, insertAll, foldlM_append, hlast]
    refine hfirst.bind fun n hn => ?_
    rw [foldlM_cons]
    have hx := widening_wide (x := (⟨0, 0, 65, 1⟩, 64)) (by decide)
    have hwide : ∀ i, Wide (branchBuf n (leafBranch (⟨0, 0, 65, 1⟩, 64)) i).rect := by
      intro i
      rw [branchBuf]
      split
      next hi =>
        have hall := (hn.perm.length_eq.trans (by simp [widening])).trans nodecard_eq.symm
        have hcell : n.cell ⟨i, hi⟩ ∈ n.branches := mem_branches.2 ⟨_, some_of_full hall _, rfl⟩
        rw [hn.perm.mem_iff, append_nil, mem_reverse] at hcell
        obtain ⟨x, hx, hcell⟩ := mem_map.1 hcell
        have hrect : n.rect ⟨i, hi⟩ = x.1 := (congrArg Branch.rect hcell).symm
        rw [hrect]
        exact (widening_wide (hmem x hx)).1
      next => exact hx.1
    exact (insert_full areas_wide hn hx.2 hwide (wasteful_wide hwide)).bind fun _ _ => trivial
  obtain ⟨n, hn, _⟩ := hrun.exists_ok
  exact ⟨n, hn⟩

end Graphviz.Label

/-!
## What a split does to the branches

A split divides the branches between its two nodes exactly when two of the branches would waste
area. Otherwise both seeds are the first branch, and the second `Classify` fails its assertion.
`RectArea` may end the program before that.
-/

namespace Graphviz.Label

open List Outcome

variable {α : Type} {buf : Fin (NODECARD + 1) → Branch α} {n : Node α} {b : Branch α}

/-- The branches of a node and one more are those of two nodes, neither empty nor over its size. -/
structure Divided (n : Node α) (b : Branch α) (s : Node α × Node α) : Prop where
  perm : (s.1.branches ++ s.2.branches).Perm (b :: n.branches)
  nonempty : s.1.branches ≠ [] ∧ s.2.branches ≠ []
  length_le : s.1.branches.length ≤ NODECARD ∧ s.2.branches.length ≤ NODECARD
  count : s.1.count = s.1.branches.length ∧ s.2.count = s.2.branches.length

/-- The areas of a pair that wastes nothing are computed. -/
theorem rectArea_of_waste {i j : Fin (NODECARD + 1)} {w : Nat} (h : waste buf i j = .ok w) :
    ∃ a, RectArea (buf i).rect = .ok a := by
  rw [waste] at h
  obtain ⟨a, ha, -⟩ := bind_eq_ok.1 h
  exact ⟨a, ha⟩

/-- The first branch is classified if its area is computed. -/
theorem classify_first {a : Nat} (ha : RectArea (buf 0).rect = .ok a) :
    ∃ p, Classify buf InitPVars 0 0 = .ok p ∧ p.taken 0 = true := by
  rw [Classify, assert, if_pos (show InitPVars.taken 0 = false from rfl), ok_bind]
  dsimp only
  rw [if_pos (show InitPVars.count 0 = 0 from rfl), ha, ok_bind]
  exact ⟨_, rfl, by dsimp only; rw [Function.update_self]⟩

/-- Without a wasteful pair the first branch is classified twice. -/
theorem pickSeeds_assertion (hno : ¬Wasteful buf) : PickSeeds buf InitPVars = .error .assertion := by
  have hcard := nodecard_eq
  have hwaste : waste buf 0 ⟨1, by omega⟩ = .ok 0 := by
    by_contra hne
    refine hno ⟨_, _, ?_, hne⟩
    rw [Fin.lt_def]
    exact zero_lt_one
  obtain ⟨a, ha⟩ := rectArea_of_waste hwaste
  obtain ⟨p, hp, htaken⟩ := classify_first ha
  rw [PickSeeds, seeds_stay hno _ fun ij h => mem_seedPairs.1 h, ok_bind, hp, ok_bind, Classify,
    assert, if_neg (by rw [htaken]; decide)]
  rfl

/-- A full node whose cover has an area is loaded into the buffer. -/
theorem getBranches_eq (hfull : n.branches.length = NODECARD) :
    GetBranches n b = (RectArea (CoverSplit (branchBuf n b))).map fun _ => branchBuf n b := by
  rw [GetBranches, assert, if_pos (some_of_full hfull), ok_bind]
  dsimp only
  cases RectArea (CoverSplit (branchBuf n b)) with
  | ok a => rfl
  | error e => rfl

/-- A split without seeds fails. -/
theorem splitNode_assertion (hfull : n.branches.length = NODECARD)
    (hno : ¬Wasteful (branchBuf n b)) {a : Nat}
    (ha : RectArea (CoverSplit (branchBuf n b)) = .ok a) : SplitNode n b = .error .assertion := by
  rw [SplitNode, getBranches_eq hfull, ha, Except.map, ok_bind, MethodZero, pickSeeds_assertion hno]
  rfl

/-- The branches of a full node and one more are divided between the two nodes, if `RectArea` does
not end the program, exactly if some pair of them would waste area or `RectArea` ends the program on
the rectangle around all of them. -/
theorem splitNode_divides_iff (hfull : n.branches.length = NODECARD) (hb : b.child.some = true) :
    Meets (SplitNode n b) (Divided n b) (· = .exitFailure) ↔
      Wasteful (branchBuf n b) ∨ RectArea (CoverSplit (branchBuf n b)) = .error .exitFailure := by
  constructor
  · intro h
    by_contra hno
    rw [not_or] at hno
    cases ha : RectArea (CoverSplit (branchBuf n b)) with
    | ok a =>
      rw [splitNode_assertion hfull hno.1 ha] at h
      cases h
    | error e =>
      have he : e = .exitFailure := (rectArea_meets _).of_error ha
      exact hno.2 (he ▸ ha)
  · rintro (hw | hexit)
    · refine (splitNode_spec .all (fun _ => trivial) hfull hb hw).imp ?_
      rintro s ⟨xs, ys, hx, hy, hxs, hys, hperm⟩
      exact ⟨(hx.perm.append hy.perm).trans hperm,
        ⟨fun h => hxs (nil_perm.1 (h ▸ hx.perm)), fun h => hys (nil_perm.1 (h ▸ hy.perm))⟩,
        ⟨branches_length_le _, branches_length_le _⟩, hx.count, hy.count⟩
    · rw [SplitNode, getBranches_eq hfull, hexit]
      exact rfl

/-! ## Equal rectangles -/

theorem combineRect_self (r : Rect) : CombineRect r r = r := by
  rw [CombineRect, min_self, min_self, min_self, min_self, ite_self, ite_self]

/-- Equal rectangles of no area waste nothing. -/
theorem not_wasteful_of_eq {r : Rect} (hr : RectArea r = .ok 0) (hbuf : ∀ i, (buf i).rect = r) :
    ¬Wasteful buf := by
  rintro ⟨i, j, -, hne⟩
  refine hne ?_
  rw [waste, hbuf, hbuf, combineRect_self, hr]
  rfl

/-- The rectangle around equal rectangles. -/
theorem coverSplit_of_eq {r : Rect} (hbuf : ∀ i, (buf i).rect = r) : CoverSplit buf = r := by
  rw [CoverSplit, hbuf]
  induction (finRange (NODECARD + 1)).drop 1 with
  | nil => rfl
  | cons i L ih => rw [foldl_cons, hbuf, combineRect_self, ih]

/-- A full leaf with one point for all of its rectangles. -/
def pointLeaf : Node Nat := ⟨64, 0, fun _ => ⟨3, 5, 3, 5⟩, fun i => .data i⟩

/-- One more datum at the point. -/
def pointBranch : Branch Nat := ⟨⟨3, 5, 3, 5⟩, .data 64⟩

theorem pointLeaf_full : pointLeaf.branches.length = NODECARD := by
  have hall : (finRange NODECARD).filter (fun i => (pointLeaf.child i).some) =
      finRange NODECARD := List.filter_eq_self.2 fun i _ => rfl
  rw [Node.branches, hall, length_map, length_finRange]

theorem branchBuf_pointLeaf (i : Fin (NODECARD + 1)) :
    (branchBuf pointLeaf pointBranch i).rect = ⟨3, 5, 3, 5⟩ := by
  rw [branchBuf]
  split <;> rfl

theorem splitNode_divides_iff_point :
    Meets (SplitNode pointLeaf pointBranch) (Divided pointLeaf pointBranch) (· = .exitFailure) ↔
      Wasteful (branchBuf pointLeaf pointBranch) ∨
      RectArea (CoverSplit (branchBuf pointLeaf pointBranch)) = .error .exitFailure :=
  splitNode_divides_iff pointLeaf_full rfl

/-- A leaf of one point cannot be split. -/
theorem splitNode_pointLeaf : SplitNode pointLeaf pointBranch = .error .assertion :=
  splitNode_assertion pointLeaf_full (not_wasteful_of_eq rfl branchBuf_pointLeaf)
    ((congrArg RectArea (coverSplit_of_eq branchBuf_pointLeaf)).trans rfl)

end Graphviz.Label
