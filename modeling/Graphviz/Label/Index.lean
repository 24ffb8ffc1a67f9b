import Graphviz.Library.Instances
import Graphviz.Util.Fault

/-!
# R-trees

`lib/label`: `rectangle.c`, `node.c`, `split.q.c` and `index.c`, with the coordinates of rectangles
as integers. A node is a value with its array of branches; the pointer in a branch is null, points
to a node, or at level 0 is the datum itself. Areas are the 64-bit numbers of the source: a product
that does not fit ends the program, and differences wrap around.
-/

namespace Graphviz.Label

open List Outcome

/-- `NODECARD`, the number of branches of a node. -/
def NODECARD : Nat := 64

instance : NeZero NODECARD := ⟨by decide⟩

theorem nodecard_eq : NODECARD = 64 := rfl

attribute [irreducible] NODECARD

/-! ## Rectangles -/

/-- `Rect_t`: the low sides `boundary[0]` and `boundary[1]`, and the high sides `boundary[2]` and
`boundary[3]`. -/
structure Rect where
  b0 : Int
  b1 : Int
  b2 : Int
  b3 : Int
  deriving DecidableEq, Repr

/-- `Undefined`. -/
def Undefined (r : Rect) : Bool :=
  r.b2 < r.b0

/-- `InitRect`. -/
def InitRect : Rect :=
  ⟨0, 0, 0, 0⟩

/-- `NullRect`. -/
def NullRect : Rect :=
  ⟨1, 0, -1, 0⟩

/-- `UINT64_MAX`. -/
def UINT64_MAX : Nat := 2 ^ 64 - 1

/-- One round of the loop of `RectArea`, without its early return. -/
def timesDim (area dim : Nat) : Except Fault Nat :=
  if UINT64_MAX / dim < area then .error .exitFailure else .ok (area * dim)

/-- `RectArea`. -/
def RectArea (r : Rect) : Except Fault Nat :=
  if Undefined r then .ok 0
  else if (r.b2 - r.b0).toNat = 0 then .ok 0
  else do
    let area ← timesDim 1 (r.b2 - r.b0).toNat
    if (r.b3 - r.b1).toNat = 0 then .ok 0 else timesDim area (r.b3 - r.b1).toNat

/-- The difference of two areas, as `uint64_t`. -/
def areaSub (a b : Nat) : Nat :=
  (a + 2 ^ 64 - b) % 2 ^ 64

/-- `CombineRect`: both sides are taken with `fmin`. -/
def CombineRect (r rr : Rect) : Rect :=
  if Undefined r then rr
  else if Undefined rr then r
  else ⟨min r.b0 rr.b0, min r.b1 rr.b1, min r.b2 rr.b2, min r.b3 rr.b3⟩

/-- `Overlap`. -/
def Overlap (r s : Rect) : Bool :=
  !(r.b0 > s.b2 || s.b0 > r.b2) && !(r.b1 > s.b3 || s.b1 > r.b3)

/-! ## Nodes -/

/-- What the pointer of a branch is: null, a datum, or a node with its arrays of rectangles and of
pointers. -/
inductive Child (α : Type) where
  | null
  | data (d : α)
  | node (count : Int) (level : Int) (rect : Fin NODECARD → Rect) (child : Fin NODECARD → Child α)

/-- `Node_t`. -/
structure Node (α : Type) where
  count : Int
  level : Int
  rect : Fin NODECARD → Rect
  child : Fin NODECARD → Child α

/-- `Branch_t`. -/
structure Branch (α : Type) where
  rect : Rect
  child : Child α

variable {α : Type}

/-- Whether a pointer is not null. -/
def Child.some : Child α → Bool
  | .null => false
  | _ => true

/-- The pointer to a node. -/
def Node.toChild (n : Node α) : Child α :=
  .node n.count n.level n.rect n.child

/-- `RTreeNewNode`, with `InitNode` and `InitBranch`. -/
def RTreeNewNode : Node α :=
  ⟨0, -1, fun _ => InitRect, fun _ => .null⟩

/-- `NodeCover`. -/
def NodeCover (n : Node α) : Rect :=
  ((finRange NODECARD).foldl (fun (s : Rect × Bool) i =>
    if (n.child i).some then
      if s.2 then (n.rect i, false) else (CombineRect s.1 (n.rect i), false)
    else s) (InitRect, true)).1

/-- The variables of `PickBranch`. -/
structure Best where
  bestIncr : Nat
  bestArea : Nat
  best : Fin NODECARD
  bestSet : Bool

/-- The body of the loop of `PickBranch`. -/
def pickBranchStep (r : Rect) (n : Node α) (s : Best) (i : Fin NODECARD) : Except Fault Best :=
  if (n.child i).some then do
    let area ← RectArea (n.rect i)
    let after ← RectArea (CombineRect r (n.rect i))
    let increase := areaSub after area
    if !s.bestSet || increase < s.bestIncr then .ok ⟨increase, area, i, true⟩
    else if increase = s.bestIncr ∧ area < s.bestArea then .ok ⟨increase, area, i, s.bestSet⟩
    else .ok s
  else .ok s

/-- `PickBranch`. -/
def PickBranch (r : Rect) (n : Node α) : Except Fault (Fin NODECARD) := do
  let s ← (finRange NODECARD).foldlM (pickBranchStep r n) ⟨0, 0, 0, false⟩
  .ok s.best

/-- The part of `AddBranch` for a node that need not be split: the first empty branch is filled. -/
def fillBranch (b : Branch α) (n : Node α) : Except Fault (Node α) :=
  match (finRange NODECARD).find? fun i => !(n.child i).some with
  | none => .error .assertion
  | some i =>
    .ok { n with
      count := n.count + 1
      rect := Function.update n.rect i b.rect
      child := Function.update n.child i b.child }

/-! ## Splitting a node -/

/-- `PartitionVars`. -/
structure PartitionVars where
  partition : Fin (NODECARD + 1) → Int
  taken : Fin (NODECARD + 1) → Bool
  count : Fin 2 → Nat
  cover : Fin 2 → Rect
  area : Fin 2 → Nat

/-- `InitPVars`. -/
def InitPVars : PartitionVars :=
  ⟨fun _ => -1, fun _ => false, fun _ => 0, fun _ => NullRect, fun _ => 0⟩

/-- `BranchBuf` after `GetBranches`: the branches of the full node, and the new one. -/
def branchBuf (n : Node α) (b : Branch α) (i : Fin (NODECARD + 1)) : Branch α :=
  if h : i.val < NODECARD then ⟨n.rect ⟨i.val, h⟩, n.child ⟨i.val, h⟩⟩ else b

/-- `CoverSplit`: the rectangle around the branches of the buffer. -/
def CoverSplit (buf : Fin (NODECARD + 1) → Branch α) : Rect :=
  ((finRange (NODECARD + 1)).drop 1).foldl
    (fun cover i => CombineRect cover (buf i).rect) (buf 0).rect

/-- `GetBranches`: the buffer. The area of the rectangle around it is computed and not used. -/
def GetBranches (n : Node α) (b : Branch α) : Except Fault (Fin (NODECARD + 1) → Branch α) := do
  assert (∀ i, (n.child i).some = true)
  let buf := branchBuf n b
  let _ ← RectArea (CoverSplit buf)
  .ok buf

/-- `Classify`. -/
def Classify (buf : Fin (NODECARD + 1) → Branch α) (p : PartitionVars) (i : Fin (NODECARD + 1))
    (group : Fin 2) : Except Fault PartitionVars := do
  assert (p.taken i = false)
  let cover := if p.count group = 0 then (buf i).rect else CombineRect (buf i).rect (p.cover group)
  let area ← RectArea cover
  .ok {
    partition := Function.update p.partition i group
    taken := Function.update p.taken i true
    count := Function.update p.count group (p.count group + 1)
    cover := Function.update p.cover group cover
    area := Function.update p.area group area }

/-- `waste`, for two branches of the buffer. -/
def waste (buf : Fin (NODECARD + 1) → Branch α) (i j : Fin (NODECARD + 1)) : Except Fault Nat := do
  let areai ← RectArea (buf i).rect
  let areaj ← RectArea (buf j).rect
  let area ← RectArea (CombineRect (buf i).rect (buf j).rect)
  .ok (areaSub (areaSub area areai) areaj)

/-- The pairs of the two nested loops of `PickSeeds`, in their order. -/
def seedPairs : List (Fin (NODECARD + 1) × Fin (NODECARD + 1)) :=
  (finRange (NODECARD + 1)).flatMap fun i =>
    ((finRange (NODECARD + 1)).filter fun j => i < j).map fun j => (i, j)

/-- The variables of `PickSeeds`. -/
structure Seeds where
  worst : Nat
  seed0 : Fin (NODECARD + 1)
  seed1 : Fin (NODECARD + 1)

/-- The body of the nested loops of `PickSeeds`. -/
def pickSeedsStep (buf : Fin (NODECARD + 1) → Branch α) (s : Seeds)
    (ij : Fin (NODECARD + 1) × Fin (NODECARD + 1)) : Except Fault Seeds := do
  let w ← waste buf ij.1 ij.2
  if w > s.worst then .ok ⟨w, ij.1, ij.2⟩ else .ok s

attribute [local instance] Instances.neZero_two

/-- `PickSeeds`. -/
def PickSeeds (buf : Fin (NODECARD + 1) → Branch α) (p : PartitionVars) :
    Except Fault PartitionVars := do
  let s ← seedPairs.foldlM (pickSeedsStep buf) ⟨0, 0, 0⟩
  let p ← Classify buf p s.seed0 0
  Classify buf p s.seed1 1

/-- The variables of the inner loop of `MethodZero`. -/
structure Choice where
  biggestDiffSet : Bool
  biggestDiff : Nat
  chosen : Fin (NODECARD + 1)
  betterGroup : Fin 2

/-- The body of the inner loop of `MethodZero`. -/
def chooseStep (buf : Fin (NODECARD + 1) → Branch α) (p : PartitionVars) (s : Choice)
    (i : Fin (NODECARD + 1)) : Except Fault Choice :=
  if p.taken i then .ok s
  else do
    let area0 ← RectArea (CombineRect (buf i).rect (p.cover 0))
    let growth0 := areaSub area0 (p.area 0)
    let area1 ← RectArea (CombineRect (buf i).rect (p.cover 1))
    let growth1 := areaSub area1 (p.area 1)
    let group : Fin 2 := if growth1 ≥ growth0 then 0 else 1
    let diff := if growth1 ≥ growth0 then growth1 - growth0 else growth0 - growth1
    if !s.biggestDiffSet || diff > s.biggestDiff then .ok ⟨true, diff, i, group⟩
    else if diff = s.biggestDiff ∧ p.count group < p.count s.betterGroup then
      .ok { s with chosen := i, betterGroup := group }
    else .ok s

/-- The outer loop of `MethodZero`, of at most as many rounds as there are branches; `chosen` and
`betterGroup` keep their values from one round to the next. -/
def methodZeroLoop (buf : Fin (NODECARD + 1) → Branch α) :
    Nat → PartitionVars → Fin (NODECARD + 1) → Fin 2 → Except Fault PartitionVars
  | 0, p, _, _ => .ok p
  | n + 1, p, chosen, betterGroup =>
    if p.count 0 + p.count 1 < NODECARD + 1 ∧ p.count 0 < NODECARD + 1 ∧
        p.count 1 < NODECARD + 1 then do
      let s ← (finRange (NODECARD + 1)).foldlM (chooseStep buf p)
        ⟨false, 0, chosen, betterGroup⟩
      let p ← Classify buf p s.chosen s.betterGroup
      methodZeroLoop buf n p s.chosen s.betterGroup
    else .ok p

/-- The branches that are left go to one group. -/
def classifyRest (buf : Fin (NODECARD + 1) → Branch α) (p : PartitionVars) :
    Except Fault PartitionVars :=
  if p.count 0 + p.count 1 < NODECARD + 1 then
    (finRange (NODECARD + 1)).foldlM (fun q i =>
      if q.taken i then .ok q
      else Classify buf q i (if p.count 0 ≥ NODECARD + 1 then 1 else 0)) p
  else .ok p

/-- `MethodZero`. -/
def MethodZero (buf : Fin (NODECARD + 1) → Branch α) : Except Fault PartitionVars := do
  let p ← PickSeeds buf InitPVars
  let p ← methodZeroLoop buf (NODECARD + 1) p 0 0
  let p ← classifyRest buf p
  assert (p.count 0 + p.count 1 = NODECARD + 1)
  .ok p

/-- `LoadNodes`. -/
def LoadNodes (buf : Fin (NODECARD + 1) → Branch α) (p : PartitionVars) (n q : Node α) :
    Except Fault (Node α × Node α) :=
  (finRange (NODECARD + 1)).foldlM (fun (s : Node α × Node α) i => do
    assert (p.partition i = 0 ∨ p.partition i = 1)
    if p.partition i = 0 then do
      let n ← fillBranch (buf i) s.1
      .ok (n, s.2)
    else do
      let q ← fillBranch (buf i) s.2
      .ok (s.1, q)) (n, q)

/-- `SplitNode`. -/
def SplitNode (n : Node α) (b : Branch α) : Except Fault (Node α × Node α) := do
  let buf ← GetBranches n b
  let p ← MethodZero buf
  let s ← LoadNodes buf p { RTreeNewNode with level := n.level }
    { RTreeNewNode with level := n.level }
  assert (s.1.count + s.2.count = NODECARD + 1)
  .ok s

/-- `AddBranch`: the node, and the new one if it was split. -/
def AddBranch (b : Branch α) (n : Node α) : Except Fault (Node α × Option (Node α)) :=
  if n.count < NODECARD then do
    let n ← fillBranch b n
    .ok (n, none)
  else do
    let s ← SplitNode n b
    .ok (s.1, some s.2)

/-! ## The index -/

/-- `RTreeOpen`, with `RTreeNewIndex`: the root. -/
def RTreeOpen : Node α :=
  { RTreeNewNode with level := 0 }

/-- The recursion of `RTreeInsert2` on a child: the node is updated, and a new one may come. -/
def RTreeInsert2 (r : Rect) (data : α) (level : Int) : Child α →
    Except Fault (Node α × Option (Node α))
  | .node count nlevel rect child => do
    assert (0 ≤ level ∧ level ≤ nlevel)
    let n : Node α := ⟨count, nlevel, rect, child⟩
    if nlevel > level then do
      let i ← PickBranch r n
      let s ← RTreeInsert2 r data level (child i)
      let n := { n with child := Function.update child i s.1.toChild }
      match s.2 with
      | none => .ok ({ n with rect := Function.update rect i (CombineRect r (rect i)) }, none)
      | some n2 =>
        AddBranch ⟨NodeCover n2, n2.toChild⟩
          { n with rect := Function.update rect i (NodeCover s.1) }
    else AddBranch ⟨r, .data data⟩ n
  | _ => .error .segfault

/-- `RTreeInsert`: the new root. -/
def RTreeInsert (r : Rect) (data : α) (n : Node α) : Except Fault (Node α) := do
  assert (r.b0 ≤ r.b2 ∧ r.b1 ≤ r.b3)
  let s ← RTreeInsert2 r data 0 n.toChild
  match s.2 with
  | none => .ok s.1
  | some newnode => do
    let newroot : Node α := { RTreeNewNode with level := s.1.level + 1 }
    let newroot ← AddBranch ⟨NodeCover s.1, s.1.toChild⟩ newroot
    let newroot ← AddBranch ⟨NodeCover newnode, newnode.toChild⟩ newroot.1
    .ok newroot.1

/-- `RTreeSearch` through the pointer of a node: the leaves found, each with its rectangle. -/
def searchChild (r : Rect) : Child α → List (Rect × α)
  | .node _ level rect child =>
    if level > 0 then
      (finRange NODECARD).flatMap fun i =>
        if (child i).some && Overlap r (rect i) then searchChild r (child i) else []
    else
      (finRange NODECARD).foldl (fun llp i =>
        match child i with
        | .data d => if Overlap r (rect i) then (rect i, d) :: llp else llp
        | _ => llp) []
  | _ => []

/-- `RTreeSearch`. -/
def RTreeSearch (n : Node α) (r : Rect) : List (Rect × α) :=
  searchChild r n.toChild

end Graphviz.Label

/-!
## Nodes of an R-tree

The branches of a node in use as a list, what filling and replacing a branch does to it, and the
rectangle that `NodeCover` computes. Since `CombineRect` takes the smaller of the high sides too,
a combination of rectangles has the least of their values in each of the four places: `Meet`.
-/

namespace Graphviz.Label

open List Outcome

variable {α : Type}

/-! ## Rectangles -/

/-- A rectangle that `RTreeInsert` accepts. -/
def Valid (r : Rect) : Prop :=
  r.b0 ≤ r.b2 ∧ r.b1 ≤ r.b3

/-- The rectangle `r` has the least value of the rectangles `S` in each place. -/
structure Meet (r : Rect) (S : Set Rect) : Prop where
  b0 : IsLeast (Rect.b0 '' S) r.b0
  b1 : IsLeast (Rect.b1 '' S) r.b1
  b2 : IsLeast (Rect.b2 '' S) r.b2
  b3 : IsLeast (Rect.b3 '' S) r.b3

theorem Meet.singleton (r : Rect) : Meet r {r} := by
  refine ⟨?_, ?_, ?_, ?_⟩ <;> rw [Set.image_singleton] <;> exact isLeast_singleton

theorem Meet.nonempty {r : Rect} {S : Set Rect} (h : Meet r S) : S.Nonempty :=
  Set.Nonempty.of_image h.b0.nonempty

/-- The least values of rectangles with low sides below high sides are such sides again. -/
theorem Meet.valid {r : Rect} {S : Set Rect} (h : Meet r S) (hS : ∀ s ∈ S, Valid s) : Valid r := by
  obtain ⟨s, hs, hs2⟩ := h.b2.1
  obtain ⟨t, ht, ht3⟩ := h.b3.1
  constructor
  · rw [← hs2]
    exact (h.b0.2 ⟨s, hs, rfl⟩).trans (hS s hs).1
  · rw [← ht3]
    exact (h.b1.2 ⟨t, ht, rfl⟩).trans (hS t ht).2

theorem Valid.defined {r : Rect} (h : Valid r) : Undefined r = false := by
  rw [Undefined, decide_eq_false_iff_not]
  exact Int.not_lt.2 h.1

/-- What `CombineRect` computes. -/
theorem Meet.combine {r s : Rect} {S T : Set Rect} (hr : Meet r S) (hs : Meet s T)
    (hS : ∀ s ∈ S, Valid s) (hT : ∀ t ∈ T, Valid t) : Meet (CombineRect r s) (S ∪ T) := by
  have hrv := (hr.valid hS).defined
  have hsv := (hs.valid hT).defined
  rw [CombineRect, hrv, hsv]
  constructor
  · rw [Set.image_union]; exact hr.b0.union hs.b0
  · rw [Set.image_union]; exact hr.b1.union hs.b1
  · rw [Set.image_union]; exact hr.b2.union hs.b2
  · rw [Set.image_union]; exact hr.b3.union hs.b3

/-! ## Branches in use -/

/-- A cell of a node. -/
def Node.cell (n : Node α) (i : Fin NODECARD) : Branch α :=
  ⟨n.rect i, n.child i⟩

/-- A node with one cell replaced. -/
def Node.setCell (n : Node α) (i : Fin NODECARD) (b : Branch α) : Node α :=
  { n with rect := Function.update n.rect i b.rect, child := Function.update n.child i b.child }

/-- The branches in use. -/
def Node.branches (n : Node α) : List (Branch α) :=
  ((finRange NODECARD).filter fun i => (n.child i).some).map n.cell

variable {n : Node α} {b : Branch α} {i : Fin NODECARD}

theorem mem_branches : b ∈ n.branches ↔ ∃ i, (n.child i).some = true ∧ n.cell i = b := by
  simp [Node.branches]

theorem branches_new (l : Int) : ({ RTreeNewNode with level := l } : Node α).branches = [] := by
  rw [Node.branches, filter_eq_nil_iff.2 fun i _ => by simp [RTreeNewNode, Child.some]]
  rfl

theorem cell_setCell_self : (n.setCell i b).cell i = b := by
  simp only [Node.cell, Node.setCell, Function.update_self]

theorem cell_setCell_ne {j : Fin NODECARD} (h : j ≠ i) : (n.setCell i b).cell j = n.cell j := by
  simp only [Node.cell, Node.setCell, Function.update_of_ne h]

/-- The branches in use before and after a cell is replaced by a branch. -/
theorem branches_setCell (n : Node α) (i : Fin NODECARD) (hb : b.child.some = true) :
    ∃ A B, n.branches = A ++ ((if (n.child i).some then [n.cell i] else []) ++ B) ∧
      (n.setCell i b).branches = A ++ b :: B := by
  obtain ⟨L, R, hLR⟩ := append_of_mem (mem_finRange i)
  have hnodup := nodup_finRange NODECARD
  rw [hLR, nodup_append] at hnodup
  obtain ⟨_, hR, hdisj⟩ := hnodup
  have hL : i ∉ L := fun h => hdisj i h i mem_cons_self rfl
  have hR : i ∉ R := (nodup_cons.1 hR).1
  have hkeep : ∀ M : List (Fin NODECARD), i ∉ M →
      (M.filter fun j => ((n.setCell i b).child j).some).map (n.setCell i b).cell =
        (M.filter fun j => (n.child j).some).map n.cell := by
    intro M hM
    have hne : ∀ j ∈ M, j ≠ i := fun j hj hji => hM (hji ▸ hj)
    have hfil : (M.filter fun j => ((n.setCell i b).child j).some) =
        M.filter fun j => (n.child j).some :=
      filter_congr fun j hj =>
        congrArg (fun b : Branch α => b.child.some) (cell_setCell_ne (hne j hj))
    rw [hfil]
    exact map_congr_left fun j hj => cell_setCell_ne (hne j (mem_filter.1 hj).1)
  refine ⟨(L.filter fun j => (n.child j).some).map n.cell,
    (R.filter fun j => (n.child j).some).map n.cell, ?_, ?_⟩
  · rw [Node.branches, hLR, filter_append, map_append, filter_cons]
    split <;> simp
  · have hval : (n.setCell i b).cell i = b := cell_setCell_self
    have hcell : ((n.setCell i b).child i).some = true :=
      (congrArg (fun b : Branch α => b.child.some) hval).trans hb
    rw [Node.branches, hLR, filter_append, map_append, hkeep L hL, filter_cons,
      if_pos hcell, map_cons, hval, hkeep R hR]

theorem branches_length_le (n : Node α) : n.branches.length ≤ NODECARD := by
  rw [Node.branches, length_map]
  exact (length_filter_le _ _).trans_eq length_finRange

/-- A node with as many branches as cells uses all of them. -/
theorem some_of_full (h : n.branches.length = NODECARD) (i : Fin NODECARD) :
    (n.child i).some = true := by
  rw [Node.branches, length_map] at h
  have hall := length_filter_eq_length_iff.1 (h.trans length_finRange.symm)
  exact hall i (mem_finRange i)

/-- A new branch is put into an empty cell. -/
theorem fillBranch_spec (hn : n.branches.length < NODECARD) (hb : b.child.some = true)
    {E : Fault → Prop} :
    Meets (fillBranch b n) (fun n' => n'.branches.Perm (b :: n.branches) ∧
      n'.count = n.count + 1 ∧ n'.level = n.level) E := by
  rw [fillBranch]
  split
  next hfind =>
    refine absurd hn (Nat.not_lt.2 (Nat.le_of_eq ?_))
    have hall : ∀ i ∈ finRange NODECARD, (n.child i).some = true := fun i hi => by
      simpa using find?_eq_none.1 hfind i hi
    rw [Node.branches, List.filter_eq_self.2 hall, length_map, length_finRange]
  next i hfind =>
    have hi : (n.child i).some = false := by simpa using find?_some hfind
    obtain ⟨A, B, hold, hnew⟩ := branches_setCell n i hb
    rw [hi] at hold
    refine ⟨?_, rfl, rfl⟩
    have hnew' : ({ n with
        count := n.count + 1
        rect := Function.update n.rect i b.rect
        child := Function.update n.child i b.child } : Node α).branches = A ++ b :: B := hnew
    rw [hnew', hold]
    exact perm_middle

/-! ## Covers -/

/-- `NodeCover` combines the rectangles of the branches in use. -/
theorem nodeCover_eq {c : Branch α} {bs : List (Branch α)} (h : n.branches = c :: bs) :
    NodeCover n = bs.foldl (fun r b => CombineRect r b.rect) c.rect := by
  have hfold : ∀ (L : List (Fin NODECARD)) (s : Rect × Bool),
      L.foldl (fun (s : Rect × Bool) i =>
        if (n.child i).some then
          if s.2 then (n.rect i, false) else (CombineRect s.1 (n.rect i), false)
        else s) s =
      ((L.filter fun i => (n.child i).some).map n.cell).foldl (fun (s : Rect × Bool) b =>
        if s.2 then (b.rect, false) else (CombineRect s.1 b.rect, false)) s := by
    intro L
    induction L with
    | nil => intro s; rfl
    | cons i L ih =>
      intro s
      rw [foldl_cons, filter_cons, ih]
      cases (n.child i).some <;> rfl
  have hflag : ∀ (bs : List (Branch α)) (r : Rect),
      (bs.foldl (fun (s : Rect × Bool) b =>
        if s.2 then (b.rect, false) else (CombineRect s.1 b.rect, false)) (r, false)).1 =
      bs.foldl (fun r b => CombineRect r b.rect) r := by
    intro bs
    induction bs with
    | nil => intro r; rfl
    | cons b bs ih => intro r; exact ih _
  rw [NodeCover, hfold]
  have hb : ((finRange NODECARD).filter fun i => (n.child i).some).map n.cell = c :: bs := h
  rw [hb]
  exact hflag bs c.rect

/-- The cover has the least values of what the branches' rectangles have the least values of. -/
theorem nodeCover_meet (f : Branch α → Set Rect) (hne : n.branches ≠ [])
    (hm : ∀ b ∈ n.branches, Meet b.rect (f b)) (hv : ∀ b ∈ n.branches, ∀ s ∈ f b, Valid s) :
    Meet (NodeCover n) {s | ∃ b ∈ n.branches, s ∈ f b} := by
  cases hn : n.branches with
  | nil => exact absurd hn hne
  | cons c bs =>
    rw [hn] at hm hv
    rw [nodeCover_eq hn]
    have hfold : ∀ (bs : List (Branch α)) (r : Rect) (S : Set Rect), Meet r S →
        (∀ s ∈ S, Valid s) → (∀ b ∈ bs, Meet b.rect (f b)) → (∀ b ∈ bs, ∀ s ∈ f b, Valid s) →
        Meet (bs.foldl (fun r b => CombineRect r b.rect) r) (S ∪ {s | ∃ b ∈ bs, s ∈ f b}) := by
      intro bs
      induction bs with
      | nil => intro r S hr _ _ _; simpa using hr
      | cons b bs ih =>
        intro r S hr hS hm hv
        have hb := hm b mem_cons_self
        have hbv := hv b mem_cons_self
        have hstep := ih (CombineRect r b.rect) (S ∪ f b) (hr.combine hb hS hbv)
          (fun s hs => hs.elim (hS s) (hbv s)) (fun x hx => hm x (mem_cons_of_mem _ hx))
          fun x hx => hv x (mem_cons_of_mem _ hx)
        have hset : S ∪ {s | ∃ x ∈ b :: bs, s ∈ f x} = S ∪ f b ∪ {s | ∃ x ∈ bs, s ∈ f x} := by
          ext s
          simp [or_assoc]
        rw [hset]
        exact hstep
    have h := hfold bs c.rect (f c) (hm c mem_cons_self) (hv c mem_cons_self)
      (fun b hb => hm b (mem_cons_of_mem _ hb)) fun b hb => hv b (mem_cons_of_mem _ hb)
    have hset : {s | ∃ b ∈ c :: bs, s ∈ f b} = f c ∪ {s | ∃ b ∈ bs, s ∈ f b} := by
      ext s
      simp
    rw [hset]
    exact h

/-! ## Areas and the choice of a branch -/

/-- `RectArea` returns, or ends the program. -/
theorem rectArea_meets (r : Rect) : Meets (RectArea r) (fun _ => True) (· = .exitFailure) := by
  have htimes : ∀ a d, Meets (timesDim a d) (fun _ => True) (· = .exitFailure) := by
    intro a d
    rw [timesDim]
    split
    · rfl
    · trivial
  rw [RectArea]
  split
  · trivial
  · split
    · trivial
    · refine (htimes _ _).bind fun a _ => ?_
      split
      · trivial
      · exact htimes _ _

/-- `PickBranch` picks a branch in use, if there is one. -/
theorem pickBranch_spec (r : Rect) (hn : n.branches ≠ []) :
    Meets (PickBranch r n) (fun i => (n.child i).some = true) (· = .exitFailure) := by
  -- the best branch is in use once one has been seen
  let I : List (Fin NODECARD) → Best → Prop := fun rest s =>
    (s.bestSet = true → (n.child s.best).some = true) ∧
      (s.bestSet = true ∨ ∃ i ∈ rest, (n.child i).some = true)
  have hstart : I (finRange NODECARD) ⟨0, 0, 0, false⟩ := by
    obtain ⟨c, hc⟩ := exists_mem_of_ne_nil _ hn
    obtain ⟨i, hi, _⟩ := mem_branches.1 hc
    exact ⟨nofun, Or.inr ⟨i, mem_finRange i, hi⟩⟩
  rw [PickBranch]
  refine (Meets.foldlM I (fun i rest s hs => ?_) _ hstart).bind fun s hs => ?_
  · rw [pickBranchStep]
    split
    next hsome =>
      refine (rectArea_meets _).bind fun a _ => (rectArea_meets _).bind fun a' _ => ?_
      simp only
      split
      next => exact ⟨fun _ => hsome, Or.inl rfl⟩
      next hset =>
        have hset : s.bestSet = true := by
          cases hb : s.bestSet with
          | true => rfl
          | false => rw [hb] at hset; simp at hset
        split
        next => exact ⟨fun _ => hsome, Or.inl hset⟩
        next => exact ⟨hs.1, Or.inl hset⟩
    next hnone =>
      refine ⟨hs.1, hs.2.imp id fun ⟨j, hj, hjs⟩ => ?_⟩
      cases hj with
      | head => exact absurd hjs hnone
      | tail _ hj => exact ⟨j, hj, hjs⟩
  · exact hs.1 (hs.2.resolve_right fun ⟨_, hj, _⟩ => (nomatch hj))

end Graphviz.Label
