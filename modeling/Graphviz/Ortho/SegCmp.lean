import Mathlib.Algebra.Order.Ring.Int

/-!
# Comparing the segments of a channel (`ortho/ortho.c`)

`seg_cmp` tells on which side of another segment of its channel a segment has to lie so that the
two routes do not cross. It is antisymmetric on segments that begin before they end; a segment of
one point at the end of another breaks that, where it has its node and the other has its bend.
-/

namespace Graphviz.Ortho

/-- `bend`. -/
inductive bend where
  | B_NODE
  | B_UP
  | B_LEFT
  | B_DOWN
  | B_RIGHT
  deriving DecidableEq

open bend

/-- `segment`: its direction, common coordinate, end points with their bends, and track. -/
structure segment (α : Type) where
  isVert : Bool
  comm_coord : α
  p1 : α
  p2 : α
  l1 : bend
  l2 : bend
  track_no : ℕ

variable {α : Type} [LinearOrder α]

/-- `eqEndSeg`. -/
def eqEndSeg (S1l2 S2l2 T1 T2 : bend) : ℤ :=
  if (S1l2 = T2 ∧ S2l2 ≠ T2) ∨ (S1l2 = B_NODE ∧ S2l2 = T1) then 0 else -1

/-- `overlapSeg`. -/
def overlapSeg (S1 S2 : segment α) (T1 T2 : bend) : ℤ :=
  if S1.p2 < S2.p2 then
    if S1.l2 = T1 ∧ S2.l1 = T2 then -1
    else if S1.l2 = T2 ∧ S2.l1 = T1 then 1
    else 0
  else if S1.p2 > S2.p2 then
    if S2.l1 = T2 ∧ S2.l2 = T2 then -1
    else if S2.l1 = T1 ∧ S2.l2 = T1 then 1
    else 0
  else if S2.l1 = T2 then eqEndSeg S1.l2 S2.l2 T1 T2
  else -1 * eqEndSeg S2.l2 S1.l2 T1 T2

/-- `ellSeg`. -/
def ellSeg (S1l1 S1l2 T : bend) : ℤ :=
  if S1l1 = T then
    if S1l2 = T then -1 else 0
  else 1

/-- The part of `segCmp` for segments with the same end points. -/
def sameSeg (S1 S2 : segment α) (T1 T2 : bend) : ℤ :=
  if S1.l1 = S2.l1 ∧ S1.l2 = S2.l2 then 0
  else if S2.l1 = S2.l2 then
    if S2.l1 = T1 then 1
    else if S2.l1 = T2 then -1
    else if S1.l1 ≠ T1 ∧ S1.l2 ≠ T1 then 1
    else if S1.l1 ≠ T2 ∧ S1.l2 ≠ T2 then -1
    else 0
  else if S2.l1 = T1 ∧ S2.l2 = T2 then
    if S1.l1 ≠ T1 ∧ S1.l2 = T2 then 1
    else if S1.l1 = T1 ∧ S1.l2 ≠ T2 then -1
    else 0
  else if S2.l2 = T1 ∧ S2.l1 = T2 then
    if S1.l2 ≠ T1 ∧ S1.l1 = T2 then 1
    else if S1.l2 = T1 ∧ S1.l1 ≠ T2 then -1
    else 0
  else if S2.l1 = B_NODE ∧ S2.l2 = T1 then ellSeg S1.l1 S1.l2 T1
  else if S2.l1 = B_NODE ∧ S2.l2 = T2 then -1 * ellSeg S1.l1 S1.l2 T2
  else if S2.l1 = T1 ∧ S2.l2 = B_NODE then ellSeg S1.l2 S1.l1 T1
  else -1 * ellSeg S1.l2 S1.l1 T2

/-- `segCmp`. -/
def segCmp (S1 S2 : segment α) (T1 T2 : bend) : ℤ :=
  -- no overlap
  if S1.p2 < S2.p1 ∨ S1.p1 > S2.p2 then 0
  -- left endpoint of S2 inside S1
  else if S1.p1 < S2.p1 ∧ S2.p1 < S1.p2 then overlapSeg S1 S2 T1 T2
  -- left endpoint of S1 inside S2
  else if S2.p1 < S1.p1 ∧ S1.p1 < S2.p2 then -1 * overlapSeg S2 S1 T1 T2
  else if S1.p1 = S2.p1 then
    if S1.p2 < S2.p2 then
      if S1.l2 = T1 then eqEndSeg S2.l1 S1.l1 T1 T2
      else -1 * eqEndSeg S2.l1 S1.l1 T1 T2
    else if S1.p2 > S2.p2 then
      if S2.l2 = T2 then eqEndSeg S1.l1 S2.l1 T1 T2
      else -1 * eqEndSeg S1.l1 S2.l1 T1 T2
    else sameSeg S1 S2 T1 T2
  else if S1.p2 = S2.p1 then
    if S1.l2 = S2.l1 then 0
    else if S1.l2 = T2 then 1
    else -1
  -- S1->p.p1==S2->p.p2
  else if S1.l1 = S2.l2 then 0
  else if S1.l1 = T2 then 1
  else -1

/-- `seg_cmp`. -/
def seg_cmp (S1 S2 : segment α) : ℤ :=
  if S1.isVert ≠ S2.isVert ∨ S1.comm_coord ≠ S2.comm_coord then -2
  else if S1.isVert then segCmp S1 S2 B_RIGHT B_LEFT
  else segCmp S1 S2 B_DOWN B_UP

/-! ## Segments of a channel -/

/-- The two bends of segments of a direction, in the order in which `seg_cmp` has them. -/
def bendsOf (isVert : Bool) : bend × bend :=
  if isVert then (B_RIGHT, B_LEFT) else (B_DOWN, B_UP)

/-- The bend is one of a route through a channel of this direction: a node or one of the two
turns. -/
def Turn (isVert : Bool) (l : bend) : Prop :=
  l = B_NODE ∨ l = (bendsOf isVert).1 ∨ l = (bendsOf isVert).2

/-- A segment of the channel with this direction and coordinate between these extremes. It has
nodes at the extremes only. -/
structure segment.InChannel (S : segment α) (isVert : Bool) (comm_coord lo hi : α) : Prop where
  isVert_eq : S.isVert = isVert
  comm_coord_eq : S.comm_coord = comm_coord
  lo_le : lo ≤ S.p1
  le : S.p1 ≤ S.p2
  le_hi : S.p2 ≤ hi
  turn1 : Turn isVert S.l1
  turn2 : Turn isVert S.l2
  node1 : S.l1 = B_NODE → S.p1 = lo ∨ S.p1 = hi
  node2 : S.l2 = B_NODE → S.p2 = lo ∨ S.p2 = hi

/-- The second segment is a point at an end of the first one. At the upper end one of the two has
a node there and the other bends to the side of `T1`; at the lower end the point ends in a node,
and the bends at the beginnings put the two on different sides. -/
def Clash (S1 S2 : segment α) : Prop :=
  S1.p1 < S1.p2 ∧ S2.p1 = S2.p2 ∧
    (S2.p1 = S1.p2 ∧ (S1.l2 = B_NODE ∧ S2.l1 = (bendsOf S1.isVert).1 ∨
      S1.l2 = (bendsOf S1.isVert).1 ∧ S2.l1 = B_NODE) ∨
    S2.p1 = S1.p1 ∧ S2.l2 = B_NODE ∧ (S1.l1 = (bendsOf S1.isVert).1 ∨
      S1.l1 = (bendsOf S1.isVert).2 ∧ S2.l1 = (bendsOf S1.isVert).2 ∨
      S1.l1 = B_NODE ∧ S2.l1 ≠ (bendsOf S1.isVert).1))

/-! ## The two orders of arguments -/

variable {S1 S2 : segment α} {T1 T2 : bend}

theorem segCmp_apart (h : S1.p2 < S2.p1) : segCmp S1 S2 T1 T2 = 0 ∧ segCmp S2 S1 T1 T2 = 0 :=
  ⟨if_pos (.inl h), if_pos (.inr h)⟩

theorem segCmp_inside (hlt : S1.p1 < S2.p1) (hlt' : S2.p1 < S1.p2) (hle : S2.p1 ≤ S2.p2) :
    segCmp S1 S2 T1 T2 = overlapSeg S1 S2 T1 T2 ∧
      segCmp S2 S1 T1 T2 = -1 * overlapSeg S1 S2 T1 T2 := by
  have hlt2 : S1.p1 < S2.p2 := hlt.trans_le hle
  constructor
  · rw [segCmp, if_neg (not_or.2 ⟨hlt'.not_gt, hlt2.not_gt⟩), if_pos ⟨hlt, hlt'⟩]
  · rw [segCmp, if_neg (not_or.2 ⟨hlt2.not_gt, hlt'.not_gt⟩),
      if_neg fun h => hlt.not_gt h.1, if_pos ⟨hlt, hlt'⟩]

theorem segCmp_start (heq : S1.p1 = S2.p1) (hlt : S1.p2 < S2.p2) (hle : S1.p1 ≤ S1.p2) :
    segCmp S1 S2 T1 T2 = (if S1.l2 = T1 then eqEndSeg S2.l1 S1.l1 T1 T2
      else -1 * eqEndSeg S2.l1 S1.l1 T1 T2) ∧
    segCmp S2 S1 T1 T2 = (if S1.l2 = T2 then eqEndSeg S2.l1 S1.l1 T1 T2
      else -1 * eqEndSeg S2.l1 S1.l1 T1 T2) := by
  have hle2 : S1.p1 ≤ S2.p2 := hle.trans hlt.le
  constructor
  · rw [segCmp, if_neg (not_or.2 ⟨(heq ▸ hle).not_gt, hle2.not_gt⟩),
      if_neg fun h => h.1.ne heq, if_neg fun h => h.1.ne' heq, if_pos heq, if_pos hlt]
  · rw [segCmp, if_neg (not_or.2 ⟨hle2.not_gt, (heq ▸ hle).not_gt⟩),
      if_neg fun h => h.1.ne' heq, if_neg fun h => h.1.ne heq, if_pos heq.symm,
      if_neg hlt.not_gt, if_pos hlt]

theorem segCmp_same (heq : S1.p1 = S2.p1) (heq' : S1.p2 = S2.p2) (hle : S1.p1 ≤ S1.p2) :
    segCmp S1 S2 T1 T2 = sameSeg S1 S2 T1 T2 := by
  rw [segCmp, if_neg (not_or.2 ⟨(heq ▸ hle).not_gt, (heq' ▸ hle).not_gt⟩),
    if_neg fun h => h.1.ne heq, if_neg fun h => h.1.ne' heq, if_pos heq,
    if_neg fun h => h.ne heq', if_neg fun h => h.ne' heq']

theorem segCmp_meet (hlt : S1.p1 < S1.p2) (heq : S2.p1 = S1.p2) (hle : S2.p1 ≤ S2.p2) :
    segCmp S1 S2 T1 T2 = (if S1.l2 = S2.l1 then 0 else if S1.l2 = T2 then 1 else -1) ∧
    segCmp S2 S1 T1 T2 = (if S2.l1 = S1.l2 then 0 else if S2.l1 = T2 then 1 else -1) := by
  have hlt1 : S1.p1 < S2.p1 := heq ▸ hlt
  have hlt2 : S1.p1 < S2.p2 := hlt1.trans_le hle
  constructor
  · rw [segCmp, if_neg (not_or.2 ⟨heq.not_gt, hlt2.not_gt⟩), if_neg fun h => h.2.ne heq,
      if_neg fun h => hlt1.not_gt h.1, if_neg hlt1.ne, if_pos heq.symm]
  · rw [segCmp, if_neg (not_or.2 ⟨hlt2.not_gt, heq.not_gt⟩), if_neg fun h => hlt1.not_gt h.1,
      if_neg fun h => h.2.ne heq, if_neg hlt1.ne', if_neg hlt2.ne']

/-! ## The results -/

/-- The results of a comparison: `-1`, `0` and `1`. -/
def IsSign (c : ℤ) : Prop :=
  c = -1 ∨ c = 0 ∨ c = 1

theorem IsSign.neg {c : ℤ} (h : IsSign c) : IsSign (-1 * c) := by
  obtain rfl | rfl | rfl := h
  · exact .inr (.inr rfl)
  · exact .inr (.inl rfl)
  · exact .inl rfl

theorem IsSign.ite {p : Prop} [Decidable p] {c d : ℤ} (hc : IsSign c) (hd : IsSign d) :
    IsSign (if p then c else d) := by
  split
  · exact hc
  · exact hd

theorem isSign_zero : IsSign 0 := Or.inr (Or.inl rfl)
theorem isSign_one : IsSign 1 := Or.inr (Or.inr rfl)
theorem isSign_neg_one : IsSign (-1) := Or.inl rfl

theorem isSign_eqEndSeg (l l' : bend) : IsSign (eqEndSeg l l' T1 T2) :=
  .ite isSign_zero isSign_neg_one

theorem isSign_overlapSeg (S1 S2 : segment α) : IsSign (overlapSeg S1 S2 T1 T2) :=
  .ite (.ite isSign_neg_one (.ite isSign_one isSign_zero))
    (.ite (.ite isSign_neg_one (.ite isSign_one isSign_zero))
      (.ite (isSign_eqEndSeg _ _) (isSign_eqEndSeg _ _).neg))

theorem isSign_ellSeg (l l' T : bend) : IsSign (ellSeg l l' T) :=
  .ite (.ite isSign_neg_one isSign_zero) isSign_one

omit [LinearOrder α] in
theorem isSign_sameSeg (S1 S2 : segment α) : IsSign (sameSeg S1 S2 T1 T2) := by
  have hturn {p q : Prop} [Decidable p] [Decidable q] :
      IsSign (if p then 1 else if q then -1 else 0) :=
    .ite isSign_one (.ite isSign_neg_one isSign_zero)
  refine .ite isSign_zero (.ite (.ite isSign_one (.ite isSign_neg_one hturn)) ?_)
  exact .ite hturn (.ite hturn (.ite (isSign_ellSeg _ _ _) (.ite (isSign_ellSeg _ _ _).neg
    (.ite (isSign_ellSeg _ _ _) (isSign_ellSeg _ _ _).neg))))

theorem isSign_segCmp (S1 S2 : segment α) : IsSign (segCmp S1 S2 T1 T2) := by
  have hmeet {p q : Prop} [Decidable p] [Decidable q] :
      IsSign (if p then 0 else if q then 1 else -1) :=
    .ite isSign_zero (.ite isSign_one isSign_neg_one)
  have hstart {p : Prop} [Decidable p] (l l' : bend) :
      IsSign (if p then eqEndSeg l l' T1 T2 else -1 * eqEndSeg l l' T1 T2) :=
    .ite (isSign_eqEndSeg _ _) (isSign_eqEndSeg _ _).neg
  exact .ite isSign_zero (.ite (isSign_overlapSeg S1 S2) (.ite (isSign_overlapSeg S2 S1).neg
    (.ite (.ite (hstart _ _) (.ite (hstart _ _) (isSign_sameSeg S1 S2))) (.ite hmeet hmeet))))

/-! ## Antisymmetry -/

variable {isVert : Bool} {comm_coord lo hi : α}

theorem sameSeg_antisymm (h₁ : S1.InChannel isVert comm_coord lo hi)
    (h₂ : S2.InChannel isVert comm_coord lo hi) :
    sameSeg S1 S2 (bendsOf isVert).1 (bendsOf isVert).2 =
      -sameSeg S2 S1 (bendsOf isVert).1 (bendsOf isVert).2 := by
  unfold sameSeg ellSeg
  cases isVert with
  | false | true =>
    rcases h₁.turn1 with h | h | h <;> rcases h₁.turn2 with h' | h' | h' <;>
      rcases h₂.turn1 with k | k | k <;> rcases h₂.turn2 with k' | k' | k' <;>
      rw [h, h', k, k'] <;> rfl

/-- The bends of two segments with the same beginning, where the shorter one ends in a node. -/
theorem eqEndSeg_node {l l' : bend} (hl : Turn isVert l) (hl' : Turn isVert l') :
    eqEndSeg l l' (bendsOf isVert).1 (bendsOf isVert).2 = 0 ↔ ¬(l = (bendsOf isVert).1 ∨
      l = (bendsOf isVert).2 ∧ l' = (bendsOf isVert).2 ∨
      l = B_NODE ∧ l' ≠ (bendsOf isVert).1) := by
  unfold eqEndSeg
  cases isVert with
  | false | true =>
    rcases hl with rfl | rfl | rfl <;> rcases hl' with rfl | rfl | rfl <;> decide

/-- The bends of two segments that meet. -/
theorem meet_antisymm {l l' : bend} (hl : Turn isVert l) (hl' : Turn isVert l') :
    ((if l = l' then 0 else if l = (bendsOf isVert).2 then 1 else -1 : ℤ) =
      -(if l' = l then 0 else if l' = (bendsOf isVert).2 then 1 else -1)) ↔
    ¬(l = B_NODE ∧ l' = (bendsOf isVert).1 ∨ l = (bendsOf isVert).1 ∧ l' = B_NODE) := by
  cases isVert with
  | false | true =>
    rcases hl with rfl | rfl | rfl <;> rcases hl' with rfl | rfl | rfl <;> decide

/-- The sign of the bends at the beginning, by the bend at the end of the shorter segment. -/
theorem start_antisymm {l : bend} (hl : Turn isVert l) (e : ℤ) :
    ((if l = (bendsOf isVert).1 then e else -1 * e) =
      -(if l = (bendsOf isVert).2 then e else -1 * e)) ↔ (l = B_NODE → e = 0) := by
  cases isVert with
  | false | true =>
    rcases hl with rfl | rfl | rfl <;> simp only [bendsOf]
    all_goals simp
    all_goals omega

theorem seg_cmp_eq (h₁ : S1.InChannel isVert comm_coord lo hi)
    (h₂ : S2.InChannel isVert comm_coord lo hi) :
    seg_cmp S1 S2 = segCmp S1 S2 (bendsOf isVert).1 (bendsOf isVert).2 := by
  have hsame : ¬(S1.isVert ≠ S2.isVert ∨ S1.comm_coord ≠ S2.comm_coord) := by
    rw [h₁.isVert_eq, h₂.isVert_eq, h₁.comm_coord_eq, h₂.comm_coord_eq]
    exact fun h => h.elim (· rfl) (· rfl)
  rw [seg_cmp, if_neg hsame, h₁.isVert_eq]
  cases isVert <;> rfl

/-- The two orders of the arguments give opposite results. -/
def Antisymmetric (S1 S2 : segment α) : Prop :=
  seg_cmp S1 S2 = -seg_cmp S2 S1

theorem Antisymmetric.symm (h : Antisymmetric S1 S2) : Antisymmetric S2 S1 :=
  (neg_eq_iff_eq_neg.2 h).symm

theorem clash_of_start (h₁ : S1.InChannel isVert comm_coord lo hi)
    (h₂ : S2.InChannel isVert comm_coord lo hi) (heq : S1.p1 = S2.p1) (hlt : S1.p2 < S2.p2) :
    Antisymmetric S1 S2 ↔ ¬(Clash S1 S2 ∨ Clash S2 S1) := by
  obtain ⟨h, h'⟩ := @segCmp_start α _ S1 S2 (bendsOf isVert).1 (bendsOf isVert).2 heq hlt h₁.le
  have hpoint : S1.l2 = B_NODE → S1.p1 = S1.p2 := fun hnode =>
    (h₁.node2 hnode).elim (fun hlo => h₁.le.antisymm (hlo ▸ h₁.lo_le))
      fun hhi => absurd (hhi ▸ hlt) h₂.le_hi.not_gt
  have hnot : ¬Clash S1 S2 := fun ⟨_, hp, _⟩ => absurd (hp ▸ heq ▸ h₁.le) hlt.not_ge
  rw [Antisymmetric, seg_cmp_eq h₁ h₂, seg_cmp_eq h₂ h₁, h, h', start_antisymm h₁.turn2,
    eqEndSeg_node h₂.turn1 h₁.turn1, or_iff_right hnot, Clash, h₂.isVert_eq]
  constructor
  · rintro hbends ⟨-, -, ⟨hupper, -⟩ | ⟨-, hnode, hclash⟩⟩
    · exact absurd (hupper ▸ h₁.le) hlt.not_ge
    · exact hbends hnode hclash
  · intro hclash hnode hbends
    exact hclash ⟨heq ▸ h₁.le.trans_lt hlt, hpoint hnode, .inr ⟨heq, hnode, hbends⟩⟩

theorem clash_of_meet (h₁ : S1.InChannel isVert comm_coord lo hi)
    (h₂ : S2.InChannel isVert comm_coord lo hi) (hlt : S1.p1 < S1.p2) (heq : S2.p1 = S1.p2) :
    Antisymmetric S1 S2 ↔ ¬(Clash S1 S2 ∨ Clash S2 S1) := by
  obtain ⟨h, h'⟩ := @segCmp_meet α _ S1 S2 (bendsOf isVert).1 (bendsOf isVert).2 hlt heq h₂.le
  have hhi : S1.p2 = lo ∨ S1.p2 = hi → S2.p1 = S2.p2 := fun hends =>
    hends.elim (fun hlo => absurd (hlo ▸ hlt) h₁.lo_le.not_gt)
      fun hhi => h₂.le.antisymm (heq ▸ hhi ▸ h₂.le_hi)
  have hnot : ¬Clash S2 S1 := fun ⟨_, hp, _⟩ => hlt.ne hp
  rw [Antisymmetric, seg_cmp_eq h₁ h₂, seg_cmp_eq h₂ h₁, h, h', meet_antisymm h₁.turn2 h₂.turn1,
    or_iff_left hnot, Clash, h₁.isVert_eq]
  constructor
  · rintro hbends ⟨-, -, ⟨-, hclash⟩ | ⟨hlower, -⟩⟩
    · exact hbends hclash
    · exact hlt.ne (hlower ▸ heq)
  · intro hclash hbends
    refine hclash ⟨hlt, ?_, .inl ⟨heq, hbends⟩⟩
    obtain ⟨hnode, -⟩ | ⟨-, hnode⟩ := hbends
    · exact hhi (h₁.node2 hnode)
    · exact hhi (heq ▸ h₂.node1 hnode)

/-- Segments that are apart, one inside the other or the same do not clash. -/
theorem not_clash (hends : S2.p1 ≠ S2.p2 ∨ S2.p1 ≠ S1.p2 ∧ S2.p1 ≠ S1.p1)
    (hends' : S1.p1 ≠ S1.p2 ∨ S1.p1 ≠ S2.p2 ∧ S1.p1 ≠ S2.p1) : ¬(Clash S1 S2 ∨ Clash S2 S1) := by
  rintro (⟨-, hpoint, ⟨h, -⟩ | ⟨h, -⟩⟩ | ⟨-, hpoint, ⟨h, -⟩ | ⟨h, -⟩⟩)
  · exact hends.elim (· hpoint) (·.1 h)
  · exact hends.elim (· hpoint) (·.2 h)
  · exact hends'.elim (· hpoint) (·.1 h)
  · exact hends'.elim (· hpoint) (·.2 h)

/-- Segments in the order of their beginnings. -/
theorem antisymmetric_iff_of_le (h₁ : S1.InChannel isVert comm_coord lo hi)
    (h₂ : S2.InChannel isVert comm_coord lo hi)
    (horder : S1.p1 < S2.p1 ∨ S1.p1 = S2.p1 ∧ S1.p2 ≤ S2.p2) :
    Antisymmetric S1 S2 ↔ ¬(Clash S1 S2 ∨ Clash S2 S1) := by
  have hcmp := seg_cmp_eq h₁ h₂
  have hcmp' := seg_cmp_eq h₂ h₁
  obtain hlt | ⟨heq, hle⟩ := horder
  · have hne : S1.p1 ≠ S2.p2 ∧ S1.p1 ≠ S2.p1 := ⟨(hlt.trans_le h₂.le).ne, hlt.ne⟩
    obtain hapart | hmeet | hinside := lt_trichotomy S1.p2 S2.p1
    · obtain ⟨h, h'⟩ := @segCmp_apart α _ S1 S2 (bendsOf isVert).1 (bendsOf isVert).2 hapart
      refine iff_of_true ?_ (not_clash (.inr ⟨hapart.ne', hlt.ne'⟩) (.inr hne))
      rw [Antisymmetric, hcmp, hcmp', h, h', neg_zero]
    · exact clash_of_meet h₁ h₂ (hmeet ▸ hlt) hmeet.symm
    · obtain ⟨h, h'⟩ :=
        @segCmp_inside α _ S1 S2 (bendsOf isVert).1 (bendsOf isVert).2 hlt hinside h₂.le
      refine iff_of_true ?_ (not_clash (.inr ⟨hinside.ne, hlt.ne'⟩) (.inr hne))
      rw [Antisymmetric, hcmp, hcmp', h, h', neg_one_mul, neg_neg]
  · obtain hlt | heq' := hle.lt_or_eq
    · exact clash_of_start h₁ h₂ heq hlt
    · refine iff_of_true ?_ ?_
      · rw [Antisymmetric, hcmp, hcmp', segCmp_same heq heq' h₁.le,
          segCmp_same heq.symm heq'.symm h₂.le]
        exact sameSeg_antisymm h₁ h₂
      · rintro (⟨hlt, hpoint, -⟩ | ⟨hlt, hpoint, -⟩)
        · exact hlt.ne (heq.trans (hpoint.trans heq'.symm))
        · exact hlt.ne (heq.symm.trans (hpoint.trans heq'))

/-- The comparison of two segments of a channel is antisymmetric unless they clash. -/
theorem antisymmetric_iff (h₁ : S1.InChannel isVert comm_coord lo hi)
    (h₂ : S2.InChannel isVert comm_coord lo hi) :
    Antisymmetric S1 S2 ↔ ¬(Clash S1 S2 ∨ Clash S2 S1) := by
  have hswap : (Antisymmetric S1 S2 ↔ ¬(Clash S1 S2 ∨ Clash S2 S1)) ↔
      (Antisymmetric S2 S1 ↔ ¬(Clash S2 S1 ∨ Clash S1 S2)) := by
    rw [or_comm, show Antisymmetric S1 S2 ↔ Antisymmetric S2 S1 from
      ⟨Antisymmetric.symm, Antisymmetric.symm⟩]
  obtain hlt | heq | hgt := lt_trichotomy S1.p1 S2.p1
  · exact antisymmetric_iff_of_le h₁ h₂ (.inl hlt)
  · obtain hle | hle := le_total S1.p2 S2.p2
    · exact antisymmetric_iff_of_le h₁ h₂ (.inr ⟨heq, hle⟩)
    · exact hswap.2 (antisymmetric_iff_of_le h₂ h₁ (.inr ⟨heq.symm, hle⟩))
  · exact hswap.2 (antisymmetric_iff_of_le h₂ h₁ (.inl hgt))

end Graphviz.Ortho
