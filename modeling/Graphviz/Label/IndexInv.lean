import Graphviz.Label.SplitInv

/-!
# Insertion into an R-tree

The invariant of the index: levels drop by one at each step down to the data at level 0, counters
count the branches in use, and the rectangle of a branch has the least values of the rectangles
below it. An insertion keeps it and adds the one datum.
-/

namespace Graphviz.Label

open List Outcome

variable {α : Type}

/-! ## What an index holds -/

/-- The data below a pointer whose branch has the rectangle `r`, with their rectangles. -/
def Child.items (r : Rect) : Child α → List (Rect × α)
  | .null => []
  | .data d => [(r, d)]
  | .node _ _ rect child => (finRange NODECARD).flatMap fun i => (child i).items (rect i)

def Branch.items (b : Branch α) : List (Rect × α) :=
  b.child.items b.rect

/-- The data of an index. -/
def Node.items (n : Node α) : List (Rect × α) :=
  n.branches.flatMap Branch.items

/-- The rectangles of some data. -/
def rects (xs : List (Rect × α)) : Set Rect :=
  {s | ∃ x ∈ xs, x.1 = s}

variable {n : Node α} {b : Branch α} {r : Rect} {xs ys : List (Rect × α)}

theorem items_toChild (n : Node α) (r : Rect) : n.toChild.items r = n.items := by
  have hskip : ∀ L : List (Fin NODECARD),
      L.flatMap (fun i => (n.child i).items (n.rect i)) =
        ((L.filter fun i => (n.child i).some).map n.cell).flatMap Branch.items := by
    intro L
    induction L with
    | nil => rfl
    | cons i L ih =>
      rw [flatMap_cons, filter_cons, ih]
      cases hi : n.child i with
      | null => rfl
      | data d => simp [Child.some, Branch.items, Node.cell, hi]
      | node count level rect child => simp [Child.some, Branch.items, Node.cell, hi]
  exact hskip _

theorem Loaded.items {l : Int} {bs : List (Branch α)} (h : Loaded l bs n) :
    n.items.Perm (bs.flatMap Branch.items) :=
  h.perm.flatMap_right _

theorem rects_perm (h : xs.Perm ys) : rects xs = rects ys := by
  ext s
  simp [rects, h.mem_iff]

/-! ## The invariant -/

/-- The invariant of the node that a pointer of level `l` points to. -/
def Child.Inv : Child α → Nat → Prop
  | .node count level rect child, l =>
    level = l ∧
      count = ((finRange NODECARD).filter fun i => (child i).some).length ∧
      ∀ i, (child i).some = true →
        (l = 0 ∧ (∃ d, child i = .data d) ∧ Valid (rect i)) ∨
          ∃ k, l = k + 1 ∧ (child i).Inv k ∧ Meet (rect i) (rects ((child i).items (rect i)))
  | _, _ => False

/-- What holds of a branch of a node of level `l`. -/
def Branch.Inv (b : Branch α) (l : Nat) : Prop :=
  (l = 0 ∧ (∃ d, b.child = .data d) ∧ Valid b.rect) ∨
    ∃ k, l = k + 1 ∧ b.child.Inv k ∧ Meet b.rect (rects b.items)

def Node.Inv (n : Node α) (l : Nat) : Prop :=
  n.toChild.Inv l

variable {l : Nat}

theorem inv_iff : n.Inv l ↔
    n.level = l ∧ n.count = n.branches.length ∧ ∀ b ∈ n.branches, b.Inv l := by
  have hlen : n.branches.length =
      ((finRange NODECARD).filter fun i => (n.child i).some).length := by
    rw [Node.branches, length_map]
  rw [hlen, Node.Inv, Node.toChild, Child.Inv]
  refine and_congr_right fun _ => and_congr_right fun _ => ?_
  constructor
  · intro h b hb
    obtain ⟨i, hi, rfl⟩ := mem_branches.1 hb
    exact h i hi
  · exact fun h i hi => h (n.cell i) (mem_branches.2 ⟨i, hi, rfl⟩)

/-- A pointer that satisfies the invariant points to a node. -/
theorem Child.Inv.exists_node {c : Child α}
    (h : c.Inv l) : ∃ n : Node α, c = n.toChild ∧ n.Inv l := by
  cases c with
  | null => exact h.elim
  | data d => exact h.elim
  | node count level rect child => exact ⟨⟨count, level, rect, child⟩, rfl, h⟩

/-- The items below a node do not depend on the rectangle of its branch. -/
theorem Child.Inv.items_eq {c : Child α} (h : c.Inv l) (r r' : Rect) : c.items r = c.items r' := by
  cases c with
  | null => exact h.elim
  | data d => exact h.elim
  | node count level rect child => rfl

theorem Branch.Inv.some (h : b.Inv l) : b.child.some = true := by
  obtain ⟨_, ⟨d, hd⟩, _⟩ | ⟨k, _, hk, _⟩ := h
  · rw [hd]; rfl
  · obtain ⟨m, hm, _⟩ := hk.exists_node
    rw [hm]; rfl

/-- Every datum below a branch has a valid rectangle. -/
theorem Child.Inv.valid {c : Child α} (h : c.Inv l) (r : Rect) : ∀ x ∈ c.items r, Valid x.1 := by
  induction c generalizing l r with
  | null => exact h.elim
  | data d => exact h.elim
  | node count level rect child ih =>
    obtain ⟨_, _, hbranches⟩ := h
    intro x hx
    obtain ⟨i, _, hxi⟩ := mem_flatMap.1 hx
    have hsome : (child i).some = true := by
      cases hc : child i with
      | null => rw [hc] at hxi; exact (nomatch hxi)
      | data d => rfl
      | node => rfl
    obtain ⟨_, ⟨d, hd⟩, hv⟩ | ⟨k, _, hk, _⟩ := hbranches i hsome
    · rw [hd] at hxi
      rw [mem_singleton.1 hxi]
      exact hv
    · exact ih i hk (rect i) x hxi

theorem Branch.Inv.valid (h : b.Inv l) : ∀ x ∈ b.items, Valid x.1 := by
  obtain ⟨_, ⟨d, hd⟩, hv⟩ | ⟨k, _, hk, _⟩ := h
  · intro x hx
    rw [Branch.items, hd] at hx
    rw [mem_singleton.1 hx]
    exact hv
  · exact hk.valid b.rect

theorem Branch.Inv.meet (h : b.Inv l) : Meet b.rect (rects b.items) := by
  obtain ⟨_, ⟨d, hd⟩, _⟩ | ⟨k, _, _, hm⟩ := h
  · have hset : rects b.items = {b.rect} := by
      rw [Branch.items, hd]
      ext s
      simp [rects, Child.items, eq_comm]
    rw [hset]
    exact .singleton b.rect
  · exact hm

theorem Branch.Inv.items_ne_nil (h : b.Inv l) : b.items ≠ [] := by
  obtain ⟨s, x, hx, _⟩ := h.meet.nonempty
  exact ne_nil_of_mem hx

/-- The cover of a node has the least values of the rectangles below it. -/
theorem Node.Inv.cover (h : n.Inv l) (hne : n.branches ≠ []) :
    Meet (NodeCover n) (rects n.items) := by
  obtain ⟨_, _, hb⟩ := inv_iff.1 h
  have hm := nodeCover_meet (fun b => rects b.items) hne (fun b hbn => (hb b hbn).meet)
    fun b hbn s ⟨x, hx, hxs⟩ => hxs ▸ (hb b hbn).valid x hx
  have hset : {s | ∃ b ∈ n.branches, s ∈ rects b.items} = rects n.items := by
    ext s
    constructor
    · intro ⟨b, hb, x, hx, hxs⟩
      exact ⟨x, mem_flatMap.2 ⟨b, hb, hx⟩, hxs⟩
    · intro ⟨x, hx, hxs⟩
      obtain ⟨b, hb, hxb⟩ := mem_flatMap.1 hx
      exact ⟨b, hb, x, hxb, hxs⟩
  rw [← hset]
  exact hm

/-- A branch for a node below, with the node's cover. -/
theorem Node.Inv.branch (h : n.Inv l) (hne : n.branches ≠ []) :
    Branch.Inv ⟨NodeCover n, n.toChild⟩ (l + 1) := by
  refine Or.inr ⟨l, rfl, h, ?_⟩
  rw [Branch.items, items_toChild]
  exact h.cover hne

/-- A node loaded with branches of its level. -/
theorem Loaded.inv {bs : List (Branch α)} (h : Loaded l bs n) (hbs : ∀ b ∈ bs, b.Inv l) : n.Inv l :=
  inv_iff.2 ⟨h.level, h.count, fun b hb => hbs b (h.perm.mem_iff.1 hb)⟩

theorem Loaded.ne_nil {bs : List (Branch α)} (h : Loaded l bs n) (hbs : bs ≠ []) :
    n.branches ≠ [] := by
  intro hnil
  have hperm := h.perm
  rw [hnil] at hperm
  exact hbs (nil_perm.1 hperm)

/-! ## Insertion -/

/-- What an insertion leaves of a subtree: a node, or two nodes, of its level with the items
`xs`. -/
def Inserted (l : Nat) (xs : List (Rect × α)) (s : Node α × Option (Node α)) : Prop :=
  s.1.Inv l ∧ s.1.branches ≠ [] ∧
    match s.2 with
    | none => s.1.items.Perm xs
    | some m => m.Inv l ∧ m.branches ≠ [] ∧ (s.1.items ++ m.items).Perm xs

/-- Adding a branch of the node's level. -/
theorem addBranch_inserted {P : Rect → Prop} {E : Fault → Prop} (hA : Areas P E)
    (hbuf : ∀ i, P (branchBuf n b i).rect) (hn : n.Inv l) (hb : b.Inv l)
    (hw : n.branches.length = NODECARD → Wasteful (branchBuf n b)) :
    Meets (AddBranch b n) (Inserted l (b.items ++ n.items)) E := by
  obtain ⟨hlevel, hcount, hbranches⟩ := inv_iff.1 hn
  have hall : ∀ c ∈ b :: n.branches, c.Inv l := by
    intro c hc
    cases hc with
    | head => exact hb
    | tail _ hc => exact hbranches c hc
  refine (addBranch_spec hA hbuf hcount hb.some hw).imp fun s hs => ?_
  obtain ⟨m, o⟩ := s
  rw [hlevel] at hs
  cases o with
  | none => exact ⟨hs.inv hall, hs.ne_nil (cons_ne_nil _ _), hs.items⟩
  | some m' =>
    obtain ⟨xs, ys, hx, hy, hxne, hyne, hperm⟩ := hs
    have hmem : ∀ c ∈ xs ++ ys, c.Inv l := fun c hc => hall c (hperm.mem_iff.1 hc)
    refine ⟨hx.inv fun c hc => hmem c (mem_append_left _ hc), hx.ne_nil hxne,
      hy.inv fun c hc => hmem c (mem_append_right _ hc), hy.ne_nil hyne, ?_⟩
    refine (hx.items.append hy.items).trans ?_
    rw [← flatMap_append]
    exact hperm.flatMap_right _

/-- At every full node that the insertion splits, the split finds its seeds. -/
def SplitsWasteful (r : Rect) (data : α) : Child α → Prop
  | .node count level rect child =>
    if level > 0 then
      ∀ i, PickBranch r ⟨count, level, rect, child⟩ = .ok i →
        SplitsWasteful r data (child i) ∧
          ∀ m n2, RTreeInsert2 r data 0 (child i) = .ok (m, some n2) → NODECARD ≤ count →
            Wasteful (branchBuf (⟨count, level, Function.update rect i (NodeCover m),
                Function.update child i m.toChild⟩ : Node α) ⟨NodeCover n2, n2.toChild⟩)
    else NODECARD ≤ count → Wasteful (branchBuf ⟨count, level, rect, child⟩ ⟨r, .data data⟩)
  | _ => True

/-- A branch of a node replaced by another of its level, and the items. -/
theorem setCell_inv (hn : n.Inv l) {i : Fin NODECARD} (hi : (n.child i).some = true)
    (hb : b.Inv l) : (n.setCell i b).Inv l ∧ (n.setCell i b).branches ≠ [] ∧
      ∃ xs, n.items.Perm ((n.cell i).items ++ xs) ∧ (n.setCell i b).items.Perm (b.items ++ xs) := by
  obtain ⟨hlevel, hcount, hbranches⟩ := inv_iff.1 hn
  obtain ⟨A, B, hold, hnew⟩ := branches_setCell n i hb.some
  rw [if_pos hi, singleton_append] at hold
  refine ⟨inv_iff.2 ⟨hlevel, ?_, ?_⟩, ?_, (A ++ B).flatMap Branch.items, ?_, ?_⟩
  · have hlen : n.branches.length = (n.setCell i b).branches.length := by
      rw [hold, hnew, length_append, length_append]
      rfl
    rw [← hlen]
    exact hcount
  · intro c hc
    rw [hnew] at hc
    rw [hold] at hbranches
    obtain hc | hc := mem_append.1 hc
    · exact hbranches c (mem_append_left _ hc)
    · cases hc with
      | head => exact hb
      | tail _ hc => exact hbranches c (mem_append_right _ (mem_cons_of_mem _ hc))
  · rw [hnew]
    exact append_ne_nil_of_right_ne_nil _ (cons_ne_nil _ _)
  · rw [Node.items, hold]
    exact (perm_middle.flatMap_right _).trans (Perm.of_eq (flatMap_cons ..))
  · rw [Node.items, hnew]
    exact (perm_middle.flatMap_right _).trans (Perm.of_eq (flatMap_cons ..))

theorem rects_cons (x : Rect × α) (xs : List (Rect × α)) : rects (x :: xs) = {x.1} ∪ rects xs := by
  ext s
  simp [rects, eq_comm]

/-- A branch's rectangle combined with one that is inserted below it. -/
theorem combine_inv {m : Node α} {data : α} {k : Nat} (hr : Valid r) (hb : b.Inv (k + 1))
    (hm : m.Inv k) (hitems : m.items.Perm ((r, data) :: b.items)) :
    Branch.Inv ⟨CombineRect r b.rect, m.toChild⟩ (k + 1) := by
  refine Or.inr ⟨k, rfl, hm, ?_⟩
  rw [Branch.items, items_toChild, rects_perm hitems, rects_cons]
  refine (Meet.singleton r).combine hb.meet ?_ fun s ⟨x, hx, hxs⟩ => hxs ▸ hb.valid x hx
  intro s hs
  rw [Set.mem_singleton_iff.1 hs]
  exact hr

/-- The items after a branch has taken in a new one. -/
theorem perm_insert {x : Rect × α} {old new xs all all' : List (Rect × α)}
    (hall : all.Perm (old ++ xs)) (hall' : all'.Perm (new ++ xs)) (hnew : new.Perm (x :: old)) :
    all'.Perm (x :: all) :=
  hall'.trans ((hnew.append_right xs).trans (hall.symm.cons x))

/-- `RTreeInsert2` inserts the datum below the node, and keeps the invariant. -/
theorem insert2_spec (hr : Valid r) {data : α} {c : Child α} (h : c.Inv l)
    (hne : 0 < l → c.items InitRect ≠ []) (hw : SplitsWasteful r data c) :
    Meets (RTreeInsert2 r data 0 c) (Inserted l ((r, data) :: c.items InitRect))
      (· = .exitFailure) := by
  induction c generalizing l with
  | null => exact h.elim
  | data d => exact h.elim
  | node count level rect child ih =>
    let n : Node α := ⟨count, level, rect, child⟩
    have hn : n.Inv l := h
    have hitems : (Child.node count level rect child).items InitRect = n.items :=
      items_toChild n InitRect
    obtain ⟨hlevel, hcount, hbranches⟩ := inv_iff.1 hn
    have hlevel : level = l := hlevel
    rw [hitems] at hne ⊢
    rw [RTreeInsert2]
    refine Meets.assert ⟨Int.le_refl 0, by omega⟩ ?_
    dsimp only
    rw [SplitsWasteful] at hw
    split
    next hpos =>
      rw [if_pos hpos] at hw
      have hbne : n.branches ≠ [] := by
        intro hnil
        refine hne (by omega) ?_
        rw [Node.items, hnil]
        rfl
      refine (pickBranch_spec r hbne).self.bind fun i ⟨hi, hpick⟩ => ?_
      obtain ⟨hwi, hw2⟩ := hw i hpick
      have hcell : (n.cell i).Inv l := hbranches _ (mem_branches.2 ⟨i, hi, rfl⟩)
      obtain ⟨hl0, _⟩ | ⟨k, rfl, hk, hmeet⟩ := hcell
      · omega
      have hchild : (n.cell i).items = (child i).items InitRect := hk.items_eq _ _
      have hsub := ih i hk (fun _ => hchild ▸ Branch.Inv.items_ne_nil (Or.inr ⟨k, rfl, hk, hmeet⟩))
        hwi
      refine hsub.self.bind fun s ⟨⟨hm, hmne, hs⟩, hrun⟩ => ?_
      rw [← hchild] at hs
      obtain ⟨m, o⟩ := s
      have hcell : (n.cell i).Inv (k + 1) := Or.inr ⟨k, rfl, hk, hmeet⟩
      cases o with
      | none =>
        obtain ⟨hinv, hne', xs, hold, hnew⟩ :=
          setCell_inv hn hi (combine_inv hr hcell hm hs)
        rw [Branch.items, items_toChild] at hnew
        exact ⟨hinv, hne', perm_insert hold hnew hs⟩
      | some n2 =>
        obtain ⟨hn2, hn2ne, hs⟩ := hs
        obtain ⟨hinv, hne', xs, hold, hnew⟩ := setCell_inv hn hi (hm.branch hmne)
        have hfull : (n.setCell i ⟨NodeCover m, m.toChild⟩).branches.length = NODECARD →
            Wasteful (branchBuf (n.setCell i ⟨NodeCover m, m.toChild⟩)
              ⟨NodeCover n2, n2.toChild⟩) := by
          intro hlen
          have hc : count = (n.setCell i ⟨NodeCover m, m.toChild⟩).branches.length :=
            (inv_iff.1 hinv).2.1
          exact hw2 m n2 hrun (by rw [hc, hlen])
        refine (addBranch_inserted .all (fun _ => trivial) hinv (hn2.branch hn2ne) hfull).imp
          fun s hs' => ?_
        obtain ⟨hs1, hs2, hs3⟩ := hs'
        rw [Branch.items, items_toChild] at hnew hs3
        have hall : (n2.items ++ (n.setCell i ⟨NodeCover m, m.toChild⟩).items).Perm
            ((r, data) :: n.items) := by
          refine (hnew.append_left n2.items).trans ?_
          rw [← append_assoc]
          exact perm_insert hold (List.Perm.refl _) (perm_append_comm.trans hs)
        refine ⟨hs1, hs2, ?_⟩
        cases ho : s.2 with
        | none => rw [ho] at hs3; exact hs3.trans hall
        | some m' => rw [ho] at hs3; exact ⟨hs3.1, hs3.2.1, hs3.2.2.trans hall⟩
    next hpos =>
      rw [if_neg hpos] at hw
      have hl0 : l = 0 := by omega
      subst hl0
      have hb : Branch.Inv (⟨r, .data data⟩ : Branch α) 0 := Or.inl ⟨rfl, ⟨data, rfl⟩, hr⟩
      refine addBranch_inserted .all (fun _ => trivial) hn hb fun hlen => hw ?_
      have hc : count = n.branches.length := hcount
      rw [hc, hlen]

end Graphviz.Label
