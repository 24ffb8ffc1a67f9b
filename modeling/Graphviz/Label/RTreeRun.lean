import Graphviz.Label.IndexInv

/-!
# Searching an R-tree

What `RTreeSearch` returns for an index built by any sequence of insertions. A branch's rectangle
has the least high sides of the rectangles below it, where the greatest would be needed, so the
search is exact for every query precisely when all rectangles below each branch have the same high
sides.
-/

namespace Graphviz.Label

open List Outcome

variable {α : Type}

/-! ## What a search should see -/

/-- The rectangle `r` contains `s`. -/
def Contains (r s : Rect) : Prop :=
  r.b0 ≤ s.b0 ∧ r.b1 ≤ s.b1 ∧ s.b2 ≤ r.b2 ∧ s.b3 ≤ r.b3

/-- The data whose rectangles overlap the query. -/
def found (q : Rect) (xs : List (Rect × α)) : List (Rect × α) :=
  xs.filter fun x => Overlap q x.1

/-- Leaves are at level 0, levels drop by one at each step, and counters count the branches. -/
def Child.Shape : Child α → Nat → Prop
  | .node count level _ child, l =>
    level = l ∧ count = ((List.finRange NODECARD).filter fun i => (child i).some).length ∧
      ∀ i, (child i).some = true →
        (l = 0 ∧ ∃ d, child i = .data d) ∨ ∃ k, l = k + 1 ∧ (child i).Shape k
  | _, _ => False

/-- The rectangle in every branch of an internal node contains the rectangles below it. -/
def Child.Covers : Child α → Prop
  | .node _ level rect child => 0 < level → ∀ i, (child i).some = true →
      (∀ x ∈ (child i).items (rect i), Contains (rect i) x.1) ∧ (child i).Covers
  | _ => True

/-- The data below each branch of an internal node have rectangles with the same high sides. -/
def Child.SameHighs : Child α → Prop
  | .node _ level rect child => 0 < level → ∀ i, (child i).some = true →
      (∀ x ∈ (child i).items (rect i), ∀ y ∈ (child i).items (rect i),
        x.1.b2 = y.1.b2 ∧ x.1.b3 = y.1.b3) ∧ (child i).SameHighs
  | _ => True

variable {l : Nat} {c : Child α} {q r s : Rect} {xs ys : List (Rect × α)}

theorem Child.Inv.shape (h : c.Inv l) : c.Shape l := by
  induction c generalizing l with
  | null => exact h.elim
  | data d => exact h.elim
  | node count level rect child ih =>
    obtain ⟨hlevel, hcount, hbranches⟩ := h
    refine ⟨hlevel, hcount, fun i hi => ?_⟩
    obtain ⟨hl, hd, _⟩ | ⟨k, hl, hk, _⟩ := hbranches i hi
    · exact Or.inl ⟨hl, hd⟩
    · exact Or.inr ⟨k, hl, ih i hk⟩

/-- The least values contain every rectangle when the high sides are the same. -/
theorem Meet.contains_iff {S : Set Rect} (h : Meet r S) :
    (∀ s ∈ S, Contains r s) ↔ ∀ s ∈ S, ∀ t ∈ S, s.b2 = t.b2 ∧ s.b3 = t.b3 := by
  have hlow : ∀ s ∈ S, r.b0 ≤ s.b0 ∧ r.b1 ≤ s.b1 ∧ r.b2 ≤ s.b2 ∧ r.b3 ≤ s.b3 := fun s hs =>
    ⟨h.b0.2 ⟨s, hs, rfl⟩, h.b1.2 ⟨s, hs, rfl⟩, h.b2.2 ⟨s, hs, rfl⟩, h.b3.2 ⟨s, hs, rfl⟩⟩
  constructor
  · intro hc s hs t ht
    obtain ⟨_, _, h1, h1'⟩ := hc s hs
    obtain ⟨_, _, h2, h2'⟩ := hc t ht
    have h3 := hlow s hs
    have h4 := hlow t ht
    exact ⟨by omega, by omega⟩
  · intro heq s hs
    obtain ⟨u, hu, hu2⟩ := h.b2.1
    obtain ⟨v, hv, hv3⟩ := h.b3.1
    have h1 := hlow s hs
    have h2 := (heq s hs u hu).1
    have h3 := (heq s hs v hv).2
    exact ⟨h1.1, h1.2.1, by omega, by omega⟩

theorem Child.Inv.covers_iff (h : c.Inv l) : c.Covers ↔ c.SameHighs := by
  induction c generalizing l with
  | null => exact h.elim
  | data d => exact h.elim
  | node count level rect child ih =>
    obtain ⟨hlevel, _, hbranches⟩ := h
    rw [Child.Covers, Child.SameHighs]
    refine forall_congr' fun hpos => forall_congr' fun i => forall_congr' fun hi => ?_
    obtain ⟨hl, _⟩ | ⟨k, _, hk, hmeet⟩ := hbranches i hi
    · omega
    · refine and_congr ?_ (ih i hk)
      have hset : ∀ p : Rect → Prop, (∀ s ∈ rects ((child i).items (rect i)), p s) ↔
          ∀ x ∈ (child i).items (rect i), p x.1 := fun p =>
        ⟨fun h x hx => h x.1 ⟨x, hx, rfl⟩, fun h s ⟨x, hx, hxs⟩ => hxs ▸ h x hx⟩
      rw [← hset, hmeet.contains_iff, hset]
      exact forall_congr' fun x => forall_congr' fun _ => hset _

/-! ## The search -/

theorem overlap_iff :
    Overlap r s = true ↔ (r.b0 ≤ s.b2 ∧ s.b0 ≤ r.b2) ∧ r.b1 ≤ s.b3 ∧ s.b1 ≤ r.b3 := by
  simp [Overlap]

theorem overlap_of_contains (h : Contains r s) (hq : Overlap q s = true) : Overlap q r = true := by
  rw [overlap_iff] at hq ⊢
  obtain ⟨h0, h1, h2, h3⟩ := h
  omega

/-- A leaf node returns the data of its branches that overlap the query. -/
theorem search_leaf {rect : Fin NODECARD → Rect} {child : Fin NODECARD → Child α}
    (hdata : ∀ i, (child i).some = true → ∃ d, child i = .data d) (L : List (Fin NODECARD))
    (acc : List (Rect × α)) :
    (L.foldl (fun llp i =>
      match child i with
      | .data d => if Overlap q (rect i) then (rect i, d) :: llp else llp
      | _ => llp) acc).Perm (found q (L.flatMap fun i => (child i).items (rect i)) ++ acc) := by
  induction L generalizing acc with
  | nil => exact List.Perm.refl _
  | cons i L ih =>
    rw [foldl_cons, flatMap_cons, found, filter_append, append_assoc]
    cases hc : child i with
    | null => exact ih acc
    | data d =>
      simp only [Child.items, filter_cons, filter_nil]
      split
      next => exact (ih _).trans perm_middle
      next => exact ih acc
    | node count level rect' child' =>
      obtain ⟨d, hd⟩ := hdata i (by rw [hc]; rfl)
      rw [hc] at hd
      cases hd

/-- What the search returns below one branch is at most what it should find there. -/
theorem search_length_le (h : c.Inv l) :
    (searchChild q c).length ≤ (found q (c.items InitRect)).length := by
  induction c generalizing l with
  | null => exact h.elim
  | data d => exact h.elim
  | node count level rect child ih =>
    obtain ⟨hlevel, _, hbranches⟩ := h
    rw [searchChild, Child.items]
    split
    next hpos =>
      rw [found, filter_flatMap, length_flatMap, length_flatMap]
      refine sum_le_sum fun i _ => ?_
      split
      next hi =>
        rw [Bool.and_eq_true] at hi
        obtain ⟨hl, _⟩ | ⟨k, _, hk, _⟩ := hbranches i hi.1
        · omega
        · rw [hk.items_eq (rect i) InitRect]
          exact ih i hk
      next => exact Nat.zero_le _
    next hpos =>
      have hdata : ∀ i, (child i).some = true → ∃ d, child i = .data d := fun i hi => by
        obtain ⟨_, hd, _⟩ | ⟨k, hl, _⟩ := hbranches i hi
        · exact hd
        · omega
      exact ((search_leaf hdata _ []).length_eq.trans (by rw [append_nil])).le

/-- With rectangles that contain what is below them, nothing is missed. -/
theorem search_perm (h : c.Inv l) (hcov : c.Covers) :
    (searchChild q c).Perm (found q (c.items InitRect)) := by
  induction c generalizing l with
  | null => exact h.elim
  | data d => exact h.elim
  | node count level rect child ih =>
    obtain ⟨hlevel, _, hbranches⟩ := h
    rw [searchChild, Child.items]
    split
    next hpos =>
      rw [found, filter_flatMap]
      refine List.Perm.flatMap_left _ fun i _ => ?_
      split
      next hi =>
        rw [Bool.and_eq_true] at hi
        obtain ⟨hl, _⟩ | ⟨k, _, hk, _⟩ := hbranches i hi.1
        · omega
        · rw [hk.items_eq (rect i) InitRect]
          exact ih i hk (hcov hpos i hi.1).2
      next hi =>
        refine List.Perm.of_eq (filter_eq_nil_iff.2 fun x hx hq => hi ?_).symm
        have hsome : (child i).some = true := by
          cases hc : child i with
          | null => rw [hc] at hx; cases hx
          | data d => rfl
          | node => rfl
        rw [hsome, Bool.true_and]
        exact overlap_of_contains ((hcov hpos i hsome).1 x hx) hq
    next hpos =>
      have hdata : ∀ i, (child i).some = true → ∃ d, child i = .data d := fun i hi => by
        obtain ⟨_, hd, _⟩ | ⟨k, hl, _⟩ := hbranches i hi
        · exact hd
        · omega
      exact (search_leaf hdata _ []).trans (List.Perm.of_eq (append_nil _))

/-- The upper corner of a rectangle, as a query. -/
def corner (r : Rect) : Rect :=
  ⟨r.b2, r.b3, r.b2, r.b3⟩

theorem overlap_corner_self (h : Valid r) : Overlap (corner r) r = true :=
  overlap_iff.2 ⟨⟨Int.le_refl _, h.1⟩, Int.le_refl _, h.2⟩

theorem le_of_overlap_corner (h : Overlap (corner s) r = true) : s.b2 ≤ r.b2 ∧ s.b3 ≤ r.b3 :=
  ⟨(overlap_iff.1 h).1.1, (overlap_iff.1 h).2.1⟩

/-- A search that misses nothing, whatever the query, has rectangles that contain what is below
them: the upper corner of a rectangle that sticks out would be missed. -/
theorem covers_of_search (h : c.Inv l)
    (hall : ∀ q, (searchChild q c).length = (found q (c.items InitRect)).length) : c.Covers := by
  induction c generalizing l with
  | null => trivial
  | data d => trivial
  | node count level rect child ih =>
    have hle := fun q => search_length_le (q := q) h
    obtain ⟨hlevel, _, hbranches⟩ := h
    intro hpos i hi
    obtain ⟨hl, _⟩ | ⟨k, _, hk, hmeet⟩ := hbranches i hi
    · omega
    have hitems : (child i).items (rect i) = (child i).items InitRect := hk.items_eq _ _
    -- what the search finds below this branch is all there is
    have hbranch : ∀ q, (if (child i).some && Overlap q (rect i) then searchChild q (child i)
        else []).length = (found q ((child i).items (rect i))).length := by
      intro q
      have hq := hall q
      rw [searchChild, if_pos hpos, Child.items, found, filter_flatMap, length_flatMap,
        length_flatMap] at hq
      refine le_antisymm ?_ (not_lt.1 fun hlt => ?_)
      · split
        · rw [hitems]; exact search_length_le hk
        · exact Nat.zero_le _
      · refine absurd hq (sum_lt_sum _ _ (fun j _ => ?_) ⟨i, mem_finRange i, hlt⟩).ne
        split
        next hj =>
          rw [Bool.and_eq_true] at hj
          obtain ⟨hl, _⟩ | ⟨k', _, hk', _⟩ := hbranches j hj.1
          · omega
          · rw [hk'.items_eq (rect j) InitRect]
            exact search_length_le hk'
        next => exact Nat.zero_le _
    simp only [hi, Bool.true_and] at hbranch
    refine ⟨fun x hx => ?_, ih i hk fun q => ?_⟩
    · have hmem : x ∈ found (corner x.1) ((child i).items (rect i)) :=
        mem_filter.2 ⟨hx, overlap_corner_self (hk.valid _ x hx)⟩
      have hov : Overlap (corner x.1) (rect i) = true := by
        by_contra hno
        have hq := hbranch (corner x.1)
        rw [if_neg hno] at hq
        rw [length_eq_zero_iff.1 hq.symm] at hmem
        cases hmem
      obtain ⟨h2, h3⟩ := le_of_overlap_corner hov
      have hx1 : x.1 ∈ rects ((child i).items (rect i)) := ⟨x, hx, rfl⟩
      exact ⟨hmeet.b0.2 ⟨_, hx1, rfl⟩, hmeet.b1.2 ⟨_, hx1, rfl⟩, h2, h3⟩
    · have hq := hbranch q
      rw [hitems] at hq
      split at hq
      next => exact hq
      next =>
        have hle := search_length_le (q := q) hk
        rw [← hq] at hle ⊢
        exact Nat.le_zero.1 hle

/-! ## Sequences of insertions -/

/-- Calls of `RTreeInsert` on an index, one after another. -/
def insertAll (n : Node α) (xs : List (Rect × α)) : Except Fault (Node α) :=
  xs.foldlM (fun n x => RTreeInsert x.1 x.2 n) n

/-- Every split of the insertions finds its seeds. -/
def SeedsFound : Node α → List (Rect × α) → Prop
  | _, [] => True
  | n, x :: xs => SplitsWasteful x.1 x.2 n.toChild ∧
      ∀ n', RTreeInsert x.1 x.2 n = .ok n' → SeedsFound n' xs

/-- An index between insertions: the invariant, and a root that is not empty above level 0. -/
def Good (n : Node α) : Prop :=
  ∃ l, n.Inv l ∧ (0 < l → n.branches ≠ [])

theorem good_open : Good (RTreeOpen : Node α) :=
  ⟨0, (Loaded.new 0).inv nofun, nofun⟩

/-- A node with room takes a branch without a split. -/
theorem addBranch_room {n : Node α} {b : Branch α} {bs : List (Branch α)} {l : Int}
    (h : Loaded l bs n) (hb : b.child.some = true) (hlt : bs.length < NODECARD) {E : Fault → Prop} :
    Meets (AddBranch b n) (fun s => Loaded l (b :: bs) s.1 ∧ s.2 = none) E := by
  rw [AddBranch, h.count, h.perm.length_eq, if_pos (by omega)]
  exact (h.fill hb hlt).bind fun n' hn' => ⟨hn', rfl⟩

/-- `RTreeInsert` keeps the index good and adds the datum. -/
theorem insert_spec {n : Node α} {x : Rect × α} (hn : Good n) (hx : Valid x.1)
    (hw : SplitsWasteful x.1 x.2 n.toChild) :
    Meets (RTreeInsert x.1 x.2 n) (fun n' => Good n' ∧ n'.items.Perm (x :: n.items))
      (· = .exitFailure) := by
  obtain ⟨l, hinv, hne⟩ := hn
  have hne' : 0 < l → n.toChild.items InitRect ≠ [] := by
    intro hl hnil
    rw [items_toChild] at hnil
    obtain ⟨b, hb⟩ := exists_mem_of_ne_nil _ (hne hl)
    have hbi := (inv_iff.1 hinv).2.2 b hb
    exact hbi.items_ne_nil (flatMap_eq_nil_iff.1 hnil b hb)
  rw [RTreeInsert]
  refine Meets.assert hx ?_
  refine (insert2_spec hx hinv hne' hw).bind fun s ⟨hs, hsne, hsplit⟩ => ?_
  rw [items_toChild] at hsplit
  split
  next hnone =>
    rw [hnone] at hsplit
    exact ⟨⟨l, hs, fun _ => hsne⟩, hsplit⟩
  next m hsome =>
    rw [hsome] at hsplit
    obtain ⟨hm, hmne, hperm⟩ := hsplit
    have hcard : 2 < NODECARD := by rw [nodecard_eq]; decide
    have hlevel : s.1.level + 1 = ((l + 1 : Nat) : Int) := by
      rw [(inv_iff.1 hs).1]
      rfl
    have hb1 := hs.branch hsne
    have hb2 := hm.branch hmne
    rw [hlevel]
    refine (addBranch_room (Loaded.new _) hb1.some (by simp only [length_nil]; omega)).bind
      fun s1 ⟨h1, _⟩ => ?_
    refine (addBranch_room h1 hb2.some (by simp only [length_cons, length_nil]; omega)).bind
      fun s2 ⟨h2, _⟩ => ?_
    have hall : ∀ b ∈ [(⟨NodeCover m, m.toChild⟩ : Branch α), ⟨NodeCover s.1, s.1.toChild⟩],
        b.Inv (l + 1) := by
      intro b hb
      cases hb with
      | head => exact hb2
      | tail _ hb => rw [mem_singleton.1 hb]; exact hb1
    refine ⟨⟨l + 1, h2.inv hall, fun _ => h2.ne_nil (cons_ne_nil _ _)⟩, ?_⟩
    refine h2.items.trans ?_
    rw [flatMap_cons, flatMap_cons, flatMap_nil, append_nil, Branch.items,
      Branch.items, items_toChild, items_toChild]
    exact perm_append_comm.trans hperm

/-- A sequence of insertions keeps the index good and adds its data. -/
theorem insertAll_spec {n : Node α} (hn : Good n) (hvalid : ∀ x ∈ xs, Valid x.1)
    (hseeds : SeedsFound n xs) :
    Meets (insertAll n xs) (fun n' => Good n' ∧ n'.items.Perm (xs ++ n.items))
      (· = .exitFailure) := by
  induction xs generalizing n with
  | nil => exact ⟨hn, List.Perm.refl _⟩
  | cons x xs ih =>
    obtain ⟨hw, hrest⟩ := hseeds
    rw [insertAll, foldlM_cons]
    refine (insert_spec hn (hvalid x mem_cons_self) hw).self.bind fun m ⟨⟨hm, hperm⟩, hrun⟩ => ?_
    refine (ih hm (fun y hy => hvalid y (mem_cons_of_mem _ hy)) (hrest m hrun)).imp
      fun n' ⟨hn', hperm'⟩ => ⟨hn', hperm'.trans ?_⟩
    exact (hperm.append_left xs).trans perm_middle

/-- A sequence of insertions into an empty index. -/
theorem insertOpen_spec (hvalid : ∀ x ∈ xs, Valid x.1) (hseeds : SeedsFound RTreeOpen xs) :
    Meets (insertAll RTreeOpen xs) (fun n => Good n ∧ n.items.Perm xs) (· = .exitFailure) := by
  have hitems : (RTreeOpen : Node α).items = [] := by
    rw [Node.items, RTreeOpen, branches_new]
    rfl
  have hrun := insertAll_spec good_open hvalid hseeds
  rw [hitems, append_nil] at hrun
  exact hrun

/-- The search of an index is exact for every query, and every branch's rectangle contains the
rectangles below it. -/
def Exact (n : Node α) (xs : List (Rect × α)) : Prop :=
  n.toChild.Covers ∧ ∀ q, (RTreeSearch n q).Perm (found q xs)

theorem exact_iff {n : Node α} (hn : Good n) (hperm : n.items.Perm xs) :
    Exact n xs ↔ n.toChild.SameHighs := by
  obtain ⟨l, hinv, _⟩ := hn
  have hinv : n.toChild.Inv l := hinv
  have hfound : ∀ q, (found q (n.toChild.items InitRect)).Perm (found q xs) := fun q => by
    rw [items_toChild]
    exact hperm.filter _
  constructor
  · exact fun h => hinv.covers_iff.1 h.1
  · intro h
    have hcov := hinv.covers_iff.2 h
    exact ⟨hcov, fun q => (search_perm hinv hcov).trans (hfound q)⟩

end Graphviz.Label
