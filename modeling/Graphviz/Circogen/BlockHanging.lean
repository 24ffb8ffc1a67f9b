import Graphviz.Circogen.BlockSearch

/-!
# Every node is filed in one block

A block of the graph leads to at most one block of the list: of the nodes of the block that are in
none yet. The cut node goes to the first one that has two nodes with it. The root is never at the
far end of an edge that is popped, so its block is the one that is inserted at the front.
-/

namespace Graphviz.Circogen

open Function List Nat Outcome

variable {n : ℕ} {root u v : Fin n} {o : blocks_t n} {S : Finset (Fin n)} {nps : List (Fin n)}
  {P : Fin n → Option (Fin n)}

/-- The block has the node. -/
def blocks_t.Has (o : blocks_t n) (i : ℕ) (v : Fin n) : Prop :=
  ∃ b, o.made[i]? = some b ∧ v ∈ b.sub_graph

/-! ## A block with the nodes that are new -/

/-- A block with the nodes is made. -/
def file (o : blocks_t n) (S : Finset (Fin n)) : blocks_t n :=
  { o with
    made := o.made ++ [⟨S, [], none⟩]
    BLOCK := fun v => if v ∈ S then some o.made.length else o.BLOCK v }

/-- The nodes that are in no block yet. -/
def newNodes (o : blocks_t n) (nps : List (Fin n)) : Finset (Fin n) :=
  (nps.filter (o.BLOCK · = none)).toFinset

theorem mem_newNodes : v ∈ newNodes o nps ↔ v ∈ nps ∧ o.BLOCK v = none := by
  rw [newNodes, mem_toFinset, mem_filter, decide_eq_true_iff]

theorem addNode_file : addNode (file o S) o.made.length v = file o (insert v S) := by
  have hmade : (file o S).made.modify o.made.length
      (fun b => { b with sub_graph := insert v b.sub_graph }) = (file o (insert v S)).made :=
    modifyTailIdx_add _ 0 o.made _
  have hBLOCK : update (file o S).BLOCK v (some o.made.length) = (file o (insert v S)).BLOCK := by
    funext w
    change _ = if w ∈ insert v S then _ else _
    obtain rfl | hne := eq_or_ne w v
    · rw [update_self, if_pos (Finset.mem_insert_self w S)]
    · rw [update_of_ne hne]
      exact if_congr ⟨Finset.mem_insert_of_mem, fun h => (Finset.mem_insert.1 h).resolve_left hne⟩
        rfl rfl
  rw [addNode, hmade, hBLOCK]
  rfl

theorem addNode_makeBlock : addNode (makeBlock o).2 (makeBlock o).1 v = file o {v} := by
  have hempty : (makeBlock o).2 = file o ∅ := by
    rw [makeBlock, file]
    simp only [Finset.notMem_empty, if_false]
  rw [hempty]
  exact addNode_file

theorem blockSize_file : blockSize (file o S) o.made.length = S.card := by
  rw [blockSize, file, getElem?_concat_length]
  rfl

theorem file_BLOCK_eq_none : (file o S).BLOCK v = none ↔ v ∉ S ∧ o.BLOCK v = none := by
  change (if v ∈ S then _ else _) = none ↔ _
  split
  next hv => exact ⟨nofun, fun h => absurd hv h.1⟩
  next hv => exact (and_iff_right hv).symm

theorem newNodes_cons (np : Fin n) : newNodes o (np :: nps) =
    if o.BLOCK np = none then insert np (newNodes o nps) else newNodes o nps := by
  rw [newNodes, filter_cons]
  split
  next hnone => rw [if_pos (of_decide_eq_true hnone), toFinset_cons, newNodes]
  next hsome => rw [if_neg fun hnone => hsome (decide_eq_true hnone), newNodes]

theorem takeNodes_file :
    nps.foldl takeNode (some o.made.length, file o S) =
      (some o.made.length, file o (S ∪ newNodes o nps)) := by
  induction nps generalizing S with
  | nil => exact congrArg (fun T => (_, file o T)) (Finset.union_empty S).symm
  | cons np nps ih =>
    rw [foldl_cons, takeNode, newNodes_cons]
    split
    next hnone =>
      change nps.foldl takeNode (some o.made.length, addNode (file o S) o.made.length np) = _
      rw [addNode_file, ih, if_pos (file_BLOCK_eq_none.1 hnone).2, Finset.insert_union,
        Finset.union_insert]
    next hsome =>
      rw [ih]
      split
      next hnone =>
        have hmem : np ∈ S := by_contra fun hnp => hsome (file_BLOCK_eq_none.2 ⟨hnp, hnone⟩)
        rw [Finset.union_insert, Finset.insert_eq_of_mem (Finset.mem_union_left _ hmem)]
      next => rfl

theorem takeNodes_eq : nps.foldl takeNode (none, o) =
    if newNodes o nps = ∅ then (none, o) else (some o.made.length, file o (newNodes o nps)) := by
  induction nps with
  | nil => rfl
  | cons np nps ih =>
    rw [foldl_cons, takeNode, newNodes_cons]
    split
    next hnone =>
      change nps.foldl takeNode (some o.made.length, addNode (makeBlock o).2 (makeBlock o).1 np) = _
      rw [addNode_makeBlock, takeNodes_file, if_neg (Finset.insert_nonempty ..).ne_empty,
        Finset.insert_eq]
    next hsome => exact ih

/-! ## What the blocks and the list have in common -/

/-- The invariant: a node has the block that has the node, the blocks are in the list, that of the
root at the front, and the nodes of each are in one of the sets. -/
structure Filed (root : Fin n) (Xs : List (Set (Fin n))) (o : blocks_t n) : Prop where
  block_iff : ∀ v i, o.BLOCK v = some i ↔ o.Has i v
  nonempty : ∀ b ∈ o.made, b.sub_graph.Nonempty
  childless : ∀ b ∈ o.made, b.children = []
  inside : ∀ b ∈ o.made, ∃ X ∈ Xs, ∀ v ∈ b.sub_graph, v ∈ X
  listed : o.bl.Perm (List.range o.made.length)
  front : ∀ i, o.BLOCK root = some i → o.bl.head? = some i

variable {Xs : List (Set (Fin n))} {X : Set (Fin n)} {bl : List ℕ}

theorem Filed.lt_length (h : Filed root Xs o) {i : ℕ} (hv : o.BLOCK v = some i) :
    i < o.made.length := by
  obtain ⟨b, hb, -⟩ := (h.block_iff v i).1 hv
  exact (List.getElem?_eq_some_iff.1 hb).1

theorem Filed.start : Filed root [] (⟨[], fun _ => none, []⟩ : blocks_t n) :=
  ⟨fun _ _ => ⟨nofun, fun ⟨_, hb, _⟩ => nomatch hb⟩, nofun, nofun, nofun, .nil, nofun⟩

theorem has_file {i : ℕ} : (Circogen.file o S).Has i v ↔ o.Has i v ∨ i = o.made.length ∧ v ∈ S := by
  constructor
  · rintro ⟨b, hb, hv⟩
    obtain hlt | hge := lt_or_ge i o.made.length
    · exact .inl ⟨b, (getElem?_append_left hlt).symm.trans hb, hv⟩
    · change (o.made ++ [_])[i]? = _ at hb
      rw [getElem?_append_right hge, getElem?_singleton] at hb
      split at hb
      next hi =>
        obtain rfl := Option.some.inj hb
        exact .inr ⟨by omega, hv⟩
      next => exact nomatch hb
  · rintro (⟨b, hb, hv⟩ | ⟨rfl, hv⟩)
    · have hlt := (List.getElem?_eq_some_iff.1 hb).1
      exact ⟨b, (getElem?_append_left hlt).trans hb, hv⟩
    · exact ⟨_, getElem?_concat_length, hv⟩

/-- A block is made, and put at the front when it is that of the root. -/
theorem Filed.file (h : Filed root Xs o) (hS : S.Nonempty) (hnew : ∀ v ∈ S, o.BLOCK v = none)
    (hX : ∀ v ∈ S, v ∈ X)
    (hbl : root ∈ S ∧ bl = o.made.length :: o.bl ∨ root ∉ S ∧ bl = o.bl ++ [o.made.length]) :
    Filed root (Xs ++ [X]) { Circogen.file o S with bl } := by
  have hall : ∀ {p : block_t n → Prop}, (∀ b ∈ o.made, p b) → p ⟨S, [], none⟩ →
      ∀ b ∈ (Circogen.file o S).made, p b := by
    intro p hp hS b hb
    obtain hb | hb := mem_append.1 hb
    · exact hp b hb
    · exact mem_singleton.1 hb ▸ hS
  constructor
  case block_iff =>
    intro v i
    refine Iff.trans ?_ has_file.symm
    change (if v ∈ S then _ else _) = _ ↔ _
    rw [← h.block_iff]
    split
    next hv =>
      rw [hnew v hv, Option.some.injEq]
      exact ⟨fun heq => .inr ⟨heq.symm, hv⟩, fun hor => (hor.resolve_left nofun).1.symm⟩
    next hv => exact ⟨.inl, fun hor => hor.resolve_right fun hi => hv hi.2⟩
  case nonempty => exact hall h.nonempty hS
  case childless => exact hall h.childless rfl
  case inside =>
    refine hall (fun b hb => ?_) ⟨X, mem_append_right _ mem_cons_self, hX⟩
    obtain ⟨Y, hY, hbY⟩ := h.inside b hb
    exact ⟨Y, mem_append_left _ hY, hbY⟩
  case listed =>
    change bl.Perm (List.range (o.made ++ [_]).length)
    rw [length_append, length_singleton, range_succ]
    obtain ⟨-, rfl⟩ | ⟨-, rfl⟩ := hbl
    · exact (h.listed.cons _).trans (perm_append_singleton _ _).symm
    · exact h.listed.append_right _
  case front =>
    intro i hi
    change (if root ∈ S then _ else _) = _ at hi
    change bl.head? = _
    obtain ⟨hroot, rfl⟩ | ⟨hroot, rfl⟩ := hbl
    · rwa [if_pos hroot] at hi
    · rw [if_neg hroot] at hi
      rw [head?_append, h.front i hi]
      rfl

theorem Filed.mono (h : Filed root Xs o) (X : Set (Fin n)) : Filed root (Xs ++ [X]) o := by
  refine { h with inside := fun b hb => ?_ }
  obtain ⟨Y, hY, hbY⟩ := h.inside b hb
  exact ⟨Y, mem_append_left _ hY, hbY⟩

/-- The nodes that a block gets, with the cut node. -/
def withCut (o : blocks_t n) (N : Finset (Fin n)) (u : Fin n) : Finset (Fin n) :=
  if (file o N).BLOCK u = none ∧ 1 < N.card then insert u N else N

theorem closeBlock_file (isRoot : Bool) (N : Finset (Fin n)) :
    closeBlock isRoot u (some o.made.length, file o N) = { file o (withCut o N u) with
      bl := if isRoot ∧ (file o (withCut o N u)).BLOCK u = some o.made.length
        then o.made.length :: o.bl else o.bl ++ [o.made.length] } := by
  have hcut : (if (file o N).BLOCK u = none ∧ 1 < blockSize (file o N) o.made.length then
      addNode (file o N) o.made.length u else file o N) = file o (withCut o N u) := by
    rw [blockSize_file, addNode_file, withCut]
    split <;> rfl
  rw [closeBlock]
  dsimp only
  rw [hcut]
  split
  next => rfl
  next => rfl

theorem mem_withCut {N : Finset (Fin n)} (hv : v ∈ withCut o N u) :
    v ∈ N ∨ v = u ∧ o.BLOCK u = none := by
  rw [withCut] at hv
  split at hv
  next hu =>
    exact (Finset.mem_insert.1 hv).symm.imp id fun heq => ⟨heq, (file_BLOCK_eq_none.1 hu.1).2⟩
  next => exact .inl hv

theorem subset_withCut {N : Finset (Fin n)} (hv : v ∈ N) : v ∈ withCut o N u := by
  rw [withCut]
  split
  next => exact Finset.mem_insert_of_mem hv
  next => exact hv

/-- What is made of a block of the graph. -/
theorem Filed.report (h : Filed root Xs o) {b : List (half_t n) × Fin n}
    (hX : ∀ e ∈ treeEdges P b.1, e.dst ∈ X) (hu : b.2 ∈ X) (hroot : P root = none) :
    Filed root (Xs ++ [X]) (report root P o b) ∧
      (∀ v, o.BLOCK v ≠ none → (Circogen.report root P o b).BLOCK v ≠ none) ∧
      ∀ e ∈ treeEdges P b.1, (Circogen.report root P o b).BLOCK e.dst ≠ none := by
  obtain ⟨es, u⟩ := b
  have hmem : ∀ v, v ∈ newNodes o ((treeEdges P es).map half_t.dst) ↔
      (∃ e ∈ treeEdges P es, e.dst = v) ∧ o.BLOCK v = none := fun v => by
    rw [mem_newNodes, mem_map]
  rw [Circogen.report]
  dsimp only
  rw [takeNodes_eq]
  generalize newNodes o ((treeEdges P es).map half_t.dst) = N at hmem
  split
  next hempty =>
    refine ⟨h.mono X, fun v hv => hv, fun e he hnone => ?_⟩
    exact Finset.notMem_empty _ (hempty ▸ (hmem e.dst).2 ⟨⟨e, he, rfl⟩, hnone⟩)
  next hne =>
    obtain ⟨w, hw⟩ := Finset.nonempty_iff_ne_empty.2 hne
    have hrootN : root ∉ N := fun hmemN => by
      obtain ⟨⟨e, he, rfl⟩, -⟩ := (hmem root).1 hmemN
      have htree := of_decide_eq_true (mem_filter.1 he).2
      cases hroot.symm.trans htree
    rw [closeBlock_file]
    refine ⟨h.file ⟨w, subset_withCut hw⟩ (fun v hv => ?_) (fun v hv => ?_) ?_, fun v hv => ?_,
      fun e he => ?_⟩
    · obtain hv | ⟨rfl, hv⟩ := mem_withCut hv
      · exact ((hmem v).1 hv).2
      · exact hv
    · obtain hv | ⟨rfl, -⟩ := mem_withCut hv
      · obtain ⟨⟨e, he, rfl⟩, -⟩ := (hmem v).1 hv
        exact hX e he
      · exact hu
    · split
      next hc =>
        obtain rfl : u = root := of_decide_eq_true hc.1
        refine .inl ⟨by_contra fun hu => ?_, rfl⟩
        have hBLOCK : o.BLOCK u = some o.made.length := (if_neg hu).symm.trans hc.2
        exact lt_irrefl _ (h.lt_length hBLOCK)
      next hc =>
        refine .inr ⟨fun hmem => hc ?_, rfl⟩
        obtain ⟨rfl, -⟩ := (mem_withCut hmem).resolve_left hrootN
        exact ⟨decide_eq_true rfl, if_pos hmem⟩
    · change (Circogen.file o _).BLOCK v ≠ none
      exact fun hnone => hv (file_BLOCK_eq_none.1 hnone).2
    · change (Circogen.file o _).BLOCK e.dst ≠ none
      intro hnone
      obtain ⟨hnot, hnone⟩ := file_BLOCK_eq_none.1 hnone
      exact hnot (subset_withCut ((hmem e.dst).2 ⟨⟨e, he, rfl⟩, hnone⟩))

/-- What is made of the blocks of the graph. -/
theorem filed_reports (hroot : P root = none) (span : List (half_t n) → Set (Fin n))
    (bs : List (List (half_t n) × Fin n)) (hdst : ∀ b ∈ bs, ∀ e ∈ b.1, e.dst ∈ span b.1)
    (hcut : ∀ b ∈ bs, b.2 ∈ span b.1) :
    Filed root (bs.map fun b => span b.1) (reports root P bs) ∧
      ∀ b ∈ bs, ∀ e ∈ treeEdges P b.1, (reports root P bs).BLOCK e.dst ≠ none := by
  induction bs using List.reverseRecOn with
  | nil => exact ⟨.start, nofun⟩
  | append_singleton bs b ih =>
    obtain ⟨hfiled, hall⟩ := ih (fun b hb => hdst b (mem_append_left _ hb))
      fun b hb => hcut b (mem_append_left _ hb)
    have hmem : b ∈ bs ++ [b] := mem_append_right _ mem_cons_self
    obtain ⟨hfiled', hkept, hnew⟩ := hfiled.report (X := span b.1)
      (fun e he => hdst b hmem e (mem_filter.1 he).1) (hcut b hmem) hroot
    rw [reports_concat, map_append]
    refine ⟨hfiled', fun b' hb' e he => ?_⟩
    obtain hb' | hb' := mem_append.1 hb'
    · exact hkept _ (hall b' hb' e he)
    · exact hnew e (mem_singleton.1 hb' ▸ he)

/-- The root that is in no block gets one. -/
theorem Filed.rootBlock (h : Filed root Xs o) (hX : root ∈ X) :
    Filed root (Xs ++ [X]) (rootBlock true root o) ∧
      (∀ v, o.BLOCK v ≠ none → (Circogen.rootBlock true root o).BLOCK v ≠ none) ∧
      (Circogen.rootBlock true root o).BLOCK root ≠ none := by
  rw [Circogen.rootBlock]
  split
  next hnone =>
    rw [addNode_makeBlock]
    have hself : root ∈ ({root} : Finset (Fin n)) := Finset.mem_singleton_self root
    refine ⟨h.file ⟨root, hself⟩ (fun v hv => ?_) (fun v hv => ?_) (.inl ⟨hself, rfl⟩),
      fun v hv => ?_, ?_⟩
    · exact Finset.mem_singleton.1 hv ▸ hnone.2
    · exact Finset.mem_singleton.1 hv ▸ hX
    · exact fun hnone => hv (file_BLOCK_eq_none.1 hnone).2
    · exact fun hnone => (file_BLOCK_eq_none.1 hnone).1 hself
  next hsome => exact ⟨h.mono X, fun v hv => hv, fun hnone => hsome ⟨rfl, hnone⟩⟩

end Graphviz.Circogen

/-!
## The blocks hang in one tree

A block hangs under that of the parent of its first node. The parent was met before the node, so
it is not in the block, and the way up from any block leads to that of the root.
-/

namespace Graphviz.Circogen

open Function List Option Outcome Relation

variable {n : ℕ} {root v w : Fin n} {o : blocks_t n} {s : circ_state n} {bps : List ℕ} {i j : ℕ}
  {Xs : List (Set (Fin n))}

/-- A block is in the list of children of another one. -/
def blocks_t.IsChild (o : blocks_t n) (i j : ℕ) : Prop :=
  ∃ b, o.made[i]? = some b ∧ j ∈ b.children

/-- The lists of children link the blocks in a tree: with the root, each block occurs once. -/
structure blocks_t.IsTree (o : blocks_t n) (r : ℕ) : Prop where
  once : (r :: o.made.flatMap block_t.children).Perm (List.range o.made.length)
  reach : ∀ j < o.made.length, ReflTransGen o.IsChild r j

/-- A block hangs from its first node, under the block of the parent of the node. -/
def circ_state.Hangs (s : circ_state n) (j : ℕ) : Prop :=
  ∃ v p i, s.blocks.Has j v ∧ (∀ w, s.blocks.Has j w → w ≠ v → s.VAL v < s.VAL w) ∧
    s.PARENT v = some p ∧ s.blocks.Has i p ∧ s.blocks.IsChild i j ∧ i ≠ j

/-! ## The loop of `createBlocktree` -/

theorem firstNode_spec {VAL : Fin n → ℕ} {l : List (Fin n)} (hl : l ≠ []) :
    ∃ v ∈ l, firstNode VAL l = some v ∧ ∀ w ∈ l, VAL v ≤ VAL w := by
  have hloop : ∀ (l : List (Fin n)) (child : Fin n), ∃ v ∈ child :: l,
      l.foldl (fun child v => if VAL v < VAL child then v else child) child = v ∧
        ∀ w ∈ child :: l, VAL v ≤ VAL w := by
    intro l
    induction l with
    | nil =>
      refine fun child => ⟨child, mem_cons_self, rfl, fun w hw => ?_⟩
      exact (congrArg VAL (mem_singleton.1 hw)).ge
    | cons u l ih =>
      intro child
      obtain ⟨v, hv, hrun, hmin⟩ := ih (if VAL u < VAL child then u else child)
      have hle := hmin _ mem_cons_self
      refine ⟨v, ?_, hrun, fun w hw => ?_⟩
      · obtain rfl | hv := mem_cons.1 hv
        · split
          next => exact mem_cons_of_mem _ mem_cons_self
          next => exact mem_cons_self
        · exact mem_cons_of_mem _ (mem_cons_of_mem _ hv)
      · obtain rfl | hw := mem_cons.1 hw
        · split at hle <;> omega
        · obtain rfl | hw := mem_cons.1 hw
          · split at hle <;> omega
          · exact hmin w (mem_cons_of_mem _ hw)
  cases l with
  | nil => exact absurd rfl hl
  | cons child l =>
    obtain ⟨v, hv, hrun, hmin⟩ := hloop l child
    exact ⟨v, hv, congrArg some hrun, hmin⟩

/-- The first node of a block. -/
def circ_state.first (s : circ_state n) (bp : ℕ) : Option (Fin n) :=
  s.blocks.made[bp]?.bind fun b => firstNode s.VAL b.nodes

/-- The block of the parent of the first node. -/
def circ_state.above (s : circ_state n) (bp : ℕ) : Option ℕ :=
  ((s.first bp).bind s.PARENT).bind s.blocks.BLOCK

/-- A block after the loop over the blocks of a list. -/
def circ_state.hung (s : circ_state n) (bps : List ℕ) (i : ℕ) (b : block_t n) : block_t n :=
  { b with
    children := b.children ++ bps.filter (s.above · = some i)
    CHILD := if i ∈ bps then s.first i else b.CHILD }

/-- The loop has hung the blocks of a list, and changed nothing else. -/
structure Hung (s : circ_state n) (bps : List ℕ) (s' : circ_state n) : Prop where
  VAL : s'.VAL = s.VAL
  PARENT : s'.PARENT = s.PARENT
  BLOCK : s'.blocks.BLOCK = s.blocks.BLOCK
  made : ∀ j, s'.blocks.made[j]? = s.blocks.made[j]?.map (s.hung bps j)

theorem Hung.first {s' : circ_state n} (h : Hung s bps s') (j : ℕ) : s'.first j = s.first j := by
  rw [circ_state.first, circ_state.first, h.made, h.VAL, bind_map]
  rfl

theorem Hung.above {s' : circ_state n} (h : Hung s bps s') (j : ℕ) : s'.above j = s.above j := by
  rw [circ_state.above, circ_state.above, h.first, h.PARENT, h.BLOCK]

theorem hangBlock_eq {child p : Fin n} {bp : ℕ} (hfirst : s.first bp = some child)
    (hp : s.PARENT child = some p) (hi : s.blocks.BLOCK p = some i) :
    ∃ s', hangBlock s bp = .ok s' ∧ Hung s [bp] s' := by
  refine ⟨{ s with
    ISPARENT := update s.ISPARENT p true
    blocks := s.blocks.hang bp child i }, ?_, rfl, rfl, rfl, fun j => ?_⟩
  · rw [hangBlock]
    rw [circ_state.first] at hfirst
    simp only [hfirst, hp, hi]
  · have habove : s.above bp = some i := by
      rw [circ_state.above, hfirst, bind_some, hp, bind_some, hi]
    change ((s.blocks.made.modify bp _).modify i _)[j]? = _
    rw [getElem?_modify, getElem?_modify, Option.map_eq_map, Option.map_eq_map,
      Option.map_map]
    refine congrArg (Option.map · _) (funext fun b => ?_)
    rw [circ_state.hung, filter_singleton, habove]
    rcases eq_or_ne bp j with hbp | hbp <;> rcases eq_or_ne i j with hij | hij
    · simp [← hbp, hij.trans hbp.symm, hfirst]
    · have hne : i ≠ bp := fun heq => hij (heq.trans hbp)
      simp [← hbp, hne, hfirst]
    · simp [hbp, Ne.symm hbp, hij]
    · simp [hbp, Ne.symm hbp, hij]

theorem Hung.trans {s' s'' : circ_state n} {bp : ℕ} (h : Hung s [bp] s') (h' : Hung s' bps s'') :
    Hung s (bp :: bps) s'' := by
  refine ⟨h'.VAL.trans h.VAL, h'.PARENT.trans h.PARENT, h'.BLOCK.trans h.BLOCK, fun j => ?_⟩
  rw [h'.made, h.made, Option.map_map]
  refine congrArg (Option.map · _) (funext fun b => ?_)
  have hfilter : bps.filter (s'.above · = some j) = bps.filter (s.above · = some j) :=
    filter_congr fun k _ => by rw [h.above]
  change circ_state.hung s' bps j (circ_state.hung s [bp] j b) = _
  rw [circ_state.hung, circ_state.hung, circ_state.hung, hfilter, h.first]
  have hlist : b.children ++ [bp].filter (s.above · = some j) ++ bps.filter (s.above · = some j) =
      b.children ++ (bp :: bps).filter (s.above · = some j) := by
    rw [append_assoc, ← filter_append]
    rfl
  have hchild : (if j ∈ bps then s.first j else if j ∈ [bp] then s.first j else b.CHILD) =
      if j ∈ bp :: bps then s.first j else b.CHILD := by
    obtain hj | hj := Decidable.em (j ∈ bps)
    · rw [if_pos hj, if_pos (mem_cons_of_mem bp hj)]
    · rw [if_neg hj]
      exact if_congr ⟨fun h => mem_cons.2 (.inl (mem_singleton.1 h)),
        fun h => mem_singleton.2 ((mem_cons.1 h).resolve_right hj)⟩ rfl rfl
  dsimp only
  rw [hlist, hchild]

/-- The loop hangs the blocks. -/
theorem hangBlocks_eq (h : ∀ bp ∈ bps, ∃ child p i, s.first bp = some child ∧
    s.PARENT child = some p ∧ s.blocks.BLOCK p = some i) :
    ∃ s', bps.foldlM hangBlock s = .ok s' ∧ Hung s bps s' := by
  induction bps generalizing s with
  | nil =>
    refine ⟨s, rfl, rfl, rfl, rfl, fun j => ?_⟩
    have hid : s.hung [] j = id := funext fun b => by simp [circ_state.hung]
    rw [hid, Option.map_id_fun, id]
  | cons bp bps ih =>
    obtain ⟨child, p, i, hfirst, hp, hi⟩ := h bp mem_cons_self
    obtain ⟨s1, hrun, hs1⟩ := hangBlock_eq hfirst hp hi
    obtain ⟨s', hrest, hs'⟩ : ∃ s', bps.foldlM hangBlock s1 = .ok s' ∧ Hung s1 bps s' := ih (by
      intro bp' hbp'
      obtain ⟨child, p, i, hfirst, hp, hi⟩ := h bp' (mem_cons_of_mem bp hbp')
      exact ⟨child, p, i, (hs1.first bp').trans hfirst, hs1.PARENT.symm ▸ hp, hs1.BLOCK.symm ▸ hi⟩)
    rw [foldlM_cons, hrun, ok_bind]
    exact ⟨s', hrest, hs1.trans hs'⟩

section hung

variable {s' : circ_state n}

theorem Hung.made_eq (h : Hung s bps s') : s'.blocks.made = s.blocks.made.mapIdx (s.hung bps) :=
  ext_getElem? fun j => by rw [h.made, getElem?_mapIdx]

theorem Hung.length (h : Hung s bps s') : s'.blocks.made.length = s.blocks.made.length := by
  rw [h.made_eq, length_mapIdx]

theorem Hung.has_iff (h : Hung s bps s') : s'.blocks.Has i v ↔ s.blocks.Has i v := by
  constructor
  · rintro ⟨b, hb, hv⟩
    obtain ⟨b, hb', rfl⟩ := map_eq_some_iff.1 ((h.made i).symm.trans hb)
    exact ⟨b, hb', hv⟩
  · rintro ⟨b, hb, hv⟩
    exact ⟨_, (h.made i).trans (congrArg (Option.map _) hb), hv⟩

theorem Hung.children (h : Hung s bps s') (hnil : ∀ b ∈ s.blocks.made, b.children = []) :
    s'.blocks.made.map block_t.children =
      (List.range s.blocks.made.length).map fun i => bps.filter (s.above · = some i) := by
  refine ext_getElem? fun i => ?_
  rw [getElem?_map, getElem?_map, h.made, Option.map_map]
  obtain hlt | hge := lt_or_ge i s.blocks.made.length
  · rw [getElem?_range hlt, getElem?_eq_getElem hlt]
    refine congrArg some ?_
    change (s.blocks.made[i]).children ++ _ = _
    rw [hnil _ (getElem_mem hlt), nil_append]
  · rw [getElem?_eq_none hge, getElem?_eq_none (by rwa [length_range])]
    rfl

theorem Hung.isChild (h : Hung s bps s') (hi : i < s.blocks.made.length) (hj : j ∈ bps)
    (habove : s.above j = some i) : s'.blocks.IsChild i j := by
  refine ⟨_, (h.made i).trans (congrArg (Option.map _) (getElem?_eq_getElem hi)), ?_⟩
  exact mem_append_right _ (mem_filter.2 ⟨hj, decide_eq_true habove⟩)

end hung

/-! ## The tree -/

/-- What the search leaves: each node is in a block, and all but the root have a parent that was met
before. -/
structure Searched (root : Fin n) (Xs : List (Set (Fin n))) (s : circ_state n) : Prop where
  filed : Filed root Xs s.blocks
  all : ∀ v, s.blocks.BLOCK v ≠ none
  parent : ∀ v, v ≠ root → ∃ p, s.PARENT v = some p ∧ s.VAL p < s.VAL v
  inj : Injective s.VAL

theorem Searched.has_unique (h : Searched root Xs s) (v : Fin n) : ∃! i, s.blocks.Has i v := by
  obtain ⟨i, hi⟩ := ne_none_iff_exists'.1 (h.all v)
  refine ⟨i, (h.filed.block_iff v i).1 hi, fun j hj => ?_⟩
  exact Option.some.inj (((h.filed.block_iff v j).2 hj).symm.trans hi)

/-- A block has a first node. -/
theorem Searched.first (h : Searched root Xs s) (hj : j < s.blocks.made.length) :
    ∃ v, s.first j = some v ∧ s.blocks.Has j v ∧
      ∀ w, s.blocks.Has j w → w ≠ v → s.VAL v < s.VAL w := by
  have hb := getElem?_eq_getElem hj
  generalize s.blocks.made[j] = b at hb
  obtain ⟨u, hu⟩ := h.filed.nonempty b (mem_of_getElem? hb)
  have hmem : ∀ w, w ∈ b.nodes ↔ w ∈ b.sub_graph := fun w => by
    rw [block_t.nodes, mem_filter, and_iff_right (mem_finRange w), decide_eq_true_iff]
  obtain ⟨v, hv, hfirst, hmin⟩ :=
    @firstNode_spec _ s.VAL b.nodes (ne_nil_of_mem ((hmem u).2 hu))
  refine ⟨v, ?_, ⟨b, hb, (hmem v).1 hv⟩, ?_⟩
  · rw [circ_state.first, hb, bind_some, hfirst]
  · rintro w ⟨b', hb', hw⟩ hne
    obtain rfl := Option.some.inj (hb.symm.trans hb')
    exact lt_of_le_of_ne (hmin w ((hmem w).2 hw)) fun heq => hne (h.inj heq.symm)

/-- A block without the root is under the one of the parent of its first node. -/
theorem Searched.above (h : Searched root Xs s) (hj : j < s.blocks.made.length)
    (hroot : s.blocks.BLOCK root ≠ some j) :
    ∃ v p i, s.first j = some v ∧ s.PARENT v = some p ∧ s.blocks.BLOCK p = some i ∧
      s.VAL p < s.VAL v ∧ i ≠ j := by
  obtain ⟨v, hfirst, hv, hmin⟩ := h.first hj
  have hne : v ≠ root := fun heq => hroot (heq ▸ (h.filed.block_iff v j).2 hv)
  obtain ⟨p, hp, hlt⟩ := h.parent v hne
  obtain ⟨i, hi⟩ := ne_none_iff_exists'.1 (h.all p)
  refine ⟨v, p, i, hfirst, hp, hi, hlt, fun heq => ?_⟩
  have hpv : p ≠ v := fun heq => hlt.ne (congrArg s.VAL heq)
  exact hlt.not_gt (hmin p ((h.filed.block_iff p j).1 (heq ▸ hi)) hpv)

/-- Lists by a key are together the list. -/
theorem flatMap_filter_perm {l : List ℕ} {m : ℕ} {f : ℕ → Option ℕ} (hl : l.Nodup)
    (hf : ∀ j ∈ l, ∃ i < m, f j = some i) :
    ((List.range m).flatMap fun i => l.filter (f · = some i)).Perm l := by
  have hmem : ∀ i j, j ∈ l.filter (f · = some i) ↔ j ∈ l ∧ f j = some i := fun i j => by
    rw [mem_filter, decide_eq_true_iff]
  refine (perm_ext_iff_of_nodup (nodup_flatMap.2 ⟨fun i _ => hl.filter _, ?_⟩) hl).2
    fun j => ?_
  · refine nodup_range.imp fun {i k} hne j hi hk => hne ?_
    exact Option.some.inj (((hmem i j).1 hi).2.symm.trans ((hmem k j).1 hk).2)
  · rw [mem_flatMap]
    constructor
    · rintro ⟨i, -, hj⟩
      exact ((hmem i j).1 hj).1
    · intro hj
      obtain ⟨i, hi, heq⟩ := hf j hj
      exact ⟨i, mem_range.2 hi, (hmem i j).2 ⟨hj, heq⟩⟩

/-- `createBlocktree` after the search. -/
theorem Searched.tree (h : Searched root Xs s) :
    ∃ r bps s', s.blocks.bl = r :: bps ∧ bps.foldlM hangBlock s = .ok s' ∧
      (∀ i v, s'.blocks.Has i v ↔ s.blocks.Has i v) ∧ s'.blocks.Has r root ∧
      s'.blocks.made.length = s.blocks.made.length ∧ s'.blocks.IsTree r ∧
      ∀ j < s'.blocks.made.length, j ≠ r → s'.Hangs j := by
  obtain ⟨r, hr⟩ := ne_none_iff_exists'.1 (h.all root)
  obtain ⟨bps, hbl⟩ : ∃ bps, s.blocks.bl = r :: bps := by
    have hhead := h.filed.front r hr
    cases hbl : s.blocks.bl with
    | nil => rw [hbl] at hhead; exact nomatch hhead
    | cons a bps =>
      rw [hbl] at hhead
      exact ⟨bps, congrArg (· :: bps) (Option.some.inj hhead)⟩
  have hlisted := h.filed.listed
  rw [hbl] at hlisted
  have hnodup : (r :: bps).Nodup := hlisted.nodup_iff.2 nodup_range
  have hmem : ∀ j, j < s.blocks.made.length ↔ j = r ∨ j ∈ bps := fun j => by
    rw [← mem_range, ← hlisted.mem_iff, mem_cons]
  have hnot : ∀ j ∈ bps, s.blocks.BLOCK root ≠ some j := fun j hj heq =>
    (nodup_cons.1 hnodup).1 (Option.some.inj (hr.symm.trans heq) ▸ hj)
  have habove := fun j hj => h.above ((hmem j).2 (.inr hj)) (hnot j hj)
  obtain ⟨s', hrun, hs'⟩ := hangBlocks_eq fun j hj => by
    obtain ⟨v, p, i, hv, hp, hi, -⟩ := habove j hj
    exact ⟨v, p, i, hv, hp, hi⟩
  have hunder : ∀ j ∈ bps, ∃ v p i, s.first j = some v ∧ s.PARENT v = some p ∧
      s.blocks.BLOCK p = some i ∧ s.VAL p < s.VAL v ∧ i ≠ j ∧ s'.blocks.IsChild i j ∧
      s.above j = some i := fun j hj => by
    obtain ⟨v, p, i, hv, hp, hi, hlt, hne⟩ := habove j hj
    have heq : s.above j = some i := by
      rw [circ_state.above, hv, bind_some, hp, bind_some, hi]
    exact ⟨v, p, i, hv, hp, hi, hlt, hne, hs'.isChild (h.filed.lt_length hi) hj heq, heq⟩
  refine ⟨r, bps, s', hbl, hrun, fun i v => hs'.has_iff, ?_, hs'.length, ⟨?_, ?_⟩,
    fun j hj hne => ?_⟩
  · exact hs'.has_iff.2 ((h.filed.block_iff root r).1 hr)
  · rw [flatMap_def, hs'.children h.filed.childless, ← flatMap_def, hs'.length]
    refine (Perm.cons r (flatMap_filter_perm (nodup_cons.1 hnodup).2 ?_)).trans hlisted
    intro j hj
    obtain ⟨v, p, i, -, -, hi, -, -, -, heq⟩ := hunder j hj
    exact ⟨i, h.filed.lt_length hi, heq⟩
  · rw [hs'.length]
    -- on the way up the first nodes were met earlier and earlier
    have hreach : ∀ k j v, s.first j = some v → s.VAL v < k → j < s.blocks.made.length →
        ReflTransGen s'.blocks.IsChild r j := by
      intro k
      induction k with
      | zero => exact fun j v _ hlt => absurd hlt (Nat.not_lt_zero _)
      | succ k ih =>
        intro j v hv hlt hj
        obtain rfl | hj := (hmem j).1 hj
        · exact .refl
        · obtain ⟨v', p, i, hv', -, hi, hlt', -, hchild, -⟩ := hunder j hj
          obtain rfl := Option.some.inj (hv.symm.trans hv')
          obtain ⟨w, hw, -, hmin⟩ := h.first (h.filed.lt_length hi)
          have hle : s.VAL w ≤ s.VAL p := by
            obtain rfl | hne := eq_or_ne p w
            · exact le_rfl
            · exact (hmin p ((h.filed.block_iff p i).1 hi) hne).le
          exact (ih i w hw (by omega) (h.filed.lt_length hi)).tail hchild
    intro j hj
    obtain ⟨v, hv, -⟩ := h.first hj
    exact hreach _ j v hv (Nat.lt_succ_self _) hj
  · rw [hs'.length] at hj
    obtain ⟨v, p, i, hv, hp, hi, -, hne', hchild, -⟩ := hunder j (((hmem j).1 hj).resolve_left hne)
    obtain ⟨v', hv', hhas, hmin⟩ := h.first hj
    obtain rfl := Option.some.inj (hv.symm.trans hv')
    refine ⟨v, p, i, hs'.has_iff.2 hhas, fun w hw hwv => ?_, ?_, ?_, hchild, hne'⟩
    · rw [hs'.VAL]
      exact hmin w (hs'.has_iff.1 hw) hwv
    · rw [hs'.PARENT, hp]
    · exact hs'.has_iff.2 ((h.filed.block_iff p i).1 hi)

/-! ## The graph -/

variable {edges : List (edge_t n)} {G : graph_t n}

theorem adj_incidence {x y : Fin n} : (incidence edges).Adj x y ↔ x ≠ y ∧ Adj edges x y := by
  refine and_congr_right fun hne => ⟨?_, ?_⟩
  · rintro ⟨⟨e, isOut⟩, he, rfl⟩
    obtain ⟨hmem, ⟨rfl, rfl⟩ | ⟨rfl, rfl, -⟩⟩ := mem_halvesOf.1 he
    · exact ⟨e, hmem, .inl ⟨rfl, rfl⟩⟩
    · exact ⟨e, hmem, .inr ⟨rfl, rfl⟩⟩
  · rintro ⟨e, hmem, ⟨rfl, rfl⟩ | ⟨rfl, rfl⟩⟩
    · exact ⟨⟨e, true⟩, mem_halvesOf.2 ⟨hmem, .inl ⟨rfl, rfl⟩⟩, rfl⟩
    · exact ⟨⟨e, false⟩, mem_halvesOf.2 ⟨hmem, .inr ⟨rfl, rfl, hne.symm⟩⟩, rfl⟩

theorem Connected.reach (h : Connected edges) (x y : Fin n) : (incidence edges).Reach x y := by
  induction h x y with
  | rel x y hxy =>
    obtain rfl | hne := eq_or_ne x y
    · exact .refl
    · exact .single (adj_incidence.2 ⟨hne, hxy⟩)
  | refl x => exact .refl
  | symm x y _ ih =>
    have hsymm : Std.Symm (incidence edges).Adj := ⟨(incidence edges).adj_symm⟩
    exact ReflTransGen.stdSymm.symm _ _ ih
  | trans x y z _ _ ih ih' => exact ih.trans ih'

/-- The root is in a biconnected component. -/
theorem exists_component {parts : List (Set (Fin n) × Fin n)}
    (h : Blocks.Decomposition (incidence edges).Adj parts) (hconn : Connected edges)
    (root : Fin n) : ∃ X, Blocks.IsComponent (incidence edges).Adj X ∧ root ∈ X := by
  obtain ⟨y, hy⟩ | hall := Classical.em (∃ y, y ≠ root)
  · obtain heq | ⟨z, hz, -⟩ := (hconn.reach root y).cases_head
    · exact absurd heq.symm hy
    · obtain ⟨b, hb, hroot, -⟩ := h.covered root z hz hz.1
      exact ⟨b.1, (h.isBlock_iff.2 ⟨b, hb, rfl⟩).isComponent, hroot⟩
  · refine ⟨{root}, Blocks.isComponent_singleton fun y => ?_, Set.mem_singleton root⟩
    exact by_contra fun hne => hall ⟨y, hne⟩

/-- What `find_blocks` leaves of a connected graph. -/
theorem find_blocks_spec (hconn : Connected G.edges) (root : Fin n) :
    ∃ s Xs, find_blocks G root = .ok s ∧ Searched root Xs s ∧
      ∀ X ∈ Xs, Blocks.IsComponent (Adj G.edges) X := by
  have hcard : Fintype.card (Fin n) < n + 1 := (Fintype.card_fin n).trans_lt (Nat.lt_succ_self n)
  obtain ⟨c, hrun, hfound, hmet⟩ := LowPoint.dfs_found hcard (hconn.reach root)
  obtain ⟨s, hs, hsim⟩ := find_blocks_eq hrun
  obtain ⟨X, hX, hroot⟩ := exists_component hfound.decomposition hconn root
  obtain ⟨hfiled, hdst⟩ := filed_reports hsim.root_none (incidence G.edges).span c.blocks
    (fun b _ e he => ⟨e, he, .inr rfl⟩)
    fun b hb => hfound.decomposition.mem _ (mem_map.2 ⟨b, hb, rfl⟩)
  rw [← hsim.blocks] at hfiled hdst
  obtain ⟨hfiled, hkept, hown⟩ := hfiled.rootBlock hroot
  refine ⟨_, _, hs, ⟨hfiled, fun v => ?_, fun v hv => ?_, fun v w hvw => ?_⟩, fun Y hY => ?_⟩
  · obtain rfl | hv := eq_or_ne v root
    · exact hown
    · obtain ⟨e, rfl, hp, he⟩ := hsim.entered v (hmet v) hv
      obtain ⟨b, hb, heb⟩ := he.resolve_left (hfound.stack ▸ not_mem_nil)
      exact hkept _ (hdst b hb e (mem_filter.2 ⟨heb, decide_eq_true hp⟩))
  · obtain ⟨e, rfl, hp, -⟩ := hsim.entered v (hmet v) hv
    refine ⟨e.src, hp, ?_⟩
    change s.VAL _ < s.VAL _
    rw [hsim.VAL]
    exact (hsim.PARENT _ _ hp).2
  · change s.VAL v = s.VAL w at hvw
    rw [hsim.VAL] at hvw
    exact hsim.inj v w (hmet v) hvw
  · have hcomp : Blocks.IsComponent (incidence G.edges).Adj Y := by
      obtain hY | hY := mem_append.1 hY
      · obtain ⟨b, hb, rfl⟩ := mem_map.1 hY
        exact (hfound.decomposition.isBlock_iff.2 ⟨_, mem_map.2 ⟨b, hb, rfl⟩, rfl⟩).isComponent
      · exact mem_singleton.1 hY ▸ hX
    exact hcomp.congr fun a b hne => adj_incidence.trans (and_iff_right hne)

/-- `createBlocktree` puts every node of a connected graph in one block, and hangs the blocks, of
which each is in a biconnected component, in one tree under the block of the root: each other block
under that of the parent of its first node. -/
theorem createBlocktree_spec (G : graph_t n) (root : Fin n) (hconn : Connected G.edges) :
    ∃ r s, createBlocktree G root = .ok (r, s) ∧
      (∀ v, ∃! i, s.blocks.Has i v) ∧ s.blocks.Has r root ∧ s.blocks.IsTree r ∧
      (∀ j < s.blocks.made.length, j ≠ r → s.Hangs j) ∧
      ∀ i < s.blocks.made.length, ∃ X, Blocks.IsComponent (Adj G.edges) X ∧
        ∀ v, s.blocks.Has i v → v ∈ X := by
  obtain ⟨s, Xs, hs, hsearched, hcomp⟩ := find_blocks_spec hconn root
  obtain ⟨r, bps, s', hbl, hrun, hhas, hroot, hlen, htree, hangs⟩ := hsearched.tree
  refine ⟨r, { s' with blocks := { s'.blocks with bl := [] } }, ?_, fun v => ?_, hroot,
    ⟨htree.once, htree.reach⟩, hangs, fun i hi => ?_⟩
  · rw [createBlocktree, hs, ok_bind]
    simp only [hbl]
    rw [hrun, ok_bind]
  · obtain ⟨i, hi, huniq⟩ := hsearched.has_unique v
    exact ⟨i, (hhas i v).2 hi, fun j hj => huniq j ((hhas j v).1 hj)⟩
  · have hmem := getElem_mem (hlen ▸ hi : i < s.blocks.made.length)
    obtain ⟨X, hX, hsub⟩ := hsearched.filed.inside _ hmem
    refine ⟨X, hcomp X hX, fun v hv => ?_⟩
    obtain ⟨b, hb, hv⟩ := (hhas i v).1 hv
    obtain ⟨hlt, rfl⟩ := List.getElem?_eq_some_iff.1 hb
    exact hsub v hv

attribute [local instance] Instances.neZero_four

/-- A triangle and a node at one of its corners. -/
def kite : graph_t 4 := ⟨[⟨0, 1, 1⟩, ⟨1, 2, 2⟩, ⟨0, 2, 3⟩, ⟨2, 3, 4⟩]⟩

theorem createBlocktree_kite :
    ∃ r s, createBlocktree kite 3 = .ok (r, s) ∧
      (∀ v, ∃! i, s.blocks.Has i v) ∧ s.blocks.Has r 3 ∧ s.blocks.IsTree r ∧
      (∀ j < s.blocks.made.length, j ≠ r → s.Hangs j) ∧
      ∀ i < s.blocks.made.length, ∃ X, Blocks.IsComponent (Adj kite.edges) X ∧
        ∀ v, s.blocks.Has i v → v ∈ X := by
  refine createBlocktree_spec kite 3 fun u v => ?_
  have hhub : ∀ v : Fin 4, EqvGen (Adj kite.edges) 2 v := fun v => by
    have hadj : ∀ v : Fin 4, v = 2 ∨ Adj kite.edges 2 v := by decide
    obtain rfl | h := hadj v
    · exact .refl _
    · exact .rel _ _ h
  exact (hhub u).symm.trans _ _ _ (hhub v)

end Graphviz.Circogen
