import Graphviz.Library.FreshNames
import Graphviz.Tools.Bcomps
import Graphviz.Util.NumeralRead

/-!
# What `bcomps` makes of the blocks

The flags of the nodes are set for those that separate a block. The names of the blocks are
different from each other; when none of them is in the graph before, each block gets a new subgraph
with the ends of its edges.
-/

namespace Graphviz.Bcomps

open Function List Nat Outcome

variable {n : ℕ} {G : graph_t n} {o : Out n} {v : Fin n} {k : ℕ}
  {es : List (half_t n)} {b : List (half_t n) × Fin n} {bs : List (List (half_t n) × Fin n)}

theorem blockName_injective (gname : CStr) : Injective (blockName gname) := by
  intro i j h
  have hdec : decimal i = decimal j := by
    rw [blockName, blockName] at h
    split at h <;> exact append_cancel_left h
  rw [← (decimal_spec i).2.2, hdec, (decimal_spec j).2.2]

/-- The name of the block with the index. -/
def nameOf (G : graph_t n) (k : ℕ) : CStr :=
  blockName G.name (k + 1)

theorem nameOf_injective (G : graph_t n) : Injective (nameOf G) :=
  fun _ _ h => Nat.succ.inj (blockName_injective G.name h)

/-! ## The ends of edges -/

/-- The ends of an edge become nodes. -/
def subg_t.putEnds (sg : subg_t n) (ep : half_t n) : subg_t n :=
  (sg.agsubnode ep.edge.aghead).agsubnode ep.edge.agtail

theorem mem_agsubnode (sg : subg_t n) (u : Fin n) :
    v ∈ (sg.agsubnode u).nodes ↔ v ∈ sg.nodes ∨ v = u := by
  rw [subg_t.agsubnode]
  split
  next h => exact (or_iff_left_of_imp fun heq => heq ▸ h).symm
  next => exact mem_append.trans (or_congr_right mem_singleton)

theorem agsubnode_name (sg : subg_t n) (u : Fin n) : (sg.agsubnode u).name = sg.name := by
  rw [subg_t.agsubnode]
  split <;> rfl

theorem putEnds_foldl_name (es : List (half_t n)) (sg : subg_t n) :
    (es.foldl subg_t.putEnds sg).name = sg.name := by
  induction es generalizing sg with
  | nil => rfl
  | cons e es ih => rw [foldl_cons, ih, subg_t.putEnds, agsubnode_name, agsubnode_name]

theorem mem_putEnds_foldl (es : List (half_t n)) (sg : subg_t n) :
    v ∈ (es.foldl subg_t.putEnds sg).nodes ↔ v ∈ sg.nodes ∨ v ∈ G.incidence.span es := by
  induction es generalizing sg with
  | nil => exact (or_iff_left fun ⟨_, he, _⟩ => not_mem_nil he).symm
  | cons e es ih =>
    have hspan : v ∈ G.incidence.span (e :: es) ↔
        (v = e.edge.aghead ∨ v = e.edge.agtail) ∨ v ∈ G.incidence.span es := by
      constructor
      · rintro ⟨e', he', hv⟩
        obtain rfl | he' := mem_cons.1 he'
        · refine .inl ?_
          change e'.src = v ∨ e'.dst = v at hv
          rw [half_t.src, half_t.dst] at hv
          split at hv
          · exact hv.symm.imp Eq.symm Eq.symm
          · exact hv.imp Eq.symm Eq.symm
        · exact .inr ⟨e', he', hv⟩
      · rintro (hv | ⟨e', he', hv⟩)
        · refine ⟨e, mem_cons_self, ?_⟩
          change e.src = v ∨ e.dst = v
          rw [half_t.src, half_t.dst]
          split
          · exact hv.symm.imp Eq.symm Eq.symm
          · exact hv.imp Eq.symm Eq.symm
        · exact ⟨e', mem_cons_of_mem e he', hv⟩
    rw [foldl_cons, ih, subg_t.putEnds, mem_agsubnode, mem_agsubnode, hspan]
    tauto

theorem putEdges_eq (sg : ℕ) (es : List (half_t n)) (o : Out n) :
    es.foldl (putEdge sg) o =
      { o with subgs := o.subgs.modify sg fun g => es.foldl subg_t.putEnds g } := by
  induction es generalizing o with
  | nil => exact congrArg (Out.mk _ _ _) (modify_id sg o.subgs).symm
  | cons e es ih =>
    rw [foldl_cons, ih, putEdge]
    exact congrArg (Out.mk _ _ _) (modify_modify_eq _ _ _ _)

/-! ## Flags and names -/

/-- The names of the subgraphs. -/
def namesOf (subgs : List (subg_t n)) : List CStr :=
  subgs.map (·.name)

theorem namesOf_modify {f : subg_t n → subg_t n} (hf : ∀ sg, (f sg).name = sg.name)
    (subgs : List (subg_t n)) (g : ℕ) : namesOf (subgs.modify g f) = namesOf subgs := by
  induction subgs generalizing g with
  | nil => rw [modify_nil]
  | cons sg subgs ih =>
    cases g with
    | zero => exact congrArg (· :: namesOf subgs) (hf sg)
    | succ g => exact congrArg (sg.name :: ·) (ih g)

/-- A subgraph is found by its name, or made. -/
theorem agsubg_eq (o : Out n) (name : CStr) :
    ∃ i subgs, agsubg o name = (i, { o with subgs }) ∧
      namesOf subgs = (if name ∈ namesOf o.subgs then namesOf o.subgs
        else namesOf o.subgs ++ [name]) := by
  rw [agsubg]
  split
  next i hi =>
    refine ⟨i, o.subgs, rfl, (if_pos ?_).symm⟩
    obtain ⟨hlt, hname, -⟩ := findIdx?_eq_some_iff_getElem.1 hi
    exact mem_map.2 ⟨_, getElem_mem hlt, of_decide_eq_true hname⟩
  next hi =>
    refine ⟨_, _, rfl, ?_⟩
    rw [if_neg, namesOf, map_append]
    · rfl
    · intro hmem
      obtain ⟨sg, hsg, hname⟩ := mem_map.1 hmem
      exact absurd (decide_eq_true hname) (by simpa using findIdx?_eq_none_iff.1 hi sg hsg)

theorem mkBlock_eq {o o' : Out n} {i : ℕ}
    (h : agsubg { o with nComp := o.nComp + 1 } (nameOf G o.nComp) = (i, o')) :
    mkBlock G o = (i, { o' with blks := i :: o'.blks }) := by
  have hmk : mkBlock G o = (fun p : ℕ × Out n => (p.1, { p.2 with blks := p.1 :: p.2.blks }))
      (agsubg { o with nComp := o.nComp + 1 } (nameOf G o.nComp)) := rfl
  rw [hmk, h]

/-- What a block does, apart from the nodes of its subgraph. -/
theorem report_fields (G : graph_t n) (o : Out n) (b : List (half_t n) × Fin n) :
    (report G o b).isCut = update o.isCut b.2 true ∧ (report G o b).nComp = o.nComp + 1 ∧
      namesOf (report G o b).subgs = FreshNames.add (nameOf G) (namesOf o.subgs) o.nComp := by
  obtain ⟨i, subgs, heq, hnames⟩ := agsubg_eq
    { o with isCut := update o.isCut b.2 true, nComp := o.nComp + 1 } (nameOf G o.nComp)
  have hmk : mkBlock G { o with isCut := update o.isCut b.2 true } =
      (i, ⟨update o.isCut b.2 true, o.nComp + 1, i :: o.blks, subgs⟩) :=
    mkBlock_eq (o := { o with isCut := update o.isCut b.2 true }) heq
  rw [report, hmk]
  change (b.1.foldl (putEdge i) _).isCut = _ ∧ (b.1.foldl (putEdge i) _).nComp = _ ∧
    namesOf (b.1.foldl (putEdge i) _).subgs = _
  rw [putEdges_eq]
  refine ⟨rfl, rfl, (namesOf_modify (putEnds_foldl_name b.1) _ _).trans (hnames.trans ?_)⟩
  rw [FreshNames.add]
  congr

/-- The flags are those of the nodes that separate blocks. -/
theorem reports_isCut (G : graph_t n) (bs : List (List (half_t n) × Fin n)) :
    (reports G bs).isCut v = true ↔ ∃ b ∈ bs, b.2 = v := by
  induction bs using List.reverseRecOn with
  | nil => exact iff_of_false Bool.false_ne_true fun ⟨_, hb, _⟩ => not_mem_nil hb
  | append_singleton bs b ih =>
    rw [reports_concat, (report_fields G _ b).1, update_apply]
    split
    next heq =>
      exact iff_of_true rfl ⟨b, mem_append_right _ mem_cons_self, heq.symm⟩
    next hne =>
      rw [ih]
      constructor
      · rintro ⟨c, hc, hcv⟩
        exact ⟨c, mem_append_left _ hc, hcv⟩
      · rintro ⟨c, hc, hcv⟩
        obtain hc | hc := mem_append.1 hc
        · exact ⟨c, hc, hcv⟩
        · obtain rfl := mem_singleton.1 hc
          exact absurd hcv.symm hne

theorem reports_names (G : graph_t n) (bs : List (List (half_t n) × Fin n)) :
    (reports G bs).nComp = bs.length ∧ namesOf (reports G bs).subgs =
      (List.range bs.length).foldl (FreshNames.add (nameOf G)) (namesOf G.subgs) := by
  induction bs using List.reverseRecOn with
  | nil => exact ⟨rfl, rfl⟩
  | append_singleton bs b ih =>
    obtain ⟨-, hComp, hnames⟩ := report_fields G (reports G bs) b
    rw [reports_concat, length_append, length_singleton, range_succ, foldl_append, ← ih.2]
    rw [ih.1] at hComp hnames
    exact ⟨hComp, hnames⟩

/-- There are as many new subgraphs as blocks only when no name was there. -/
theorem names_fresh (hlen : (reports G bs).subgs.length = G.subgs.length + bs.length)
    (hk : k < bs.length) : nameOf G k ∉ namesOf G.subgs := by
  refine FreshNames.notMem_of_length (nameOf_injective G) ?_ hk
  rw [← (reports_names G bs).2, namesOf, namesOf, length_map, length_map, hlen]

/-! ## Fresh names -/

/-- The subgraph of a block. -/
def subgOf (G : graph_t n) (k : ℕ) (b : List (half_t n) × Fin n) : subg_t n :=
  b.1.foldl subg_t.putEnds ⟨nameOf G k, []⟩

theorem subgOf_name (k : ℕ) (b : List (half_t n) × Fin n) : (subgOf G k b).name = nameOf G k :=
  putEnds_foldl_name b.1 _

theorem mem_subgOf : v ∈ (subgOf G k b).nodes ↔ v ∈ G.incidence.span b.1 :=
  (mem_putEnds_foldl b.1 _).trans (or_iff_right not_mem_nil)

theorem modify_concat {α : Type} (l : List α) (a : α) (f : α → α) :
    (l ++ [a]).modify l.length f = l ++ [f a] := by
  induction l with
  | nil => rfl
  | cons b l ih => exact congrArg (b :: ·) ih

/-- With fresh names each block gets a new subgraph. -/
theorem reports_fresh (hfresh : ∀ k < bs.length, nameOf G k ∉ namesOf G.subgs) :
    (reports G bs).subgs = G.subgs ++ bs.mapIdx (subgOf G) ∧
      (reports G bs).blks = ((List.range bs.length).map (G.subgs.length + ·)).reverse := by
  induction bs using List.reverseRecOn with
  | nil => exact ⟨(append_nil _).symm, rfl⟩
  | append_singleton bs b ih =>
    rw [length_append, length_singleton] at hfresh
    obtain ⟨hsubgs, hblks⟩ := ih fun k hk => hfresh k (lt_succ_of_lt hk)
    have hnone : (reports G bs).subgs.findIdx? (·.name = nameOf G bs.length) = none := by
      refine findIdx?_eq_none_iff.2 fun sg hsg => decide_eq_false fun hname => ?_
      rw [hsubgs] at hsg
      obtain hsg | hsg := mem_append.1 hsg
      · exact hfresh _ (lt_succ_self _) (mem_map.2 ⟨sg, hsg, hname⟩)
      · obtain ⟨j, hj, rfl⟩ := mem_mapIdx.1 hsg
        rw [subgOf_name] at hname
        exact hj.ne (nameOf_injective G hname)
    have hsub : ∀ o : Out n, o.subgs = (reports G bs).subgs → agsubg o (nameOf G bs.length) =
        (o.subgs.length, { o with subgs := o.subgs ++ [⟨nameOf G bs.length, []⟩] }) := by
      intro o ho
      rw [agsubg, ho, hnone]
    have hmk : mkBlock G { reports G bs with isCut := update (reports G bs).isCut b.2 true } =
        ((reports G bs).subgs.length, ⟨update (reports G bs).isCut b.2 true,
          (reports G bs).nComp + 1, (reports G bs).subgs.length :: (reports G bs).blks,
          (reports G bs).subgs ++ [⟨nameOf G bs.length, []⟩]⟩) := by
      have heq := hsub { reports G bs with
        isCut := update (reports G bs).isCut b.2 true, nComp := (reports G bs).nComp + 1 } rfl
      rw [← (reports_names G bs).1] at heq ⊢
      exact mkBlock_eq (o := { reports G bs with
        isCut := update (reports G bs).isCut b.2 true }) heq
    have hlen : (reports G bs).subgs.length = G.subgs.length + bs.length := by
      rw [hsubgs, length_append, length_mapIdx]
    rw [reports_concat, report, hmk]
    change (b.1.foldl (putEdge _) _).subgs = _ ∧ (b.1.foldl (putEdge _) _).blks = _
    rw [putEdges_eq]
    refine ⟨(modify_concat _ _ _).trans ?_, ?_⟩
    · rw [hsubgs, mapIdx_concat, append_assoc]
      rfl
    · change (reports G bs).subgs.length :: (reports G bs).blks = _
      rw [hblks, hlen, length_append, length_singleton, range_succ, map_append, reverse_append]
      rfl

end Graphviz.Bcomps

/-!
## The blocks and the block-cutpoint tree of `bcomps`

The flags are those of the articulation points exactly when the first node of each component, at
which the search starts, is one or has no edge: the search sets the flag at each node that has
separated a block, and does not look whether the node at which it started has separated a second
one. The tree is as it should be when no articulation point has the name of a block.
-/

namespace Graphviz.Bcomps

open Blocks Function List Outcome

variable {n : ℕ} {G : graph_t n} {o : Out n} {v : Fin n} {k : ℕ} {t : tree_t}
  {news : List (subg_t n)} {vs : List (Fin n)}

/-! ## What is to be found -/

/-- The nodes are different and an edge joins them. -/
def Joined (G : graph_t n) (u v : Fin n) : Prop :=
  u ≠ v ∧ ((∃ e ∈ G.out u, e.aghead = v) ∨ ∃ e ∈ G.out v, e.aghead = u)

/-- The tree of the blocks: nodes for them and for the articulation points, edges from the blocks
to the articulation points in them, and no cycle. -/
structure CutTree (G : graph_t n) (news : List (subg_t n)) (t : tree_t) : Prop where
  nodes : ∀ a, a ∈ t.nodes ↔ (∃ sg ∈ news, sg.name = a) ∨
    ∃ v, Articulation (Joined G) v ∧ G.names v = a
  names : (news.map (·.name)).Nodup
  distinct : ∀ sg ∈ news, ∀ v, Articulation (Joined G) v → sg.name ≠ G.names v
  edges : ∀ a b, (a, b) ∈ t.edges ↔ ∃ sg ∈ news, ∃ v ∈ sg.nodes,
    Articulation (Joined G) v ∧ sg.name = a ∧ G.names v = b
  once : t.nodes.Nodup ∧ t.edges.Nodup
  acyclic : (SimpleGraph.fromRel fun a b => (a, b) ∈ t.edges).IsAcyclic

/-- The result with a new subgraph for each block, which has its nodes, the flags of the
articulation points, and the tree. -/
structure Biconnected (G : graph_t n) (o : Out n) (t : tree_t) (news : List (subg_t n)) :
    Prop where
  subgs : o.subgs = G.subgs ++ news
  blocks : o.blocks = news.reverse
  isBlock : ∀ X, IsBlock (Joined G) X ↔ ∃ sg ∈ news, {v | v ∈ sg.nodes} = X
  once : news.Pairwise fun a b => {v | v ∈ a.nodes} ≠ {v | v ∈ b.nodes}
  cut : ∀ v, o.isCut v = true ↔ Articulation (Joined G) v
  tree : CutTree G news t

/-- The edges that the search sees. -/
theorem adj_eq (G : graph_t n) : G.incidence.Adj = Joined G := by
  funext u v
  refine propext (and_congr_right fun hne => ?_)
  constructor
  · rintro ⟨e, he, rfl⟩
    change (∃ e' ∈ G.out u, e'.aghead = e.dst) ∨ ∃ e' ∈ G.out e.dst, e'.aghead = u
    rw [half_t.dst]
    obtain ⟨hout, hmem⟩ | ⟨hout, hmem, -⟩ := mem_edges.1 he
    · rw [if_pos hout]
      exact .inl ⟨e.edge, hmem, rfl⟩
    · have hhead := G.head u _ hmem
      rw [if_neg hout]
      exact .inr ⟨e.edge, (G.out_iff_into e.edge).2 (hhead.symm ▸ hmem), hhead⟩
  · rintro (⟨e, he, rfl⟩ | ⟨e, he, rfl⟩)
    · exact ⟨⟨e, true⟩, mem_edges.2 (.inl ⟨rfl, he⟩), rfl⟩
    · have htail := G.tail v e he
      refine ⟨⟨e, false⟩, mem_edges.2 (.inr ⟨Bool.false_ne_true, ?_, ?_⟩), htail⟩
      · exact (G.out_iff_into e).1 (htail.symm ▸ he)
      · exact fun heq => hne (heq.symm.trans htail)

/-! ## The tree -/

theorem mem_agnode {a b : CStr} : a ∈ (t.agnode b).nodes ↔ a ∈ t.nodes ∨ a = b := by
  rw [tree_t.agnode]
  split
  next h => exact (or_iff_left_of_imp fun heq => heq ▸ h).symm
  next => exact mem_append.trans (or_congr_right mem_singleton)

theorem agnode_edges (t : tree_t) (b : CStr) : (t.agnode b).edges = t.edges := by
  rw [tree_t.agnode]
  split <;> rfl

theorem agnode_nodup (h : t.nodes.Nodup) (b : CStr) : (t.agnode b).nodes.Nodup := by
  rw [tree_t.agnode]
  split
  next => exact h
  next hb => exact nodup_append.2 ⟨h, nodup_singleton b, fun a ha c hc heq =>
    hb (mem_singleton.1 hc ▸ heq ▸ ha)⟩

theorem agedge_nodes (t : tree_t) (a b : CStr) : (t.agedge a b).nodes = t.nodes := by
  rw [tree_t.agedge]
  split <;> rfl

/-- An edge that is not there the other way. -/
theorem mem_agedge {a b : CStr} (h : (b, a) ∉ t.edges) (p : CStr × CStr) :
    p ∈ (t.agedge a b).edges ↔ p ∈ t.edges ∨ p = (a, b) := by
  rw [tree_t.agedge]
  split
  next hmem =>
    exact (or_iff_left_of_imp fun heq => heq ▸ hmem.resolve_right h).symm
  next => exact mem_append.trans (or_congr_right mem_singleton)

theorem agedge_nodup (h : t.edges.Nodup) (a b : CStr) : (t.agedge a b).edges.Nodup := by
  rw [tree_t.agedge]
  split
  next => exact h
  next hp =>
    refine nodup_append.2 ⟨h, nodup_singleton _, fun p hp' q hq heq => hp (.inl ?_)⟩
    exact mem_singleton.1 hq ▸ heq ▸ hp'

/-- A tree in which no edge starts at the name of a node with a flag. -/
structure Growing (G : graph_t n) (o : Out n) (t : tree_t) : Prop where
  nodes : t.nodes.Nodup
  edges : t.edges.Nodup
  first : ∀ p ∈ t.edges, ∀ v, o.isCut v = true → p.1 ≠ G.names v

/-- What the nodes of a block add to the tree. -/
theorem addCutPt_foldl {bn : CStr} (hbn : ∀ v, o.isCut v = true → bn ≠ G.names v)
    (vs : List (Fin n)) (h : Growing G o t) :
    Growing G o (vs.foldl (addCutPt G o bn) t) ∧
      (∀ a, a ∈ (vs.foldl (addCutPt G o bn) t).nodes ↔
        a ∈ t.nodes ∨ ∃ v ∈ vs, o.isCut v = true ∧ G.names v = a) ∧
      ∀ p, p ∈ (vs.foldl (addCutPt G o bn) t).edges ↔
        p ∈ t.edges ∨ ∃ v ∈ vs, o.isCut v = true ∧ p = (bn, G.names v) := by
  induction vs generalizing t with
  | nil => exact ⟨h, fun a => by simp, fun p => by simp⟩
  | cons v vs ih =>
    rw [foldl_cons]
    obtain hv | hv := Bool.eq_false_or_eq_true (o.isCut v)
    · have hstep : addCutPt G o bn t v = (t.agnode (G.names v)).agedge bn (G.names v) := if_pos hv
      have hrev : (G.names v, bn) ∉ (t.agnode (G.names v)).edges := by
        rw [agnode_edges]
        exact fun hmem => h.first _ hmem v hv rfl
      have hmem := mem_agedge hrev
      rw [agnode_edges] at hmem
      have h' : Growing G o (addCutPt G o bn t v) := by
        rw [hstep]
        refine ⟨?_, agedge_nodup (by rw [agnode_edges]; exact h.edges) _ _, fun p hp w hw => ?_⟩
        · rw [agedge_nodes]
          exact agnode_nodup h.nodes _
        · obtain hp | rfl := (hmem p).1 hp
          · exact h.first p hp w hw
          · exact hbn w hw
      obtain ⟨hgrow, hnodes, hedges⟩ := ih h'
      refine ⟨hgrow, fun a => (hnodes a).trans ?_, fun p => (hedges p).trans ?_⟩
      · rw [hstep, agedge_nodes, mem_agnode, or_assoc, eq_comm (a := a)]
        simp only [mem_cons, exists_eq_or_imp, hv, true_and]
      · rw [hstep, hmem, or_assoc]
        simp only [mem_cons, exists_eq_or_imp, hv, true_and]
    · have hfalse : ¬o.isCut v = true := by rw [hv]; exact Bool.false_ne_true
      have hstep : addCutPt G o bn t v = t := if_neg hfalse
      rw [hstep]
      obtain ⟨hgrow, hnodes, hedges⟩ := ih h
      refine ⟨hgrow, fun a => (hnodes a).trans ?_, fun p => (hedges p).trans ?_⟩
      · simp only [mem_cons, exists_eq_or_imp, hv, Bool.false_eq_true, false_and, false_or]
      · simp only [mem_cons, exists_eq_or_imp, hv, Bool.false_eq_true, false_and, false_or]

theorem mem_nodesOf {sg : subg_t n} : v ∈ sg.nodesOf ↔ v ∈ sg.nodes := by
  rw [subg_t.nodesOf, mem_filter, decide_eq_true_iff, and_iff_right (mem_finRange v)]

/-- What blocks add to the tree. -/
theorem addCutPts_foldl (L : List (subg_t n))
    (hL : ∀ sg ∈ L, ∀ v, o.isCut v = true → sg.name ≠ G.names v) (h : Growing G o t) :
    Growing G o (L.foldl (addCutPts G o) t) ∧
      (∀ a, a ∈ (L.foldl (addCutPts G o) t).nodes ↔ a ∈ t.nodes ∨
        ∃ sg ∈ L, sg.name = a ∨ ∃ v ∈ sg.nodes, o.isCut v = true ∧ G.names v = a) ∧
      ∀ p, p ∈ (L.foldl (addCutPts G o) t).edges ↔ p ∈ t.edges ∨
        ∃ sg ∈ L, ∃ v ∈ sg.nodes, o.isCut v = true ∧ p = (sg.name, G.names v) := by
  induction L generalizing t with
  | nil => exact ⟨h, fun a => by simp, fun p => by simp⟩
  | cons sg L ih =>
    have hstart : Growing G o (t.agnode sg.name) :=
      ⟨agnode_nodup h.nodes _, by rw [agnode_edges]; exact h.edges,
        by rw [agnode_edges]; exact h.first⟩
    obtain ⟨hgrow, hnodes, hedges⟩ :=
      addCutPt_foldl (hL sg mem_cons_self) sg.nodesOf hstart
    obtain ⟨hgrow', hnodes', hedges'⟩ :=
      ih (fun sg' hsg' => hL sg' (mem_cons_of_mem sg hsg')) hgrow
    refine ⟨hgrow', fun a => (hnodes' a).trans ?_, fun p => (hedges' p).trans ?_⟩
    · rw [hnodes, mem_agnode, eq_comm (a := a)]
      simp only [mem_nodesOf, mem_cons, exists_eq_or_imp, or_assoc]
    · rw [hedges, agnode_edges]
      simp only [mem_nodesOf, mem_cons, exists_eq_or_imp, or_assoc]

/-! ## The blocks -/

variable {c : LowPoint.State (Fin n) (half_t n)}

/-- The node is the first one that leads to it. -/
def FirstNode (G : graph_t n) (v : Fin n) : Prop :=
  ∀ u < v, ¬Relation.ReflTransGen (Joined G) u v

theorem first_iff : LowPoint.First G.incidence (finRange n) v ↔ FirstNode G v := by
  have hreach : ∀ u, G.incidence.Reach u v ↔ Relation.ReflTransGen (Joined G) u v := fun u => by
    rw [LowPoint.Incidence.Reach, adj_eq]
  constructor
  · rintro ⟨pre, post, heq, hpre⟩ u hu huv
    refine hpre u ?_ ((hreach u).2 huv)
    have hmem := heq ▸ mem_finRange u
    have hpair := heq ▸ pairwise_lt_finRange n
    obtain hmem | hmem := mem_append.1 hmem
    · exact hmem
    · obtain rfl | hmem := mem_cons.1 hmem
      · exact absurd hu (lt_irrefl _)
      · have hlt := (pairwise_cons.1 (pairwise_append.1 hpair).2.1).1 u hmem
        exact absurd hu hlt.not_gt
  · intro h
    obtain ⟨pre, post, heq⟩ := append_of_mem (mem_finRange v)
    refine ⟨pre, post, heq, fun u hu huv => h u ?_ ((hreach u).1 huv)⟩
    have hpair := heq ▸ pairwise_lt_finRange n
    exact (pairwise_append.1 hpair).2.2 u hu v mem_cons_self

/-- The number of elements of a set by a list of them. -/
theorem ncard_of_list {β : Type} {S : Set β} {L : List β} (hL : L.Nodup) (h : ∀ x, x ∈ S ↔ x ∈ L) :
    S.ncard = L.length := by
  classical
  have hset : S = L.toFinset := by
    ext x
    rw [Finset.mem_coe, mem_toFinset]
    exact h x
  rw [hset, Set.ncard_coe_finset, toFinset_card_of_nodup hL]

theorem filterMap_range {β : Type} (l : List β) : (List.range l.length).filterMap (l[·]?) = l := by
  induction l using reverseRecOn with
  | nil => rfl
  | append_singleton l a ih =>
    have hold : (List.range l.length).filterMap ((l ++ [a])[·]?) =
        (List.range l.length).filterMap (l[·]?) :=
      filterMap_congr fun i hi => getElem?_append_left (mem_range.1 hi)
    rw [length_append, length_singleton, range_succ, filterMap_append, hold, ih]
    simp

/-- The blocks in the list when they are the last subgraphs. -/
theorem blocks_eq (hsubgs : o.subgs = G.subgs ++ news)
    (hblks : o.blks = ((List.range news.length).map (G.subgs.length + ·)).reverse) :
    o.blocks = news.reverse := by
  have hget : ((o.subgs[·]?) ∘ (G.subgs.length + ·)) = (news[·]?) := by
    funext i
    rw [Function.comp_apply, hsubgs, getElem?_append_right (Nat.le_add_right _ _),
      Nat.add_sub_cancel_left]
  rw [Out.blocks, hblks, filterMap_reverse, filterMap_map, hget, filterMap_range]

section found

/-- The flags are those of the nodes that separate blocks. -/
theorem isCut_iff : (reports G c.blocks).isCut v = true ↔ c.Cut G.incidence v := by
  rw [reports_isCut, LowPoint.State.Cut, LowPoint.State.parts]
  simp only [mem_map, exists_exists_and_eq_and]

/-- The parts by the places of the blocks. -/
theorem getElem?_parts {b : Set (Fin n) × Fin n} :
    (c.parts G.incidence)[k]? = some b ↔
      ∃ p, c.blocks[k]? = some p ∧ (G.incidence.span p.1, p.2) = b := by
  rw [LowPoint.State.parts, getElem?_map, Option.map_eq_some_iff]

variable (hfound : LowPoint.Found G.incidence (finRange n) c)

include hfound

theorem found_decomposition : Decomposition (Joined G) (c.parts G.incidence) :=
  adj_eq G ▸ hfound.decomposition

/-- The number of blocks. -/
theorem ncard_blocks : {X | IsBlock (Joined G) X}.ncard = c.blocks.length := by
  have hdec := found_decomposition hfound
  have hnodup : ((c.parts G.incidence).map (·.1)).Nodup := pairwise_map.2 hdec.pairwise_ne
  have hcard := ncard_of_list (S := {X | IsBlock (Joined G) X}) hnodup fun X =>
    hdec.isBlock_iff.trans mem_map.symm
  rw [hcard, length_map, LowPoint.State.parts, length_map]

/-- The flags are those of the articulation points exactly when this is so for the first nodes of
components. -/
theorem cuts_iff : (∀ v, (reports G c.blocks).isCut v = true ↔ Articulation (Joined G) v) ↔
    ∀ v w, FirstNode G v → Joined G v w → Articulation (Joined G) v := by
  have h := hfound.cuts_iff
  rw [adj_eq] at h
  simp only [isCut_iff, h, first_iff]

/-- The new subgraphs with fresh names have the nodes of the blocks. -/
theorem isBlock_news (X : Set (Fin n)) :
    IsBlock (Joined G) X ↔ ∃ sg ∈ c.blocks.mapIdx (subgOf G), {v | v ∈ sg.nodes} = X := by
  have hnodes : ∀ k b, {v | v ∈ (subgOf G k b).nodes} = G.incidence.span b.1 := fun k b =>
    Set.ext fun v => mem_subgOf
  rw [(found_decomposition hfound).isBlock_iff]
  constructor
  · rintro ⟨b, hb, rfl⟩
    obtain ⟨k, hk⟩ := mem_iff_getElem?.1 hb
    obtain ⟨p, hp, rfl⟩ := getElem?_parts.1 hk
    obtain ⟨hlt, rfl⟩ := List.getElem?_eq_some_iff.1 hp
    exact ⟨_, mem_mapIdx.2 ⟨k, hlt, rfl⟩, hnodes k _⟩
  · rintro ⟨sg, hsg, rfl⟩
    obtain ⟨k, hlt, rfl⟩ := mem_mapIdx.1 hsg
    exact ⟨_, mem_of_getElem? (getElem?_parts.2 ⟨_, getElem?_eq_getElem hlt, rfl⟩),
      (hnodes k _).symm⟩

theorem pairwise_news : (c.blocks.mapIdx (subgOf G)).Pairwise fun a b =>
    {v | v ∈ a.nodes} ≠ {v | v ∈ b.nodes} := by
  refine pairwise_iff_getElem.2 fun i j hi hj hlt => ?_
  rw [getElem_mapIdx, getElem_mapIdx]
  have hpair := pairwise_iff_getElem.1
    (pairwise_map.1 (found_decomposition hfound).pairwise_ne) i j
    (by rwa [length_mapIdx] at hi) (by rwa [length_mapIdx] at hj) hlt
  exact fun heq => hpair (Set.ext fun v => mem_subgOf.symm.trans
    ((Set.ext_iff.1 heq v).trans mem_subgOf))

/-- The tree, when the flags are right and no articulation point has the name of a block. -/
theorem cutTree (hcut : ∀ v, (reports G c.blocks).isCut v = true ↔ Articulation (Joined G) v)
    (hne : ∀ k < c.blocks.length, ∀ v, Articulation (Joined G) v → nameOf G k ≠ G.names v) :
    CutTree G (c.blocks.mapIdx (subgOf G))
      ((c.blocks.mapIdx (subgOf G)).reverse.foldl (addCutPts G (reports G c.blocks)) ⟨[], []⟩) := by
  have hdistinct : ∀ sg ∈ c.blocks.mapIdx (subgOf G), ∀ v, Articulation (Joined G) v →
      sg.name ≠ G.names v := by
    intro sg hsg v hv
    obtain ⟨k, hk, rfl⟩ := mem_mapIdx.1 hsg
    rw [subgOf_name]
    exact hne k hk v hv
  obtain ⟨hgrow, hnodes, hedges⟩ := @addCutPts_foldl n G (reports G c.blocks) ⟨[], []⟩
    (c.blocks.mapIdx (subgOf G)).reverse (fun sg hsg v hv =>
      hdistinct sg (mem_reverse.1 hsg) v ((hcut v).1 hv)) ⟨.nil, .nil, nofun⟩
  set T := (c.blocks.mapIdx (subgOf G)).reverse.foldl (addCutPts G (reports G c.blocks)) ⟨[], []⟩
  simp only [hcut, mem_reverse, not_mem_nil, false_or] at hnodes hedges
  have hedges' : ∀ a b, (a, b) ∈ T.edges ↔ ∃ sg ∈ c.blocks.mapIdx (subgOf G), ∃ v ∈ sg.nodes,
      Articulation (Joined G) v ∧ sg.name = a ∧ G.names v = b := by
    intro a b
    rw [hedges]
    simp only [Prod.mk.injEq, eq_comm]
  refine ⟨fun a => (hnodes a).trans ?_, ?_, hdistinct, hedges', ⟨hgrow.nodes, hgrow.edges⟩, ?_⟩
  · constructor
    · rintro ⟨sg, hsg, hname | ⟨v, -, hv, hname⟩⟩
      · exact .inl ⟨sg, hsg, hname⟩
      · exact .inr ⟨v, hv, hname⟩
    · rintro (⟨sg, hsg, hname⟩ | ⟨v, hv, hname⟩)
      · exact ⟨sg, hsg, .inl hname⟩
      · have hart := hv
        obtain ⟨X, Y, hX, -, -, hvX, -⟩ := hart
        obtain ⟨sg, hsg, rfl⟩ := (isBlock_news hfound X).1 hX
        exact ⟨sg, hsg, .inr ⟨v, hvX, hv, hname⟩⟩
  · have hnames : (c.blocks.mapIdx (subgOf G)).map (·.name) =
        (List.range c.blocks.length).map (nameOf G) := by
      refine ext_getElem (by simp) fun i hi hi' => ?_
      rw [getElem_map, getElem_map, getElem_mapIdx, getElem_range, subgOf_name]
    rw [hnames]
    exact nodup_range.map (nameOf_injective G)
  · refine (found_decomposition hfound).toParts.isAcyclic (nameOf_injective G) G.names_inj
      (P := Articulation (Joined G)) (fun k hk v hv => ?_) fun a b hab => ?_
    · rw [LowPoint.State.parts, length_map] at hk
      exact hne k hk v hv
    · obtain ⟨sg, hsg, v, hv, hart, hname, hname'⟩ := (hedges' a b).1 hab
      obtain ⟨k, hlt, rfl⟩ := mem_mapIdx.1 hsg
      rw [subgOf_name] at hname
      exact ⟨k, _, v, getElem?_parts.2 ⟨_, getElem?_eq_getElem hlt, rfl⟩, mem_subgOf.1 hv,
        hart, hname, hname'⟩

/-- With fresh names the result is as it should be. -/
theorem biconnected (hcut : ∀ v, (reports G c.blocks).isCut v = true ↔ Articulation (Joined G) v)
    (hfresh : ∀ k < c.blocks.length, nameOf G k ∉ namesOf G.subgs)
    (hne : ∀ k < c.blocks.length, ∀ v, Articulation (Joined G) v → nameOf G k ≠ G.names v) :
    Biconnected G (reports G c.blocks) (blkcut_tree G (reports G c.blocks))
      (c.blocks.mapIdx (subgOf G)) := by
  obtain ⟨hsubgs, hblks⟩ := reports_fresh hfresh
  have hblocks : (reports G c.blocks).blocks = (c.blocks.mapIdx (subgOf G)).reverse :=
    blocks_eq hsubgs (by rw [length_mapIdx]; exact hblks)
  refine ⟨hsubgs, hblocks, isBlock_news hfound, pairwise_news hfound, hcut, ?_⟩
  rw [blkcut_tree, hblocks]
  exact cutTree hfound hcut hne

/-- The names of the blocks are fresh when there is a new subgraph for each block. -/
theorem Biconnected.fresh (h : Biconnected G (reports G c.blocks) t news) :
    (∀ k < c.blocks.length, nameOf G k ∉ namesOf G.subgs) ∧
      news = c.blocks.mapIdx (subgOf G) := by
  have hlen : news.length = c.blocks.length := by
    rw [← ncard_blocks hfound, ncard_of_list (S := {X | IsBlock (Joined G) X})
      (pairwise_map.2 h.once) fun X => (h.isBlock X).trans mem_map.symm, length_map]
  have hfresh : ∀ k < c.blocks.length, nameOf G k ∉ namesOf G.subgs := fun k =>
    names_fresh (by rw [h.subgs, length_append, hlen])
  exact ⟨hfresh, append_cancel_left (h.subgs.symm.trans (reports_fresh hfresh).1)⟩

end found

theorem not_mem_namesOf {name : CStr} :
    name ∉ namesOf G.subgs ↔ ∀ sg ∈ G.subgs, sg.name ≠ name := by
  rw [namesOf, mem_map, not_exists]
  exact forall_congr' fun sg => not_and

/-- The result is as it should be exactly when the first node of each component is in two blocks or
has no edge to another node, the graph has no subgraph with the name of one of the blocks, and no
articulation point has such a name. -/
theorem process_blocks_iff (G : graph_t n) : ∃ o t many, process G = .ok (o, t, many) ∧
    ((∃ news, Biconnected G o t news) ↔
      (∀ v w, FirstNode G v → Joined G v w → Articulation (Joined G) v) ∧
      ∀ d, 1 ≤ d → d ≤ {X | IsBlock (Joined G) X}.ncard →
        (∀ sg ∈ G.subgs, sg.name ≠ blockName G.name d) ∧
        ∀ v, Articulation (Joined G) v → G.names v ≠ blockName G.name d) := by
  obtain ⟨c, hfound, hprocess⟩ := process_eq G
  refine ⟨_, _, _, hprocess, ?_⟩
  rw [ncard_blocks hfound, ← cuts_iff hfound]
  constructor
  · rintro ⟨news, h⟩
    obtain ⟨hfresh, rfl⟩ := h.fresh hfound
    refine ⟨h.cut, fun d hd hle => ?_⟩
    obtain ⟨k, rfl⟩ := Nat.exists_eq_add_of_le' hd
    refine ⟨not_mem_namesOf.1 (hfresh k hle), fun v hv heq => ?_⟩
    refine h.tree.distinct _ (mem_mapIdx.2 ⟨k, hle, rfl⟩) v hv ?_
    rw [subgOf_name]
    exact heq.symm
  · rintro ⟨hcut, hnames⟩
    have hnames' : ∀ k < c.blocks.length, _ := fun k hk => hnames (k + 1) (Nat.le_add_left 1 k) hk
    exact ⟨_, biconnected hfound hcut (fun k hk => not_mem_namesOf.2 (hnames' k hk).1)
      fun k hk v hv heq => (hnames' k hk).2 v hv heq.symm⟩

/-! ## One edge -/

attribute [local instance] Instances.neZero_two

/-- Two nodes with an edge between them. -/
def oneEdge : graph_t 2 where
  out u := if u = 0 then [⟨0, 1, 0⟩] else []
  into u := if u = 1 then [⟨0, 1, 0⟩] else []
  name := lit "G"
  names v := if v = 0 then lit "a" else lit "b"
  subgs := []
  tail := by decide
  head := by decide
  out_iff_into e := by
    obtain ⟨t, h, k⟩ := e
    fin_cases t <;> fin_cases h <;> simp
  names_inj := by decide

/-- The node at which the search starts has the flag set, although it is in one block only. -/
theorem process_oneEdge : ∃ o t many, process oneEdge = .ok (o, t, many) ∧ o.isCut 0 = true ∧
    ¬Articulation (Joined oneEdge) 0 ∧ ¬∃ news, Biconnected oneEdge o t news := by
  have hnot : ¬Articulation (Joined oneEdge) 0 := by
    rintro ⟨X, Y, hX, hY, hne, -, -⟩
    have huniv : ∀ Z : Set (Fin 2), IsBlock (Joined oneEdge) Z → Z = Set.univ := by
      rintro Z ⟨⟨x, hx, y, hy, hxy⟩, -, -⟩
      refine Set.eq_univ_of_forall fun z => ?_
      have hz : z = x ∨ z = y := by omega
      obtain rfl | rfl := hz
      · exact hx
      · exact hy
    exact hne ((huniv X hX).trans (huniv Y hY).symm)
  obtain ⟨c, hfound, hprocess⟩ := process_eq oneEdge
  have hfirst : FirstNode oneEdge 0 := fun u hu => absurd hu (Nat.not_lt_zero _)
  have hjoined : Joined oneEdge 0 1 := ⟨by decide, .inl ⟨⟨0, 1, 0⟩, by decide, rfl⟩⟩
  refine ⟨_, _, _, hprocess, ?_, hnot, fun ⟨news, h⟩ => ?_⟩
  · rw [isCut_iff]
    exact hfound.cut_first (first_iff.2 hfirst) (adj_eq oneEdge ▸ hjoined)
  · exact hnot ((cuts_iff hfound).1 h.cut 0 1 hfirst hjoined)

end Graphviz.Bcomps
