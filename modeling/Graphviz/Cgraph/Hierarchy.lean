import Graphviz.Cgraph.StoreOps

/-!
# The hierarchy of graphs

What holds of the records of a root graph and its subgraphs over every run of operations from
`agopen`: a subgraph's objects are its parent's, the four edge sets and the two node
dictionaries agree, and end points are nodes. The operations return, unless a sequence number
overflows its field or `agedge` or `agidedge` is given a subgraph without the end points of an
edge that the root has: they install the edge and follow the null image of the missing node.
-/

namespace Graphviz

open List Outcome

namespace Agraph

/-- The out-edges of a node in the order of their heads. -/
def outSeqOf (g : Agraph) (n : Agnode) : List Agedge := (g.agsubrep n).elim [] (·.outSeq)

/-- The out-edges of a node by identifier. -/
def outIdOf (g : Agraph) (n : Agnode) : List Agedge := (g.agsubrep n).elim [] (·.outId)

/-- The in-edges of a node in the order of their tails. -/
def inSeqOf (g : Agraph) (n : Agnode) : List Agedge := (g.agsubrep n).elim [] (·.inSeq)

/-- The in-edges of a node by identifier. -/
def inIdOf (g : Agraph) (n : Agnode) : List Agedge := (g.agsubrep n).elim [] (·.inId)

/-- The graph has the edge. -/
def HasEdge (g : Agraph) (e : Agedge) : Prop := e ∈ g.outSeqOf e.tail

instance (g : Agraph) (e : Agedge) : Decidable (g.HasEdge e) :=
  inferInstanceAs (Decidable (e ∈ g.outSeqOf e.tail))

/-- What the dictionaries of one graph have to do with one another. -/
structure Consistent (g : Agraph) : Prop where
  nodes : ∀ n, n ∈ g.nId.map (·.node) ↔ n ∈ g.nSeq
  tail_of_out : ∀ n ∈ g.nSeq, ∀ e, e ∈ g.outSeqOf n ∨ e ∈ g.outIdOf n → e.tail = n
  head_of_in : ∀ n ∈ g.nSeq, ∀ e, e ∈ g.inSeqOf n ∨ e ∈ g.inIdOf n → e.head = n
  outId : ∀ e, e ∈ g.outIdOf e.tail ↔ g.HasEdge e
  inSeq : ∀ e, e ∈ g.inSeqOf e.head ↔ g.HasEdge e
  inId : ∀ e, e ∈ g.inIdOf e.head ↔ g.HasEdge e
  ends : ∀ e, g.HasEdge e → e.tail ∈ g.nSeq ∧ e.head ∈ g.nSeq

end Agraph

namespace Store

/-- Every graph is consistent, and has only nodes and edges of its parent. -/
structure Hierarchical (s : Store) : Prop where
  consistent : ∀ p, s.Live p → (s.graphs p).Consistent
  node_parent : ∀ id p, s.Live (id :: p) →
    ∀ n ∈ (s.graphs (id :: p)).nSeq, n ∈ (s.graphs p).nSeq
  edge_parent : ∀ id p, s.Live (id :: p) →
    ∀ e, (s.graphs (id :: p)).HasEdge e → (s.graphs p).HasEdge e

variable {s s' : Store} {V : Views} {p : GPath} {n : Agnode} {e : Agedge} {c : Cdt}

/-! ## From the invariant -/

section Sets

variable (h : s.Inv V) (hp : s.Live p)

include h hp

/-- One of the four sets of a node's image, looked up by the end of an edge: the edge is there
when the graph has it. -/
theorem Inv.mem_set_iff {set : Agsubnode → List Agedge} {end' : Agedge → Agnode}
    (hset : ∀ sn ∈ (s.graphs p).nId, ∀ f, f ∈ set sn ↔ f ∈ (V p).edges ∧ end' f = sn.node)
    (hend : ∀ f ∈ (V p).edges, end' f ∈ (V p).nodes) :
    e ∈ ((s.graphs p).agsubrep (end' e)).elim [] set ↔ e ∈ (V p).edges := by
  constructor
  · cases hr : (s.graphs p).agsubrep (end' e) with
    | none => exact fun he => by cases he
    | some sn => exact fun he => ((hset sn (mem_of_find?_eq_some hr) e).1 he).1
  · intro he
    obtain ⟨sn, hs, hsn, hr⟩ := (h.shows.rep p hp).agsubrep_mem h.distinct
      (h.shows.sub p hp).nodes (hend e he)
    rw [hr]
    exact (hset sn hs e).2 ⟨he, hsn.symm⟩

/-- One of the four sets of a node of the graph: its edges have the node as their end. -/
theorem Inv.end_of_mem {set : Agsubnode → List Agedge} {end' : Agedge → Agnode}
    (hset : ∀ sn ∈ (s.graphs p).nId, ∀ f, f ∈ set sn ↔ f ∈ (V p).edges ∧ end' f = sn.node)
    (hn : n ∈ (V p).nodes) (he : e ∈ ((s.graphs p).agsubrep n).elim [] set) : end' e = n := by
  obtain ⟨sn, hs, hsn, hr⟩ := (h.shows.rep p hp).agsubrep_mem h.distinct
    (h.shows.sub p hp).nodes hn
  rw [hr] at he
  exact ((hset sn hs e).1 he).2.trans hsn

omit h in
theorem Shows.outSeq (h : s.Shows (V []) V) : ∀ sn ∈ (s.graphs p).nId, ∀ f,
    f ∈ sn.outSeq ↔ f ∈ (V p).edges ∧ f.tail = sn.node :=
  fun sn hs f => ((h.rep p hp).holds sn hs).outSeq.mem f

omit h in
theorem Shows.outId (h : s.Shows (V []) V) : ∀ sn ∈ (s.graphs p).nId, ∀ f,
    f ∈ sn.outId ↔ f ∈ (V p).edges ∧ f.tail = sn.node :=
  fun sn hs f => ((h.rep p hp).holds sn hs).outId.mem f

omit h in
theorem Shows.inSeq (h : s.Shows (V []) V) : ∀ sn ∈ (s.graphs p).nId, ∀ f,
    f ∈ sn.inSeq ↔ f ∈ (V p).edges ∧ f.head = sn.node :=
  fun sn hs f => ((h.rep p hp).holds sn hs).inSeq.mem f

omit h in
theorem Shows.inId (h : s.Shows (V []) V) : ∀ sn ∈ (s.graphs p).nId, ∀ f,
    f ∈ sn.inId ↔ f ∈ (V p).edges ∧ f.head = sn.node :=
  fun sn hs f => ((h.rep p hp).holds sn hs).inId.mem f

theorem Inv.hasEdge_iff : (s.graphs p).HasEdge e ↔ e ∈ (V p).edges :=
  h.mem_set_iff hp (h.shows.outSeq hp) (h.shows.ends p hp).tail

theorem Inv.mem_nSeq : n ∈ (s.graphs p).nSeq ↔ n ∈ (V p).nodes :=
  (h.shows.rep p hp).nSeq.mem n

/-- Whether `agsubrep` finds the image of a node of the root. -/
theorem Inv.agsubrep_isSome (hn : n ∈ (V []).nodes) :
    ((s.graphs p).agsubrep n).isSome = true ↔ n ∈ (V p).nodes := by
  by_cases hm : n ∈ (V p).nodes
  · obtain ⟨sn, -, -, hr⟩ := (h.shows.rep p hp).agsubrep_mem h.distinct
      (h.shows.sub p hp).nodes hm
    simp [hr, hm]
  · simp [(h.shows.rep p hp).agsubrep_not_mem h.distinct (h.shows.sub p hp).nodes hn hm, hm]

/-- The record of a live graph is consistent. -/
theorem Inv.consistent : (s.graphs p).Consistent where
  nodes n := by
    rw [(h.shows.rep p hp).nId.mem, h.mem_nSeq hp]
  tail_of_out n hn f hf := by
    rw [h.mem_nSeq hp] at hn
    exact hf.elim (h.end_of_mem hp (h.shows.outSeq hp) hn) (h.end_of_mem hp (h.shows.outId hp) hn)
  head_of_in n hn f hf := by
    rw [h.mem_nSeq hp] at hn
    exact hf.elim (h.end_of_mem hp (h.shows.inSeq hp) hn) (h.end_of_mem hp (h.shows.inId hp) hn)
  outId f := (h.mem_set_iff hp (h.shows.outId hp) (h.shows.ends p hp).tail).trans
    (h.hasEdge_iff hp).symm
  inSeq f := (h.mem_set_iff hp (h.shows.inSeq hp) (h.shows.ends p hp).head).trans
    (h.hasEdge_iff hp).symm
  inId f := (h.mem_set_iff hp (h.shows.inId hp) (h.shows.ends p hp).head).trans
    (h.hasEdge_iff hp).symm
  ends f hf := by
    rw [h.mem_nSeq hp, h.mem_nSeq hp]
    rw [h.hasEdge_iff hp] at hf
    exact ⟨(h.shows.ends p hp).tail f hf, (h.shows.ends p hp).head f hf⟩

end Sets

/-- The invariant of the store makes it hierarchical. -/
theorem Inv.hierarchical (h : s.Inv V) : s.Hierarchical where
  consistent p hp := h.consistent hp
  node_parent id p hp n hn := by
    rw [h.mem_nSeq hp] at hn
    rw [h.mem_nSeq hp.1]
    exact (h.hier id p hp).nodes hn
  edge_parent id p hp f hf := by
    rw [h.hasEdge_iff hp] at hf
    rw [h.hasEdge_iff hp.1]
    exact (h.hier id p hp).edges hf

end Store

/-! ## Steps -/

/-- The arguments of an operation belong to the root graph: graphs are live, nodes and edges
the root's. -/
def StoreOp.Args (s : Store) : StoreOp → Prop
  | .agsubg g _ _ => s.Live g
  | .agnode g _ _ => s.Live g
  | .agsubnode g n _ => s.Live g ∧ n ∈ (s.graphs []).nSeq
  | .agedge g t h _ _ => s.Live g ∧ t ∈ (s.graphs []).nSeq ∧ h ∈ (s.graphs []).nSeq
  | .agsubedge g e _ => s.Live g ∧ (s.graphs []).HasEdge e
  | .agidedge g t h _ _ => s.Live g ∧ t ∈ (s.graphs []).nSeq ∧ h ∈ (s.graphs []).nSeq
  | .agdeledge g e => s.Live g ∧ (s.graphs []).HasEdge e
  | .agdelnode g n => s.Live g ∧ n ∈ (s.graphs []).nSeq
  | .agclose id parent => s.Live (id :: parent)

/-- A graph has the images of two nodes. -/
def Store.HasEnds (s : Store) (g : GPath) (t h : Agnode) : Prop :=
  ((s.graphs g).agsubrep t).isSome = true ∧ ((s.graphs g).agsubrep h).isSome = true

/-- When `agedge` or `agidedge` installs an edge of the root in a graph without it, the graph
has the end points. -/
def StoreOp.EndsIn (c : Cdt) (s : Store) : StoreOp → Prop
  | .agedge g t h name cflag => s.oldEdge c g t h name cflag ≠ none → s.HasEnds g t h
  | .agidedge g t h id cflag => s.oldById c g t h id cflag ≠ none → s.HasEnds g t h
  | _ => True

/-- What one operation may do: keep the root's edges, lose some, or make one. -/
def Store.Stepped (c : Cdt) (s : Store) (V : Views) (op : StoreOp) (s' : Store) : Prop :=
  s'.desc = s.desc ∧ ∃ W, s'.Inv W ∧
    ((W []).edges ⊆ (V []).edges ∨ ∃ g t h name cflag f, op = .agedge g t h name cflag ∧
        s.makesEdge c g t h name cflag = true ∧ f.tail = t ∧ f.head = h ∧
        (W []).edges = insert f (V []).edges)

namespace Store

variable {s s' : Store} {V : Views} {p : GPath} {n : Agnode} {e : Agedge} {c : Cdt}

theorem KeepsEdges.stepped {op : StoreOp} (h : s.KeepsEdges V s') : s.Stepped c V op s' := by
  obtain ⟨hk, W, hW, he⟩ := h
  exact ⟨hk.desc, W, hW, .inl he.le⟩

theorem Inv.hasEnds_iff (h : s.Inv V) (hp : s.Live p) {t hd : Agnode} (ht : t ∈ (V []).nodes)
    (hh : hd ∈ (V []).nodes) : s.HasEnds p t hd ↔ t ∈ (V p).nodes ∧ hd ∈ (V p).nodes := by
  rw [HasEnds, h.agsubrep_isSome hp ht, h.agsubrep_isSome hp hh]

/-- An operation keeps the invariant, or a sequence number overflows. -/
theorem Inv.step (h : s.Inv V) (c : Cdt) {op : StoreOp} (hargs : op.Args s)
    (hends : op.EndsIn c s) : Meets (s.step c op) (s.Stepped c V op) s.Overflows := by
  have mem_root : ∀ n, n ∈ (s.graphs []).nSeq ↔ n ∈ (V []).nodes := fun n =>
    h.mem_nSeq (p := []) trivial
  have edge_root : ∀ e, (s.graphs []).HasEdge e ↔ e ∈ (V []).edges := fun e =>
    h.hasEdge_iff (p := []) trivial
  cases op with
  | agsubg g name cflag =>
    exact (h.agsubg hargs name cflag).bind fun r ⟨hd, W, hW, he⟩ => ⟨hd, W, hW, .inl he.le⟩
  | agnode g name cflag =>
    exact (h.agnode hargs name cflag).bind fun r hr => KeepsEdges.stepped hr
  | agsubnode g n cflag =>
    obtain ⟨hg, hn⟩ := hargs
    rw [mem_root] at hn
    cases cflag with
    | true =>
      refine (h.agsubnode hg hn).bind fun r ⟨_, hf, hr⟩ => ⟨hf.keeps.desc, _, hr, .inl ?_⟩
      rw [Views.above_of_suffix nil_suffix, View.addNode_of_mem hn]
    | false =>
      have stay : s.Stepped c V (.agsubnode g n false) s := h.keepsEdges.stepped
      obtain ⟨hr, -⟩ | ⟨hr, -⟩ := agsubnode_false h.distinct hn hg h.shows
      · rw [Store.step, hr]
        exact stay
      · rw [Store.step, hr]
        exact stay
  | agedge g t hd name cflag =>
    obtain ⟨hg, ht, hh⟩ := hargs
    rw [mem_root] at ht hh
    refine (h.agedge hg ht hh c name cflag fun hold =>
      (h.hasEnds_iff hg ht hh).1 (hends hold)).bind fun r hr => ?_
    obtain hr | ⟨hmk, hk, W, f, hW, hft, hfh, he⟩ := hr
    · exact hr.stepped
    · exact ⟨hk.desc, W, hW, .inr ⟨g, t, hd, name, cflag, f, rfl, hmk, hft, hfh, he⟩⟩
  | agsubedge g e cflag =>
    obtain ⟨hg, he⟩ := hargs
    rw [edge_root] at he
    exact (h.agsubedge hg he c cflag).bind fun r hr => hr.stepped
  | agidedge g t hd id cflag =>
    obtain ⟨hg, ht, hh⟩ := hargs
    rw [mem_root] at ht hh
    exact (h.agidedge hg ht hh c id cflag fun hold =>
      (h.hasEnds_iff hg ht hh).1 (hends hold)).bind fun r hr => hr.stepped
  | agdeledge g e =>
    obtain ⟨hg, he⟩ := hargs
    rw [edge_root] at he
    refine (h.agdeledge hg he c).bind fun r ⟨hk, hr⟩ => ⟨hk.desc, _, hr, .inl ?_⟩
    by_cases hroot : g <:+ []
    · rw [Views.below_of_suffix hroot]
      exact View.delEdge_sub.edges
    · rw [Views.below_of_not_suffix hroot]
  | agdelnode g n =>
    obtain ⟨hg, hn⟩ := hargs
    rw [mem_root] at hn
    refine (h.agdelnode hg hn c).bind fun r ⟨hk, hr⟩ => ⟨hk.desc, _, hr, .inl ?_⟩
    by_cases hroot : g <:+ []
    · rw [Views.below_of_suffix hroot]
      exact View.delNode_sub.edges
    · rw [Views.below_of_not_suffix hroot]
  | agclose id par =>
    refine (agclose_meets c s.depth id par s V h hargs le_rfl (by rw [depth]; omega)).imp
      fun s' ⟨W, hW, hcl⟩ => ⟨hcl.desc, W, hW, .inl ?_⟩
    rw [hcl.views [] fun hs => cons_ne_nil id par (suffix_nil.1 hs)]

/-- `agedge` and `agidedge` follow a null pointer where the end points are missing. -/
theorem Inv.step_segfault (h : s.Inv V) (c : Cdt) {op : StoreOp} (hargs : op.Args s)
    (hends : ¬ op.EndsIn c s) : s.step c op = .error .segfault := by
  have mem_root : ∀ n, n ∈ (s.graphs []).nSeq ↔ n ∈ (V []).nodes := fun n =>
    h.mem_nSeq (p := []) trivial
  cases op with
  | agedge g t hd name cflag =>
    obtain ⟨hg, ht, hh⟩ := hargs
    rw [mem_root] at ht hh
    obtain ⟨hold, hno⟩ := Classical.not_imp.1 hends
    rw [h.hasEnds_iff hg ht hh] at hno
    rw [Store.step, h.agedge_segfault hg ht hh c name cflag hold hno]
    rfl
  | agidedge g t hd id cflag =>
    obtain ⟨hg, ht, hh⟩ := hargs
    rw [mem_root] at ht hh
    obtain ⟨hold, hno⟩ := Classical.not_imp.1 hends
    rw [h.hasEnds_iff hg ht hh] at hno
    rw [Store.step, h.agidedge_segfault hg ht hh c id cflag hold hno]
    rfl
  | _ => exact absurd trivial hends

/-! ## Runs -/

/-- A run of operations whose arguments belong to the root graph, each a step that `ok` admits
whichever edges the searches pick. -/
inductive Run (ok : Cdt → Store → StoreOp → Prop) (s : Store) : List StoreOp → Store → Prop
  | nil : Run ok s [] s
  | snoc (ops) {s' s'' op} (c : Cdt) : Run ok s ops s' → op.Args s' → ok c s' op →
      s'.step c op = .ok s'' → Run ok s (ops ++ [op]) s''

theorem Run.imp {ok ok' : Cdt → Store → StoreOp → Prop} {s₀ : Store} {ops : List StoreOp}
    (hrun : Run ok s₀ ops s) (h : ∀ c s op, ok c s op → ok' c s op) : Run ok' s₀ ops s := by
  induction hrun with
  | nil => exact .nil
  | snoc ops c _ hargs hok hstep ih => exact .snoc ops c ih hargs (h _ _ _ hok) hstep

/-- A store as `agopen` leaves it satisfies the invariant. -/
theorem Inv.agopen (desc : Agdesc) (name : Option CStr) :
    (agopen desc name).Inv fun _ => .empty := by
  obtain ⟨id, counter, imap, hm, hfr, -⟩ := agmapnametoid_true
    { desc := desc, graphs := fun _ => .empty, counter := 0, seqGraph := 0, seqNode := 0
      seqEdge := 0, imap := [] } .AGRAPH name
  have hfresh := (hfr .empty ⟨fun n hn => hn.elim, fun e he => he.elim, fun n hn => hn.elim,
    fun e he => he.elim, fun ent hent => by cases hent⟩).1
  rw [Store.agopen, hm]
  refine ⟨⟨fun q _ => .empty, fun q _ => .refl _, fun q _ =>
    ⟨fun f hf => hf.elim, fun f hf => hf.elim⟩⟩, fun id q _ => .refl _,
    ⟨fun n hn => hn.elim, fun n hn => hn.elim, fun e he => he.elim, fun e he => he.elim,
      fun e he => he.elim, fun e he => he.elim⟩, fun q hq => ?_, hfresh⟩
  cases q with
  | nil => exact ⟨le_rfl, nodup_nil⟩
  | cons id q => cases hq.2

/-- Every run keeps the invariant. An operation that returns had its end points. -/
theorem Run.inv {ok : Cdt → Store → StoreOp → Prop} {desc : Agdesc} {name : Option CStr}
    {ops : List StoreOp} (hrun : Run ok (agopen desc name) ops s) : ∃ V, s.Inv V := by
  induction hrun with
  | nil => exact ⟨_, Inv.agopen desc name⟩
  | snoc ops c _ hargs _ hstep ih =>
    obtain ⟨V, hV⟩ := ih
    have hends := by_contra fun hends => by
      rw [hV.step_segfault c hargs hends] at hstep
      cases hstep
    obtain ⟨-, W, hW, -⟩ := (hV.step c hargs hends).of_ok hstep
    exact ⟨W, hW⟩

/-- After every run of operations the store is hierarchical. The next operation returns a
hierarchical store, or a sequence number overflows, when `agedge` and `agidedge` find the end
points of the edges they install; otherwise it follows a null pointer. -/
theorem run_hierarchical (desc : Agdesc) (name : Option CStr) {ops : List StoreOp}
    (hrun : Run StoreOp.EndsIn (agopen desc name) ops s) :
    s.Hierarchical ∧ ∀ c op, op.Args s →
      (op.EndsIn c s → Meets (s.step c op) Hierarchical s.Overflows) ∧
      (¬ op.EndsIn c s → s.step c op = .error .segfault) := by
  obtain ⟨V, hV⟩ := hrun.inv
  refine ⟨hV.hierarchical, fun c op hargs => ⟨fun hends => ?_, hV.step_segfault c hargs⟩⟩
  exact (hV.step c hargs hends).imp fun s' ⟨_, W, hW, _⟩ => hW.hierarchical

end Store

/-- A search that returns the first match. -/
def Cdt.first : Cdt where
  pick := head?
  pick_mem _ _ h := mem_of_mem_head? h
  pick_none _ h := head?_eq_none_iff.1 h

/-- The first two nodes of a graph, named `a` and `b`. -/
def nodeA : Agnode := { id := .named [97], seq := 1 }

@[inherit_doc nodeA]
def nodeB : Agnode := { id := .named [98], seq := 2 }

/-- The first edge of a graph, from `a` to `b` with the key `k`. -/
def edgeAB : Agedge := { tail := nodeA, head := nodeB, id := .named [107], seq := 1 }

namespace Store

/-- The record of a graph with the nodes `a` and `b`, the edge between them and a subgraph
`s`. -/
def recordAB : Agraph where
  nId :=
    [{ node := nodeA, inSeq := [], outSeq := [edgeAB], inId := [], outId := [edgeAB] },
      { node := nodeB, inSeq := [edgeAB], outSeq := [], inId := [edgeAB], outId := [] }]
  nSeq := [nodeA, nodeB]
  subgs := [.named [115]]

/-- The operations that open a subgraph `s` of a graph and make the nodes and the edge of
`recordAB` in the graph. -/
def makeAB : List StoreOp :=
  [.agsubg [] (some [115]) true, .agnode [] (some [97]) true, .agnode [] (some [98]) true,
    .agedge [] nodeA nodeB (some [107]) true]

/-- The store that `makeAB` leaves. -/
theorem run_makeAB :
    ∃ s, Run StoreOp.EndsIn (agopen ⟨true, false, false⟩ none) makeAB s ∧
      s.graphs [] = recordAB ∧ s.graphs [.named [115]] = .empty ∧ s.imap = [] :=
  ⟨_, .snoc [_, _, _] .first (.snoc [_, _] .first (.snoc [_] .first (.snoc [] .first .nil
    trivial trivial rfl) trivial trivial rfl) trivial trivial rfl)
    ⟨trivial, by decide, by decide⟩ (fun h => absurd rfl h) rfl, rfl, rfl, rfl⟩

/-- The store that `makeAB` leaves is hierarchical. -/
theorem run_hierarchical_makeAB :
    ∃ s, Run StoreOp.EndsIn (agopen ⟨true, false, false⟩ none) makeAB s ∧ s.Hierarchical := by
  obtain ⟨s, hs, -⟩ := run_makeAB
  exact ⟨s, hs, (run_hierarchical _ _ hs).1⟩

/-- Asked for the edge in the subgraph, which is empty, `agedge` follows the null image of
`a`. -/
theorem agedge_in_empty_subgraph :
    ∃ s, Run (fun _ _ _ => True) (agopen ⟨true, false, false⟩ none) makeAB s ∧
      (StoreOp.agedge [.named [115]] nodeA nodeB (some [107]) true).Args s ∧
      s.step .first (.agedge [.named [115]] nodeA nodeB (some [107]) true) =
        .error .segfault := by
  obtain ⟨s, hs, hroot, hsub, himap⟩ := run_makeAB
  obtain ⟨V, hV⟩ := hs.inv
  have hargs : (StoreOp.agedge [.named [115]] nodeA nodeB (some [107]) true).Args s := by
    refine ⟨⟨trivial, ?_⟩, ?_, ?_⟩ <;> rw [hroot] <;> decide
  refine ⟨s, hs.imp fun _ _ _ _ => trivial, hargs, hV.step_segfault .first hargs fun hends => ?_⟩
  have hnone : (s.graphs [.named [115]]).agsubrep nodeA = none := by rw [hsub]; rfl
  have hlocal : s.probe .first [.named [115]] nodeA nodeB (some (.named [107])) = none := by
    rw [probe, hsub]
    split
    · rename_i hf
      cases hf
    · split <;> rfl
  have hold : s.probe .first [] nodeA nodeB (some (.named [107])) = some edgeAB := by
    rw [probe, hroot]
    rfl
  have := (hends (by
    show (if _ then _ else _) ≠ none
    rw [if_pos ⟨rfl, rfl, hlocal⟩]
    exact fun h => Option.some_ne_none edgeAB (hold.symm.trans h))).1
  rw [hnone] at this
  cases this

end Store

end Graphviz

/-!
## Strict graphs

A strict graph is to have at most one edge between two nodes. `ok_to_make_edge` looks for one
in the given subgraph and in the given orientation only, so a call of `agedge` with a key may
make a second edge in an undirected graph or through a subgraph; the calls without a key, and
those on the root of a digraph, do not.
-/

namespace Graphviz

open Outcome

/-- Every graph has at most one edge from one node to another, and at most one between two
nodes in an undirected graph. -/
def Store.OneEdge (s : Store) : Prop :=
  ∀ p, s.Live p → ∀ t h e f, (s.graphs p).HasEdge e → (s.graphs p).HasEdge f →
    s.Connects t h e → s.Connects t h f → e = f

/-- Where `agedge` makes an edge with a key in a subgraph or in an undirected graph, the root
has none between the two nodes. -/
def StoreOp.NoneInRoot (c : Cdt) (s : Store) : StoreOp → Prop
  | .agedge g t h name cflag => name ≠ none → (g ≠ [] ∨ s.desc.directed = false) →
      s.makesEdge c g t h name cflag = true → s.probe c [] t h none = none
  | _ => True

namespace Store

variable {s s' : Store} {V W : Views} {c : Cdt} {t hd : Agnode} {e f : Agedge}

/-- Two edges that connect one pair of nodes connect the same pairs. -/
theorem Connects.of_new (hf : s.Connects t hd f) (he : s.Connects t hd e) :
    s.Connects f.tail f.head e := by
  obtain ⟨rfl, rfl⟩ | ⟨hd', rfl, rfl⟩ := hf
  · exact he
  · obtain ⟨h1, h2⟩ | ⟨_, h1, h2⟩ := he
    · exact .inr ⟨hd', h1, h2⟩
    · exact .inl ⟨h1, h2⟩

/-- When `agedge` makes an edge in a strict graph, the root has none between the two nodes. -/
theorem makesEdge_probe (hs : s.desc.strict = true) {g : GPath} {name : Option CStr}
    {cflag : Bool} (hmakes : s.makesEdge c g t hd name cflag = true)
    (hok : (StoreOp.agedge g t hd name cflag).NoneInRoot c s) : s.probe c [] t hd none = none := by
  obtain ⟨hcf, hprobe, hmake⟩ := of_decide_eq_true hmakes
  by_cases hname : name = none
  · -- without a key a strict graph is probed with a wildcard
    subst hname
    have hp : s.probes none cflag = true := decide_eq_true (.inr ⟨rfl, .inr hs⟩)
    exact (hprobe hp).2
  · by_cases hg : g ≠ [] ∨ s.desc.directed = false
    · exact hok hname hg hmakes
    · -- on the root of a digraph `ok_to_make_edge` has looked everywhere
      have hroot : g = [] := by
        by_contra hne
        exact hg (.inl hne)
      have hdir : s.desc.directed = true := by
        cases hd' : s.desc.directed with
        | true => rfl
        | false => exact absurd (.inr hd') hg
      subst hroot
      have hfind := (of_decide_eq_true hmake).1
      have hnone : (s.graphs []).agfindedgeByKey c t hd none = none := by
        cases hf : (s.graphs []).agfindedgeByKey c t hd none with
        | none => rfl
        | some e => exact absurd ⟨hs, by rw [hf]; rfl⟩ hfind
      rw [probe, hnone]
      dsimp only
      rw [if_pos hdir]

/-- One step keeps the root's edges apart. -/
theorem Inv.step_oneEdge (h : s.Inv V) (hs : s.desc.strict = true) {op : StoreOp}
    (hargs : op.Args s) (hok : op.NoneInRoot c s)
    (hone : ∀ t hd e f, e ∈ (V []).edges → f ∈ (V []).edges → s.Connects t hd e →
      s.Connects t hd f → e = f) (hstep : s.step c op = .ok s') :
    s'.desc = s.desc ∧ ∃ W, s'.Inv W ∧ ∀ t hd e f, e ∈ (W []).edges → f ∈ (W []).edges →
      s'.Connects t hd e → s'.Connects t hd f → e = f := by
  have hends : op.EndsIn c s := by
    by_contra hends
    rw [h.step_segfault c hargs hends] at hstep
    cases hstep
  obtain ⟨hdesc, W, hW, hedges⟩ := (h.step c hargs hends).of_ok hstep
  have hconn : ∀ t hd e, s'.Connects t hd e ↔ s.Connects t hd e := by
    intro t hd e
    rw [Connects, Connects, hdesc]
  refine ⟨hdesc, W, hW, fun t hd e f he hf hce hcf => ?_⟩
  rw [hconn] at hce hcf
  obtain hsub | ⟨g, t', hd', name, cflag, new, rfl, hmakes, rfl, rfl, hins⟩ := hedges
  · exact hone t hd e f (hsub he) (hsub hf) hce hcf
  · have hprobe := makesEdge_probe hs hmakes hok
    -- no old edge connects the ends of the new one
    have hold : ∀ x ∈ (V []).edges, ¬ s.Connects new.tail new.head x := fun x hx hcx =>
      h.of_probe_none (p := []) trivial hprobe hx hcx fun id hid => by cases hid
    rw [hins] at he hf
    rcases he with rfl | he <;> rcases hf with rfl | hf
    · rfl
    · exact absurd (hce.of_new hcf) (hold f hf)
    · exact absurd (hcf.of_new hce) (hold e he)
    · exact hone t hd e f he hf hce hcf

/-- A run in a strict graph keeps at most one edge between two nodes, in the root and in every
subgraph. -/
theorem run_oneEdge {desc : Agdesc} (hstrict : desc.strict = true) (name : Option CStr)
    {ops : List StoreOp} (hrun : Run StoreOp.NoneInRoot (agopen desc name) ops s) : s.OneEdge := by
  have hinv : s.desc = desc ∧ ∃ V, s.Inv V ∧ ∀ t hd e f, e ∈ (V []).edges → f ∈ (V []).edges →
      s.Connects t hd e → s.Connects t hd f → e = f := by
    induction hrun with
    | nil =>
      refine ⟨?_, _, Inv.agopen desc name, fun t hd e f he => he.elim⟩
      obtain ⟨id, counter, imap, hm, -, -⟩ := agmapnametoid_true
        { desc := desc, graphs := fun _ => .empty, counter := 0, seqGraph := 0, seqNode := 0
          seqEdge := 0, imap := [] } .AGRAPH name
      rw [agopen, hm]
    | snoc ops c _ hargs hok hstep ih =>
      obtain ⟨hdesc, V, hV, hone⟩ := ih
      obtain ⟨hdesc', hW⟩ := hV.step_oneEdge (hdesc ▸ hstrict) hargs hok hone hstep
      exact ⟨hdesc'.trans hdesc, hW⟩
  obtain ⟨-, V, hV, hone⟩ := hinv
  intro p hp t hd e f he hf hce hcf
  rw [hV.hasEdge_iff hp] at he hf
  exact hone t hd e f ((hV.hier.root hp).edges he) ((hV.hier.root hp).edges hf) hce hcf

/-- Making the nodes `a` and `b` and the edge from `a` to `b` with the key `k`. -/
def makeStrict : List StoreOp :=
  [.agnode [] (some [97]) true, .agnode [] (some [98]) true,
    .agedge [] nodeA nodeB (some [107]) true]

/-- The first edge with a key in a strict graph. -/
theorem run_oneEdge_makeStrict :
    ∃ s, Run StoreOp.NoneInRoot (agopen ⟨false, true, false⟩ none) makeStrict s ∧ s.OneEdge := by
  have hrun : ∃ s, Run StoreOp.NoneInRoot (agopen ⟨false, true, false⟩ none) makeStrict s :=
    ⟨_, .snoc [_, _] .first (.snoc [_] .first (.snoc [] .first .nil trivial trivial rfl)
      trivial trivial rfl) ⟨trivial, by decide, by decide⟩ (fun _ _ _ => rfl) rfl⟩
  obtain ⟨s, hs⟩ := hrun
  exact ⟨s, hs, run_oneEdge rfl none hs⟩

/-- The same edge in the other orientation, with another key, is a second edge between `a` and
`b` in a strict undirected graph. -/
theorem agedge_reversed_key :
    ∃ s, Run (fun _ _ _ => True) (agopen ⟨false, true, false⟩ none)
        (makeStrict ++ [.agedge [] nodeB nodeA (some [108]) true]) s ∧ ¬ s.OneEdge := by
  have hrun : ∃ s, Run (fun _ _ _ => True) (agopen ⟨false, true, false⟩ none)
      (makeStrict ++ [.agedge [] nodeB nodeA (some [108]) true]) s ∧ s.desc.directed = false ∧
      (s.graphs []).HasEdge edgeAB ∧
      (s.graphs []).HasEdge { tail := nodeB, head := nodeA, id := .named [108], seq := 2 } :=
    ⟨_, .snoc _ .first (.snoc [_, _] .first (.snoc [_] .first (.snoc [] .first .nil trivial
      trivial rfl) trivial trivial rfl) ⟨trivial, by decide, by decide⟩ trivial rfl)
      ⟨trivial, by decide, by decide⟩ trivial rfl, rfl, by decide, by decide⟩
  obtain ⟨s, hs, hdir, he, hf⟩ := hrun
  refine ⟨s, hs, fun hone => ?_⟩
  have := hone [] trivial nodeA nodeB _ _ he hf (.inl ⟨rfl, rfl⟩) (.inr ⟨hdir, rfl, rfl⟩)
  cases this

end Store

end Graphviz
