import Graphviz.Library.Instances
import Graphviz.Library.LowPoint
import Graphviz.Util.Fault
import Graphviz.Util.Numeral

/-!
# Biconnected components of a graph (`cmd/tools/bcomps.c`)

`dfs` searches the graph with low points and a stack of edges, and makes a subgraph of the graph for
each block, by a name. `addCutPts` joins the blocks to their cut points in a tree whose nodes have
the names of both. A subgraph is its place in the list of the subgraphs of the graph; the counters
do not overflow. The edges of the blocks (`graphviz_node_induce`), and what is written, are left
out.
-/

namespace Graphviz.Bcomps

open Function Outcome

variable {n : ℕ}

/-- An edge. Parallel edges have different numbers. -/
structure edge_t (n : ℕ) where
  agtail : Fin n
  aghead : Fin n
  seq : ℕ
  deriving DecidableEq

/-- An edge as it is found at one of its ends: an `AGOUTEDGE` at the tail, or an `AGINEDGE`. -/
structure half_t (n : ℕ) where
  edge : edge_t n
  isOut : Bool
  deriving DecidableEq

/-- A subgraph of the graph. The name of an anonymous one begins with `%`. -/
structure subg_t (n : ℕ) where
  name : CStr
  nodes : List (Fin n)
  deriving DecidableEq

/-- A graph: the edges that start and end at a node, the names, and the subgraphs. The nodes are
numbered in their order. -/
structure graph_t (n : ℕ) where
  out : Fin n → List (edge_t n)
  into : Fin n → List (edge_t n)
  name : CStr
  names : Fin n → CStr
  subgs : List (subg_t n)
  tail : ∀ u, ∀ e ∈ out u, e.agtail = u
  head : ∀ u, ∀ e ∈ into u, e.aghead = u
  out_iff_into : ∀ e, e ∈ out e.agtail ↔ e ∈ into e.aghead
  names_inj : Injective names

/-- The edges that `agfstedge` and `agnxtedge` find at a node: a loop only once. -/
def graph_t.edges (G : graph_t n) (u : Fin n) : List (half_t n) :=
  (G.out u).map (⟨·, true⟩) ++ ((G.into u).filter (·.agtail ≠ u)).map (⟨·, false⟩)

/-- What the search makes: the flags of the nodes, the number of blocks, the list of their
subgraphs, with the last one first, and the subgraphs of the graph. -/
structure Out (n : ℕ) where
  isCut : Fin n → Bool
  nComp : ℕ
  blks : List ℕ
  subgs : List (subg_t n)

/-- The state of the search: the counter, the fields of the nodes, the stack with its top first, and
what has been made. -/
structure State (n : ℕ) where
  count : ℕ
  low : Fin n → ℕ
  val : Fin n → ℕ
  stk : List (half_t n)
  out : Out n

/-- The block-cutpoint tree, a strict undirected graph. -/
structure tree_t where
  nodes : List CStr
  edges : List (CStr × CStr)
  deriving DecidableEq

/-! ## The search -/

/-- `blockName`. -/
def blockName (gname : CStr) (d : ℕ) : CStr :=
  if gname.head? = some 37 then lit "_" ++ gname ++ lit "_bcc_" ++ decimal d
  else gname ++ lit "_bcc_" ++ decimal d

/-- `agsubg`, in the graph: a subgraph with the name, or else a new one. -/
def agsubg (o : Out n) (name : CStr) : ℕ × Out n :=
  match o.subgs.findIdx? (·.name = name) with
  | some i => (i, o)
  | none => (o.subgs.length, { o with subgs := o.subgs ++ [⟨name, []⟩] })

attribute [local instance] Instances.lawfulBEq_fin Instances.lawfulBEq_bytes

/-- `agsubnode`, of a node of the graph. -/
def subg_t.agsubnode (sg : subg_t n) (v : Fin n) : subg_t n :=
  if v ∈ sg.nodes then sg else { sg with nodes := sg.nodes ++ [v] }

/-- `mkBlock`. -/
def mkBlock (G : graph_t n) (o : Out n) : ℕ × Out n :=
  let (sg, o) := agsubg { o with nComp := o.nComp + 1 } (blockName G.name (o.nComp + 1))
  (sg, { o with blks := sg :: o.blks })

/-- The ends of an edge become nodes of the subgraph. -/
def putEdge (sg : ℕ) (o : Out n) (ep : half_t n) : Out n :=
  { o with subgs := o.subgs.modify sg fun g =>
      (g.agsubnode ep.edge.aghead).agsubnode ep.edge.agtail }

/-- The loop of `dfs` that pops the edges of a block. -/
def popEdges (sg : ℕ) (e : half_t n) : List (half_t n) → Out n →
    Except Fault (List (half_t n) × Out n)
  | [], _ => .error .assertion
  | ep :: stk, o =>
    if ep = e then .ok (stk, putEdge sg o ep) else popEdges sg e stk (putEdge sg o ep)

/-- The low point of a node becomes at most the number. -/
def State.lower (s : State n) (u : Fin n) (k : ℕ) : State n :=
  { s with low := update s.low u (min (s.low u) k) }

/-- A block is made of the edges on the stack down to the one that is given. -/
def State.block (G : graph_t n) (s : State n) (u : Fin n) (e : half_t n) :
    Except Fault (State n) := do
  let (sg, out) := mkBlock G { s.out with isCut := update s.out.isCut u true }
  let (stk, out) ← popEdges sg e s.stk out
  .ok { s with stk, out }

/-- The body of the loop of `dfs` over the edges, with the call for a node that is new. -/
def dfsEdge (G : graph_t n)
    (dfs : State n → Fin n → Option (Fin n) → Except Fault (State n)) (u : Fin n)
    (parent : Option (Fin n)) (s : State n) (e : half_t n) : Except Fault (State n) :=
  let v := if e.edge.aghead = u then e.edge.agtail else e.edge.aghead
  if v = u then .ok s
  else if s.val v = 0 then do
    let s ← dfs { s with stk := e :: s.stk } v (some u)
    let s := s.lower u (s.low v)
    if s.low v ≥ s.val u then s.block G u e else .ok s
  else if parent ≠ some v then
    let s := s.lower u (s.val v)
    .ok (if s.val v < s.val u then { s with stk := e :: s.stk } else s)
  else .ok s

/-- `dfs`, to a depth of at most the second argument. -/
def dfs (G : graph_t n) : ℕ → State n → Fin n → Option (Fin n) → Except Fault (State n)
  | 0, _, _, _ => .error .fuel
  | d + 1, s, u, parent => (G.edges u).foldlM (dfsEdge G (dfs G d) u parent)
      { s with count := s.count + 1
               low := update s.low u (s.count + 1)
               val := update s.val u (s.count + 1) }

/-! ## The tree -/

/-- `agnode`, in the tree. -/
def tree_t.agnode (t : tree_t) (name : CStr) : tree_t :=
  if name ∈ t.nodes then t else { t with nodes := t.nodes ++ [name] }

/-- `agedge`, in the tree: an edge that is there already, either way, is not made again. -/
def tree_t.agedge (t : tree_t) (a b : CStr) : tree_t :=
  if (a, b) ∈ t.edges ∨ (b, a) ∈ t.edges then t else { t with edges := t.edges ++ [(a, b)] }

/-- The nodes of a subgraph, as `agfstnode` and `agnxtnode` go through them. -/
def subg_t.nodesOf (sg : subg_t n) : List (Fin n) :=
  (List.finRange n).filter (· ∈ sg.nodes)

/-- The body of the loop of `addCutPts`. -/
def addCutPt (G : graph_t n) (o : Out n) (bn : CStr) (t : tree_t) (v : Fin n) : tree_t :=
  if o.isCut v then (t.agnode (G.names v)).agedge bn (G.names v) else t

/-- `addCutPts`. -/
def addCutPts (G : graph_t n) (o : Out n) (t : tree_t) (blk : subg_t n) : tree_t :=
  blk.nodesOf.foldl (addCutPt G o blk.name) (t.agnode blk.name)

/-- The subgraphs in the list of blocks. -/
def Out.blocks (o : Out n) : List (subg_t n) :=
  o.blks.filterMap (o.subgs[·]?)

/-- The tree that `process` makes with the option `-t`. -/
def blkcut_tree (G : graph_t n) (o : Out n) : tree_t :=
  o.blocks.foldl (addCutPts G o) ⟨[], []⟩

/-! ## A graph -/

/-- The body of the first loop of `process`. -/
def processNode (G : graph_t n) (s : State n) (v : Fin n) : Except Fault (State n) :=
  if s.val v = 0 then dfs G (n + 1) s v none else .ok s

/-- What there is before the search. -/
def Out.start (G : graph_t n) : Out n :=
  ⟨fun _ => false, 0, [], G.subgs⟩

/-- `process`: what the search makes, the tree, and whether there are two blocks. -/
def process (G : graph_t n) : Except Fault (Out n × tree_t × Bool) := do
  let s ← (List.finRange n).foldlM (processNode G)
    ⟨0, fun _ => 0, fun _ => 0, [], Out.start G⟩
  .ok (s.out, blkcut_tree G s.out, 2 ≤ s.out.blks.length)

end Graphviz.Bcomps

/-!
## The search of `bcomps` finds the blocks

What the search makes of the blocks does not change the way that it goes: it is the search of the
library, and for each block that this finds a subgraph is made, one after another.
-/

namespace Graphviz.Bcomps

open Function List Outcome

variable {n : ℕ} {G : graph_t n} {s s' : State n} {o : Out n} {u v : Fin n} {e : half_t n}
  {c c' : LowPoint.State (Fin n) (half_t n)} {parent : Option (Fin n)} {d : ℕ}

/-- The end of an edge at which it is found. -/
def half_t.src (e : half_t n) : Fin n :=
  if e.isOut then e.edge.agtail else e.edge.aghead

/-- The other end of an edge. -/
def half_t.dst (e : half_t n) : Fin n :=
  if e.isOut then e.edge.aghead else e.edge.agtail

theorem mem_edges : e ∈ G.edges u ↔ e.isOut ∧ e.edge ∈ G.out u ∨
    ¬e.isOut ∧ e.edge ∈ G.into u ∧ e.edge.agtail ≠ u := by
  rw [graph_t.edges, mem_append, mem_map, mem_map]
  obtain ⟨e, _ | _⟩ := e
  · simp [mem_filter]
  · simp

theorem src_of_mem (he : e ∈ G.edges u) : e.src = u := by
  rw [half_t.src]
  obtain ⟨hout, hmem⟩ | ⟨hout, hmem, -⟩ := mem_edges.1 he
  · rw [if_pos hout]
    exact G.tail u _ hmem
  · rw [if_neg hout]
    exact G.head u _ hmem

/-- The way in which `dfs` finds the other end. -/
theorem dst_of_mem (he : e ∈ G.edges u) :
    (if e.edge.aghead = u then e.edge.agtail else e.edge.aghead) = e.dst := by
  rw [half_t.dst]
  obtain ⟨hout, hmem⟩ | ⟨hout, hmem, -⟩ := mem_edges.1 he
  · rw [if_pos hout, G.tail u _ hmem]
    split
    next heq => exact heq.symm
    next => rfl
  · rw [if_neg hout, if_pos (G.head u _ hmem)]

theorem exists_reverse (he : e ∈ G.edges u) : ∃ e' ∈ G.edges e.dst, e'.dst = u := by
  rw [half_t.dst]
  obtain ⟨hout, hmem⟩ | ⟨hout, hmem, hne⟩ := mem_edges.1 he
  · have htail := G.tail u _ hmem
    rw [if_pos hout]
    obtain heq | hne := eq_or_ne e.edge.aghead u
    · exact ⟨e, heq.symm ▸ he, by rw [half_t.dst, if_pos hout, heq]⟩
    · refine ⟨⟨e.edge, false⟩, mem_edges.2 (Or.inr ⟨Bool.false_ne_true, ?_, ?_⟩), htail⟩
      · exact (G.out_iff_into e.edge).1 (htail.symm ▸ hmem)
      · exact fun heq => hne (heq.symm.trans htail)
  · have hhead := G.head u _ hmem
    rw [if_neg hout]
    refine ⟨⟨e.edge, true⟩, mem_edges.2 (Or.inl ⟨rfl, ?_⟩), hhead⟩
    exact (G.out_iff_into e.edge).2 (hhead.symm ▸ hmem)

/-- The edges of the graph as they are found at the nodes. -/
def graph_t.incidence (G : graph_t n) : LowPoint.Incidence (Fin n) (half_t n) :=
  ⟨G.edges, half_t.src, half_t.dst, fun _ _ => src_of_mem, fun _ _ => exists_reverse⟩

/-! ## What is made for a block -/

/-- What is made for a block: the flag of the node that separates it, and a subgraph. -/
def report (G : graph_t n) (o : Out n) (b : List (half_t n) × Fin n) : Out n :=
  let (sg, o) := mkBlock G { o with isCut := update o.isCut b.2 true }
  b.1.foldl (putEdge sg) o

/-- What is made for blocks one after another. -/
def reports (G : graph_t n) (bs : List (List (half_t n) × Fin n)) : Out n :=
  bs.foldl (report G) (Out.start G)

theorem reports_concat (bs : List (List (half_t n) × Fin n)) (b : List (half_t n) × Fin n) :
    reports G (bs ++ [b]) = report G (reports G bs) b :=
  foldl_concat _ _ _ _

theorem popEdges_eq {sg : ℕ} (stk : List (half_t n)) (o : Out n) (e : half_t n) :
    ∀ {a rest}, stk.dropWhile (· ≠ e) = a :: rest →
      popEdges sg e stk o = .ok (rest, (stk.takeWhile (· ≠ e) ++ [e]).foldl (putEdge sg) o) := by
  intro a rest h
  induction stk generalizing o with
  | nil => exact nomatch h
  | cons ep stk ih =>
    rw [popEdges]
    split
    next heq =>
      subst heq
      rw [dropWhile_cons_of_neg (by simp)] at h
      rw [takeWhile_cons_of_neg (by simp), (List.cons.inj h).2]
      rfl
    next hne =>
      rw [dropWhile_cons_of_pos (by simpa using hne)] at h
      rw [takeWhile_cons_of_pos (by simpa using hne), ih _ h]
      rfl

/-! ## The two searches -/

/-- The state of the search that goes with one of the library: what has been made is what is made
for the blocks so far. -/
def view (G : graph_t n) (c : LowPoint.State (Fin n) (half_t n)) : State n :=
  ⟨c.count, c.low, c.num, c.stack, reports G c.blocks⟩

theorem block_eq {a : half_t n} {rest : List (half_t n)} (h : s.stk.dropWhile (· ≠ e) = a :: rest) :
    s.block G u e = .ok { s with
      stk := rest, out := report G s.out (s.stk.takeWhile (· ≠ e) ++ [e], u) } := by
  rw [State.block, report]
  generalize mkBlock G { s.out with isCut := update s.out.isCut u true } = p
  obtain ⟨sg, out⟩ := p
  change (popEdges sg e s.stk out >>= _) = _
  rw [popEdges_eq s.stk out e h]
  rfl

theorem block_view (h : c.close u e = some c') : (view G c).block G u e = .ok (view G c') := by
  rw [LowPoint.State.close] at h
  split at h
  · cases h
  next a stack hdrop =>
    obtain rfl := Option.some.inj h
    rw [block_eq (s := view G c) hdrop, view, view, reports_concat]

/-- The bodies of the two loops. -/
theorem dfsEdge_view (he : e ∈ G.edges u)
    (hcall : ∀ {c c' : LowPoint.State (Fin n) (half_t n)} {v : Fin n} {parent : Option (Fin n)},
      LowPoint.dfs G.incidence d c parent v = some c' →
        dfs G d (view G c) v parent = .ok (view G c'))
    (hrun : LowPoint.step G.incidence (LowPoint.dfs G.incidence d) parent u c e = some c') :
    dfsEdge G (dfs G d) u parent (view G c) e = .ok (view G c') := by
  rw [LowPoint.step] at hrun
  change (if e.dst = u then _ else if c.num e.dst = 0 then _ else
    if parent ≠ some e.dst then _ else _) = _ at hrun
  rw [dfsEdge, dst_of_mem he]
  change (if e.dst = u then _ else if c.num e.dst = 0 then _ else
    if parent ≠ some e.dst then _ else _) = _
  split at hrun
  next heq =>
    rw [if_pos heq, Option.some.inj hrun]
  next hne =>
    rw [if_neg hne]
    split at hrun
    next hzero =>
      obtain ⟨c1, hdfs, hrun⟩ := Option.bind_eq_some_iff.1 hrun
      have hdfs' : dfs G d (view G (c.push e)) e.dst (some u) = .ok (view G c1) := hcall hdfs
      rw [if_pos hzero]
      change (dfs G d (view G (c.push e)) e.dst (some u) >>= _) = _
      rw [hdfs', ok_bind]
      change (if c1.num u ≤ (c1.lower u (c1.low e.dst)).low e.dst then _ else _) = _ at hrun
      change (if c1.num u ≤ (c1.lower u (c1.low e.dst)).low e.dst then _ else _) = _
      split at hrun
      next hle => rw [if_pos hle]; exact block_view hrun
      next hlt => rw [if_neg hlt, ← Option.some.inj hrun]; rfl
    next hmet =>
      rw [if_neg hmet]
      split at hrun
      next hparent =>
        rw [if_pos hparent, ← Option.some.inj hrun]
        refine congrArg Except.ok ?_
        change (if c.num e.dst < c.num u then _ else _) =
          view G (if c.num e.dst < c.num u then _ else _)
        split <;> rfl
      next hparent => rw [if_neg hparent, Option.some.inj hrun]

/-- The two searches from a node go the same way. -/
theorem dfs_view (hrun : LowPoint.dfs G.incidence d c parent u = some c') :
    dfs G d (view G c) u parent = .ok (view G c') := by
  induction d generalizing c c' u parent with
  | zero => exact nomatch hrun
  | succ d ih =>
    have hloop : ∀ (es : List (half_t n)) (c c' : LowPoint.State (Fin n) (half_t n)),
        (∀ e ∈ es, e ∈ G.edges u) →
        es.foldlM (LowPoint.step G.incidence (LowPoint.dfs G.incidence d) parent u) c = some c' →
        es.foldlM (dfsEdge G (dfs G d) u parent) (view G c) = .ok (view G c') := by
      intro es
      induction es with
      | nil =>
        intro c c' _ h
        rw [← Option.some.inj h]
        rfl
      | cons e es ihes =>
        intro c c' hes h
        rw [foldlM_cons] at h ⊢
        obtain ⟨c1, hstep, h⟩ := Option.bind_eq_some_iff.1 h
        rw [dfsEdge_view (hes e mem_cons_self) ih hstep]
        exact ihes c1 c' (fun e' he' => hes e' (mem_cons_of_mem e he')) h
    exact hloop (G.edges u) _ _ (fun e he => he) hrun

/-- The search of `process` makes what is made for the blocks that the search of the library
finds. -/
theorem process_eq (G : graph_t n) :
    ∃ c, LowPoint.Found G.incidence (finRange n) c ∧
      process G = .ok (reports G c.blocks, blkcut_tree G (reports G c.blocks),
        2 ≤ (reports G c.blocks).blks.length) := by
  have hcard : Fintype.card (Fin n) < n + 1 := (Fintype.card_fin n).trans_lt (Nat.lt_succ_self n)
  obtain ⟨c, hrun, hfound⟩ :=
    LowPoint.search_spec (I := G.incidence) hcard fun v => mem_finRange v
  refine ⟨c, hfound, ?_⟩
  have hloop : ∀ (vs : List (Fin n)) (c c' : LowPoint.State (Fin n) (half_t n)),
      vs.foldlM (LowPoint.resume G.incidence (n + 1)) c = some c' →
      vs.foldlM (processNode G) (view G c) = .ok (view G c') := by
    intro vs
    induction vs with
    | nil =>
      intro c c' h
      rw [← Option.some.inj h]
      rfl
    | cons v vs ih =>
      intro c c' h
      rw [foldlM_cons] at h ⊢
      obtain ⟨c1, hstep, h⟩ := Option.bind_eq_some_iff.1 h
      have hnode : processNode G (view G c) v = .ok (view G c1) := by
        rw [LowPoint.resume] at hstep
        rw [processNode]
        change (if c.num v = 0 then _ else _) = _
        split at hstep
        next hzero => rw [if_pos hzero, dfs_view hstep]
        next hmet => rw [if_neg hmet, Option.some.inj hstep]
      rw [hnode]
      exact ih c1 c' h
  have hstart : view G ⟨0, fun _ => 0, fun _ => 0, [], []⟩ =
      ⟨0, fun _ => 0, fun _ => 0, [], Out.start G⟩ := rfl
  rw [process, ← hstart, hloop _ _ _ hrun]
  rfl

end Graphviz.Bcomps
