import Graphviz.Util.Fault
import Graphviz.Util.Libc

/-!
# The layout skeleton of a block (`circogen/blockpath.c`)

`remove_pair_edges` takes the nodes of a copy of the block away, one of the smallest degree after
another. Two neighbours of the node that are joined by an edge lose this edge in the skeleton, and
other neighbours are joined in the copy. The nodes are numbered in their order, and `addr` stands
for the addresses of the nodes of the copy, which are compared. Names, records and the counters of
the copies are left out.
-/

namespace Graphviz.Circogen

open Function

variable {n : ℕ}

/-! ## Graphs -/

/-- An edge, with its sequence number. -/
structure edge_t (n : ℕ) where
  agtail : Fin n
  aghead : Fin n
  seq : ℕ
  deriving DecidableEq

/-- The edges of an undirected graph with the nodes `Fin n`, in the order of their sequence
numbers. -/
structure graph_t (n : ℕ) where
  edges : List (edge_t n)

/-- A subgraph: nodes and edges of the graph. -/
structure subg_t (n : ℕ) where
  nodes : List (Fin n)
  edges : List (edge_t n)

/-- `agfstout` and `agnxtout`: the edges out of a node, by their heads. -/
def outEdges (edges : List (edge_t n)) (u : Fin n) : List (edge_t n) :=
  (List.finRange n).flatMap fun h => edges.filter fun e => e.agtail = u ∧ e.aghead = h

/-- `agfstin` and `agnxtin`: the edges into a node, by their tails. -/
def inEdges (edges : List (edge_t n)) (u : Fin n) : List (edge_t n) :=
  (List.finRange n).flatMap fun t => edges.filter fun e => e.aghead = u ∧ e.agtail = t

/-- `agfstedge` and `agnxtedge`: a loop is found only as an edge out of the node. -/
def edgesOf (edges : List (edge_t n)) (u : Fin n) : List (edge_t n) :=
  outEdges edges u ++ (inEdges edges u).filter fun e => e.agtail ≠ u

/-- The end of an edge that is not the node. -/
def other (u : Fin n) (e : edge_t n) : Fin n :=
  if e.aghead = u then e.agtail else e.aghead

/-- `agfindedge`, in an undirected graph. -/
def agfindedge (edges : List (edge_t n)) (t h : Fin n) : Option (edge_t n) :=
  (edges.find? fun e => e.agtail = t ∧ e.aghead = h).or
    (edges.find? fun e => e.agtail = h ∧ e.aghead = t)

/-- The working copy: its nodes and edges, the next sequence number, `DEGREE`, and `ORIGE` by the
sequence number of the edge. -/
structure work_t (n : ℕ) where
  nodes : List (Fin n)
  edges : List (edge_t n)
  nextSeq : ℕ
  DEGREE : Fin n → ℤ
  ORIGE : ℕ → Option (edge_t n)

/-- A new edge of the copy. -/
def work_t.newedge (g : work_t n) (t h : Fin n) : edge_t n × work_t n :=
  let e : edge_t n := ⟨t, h, g.nextSeq⟩
  (e, { g with
    edges := g.edges ++ [e]
    nextSeq := g.nextSeq + 1
    ORIGE := update g.ORIGE g.nextSeq none })

/-- `agedge` to create an edge of the copy, and `agbindrec`. -/
def work_t.agedge (strict : Bool) (g : work_t n) (t h : Fin n) : edge_t n × work_t n :=
  if strict then
    match agfindedge g.edges t h with
    | some e => (e, g)
    | none => g.newedge t h
  else g.newedge t h

/-- `DEGREE(u) += d`. -/
def work_t.addDegree (g : work_t n) (u : Fin n) (d : ℤ) : work_t n :=
  { g with DEGREE := update g.DEGREE u (g.DEGREE u + d) }

/-- `agdelete` of a node. -/
def work_t.agdelete (g : work_t n) (u : Fin n) : work_t n :=
  { g with
    nodes := g.nodes.erase u
    edges := g.edges.filter fun e => e.agtail ≠ u ∧ e.aghead ≠ u }

/-! ## Copies of the block -/

/-- The copying of an edge in `clone_graph`. -/
def cloneEdge (strict : Bool) (c : subg_t n × work_t n) (e : edge_t n) : subg_t n × work_t n :=
  let (clone, xclone) := c
  let (xe, xclone) := xclone.agedge strict e.agtail e.aghead
  let xclone := { xclone with ORIGE := update xclone.ORIGE xe.seq (some e) }
  ({ clone with edges := clone.edges ++ [e] },
    (xclone.addDegree e.agtail 1).addDegree e.aghead 1)

/-- `clone_graph`. -/
def clone_graph (strict : Bool) (ing : graph_t n) : subg_t n × work_t n :=
  let nodes := List.finRange n
  (nodes.flatMap (outEdges ing.edges)).foldl (cloneEdge strict)
    (⟨nodes, []⟩, ⟨nodes, [], 0, fun _ => 0, fun _ => none⟩)

/-! ## Pair edges -/

/-- What the loops over pairs of neighbours change. -/
structure pairs_t (n : ℕ) where
  edge_cnt : ℤ
  ORIGE : ℕ → Option (edge_t n)
  outg : List (edge_t n)

/-- The inner loop of `find_pair_edges`, with the neighbour `n1` by the edge `e`, at the edge `ep`.
The flag is `has_pair_edge`. -/
def pairEdge (addr : Fin n → ℕ) (edges : List (edge_t n)) (u : Fin n) (e : edge_t n) (n1 : Fin n)
    (s : Bool × pairs_t n) (ep : edge_t n) : Bool × pairs_t n :=
  if ep = e then s
  else
    let n2 := other u ep
    match agfindedge edges n1 n2 with
    | none => s
    | some ex =>
      if addr n1 < addr n2 then
        let s := { s.2 with edge_cnt := s.2.edge_cnt + 1 }
        match s.ORIGE ex.seq with
        | some o => (true, { s with outg := s.outg.erase o, ORIGE := update s.ORIGE ex.seq none })
        | none => (true, s)
      else (true, s.2)

/-- What the outer loop collects: the pairs, `neighbors_with` and `neighbors_without`. -/
structure scan_t (n : ℕ) where
  pairs : pairs_t n
  neighbors_with : List (Fin n)
  neighbors_without : List (Fin n)

/-- The outer loop of `find_pair_edges` at the edge `e`. -/
def scanEdge (addr : Fin n → ℕ) (edges : List (edge_t n)) (u : Fin n) (s : scan_t n)
    (e : edge_t n) : scan_t n :=
  let n1 := other u e
  let (has_pair_edge, pairs) :=
    (edgesOf edges u).foldl (pairEdge addr edges u e n1) (false, s.pairs)
  if has_pair_edge then { s with pairs := pairs, neighbors_with := s.neighbors_with ++ [n1] }
  else { s with pairs := pairs, neighbors_without := s.neighbors_without ++ [n1] }

/-- `LIST_GET`. -/
def LIST_GET {α : Type} (list : List α) (i : ℕ) : Except Fault α :=
  match list[i]? with
  | some a => .ok a
  | none => .error .assertion

/-- `tp` and `hp` are joined, and their degrees grow. -/
def joinNodes (strict : Bool) (g : work_t n) (tp hp : Fin n) : work_t n :=
  ((g.agedge strict tp hp).2.addDegree tp 1).addDegree hp 1

/-- The neighbours at two places of a list are joined. -/
def joinAt (strict : Bool) (list : List (Fin n)) (g : work_t n) (i j : ℕ) :
    Except Fault (work_t n) := do
  let tp ← LIST_GET list i
  let hp ← LIST_GET list j
  return joinNodes strict g tp hp

/-- The loop that joins the neighbours without pair edges two by two. -/
def joinPairs (strict : Bool) (neighbors_without : List (Fin n)) (g : work_t n) (diff : ℤ) :
    Except Fault (work_t n × ℤ) :=
  (List.range (neighbors_without.length / 2)).foldlM (fun (g, diff) i => do
    let g ← joinAt strict neighbors_without g (2 * i) (2 * i + 1)
    return (g, diff - 1)) (g, diff)

/-- The loop that joins the first of them with others. -/
def joinFirst (strict : Bool) (neighbors_without : List (Fin n)) (g : work_t n) (diff : ℤ) :
    Except Fault (work_t n) :=
  (List.range diff.toNat).foldlM (fun g i => joinAt strict neighbors_without g 0 (i + 2)) g

/-- The loop that joins each of them with the first neighbour with a pair edge. -/
def joinWith (strict : Bool) (neighbors_with neighbors_without : List (Fin n)) (g : work_t n) :
    Except Fault (work_t n) :=
  neighbors_without.foldlM (fun g hp =>
    match neighbors_with.head? with
    | some tp => .ok (joinNodes strict g tp hp)
    | none => .error .segfault) g

/-- `find_pair_edges`. -/
def find_pair_edges (strict : Bool) (addr : Fin n → ℕ) (g : work_t n) (u : Fin n)
    (outg : subg_t n) : Except Fault (work_t n × subg_t n) := do
  let s := (edgesOf g.edges u).foldl (scanEdge addr g.edges u) ⟨⟨0, g.ORIGE, outg.edges⟩, [], []⟩
  let outg := { outg with edges := s.pairs.outg }
  let diff := g.DEGREE u - 1 - s.pairs.edge_cnt
  let g := { g with ORIGE := s.pairs.ORIGE }
  if 0 < diff then
    if diff < s.neighbors_without.length then
      let (g, diff) ← joinPairs strict s.neighbors_without g diff
      let g ← joinFirst strict s.neighbors_without g diff
      return (g, outg)
    else if diff = s.neighbors_without.length then
      let g ← joinWith strict s.neighbors_with s.neighbors_without g
      return (g, outg)
    else return (g, outg)
  else return (g, outg)

/-! ## The skeleton -/

/-- `cmpDegree`. -/
def cmpDegree (DEGREE : Fin n → ℤ) (a b : Fin n) : ℤ :=
  if DEGREE a < DEGREE b then 1 else if DEGREE a > DEGREE b then -1 else 0

/-- The state of the loop of `remove_pair_edges`: the copy, the skeleton and the list of the
nodes. -/
structure State (n : ℕ) where
  g : work_t n
  outg : subg_t n
  dl : List (Fin n)

/-- The adjacent nodes are put back into the list, with smaller degrees. -/
def putBack (u : Fin n) (s : work_t n × List (Fin n)) (e : edge_t n) : work_t n × List (Fin n) :=
  (s.1.addDegree (other u e) (-1), s.2 ++ [other u e])

/-- One turn of the loop of `remove_pair_edges`. -/
def step (strict : Bool) (addr : Fin n → ℕ)
    (sort : (DEGREE : Fin n → ℤ) → Qsort (cmpDegree DEGREE)) (s : State n) :
    Except Fault (State n) :=
  match s.dl.getLast? with
  | none => .error .segfault
  | some currnode => do
    let dl := (edgesOf s.g.edges currnode).foldl (fun dl e => dl.erase (other currnode e))
      s.dl.dropLast
    let (g, outg) ← find_pair_edges strict addr s.g currnode s.outg
    let (g, dl) := (edgesOf g.edges currnode).foldl (putBack currnode) (g, dl)
    return ⟨g.agdelete currnode, outg, (sort g.DEGREE).run dl⟩

/-- The state after some turns. -/
def steps (strict : Bool) (addr : Fin n → ℕ)
    (sort : (DEGREE : Fin n → ℤ) → Qsort (cmpDegree DEGREE)) (ing : graph_t n) :
    ℕ → Except Fault (State n)
  | 0 =>
    let (outg, g) := clone_graph strict ing
    .ok ⟨g, outg, (sort g.DEGREE).run g.nodes⟩
  | k + 1 => do
    let s ← steps strict addr sort ing k
    step strict addr sort s

/-- `remove_pair_edges`. -/
def remove_pair_edges (strict : Bool) (addr : Fin n → ℕ)
    (sort : (DEGREE : Fin n → ℤ) → Qsort (cmpDegree DEGREE)) (ing : graph_t n) :
    Except Fault (subg_t n) := do
  let nodeCount := (clone_graph strict ing).2.nodes.length
  let s ← steps strict addr sort ing (nodeCount - 3)
  return s.outg

end Graphviz.Circogen
