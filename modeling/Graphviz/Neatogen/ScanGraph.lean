import Mathlib.Algebra.Order.Field.Basic
import Graphviz.Util.Fault

/-!
# Preparing a graph for the spring model (`neatogen/stuff.c`)

`scan_graph_mode` removes singletons and trees when `Reduce` is set, gives the nodes their ids and
the edges their lengths, and fills the matrix of distances with a default. A graph is the list of
its nodes in their order, with its edges; what is asked of a node that has been deleted is a fault.
Nodes are deleted from the root graph, and with it from the graph.
-/

namespace Graphviz.Spring

open Outcome

/-- An edge; `len` is the number in its attribute, if there is one. -/
structure edge_t (V K : Type) where
  agtail : V
  aghead : V
  len : Option K
  deriving DecidableEq

/-- A graph: no node is in it twice, and the ends of its edges are among its nodes. -/
structure graph_t (V K : Type) where
  nodes : List V
  edges : List (edge_t V K)
  nodup : nodes.Nodup
  ends : ∀ e ∈ edges, e.agtail ∈ nodes ∧ e.aghead ∈ nodes

variable {V K : Type} [DecidableEq V]

/-- `agfstnode`. -/
def agfstnode (g : graph_t V K) : Option V :=
  g.nodes.head?

/-- `agnxtnode`. -/
def agnxtnode (g : graph_t V K) (n : V) : Except Fault (Option V) :=
  if n ∈ g.nodes then .ok (g.nodes.dropWhile (· ≠ n)).tail.head? else .error .segfault

/-- The edges that `agfstout` and `agnxtout` go through. -/
def outEdges (g : graph_t V K) (n : V) : List (edge_t V K) :=
  g.edges.filter fun e => e.agtail = n

/-- The edges that `agfstedge` and `agnxtedge` go through: those that leave the node, and those that
come to it from other nodes. -/
def nodeEdges (g : graph_t V K) (n : V) : List (edge_t V K) :=
  outEdges g n ++ g.edges.filter fun e => e.aghead = n ∧ e.agtail ≠ n

/-- The graph without a node and its edges. -/
def without (g : graph_t V K) (n : V) : graph_t V K where
  nodes := g.nodes.filter (· ≠ n)
  edges := g.edges.filter fun e => e.agtail ≠ n ∧ e.aghead ≠ n
  nodup := g.nodup.filter _
  ends e he := by
    rw [List.mem_filter, decide_eq_true_iff] at he
    obtain ⟨he, htail, hhead⟩ := he
    obtain ⟨ht, hh⟩ := g.ends e he
    exact ⟨List.mem_filter.2 ⟨ht, decide_eq_true htail⟩,
      List.mem_filter.2 ⟨hh, decide_eq_true hhead⟩⟩

/-- `agdelete`, of a node. -/
def agdelete (g : graph_t V K) (n : V) : Except Fault (graph_t V K) :=
  if n ∈ g.nodes then .ok (without g n) else .error .segfault

/-! ## Reduction -/

/-- The loop of `degreeKind`, with `deg` and `*op`. -/
def degreeLoop (n : V) : List (edge_t V K) → ℕ → Option V → ℕ × Option V
  | [], deg, op => (deg, op)
  | ep :: es, deg, op =>
    -- ignore loops
    if ep.aghead = ep.agtail then degreeLoop n es deg op
    else if deg = 1 then
      -- ignore multiedge
      if ep.agtail = n ∧ some ep.aghead = op ∨ some ep.agtail = op ∧ ep.aghead = n then
        degreeLoop n es deg op
      else (2, op)
    else degreeLoop n es (deg + 1) (some (if ep.agtail = n then ep.aghead else ep.agtail))

/-- `degreeKind`: 0, 1 or many (2), and in case of 1 the other endpoint. -/
def degreeKind (g : graph_t V K) (n : V) : Except Fault (ℕ × Option V) :=
  if n ∈ g.nodes then .ok (degreeLoop n (nodeEdges g n) 0 none) else .error .segfault

/-- `if (next == np) next = agnxtnode(G, np)`. -/
def skip (g : graph_t V K) (np : V) (next : Option V) : Except Fault (Option V) :=
  if next = some np then agnxtnode g np else .ok next

/-- The loop of `prune`, for a node `np` that is not null. -/
def pruneLoop : ℕ → graph_t V K → V → Option V → Except Fault (graph_t V K × Option V)
  | 0, _, _, _ => .error .fuel
  | fuel + 1, g, np, next => do
    let (deg, other) ← degreeKind g np
    if deg = 0 then do
      let next ← skip g np next
      let g ← agdelete g np
      .ok (g, next)
    else if deg = 1 then do
      let next ← skip g np next
      let g ← agdelete g np
      match other with
      | none => .ok (g, next)
      | some other => pruneLoop fuel g other next
    else .ok (g, next)

/-- `prune`: the graph and the node to visit next. -/
def prune (g : graph_t V K) (np : Option V) (next : Option V) :
    Except Fault (graph_t V K × Option V) :=
  match np with
  | none => .ok (g, next)
  | some np => pruneLoop (g.nodes.length + 1) g np next

/-- The loop that eliminates singletons and trees. -/
def reduceLoop : ℕ → graph_t V K → Option V → Except Fault (graph_t V K)
  | _, g, none => .ok g
  | 0, _, some _ => .error .fuel
  | fuel + 1, g, some np => do
    let xp ← agnxtnode g np
    let (deg, other) ← degreeKind g np
    if deg = 0 then do
      let g ← agdelete g np
      reduceLoop fuel g xp
    else if deg = 1 then do
      let g ← agdelete g np
      let (g, xp) ← prune g other xp
      reduceLoop fuel g xp
    else reduceLoop fuel g xp

/-- What is done with `Reduce`. -/
def reduce (g : graph_t V K) : Except Fault (graph_t V K) :=
  reduceLoop g.nodes.length g (agfstnode g)

/-! ## Lengths -/

variable [Field K] [LinearOrder K]

/-- `lenattr`, with `Nop` not set: the length, if there is one and it is not bad. -/
def lenattr (e : edge_t V K) : Option K :=
  e.len.filter fun val => ¬(val < 0 ∨ val = 0)

/-- `dfltlen`. -/
def dfltlen : K := 1

/-- `ED_dist`, as `setEdgeLen` sets it. -/
def ED_dist (e : edge_t V K) : K :=
  (lenattr e).getD dfltlen

/-- `setEdgeLen`: what it returns. -/
def setEdgeLen (g : graph_t V K) (np : V) : K :=
  (outEdges g np).foldl (fun total_len ep => total_len + ED_dist ep) 0

/-- `Initial_dist`, from `defaultdist` if that is given. -/
def initialDist (sqrt : K → K) (Epsilon : K) (defaultdist : Option K) (g : graph_t V K) : K :=
  match defaultdist with
  | some d => max Epsilon d
  | none =>
    let total_len := g.nodes.foldl (fun total_len np => total_len + setEdgeLen g np) 0
    let nE := g.edges.length
    total_len / ((if 0 < nE then nE else 1 : ℕ) : K) * sqrt (g.nodes.length : K) + 1

/-- The modes of the layout. -/
inductive Mode where
  | MODE_KK
  | MODE_MAJOR
  | MODE_HIER
  | MODE_IPSEP
  | MODE_SGD
  deriving DecidableEq, Repr

/-- The graph with the fields that are set. -/
structure Scanned (V K : Type) where
  G : graph_t V K
  neato_nlist : List V
  ND_id : V → ℕ
  ND_heapindex : V → ℤ
  Initial_dist : K
  GD_dist : Option (ℕ → ℕ → K)

/-- `scan_graph_mode`, with `Nop` not set. -/
def scan_graph_mode (sqrt : K → K) (Epsilon : K) (defaultdist : Option K) (Reduce : Bool)
    (G : graph_t V K) (mode : Mode) : Except Fault (Scanned V K) := do
  -- eliminate singletons and trees
  let G ← if Reduce then reduce G else .ok G
  let Initial_dist := initialDist sqrt Epsilon defaultdist G
  .ok {
    G
    neato_nlist := if mode = .MODE_KK ∨ mode = .MODE_SGD then G.nodes else []
    ND_id := fun v => G.nodes.idxOf v
    ND_heapindex := fun _ => if mode = .MODE_KK then -1 else 0
    Initial_dist
    GD_dist := if mode = .MODE_KK then some fun _ _ => Initial_dist else none }

end Graphviz.Spring
