import Graphviz.Library.Rose

/-!
# Which objects a body is written with

The part of `lib/cgraph/write.c` that decides in which bodies of a hierarchy of subgraphs a node or
an edge is written: the numbers that `subgdfs` gives to the graphs, and the number of the graph that
an object was last written with, which the tests compare with that of the graph being written.
Graphs, nodes and edges are known by their sequence numbers, as the arrays of `write_info_t` are
indexed by them. The text of what is written is left out, but for the braces of the subgraphs.
-/

namespace Graphviz.Write

/-! ## The functions -/

/-- An out-edge as the loop of `write_body` sees it. -/
structure OutEdge where
  seq : ℕ
  head : ℕ

/-- A graph without its subgraphs: `AGSEQ`, whether it is an `irrelevant_subgraph`, and its nodes
and their out-edges in the order of `agnxtnode` and `agnxtout`. -/
structure Body where
  seq : ℕ
  irrelevant : Bool
  nodes : List ℕ
  out : ℕ → List OutEdge

/-- A graph with its subgraphs, in the order of `agnxtsubg`. -/
abbrev Graph := Rose Body

/-- The edges of a graph. -/
def Body.edges (g : Body) : List ℕ := (g.nodes.flatMap g.out).map OutEdge.seq

/-- A node or an edge. -/
inductive Obj where
  | node (seq : ℕ)
  | edge (seq : ℕ)
  deriving DecidableEq

/-- What happens in the course of `agwrite`: the braces of a graph, the objects written in its
body, and the comparisons of `write_node_test` and `write_edge_test`, true where the object is
taken for written. -/
inductive Event where
  | hdr (g : ℕ)
  | trl (g : ℕ)
  | wrote (g : ℕ) (o : Obj)
  | tested (g : ℕ) (o : Obj) (written : Bool)
  deriving DecidableEq

/-- `node_last_written` and `edge_last_written` of `write_info_t`, with what has happened. -/
structure WriteInfo where
  last_written : Obj → ℕ
  events : List Event

/-- One more event. -/
def WriteInfo.log (st : WriteInfo) (ev : Event) : WriteInfo :=
  { st with events := st.events ++ [ev] }

mutual

/-- `subgdfs`, which also returns `preorder_number`. -/
def subgdfs (pre : ℕ → ℕ) (ix : ℕ) : Graph → ℕ × (ℕ → ℕ)
  | .mk g subgs =>
    let (ix0, pre) := subgdfsAll (Function.update pre g.seq ix) ix subgs
    (ix0 + 1, pre)

/-- The loop of `subgdfs` over the subgraphs. -/
def subgdfsAll (pre : ℕ → ℕ) (ix0 : ℕ) : List Graph → ℕ × (ℕ → ℕ)
  | [] => (ix0, pre)
  | subg :: subgs =>
    let (ix0, pre) := subgdfs pre ix0 subg
    subgdfsAll pre ix0 subgs

end

/-- `before_write`: the numbers of the graphs. -/
def beforeWrite (g : Graph) : ℕ → ℕ := (subgdfs (fun _ => 0) 1 g).2

/-- `has_no_edges`. -/
def hasNoEdges (g : Body) (n : ℕ) : Bool :=
  (g.out n).isEmpty && g.nodes.all fun t => (g.out t).all fun e => e.head ≠ n

section Body

variable (pre : ℕ → ℕ) (not_default_attrs : ℕ → Bool)

/-- The comparison with the number of the graph that is being written. -/
def testWritten (g : ℕ) (st : WriteInfo) (o : Obj) : Bool × WriteInfo :=
  let written := decide (st.last_written o ≥ pre g)
  (written, st.log (.tested g o written))

/-- The mark that `write_node` and `write_edge` leave on an object. -/
def writeObj (g : ℕ) (st : WriteInfo) (o : Obj) : WriteInfo :=
  { last_written := Function.update st.last_written o (pre g)
    events := st.events ++ [.wrote g o] }

/-- `write_node_test`. -/
def writeNodeTest (g : Body) (st : WriteInfo) (n : ℕ) : Bool × WriteInfo :=
  let (written, st) := testWritten pre g.seq st (.node n)
  (!written && (hasNoEdges g n || not_default_attrs n), st)

/-- `write_node`. -/
def writeNode (g : Body) (st : WriteInfo) (n : ℕ) : WriteInfo := writeObj pre g.seq st (.node n)

/-- `write_edge_test`. -/
def writeEdgeTest (g : Body) (st : WriteInfo) (e : ℕ) : Bool × WriteInfo :=
  let (written, st) := testWritten pre g.seq st (.edge e)
  (!written, st)

/-- `write_edge`. -/
def writeEdge (g : Body) (st : WriteInfo) (e : ℕ) : WriteInfo := writeObj pre g.seq st (.edge e)

/-- `if (write_node_test(g, n, wr_info)) write_node(g, n, …)`, with the outcome of the test. -/
def nodeRound (g : Body) (st : WriteInfo) (n : ℕ) : Bool × WriteInfo :=
  let (test, st) := writeNodeTest pre not_default_attrs g st n
  (test, if test then writeNode pre g st n else st)

/-- `if (write_edge_test(g, e, wr_info)) write_edge(g, e, …)`. -/
def edgeRound (g : Body) (st : WriteInfo) (e : ℕ) : WriteInfo :=
  let (test, st) := writeEdgeTest pre g st e
  if test then writeEdge pre g st e else st

/-- The round of the inner loop of `write_body` for an edge, with `prev`. -/
def outRound (g : Body) (st : WriteInfo × ℕ) (e : OutEdge) : WriteInfo × ℕ :=
  let (st, prev) :=
    if st.2 ≠ e.head then
      let (test, st') := nodeRound pre not_default_attrs g st.1 e.head
      (st', if test then e.head else st.2)
    else st
  (edgeRound pre g st e.seq, prev)

/-- The round of the loop of `write_body` for a node. -/
def bodyRound (g : Body) (st : WriteInfo) (n : ℕ) : WriteInfo :=
  let (_, st) := nodeRound pre not_default_attrs g st n
  ((g.out n).foldl (outRound pre not_default_attrs g) (st, n)).1

/-- The loop of `write_body`. -/
def bodyLoop (g : Body) (st : WriteInfo) : WriteInfo :=
  g.nodes.foldl (bodyRound pre not_default_attrs g) st

mutual

/-- The round of the loop of `write_subgs` for a subgraph, with its `write_body` written out. -/
def writeSubg (st : WriteInfo) : Graph → WriteInfo
  | .mk g subgs =>
    if g.irrelevant then writeSubgs st subgs
    else
      (bodyLoop pre not_default_attrs g (writeSubgs (st.log (.hdr g.seq)) subgs)).log (.trl g.seq)

/-- `write_subgs`, over the subgraphs of a graph. -/
def writeSubgs (st : WriteInfo) : List Graph → WriteInfo
  | [] => st
  | subg :: subgs => writeSubgs (writeSubg st subg) subgs

end

/-- `write_body`. -/
def writeBody (st : WriteInfo) : Graph → WriteInfo
  | .mk g subgs => bodyLoop pre not_default_attrs g (writeSubgs pre not_default_attrs st subgs)

end Body

/-- `agwrite`. -/
def agwrite (g : Graph) (not_default_attrs : ℕ → Bool) : WriteInfo :=
  let st : WriteInfo := { last_written := fun _ => 0, events := [] }
  let st := st.log (.hdr g.label.seq)
  (writeBody (beforeWrite g) not_default_attrs st g).log (.trl g.label.seq)

end Graphviz.Write
