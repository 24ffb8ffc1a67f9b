import Graphviz.Circogen.Crossings

/-!
# The tree of blocks (`circogen/blocktree.c`, `block.c`)

`dfs` searches a component with low points, and keeps the edges to new nodes on a stack. The edges
that are popped for a child make a block, which gets the far ends that are in no block yet, and the
cut node when the block has two nodes and the node is in no block yet. `createBlocktree` then hangs
each block under the one of the parent of its first node. A block is its place in the order in which
the blocks are made; their names, and those of their graphs, are left out, and the counters do not
overflow.
-/

namespace Graphviz.Circogen

open Function Outcome

variable {n : ℕ}

/-- A block: the nodes of its subgraph, its list `children`, and `CHILD`. -/
structure block_t (n : ℕ) where
  sub_graph : Finset (Fin n)
  children : List ℕ
  CHILD : Option (Fin n)

/-- The blocks, the field `BLOCK` of the nodes, and the list `bl` of the state. -/
structure blocks_t (n : ℕ) where
  made : List (block_t n)
  BLOCK : Fin n → Option ℕ
  bl : List ℕ

/-- The state of the search: the counter, the fields of the nodes and edges, the stack with its top
first, and the blocks. -/
structure circ_state (n : ℕ) where
  orderCount : ℕ
  LOWVAL : Fin n → ℕ
  VAL : Fin n → ℕ
  PARENT : Fin n → Option (Fin n)
  EDGEORDER : edge_t n → ℤ
  stk : List (half_t n)
  blocks : blocks_t n
  ISPARENT : Fin n → Bool

/-! ## Blocks -/

/-- `agfstnode` and `agnxtnode`, in the subgraph of a block. -/
def block_t.nodes (b : block_t n) : List (Fin n) :=
  (List.finRange n).filter (· ∈ b.sub_graph)

/-- `addNode`. -/
def addNode (o : blocks_t n) (bp : ℕ) (v : Fin n) : blocks_t n :=
  { o with
    made := o.made.modify bp fun b => { b with sub_graph := insert v b.sub_graph }
    BLOCK := update o.BLOCK v (some bp) }

/-- `makeBlock`. -/
def makeBlock (o : blocks_t n) : ℕ × blocks_t n :=
  (o.made.length, { o with made := o.made ++ [⟨∅, [], none⟩] })

/-- `blockSize`. -/
def blockSize (o : blocks_t n) (bp : ℕ) : ℕ :=
  (o.made[bp]?.map fun b => b.sub_graph.card).getD 0

/-- `insertBlock`, into the list `bl`. -/
def insertBlock (o : blocks_t n) (bp : ℕ) : blocks_t n := { o with bl := bp :: o.bl }

/-- `appendBlock`, to the list `bl`. -/
def appendBlock (o : blocks_t n) (bp : ℕ) : blocks_t n := { o with bl := o.bl ++ [bp] }

/-! ## The search -/

/-- The node `np` of an edge that is popped. -/
def farEnd (EDGEORDER : edge_t n → ℤ) (ep : half_t n) : Fin n :=
  if EDGEORDER ep.edge = 1 then ep.edge.aghead else ep.edge.agtail

/-- The node goes to the block, if it is in none yet. The block is made when it gets a node. -/
def takeNode (p : Option ℕ × blocks_t n) (np : Fin n) : Option ℕ × blocks_t n :=
  if p.2.BLOCK np = none then
    match p.1 with
    | some block => (some block, addNode p.2 block np)
    | none => (some (makeBlock p.2).1, addNode (makeBlock p.2).2 (makeBlock p.2).1 np)
  else p

/-- The loop that pops edges from the stack. -/
def popEdges (EDGEORDER : edge_t n → ℤ) (e : half_t n) : List (half_t n) → Option ℕ × blocks_t n →
    Except Fault (List (half_t n) × Option ℕ × blocks_t n)
  | [], _ => .error .assertion
  | ep :: stk, p =>
    let p := takeNode p (farEnd EDGEORDER ep)
    if ep = e then .ok (stk, p) else popEdges EDGEORDER e stk p

/-- What is done with the block after the loop, at the cut node. -/
def closeBlock (isRoot : Bool) (u : Fin n) : Option ℕ × blocks_t n → blocks_t n
  | (none, o) => o
  | (some block, o) =>
    let o := if o.BLOCK u = none ∧ 1 < blockSize o block then addNode o block u else o
    if isRoot ∧ o.BLOCK u = some block then insertBlock o block else appendBlock o block

/-- The low point of a node becomes at most the number. -/
def circ_state.lower (s : circ_state n) (u : Fin n) (k : ℕ) : circ_state n :=
  { s with LOWVAL := update s.LOWVAL u (min (s.LOWVAL u) k) }

/-- The other end of an edge, and the order that the edge gets. -/
def across (u : Fin n) (e : half_t n) : Fin n × ℤ :=
  if e.edge.aghead = u then (e.edge.agtail, -1) else (e.edge.aghead, 1)

/-- The order of an edge is set once. -/
def setOrder (EDGEORDER : edge_t n → ℤ) (e : edge_t n) (order : ℤ) : edge_t n → ℤ :=
  if EDGEORDER e = 0 then update EDGEORDER e order else EDGEORDER

/-- A cut node has been found at an edge. -/
def circ_state.cut (s : circ_state n) (isRoot : Bool) (u : Fin n) (e : half_t n) :
    Except Fault (circ_state n) := do
  let (stk, p) ← popEdges s.EDGEORDER e s.stk (none, s.blocks)
  .ok { s with stk, blocks := closeBlock isRoot u p }

/-- The body of the loop of `dfs` over the edges. -/
def dfsEdge (dfs : circ_state n → Fin n → Bool → Except Fault (circ_state n)) (u : Fin n)
    (isRoot : Bool) (s : circ_state n) (e : half_t n) : Except Fault (circ_state n) :=
  let v := (across u e).1
  let s := { s with EDGEORDER := setOrder s.EDGEORDER e.edge (across u e).2 }
  if s.VAL v = 0 then do
    let s ← dfs { s with PARENT := update s.PARENT v (some u), stk := e :: s.stk } v false
    let s := s.lower u (s.LOWVAL v)
    if s.LOWVAL v ≥ s.VAL u then s.cut isRoot u e else .ok s
  else if s.PARENT u ≠ some v then .ok (s.lower u (s.VAL v))
  else .ok s

/-- A node is met. -/
def circ_state.enter (s : circ_state n) (u : Fin n) : circ_state n :=
  { s with
    orderCount := s.orderCount + 1
    VAL := update s.VAL u s.orderCount
    LOWVAL := update s.LOWVAL u s.orderCount }

/-- The end of `dfs`: a root without a block gets its own. -/
def rootBlock (isRoot : Bool) (u : Fin n) (o : blocks_t n) : blocks_t n :=
  if isRoot ∧ o.BLOCK u = none then
    insertBlock (addNode (makeBlock o).2 (makeBlock o).1 u) (makeBlock o).1
  else o

/-- `dfs`, to a depth of at most the second argument. -/
def dfs (edges : List (edge_t n)) : ℕ → circ_state n → Fin n → Bool → Except Fault (circ_state n)
  | 0, _, _, _ => .error .fuel
  | d + 1, s, u, isRoot => do
    let s ← (halvesOf edges u).foldlM (dfsEdge (dfs edges d) u isRoot) (s.enter u)
    .ok { s with blocks := rootBlock isRoot u s.blocks }

/-- What `initGraphAttrs` and the allocation of the fields leave. -/
def circ_state.start (n : ℕ) : circ_state n :=
  ⟨1, fun _ => 0, fun _ => 0, fun _ => none, fun _ => 0, [], ⟨[], fun _ => none, []⟩,
    fun _ => false⟩

/-- `find_blocks`, with the root that it chooses. -/
def find_blocks (G : graph_t n) (root : Fin n) : Except Fault (circ_state n) :=
  dfs G.edges (n + 1) (.start n) root true

/-! ## The tree -/

/-- The node of a block with the least number, as it is searched for. -/
def firstNode (VAL : Fin n → ℕ) : List (Fin n) → Option (Fin n)
  | [] => none
  | child :: nodes =>
    some (nodes.foldl (fun child v => if VAL v < VAL child then v else child) child)

/-- A block becomes the last child of another one, which its node `child` hangs from. -/
def blocks_t.hang (o : blocks_t n) (bp : ℕ) (child : Fin n) (i : ℕ) : blocks_t n :=
  { o with
    made := (o.made.modify bp fun b => { b with CHILD := some child }).modify i fun b =>
      { b with children := b.children ++ [bp] } }

/-- The body of the loop of `createBlocktree`, at a block of the list. -/
def hangBlock (s : circ_state n) (bp : ℕ) : Except Fault (circ_state n) :=
  match s.blocks.made[bp]?.bind fun b => firstNode s.VAL b.nodes with
  | none => .error .segfault
  | some child =>
    match s.PARENT child with
    | none => .error .segfault
    | some parent =>
      match s.blocks.BLOCK parent with
      | none => .error .segfault
      | some i => .ok { s with
          ISPARENT := update s.ISPARENT parent true
          blocks := s.blocks.hang bp child i }

/-- `createBlocktree`: the root of the tree, and the state. -/
def createBlocktree (G : graph_t n) (root : Fin n) : Except Fault (ℕ × circ_state n) := do
  let s ← find_blocks G root
  match s.blocks.bl with
  | [] => .error .segfault
  | bp :: bps => do
    let s ← bps.foldlM hangBlock s
    .ok (bp, { s with blocks := { s.blocks with bl := [] } })

end Graphviz.Circogen
