import Mathlib.Algebra.BigOperators.Group.List.Basic
import Graphviz.Neatogen.ScanGraph
import Graphviz.Util.Libc

/-!
# The sparse graph of a layout (`makeGraphData` in `neatogen/neatoinit.c`)

Each node gets an array of its neighbours, itself first, with lengths, weights and directions next
to it. An edge that comes to a node a second time is told by a map of pairs. In the modes with
directions a depth-first search then reverses the edges that close a cycle. The parts of the arrays
that belong to one node are lists; numbers are exact.
-/

namespace Graphviz.Hier

open Function Outcome Spring

variable {n : ℕ} {K : Type}

/-- An edge with `ED_dist` and `ED_factor`, and its attribute `dir`, if there is one. -/
structure edge_t (n : ℕ) (K : Type) where
  agtail : Fin n
  aghead : Fin n
  dist : K
  factor : K
  dir : Option CStr
  deriving DecidableEq

/-- A graph whose nodes are their ids: the edges that `agfstout` and `agnxtout` find at a node, and
those that `agfstin` and `agnxtin` find, where the edges from one node to another come in the same
order at both; and whether it has the attributes `len` and `weight` of edges. -/
structure graph_t (n : ℕ) (K : Type) where
  out : Fin n → List (edge_t n K)
  inn : Fin n → List (edge_t n K)
  hasLen : Bool
  hasWeight : Bool
  tail : ∀ u, ∀ e ∈ out u, e.agtail = u
  head : ∀ v, ∀ e ∈ inn v, e.aghead = v
  parallel : ∀ u v, (inn v).filter (·.agtail = u) = (out u).filter (·.aghead = v)

/-- The edges that `agfstedge` and `agnxtedge` go through. -/
def nodeEdges (g : graph_t n K) (np : Fin n) : List (edge_t n K) :=
  g.out np ++ (g.inn np).filter (·.agtail ≠ np)

/-- `MODEL_SHORTPATH` and the other models. -/
inductive Model where
  | MODEL_SHORTPATH
  | MODEL_CIRCUIT
  | MODEL_SUBSET
  | MODEL_MDS
  deriving DecidableEq, Repr

/-- A node of the sparse graph; the first place of each array is its own. -/
structure vtx_data (n : ℕ) (K : Type) where
  edges : List (Fin n)
  ewgts : Option (List K)
  eweights : Option (List K)
  edists : Option (List ℤ)
  deriving DecidableEq

/-- `nedges`. -/
def vtx_data.nedges (v : vtx_data n K) : ℕ := v.edges.length

/-! ## The arrays -/

/-- A map from pairs to numbers. -/
abbrev PointMap := ℕ × ℕ → Option ℕ

/-- `insertPM`: the number of a pair that is there already, and a new one otherwise. -/
def insertPM (pm : PointMap) (x y value : ℕ) : ℕ × PointMap :=
  match pm (x, y) with
  | some v => (v, pm)
  | none => (value, update pm (x, y) (some value))

/-- `checkEdge`. -/
def checkEdge (pm : PointMap) (ep : edge_t n K) (idx : ℕ) : ℕ × PointMap :=
  let i := ep.agtail
  let j := ep.aghead
  if j < i then insertPM pm j i idx else insertPM pm i j idx

/-- `startswith`. -/
def startswith (s pre : CStr) : Bool := pre.isPrefixOf s

/-- Which of the arrays there are. -/
structure Arrays where
  haveLen : Bool
  haveWt : Bool
  haveDir : Bool

/-- The arrays of a graph in a mode and a model; lengths and weights are unused in the reweight
model. -/
def arraysOf (g : graph_t n K) (mode : Mode) (model : Model) : Arrays where
  haveLen := model ≠ .MODEL_SUBSET ∧ g.hasLen
  haveWt := model ≠ .MODEL_SUBSET ∧ g.hasWeight
  haveDir := mode = .MODE_HIER ∨ mode = .MODE_IPSEP

/-- The direction of an edge at a node. -/
def edistOf (np : Fin n) (ep : edge_t n K) : ℤ :=
  if ep.dir.any (startswith · (lit "none")) then 0
  else if np = ep.aghead then 1 else -1

/-- What the loop over the edges of a node changes. -/
structure Row (n : ℕ) (K : Type) where
  vtx : vtx_data n K
  ps : PointMap
  j : ℕ
  ne : ℕ

section

variable [AddCommMonoid K] [One K] [LinearOrder K]

/-- The length that is put in for an edge. -/
def lengthOf (c : Arrays) (ep : edge_t n K) : K :=
  if c.haveLen then ep.dist else 1

/-- An edge to a node that is in the arrays. -/
def vtx_data.seen (c : Arrays) (v : vtx_data n K) (idx : ℕ) (ep : edge_t n K) : vtx_data n K :=
  { v with
    eweights := v.eweights.map (·.modify idx (· + ep.factor))
    ewgts := if c.haveLen then v.ewgts.map (·.modify idx (max · ep.dist)) else v.ewgts }

/-- An edge to another node. -/
def vtx_data.new (c : Arrays) (v : vtx_data n K) (np : Fin n) (ep : edge_t n K) : vtx_data n K where
  edges := v.edges ++ [if ep.agtail = np then ep.aghead else ep.agtail]
  eweights := v.eweights.map (· ++ [ep.factor])
  ewgts := v.ewgts.map (· ++ [lengthOf c ep])
  edists := v.edists.map (· ++ [edistOf np ep])

/-- The body of the loop of `makeGraphData` over the edges of a node. -/
def addEdge (c : Arrays) (np : Fin n) (r : Row n K) (ep : edge_t n K) : Row n K :=
  if ep.aghead = ep.agtail then r -- ignore loops
  else
    let (idx, ps) := checkEdge r.ps ep r.j
    if idx ≠ r.j then
      -- seen before
      { r with vtx := r.vtx.seen c idx ep, ps }
    else { vtx := r.vtx.new c np ep, ps, j := r.j + 1, ne := r.ne + 1 }

/-- The arrays before the edges, with the place that is reserved for the node. -/
def vtx_data.start (c : Arrays) (np : Fin n) : vtx_data n K where
  edges := [np]
  ewgts := if c.haveLen ∨ c.haveDir then some [0] else none
  eweights := if c.haveWt then some [0] else none
  edists := if c.haveDir then some [0] else none

/-- The loop of `makeGraphData` for a node, with an empty map. -/
def addNode (c : Arrays) (g : graph_t n K) (ne : ℕ) (np : Fin n) : Row n K :=
  (nodeEdges g np).foldl (addEdge c np) ⟨.start c np, fun _ => none, 1, ne⟩

end

/-! ## The search for cycles -/

/-- What the search reads and writes: the graph and the marks of its nodes. -/
structure Search (n : ℕ) (K : Type) where
  graph : Fin n → vtx_data n K
  mark : Fin n → Bool
  onstack : Fin n → Bool

/-- `graph[i].edists[e]`. -/
def Search.edist (s : Search n K) (i : Fin n) (e : ℕ) : Except Fault ℤ :=
  match (s.graph i).edists.bind (·[e]?) with
  | some d => .ok d
  | none => .error .segfault

/-- An assignment to `graph[i].edists[e]`. -/
def Search.setEdist (s : Search n K) (i : Fin n) (e : ℕ) (x : ℤ) : Search n K :=
  let edists := (s.graph i).edists.map (·.set e x)
  { s with graph := update s.graph i { s.graph i with edists } }

/-- `graph[i].edges[e]`. -/
def Search.edge (s : Search n K) (i : Fin n) (e : ℕ) : Except Fault (Fin n) :=
  match (s.graph i).edges[e]? with
  | some j => .ok j
  | none => .error .segfault

/-- The first place after its own where a node has another one. -/
def Search.place (s : Search n K) (j i : Fin n) : ℕ :=
  ((s.graph j).edges.drop 1).idxOf i + 1

/-- The beginning of `dfsCycle`. -/
def Search.enter (s : Search n K) (i : Fin n) : Search n K :=
  { s with mark := update s.mark i true, onstack := update s.onstack i true }

/-- The end of `dfsCycle`. -/
def Search.leave (s : Search n K) (i : Fin n) : Search n K :=
  { s with onstack := update s.onstack i false }

/-- A back edge: reverse it. If the mode is `MODE_IPSEP`, make it an in-edge at both ends. -/
def reverse (mode : Mode) (s : Search n K) (i : Fin n) (e : ℕ) (j : Fin n) :
    Except Fault (Search n K) := do
  let x := if mode = .MODE_IPSEP then -1 else 1
  let s := s.setEdist i e x
  let f := s.place j i
  assert (f < (s.graph j).nedges)
  .ok (s.setEdist j f (-1))

/-- The body of the loop of `dfsCycle`, with the call for a node without a mark. -/
def cycleEdge (mode : Mode) (dfs : Search n K → Fin n → Except Fault (Search n K)) (i : Fin n)
    (s : Search n K) (e : ℕ) : Except Fault (Search n K) := do
  let d ← s.edist i e
  if d = 1 then .ok s -- in edge
  else do
    let j ← s.edge i e
    if s.onstack j then reverse mode s i e j
    else if s.mark j then .ok s
    else dfs s j

/-- `dfsCycle`, to a depth of at most the first argument. -/
def dfsCycle (mode : Mode) : ℕ → Search n K → Fin n → Except Fault (Search n K)
  | 0, _, _ => .error .fuel
  | d + 1, s, i => do
    let s' ← (List.range' 1 ((s.graph i).nedges - 1)).foldlM (cycleEdge mode (dfsCycle mode d) i)
      (s.enter i)
    .ok (s'.leave i)

/-- `acyclic`. -/
def acyclic (mode : Mode) (graph : Fin n → vtx_data n K) : Except Fault (Fin n → vtx_data n K) := do
  let s ← (List.finRange n).foldlM
    (fun s i => if s.mark i then .ok s else dfsCycle mode (n + 1) s i)
    ⟨graph, fun _ => false, fun _ => false⟩
  .ok s.graph

/-! ## The whole -/

/-- A sparse graph with the number of its edges, of which `ne` counts each twice. -/
structure GraphData (n : ℕ) (K : Type) where
  graph : Fin n → vtx_data n K
  nedges : ℕ

variable [AddCommMonoid K] [One K] [LinearOrder K]

/-- The body of the loop of `makeGraphData` over the nodes; `graph` is from `gv_calloc`. -/
def putNode (c : Arrays) (g : graph_t n K) (s : GraphData n K) (np : Fin n) : GraphData n K :=
  let r := addNode c g s.nedges np
  ⟨update s.graph np r.vtx, r.ne⟩

/-- The sparse graph before the search for cycles. -/
def sparseGraph (c : Arrays) (g : graph_t n K) : GraphData n K :=
  (List.finRange n).foldl (putNode c g) ⟨fun _ => ⟨[], none, none, none⟩, 0⟩

/-- `makeGraphData`. -/
def makeGraphData (g : graph_t n K) (mode : Mode) (model : Model) :
    Except Fault (GraphData n K) := do
  let c := arraysOf g mode model
  let s := sparseGraph c g
  -- make the graph acyclic
  let graph ← if c.haveDir then acyclic mode s.graph else .ok s.graph
  .ok ⟨graph, s.nedges / 2⟩

end Graphviz.Hier

/-!
## The arrays of a node

The loop over the edges of a node puts each neighbour into the arrays once. The map of pairs gives
the place of a neighbour that is there; the lengths, weights and directions at the places are those
of the edges that the loop has passed.
-/

namespace Graphviz.Hier

open Function List

variable {n : ℕ} {K : Type} {i o : Fin n} {ep : edge_t n K} {es : List (edge_t n K)}
  {N : List (Fin n)} {pm : PointMap} {g : graph_t n K} {j : Fin n}

/-! ## Places -/

/-- A change at the place of an element is a change of the function. -/
theorem modify_map_update {α β : Type} [DecidableEq α] {l : List α} (hl : l.Nodup) {a : α}
    (ha : a ∈ l) (f : α → β) (g : β → β) :
    (l.map f).modify (l.idxOf a) g = l.map (update f a (g (f a))) := by
  induction l with
  | nil => exact absurd ha not_mem_nil
  | cons b l ih =>
    obtain ⟨hb, hl⟩ := nodup_cons.1 hl
    obtain rfl | hne := eq_or_ne b a
    · have hrest : l.map (update f b (g (f b))) = l.map f :=
        map_congr_left fun c hc => update_of_ne (fun heq : c = b => hb (heq ▸ hc)) _ _
      rw [idxOf_cons_self, map_cons, modify_zero_cons, map_cons, update_self,
        hrest]
    · rw [idxOf_cons_ne _ hne, map_cons, modify_succ_cons,
        ih hl ((mem_cons.1 ha).resolve_left (Ne.symm hne)), map_cons, update_of_ne hne]

/-- An element at the end, where the function takes a value. -/
theorem map_update_concat {α β : Type} [DecidableEq α] {l : List α} {a : α} (ha : a ∉ l)
    (f : α → β) (b : β) : (l ++ [a]).map (update f a b) = l.map f ++ [b] := by
  have hrest : l.map (update f a b) = l.map f :=
    map_congr_left fun c hc => update_of_ne (fun heq : c = a => ha (heq ▸ hc)) _ _
  rw [map_append, hrest, map_singleton, update_self]

/-! ## Edges between two nodes -/

/-- The other end of an edge. -/
def neighbour (i : Fin n) (ep : edge_t n K) : Fin n :=
  if ep.agtail = i then ep.aghead else ep.agtail

/-- The edge ends at the node. -/
def Incident (i : Fin n) (ep : edge_t n K) : Prop :=
  ep.agtail = i ∨ ep.aghead = i

/-- The edges from a node to another one, in their order. -/
def toward (i o : Fin n) (es : List (edge_t n K)) : List (edge_t n K) :=
  es.filter fun ep => ep.aghead ≠ ep.agtail ∧ neighbour i ep = o

theorem neighbour_ne (hloop : ep.aghead ≠ ep.agtail) : neighbour i ep ≠ i := by
  rw [neighbour]
  split
  next ht => exact ht ▸ hloop
  next ht => exact ht

theorem toward_concat (hloop : ep.aghead ≠ ep.agtail) (ho : neighbour i ep = o) :
    toward i o (es ++ [ep]) = toward i o es ++ [ep] := by
  rw [toward, filter_append, filter_singleton, decide_eq_true ⟨hloop, ho⟩]
  rfl

theorem toward_concat_of_not (h : ¬(ep.aghead ≠ ep.agtail ∧ neighbour i ep = o)) :
    toward i o (es ++ [ep]) = toward i o es := by
  rw [toward, filter_append, filter_singleton, decide_eq_false h]
  exact append_nil _

/-- The edges between two nodes, those from the first one first. -/
def between (g : graph_t n K) (i j : Fin n) : List (edge_t n K) :=
  (g.out i).filter (·.aghead = j) ++ (g.out j).filter (·.aghead = i)

theorem incident_of_mem (he : ep ∈ nodeEdges g i) : Incident i ep := by
  obtain he | he := mem_append.1 he
  · exact Or.inl (g.tail i ep he)
  · exact Or.inr (g.head i ep (mem_filter.1 he).1)

/-- The edges of a node to another one are those between them. -/
theorem toward_nodeEdges (hne : i ≠ j) : toward i j (nodeEdges g i) = between g i j := by
  rw [toward, nodeEdges, filter_append, filter_filter, between, ← g.parallel j i]
  congr 1
  · refine filter_congr fun e he => decide_eq_decide.2 ?_
    rw [neighbour, if_pos (g.tail i e he)]
    exact ⟨fun h => h.2, fun h => ⟨by rw [h, g.tail i e he]; exact hne.symm, h⟩⟩
  · refine filter_congr fun e he => ?_
    rw [← Bool.decide_and]
    refine decide_eq_decide.2 ?_
    rw [g.head i e he, neighbour]
    constructor
    · rintro ⟨⟨-, heq⟩, ht⟩
      rwa [if_neg ht] at heq
    · rintro rfl
      exact ⟨⟨hne, if_neg hne.symm⟩, hne.symm⟩

theorem toward_self : toward i i es = [] :=
  filter_eq_nil_iff.2 fun _ _ hand => by
    obtain ⟨hloop, heq⟩ := of_decide_eq_true hand
    exact neighbour_ne hloop heq

/-! ## The map of pairs -/

/-- The pair of two nodes, the smaller one first. -/
def pairOf (i o : Fin n) : ℕ × ℕ :=
  if o < i then (o, i) else (i, o)

theorem pairOf_inj {o' : Fin n} (h : pairOf i o = pairOf i o') : o = o' := by
  unfold pairOf at h
  split at h <;> split at h <;> obtain ⟨h1, h2⟩ := Prod.mk.inj h <;> omega

theorem checkEdge_eq (hinc : Incident i ep) (idx : ℕ) :
    checkEdge pm ep idx =
      insertPM pm (pairOf i (neighbour i ep)).1 (pairOf i (neighbour i ep)).2 idx := by
  rw [checkEdge, neighbour, pairOf]
  obtain rfl | rfl := hinc
  · rw [if_pos rfl]
    split <;> rfl
  · obtain hlt | heq | hlt := lt_trichotomy ep.aghead ep.agtail
    · rw [if_neg hlt.ne', if_pos hlt, if_neg hlt.not_gt]
    · rw [heq, if_pos rfl]
      split <;> rfl
    · rw [if_neg hlt.ne, if_neg hlt.not_gt, if_pos hlt]

/-- The map has the neighbours of a node at their places, and no other pair of the node. -/
structure Places (i : Fin n) (N : List (Fin n)) (pm : PointMap) : Prop where
  seen : ∀ o ∈ N, pm (pairOf i o) = some (N.idxOf o + 1)
  new : ∀ o, o ∉ N → pm (pairOf i o) = none

theorem Places.check_seen (h : Places i N pm) (hinc : Incident i ep) (hmem : neighbour i ep ∈ N)
    (idx : ℕ) : checkEdge pm ep idx = (N.idxOf (neighbour i ep) + 1, pm) := by
  rw [checkEdge_eq hinc, insertPM, Prod.mk.eta, h.seen _ hmem]

theorem Places.check_new (h : Places i N pm) (hinc : Incident i ep) (hmem : neighbour i ep ∉ N)
    (idx : ℕ) : checkEdge pm ep idx = (idx, update pm (pairOf i (neighbour i ep)) (some idx)) := by
  rw [checkEdge_eq hinc, insertPM, Prod.mk.eta, h.new _ hmem]

/-- A new neighbour gets the place after the others. -/
theorem Places.concat (h : Places i N pm) (ho : o ∉ N) :
    Places i (N ++ [o]) (update pm (pairOf i o) (some (N.length + 1))) := by
  refine ⟨fun o' ho' => ?_, fun o' ho' => ?_⟩
  · obtain rfl | hne := eq_or_ne o' o
    · rw [update_self, idxOf_append_of_notMem ho, idxOf_cons_self, Nat.add_zero]
    · have hold : o' ∈ N :=
        (mem_append.1 ho').resolve_right fun hlast => hne (mem_singleton.1 hlast)
      rw [update_of_ne fun heq => hne (pairOf_inj heq), h.seen o' hold,
        idxOf_append_of_mem hold]
  · have hne : o' ≠ o := fun heq => ho' (heq ▸ mem_append_right N mem_cons_self)
    rw [update_of_ne fun heq => hne (pairOf_inj heq)]
    exact h.new o' fun hold => ho' (mem_append_left _ hold)

/-! ## The arrays -/

section

variable [Zero K]

/-- The arrays with the neighbours and what is at their places. -/
def vtx_data.of (c : Arrays) (i : Fin n) (N : List (Fin n)) (L W : Fin n → K) (D : Fin n → ℤ) :
    vtx_data n K where
  edges := i :: N
  ewgts := if c.haveLen ∨ c.haveDir then some (0 :: N.map L) else none
  eweights := if c.haveWt then some (0 :: N.map W) else none
  edists := if c.haveDir then some (0 :: N.map D) else none

end

/-- The lengths with one more edge. -/
theorem isGreatest_concat [One K] [LinearOrder K] {c : Arrays} {l : List (edge_t n K)} {x : K}
    (h : IsGreatest {y | ∃ e ∈ l, lengthOf c e = y} x) (ep : edge_t n K) :
    IsGreatest {y | ∃ e ∈ l ++ [ep], lengthOf c e = y} (max x (lengthOf c ep)) := by
  have hset : {y | ∃ e ∈ l ++ [ep], lengthOf c e = y} =
      insert (lengthOf c ep) {y | ∃ e ∈ l, lengthOf c e = y} := by
    ext y
    simp [eq_comm, or_comm]
  rw [hset, max_comm]
  exact h.insert _

variable [AddCommMonoid K] [One K] [LinearOrder K] {c : Arrays} {L W : Fin n → K} {D : Fin n → ℤ}

/-- What the arrays say about the edges that have been passed. -/
structure Entries (c : Arrays) (i : Fin n) (es : List (edge_t n K)) (N : List (Fin n))
    (L W : Fin n → K) (D : Fin n → ℤ) : Prop where
  nodup : (i :: N).Nodup
  mem : ∀ o, o ∈ N ↔ toward i o es ≠ []
  len : ∀ o ∈ N, IsGreatest {x | ∃ ep ∈ toward i o es, lengthOf c ep = x} (L o)
  wt : ∀ o ∈ N, W o = ((toward i o es).map (·.factor)).sum
  dir : ∀ o ∈ N, ∃ ep, (toward i o es).head? = some ep ∧ D o = edistOf i ep

/-- The loop is at a point where the edges in the list have been passed. -/
def Passed (c : Arrays) (i : Fin n) (es : List (edge_t n K)) (r : Row n K) : Prop :=
  ∃ N L W D, Entries c i es N L W D ∧ r.vtx = .of c i N L W D ∧ r.j = N.length + 1 ∧
    Places i N r.ps

theorem Passed.start (c : Arrays) (i : Fin n) (ne : ℕ) :
    Passed c i ([] : List (edge_t n K)) ⟨.start c i, fun _ => none, 1, ne⟩ :=
  ⟨[], fun _ => 0, fun _ => 0, fun _ => 0,
    ⟨nodup_singleton i, fun _ => iff_of_false not_mem_nil fun h => h rfl, nofun, nofun,
      nofun⟩, rfl, rfl, nofun, fun _ _ => rfl⟩

/-- Edges to other nodes do not matter to an entry. -/
theorem Entries.of_loop (h : Entries c i es N L W D) (hloop : ep.aghead = ep.agtail) :
    Entries c i (es ++ [ep]) N L W D := by
  have heq : ∀ o, toward i o (es ++ [ep]) = toward i o es := fun _ =>
    toward_concat_of_not fun hne => hne.1 hloop
  refine ⟨h.nodup, fun o => ?_, fun o ho => ?_, fun o ho => ?_, fun o ho => ?_⟩
  · rw [heq]
    exact h.mem o
  · rw [heq]
    exact h.len o ho
  · rw [heq]
    exact h.wt o ho
  · rw [heq]
    exact h.dir o ho

/-- An edge to a neighbour that is there. -/
theorem Entries.seen (h : Entries c i es N L W D) (hloop : ep.aghead ≠ ep.agtail)
    (hmem : neighbour i ep ∈ N) :
    Entries c i (es ++ [ep]) N
      (update L (neighbour i ep) (max (L (neighbour i ep)) (lengthOf c ep)))
      (update W (neighbour i ep) (W (neighbour i ep) + ep.factor)) D := by
  have hsame : toward i (neighbour i ep) (es ++ [ep]) = toward i (neighbour i ep) es ++ [ep] :=
    toward_concat hloop rfl
  have hother : ∀ o, o ≠ neighbour i ep → toward i o (es ++ [ep]) = toward i o es := fun o hne =>
    toward_concat_of_not fun hand => hne hand.2.symm
  refine ⟨h.nodup, fun o => ?_, fun o ho => ?_, fun o ho => ?_, fun o ho => ?_⟩ <;>
    obtain rfl | hne := eq_or_ne o (neighbour i ep)
  · rw [hsame]
    exact iff_of_true hmem (append_ne_nil_of_right_ne_nil _ (cons_ne_nil _ _))
  · rw [hother o hne]
    exact h.mem o
  · rw [hsame, update_self]
    exact isGreatest_concat (h.len _ ho) ep
  · rw [hother o hne, update_of_ne hne]
    exact h.len o ho
  · rw [hsame, update_self, h.wt _ ho, map_append, sum_append, map_singleton,
      sum_singleton]
  · rw [hother o hne, update_of_ne hne]
    exact h.wt o ho
  · obtain ⟨e, he, hd⟩ := h.dir _ ho
    exact ⟨e, by rw [hsame, head?_append, he]; rfl, hd⟩
  · rw [hother o hne]
    exact h.dir o ho

/-- An edge to another neighbour. -/
theorem Entries.new (h : Entries c i es N L W D)
    (hloop : ep.aghead ≠ ep.agtail) (hmem : neighbour i ep ∉ N) :
    Entries c i (es ++ [ep]) (N ++ [neighbour i ep]) (update L (neighbour i ep) (lengthOf c ep))
      (update W (neighbour i ep) ep.factor) (update D (neighbour i ep) (edistOf i ep)) := by
  have hnil : toward i (neighbour i ep) es = [] := by
    by_contra hne
    exact hmem ((h.mem _).2 hne)
  have hsame : toward i (neighbour i ep) (es ++ [ep]) = [ep] := by
    rw [toward_concat hloop rfl, hnil]
    rfl
  have hother : ∀ o, o ≠ neighbour i ep → toward i o (es ++ [ep]) = toward i o es := fun o hne =>
    toward_concat_of_not fun hand => hne hand.2.symm
  have hold : ∀ o ∈ N ++ [neighbour i ep], o ≠ neighbour i ep → o ∈ N := fun o ho hne =>
    (mem_append.1 ho).resolve_right fun hlast => hne (mem_singleton.1 hlast)
  refine ⟨?_, fun o => ?_, fun o ho => ?_, fun o ho => ?_, fun o ho => ?_⟩
  · have hne : i ∉ N ++ [neighbour i ep] := fun hi => (mem_append.1 hi).elim
      (nodup_cons.1 h.nodup).1 fun hlast =>
        neighbour_ne hloop (mem_singleton.1 hlast).symm
    exact nodup_cons.2 ⟨hne, Nodup.append (nodup_cons.1 h.nodup).2
      (nodup_singleton _) (disjoint_singleton.2 hmem)⟩
  · obtain rfl | hne := eq_or_ne o (neighbour i ep)
    · rw [hsame]
      exact iff_of_true (mem_append_right N mem_cons_self) (cons_ne_nil _ _)
    · rw [hother o hne, ← h.mem o]
      exact ⟨fun ho => hold o ho hne, mem_append_left _⟩
  · obtain rfl | hne := eq_or_ne o (neighbour i ep)
    · rw [hsame, update_self]
      exact ⟨⟨ep, mem_cons_self, rfl⟩, fun x ⟨e, he, hx⟩ =>
        hx ▸ (mem_singleton.1 he ▸ le_rfl)⟩
    · rw [hother o hne, update_of_ne hne]
      exact h.len o (hold o ho hne)
  · obtain rfl | hne := eq_or_ne o (neighbour i ep)
    · rw [hsame, update_self, map_singleton, sum_singleton]
    · rw [hother o hne, update_of_ne hne]
      exact h.wt o (hold o ho hne)
  · obtain rfl | hne := eq_or_ne o (neighbour i ep)
    · exact ⟨ep, by rw [hsame]; rfl, update_self _ _ _⟩
    · rw [hother o hne, update_of_ne hne]
      exact h.dir o (hold o ho hne)

/-! ## The loops -/

theorem map_ite_some {α : Type} {p : Prop} [Decidable p] (a : α) (f : α → α) :
    (if p then some a else none).map f = if p then some (f a) else none := by
  split <;> rfl

/-- Without lengths of edges every length is one. -/
theorem Entries.len_one (h : Entries c i es N L W D) (hlen : ¬c.haveLen) (ho : o ∈ N) :
    L o = 1 := by
  obtain ⟨ep, -, heq⟩ := (h.len o ho).1
  rw [← heq, lengthOf, if_neg hlen]

/-- The arrays when an edge to a neighbour that is there has been passed. -/
theorem vtx_data.of_seen (hN : N.Nodup) (ho : o ∈ N) (hone : ¬c.haveLen → L o = 1)
    (ep : edge_t n K) :
    (vtx_data.of c i N L W D).seen c (N.idxOf o + 1) ep =
      .of c i N (update L o (max (L o) (lengthOf c ep))) (update W o (W o + ep.factor)) D := by
  have hW : (0 :: N.map W).modify (N.idxOf o + 1) (· + ep.factor) =
      0 :: N.map (update W o (W o + ep.factor)) := by
    rw [modify_succ_cons, modify_map_update hN ho W (· + ep.factor)]
  simp only [vtx_data.seen, vtx_data.of, map_ite_some, hW, lengthOf, vtx_data.mk.injEq, true_and,
    and_true]
  split
  next hlen => rw [modify_succ_cons, modify_map_update hN ho L (max · ep.dist)]
  next hlen => rw [hone hlen, max_self, ← hone hlen, update_eq_self]

omit [LinearOrder K] in
/-- The arrays when an edge to another neighbour has been passed. -/
theorem vtx_data.of_new (ho : neighbour i ep ∉ N) :
    (vtx_data.of c i N L W D).new c i ep =
      .of c i (N ++ [neighbour i ep]) (update L (neighbour i ep) (lengthOf c ep))
        (update W (neighbour i ep) ep.factor) (update D (neighbour i ep) (edistOf i ep)) := by
  rw [vtx_data.new, vtx_data.of, vtx_data.of, map_ite_some, map_ite_some, map_ite_some,
    map_update_concat ho, map_update_concat ho, map_update_concat ho]
  rfl

/-- What a step of the loop does. -/
theorem Passed.addEdge {r : Row n K} (h : Passed c i es r) (hinc : Incident i ep) :
    Passed c i (es ++ [ep]) (addEdge c i r ep) := by
  obtain ⟨N, L, W, D, hent, hvtx, hj, hps⟩ := h
  rw [Hier.addEdge]
  split
  next hloop => exact ⟨N, L, W, D, hent.of_loop hloop, hvtx, hj, hps⟩
  next hloop =>
    obtain hmem | hmem := Decidable.em (neighbour i ep ∈ N)
    · have hne : N.idxOf (neighbour i ep) + 1 ≠ r.j := by
        have hlt := idxOf_lt_length_of_mem hmem
        omega
      rw [hps.check_seen hinc hmem]
      change Passed c i _ (if N.idxOf (neighbour i ep) + 1 ≠ r.j then _ else _)
      rw [if_pos hne]
      exact ⟨N, _, _, D, hent.seen hloop hmem, by
        rw [hvtx, vtx_data.of_seen (nodup_cons.1 hent.nodup).2 hmem
          fun hlen => hent.len_one hlen hmem], hj, hps⟩
    · rw [hps.check_new hinc hmem]
      change Passed c i _ (if r.j ≠ r.j then _ else _)
      rw [if_neg (not_not_intro rfl)]
      refine ⟨_, _, _, _, hent.new hloop hmem, by rw [hvtx, vtx_data.of_new hmem], ?_, ?_⟩
      · rw [length_append, length_singleton, hj]
      · rw [hj]
        exact hps.concat hmem

/-- The loop over the edges of a node. -/
theorem passed_foldl {r : Row n K} {rest : List (edge_t n K)} (h : Passed c i es r)
    (hinc : ∀ e ∈ rest, Incident i e) : Passed c i (es ++ rest) (rest.foldl (addEdge c i) r) := by
  induction rest generalizing es r with
  | nil => rwa [append_nil]
  | cons ep rest ih =>
    have hstep := h.addEdge (hinc ep mem_cons_self)
    rw [append_cons]
    exact ih hstep fun e he => hinc e (mem_cons_of_mem ep he)

/-! ## The nodes of the graph -/

/-- What is in the arrays of a node after the loop over its edges. -/
structure Neighbours (c : Arrays) (g : graph_t n K) (i : Fin n) (N : List (Fin n))
    (L W : Fin n → K) (D : Fin n → ℤ) : Prop where
  nodup : (i :: N).Nodup
  mem : ∀ j, j ∈ N ↔ i ≠ j ∧ between g i j ≠ []
  len : ∀ j ∈ N, IsGreatest {x | ∃ ep ∈ between g i j, lengthOf c ep = x} (L j)
  wt : ∀ j ∈ N, W j = ((between g i j).map (·.factor)).sum
  dir : ∀ j ∈ N, ∃ ep, (between g i j).head? = some ep ∧ D j = edistOf i ep

theorem addNode_spec (c : Arrays) (g : graph_t n K) (ne : ℕ) (i : Fin n) :
    ∃ N L W D, Neighbours c g i N L W D ∧ (addNode c g ne i).vtx = .of c i N L W D := by
  have hinc : ∀ e ∈ nodeEdges g i, Incident i e := fun _ => incident_of_mem
  obtain ⟨N, L, W, D, hent, hvtx, -, -⟩ := passed_foldl (.start c i ne) hinc
  rw [nil_append] at hent
  have hne : ∀ j ∈ N, i ≠ j := fun j hj heq =>
    (nodup_cons.1 hent.nodup).1 (heq ▸ hj)
  refine ⟨N, L, W, D, ⟨hent.nodup, fun j => ?_, fun j hj => ?_, fun j hj => ?_, fun j hj => ?_⟩,
    hvtx⟩
  · rw [hent.mem]
    obtain rfl | hij := eq_or_ne i j
    · exact iff_of_false (fun hnil => hnil toward_self) fun h => h.1 rfl
    · rw [toward_nodeEdges hij, and_iff_right hij]
  · rw [← toward_nodeEdges (hne j hj)]
    exact hent.len j hj
  · rw [← toward_nodeEdges (hne j hj)]
    exact hent.wt j hj
  · rw [← toward_nodeEdges (hne j hj)]
    exact hent.dir j hj

theorem putNode_foldl {l : List (Fin n)} (s : GraphData n K) :
    (i ∉ l → (l.foldl (putNode c g) s).graph i = s.graph i) ∧
      (i ∈ l → ∃ ne, (l.foldl (putNode c g) s).graph i = (addNode c g ne i).vtx) := by
  induction l generalizing s with
  | nil => exact ⟨fun _ => rfl, fun h => absurd h not_mem_nil⟩
  | cons u l ih =>
    rw [foldl_cons]
    obtain ⟨hold, hnew⟩ := ih (putNode c g s u)
    refine ⟨fun h => ?_, fun h => ?_⟩
    · obtain ⟨hne, h⟩ := not_or.1 (mt mem_cons.2 h)
      exact (hold h).trans (update_of_ne hne _ _)
    · obtain hmem | hmem := Decidable.em (i ∈ l)
      · exact hnew hmem
      · obtain rfl := (mem_cons.1 h).resolve_right hmem
        exact ⟨_, (hold hmem).trans (update_self _ _ _)⟩

/-- The loop over the nodes fills the arrays of each. -/
theorem sparseGraph_spec (c : Arrays) (g : graph_t n K) (i : Fin n) :
    ∃ N L W D, Neighbours c g i N L W D ∧ (sparseGraph c g).graph i = .of c i N L W D := by
  obtain ⟨ne, heq⟩ := (putNode_foldl (c := c) (g := g) ⟨fun _ => ⟨[], none, none, none⟩, 0⟩).2
    (mem_finRange i)
  obtain ⟨N, L, W, D, hrow, hvtx⟩ := addNode_spec c g ne i
  exact ⟨N, L, W, D, hrow, heq.trans hvtx⟩

end Graphviz.Hier
