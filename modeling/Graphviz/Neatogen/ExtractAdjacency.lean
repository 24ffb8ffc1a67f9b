import Graphviz.Neatogen.Dijkstra

/-!
# The graph for `dijkstra_sgd` (`extract_adjacency` in `neatogen/sgd.c`)

The edges of the nodes one after another, without the loops and with all edges between two nodes.
-/

namespace Graphviz.Dijkstra

open Function List Outcome

variable {n : ℕ} {F : Type} [Zero F] [LinearOrder F]

/-- An edge with its length `ED_dist`. -/
structure edge_t (n : ℕ) (F : Type) where
  tail : Fin n
  head : Fin n
  dist : F
  deriving DecidableEq

/-- A graph as far as the layout reads it: the edges at each node in the order of `agfstedge` and
`agnxtedge`, where every edge is at both its ends, and the nodes that are fixed. -/
structure graph_t (n : ℕ) (F : Type) where
  edges : Fin n → List (edge_t n F)
  isFixed : Fin n → Bool
  ends : ∀ i, ∀ e ∈ edges i, e.tail = i ∨ e.head = i
  both : ∀ i, ∀ e ∈ edges i, e ∈ edges e.tail ∧ e ∈ edges e.head

/-- The other end of an edge at a node. -/
def target (np : Fin n) (ep : edge_t n F) : Fin n :=
  if ep.tail = np then ep.head else ep.tail

/-- The body of the inner loop of `extract_adjacency`. -/
def addEdge (np : Fin n) (arcs : List (Fin n × F)) (ep : edge_t n F) :
    Except Fault (List (Fin n × F)) :=
  if ep.tail = ep.head then .ok arcs
  else do
    assert (ep.dist > 0)
    .ok (arcs ++ [(target np ep, ep.dist)])

/-- The body of the loop of `extract_adjacency` over the nodes. -/
def addNode (G : graph_t n F) (g : Adjacency n F) (np : Fin n) : Except Fault (Adjacency n F) := do
  let arcs ← (G.edges np).foldlM (addEdge np) g.arcs
  .ok ⟨update g.sources np g.arcs.length, arcs⟩

/-- The arrays that `extract_adjacency` makes when the model is `MODEL_SHORTPATH`. -/
def adjacency (G : graph_t n F) : Except Fault (Adjacency n F) := do
  let g ← (finRange n).foldlM (addNode G) ⟨fun _ => 0, []⟩
  .ok { g with sources := update g.sources n g.arcs.length }

/-! ## What is in the arrays -/

/-- What an edge at a node gives. -/
def arc (np : Fin n) (ep : edge_t n F) : Option (Fin n × F) :=
  if ep.tail = ep.head then none else some (target np ep, ep.dist)

/-- The edges at a node that are not loops. -/
def graph_t.arcs (G : graph_t n F) (np : Fin n) : List (Fin n × F) :=
  (G.edges np).filterMap (arc np)

variable {G : graph_t n F} {g g' : Adjacency n F} {np : Fin n} {arcs arcs' : List (Fin n × F)}

theorem addEdges_eq_ok {es : List (edge_t n F)} (h : es.foldlM (addEdge np) arcs = .ok arcs') :
    arcs' = arcs ++ es.filterMap (arc np) ∧ ∀ e ∈ es.filterMap (arc np), 0 < e.2 := by
  induction es generalizing arcs with
  | nil =>
    obtain rfl := Except.ok.inj h
    exact ⟨(append_nil _).symm, fun e he => absurd he not_mem_nil⟩
  | cons ep es ih =>
    rw [foldlM_cons, addEdge] at h
    rw [filterMap_cons, arc]
    split at h
    next hloop =>
      rw [if_pos hloop]
      exact ih h
    next hloop =>
      rw [if_neg hloop]
      obtain ⟨arcs1, h1, h⟩ := bind_eq_ok.1 h
      obtain ⟨_, hassert, h1⟩ := bind_eq_ok.1 h1
      obtain rfl := Except.ok.inj h1
      obtain ⟨rfl, hpos⟩ := ih h
      refine ⟨by rw [append_assoc, singleton_append], forall_mem_cons.2 ⟨?_, hpos⟩⟩
      exact assert_eq_ok hassert

/-- The arcs of the nodes of a list are put at the end, and each node has where its arcs begin. -/
theorem addNodes_eq_ok {l : List (Fin n)} (hl : l.Nodup) (h : l.foldlM (addNode G) g = .ok g') :
    g'.arcs = g.arcs ++ l.flatMap G.arcs ∧
      (∀ i : ℕ, (∀ v ∈ l, i ≠ v) → g'.sources i = g.sources i) ∧
      (∀ (l₁ : List (Fin n)) (v : Fin n) (l₂ : List (Fin n)), l = l₁ ++ v :: l₂ →
        g'.sources v = g.arcs.length + (l₁.flatMap G.arcs).length) ∧
      ∀ v ∈ l, ∀ e ∈ G.arcs v, 0 < e.2 := by
  induction l generalizing g with
  | nil =>
    obtain rfl := Except.ok.inj h
    exact ⟨(append_nil _).symm, fun i _ => rfl, fun l₁ v l₂ heq => by simp at heq,
      fun v hv => absurd hv not_mem_nil⟩
  | cons v l ih =>
    rw [foldlM_cons] at h
    obtain ⟨g1, h1, h⟩ := bind_eq_ok.1 h
    rw [addNode] at h1
    obtain ⟨arcs, harcs, h1⟩ := bind_eq_ok.1 h1
    obtain rfl := Except.ok.inj h1
    obtain ⟨rfl, hpos⟩ := addEdges_eq_ok harcs
    obtain ⟨hv, hl⟩ := nodup_cons.1 hl
    obtain ⟨hall, hother, hsources, hpos'⟩ := ih hl h
    refine ⟨?_, fun i hi => ?_, fun l₁ u l₂ heq => ?_, forall_mem_cons.2 ⟨hpos, hpos'⟩⟩
    · rw [hall, append_assoc, flatMap_cons, graph_t.arcs]
    · rw [hother i fun u hu => hi u (mem_cons_of_mem v hu)]
      exact update_of_ne (hi v mem_cons_self) _ _
    · obtain - | ⟨w, l₁⟩ := l₁
      · obtain ⟨rfl, rfl⟩ := cons.inj heq
        rw [hother v fun u hu heq' => hv (Fin.ext heq' ▸ hu)]
        exact update_self _ _ _
      · obtain ⟨rfl, rfl⟩ := cons.inj heq
        rw [hsources l₁ u l₂ rfl, flatMap_cons, length_append, length_append,
          Nat.add_assoc, graph_t.arcs]

/-- Each node has its edges, without the loops and with all of several edges to one node. -/
theorem adjacency_edges (h : adjacency G = .ok g) (v : Fin n) :
    g.edges v = G.arcs v ∧ ∀ e ∈ g.edges v, 0 < e.2 := by
  rw [adjacency] at h
  obtain ⟨g1, h1, h⟩ := bind_eq_ok.1 h
  obtain rfl := Except.ok.inj h
  obtain ⟨hall, -, hsources, hpos⟩ := addNodes_eq_ok (nodup_finRange n) h1
  rw [nil_append] at hall
  have hlen : (finRange n).length = n := length_finRange
  -- where the arcs of the first nodes end
  have hoffset : ∀ k ≤ n, update g1.sources n g1.arcs.length k =
      (((finRange n).take k).flatMap G.arcs).length := by
    intro k hk
    obtain hlt | rfl := hk.lt_or_eq
    · have hsplit : finRange n = (finRange n).take k ++
          (⟨k, hlt⟩ : Fin n) :: (finRange n).drop (k + 1) := by
        have hdrop := drop_eq_getElem_cons (hlen.symm ▸ hlt : k < (finRange n).length)
        rw [getElem_finRange] at hdrop
        exact ((take_append_drop k _).symm.trans (congrArg _ hdrop))
      have hk := hsources _ _ _ hsplit
      rw [length_nil, Nat.zero_add] at hk
      rw [update_of_ne hlt.ne]
      exact hk
    · rw [update_self, hall, take_of_length_le hlen.le]
  have htake : (finRange n).take (v + 1) = (finRange n).take v ++ [v] := by
    have hv : (v : ℕ) < (finRange n).length := hlen.symm ▸ v.isLt
    rw [take_add_one, getElem?_eq_getElem hv, getElem_finRange]
    rfl
  have harcs : g1.arcs = ((finRange n).take v).flatMap G.arcs ++ G.arcs v ++
      ((finRange n).drop (v + 1)).flatMap G.arcs := by
    have hsplit := take_append_drop (v + 1) (finRange n)
    rw [htake] at hsplit
    have hflat := congrArg (flatMap G.arcs) hsplit
    rw [flatMap_append, flatMap_append, flatMap_singleton] at hflat
    exact hall.trans hflat.symm
  have hedges : Adjacency.edges { g1 with sources := update g1.sources n g1.arcs.length } v =
      G.arcs v := by
    rw [Adjacency.edges]
    simp only
    rw [hoffset v v.isLt.le, hoffset (v + 1) v.isLt, htake, flatMap_append, length_append,
      Nat.add_sub_cancel_left, flatMap_singleton, harcs, append_assoc, drop_left,
      take_left]
  exact ⟨hedges, fun e he => hpos v (mem_finRange v) e (hedges ▸ he)⟩

theorem addEdges_ok (es : List (edge_t n F)) (arcs : List (Fin n × F))
    (hpos : ∀ e ∈ es.filterMap (arc np), 0 < e.2) :
    ∃ arcs', es.foldlM (addEdge np) arcs = .ok arcs' := by
  induction es generalizing arcs with
  | nil => exact ⟨arcs, rfl⟩
  | cons ep es ih =>
    rw [foldlM_cons, addEdge]
    rw [filterMap_cons, arc] at hpos
    split
    next hloop =>
      rw [if_pos hloop] at hpos
      exact ih arcs hpos
    next hloop =>
      rw [if_neg hloop] at hpos
      obtain ⟨hep, hpos⟩ := forall_mem_cons.1 hpos
      rw [show assert (ep.dist > 0) = .ok () from if_pos hep]
      exact ih _ hpos

/-- The asserts are passed when the lengths are positive. -/
theorem adjacency_ok (hpos : ∀ v, ∀ e ∈ G.arcs v, 0 < e.2) : ∃ g, adjacency G = .ok g := by
  have hnodes : ∀ (l : List (Fin n)) (g : Adjacency n F),
      ∃ g', l.foldlM (addNode G) g = .ok g' := by
    intro l
    induction l with
    | nil => exact fun g => ⟨g, rfl⟩
    | cons v l ih =>
      intro g
      obtain ⟨arcs, harcs⟩ := addEdges_ok (G.edges v) g.arcs (hpos v)
      obtain ⟨g', hg'⟩ := ih ⟨update g.sources v g.arcs.length, arcs⟩
      refine ⟨g', ?_⟩
      rw [foldlM_cons, addNode, harcs]
      exact hg'
  obtain ⟨g, hg⟩ := hnodes (finRange n) ⟨fun _ => 0, []⟩
  exact ⟨_, by rw [adjacency, hg]; rfl⟩

omit [Zero F] [LinearOrder F] in
/-- No edge of the arrays leads back to its node. -/
theorem ne_of_mem_arcs {e : Fin n × F} (he : e ∈ G.arcs np) : e.1 ≠ np := by
  obtain ⟨ep, -, harc⟩ := mem_filterMap.1 he
  rw [arc] at harc
  split at harc
  next => exact absurd harc (Option.some_ne_none e).symm
  next hloop =>
    obtain rfl := Option.some.inj harc
    change target np ep ≠ np
    rw [target]
    split
    next htail => exact fun hhead => hloop (htail.trans hhead.symm)
    next htail => exact htail

/-- `extract_adjacency` when the model is `MODEL_SHORTPATH`. -/
def extract_adjacency (G : graph_t n F) : Except Fault (graph_sgd n F) :=
  match h : adjacency G with
  | .ok g => .ok { g with
      pinneds := G.isFixed
      nonneg := fun u e he => ((adjacency_edges h u).2 e he).le
      loopless := fun u _ he => ne_of_mem_arcs ((adjacency_edges h u).1 ▸ he) }
  | .error e => .error e

theorem extract_adjacency_ok (hpos : ∀ v, ∀ e ∈ G.arcs v, 0 < e.2) :
    ∃ graph, extract_adjacency G = .ok graph := by
  obtain ⟨g, hg⟩ := adjacency_ok hpos
  rw [extract_adjacency]
  split
  next g' hg' => exact ⟨_, rfl⟩
  next herr =>
    rw [hg] at herr
    exact absurd herr (by simp)

/-- The graph has the edges of the nodes, each at its node. -/
theorem extract_adjacency_spec {graph : graph_sgd n F} (h : extract_adjacency G = .ok graph) :
    (∀ v, graph.edges v = G.arcs v) ∧ graph.pinneds = G.isFixed := by
  rw [extract_adjacency] at h
  split at h
  next g hg =>
    obtain rfl := Except.ok.inj h
    exact ⟨fun v => (adjacency_edges hg v).1, rfl⟩
  next => exact absurd h (by simp)

end Graphviz.Dijkstra
