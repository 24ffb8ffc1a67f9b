import Graphviz.Cgraph.NodeSet
import Graphviz.Cgraph.Rename
import Graphviz.Library.Rose

/-!
# Renaming a node

`agrelabel_node` of `lib/cgraph/node.c`, with `agapply` of `apply.c` and the lookups of `node.c`,
`edge.c` and `obj.c`. The identifier of a node is its key in the set of the nodes of every graph
that has it, and the first part of the key of each edge that leaves it, in the tree of the edges
into the edge's head. Nodes and edges are pointers, here numbers; a subnode is known by its node,
and an edge stands for both of its halves. The names of nodes and those of edges have an internal
map each, and go through it as the names of graphs go through theirs.
-/

namespace Graphviz.Relabel

open BinTree Function List OpenAddressing Option SortedSet

/-! ## The functions -/

/-- `Agraph_t`: whether it is the root, the set of its nodes, and for each of them the tree of the
edges into it, `in_id` of its subnode. The dictionary `e_id` has no tree between two calls. -/
structure Agraph where
  isRoot : Bool
  n_id : NodeSet ℕ
  in_id : ℕ → BinTree ℕ

/-- A root graph with its subgraphs: the names of nodes and the internal map of edges, and the
fields of nodes and edges. -/
structure Hierarchy where
  clos : Clos
  edgeMap : List IMapEntry
  nodeId : ℕ → IdValue
  edgeId : ℕ → IdValue
  tail : ℕ → ℕ
  head : ℕ → ℕ
  undirected : Bool
  graphs : Rose Agraph

/-- The root graph. -/
abbrev Hierarchy.root (h : Hierarchy) : Agraph := h.graphs.label

/-- The names of edges. -/
def Hierarchy.edgeClos (h : Hierarchy) : Clos := { h.clos with imap := h.edgeMap }

section Model

variable (place : ℕ → ℕ)

/-- An identifier as the machine has it. -/
def idtype (id : IdValue) : IDTYPE := UInt64.ofNat (id.val place)

namespace Hierarchy

variable (h : Hierarchy)

/-- `AGID` of a node. -/
abbrev AGID (n : ℕ) : IDTYPE := idtype place (h.nodeId n)

/-- `agfindnode_by_id`, and `agidnode` without `cflag`. -/
def agfindnodeById (g : Agraph) (id : IDTYPE) : Option ℕ := nodeSetFind (h.AGID place) g.n_id id

/-- `agfindnode_by_name`, and `agnode` without `cflag`. -/
def agnode (g : Agraph) (name : CharPtr) : Option ℕ :=
  match (h.clos.agmapnametoid name false).1 with
  | some id => h.agfindnodeById place g (idtype place id)
  | none => none

/-- `agsubrep`. -/
def agsubrep (g : Agraph) (n : ℕ) : Option ℕ :=
  if g.isRoot then some n else h.agfindnodeById place g (h.AGID place n)

/-- `agsubnode` without `cflag`. -/
def agsubnode (g : Agraph) (n : ℕ) : Option ℕ := h.agfindnodeById place g (h.AGID place n)

/-- `subnode_search`. -/
def subnodeSearch (sub : Agraph) (n : ℕ) : Option ℕ :=
  if sub.isRoot then some n else h.agsubnode place sub n

/-- The discipline of `e_id` with `agedgeidcmpf`, for a template with a tag or, as a wildcard,
without one. -/
def edgeIdDisc (wildcard : Bool) : Dtdisc ℕ (IDTYPE × IDTYPE) where
  key e := (h.AGID place (h.tail e), if wildcard then 0 else idtype place (h.edgeId e))
  comparf := compareLex (compareOn Prod.fst) (compareOn Prod.snd)
  makef := none
  trans := inferInstance
  makef_key := nofun

/-- `agfindedge_by_key`, for nodes that are not null. A tag without an identifier is a wildcard. -/
def agfindedgeByKey (g : Agraph) (t hd : ℕ) (key : Option IDTYPE) : Option ℕ × Agraph :=
  match h.agsubrep place g hd with
  | none => (none, g)
  | some sn =>
    let (_, e_id) := dtrestore dtopen (g.in_id sn)
    let (e, e_id) := dttree (h.edgeIdDisc place key.isNone) e_id
      (.DT_MATCH (h.AGID place t, key.getD 0))
    (e, { g with in_id := Function.update g.in_id sn (dtextract e_id).1 })

/-- `agedge` without `cflag`. -/
def agedge (g : Agraph) (t hd : ℕ) (name : CharPtr) : Option ℕ × Agraph :=
  let my_id := (h.edgeClos.agmapnametoid name false).1
  if my_id.isSome ∨ name = .null then
    match h.agfindedgeByKey place g t hd (my_id.map (idtype place)) with
    | (some e, g) => (some e, g)
    | (none, g) =>
      if h.undirected then h.agfindedgeByKey place g hd t (my_id.map (idtype place)) else (none, g)
  else (none, g)

/-- `agsubedge` without `cflag`. -/
def agsubedge (g : Agraph) (e : ℕ) : Option ℕ × Agraph :=
  match h.agsubnode place g (h.tail e), h.agsubnode place g (h.head e) with
  | some t, some hd => h.agfindedgeByKey place g t hd (some (idtype place (h.edgeId e)))
  | _, _ => (none, g)

/-- `agcontains`, for a node of the same root. -/
def agcontainsNode (g : Agraph) (n : ℕ) : Bool :=
  (h.agfindnodeById place g (h.AGID place n)).isSome

/-- `agcontains`, for an edge of the same root. -/
def agcontainsEdge (g : Agraph) (e : ℕ) : Bool := (h.agsubedge place g e).1.isSome

/-- `dict_relabel`. `agraphof` a node is the root, whatever graph the function is applied in. -/
def dictRelabel (new_id : IdValue) (n : ℕ) : Except Failure Hierarchy := do
  let n_id ← nodeSetRemove (h.AGID place) h.root.n_id (h.AGID place n)
  let nodeId := Function.update h.nodeId n new_id
  let n_id ← nodeSetAdd (fun m => idtype place (nodeId m)) n_id n
  .ok { h with nodeId, graphs := .mk { h.root with n_id } h.graphs.children }

mutual

/-- `rec_apply` of `dict_relabel`, subgraphs first. The sets of the subgraphs do not change. -/
def recApply (new_id : IdValue) (n : ℕ) (h : Hierarchy) : Rose Agraph → Except Failure Hierarchy
  | .mk _ subs => do
    let h ← recApplySubgs new_id n h subs
    h.dictRelabel place new_id n

/-- The loop of `rec_apply` over the subgraphs. -/
def recApplySubgs (new_id : IdValue) (n : ℕ) (h : Hierarchy) :
    List (Rose Agraph) → Except Failure Hierarchy
  | [] => .ok h
  | sub :: subs => do
    let h ← match h.subnodeSearch place sub.label n with
      | some subobj => recApply new_id subobj h sub
      | none => .ok h
    recApplySubgs new_id n h subs

end

/-- `agrelabel_node`. -/
def agrelabelNode (n : ℕ) (newname : CharPtr) : Except Failure (Status × Hierarchy) :=
  if (h.agnode place h.root newname).isSome then .ok (.FAILURE, h)
  else
    match h.clos.agmapnametoid newname true with
    | (none, clos) => .ok (.FAILURE, { h with clos })
    | (some new_id, clos) =>
      let h := { h with clos }
      match h.agfindnodeById place h.root (idtype place new_id) with
      | none => do
        let h := { h with clos := h.clos.agfreeid place (h.nodeId n) }
        let h ← recApply place new_id n h h.graphs
        .ok (.SUCCESS, h)
      | some _ => .ok (.FAILURE, { h with clos := h.clos.agfreeid place new_id })

end Hierarchy

end Model

/-! ## What renaming is to keep -/

variable {place : ℕ → ℕ} {h h' : Hierarchy} {x x' : Agraph} {n m t hd e v : ℕ}
  {newname s : CharPtr} {id : IdValue}

/-- The nodes of a graph. -/
def Agraph.nodes (x : Agraph) : List ℕ := items x.n_id.slots

/-- A graph as the library makes it: every node is where its set looks for it, the trees of edges
are in order, and the edges are in the trees of their heads. -/
structure Agraph.Sound (place : ℕ → ℕ) (h : Hierarchy) (x : Agraph) : Prop where
  nodes : Holds (nodeSetConfig (h.AGID place)) x.n_id x.nodes
  sorted : ∀ v, Sorted (h.edgeIdDisc place false).key (h.edgeIdDisc place false).comparf
    (x.in_id v).toList
  ends : ∀ v, ∀ e ∈ (x.in_id v).toList, h.head e = v ∧ v ∈ x.nodes ∧ h.tail e ∈ x.nodes

/-- A graph and a subgraph of it, which is not the root and has nodes and edges of the graph
alone. -/
structure Agraph.Above (a b : Agraph) : Prop where
  isRoot : b.isRoot = false
  nodes : ∀ m ∈ b.nodes, m ∈ a.nodes
  edges : ∀ v, ∀ e ∈ (b.in_id v).toList, e ∈ (a.in_id v).toList

/-- A root graph with its subgraphs as the library makes them. Names are in the dictionary, at
addresses that fit `IDTYPE`, and a name that a node and an edge have has been taken twice. -/
structure Sound (place : ℕ → ℕ) (h : Hierarchy) : Prop where
  clos : h.clos.Sound place
  edgeClos : h.edgeClos.Sound place
  malloc : Allocates place h.clos.strs
  address : ∀ r ≤ h.clos.strs.allocs, place r < 2 ^ 64
  isRoot : h.root.isRoot = true
  above : h.graphs.Descends Agraph.Above
  graphs : ∀ y ∈ h.graphs.subtrees, y.label.Sound place h
  nodeId : ∀ m ∈ h.root.nodes, h.clos.HoldsId (h.nodeId m)
  edgeId : ∀ v, ∀ e ∈ (h.root.in_id v).toList, h.edgeClos.HoldsId (h.edgeId e)
  taken : ∀ m ∈ h.root.nodes, ∀ v, ∀ e ∈ (h.root.in_id v).toList, ∀ r, h.nodeId m = .str r →
    h.edgeId e = .str r → 2 ≤ h.clos.strs.count (h.clos.strs.owner r)
  takenLocal : ∀ ent ∈ h.clos.imap, ∀ ent' ∈ h.edgeMap, ent.str = ent'.str →
    2 ≤ h.clos.strs.count (h.clos.strs.owner ent.str)

/-- What holds of a graph that has the node, before and after the node has been renamed: the new
name finds it and the old one nothing, the nodes and edges are the ones there were, and an edge at
the node that could be found by a key still can, or another one by no key at all. -/
structure Kept (place : ℕ → ℕ) (h : Hierarchy) (n : ℕ) (newname : CharPtr) (x : Agraph)
    (h' : Hierarchy) (x' : Agraph) : Prop where
  agnode : h'.agnode place x' newname = some n
  agsubrep : h'.agsubrep place x' n = some n
  oldname : ∀ s, h.clos.strs.Readable s → h'.clos.strs.Readable s →
    h.agnode place h.root s = some n → h'.agnode place x' s = none
  node : ∀ m ∈ h.root.nodes, h'.agcontainsNode place x' m = h.agcontainsNode place x m
  edge : ∀ v, ∀ e ∈ (h.root.in_id v).toList,
    h'.agcontainsEdge place x' e = h.agcontainsEdge place x e
  agedge : ∀ t ∈ h.root.nodes, ∀ hd ∈ h.root.nodes, t = n ∨ hd = n → ∀ s,
    h.clos.strs.Readable s → ∀ e, (h.agedge place x t hd s).1 = some e →
      ∃ e', (h'.agedge place x' t hd s).1 = some e' ∧ (s ≠ .null → e' = e)

/-- What `agrelabel_node` is to do when it succeeds. -/
def RelabelKeeps (place : ℕ → ℕ) (h : Hierarchy) (n : ℕ) (newname : CharPtr) : Prop :=
  match h.agrelabelNode place n newname with
  | .ok (.SUCCESS, h') =>
    h.graphs.Rel (fun x x' => n ∈ x.nodes → Kept place h n newname x h' x') h'.graphs
  | .ok (.FAILURE, _) => True
  | .error _ => False

/-- The set of a graph looks for an identifier where it has the node. -/
def Agraph.LooksAt (x : Agraph) (n : ℕ) (key : IDTYPE) : Prop :=
  x.n_id.summary.excludes key = false ∧ ∃ j, x.n_id.slots[j]? = some (.item n) ∧
    Reached (nodeSetConfig fun _ => key) x.n_id.slots j n

/-- What a graph that has the node is to be like, to be searched for the node under another
identifier: its set looks for the identifier where the node is, unless the set is that of the root,
and no node between the two identifiers has an edge to where the node has one. -/
def Agraph.Ready (place : ℕ → ℕ) (h : Hierarchy) (n : ℕ) (id : IdValue) (x : Agraph) : Prop :=
  (x.isRoot = false → x.LooksAt n (idtype place id)) ∧
    ∀ v, ∀ e ∈ (x.in_id v).toList, ∀ f ∈ (x.in_id v).toList, h.tail e = n →
      ¬ Between compare (h.AGID place n) (idtype place id) (h.AGID place (h.tail f))

/-- When `agrelabel_node` does what it is to do: if it gives the node an identifier, that is of a
name, and every graph with the node is ready for it. -/
def Relabelable (place : ℕ → ℕ) (h : Hierarchy) (n : ℕ) (newname : CharPtr) : Prop :=
  ∀ id, h.agnode place h.root newname = none → (h.clos.agmapnametoid newname true).1 = some id →
    (∀ m ∈ h.root.nodes, h.AGID place m ≠ idtype place id) →
    newname ≠ .null ∧ ∀ y ∈ h.graphs.subtrees, n ∈ y.label.nodes → y.label.Ready place h n id

/-! ## Searches of the sets -/

/-- What a set finds is one of its nodes with the identifier. -/
theorem nodeSetFind_some {f : ℕ → IDTYPE} {self : NodeSet ℕ} {k : IDTYPE}
    (hfind : nodeSetFind f self k = some m) : m ∈ items self.slots ∧ f m = k := by
  rw [nodeSetFind] at hfind
  split at hfind
  · cases hfind
  · obtain ⟨⟨j, a⟩, hf, rfl⟩ := map_eq_some_iff.1 hfind
    obtain ⟨hj, hk⟩ := findLoop_some hf
    exact ⟨mem_items.2 ⟨j, hj⟩, hk⟩

/-- A node of a set is found by its identifier. -/
theorem nodeSetFind_self {f : ℕ → IDTYPE} {self : NodeSet ℕ} {L : List ℕ}
    (hself : Holds (nodeSetConfig f) self L) (hm : m ∈ L) : nodeSetFind f self (f m) = some m := by
  rw [nodeSetFind_eq hself]
  cases hfind : L.find? (fun a => f a = f m) with
  | none => simpa using find?_eq_none.1 hfind m hm
  | some m' =>
    have heq : f m' = f m := by simpa using find?_some hfind
    rw [inj_on_of_nodup_map hself.nodup (mem_of_find?_eq_some hfind) hm heq]

/-- A graph in which everything is found by its identifier, among the nodes `V`. -/
structure Agraph.Indexed (place : ℕ → ℕ) (h : Hierarchy) (V : List ℕ) (x : Agraph) : Prop where
  ids : ∀ m ∈ V, ∀ m' ∈ V, h.AGID place m = h.AGID place m' → m = m'
  mem : ∀ m ∈ x.nodes, m ∈ V
  root : x.isRoot = true → ∀ m ∈ V, m ∈ x.nodes
  node : ∀ m ∈ x.nodes, h.agfindnodeById place x (h.AGID place m) = some m
  ends : ∀ v, ∀ e ∈ (x.in_id v).toList, h.head e = v ∧ v ∈ x.nodes ∧ h.tail e ∈ x.nodes
  sorted : ∀ v, Sorted (h.edgeIdDisc place false).key (h.edgeIdDisc place false).comparf
    (x.in_id v).toList

namespace Agraph.Indexed

variable {V : List ℕ}

theorem agsubnode (hx : x.Indexed place h V) (hm : m ∈ V) :
    h.agsubnode place x m = if m ∈ x.nodes then some m else none := by
  split
  · rename_i hmem
    exact hx.node m hmem
  · rename_i hmem
    cases hfind : h.agsubnode place x m with
    | none => rfl
    | some m' =>
      obtain ⟨hmem', hid⟩ := nodeSetFind_some hfind
      exact absurd (hx.ids m' (hx.mem m' hmem') m hm hid ▸ hmem') hmem

theorem agsubrep (hx : x.Indexed place h V) (hm : m ∈ V) :
    h.agsubrep place x m = if m ∈ x.nodes then some m else none := by
  rw [Hierarchy.agsubrep]
  split
  · rename_i hroot
    rw [if_pos (hx.root hroot m hm)]
  · exact hx.agsubnode hm

/-- An identifier that no node has finds nothing. -/
theorem agfindnode_none {k : IDTYPE} (hk : ∀ m ∈ x.nodes, h.AGID place m ≠ k) :
    h.agfindnodeById place x k = none := by
  cases hfind : h.agfindnodeById place x k with
  | none => rfl
  | some m =>
    obtain ⟨hmem, hid⟩ := nodeSetFind_some hfind
    exact absurd hid (hk m hmem)

end Agraph.Indexed

/-! ## Searches of the trees -/

section Trees

variable {a b : ℕ} {key : Option IDTYPE}

/-- An edge that a search for the edges from a node is for: the one with the identifier, or any. -/
def Hierarchy.Fits (place : ℕ → ℕ) (h : Hierarchy) (t : ℕ) (key : Option IDTYPE) (e : ℕ) : Prop :=
  h.tail e = t ∧ ∀ k ∈ key, idtype place (h.edgeId e) = k

theorem comparf_eq_iff {w : Bool} {p q : IDTYPE × IDTYPE} :
    (h.edgeIdDisc place w).comparf p q = .eq ↔ p = q := by
  show compareLex (compareOn Prod.fst) (compareOn Prod.snd) p q = .eq ↔ _
  rw [compareLex_eq_eq, compareOn, compareOn, Std.LawfulEqCmp.compare_eq_iff_eq,
    Std.LawfulEqCmp.compare_eq_iff_eq, Prod.ext_iff]

theorem comparf_lt_iff {w : Bool} {p q : IDTYPE × IDTYPE} :
    (h.edgeIdDisc place w).comparf p q = .lt ↔
      compare p.1 q.1 = .lt ∨ p.1 = q.1 ∧ compare p.2 q.2 = .lt := by
  show compareLex (compareOn Prod.fst) (compareOn Prod.snd) p q = .lt ↔ _
  rw [compareLex, Ordering.then_eq_lt, compareOn, compareOn, Std.LawfulEqCmp.compare_eq_iff_eq]

theorem here_dtrestore {tree : BinTree ℕ} : (dtrestore dtopen tree).2.here = tree := by
  cases tree with
  | nil => rfl
  | node l a r => rfl

/-- Where the order of the edges is that of their keys, a wildcard does not disturb it. -/
theorem isLE_of_lt {w : Bool} (hlt : (h.edgeIdDisc place false).comparf
    ((h.edgeIdDisc place false).key a) ((h.edgeIdDisc place false).key b) = .lt) :
    ((h.edgeIdDisc place w).comparf ((h.edgeIdDisc place w).key a)
      ((h.edgeIdDisc place w).key b)).isLE := by
  cases w with
  | false => rw [hlt]; rfl
  | true =>
    obtain hlt | ⟨heq, -⟩ := comparf_lt_iff.1 hlt
    · have hlt' : (h.edgeIdDisc place true).comparf ((h.edgeIdDisc place true).key a)
          ((h.edgeIdDisc place true).key b) = .lt := comparf_lt_iff.2 (.inl hlt)
      rw [hlt']
      rfl
    · have heq' : (h.edgeIdDisc place true).comparf ((h.edgeIdDisc place true).key a)
          ((h.edgeIdDisc place true).key b) = .eq := comparf_eq_iff.2 (Prod.ext heq rfl)
      rw [heq']
      rfl

/-- The search for a tag ends at an edge that it is for. -/
theorem descent_eq_iff (ht : h.AGID place t = h.AGID place (h.tail e) ↔ h.tail e = t) :
    (h.edgeIdDisc place key.isNone).descent (h.AGID place t, key.getD 0) e = .eq ↔
      h.Fits place t key e := by
  rw [Dtdisc.descent, comparf_eq_iff, Hierarchy.Fits, ← ht]
  cases key with
  | none => simp [Hierarchy.edgeIdDisc]
  | some k => simp [Hierarchy.edgeIdDisc, eq_comm (a := k)]

variable {V : List ℕ}

/-- A search of a tree of edges comes to an edge that it is for, if there is one. -/
theorem Agraph.Indexed.find_edge (hx : x.Indexed place h V) (ht : t ∈ V) (v : ℕ)
    (key : Option IDTYPE) :
    (∀ e, find ((h.edgeIdDisc place key.isNone).descent (h.AGID place t, key.getD 0))
        (x.in_id v) = some e → e ∈ (x.in_id v).toList ∧ h.Fits place t key e) ∧
      (find ((h.edgeIdDisc place key.isNone).descent (h.AGID place t, key.getD 0))
        (x.in_id v) = none → ∀ e ∈ (x.in_id v).toList, ¬ h.Fits place t key e) := by
  have hfits : ∀ e ∈ (x.in_id v).toList,
      ((h.edgeIdDisc place key.isNone).descent (h.AGID place t, key.getD 0) e = .eq ↔
        h.Fits place t key e) := by
    intro e he
    obtain ⟨-, -, htail⟩ := hx.ends v e he
    refine descent_eq_iff ⟨fun heq => ?_, fun heq => by rw [heq]⟩
    exact (hx.ids t ht _ (hx.mem _ htail) heq).symm
  refine ⟨fun e he => ?_, fun hnone e he hfit => ?_⟩
  · obtain ⟨hmem, heq⟩ := mem_of_find he
    exact ⟨hmem, (hfits e hmem).1 heq⟩
  · have hmono := List.Pairwise.imp (fun {a b} hlt =>
      (⟨fun ha => Std.TransCmp.lt_of_lt_of_isLE ha (isLE_of_lt hlt),
        fun hb => Std.OrientedCmp.gt_of_lt (Std.TransCmp.lt_of_isLE_of_lt (isLE_of_lt hlt)
          (Std.OrientedCmp.lt_of_gt hb))⟩ :
        ((h.edgeIdDisc place key.isNone).descent (h.AGID place t, key.getD 0) a = .lt →
          (h.edgeIdDisc place key.isNone).descent (h.AGID place t, key.getD 0) b = .lt) ∧
        ((h.edgeIdDisc place key.isNone).descent (h.AGID place t, key.getD 0) b = .gt →
          (h.edgeIdDisc place key.isNone).descent (h.AGID place t, key.getD 0) a = .gt)))
      (hx.sorted v)
    obtain ⟨y, hy⟩ := exists_find hmono he ((hfits e he).2 hfit)
    rw [hnone] at hy
    cases hy

/-- A graph of the same nodes, with the same edges in its trees. -/
theorem Agraph.Indexed.congr (hx : x.Indexed place h V) (hroot : x'.isRoot = x.isRoot)
    (hid : x'.n_id = x.n_id) (hin : ∀ v, (x'.in_id v).toList = (x.in_id v).toList) :
    x'.Indexed place h V := by
  have hnodes : x'.nodes = x.nodes := by rw [Agraph.nodes, Agraph.nodes, hid]
  refine ⟨hx.ids, fun m hm => hx.mem m (hnodes ▸ hm), fun hr m hm => ?_, fun m hm => ?_,
    fun v e he => ?_, fun v => ?_⟩
  · rw [hnodes]
    exact hx.root (hroot ▸ hr) m hm
  · rw [Hierarchy.agfindnodeById, hid]
    exact hx.node m (hnodes ▸ hm)
  · rw [hnodes]
    exact hx.ends v e (hin v ▸ he)
  · rw [hin v]
    exact hx.sorted v

/-- `agfindedge_by_key` finds an edge that it is to find, if there is one. -/
theorem Agraph.Indexed.agfindedgeByKey (hx : x.Indexed place h V) (ht : t ∈ V) (hhd : hd ∈ V)
    (key : Option IDTYPE) :
    (∀ e, (h.agfindedgeByKey place x t hd key).1 = some e →
      e ∈ (x.in_id hd).toList ∧ h.Fits place t key e) ∧
    ((h.agfindedgeByKey place x t hd key).1 = none →
      ∀ e ∈ (x.in_id hd).toList, ¬ h.Fits place t key e) ∧
    (h.agfindedgeByKey place x t hd key).2.Indexed place h V ∧
    ∀ v, ((h.agfindedgeByKey place x t hd key).2.in_id v).toList = (x.in_id v).toList := by
  rw [Hierarchy.agfindedgeByKey, hx.agsubrep hhd]
  by_cases hmem : hd ∈ x.nodes
  · have hsearch := hx.find_edge ht hd key
    have hfind := match_find (h.edgeIdDisc place key.isNone) (dtrestore dtopen (x.in_id hd)).2
      (h.AGID place t, key.getD 0)
    have hlist := match_toList (h.edgeIdDisc place key.isNone) (dtrestore dtopen (x.in_id hd)).2
      (h.AGID place t, key.getD 0)
    rw [here_dtrestore] at hfind hlist
    have hin : ∀ v, (Function.update x.in_id hd (dtextract (dttree (h.edgeIdDisc place key.isNone)
        (dtrestore dtopen (x.in_id hd)).2 (.DT_MATCH (h.AGID place t, key.getD 0))).2).1 v).toList =
          (x.in_id v).toList := by
      intro v
      by_cases hv : v = hd
      · rw [hv, update_self]
        exact hlist
      · rw [update_of_ne hv]
    rw [if_pos hmem]
    dsimp only
    rw [hfind]
    exact ⟨hsearch.1, hsearch.2, hx.congr rfl rfl hin, hin⟩
  · rw [if_neg hmem]
    exact ⟨nofun, fun _ e he => absurd (hx.ends hd e he).2.1 hmem, hx, fun _ => rfl⟩

/-- An edge is known by its ends and its identifier. -/
theorem Agraph.Indexed.fits_unique (hx : x.Indexed place h V) {k : IDTYPE}
    (ha : a ∈ (x.in_id v).toList) (hb : b ∈ (x.in_id v).toList)
    (hfa : h.Fits place t (some k) a) (hfb : h.Fits place t (some k) b) : a = b := by
  have hkey : (h.edgeIdDisc place false).key a = (h.edgeIdDisc place false).key b :=
    Prod.ext (congrArg (h.AGID place) (hfa.1.trans hfb.1.symm))
      ((hfa.2 k rfl).trans (hfb.2 k rfl).symm)
  have hfind := find_key (hx.sorted v) ha
  rw [hkey, find_key (hx.sorted v) hb] at hfind
  exact (some.inj hfind).symm

/-- An edge of the graph is found by its ends and its tag. -/
theorem Agraph.Indexed.agsubedge (hx : x.Indexed place h V) (htail : h.tail e ∈ V)
    (hhead : h.head e ∈ V) : (h.agsubedge place x e).1.isSome ↔
      h.tail e ∈ x.nodes ∧ ∃ f ∈ (x.in_id (h.head e)).toList,
        h.Fits place (h.tail e) (some (idtype place (h.edgeId e))) f := by
  rw [Hierarchy.agsubedge, hx.agsubnode htail, hx.agsubnode hhead]
  by_cases hmem : h.tail e ∈ x.nodes
  · by_cases hmem' : h.head e ∈ x.nodes
    · rw [if_pos hmem, if_pos hmem']
      obtain ⟨hsome, hnone, -⟩ := hx.agfindedgeByKey htail hhead
        (some (idtype place (h.edgeId e)))
      rw [and_iff_right hmem]
      constructor
      · intro hfound
        obtain ⟨f, hf⟩ := isSome_iff_exists.1 hfound
        exact ⟨f, hsome f hf⟩
      · rintro ⟨f, hf, hfits⟩
        rw [isSome_iff_ne_none]
        exact fun hno => hnone hno f hf hfits
    · rw [if_pos hmem, if_neg hmem']
      refine iff_of_false Bool.false_ne_true ?_
      rintro ⟨-, f, hf, -⟩
      exact hmem' (hx.ends _ f hf).2.1
  · rw [if_neg hmem]
    exact iff_of_false Bool.false_ne_true fun hex => hmem hex.1

/-- `agedge` finds an edge that it is to find, if there is one, and in an undirected graph also one
that goes the other way. -/
theorem Agraph.Indexed.agedge (hx : x.Indexed place h V) (ht : t ∈ V) (hhd : hd ∈ V)
    (hkey : (h.edgeClos.agmapnametoid s false).1.map (idtype place) = key)
    (hname : (h.edgeClos.agmapnametoid s false).1.isSome ∨ s = .null) :
    (∀ e, (h.agedge place x t hd s).1 = some e →
      e ∈ (x.in_id hd).toList ∧ h.Fits place t key e ∨ h.undirected ∧
        (∀ f ∈ (x.in_id hd).toList, ¬ h.Fits place t key f) ∧
        e ∈ (x.in_id t).toList ∧ h.Fits place hd key e) ∧
    ((h.agedge place x t hd s).1 = none → (∀ e ∈ (x.in_id hd).toList, ¬ h.Fits place t key e) ∧
        (h.undirected → ∀ e ∈ (x.in_id t).toList, ¬ h.Fits place hd key e)) := by
  obtain ⟨hsome, hnone, hx1, hin⟩ := hx.agfindedgeByKey ht hhd key
  rw [Hierarchy.agedge, if_pos hname, hkey]
  cases hres : h.agfindedgeByKey place x t hd key with
  | mk o x1 =>
    rw [hres] at hsome hnone hx1 hin
    cases o with
    | some e => exact ⟨fun e' he' => .inl (hsome e' he'), nofun⟩
    | none =>
      obtain ⟨hsome', hnone', -⟩ := hx1.agfindedgeByKey hhd ht key
      rw [hin t] at hsome' hnone'
      cases hu : h.undirected with
      | false => exact ⟨nofun, fun _ => ⟨hnone rfl, nofun⟩⟩
      | true =>
        exact ⟨fun e' he' => .inr ⟨rfl, hnone rfl, hsome' e' he'⟩,
          fun hno => ⟨hnone rfl, fun _ => hnone' hno⟩⟩

end Trees

/-! ## The run -/

section Run

/-- The hierarchy after a node has got an identifier: the set of the root is another. -/
def Hierarchy.withId (h : Hierarchy) (n : ℕ) (id : IdValue) (n_id : NodeSet ℕ) : Hierarchy :=
  { h with
    nodeId := Function.update h.nodeId n id
    graphs := .mk { h.root with n_id } h.graphs.children }

/-- The identifiers after a node has got a new one. -/
abbrev Hierarchy.newIds (place : ℕ → ℕ) (h : Hierarchy) (n : ℕ) (id : IdValue) (m : ℕ) : IDTYPE :=
  idtype place (Function.update h.nodeId n id m)

theorem newIds_self : h.newIds place n id n = idtype place id := by
  rw [Hierarchy.newIds, update_self]

theorem newIds_of_ne (hm : m ≠ n) : h.newIds place n id m = h.AGID place m := by
  rw [Hierarchy.newIds, update_of_ne hm]

/-- The set of the root holds its nodes under their identifiers of now. -/
abbrev Hierarchy.Rekeyed (place : ℕ → ℕ) (h : Hierarchy) (n : ℕ) (id : IdValue)
    (n_id : NodeSet ℕ) : Prop :=
  Holds (nodeSetConfig (h.newIds place n id)) n_id (n :: h.root.nodes.filter (· ≠ n))

/-- A hierarchy before or after `dict_relabel`. -/
def Hierarchy.Stage (place : ℕ → ℕ) (h : Hierarchy) (n : ℕ) (id : IdValue) (h₁ : Hierarchy) :
    Prop :=
  h₁ = h ∨ ∃ n_id, h.Rekeyed place n id n_id ∧ h₁ = h.withId n id n_id

variable {h₁ : Hierarchy}

/-- The nodes of the root have distinct identifiers. -/
theorem ids_inj {f : ℕ → IDTYPE} {self : NodeSet ℕ} {L : List ℕ} {m' : ℕ}
    (hroot : Holds (nodeSetConfig f) self L) (hm : m ∈ L) (hm' : m' ∈ L) (heq : f m = f m') :
    m = m' :=
  inj_on_of_nodup_map hroot.nodup hm hm' heq

/-- A new identifier keeps the identifiers distinct. -/
theorem newIds_inj {L : List ℕ} {m' : ℕ}
    (hinj : ∀ m ∈ L, ∀ m' ∈ L, h.AGID place m = h.AGID place m' → m = m')
    (hfresh : ∀ m ∈ L, h.AGID place m ≠ idtype place id) (hm : m ∈ L) (hm' : m' ∈ L)
    (heq : h.newIds place n id m = h.newIds place n id m') : m = m' := by
  by_cases hmn : m = n
  · by_cases hmn' : m' = n
    · exact hmn.trans hmn'.symm
    · rw [hmn, newIds_self, newIds_of_ne hmn'] at heq
      exact absurd heq.symm (hfresh m' hm')
  · by_cases hmn' : m' = n
    · rw [hmn', newIds_self, newIds_of_ne hmn] at heq
      exact absurd heq (hfresh m hm)
    · rw [newIds_of_ne hmn, newIds_of_ne hmn'] at heq
      exact hinj m hm m' hm' heq

theorem withId_withId {n_id n_id' : NodeSet ℕ} :
    (h.withId n id n_id).withId n id n_id' = h.withId n id n_id' := by
  simp only [Hierarchy.withId, update_idem]
  rfl

theorem newIds_withId (n_id : NodeSet ℕ) :
    (h.withId n id n_id).newIds place n id = h.newIds place n id := by
  funext m
  simp only [Hierarchy.newIds, Hierarchy.withId, update_idem]

theorem dictRelabel_eq {n_id n_id' : NodeSet ℕ}
    (hremove : nodeSetRemove (h.AGID place) h.root.n_id (h.AGID place n) = .ok n_id)
    (hadd : nodeSetAdd (h.newIds place n id) n_id n = .ok n_id') :
    h.dictRelabel place id n = .ok (h.withId n id n_id') := by
  rw [Hierarchy.dictRelabel, hremove]
  show (do let n_id ← nodeSetAdd (h.newIds place n id) n_id n; _) = _
  rw [hadd]
  rfl

variable (hroot : Holds (nodeSetConfig (h.AGID place)) h.root.n_id h.root.nodes)
  (hfresh : ∀ m ∈ h.root.nodes, h.AGID place m ≠ idtype place id) (hn : n ∈ h.root.nodes)

include hfresh

/-- The other nodes of the root keep their identifiers, and have the new one no more than the old
one. -/
theorem rekeyed_of_removed {n_id : NodeSet ℕ}
    (hold : Holds (nodeSetConfig (h.newIds place n id)) n_id (h.root.nodes.filter (· ≠ n))) :
    ∃ n_id', nodeSetAdd (h.newIds place n id) n_id n = .ok n_id' ∧
      h.Rekeyed place n id n_id' := by
  refine hold.add fun hmem => ?_
  obtain ⟨m, hm, heq⟩ := mem_map.1 hmem
  rw [mem_filter, decide_eq_true_eq] at hm
  have heq : h.newIds place n id m = h.newIds place n id n := heq
  rw [newIds_self, newIds_of_ne hm.2] at heq
  exact hfresh m hm.1 heq

include hroot hn

/-- `dict_relabel` leaves the root's set with the node under its new identifier, also when it has
done so before. -/
theorem Hierarchy.Stage.dictRelabel (hstage : h.Stage place n id h₁) :
    ∃ n_id, h₁.dictRelabel place id n = .ok (h.withId n id n_id) ∧
      h.Rekeyed place n id n_id := by
  obtain rfl | ⟨n_id, hrekeyed, rfl⟩ := hstage
  · obtain ⟨n_id, hremove, hold⟩ := hroot.remove (k := h₁.AGID place n)
    have hfilter : h₁.root.nodes.filter (fun a => (nodeSetConfig (h₁.AGID place)).key a ≠
        h₁.AGID place n) = h₁.root.nodes.filter (· ≠ n) := by
      refine filter_congr fun m hm => decide_eq_decide.2 (not_congr ⟨fun heq => ?_,
        fun heq => congrArg _ heq⟩)
      exact ids_inj hroot hm hn heq
    rw [hfilter] at hold
    have hold' : Holds (nodeSetConfig (h₁.newIds place n id)) n_id
        (h₁.root.nodes.filter (· ≠ n)) := by
      have hsame : ∀ m ∈ h₁.root.nodes.filter (· ≠ n),
          h₁.newIds place n id m = h₁.AGID place m := fun m hm => by
        rw [mem_filter, decide_eq_true_eq] at hm
        exact newIds_of_ne hm.2
      refine hold.congr hsame rfl fun m hm hcov => ?_
      show n_id.summary.Covers (h₁.newIds place n id m)
      rw [hsame m hm]
      exact hcov
    obtain ⟨n_id', hadd, hrekeyed⟩ := rekeyed_of_removed hfresh hold'
    exact ⟨n_id', dictRelabel_eq hremove hadd, hrekeyed⟩
  · obtain ⟨n_id', hremove, hold⟩ := hrekeyed.remove (k := h.newIds place n id n)
    have hfilter : (n :: h.root.nodes.filter (· ≠ n)).filter (fun a =>
        (nodeSetConfig (h.newIds place n id)).key a ≠ h.newIds place n id n) =
          h.root.nodes.filter (· ≠ n) := by
      rw [filter_cons_of_neg (by simp [nodeSetConfig])]
      refine filter_eq_self.2 fun m hm => decide_eq_true fun heq => ?_
      exact (nodup_cons.1 hrekeyed.nodup).1 (mem_map.2 ⟨m, hm, heq⟩)
    rw [hfilter] at hold
    obtain ⟨n_id'', hadd, hrekeyed'⟩ := rekeyed_of_removed hfresh hold
    refine ⟨n_id'', ?_, hrekeyed'⟩
    rw [← newIds_withId n_id] at hadd
    have hrelabel := dictRelabel_eq (h := h.withId n id n_id) hremove hadd
    rwa [withId_withId] at hrelabel

/-- A node that is found in a subgraph by the identifier that the node has now is the node. -/
theorem Hierarchy.Stage.subnodeSearch (hstage : h.Stage place n id h₁)
    (hsub : ∀ m ∈ x.nodes, m ∈ h.root.nodes) (hfound : h₁.subnodeSearch place x n = some m) :
    m = n := by
  rw [Hierarchy.subnodeSearch] at hfound
  split at hfound
  · exact (some.inj hfound).symm
  · obtain ⟨hmem, hid⟩ := nodeSetFind_some hfound
    obtain rfl | ⟨n_id, -, rfl⟩ := hstage
    · exact ids_inj hroot (hsub m hmem) hn hid
    · exact newIds_inj (fun m hm m' hm' => ids_inj hroot hm hm') hfresh (hsub m hmem) hn hid

mutual

/-- `rec_apply` leaves the root's set with the node under its new identifier. -/
theorem recApply_spec {h₁ : Hierarchy} : ∀ {y : Rose Agraph}, (∀ z ∈ Rose.forest y.children,
    ∀ m ∈ z.label.nodes, m ∈ h.root.nodes) → h.Stage place n id h₁ →
    ∃ n_id, Hierarchy.recApply place id n h₁ y = .ok (h.withId n id n_id) ∧
      h.Rekeyed place n id n_id
  | .mk x subs, hsub, hstage => by
    have hsub : ∀ z ∈ Rose.forest subs, ∀ m ∈ z.label.nodes, m ∈ h.root.nodes := hsub
    obtain ⟨h₂, hsubs, hstage₂⟩ := recApplySubgs_spec hsub hstage
    obtain ⟨n_id, hrelabel, hrekeyed⟩ := hstage₂.dictRelabel hroot hfresh hn
    refine ⟨n_id, ?_, hrekeyed⟩
    rw [Hierarchy.recApply, hsubs]
    exact hrelabel

theorem recApplySubgs_spec {h₁ : Hierarchy} : ∀ {subs : List (Rose Agraph)},
    (∀ z ∈ Rose.forest subs, ∀ m ∈ z.label.nodes, m ∈ h.root.nodes) → h.Stage place n id h₁ →
    ∃ h₂, Hierarchy.recApplySubgs place id n h₁ subs = .ok h₂ ∧ h.Stage place n id h₂
  | [], _, hstage => ⟨h₁, by rw [Hierarchy.recApplySubgs], hstage⟩
  | sub :: subs, hsub, hstage => by
    have hhere : ∀ z ∈ sub.subtrees, ∀ m ∈ z.label.nodes, m ∈ h.root.nodes := fun z hz =>
      hsub z (Rose.mem_forest_cons.2 (.inl hz))
    have hrest : ∀ z ∈ Rose.forest subs, ∀ m ∈ z.label.nodes, m ∈ h.root.nodes := fun z hz =>
      hsub z (Rose.mem_forest_cons.2 (.inr hz))
    rw [Hierarchy.recApplySubgs]
    cases hfound : h₁.subnodeSearch place sub.label n with
    | none =>
      obtain ⟨h₂, hsubs, hstage₂⟩ := recApplySubgs_spec hrest hstage
      exact ⟨h₂, hsubs, hstage₂⟩
    | some m =>
      rw [hstage.subnodeSearch hroot hfresh hn (hhere sub Rose.mem_subtrees_self) hfound]
      obtain ⟨n_id, hsub', hrekeyed⟩ := recApply_spec
        (fun z hz => hhere z (Rose.mem_subtrees_iff.2 (.inr hz))) hstage
      obtain ⟨h₂, hsubs, hstage₂⟩ := recApplySubgs_spec hrest (.inr ⟨n_id, hrekeyed, rfl⟩)
      refine ⟨h₂, ?_, hstage₂⟩
      dsimp only
      rw [hsub']
      exact hsubs

end

end Run

/-! ## What is found under the new identifier -/

section Rekey

variable {V : List ℕ}

/-- In a graph as the library makes it everything is found. -/
theorem Agraph.Sound.indexed (hx : x.Sound place h)
    (hids : ∀ m ∈ V, ∀ m' ∈ V, h.AGID place m = h.AGID place m' → m = m')
    (hmem : ∀ m ∈ x.nodes, m ∈ V) (hroot : x.isRoot = true → ∀ m ∈ V, m ∈ x.nodes) :
    x.Indexed place h V where
  ids := hids
  mem := hmem
  root := hroot
  node := fun _ hm => nodeSetFind_self hx.nodes hm
  ends := hx.ends
  sorted := hx.sorted

variable (hx : x.Indexed place h V) (hfresh : ∀ m ∈ V, h.AGID place m ≠ idtype place id)

include hx hfresh

/-- The node is found under its new identifier exactly where the set looks for it. -/
theorem Agraph.Indexed.find_new (hcap : x.n_id.capacity = x.n_id.slots.length) (hn : n ∈ x.nodes) :
    nodeSetFind (h.newIds place n id) x.n_id (idtype place id) = some n ↔
      x.LooksAt n (idtype place id) := by
  have honly : ∀ b ∈ items x.n_id.slots, h.newIds place n id b = h.newIds place n id n → b = n :=
    fun b hb heq => newIds_inj hx.ids hfresh (hx.mem b hb) (hx.mem n hn) heq
  have hiff := find_iff_reached (c := nodeSetConfig (h.newIds place n id)) hcap honly
  have hkey : (nodeSetConfig (h.newIds place n id)).key n = idtype place id := newIds_self
  have hreach : ∀ j, Reached (nodeSetConfig (h.newIds place n id)) x.n_id.slots j n ↔
      Reached (nodeSetConfig fun _ => idtype place id) x.n_id.slots j n := by
    intro j
    rw [Reached, Reached, hkey]
    rfl
  rw [hkey] at hiff
  simp only [hreach] at hiff
  rw [nodeSetFind, Agraph.LooksAt, ← hiff]
  cases x.n_id.summary.excludes (idtype place id) with
  | true => simp
  | false => simp

/-- The other nodes are found as before. -/
theorem Agraph.Indexed.find_other (hn : n ∈ V) (hm : m ∈ x.nodes) (hmn : m ≠ n) :
    nodeSetFind (h.newIds place n id) x.n_id (h.newIds place n id m) = some m := by
  have hold := hx.node m hm
  rw [newIds_of_ne hmn]
  have hkey : ∀ b ∈ items x.n_id.slots,
      (h.newIds place n id b = h.AGID place m ↔ h.AGID place b = h.AGID place m) := by
    intro b hb
    by_cases hbn : b = n
    · rw [hbn, newIds_self]
      refine iff_of_false (hfresh m (hx.mem m hm)).symm fun heq => ?_
      exact hmn (hx.ids n hn m (hx.mem m hm) heq).symm
    · rw [newIds_of_ne hbn]
  rw [Hierarchy.agfindnodeById, nodeSetFind] at hold
  rw [nodeSetFind, ← hold, Table.find, Table.find]
  have hcongr : findLoop (nodeSetConfig (h.newIds place n id)) x.n_id.slots x.n_id.capacity
      (h.AGID place m) x.n_id.capacity 0 = findLoop (nodeSetConfig (h.AGID place)) x.n_id.slots
        x.n_id.capacity (h.AGID place m) x.n_id.capacity 0 := findLoop_congr rfl hkey
  rw [hcongr]

omit hx hfresh in
/-- The order of two edges, by the identifiers of the nodes that they leave. -/
theorem key_lt_iff {n_id : NodeSet ℕ} {w : Bool} {a b : ℕ} :
    ((h.withId n id n_id).edgeIdDisc place w).comparf
        (((h.withId n id n_id).edgeIdDisc place false).key a)
        (((h.withId n id n_id).edgeIdDisc place false).key b) = .lt ↔
      compare (h.newIds place n id (h.tail a)) (h.newIds place n id (h.tail b)) = .lt ∨
        h.newIds place n id (h.tail a) = h.newIds place n id (h.tail b) ∧
          compare (idtype place (h.edgeId a)) (idtype place (h.edgeId b)) = .lt :=
  comparf_lt_iff

omit hx hfresh in
theorem ne_eq_of_ne {a b : IDTYPE} (hab : a ≠ b) : compare a b ≠ .eq :=
  fun heq => hab (Std.LawfulEqCmp.compare_eq_iff_eq.1 heq)

/-- A tree of edges is in order under the new identifier exactly if no edge leaves a node between
the two identifiers where one leaves the node. -/
theorem Agraph.Indexed.sorted_iff (hn : n ∈ V) (n_id : NodeSet ℕ) :
    Sorted ((h.withId n id n_id).edgeIdDisc place false).key
        ((h.withId n id n_id).edgeIdDisc place false).comparf (x.in_id v).toList ↔
      ∀ e ∈ (x.in_id v).toList, ∀ f ∈ (x.in_id v).toList, h.tail e = n →
        ¬ Between compare (h.AGID place n) (idtype place id) (h.AGID place (h.tail f)) := by
  have htail : ∀ e ∈ (x.in_id v).toList, h.tail e ∈ V := fun e he =>
    hx.mem _ (hx.ends v e he).2.2
  have hne : ∀ e ∈ (x.in_id v).toList, h.tail e ≠ n →
      compare (h.AGID place n) (h.AGID place (h.tail e)) ≠ .eq ∧
        compare (idtype place id) (h.AGID place (h.tail e)) ≠ .eq := by
    intro e he hen
    exact ⟨ne_eq_of_ne fun heq => hen (hx.ids n hn _ (htail e he) heq).symm,
      ne_eq_of_ne fun heq => hfresh _ (htail e he) heq.symm⟩
  rw [sorted_iff_of_sorted (hx.sorted v)]
  constructor
  · intro hnew e he f hf hen hbetween
    have hself : h.newIds place n id (h.tail e) = idtype place id := by rw [hen, newIds_self]
    have hfn : h.tail f ≠ n := by
      intro hfn
      rw [hfn] at hbetween
      obtain ⟨hlt, -⟩ | ⟨-, hlt⟩ := hbetween
      · exact not_lt_self _ hlt
      · exact not_lt_self _ hlt
    rw [← hen] at hbetween
    obtain ⟨hlt, hlt'⟩ | ⟨hlt', hlt⟩ := hbetween
    · have hkey : (h.edgeIdDisc place false).comparf ((h.edgeIdDisc place false).key e)
          ((h.edgeIdDisc place false).key f) = .lt := comparf_lt_iff.2 (.inl hlt)
      have hres := key_lt_iff.1 (hnew e he f hf hkey)
      rw [hself, newIds_of_ne hfn] at hres
      obtain hres | ⟨hres, -⟩ := hres
      · exact absurd (Std.OrientedCmp.gt_of_lt hlt') (by rw [hres]; nofun)
      · exact (hne f hf hfn).2 (hres ▸ Std.ReflCmp.compare_self)
    · have hkey : (h.edgeIdDisc place false).comparf ((h.edgeIdDisc place false).key f)
          ((h.edgeIdDisc place false).key e) = .lt := comparf_lt_iff.2 (.inl hlt)
      have hres := key_lt_iff.1 (hnew f hf e he hkey)
      rw [hself, newIds_of_ne hfn] at hres
      obtain hres | ⟨hres, -⟩ := hres
      · exact absurd (Std.OrientedCmp.gt_of_lt hlt') (by rw [hres]; nofun)
      · exact (hne f hf hfn).2 (hres ▸ Std.ReflCmp.compare_self)
  · intro hno a ha b hb hlt
    refine key_lt_iff.2 ?_
    have hlt := comparf_lt_iff.1 hlt
    by_cases han : h.tail a = n
    · by_cases hbn : h.tail b = n
      · rw [han, hbn]
        refine .inr ⟨rfl, ?_⟩
        obtain hlt | ⟨-, hlt⟩ := hlt
        · have hlt : compare (h.AGID place (h.tail a)) (h.AGID place (h.tail b)) = .lt := hlt
          rw [han, hbn] at hlt
          exact absurd hlt (not_lt_self _)
        · exact hlt
      · rw [han, newIds_self, newIds_of_ne hbn]
        obtain ⟨hold, hnew⟩ := hne b hb hbn
        rw [(compare_iff_not_between hold hnew).2 (hno a ha b hb han)]
        obtain hlt | ⟨heq, -⟩ := hlt
        · exact .inl (han ▸ hlt)
        · exact absurd (hx.ids _ (htail a ha) _ (htail b hb) heq) (han ▸ Ne.symm hbn)
    · by_cases hbn : h.tail b = n
      · rw [hbn, newIds_self, newIds_of_ne han]
        obtain ⟨hold, hnew⟩ := hne a ha han
        rw [(swap_iff_not_between hold hnew).2 (hno b hb a ha hbn)]
        obtain hlt | ⟨heq, -⟩ := hlt
        · exact .inl (hbn ▸ hlt)
        · exact absurd (hx.ids _ (htail a ha) _ (htail b hb) heq) (hbn ▸ han)
      · rw [newIds_of_ne han, newIds_of_ne hbn]
        exact hlt

end Rekey

/-! ## The names -/

section Names

variable {c c' : Clos} {r r' k : ℕ}

/-- An odd identifier stays odd in the machine. -/
theorem idtype_odd_toNat (place : ℕ → ℕ) (k : ℕ) : (idtype place (.odd k)).toNat % 2 = 1 := by
  rw [idtype, UInt64.toNat_ofNat', IdValue.val]
  omega

theorem idtype_str_toNat (hr : place r < 2 ^ 64) : (idtype place (.str r)).toNat = place r := by
  rw [idtype, UInt64.toNat_ofNat', IdValue.val, Nat.mod_eq_of_lt hr]

/-- Zero is no object's identifier. -/
theorem idtype_ne_null (hc : c.Sound place) (haddress : ∀ r, c.strs.Live r → place r < 2 ^ 64)
    (hid : c.HoldsId id) : idtype place id ≠ idtype place .null := by
  intro heq
  have hzero : (idtype place id).toNat = 0 := by rw [heq]; rfl
  obtain ⟨k, rfl⟩ | ⟨r, rfl, hr, -⟩ := hid
  · have hodd := idtype_odd_toNat place k
    omega
  · rw [idtype_str_toNat (haddress r hr)] at hzero
    have hpos := (hc.placed.even r hr).2
    omega

/-- An object with the identifier of a string has the string. -/
theorem eq_str_of_idtype (hc : c.Sound place) (haddress : ∀ r, c.strs.Live r → place r < 2 ^ 64)
    (hid : c.HoldsId id) (hr : c.strs.Live r) (heq : idtype place id = idtype place (.str r)) :
    id = .str r := by
  have heq := congrArg UInt64.toNat heq
  rw [idtype_str_toNat (haddress r hr)] at heq
  obtain ⟨k, rfl⟩ | ⟨r', rfl, hr', -⟩ := hid
  · have hodd := idtype_odd_toNat place k
    have heven := (hc.placed.even r hr).1
    omega
  · rw [idtype_str_toNat (haddress r' hr')] at heq
    rw [hc.placed.inj r' r hr' hr heq]

/-- What the names stand for when a node has got an identifier, and its old one has been freed: the
new name for the new identifier, the old one for no node's, and an edge's name for what it did. -/
structure NamesKept (place : ℕ → ℕ) (h : Hierarchy) (n : ℕ) (newname : CharPtr) (id : IdValue)
    (c : Clos) : Prop where
  newname : (c.agmapnametoid newname false).1 = some id
  oldname : ∀ s, h.clos.strs.Readable s → h.agnode place h.root s = some n → ∀ j,
    (c.agmapnametoid s false).1 = some j → ∀ m ∈ h.root.nodes,
      h.newIds place n id m ≠ idtype place j
  edge : ∀ s, h.clos.strs.Readable s → ∀ i, (h.edgeClos.agmapnametoid s false).1 = some i →
    ∀ v, ∀ e ∈ (h.root.in_id v).toList, idtype place (h.edgeId e) = idtype place i →
      (({ c with imap := h.edgeMap } : Clos).agmapnametoid s false).1 = some i

theorem agmapnametoid_null : (c.agmapnametoid .null false).1 = none := by
  rw [Clos.agmapnametoid, if_neg fun hg => hg.1 rfl, if_pos rfl]
  rfl

variable (hs : Sound place h) (hn : n ∈ h.root.nodes)
  (hfresh : ∀ m ∈ h.root.nodes, h.AGID place m ≠ idtype place id)
  (hcreate : Clos.Creates place h.clos newname id c')

include hs

theorem Sound.address_live : ∀ r, h.clos.strs.Live r → place r < 2 ^ 64 := fun r hr =>
  hs.address r (hs.clos.placed.live_lt hr).le

theorem Sound.root_nodes : Holds (nodeSetConfig (h.AGID place)) h.root.n_id h.root.nodes :=
  (hs.graphs _ Rose.mem_subtrees_self).nodes

include hcreate

theorem Sound.address_create : ∀ r, c'.strs.Live r → place r < 2 ^ 64 := fun r hr => by
  obtain hr | rfl := hcreate.live r hr
  · exact hs.address_live r hr
  · exact hs.address _ le_rfl

include hn hfresh

/-- The string of the old name, if an edge has the name, too, has been taken twice. -/
theorem Sound.taken_twice {i : IdValue}
    (hi : (({ c' with imap := h.edgeMap } : Clos).agmapnametoid s false).1 = some i)
    (hne : i ≠ .null) (hnull : s ≠ .null) (he : e ∈ (h.root.in_id v).toList)
    (hei : idtype place (h.edgeId e) = idtype place i)
    (howner : c'.strs.owner r = (c'.strs.text s, c'.strs.kind s))
    (hfreed : h.nodeId n = .str r ∨
      ∃ isym ∈ c'.imap, isym.str = r ∧ isym.id.val place = (h.nodeId n).val place) :
    2 ≤ c'.strs.count (c'.strs.owner r) := by
  obtain ⟨b, hb, hname⟩ := Clos.bound_of_agmapnametoid hnull hi hne
  have hlive : c'.strs.Live r → b = r := fun hr => by
    rw [Strings.agstrbind, ← howner, Strings.find_owner hr] at hb
    exact (some.inj hb).symm
  obtain hfreed | ⟨isym, hisym, hstr, hval⟩ := hfreed
  · obtain ⟨k, hk⟩ | ⟨r', hr', hlive', hglobal⟩ := hs.nodeId n hn
    · rw [hk] at hfreed
      cases hfreed
    · rw [hfreed] at hr'
      cases hr'
      have hown := hcreate.strs.owner r hlive'
      obtain ⟨-, rfl⟩ | ⟨hg, -⟩ := hname
      · rw [hlive (hcreate.strs.live hlive' trivial)] at hei
        have hedge := eq_str_of_idtype hs.edgeClos hs.address_live (hs.edgeId v e he) hlive' hei
        rw [hown]
        exact (hs.taken n hn v e he r hfreed hedge).trans (hcreate.count _)
      · refine absurd (Clos.head?_of_not_global hg hnull) ?_
        have htext : (c'.strs.owner r).1 = c'.strs.text s := congrArg Prod.fst howner
        rw [hown] at htext
        exact htext ▸ hglobal
  · have hold : isym ∈ h.clos.imap := by
      obtain hold | hid := hcreate.imap isym hisym
      · exact hold
      · rw [hid] at hval
        exact absurd (congrArg UInt64.ofNat hval.symm) (hfresh n hn)
    obtain ⟨-, hlive', hlocal⟩ := hcreate.sound.imap isym hisym
    rw [hstr] at hlive' hlocal
    obtain ⟨hg, -⟩ | ⟨-, ent, hent, -⟩ := hname
    · rw [congrArg Prod.fst howner] at hlocal
      exact absurd hlocal hg.2
    · have hent_str : ent.str = b := by simpa using find?_some hent
      have htwo := hs.takenLocal isym hold ent (mem_of_find?_eq_some hent)
        (by rw [hstr, hent_str, hlive hlive'])
      rw [hstr] at htwo
      rw [hcreate.strs.owner r (hstr ▸ (hs.clos.imap isym hold).2.1)]
      exact htwo.trans (hcreate.count _)

/-- The names stand for what they are to stand for. -/
theorem Sound.names (hread : h.clos.strs.Readable newname) (hnull : newname ≠ .null) :
    NamesKept place h n newname id (c'.agfreeid place (h.nodeId n)) := by
  have hold := (hs.nodeId n hn).agrees hcreate.strs
  have hread' : ∀ s, h.clos.strs.Readable s → c'.strs.Readable s := fun s hs r hr =>
    hcreate.strs.live (hs r hr) trivial
  refine ⟨?_, fun s hsread hfound j hj m hm => ?_, fun s hsread i hi v e he hei => ?_⟩
  · refine hcreate.sound.agfreeid hold (hread' _ hread) hnull hcreate.resolves
      hcreate.holds.ne_null fun hval => ?_
    exact hfresh n hn (congrArg UInt64.ofNat hval.symm)
  · rw [Hierarchy.agnode] at hfound
    cases hi : (h.clos.agmapnametoid s false).1 with
    | none =>
      rw [hi] at hfound
      cases hfound
    | some i =>
      rw [hi] at hfound
      obtain ⟨-, hid⟩ := nodeSetFind_some hfound
      have hne : i ≠ .null := by
        rintro rfl
        exact idtype_ne_null hs.clos hs.address_live (hs.nodeId n hn) hid
      have hsnull : s ≠ .null := by
        rintro rfl
        rw [agmapnametoid_null] at hi
        cases hi
      have hi' := Clos.agmapnametoid_agrees hsread hsnull hcreate.strs trivial
        (fun r ent hent _ => hcreate.find r ent hent) hi hne
      by_cases hmn : m = n
      · rw [hmn, newIds_self]
        obtain rfl | hj := hcreate.sound.agmapnametoid_agfreeid hold hj
        · exact idtype_ne_null hcreate.sound (hs.address_create hcreate) hcreate.holds
        · rw [hi', some.injEq] at hj
          rw [← hj, ← hid]
          exact (hfresh n hn).symm
      · rw [newIds_of_ne hmn]
        obtain rfl | hj := hcreate.sound.agmapnametoid_agfreeid hold hj
        · exact idtype_ne_null hs.clos hs.address_live (hs.nodeId m hm)
        · rw [hi', some.injEq] at hj
          rw [← hj, ← hid]
          exact fun heq => hmn (ids_inj hs.root_nodes hm hn heq)
  · have hne : i ≠ .null := by
      rintro rfl
      exact idtype_ne_null hs.edgeClos hs.address_live (hs.edgeId v e he) hei
    have hsnull : s ≠ .null := by
      rintro rfl
      rw [agmapnametoid_null] at hi
      cases hi
    have hi' : (({ c' with imap := h.edgeMap } : Clos).agmapnametoid s false).1 = some i :=
      Clos.agmapnametoid_agrees (c := h.edgeClos) hsread hsnull hcreate.strs trivial
        (fun _ _ hent _ => hent) hi hne
    obtain heq | ⟨r, imap, heq, -, hfreed⟩ := hcreate.sound.agfreeid_eq hold
    · rw [heq]
      exact hi'
    · rw [heq]
      by_cases howner : c'.strs.owner r = (c'.strs.text s, c'.strs.kind s)
      · have htwo := hs.taken_twice hn hfresh hcreate hi' hne hsnull he hei howner hfreed
        exact Clos.agmapnametoid_agrees (c := { c' with imap := h.edgeMap }) (hread' s hsread)
          hsnull (Strings.agstrfree_agrees_of_two htwo false) trivial (fun _ _ hent _ => hent) hi'
          hne
      · exact Clos.agmapnametoid_agrees (c := { c' with imap := h.edgeMap }) (hread' s hsread)
          hsnull (c'.strs.agstrfree_agrees r false) (Ne.symm howner) (fun _ _ hent _ => hent) hi'
          hne

end Names

/-! ## The graphs afterwards -/

section After

variable {V : List ℕ} {c : Clos} {n_id : NodeSet ℕ}

/-- The hierarchy after a successful renaming. -/
def Hierarchy.after (h : Hierarchy) (c : Clos) (n : ℕ) (id : IdValue) (n_id : NodeSet ℕ) :
    Hierarchy :=
  ({ h with clos := c } : Hierarchy).withId n id n_id

/-- What is searched for in `h.after` is searched for under the new identifiers. -/
theorem after_agfindnodeById {k : IDTYPE} : (h.after c n id n_id).agfindnodeById place x k =
    nodeSetFind (h.newIds place n id) x.n_id k :=
  rfl

/-- A graph in which the node is where its set looks for it, and between whose identifiers there is
none that matters, is found in as before. -/
theorem Agraph.Indexed.after (hx : x.Indexed place h V)
    (hfresh : ∀ m ∈ V, h.AGID place m ≠ idtype place id) (hn : n ∈ V)
    (hfind : n ∈ x.nodes → nodeSetFind (h.newIds place n id) x.n_id (idtype place id) = some n)
    (hno : ∀ v, ∀ e ∈ (x.in_id v).toList, ∀ f ∈ (x.in_id v).toList, h.tail e = n →
      ¬ Between compare (h.AGID place n) (idtype place id) (h.AGID place (h.tail f))) :
    x.Indexed place (h.after c n id n_id) V where
  ids := fun _ hm _ hm' heq => newIds_inj hx.ids hfresh hm hm' heq
  mem := hx.mem
  root := hx.root
  node := fun m hm => by
    by_cases hmn : m = n
    · subst hmn
      have hkey : (h.after c m id n_id).AGID place m = idtype place id := newIds_self
      rw [after_agfindnodeById, hkey]
      exact hfind hm
    · exact hx.find_other hfresh hn hm hmn
  ends := hx.ends
  sorted := fun v => (hx.sorted_iff hfresh hn n_id).2 (hno v)

/-- Where everything is found under the new identifiers, the renaming has kept what it is to
keep. -/
theorem Agraph.Indexed.kept (hx : x.Indexed place h h.root.nodes)
    (hx' : x'.Indexed place (h.after c n id n_id) h.root.nodes)
    (hnodes : ∀ m, m ∈ x'.nodes ↔ m ∈ x.nodes) (hin : x'.in_id = x.in_id)
    (hroot : h.root.Sound place h)
    (hedges : ∀ v, ∀ e ∈ (x.in_id v).toList, e ∈ (h.root.in_id v).toList) (hnx : n ∈ x.nodes)
    (hnames : NamesKept place h n newname id c) :
    Kept place h n newname x (h.after c n id n_id) x' where
  agnode := by
    have hkey : (h.after c n id n_id).AGID place n = idtype place id := newIds_self
    have hres : ((h.after c n id n_id).clos.agmapnametoid newname false).1 = some id :=
      hnames.newname
    rw [Hierarchy.agnode, hres]
    dsimp only
    rw [← hkey]
    exact hx'.node n ((hnodes n).2 hnx)
  agsubrep := by
    rw [hx'.agsubrep (hx.mem n hnx), if_pos ((hnodes n).2 hnx)]
  oldname := fun s hread _ hfound => by
    rw [Hierarchy.agnode]
    split
    · rename_i j hj
      exact Agraph.Indexed.agfindnode_none fun m hm =>
        hnames.oldname s hread hfound j hj m (hx'.mem m hm)
    · rfl
  node := fun m hm => by
    show ((h.after c n id n_id).agsubnode place x' m).isSome = (h.agsubnode place x m).isSome
    rw [hx'.agsubnode hm, hx.agsubnode hm]
    simp only [hnodes]
  edge := fun v e he => by
    obtain ⟨hhead, hv, htail⟩ := hroot.ends v e he
    have hhead' : h.head e ∈ h.root.nodes := hhead ▸ hv
    rw [Bool.eq_iff_iff]
    refine (hx'.agsubedge htail hhead').trans (Iff.trans ?_ (hx.agsubedge htail hhead').symm)
    rw [hin]
    exact and_congr_left fun _ => hnodes _
  agedge := fun t ht hd hhd _ s hread e hfound => by
    by_cases hname : (h.edgeClos.agmapnametoid s false).1.isSome ∨ s = .null
    · obtain ⟨hsome, -⟩ := hx.agedge ht hhd rfl hname
      have hold := hsome e hfound
      have hkey : ((h.after c n id n_id).edgeClos.agmapnametoid s false).1 =
          (h.edgeClos.agmapnametoid s false).1 := by
        cases hi : (h.edgeClos.agmapnametoid s false).1 with
        | none =>
          obtain hname | rfl := hname
          · rw [hi] at hname
            cases hname
          · exact agmapnametoid_null
        | some i =>
          rw [hi] at hold
          obtain ⟨he, hfit⟩ | ⟨-, -, he, hfit⟩ := hold
          · exact hnames.edge s hread i hi hd e (hedges hd e he) (hfit.2 _ rfl)
          · exact hnames.edge s hread i hi t e (hedges t e he) (hfit.2 _ rfl)
      have hunique : ∀ v t a b, a ∈ (x.in_id v).toList → b ∈ (x.in_id v).toList →
          h.Fits place t ((h.edgeClos.agmapnametoid s false).1.map (idtype place)) a →
          h.Fits place t ((h.edgeClos.agmapnametoid s false).1.map (idtype place)) b →
          s ≠ .null → a = b := by
        intro v t a b ha hb hfa hfb hsnull
        obtain ⟨i, hi⟩ := isSome_iff_exists.1 (hname.resolve_right hsnull)
        rw [hi] at hfa hfb
        exact hx.fits_unique ha hb hfa hfb
      rw [← hkey] at hname
      obtain ⟨hsome', hnone'⟩ := hx'.agedge ht hhd rfl hname
      rw [hkey, hin] at hsome' hnone'
      cases hres : ((h.after c n id n_id).agedge place x' t hd s).1 with
      | none =>
        obtain ⟨he, hfit⟩ | ⟨hu, -, he, hfit⟩ := hold
        · exact absurd hfit ((hnone' hres).1 e he)
        · exact absurd hfit ((hnone' hres).2 hu e he)
      | some e' =>
        refine ⟨e', rfl, fun hsnull => ?_⟩
        obtain ⟨he, hfit⟩ | ⟨-, hno, he, hfit⟩ := hold
        · obtain ⟨he', hfit'⟩ | ⟨-, hno', -⟩ := hsome' e' hres
          · exact hunique hd t e' e he' he hfit' hfit hsnull
          · exact absurd hfit (hno' e he)
        · obtain ⟨he', hfit'⟩ | ⟨-, -, he', hfit'⟩ := hsome' e' hres
          · exact absurd hfit' (hno e' he')
          · exact hunique t hd e' e he' he hfit' hfit hsnull
    · rw [Hierarchy.agedge, if_neg hname] at hfound
      cases hfound

/-- Where the nodes and edges are the ones there were, every edge can be found under the new
identifiers. -/
theorem Agraph.Indexed.find_of_contains (hx : x.Indexed place h V)
    (hfresh : ∀ m ∈ V, h.AGID place m ≠ idtype place id) (hmem : ∀ m ∈ x'.nodes, m ∈ V)
    (hin : x'.in_id = x.in_id) (he : e ∈ (x.in_id v).toList)
    (hfound : (h.after c n id n_id).agcontainsEdge place x' e = true) :
    find (((h.after c n id n_id).edgeIdDisc place false).descent
      (((h.after c n id n_id).edgeIdDisc place false).key e)) (x.in_id v) = some e := by
  obtain ⟨hhead, hv, htail⟩ := hx.ends v e he
  have hsame : ∀ m ∈ V, ∀ m', (h.after c n id n_id).agsubnode place x' m = some m' →
      m' = m := by
    intro m hm m' hfind
    obtain ⟨hm', heq⟩ := nodeSetFind_some hfind
    exact newIds_inj hx.ids hfresh (hmem m' hm') hm heq
  rw [Hierarchy.agcontainsEdge, Hierarchy.agsubedge] at hfound
  split at hfound
  · rename_i t hd ht hhd
    obtain rfl := hsame _ (hx.mem _ htail) t ht
    obtain rfl := hsame _ (hhead ▸ hx.mem _ hv) hd hhd
    have hrep : (h.after c n id n_id).agsubrep place x' ((h.after c n id n_id).head e) =
        some v := by
      rw [Hierarchy.agsubrep]
      split
      · exact congrArg some hhead
      · exact hhd.trans (congrArg some hhead)
    rw [Hierarchy.agfindedgeByKey, hrep] at hfound
    dsimp only at hfound
    rw [match_find, here_dtrestore, hin] at hfound
    obtain ⟨f, hf⟩ := isSome_iff_exists.1 hfound
    obtain ⟨hfmem, hfkey⟩ := mem_of_find hf
    obtain ⟨htails, hids⟩ := Prod.mk.inj (comparf_eq_iff.1 hfkey)
    have hftail : h.tail f = h.tail e := newIds_inj hx.ids hfresh
      (hx.mem _ (hx.ends v f hfmem).2.2) (hx.mem _ htail) htails.symm
    have hfits : h.Fits place (h.tail e) (some (idtype place (h.edgeId e))) e :=
      ⟨rfl, fun k hk => some.inj hk⟩
    have hfe : f = e := hx.fits_unique hfmem he
      ⟨hftail, fun k hk => hids.symm.trans (some.inj hk)⟩ hfits
    rw [hfe] at hf
    exact hf
  · cases hfound

/-- Where the renaming has kept what it is to keep, no edge comes between the identifiers. -/
theorem Agraph.Indexed.ready_edges (hx : x.Indexed place h V)
    (hfresh : ∀ m ∈ V, h.AGID place m ≠ idtype place id) (hn : n ∈ V)
    (hmem : ∀ m ∈ x'.nodes, m ∈ V) (hin : x'.in_id = x.in_id)
    (hedges : ∀ v, ∀ e ∈ (x.in_id v).toList, e ∈ (h.root.in_id v).toList)
    (hkept : Kept place h n newname x (h.after c n id n_id) x') (v : ℕ) :
    ∀ e ∈ (x.in_id v).toList, ∀ f ∈ (x.in_id v).toList, h.tail e = n →
      ¬ Between compare (h.AGID place n) (idtype place id) (h.AGID place (h.tail f)) := by
  refine (hx.sorted_iff hfresh hn n_id).1 (sorted_of_find (sorted_nodup (hx.sorted v)) ?_)
  intro e he
  obtain ⟨hhead, hv, htail⟩ := hx.ends v e he
  have hfound : (h.after c n id n_id).agcontainsEdge place x' e = true := by
    rw [hkept.edge v e (hedges v e he)]
    exact (hx.agsubedge (hx.mem _ htail) (hhead ▸ hx.mem _ hv)).2
      ⟨htail, e, hhead ▸ he, rfl, fun k hk => some.inj hk⟩
  exact hx.find_of_contains hfresh hmem hin he hfound

end After

/-! ## The theorem -/

section Main

variable {c : Clos} {n_id : NodeSet ℕ} {y : Rose Agraph}

theorem Agraph.Above.trans (a b c : Agraph) (h : a.Above b) (h' : b.Above c) : a.Above c :=
  ⟨h'.isRoot, fun m hm => h.nodes m (h'.nodes m hm), fun v e he => h.edges v e (h'.edges v e he)⟩

variable (hs : Sound place h)

include hs

/-- A graph of the hierarchy is the root or below it. -/
theorem Sound.below (hy : y ∈ h.graphs.subtrees) : (∀ m ∈ y.label.nodes, m ∈ h.root.nodes) ∧
    ∀ v, ∀ e ∈ (y.label.in_id v).toList, e ∈ (h.root.in_id v).toList := by
  obtain rfl | hy := Rose.mem_subtrees_iff.1 hy
  · exact ⟨fun m hm => hm, fun v e he => he⟩
  · have habove := hs.above.label Agraph.Above.trans y hy
    exact ⟨habove.nodes, habove.edges⟩

/-- Everything is found in the graphs of the hierarchy. -/
theorem Sound.indexed (hy : y ∈ h.graphs.subtrees) : y.label.Indexed place h h.root.nodes := by
  refine (hs.graphs y hy).indexed (fun m hm m' hm' => ids_inj hs.root_nodes hm hm')
    (hs.below hy).1 fun hroot m hm => ?_
  obtain rfl | hy := Rose.mem_subtrees_iff.1 hy
  · exact hm
  · rw [(hs.above.label Agraph.Above.trans y hy).isRoot] at hroot
    cases hroot

variable (hn : n ∈ h.root.nodes)
  (hfresh : ∀ m ∈ h.root.nodes, h.AGID place m ≠ idtype place id)
  (hnames : NamesKept place h n newname id c)

include hn hfresh hnames

/-- In a subgraph with the node the renaming keeps what it is to keep exactly if the subgraph is
ready for it. -/
theorem Sound.kept_iff_subgraph (hy : y ∈ Rose.forest h.graphs.children) (hny : n ∈ y.label.nodes) :
    Kept place h n newname y.label (h.after c n id n_id) y.label ↔
      y.label.Ready place h n id := by
  have hmem : y ∈ h.graphs.subtrees := Rose.mem_subtrees_iff.2 (.inr hy)
  have hx := hs.indexed hmem
  have hfind := hx.find_new hfresh (hs.graphs y hmem).nodes.capacity hny
  have hroot := (hs.above.label Agraph.Above.trans y hy).isRoot
  constructor
  · intro hkept
    refine ⟨fun _ => hfind.1 ?_, hx.ready_edges hfresh hn hx.mem rfl (hs.below hmem).2 hkept⟩
    have hnode := hkept.agnode
    have hres : ((h.after c n id n_id).clos.agmapnametoid newname false).1 = some id :=
      hnames.newname
    rw [Hierarchy.agnode, hres] at hnode
    exact hnode
  · intro hready
    exact hx.kept (hx.after hfresh hn (fun _ => hfind.2 (hready.1 hroot)) hready.2)
      (fun _ => Iff.rfl) rfl (hs.graphs _ Rose.mem_subtrees_self) (hs.below hmem).2 hny hnames

/-- In the root the set is that of the nodes under their new identifiers. -/
theorem Sound.kept_iff_root (hrekeyed : h.Rekeyed place n id n_id) :
    Kept place h n newname h.root (h.after c n id n_id) { h.root with n_id } ↔
      h.root.Ready place h n id := by
  have hx := hs.indexed Rose.mem_subtrees_self
  have hsound := hs.graphs _ Rose.mem_subtrees_self
  have hnodes : ∀ m, m ∈ ({ h.root with n_id } : Agraph).nodes ↔ m ∈ h.root.nodes := by
    intro m
    rw [Agraph.nodes, hrekeyed.perm.mem_iff, mem_cons, mem_filter]
    by_cases hmn : m = n
    · simp [hmn, hn]
    · simp [hmn]
  constructor
  · intro hkept
    refine ⟨fun hroot => ?_, hx.ready_edges hfresh hn (fun m hm => (hnodes m).1 hm) rfl
      (hs.below Rose.mem_subtrees_self).2 hkept⟩
    rw [hs.isRoot] at hroot
    cases hroot
  · intro hready
    refine hx.kept ⟨fun m hm m' hm' => newIds_inj hx.ids hfresh hm hm',
      fun m hm => (hnodes m).1 hm, fun _ m hm => (hnodes m).2 hm, fun m hm => ?_,
      fun v e he => ?_, fun v => (hx.sorted_iff hfresh hn n_id).2 (hready.2 v)⟩ hnodes rfl hsound
      (hs.below Rose.mem_subtrees_self).2 hn hnames
    · have hholds : Holds (nodeSetConfig (h.newIds place n id)) n_id (items n_id.slots) :=
        hrekeyed.of_perm hrekeyed.perm.symm
      exact nodeSetFind_self hholds hm
    · obtain ⟨hhead, hv, htail⟩ := hx.ends v e he
      exact ⟨hhead, (hnodes v).2 hv, (hnodes _).2 htail⟩

omit hn hfresh hnames in
/-- `agrelabel_node` gives the node an identifier if no node has the name or the identifier. -/
theorem Sound.agrelabelNode_cases (newname : CharPtr) (hn : n ∈ h.root.nodes) :
    (∃ h', h.agrelabelNode place n newname = .ok (.FAILURE, h')) ∧
        (∀ id, h.agnode place h.root newname = none →
          (h.clos.agmapnametoid newname true).1 = some id →
            ∃ m ∈ h.root.nodes, h.AGID place m = idtype place id) ∨
      h.agnode place h.root newname = none ∧
        ∃ id c, h.clos.agmapnametoid newname true = (some id, c) ∧
          (∀ m ∈ h.root.nodes, h.AGID place m ≠ idtype place id) ∧
            ∃ n_id, h.Rekeyed place n id n_id ∧ h.agrelabelNode place n newname =
              .ok (.SUCCESS, h.after (c.agfreeid place (h.nodeId n)) n id n_id) := by
  rw [Hierarchy.agrelabelNode]
  cases hname : h.agnode place h.root newname with
  | some m => exact .inl ⟨⟨h, rfl⟩, nofun⟩
  | none =>
    cases hmap : h.clos.agmapnametoid newname true with
    | mk o c =>
      cases o with
      | none => exact .inl ⟨⟨_, rfl⟩, nofun⟩
      | some id =>
        have hfind : ({ h with clos := c } : Hierarchy).agfindnodeById place h.root
            (idtype place id) = h.agfindnodeById place h.root (idtype place id) := rfl
        cases hfound : h.agfindnodeById place h.root (idtype place id) with
        | some m =>
          obtain ⟨hm, hid⟩ := nodeSetFind_some hfound
          refine .inl ⟨⟨{ h with clos := c.agfreeid place id }, ?_⟩, fun id' _ hid' => ?_⟩
          · simp only [isSome_none, Bool.false_eq_true, if_false, hfind, hfound]
          · cases hid'
            exact ⟨m, hm, hid⟩
        | none =>
          have hfresh : ∀ m ∈ h.root.nodes, h.AGID place m ≠ idtype place id := by
            intro m hm heq
            rw [← heq, (hs.indexed Rose.mem_subtrees_self).node m hm] at hfound
            cases hfound
          have hsub : ∀ z ∈ Rose.forest h.graphs.children, ∀ m ∈ z.label.nodes,
              m ∈ h.root.nodes := fun z hz =>
            (hs.below (Rose.mem_subtrees_iff.2 (.inr hz))).1
          obtain ⟨n_id, hrun, hrekeyed⟩ := recApply_spec
            (h := { h with clos := c.agfreeid place (h.nodeId n) }) hs.root_nodes hfresh hn
            (y := h.graphs) hsub (.inl rfl)
          refine .inr ⟨rfl, id, c, rfl, hfresh, n_id, hrekeyed, ?_⟩
          simp only [isSome_none, Bool.false_eq_true, if_false, hfind, hfound]
          rw [hrun]
          rfl

omit hn hfresh hnames in
/-- Whatever the hierarchy is, `agrelabel_node` does what it is to do, if it succeeds, exactly where
every graph with the node is ready for the new identifier. -/
theorem agrelabelNode_keeps_iff (hn : n ∈ h.root.nodes) (hread : h.clos.strs.Readable newname) :
    RelabelKeeps place h n newname ↔ Relabelable place h n newname := by
  obtain ⟨⟨h', hrun⟩, htaken⟩ | ⟨hname, id, c, hmap, hfresh, n_id, hrekeyed, hrun⟩ :=
    hs.agrelabelNode_cases newname hn
  · rw [RelabelKeeps, hrun]
    refine iff_of_true trivial fun id hname hmap hfresh => ?_
    obtain ⟨m, hm, hid⟩ := htaken id hname hmap
    exact absurd hid (hfresh m hm)
  · have hcond : Relabelable place h n newname ↔ newname ≠ .null ∧
        ∀ y ∈ h.graphs.subtrees, n ∈ y.label.nodes → y.label.Ready place h n id := by
      refine ⟨fun hall => hall id hname (by rw [hmap]) hfresh, fun hall id' _ hid' _ => ?_⟩
      rw [hmap] at hid'
      cases hid'
      exact hall
    have hkeeps : RelabelKeeps place h n newname ↔
        (n ∈ h.root.nodes → Kept place h n newname h.root
          (h.after (c.agfreeid place (h.nodeId n)) n id n_id) { h.root with n_id }) ∧
        ∀ y ∈ Rose.forest h.graphs.children, n ∈ y.label.nodes → Kept place h n newname y.label
          (h.after (c.agfreeid place (h.nodeId n)) n id n_id) y.label := by
      rw [RelabelKeeps, hrun]
      exact Rose.rel_mk_children_iff
    rw [hcond, hkeeps]
    by_cases hnull : newname = .null
    · subst hnull
      refine iff_of_false (fun hkept => ?_) fun hall => hall.1 rfl
      have hnode := (hkept.1 hn).agnode
      rw [Hierarchy.agnode, agmapnametoid_null] at hnode
      cases hnode
    · obtain ⟨id', c', hmap', hcreate⟩ := hs.clos.create hs.malloc hread hnull
      rw [hmap] at hmap'
      cases hmap'
      have hnames := hs.names hn hfresh hcreate hread hnull
      have hroot := hs.kept_iff_root hn hfresh hnames hrekeyed
      have hsubs : ∀ y ∈ Rose.forest h.graphs.children, n ∈ y.label.nodes →
          (Kept place h n newname y.label (h.after (c.agfreeid place (h.nodeId n)) n id n_id)
            y.label ↔ y.label.Ready place h n id) :=
        fun y hy hny => hs.kept_iff_subgraph hn hfresh hnames hy hny
      rw [and_iff_right hnull]
      constructor
      · rintro ⟨hkept, hkepts⟩ y hy hny
        obtain rfl | hy := Rose.mem_subtrees_iff.1 hy
        · exact hroot.1 (hkept hn)
        · exact (hsubs y hy hny).1 (hkepts y hy hny)
      · intro hready
        refine ⟨fun _ => hroot.2 (hready _ Rose.mem_subtrees_self hn), fun y hy hny => ?_⟩
        exact (hsubs y hy hny).2 (hready y (Rose.mem_subtrees_iff.2 (.inr hy)) hny)

end Main

/-! ## Two nodes -/

open Rename (apart allocates_apart placed_init)

/-- The set of some nodes, the last added first. -/
def setOf (AGID : ℕ → IDTYPE) : List ℕ → NodeSet ℕ
  | [] => nodeSetNew AGID
  | m :: L =>
    match nodeSetAdd AGID (setOf AGID L) m with
    | .ok self => self
    | .error _ => setOf AGID L

/-- The edge of node 0 to node 1. -/
def pairEdge (v : ℕ) : BinTree ℕ := if v = 1 then .node .nil 0 .nil else .nil

/-- The names of two nodes. -/
def abStrings : Strings :=
  ((Strings.init.dup (lit "a", false)).2.dup (lit "b", false)).2

/-- A root graph with the nodes `a` and `b` and an edge from `a` to `b`, and a subgraph with some of
the nodes. -/
def pair (sub : List ℕ) : Hierarchy where
  clos := { strs := abStrings, counter := 1, imap := [] }
  edgeMap := []
  nodeId := .str
  edgeId _ := .odd 0
  tail _ := 0
  head _ := 1
  undirected := false
  graphs := .mk ⟨true, setOf (fun m => idtype apart (.str m)) [0, 1], pairEdge⟩
    [.mk ⟨false, setOf (fun m => idtype apart (.str m)) sub, fun _ => .nil⟩ []]

theorem holds_setOf {AGID : ℕ → IDTYPE} {L : List ℕ} (hnodup : (L.map AGID).Nodup) :
    Holds (nodeSetConfig AGID) (setOf AGID L) L := by
  induction L with
  | nil => exact holds_new
  | cons m L ih =>
    obtain ⟨hm, hL⟩ := nodup_cons.1 hnodup
    obtain ⟨self, hadd, hself⟩ := (ih hL).add hm
    have hset : setOf AGID (m :: L) = self := by
      rw [setOf, nodeSetAdd, hadd]
    rw [hset]
    exact hself

theorem mem_subtrees_pair {sub : List ℕ} {y : Rose Agraph} (hy : y ∈ (pair sub).graphs.subtrees) :
    y = (pair sub).graphs ∨
      y = .mk ⟨false, setOf (fun m => idtype apart (.str m)) sub, fun _ => .nil⟩ [] := by
  simpa [pair, Rose.subtrees, Rose.forest] using hy

theorem mem_pairEdge {v e : ℕ} (he : e ∈ (pairEdge v).toList) : v = 1 ∧ e = 0 := by
  unfold pairEdge at he
  split at he
  · rename_i hv
    exact ⟨hv, by simpa using he⟩
  · cases he

theorem sound_pair {sub : List ℕ} (hsub : sub.Sublist [0, 1]) : Sound apart (pair sub) := by
  have hplaced := placed_init.dup (allocates_apart placed_init) (lit "a", false)
  have hplaced := hplaced.dup (allocates_apart hplaced) (lit "b", false)
  have hnodup : ([0, 1].map fun m => idtype apart (.str m)).Nodup := by decide
  have hroot := holds_setOf hnodup
  have hsubset := holds_setOf (hnodup.sublist (hsub.map _))
  have hmem : ∀ m, m ∈ (pair sub).root.nodes ↔ m ∈ [0, 1] := fun m => hroot.perm.mem_iff
  have hnil : ∀ {P : IMapEntry → Prop}, ∀ ent ∈ [], P ent := by simp
  refine ⟨⟨hplaced, hnil, nodup_nil⟩, ⟨hplaced, hnil, nodup_nil⟩,
    allocates_apart hplaced, fun r hr => ?_, rfl, ?_, fun y hy => ?_, fun m hm => ?_,
    fun v e he => .inl ⟨0, rfl⟩, fun _ _ _ _ _ _ _ he => (by cases he),
    fun ent hent => by cases hent⟩
  · have hr : r ≤ 2 := hr
    rw [apart]
    omega
  · rw [pair, Rose.Descends, Rose.DescendsForest, Rose.Descends, Rose.DescendsForest,
      Rose.DescendsForest]
    refine ⟨⟨rfl, fun m hm => ?_, fun v e he => by cases he⟩, trivial, trivial⟩
    exact (hmem m).2 (hsub.mem (hsubset.perm.mem_iff.1 hm))
  · obtain rfl | rfl := mem_subtrees_pair hy
    · refine ⟨hroot.of_perm hroot.perm.symm, fun v => ?_, fun v e he => ?_⟩
      · show Sorted _ _ (pairEdge v).toList
        unfold pairEdge
        split
        · exact pairwise_singleton _ _
        · exact List.Pairwise.nil
      · obtain ⟨rfl, rfl⟩ := mem_pairEdge he
        exact ⟨rfl, (hmem 1).2 (by decide), (hmem 0).2 (by decide)⟩
    · exact ⟨hsubset.of_perm hsubset.perm.symm, fun _ => List.Pairwise.nil,
        fun v e he => by cases he⟩
  · have hm : m = 0 ∨ m = 1 := by simpa using (hmem m).1 hm
    obtain rfl | rfl := hm
    · have hlive : abStrings.Live 0 ∧ (abStrings.owner 0).1.head? ≠ some LOCALNAMEPREFIX := by
        decide
      exact .inr ⟨0, rfl, hlive⟩
    · have hlive : abStrings.Live 1 ∧ (abStrings.owner 1).1.head? ≠ some LOCALNAMEPREFIX := by
        decide
      exact .inr ⟨1, rfl, hlive⟩

/-- The node `a`, which only the root has, can be renamed: the edge to `b` is the only one. -/
theorem agrelabelNode_keeps_iff_pair : RelabelKeeps apart (pair [1]) 0 (.other (lit "c")) := by
  have hs : Sound apart (pair [1]) := sound_pair (by decide)
  have hnodup : ([0, 1].map fun m => idtype apart (.str m)).Nodup := by decide
  have hn : 0 ∈ (pair [1]).root.nodes := (holds_setOf hnodup).perm.mem_iff.2 (by decide)
  have hread : (pair [1]).clos.strs.Readable (.other (lit "c")) := nofun
  refine (agrelabelNode_keeps_iff hs hn hread).2 fun id _ hid _ => ?_
  obtain rfl : id = .str 2 := (some.inj hid).symm
  refine ⟨nofun, fun y hy hny => ?_⟩
  obtain rfl | rfl := mem_subtrees_pair hy
  · refine ⟨nofun, fun v e he f hf _ => ?_⟩
    have hbetween : ¬ Between compare (idtype apart (.str 0)) (idtype apart (.str 2))
        (idtype apart (.str 0)) := by
      unfold Between
      decide
    exact hbetween
  · have hsub : ([1].map fun m => idtype apart (.str m)).Nodup := by decide
    have h0 : 0 ∈ [1] := (holds_setOf hsub).perm.mem_iff.1 hny
    cases h0 with
    | tail _ h0 => cases h0

/-- A node that is not found by its new name in the only subgraph has not been kept there. -/
theorem not_keeps_of_lost {a : Agraph} {sub : Rose Agraph} (hgraphs : h.graphs = .mk a [sub])
    (hn : n ∈ sub.label.nodes) (hrun : h.agrelabelNode place n newname = .ok (.SUCCESS, h'))
    (hlost : (h'.graphs.children.map fun y => h'.agnode place y.label newname) = [none]) :
    ¬ RelabelKeeps place h n newname := by
  rw [RelabelKeeps, hrun, hgraphs]
  intro hkeeps
  have hrel : (Rose.mk a [sub]).Rel (fun x x' => n ∈ x.nodes →
      Kept place h n newname x h' x') h'.graphs := hkeeps
  revert hrel hlost
  cases h'.graphs with
  | mk b us =>
    intro hlost hrel
    rw [Rose.Rel] at hrel
    cases us with
    | nil => cases hlost
    | cons u us =>
      rw [Rose.RelForest] at hrel
      have hfound : h'.agnode place u.label newname = some n := (hrel.2.1.label hn).agnode
      have hnone : h'.agnode place u.label newname = none := (cons.inj hlost).1
      rw [hfound] at hnone
      cases hnone

/-- In a subgraph the renamed node is not found by its new name. -/
theorem agrelabelNode_pair_lost : Sound apart (pair [0]) ∧
    ∃ h', (pair [0]).agrelabelNode apart 0 (.other (lit "c")) = .ok (.SUCCESS, h') ∧
      (h'.graphs.children.map fun y => h'.agnode apart y.label (.other (lit "c"))) = [none] ∧
        ¬ RelabelKeeps apart (pair [0]) 0 (.other (lit "c")) := by
  have hrun : (fun r : Status × Hierarchy => (r.1, r.2.graphs.children.map fun y =>
      r.2.agnode apart y.label (.other (lit "c")))) <$>
        (pair [0]).agrelabelNode apart 0 (.other (lit "c")) = .ok (.SUCCESS, [none]) := by
    decide +kernel
  have hnodup : ([0].map fun m => idtype apart (.str m)).Nodup := by decide
  have hmem := (holds_setOf hnodup).perm.mem_iff.2 (mem_cons_self (a := 0))
  refine ⟨sound_pair (by decide), ?_⟩
  cases hres : (pair [0]).agrelabelNode apart 0 (.other (lit "c")) with
  | error e =>
    rw [hres] at hrun
    cases hrun
  | ok r =>
    rw [hres] at hrun
    obtain ⟨hstatus, hlost⟩ := Prod.mk.inj (Except.ok.inj hrun)
    have hr : r = (.SUCCESS, r.2) := Prod.ext hstatus rfl
    rw [hr] at hres
    exact ⟨r.2, congrArg Except.ok hr, hlost, not_keeps_of_lost rfl hmem hres hlost⟩

end Graphviz.Relabel
