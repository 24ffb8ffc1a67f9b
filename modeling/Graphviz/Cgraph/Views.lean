import Graphviz.Cgraph.Rep

/-!
# What a store holds

A family of views gives every graph its nodes and edges. The functions of the store work on it
in two ways: an installation adds to a graph and to those above it, a deletion takes from a
graph and from those below it. `Store.Shows` says that each live graph's record holds its view,
whatever the views have to do with one another; while an installation is under way a subgraph
has what its parent does not have yet.
-/

namespace Graphviz

open Function List Outcome Set

/-! ## Views -/

/-- The view of every graph. -/
abbrev Views := GPath → View

namespace View

/-- A view with one node more. -/
def addNode (n : Agnode) (v : View) : View := { v with nodes := insert n v.nodes }

/-- A view with one edge more. -/
def addEdge (e : Agedge) (v : View) : View := { v with edges := insert e v.edges }

/-- A view without an edge. -/
def delEdge (e : Agedge) (v : View) : View := { v with edges := v.edges \ {e} }

/-- A view without a node and its edges. -/
def delNode (n : Agnode) (v : View) : View :=
  { nodes := v.nodes \ {n}, edges := Agraph.away n v.edges }

/-- The view of a graph with no nodes. -/
def empty : View := { nodes := ∅, edges := ∅ }

variable {v w : View} {n : Agnode} {e : Agedge}

theorem addNode_of_mem (h : n ∈ v.nodes) : v.addNode n = v :=
  View.ext (insert_eq_of_mem h) rfl

theorem addEdge_of_mem (h : e ∈ v.edges) : v.addEdge e = v :=
  View.ext rfl (insert_eq_of_mem h)

theorem delEdge_of_not_mem (h : e ∉ v.edges) : v.delEdge e = v :=
  View.ext rfl (sdiff_singleton_eq_self h)

theorem delNode_of_not_mem (hv : Agraph.Ends v.nodes v.edges) (h : n ∉ v.nodes) :
    v.delNode n = v := by
  refine View.ext (sdiff_singleton_eq_self h) (ext fun f => ⟨And.left, fun hf => ?_⟩)
  exact ⟨hf, fun ht => h (ht ▸ hv.tail f hf), fun hh => h (hh ▸ hv.head f hf)⟩

theorem Sub.addNode (h : v.Sub w) : (v.addNode n).Sub (w.addNode n) :=
  ⟨insert_subset_insert h.nodes, h.edges⟩

theorem Sub.addEdge (h : v.Sub w) : (v.addEdge e).Sub (w.addEdge e) :=
  ⟨h.nodes, insert_subset_insert h.edges⟩

theorem sub_addNode : v.Sub (v.addNode n) := ⟨Set.subset_insert _ _, subset_rfl⟩

theorem sub_addEdge : v.Sub (v.addEdge e) := ⟨subset_rfl, Set.subset_insert _ _⟩

theorem delEdge_sub : (v.delEdge e).Sub v := ⟨subset_rfl, sdiff_subset⟩

theorem delNode_sub : (v.delNode n).Sub v := ⟨sdiff_subset, fun _ hf => hf.1⟩

theorem Sub.delEdge (h : v.Sub w) : (v.delEdge e).Sub (w.delEdge e) :=
  ⟨h.nodes, fun _ hf => ⟨h.edges hf.1, hf.2⟩⟩

theorem Sub.delNode (h : v.Sub w) : (v.delNode n).Sub (w.delNode n) :=
  ⟨fun _ hm => ⟨h.nodes hm.1, hm.2⟩, fun _ hf => ⟨h.edges hf.1, hf.2⟩⟩

/-- A graph's objects stay distinct when it loses some, as long as end points stay nodes. -/
theorem Distinct.sub (hw : w.Distinct) (h : v.Sub w) (hv : Agraph.Ends v.nodes v.edges) :
    v.Distinct where
  node_id m hm n hn := hw.node_id m (h.nodes hm) n (h.nodes hn)
  node_seq m hm n hn := hw.node_seq m (h.nodes hm) n (h.nodes hn)
  edge_id e he f hf := hw.edge_id e (h.edges he) f (h.edges hf)
  edge_seq e he f hf := hw.edge_seq e (h.edges he) f (h.edges hf)
  tail_mem := hv.tail
  head_mem := hv.head

/-- A node with a new identifier and a new sequence number is distinct. -/
theorem Distinct.addNode (hv : v.Distinct) (hid : ∀ m ∈ v.nodes, m.id ≠ n.id)
    (hseq : ∀ m ∈ v.nodes, m.seq ≠ n.seq) : (v.addNode n).Distinct where
  node_id := by
    rintro a (rfl | ha) b (rfl | hb) h
    · rfl
    · exact absurd h.symm (hid b hb)
    · exact absurd h (hid a ha)
    · exact hv.node_id a ha b hb h
  node_seq := by
    rintro a (rfl | ha) b (rfl | hb) h
    · rfl
    · exact absurd h.symm (hseq b hb)
    · exact absurd h (hseq a ha)
    · exact hv.node_seq a ha b hb h
  edge_id := hv.edge_id
  edge_seq := hv.edge_seq
  tail_mem e he := .inr (hv.tail_mem e he)
  head_mem e he := .inr (hv.head_mem e he)

/-- An edge with a new sequence number, and an identifier new between its ends, is distinct. -/
theorem Distinct.addEdge (hv : v.Distinct) (ht : e.tail ∈ v.nodes) (hh : e.head ∈ v.nodes)
    (hid : ∀ f ∈ v.edges, f.tail = e.tail → f.head = e.head → f.id ≠ e.id)
    (hseq : ∀ f ∈ v.edges, f.seq ≠ e.seq) : (v.addEdge e).Distinct where
  node_id := hv.node_id
  node_seq := hv.node_seq
  edge_id := by
    rintro a (rfl | ha) b (rfl | hb) h₁ h₂ h₃
    · rfl
    · exact absurd h₃.symm (hid b hb h₁.symm h₂.symm)
    · exact absurd h₃ (hid a ha h₁ h₂)
    · exact hv.edge_id a ha b hb h₁ h₂ h₃
  edge_seq := by
    rintro a (rfl | ha) b (rfl | hb) h
    · rfl
    · exact absurd h.symm (hseq b hb)
    · exact absurd h (hseq a ha)
    · exact hv.edge_seq a ha b hb h
  tail_mem := by
    rintro f (rfl | hf)
    · exact ht
    · exact hv.tail_mem f hf
  head_mem := by
    rintro f (rfl | hf)
    · exact hh
    · exact hv.head_mem f hf

end View

namespace Views

open Classical in
/-- The change of a graph and of those above it. -/
noncomputable def above (f : View → View) (p : GPath) (V : Views) : Views :=
  fun q => if q <:+ p then f (V q) else V q

open Classical in
/-- The change of a graph and of those below it. -/
noncomputable def below (f : View → View) (p : GPath) (V : Views) : Views :=
  fun q => if p <:+ q then f (V q) else V q

open Classical in
/-- The change of the graphs below some subgraphs of a graph. -/
noncomputable def belowSubgs (f : View → View) (p : GPath) (ids : List IdType) (V : Views) :
    Views :=
  fun q => if ∃ id ∈ ids, id :: p <:+ q then f (V q) else V q

variable {f : View → View} {p q : GPath} {V : Views}

theorem above_of_suffix (h : q <:+ p) : above f p V q = f (V q) := if_pos h

theorem above_of_not_suffix (h : ¬ q <:+ p) : above f p V q = V q := if_neg h

theorem not_cons_suffix {id : IdType} : ¬ id :: p <:+ p := fun h => by
  have := h.length_le
  rw [length_cons] at this
  omega

/-- Changing a graph after those above it. -/
theorem above_cons (f : View → View) (id : IdType) (p : GPath) (V : Views) :
    above f (id :: p) V = Function.update (above f p V) (id :: p) (f (V (id :: p))) := by
  funext q
  by_cases hq : q = id :: p
  · rw [hq, update_self, above_of_suffix suffix_rfl]
  · rw [update_of_ne hq, above, above]
    simp only [suffix_cons_iff, hq, false_or]

/-- Changing a graph before those above it. -/
theorem above_cons' (f : View → View) (id : IdType) (p : GPath) (V : Views) :
    above f (id :: p) V = above f p (Function.update V (id :: p) (f (V (id :: p)))) := by
  rw [above_cons]
  funext q
  by_cases hq : q = id :: p
  · rw [hq, update_self, above_of_not_suffix not_cons_suffix, update_self]
  · rw [update_of_ne hq, above, above, update_of_ne hq]

/-- At the root there is nothing above. -/
theorem above_nil (f : View → View) (V : Views) :
    above f [] V = Function.update V [] (f (V [])) := by
  funext q
  by_cases hq : q = []
  · rw [hq, update_self, above_of_suffix suffix_rfl]
  · rw [update_of_ne hq, above_of_not_suffix fun h => hq (suffix_nil.1 h)]

/-- A change that changes none of the graphs above changes nothing. -/
theorem above_eq_self (h : ∀ q, q <:+ p → f (V q) = V q) : above f p V = V := by
  funext q
  by_cases hq : q <:+ p
  · rw [above_of_suffix hq, h q hq]
  · rw [above_of_not_suffix hq]

theorem below_of_suffix (h : p <:+ q) : below f p V q = f (V q) := if_pos h

theorem below_of_not_suffix (h : ¬ p <:+ q) : below f p V q = V q := if_neg h

theorem belowSubgs_of_suffix {ids : List IdType} {id : IdType} (hid : id ∈ ids)
    (h : id :: p <:+ q) : belowSubgs f p ids V q = f (V q) := if_pos ⟨id, hid, h⟩

theorem belowSubgs_of_not_suffix {ids : List IdType} (h : ∀ id ∈ ids, ¬ id :: p <:+ q) :
    belowSubgs f p ids V q = V q := if_neg fun ⟨id, hid, hs⟩ => h id hid hs

theorem belowSubgs_nil : belowSubgs f p [] V = V := by
  funext q
  exact belowSubgs_of_not_suffix fun id hid => by cases hid

/-- A graph is below at most one subgraph of another. -/
theorem cons_suffix_unique {id id' : IdType} (h : id :: p <:+ q) (h' : id' :: p <:+ q) :
    id = id' := by
  have := suffix_of_suffix_length_le h h' (by simp)
  have := this.eq_of_length (by simp)
  exact (cons.inj this).1

/-- A graph below another is that graph or below one of its subgraphs. -/
theorem eq_or_cons_suffix (h : p <:+ q) : q = p ∨ ∃ id, id :: p <:+ q := by
  obtain ⟨l, rfl⟩ := h
  obtain rfl | ⟨l, id, rfl⟩ := eq_nil_or_concat l
  · exact .inl rfl
  · exact .inr ⟨id, l, by simp⟩

/-- The graphs below a subgraph that is not among `ids` are as they were. -/
theorem belowSubgs_of_not_mem {ids : List IdType} {id : IdType} (hid : id ∉ ids)
    (h : id :: p <:+ q) : belowSubgs f p ids V q = V q :=
  belowSubgs_of_not_suffix fun _ hid' hs => hid (cons_suffix_unique hs h ▸ hid')

/-- One subgraph more. -/
theorem below_belowSubgs {ids : List IdType} {id : IdType} (hid : id ∉ ids) :
    below f (id :: p) (belowSubgs f p ids V) = belowSubgs f p (ids ++ [id]) V := by
  funext q
  by_cases hq : id :: p <:+ q
  · rw [below_of_suffix hq, belowSubgs_of_not_mem hid hq, belowSubgs_of_suffix (by simp) hq]
  · rw [below_of_not_suffix hq, belowSubgs, belowSubgs]
    refine if_congr ?_ rfl rfl
    constructor
    · rintro ⟨id', hid', hs⟩
      exact ⟨id', by simp [hid'], hs⟩
    · rintro ⟨id', hid', hs⟩
      obtain hid' | hid' := mem_append.1 hid'
      · exact ⟨id', hid', hs⟩
      · exact absurd (mem_singleton.1 hid' ▸ hs) hq

end Views

/-! ## Live graphs -/

namespace Store

/-- The graphs of the hierarchy. -/
def Live (s : Store) : GPath → Prop
  | [] => True
  | id :: p => s.Live p ∧ id ∈ (s.graphs p).subgs

/-- The graphs above a live graph are live. -/
theorem Live.suffix {s : Store} {p q : GPath} (hp : s.Live p) (h : q <:+ p) : s.Live q := by
  induction p with
  | nil => rw [suffix_nil.1 h]; trivial
  | cons id p ih =>
    obtain rfl | h := suffix_cons_iff.1 h
    · exact hp
    · exact ih hp.1 h

/-- Two stores that differ in the nodes and edges of their graphs alone. -/
def SameFrame (s s' : Store) : Prop :=
  ∃ gs, s' = { s with graphs := gs } ∧ ∀ p, (gs p).subgs = (s.graphs p).subgs

theorem SameFrame.refl (s : Store) : SameFrame s s := ⟨s.graphs, rfl, fun _ => rfl⟩

theorem SameFrame.trans {s₁ s₂ s₃ : Store} (h : SameFrame s₁ s₂) (h' : SameFrame s₂ s₃) :
    SameFrame s₁ s₃ := by
  obtain ⟨gs, rfl, hgs⟩ := h
  obtain ⟨gs', rfl, hgs'⟩ := h'
  exact ⟨gs', rfl, fun p => (hgs' p).trans (hgs p)⟩

theorem SameFrame.subgs {s s' : Store} (h : SameFrame s s') (p : GPath) :
    (s'.graphs p).subgs = (s.graphs p).subgs := by
  obtain ⟨gs, rfl, hgs⟩ := h
  exact hgs p

theorem SameFrame.seqGraph {s s' : Store} (h : SameFrame s s') : s'.seqGraph = s.seqGraph := by
  obtain ⟨gs, rfl, -⟩ := h
  rfl

theorem SameFrame.live {s s' : Store} (h : SameFrame s s') {p : GPath} : s'.Live p ↔ s.Live p := by
  induction p with
  | nil => rfl
  | cons id p ih => rw [Live, Live, ih, h.subgs]

theorem SameFrame.set {s : Store} {p : GPath} {g : Agraph}
    (hg : g.subgs = (s.graphs p).subgs) : SameFrame s (s.set p g) := by
  refine ⟨_, rfl, fun q => ?_⟩
  by_cases hq : q = p
  · subst hq
    rw [update_self, hg]
  · rw [update_of_ne hq]

@[simp] theorem set_graphs_self (s : Store) (p : GPath) (g : Agraph) :
    (s.set p g).graphs p = g := Function.update_self _ _ _

theorem set_graphs_of_ne {s : Store} {p q : GPath} {g : Agraph} (h : q ≠ p) :
    (s.set p g).graphs q = s.graphs q := Function.update_of_ne h _ _

/-- Every live graph's record holds the graph's view, which is part of `U`. -/
structure Shows (s : Store) (U : View) (V : Views) : Prop where
  rep : ∀ p, s.Live p → (s.graphs p).Rep (V p).nodes (V p).edges (V p).edges
  sub : ∀ p, s.Live p → (V p).Sub U
  ends : ∀ p, s.Live p → Agraph.Ends (V p).nodes (V p).edges

variable {s : Store} {U : View} {V W : Views} {p : GPath}

theorem Shows.congr (h : s.Shows U V) (hVW : ∀ q, s.Live q → V q = W q) : s.Shows U W where
  rep q hq := hVW q hq ▸ h.rep q hq
  sub q hq := hVW q hq ▸ h.sub q hq
  ends q hq := hVW q hq ▸ h.ends q hq

theorem Shows.mono {U' : View} (h : s.Shows U V) (hU : U.Sub U') : s.Shows U' V :=
  ⟨h.rep, fun p hp => (h.sub p hp).trans hU, h.ends⟩

/-- What the frame holds does not matter to what the graphs hold. -/
theorem Shows.frame {s' : Store} (h : s.Shows U V) (hg : s'.graphs = s.graphs) : s'.Shows U V := by
  have hl : ∀ p, s'.Live p → s.Live p := by
    intro p
    induction p with
    | nil => exact id
    | cons id p ih => exact fun hp => ⟨ih hp.1, hg ▸ hp.2⟩
  exact ⟨fun p hp => hg ▸ h.rep p (hl p hp), fun p hp => h.sub p (hl p hp),
    fun p hp => h.ends p (hl p hp)⟩

/-- Every subgraph's nodes and edges are its parent's. -/
def Hier (s : Store) (V : Views) : Prop :=
  ∀ id p, s.Live (id :: p) → (V (id :: p)).Sub (V p)

/-- A graph's nodes and edges are those of every graph above it. -/
theorem Hier.suffix (h : s.Hier V) {q : GPath} (hp : s.Live p) (hq : q <:+ p) :
    (V p).Sub (V q) := by
  induction p with
  | nil => rw [suffix_nil.1 hq]; exact .refl _
  | cons id p ih =>
    obtain rfl | hq := suffix_cons_iff.1 hq
    · exact .refl _
    · exact (h id p hp).trans (ih hp.1 hq)

/-- A graph's nodes and edges are the root's. -/
theorem Hier.root (h : s.Hier V) (hp : s.Live p) : (V p).Sub (V []) :=
  h.suffix hp nil_suffix

/-- Writing one record changes one view. -/
theorem Shows.set (h : s.Shows U V) {g : Agraph} {v : View}
    (hg : g.Rep v.nodes v.edges v.edges) (hsubgs : g.subgs = (s.graphs p).subgs)
    (hv : v.Sub U) (hends : Agraph.Ends v.nodes v.edges) :
    (s.set p g).Shows U (Function.update V p v) := by
  have hlive : ∀ q, (s.set p g).Live q → s.Live q := fun q => (SameFrame.set hsubgs).live.1
  refine ⟨fun q hq => ?_, fun q hq => ?_, fun q hq => ?_⟩ <;> by_cases hqp : q = p
  · subst hqp
    rwa [set_graphs_self, update_self]
  · rw [set_graphs_of_ne hqp, update_of_ne hqp]
    exact h.rep q (hlive q hq)
  · rwa [hqp, update_self]
  · rw [update_of_ne hqp]
    exact h.sub q (hlive q hq)
  · rwa [hqp, update_self]
  · rw [update_of_ne hqp]
    exact h.ends q (hlive q hq)

end Store

end Graphviz
