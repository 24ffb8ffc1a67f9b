import Graphviz.Cdt.DttreeSet
import Graphviz.Cgraph.Store
import Graphviz.Library.Instances
import Graphviz.Library.Rising
import Graphviz.Library.Rose

/-!
# Moving a node before another

`agnodebefore` of `lib/cgraph/node.c`. A node's sequence number is the key of one splay tree for
each graph that has the node; to change the number, the node is first searched in all these trees,
which brings it to their roots, and then renewed in all of them. Nodes are pointers, here numbers;
a subnode is known by its node. The masks of `SEQ_MASK` that follow an assertion are left out.
-/

namespace Graphviz.Nodebefore

open Function List Nat Outcome

/-! ## The functions -/

/-- `Agraph_t`: whether it is the root, its nodes by identifier, in any order, and its nodes by
sequence number. -/
structure Agraph where
  isRoot : Bool
  n_id : List ℕ
  n_seq : Dt ℕ

/-- A root graph with its subgraphs, the fields of the nodes, and the last sequence number given to
a node. -/
structure Hierarchy where
  AGID : ℕ → ℕ
  AGSEQ : ℕ → ℕ
  seq : ℕ
  graphs : Rose Agraph

/-- `Ag_subnode_seq_disc`. -/
def subnodeSeqDisc (AGSEQ : ℕ → ℕ) : Dtdisc ℕ ℕ where
  key := AGSEQ
  comparf := compare
  makef := none
  trans := Instances.transCmp_nat
  makef_key := nofun

/-- `agsubrep`, which is also `subnode_search`. -/
def agsubrep (AGID : ℕ → ℕ) (g : Agraph) (n : ℕ) : Option ℕ :=
  if g.isRoot then some n else g.n_id.find? fun m => AGID m = AGID n

mutual

/-- `rec_apply`. What `fn` does to one graph does not matter to the others. -/
def recApply (objsearch : Agraph → ℕ → Option ℕ) (fn : Agraph → ℕ → Agraph) (obj : ℕ) :
    Rose Agraph → Rose Agraph
  | .mk g subs => .mk (fn g obj) (recApplySubgs objsearch fn obj subs)

/-- The loop of `rec_apply` over the subgraphs. -/
def recApplySubgs (objsearch : Agraph → ℕ → Option ℕ) (fn : Agraph → ℕ → Agraph) (obj : ℕ) :
    List (Rose Agraph) → List (Rose Agraph)
  | [] => []
  | sub :: subs =>
    (match objsearch sub.label obj with
      | some subobj => recApply objsearch fn subobj sub
      | none => sub) :: recApplySubgs objsearch fn obj subs

end

/-- `agnodesetfinger`. -/
def agnodesetfinger (AGSEQ : ℕ → ℕ) (g : Agraph) (node : ℕ) : Agraph :=
  { g with n_seq := (dttree (subnodeSeqDisc AGSEQ) g.n_seq (.DT_SEARCH node)).2 }

/-- `agnoderenew`. -/
def agnoderenew (AGSEQ : ℕ → ℕ) (g : Agraph) (_ : ℕ) : Agraph :=
  { g with n_seq := dtrenew (subnodeSeqDisc AGSEQ) g.n_seq (dtfinger g.n_seq) }

/-- `agfstnode`. -/
def agfstnode (AGSEQ : ℕ → ℕ) (g : Agraph) : Option ℕ × Agraph :=
  let (n, n_seq) := dttree (subnodeSeqDisc AGSEQ) g.n_seq .DT_FIRST
  (n, { g with n_seq })

/-- `agnxtnode`. -/
def agnxtnode (AGID AGSEQ : ℕ → ℕ) (g : Agraph) (n : ℕ) : Option ℕ × Agraph :=
  match agsubrep AGID g n with
  | some sn =>
    let (n, n_seq) := dttree (subnodeSeqDisc AGSEQ) g.n_seq (.DT_NEXT sn)
    (n, { g with n_seq })
  | none => (none, g)

/-- The nodes that `agnxtnode` comes to from a node on. -/
def nodesFrom (AGID AGSEQ : ℕ → ℕ) : ℕ → Agraph → ℕ → List ℕ
  | 0, _, _ => []
  | fuel + 1, g, n =>
    match agnxtnode AGID AGSEQ g n with
    | (some m, g) => m :: nodesFrom AGID AGSEQ fuel g m
    | (none, _) => []

/-- The nodes of a graph as `agfstnode` and `agnxtnode` go through them. -/
def nodes (AGID AGSEQ : ℕ → ℕ) (g : Agraph) : List ℕ :=
  match agfstnode AGSEQ g with
  | (some n, g) => n :: nodesFrom AGID AGSEQ g.n_seq.here.count g n
  | (none, _) => []

namespace Hierarchy

/-- The root graph. -/
abbrev root (h : Hierarchy) : Agraph := h.graphs.label

/-- `agapply` from the root, which finds every node of the hierarchy. -/
def agapply (h : Hierarchy) (fn : Agraph → ℕ → Agraph) (obj : ℕ) : Hierarchy :=
  { h with graphs := recApply (agsubrep h.AGID) fn obj h.graphs }

/-- `agprvnode` of the root. -/
def agprvnode (h : Hierarchy) (n : ℕ) : Option ℕ × Hierarchy :=
  let (m, n_seq) := dttree (subnodeSeqDisc h.AGSEQ) h.root.n_seq (.DT_PREV n)
  (m, { h with graphs := .mk { h.root with n_seq } h.graphs.children })

/-- A new sequence number for a node: what `agnodebefore` does three times. -/
def renumber (h : Hierarchy) (n seq : ℕ) : Hierarchy :=
  let h := h.agapply (agnodesetfinger h.AGSEQ) n
  let h := { h with AGSEQ := Function.update h.AGSEQ n seq }
  h.agapply (agnoderenew h.AGSEQ) n

/-- The loop of `agnodebefore`, from a node down to `fst`. -/
def shift (fst : ℕ) : ℕ → ℕ → Hierarchy → Except Fault Hierarchy
  | 0, _, _ => .error .fuel
  | fuel + 1, n, h => do
    let (nxt, h) := h.agprvnode n
    assert (h.AGSEQ n + 1 ≤ SEQ_MASK)
    let h := h.renumber n (h.AGSEQ n + 1)
    if n = fst then .ok h
    else
      match nxt with
      | some n => shift fst fuel n h
      | none => .ok h

/-- `agnodebefore`, where it does not fail. The previous node of the only node is null. -/
def agnodebefore (h : Hierarchy) (fst snd : ℕ) : Except Fault Hierarchy :=
  if h.AGSEQ fst > h.AGSEQ snd then .ok h
  else do
    assert (h.seq + 2 ≤ SEQ_MASK)
    let h := h.renumber snd (h.seq + 2)
    match h.agprvnode snd with
    | (none, _) => .error .segfault
    | (some n, h) => do
      let h ← shift fst h.root.n_seq.here.count n h
      assert (h.AGSEQ fst ≠ 0)
      .ok (h.renumber snd (h.AGSEQ fst - 1))

end Hierarchy

/-! ## One graph -/

variable {f : ℕ → ℕ} {L W : List ℕ} {n v fst snd : ℕ} {g : Agraph}

theorem sorted_iff : SortedSet.Sorted (subnodeSeqDisc f).key (subnodeSeqDisc f).comparf L ↔
    Rises f L :=
  List.Pairwise.iff fun _ _ => Nat.compare_eq_lt

/-- A graph whose nodes by sequence number are in order, and are those it has by identifier. -/
structure Agraph.Ordered (f : ℕ → ℕ) (g : Agraph) : Prop where
  inv : g.n_seq.Inv (subnodeSeqDisc f)
  mem : ∀ n, n ∈ g.n_seq.here.toList ↔ n ∈ g.n_id

theorem Agraph.Ordered.rises (h : g.Ordered f) : Rises f g.n_seq.here.toList :=
  sorted_iff.1 h.inv.sorted

/-- Numbers that the nodes of the graph do not have do not matter. -/
theorem Agraph.Ordered.congr {f' : ℕ → ℕ} (h : g.Ordered f) (hf : ∀ m ∈ g.n_id, f' m = f m) :
    g.Ordered f' where
  inv := ⟨sorted_iff.2 (h.rises.congr fun m hm => hf m ((h.mem m).1 hm)), h.inv.chain,
    h.inv.size⟩
  mem := h.mem

/-- A search changes the shape of the tree alone, and brings the node to the root. -/
theorem agnodesetfinger_spec (h : g.Ordered f) (hn : n ∈ g.n_id) :
    (agnodesetfinger f g n).Ordered f ∧
      ∃ left right, (agnodesetfinger f g n).n_seq.here = .node left n right := by
  obtain ⟨A, B, hAB⟩ := append_of_mem ((h.mem n).2 hn)
  have hspec := dttree_spec h.inv (.DT_SEARCH n)
  have hS := h.inv.sorted
  rw [hAB] at hS
  rw [setSearch, hAB, (hS.cut Std.ReflCmp.compare_self).lookup, ← hAB] at hspec
  refine ⟨⟨hspec.2.1, fun m => ?_⟩, search_finger hspec.1⟩
  rw [agnodesetfinger, hspec.2.2]
  exact h.mem m

/-- A node with a new number stands where it belongs. -/
theorem agnoderenew_spec (h : g.Ordered f) {left right : BinTree ℕ}
    (hhere : g.n_seq.here = .node left n right) (hv : ∀ m ∈ g.n_id, m ≠ n → f m ≠ v) :
    (agnoderenew (Function.update f n v) g n).Ordered (Function.update f n v) := by
  have hlist : g.n_seq.here.toList = left.toList ++ n :: right.toList := by rw [hhere]; rfl
  have hrises := h.rises
  have hnd := hrises.nodup
  rw [hlist] at hrises hnd
  have hsub : (left.toList ++ right.toList).Sublist (left.toList ++ n :: right.toList) :=
    (sublist_cons_self n _).append_left _
  have hne : ∀ m ∈ left.toList ++ right.toList, m ≠ n := by
    rintro m hm rfl
    exact (nodup_middle.1 hnd).notMem hm
  have hmem : ∀ m ∈ left.toList ++ right.toList, m ∈ g.n_id := fun m hm =>
    (h.mem m).1 (hlist ▸ hsub.mem hm)
  have hrest : Rises (Function.update f n v) (left.toList ++ right.toList) :=
    (hrises.sublist hsub).congr fun m hm => update_of_ne (hne m hm) _ _
  have hself : Function.update f n v n = v := update_self _ _ _
  obtain ⟨A, m, B, hcut⟩ := (sorted_iff.2 hrest).exists_cut (Function.update f n v n)
  have hnone : m = none := by
    cases m with
    | none => rfl
    | some m =>
      have hm : m ∈ left.toList ++ right.toList := by
        rw [hcut.eq]
        simp
      have heq : v = f m := by
        have := Nat.compare_eq_eq.1 (hcut.mid m rfl)
        rw [hself] at this
        exact this.trans (update_of_ne (hne m hm) _ _)
      exact absurd heq.symm (hv m (hmem m hm) (hne m hm))
  subst hnone
  have hholds : (agnoderenew (Function.update f n v) g n).n_seq.Holds
      (subnodeSeqDisc (Function.update f n v)) _ :=
    dtrenew_holds hhere (sorted_iff.2 hrest) hcut.lookup h.inv.size
  have hins : ∀ e, SortedSet.insert _ _ ((subnodeSeqDisc (Function.update f n v)).key n) e _ = _ :=
    fun e => hcut.insert
  rw [hins] at hholds
  refine ⟨hholds.1, fun m => ?_⟩
  show m ∈ (agnoderenew (Function.update f n v) g n).n_seq.here.toList ↔ m ∈ g.n_id
  rw [hholds.2, ← h.mem m, hlist]
  have heq : left.toList ++ right.toList = A ++ B := hcut.eq
  have hmem' : m ∈ left.toList ++ right.toList ↔ m ∈ A ++ B := by rw [heq]
  rw [mem_append, mem_append] at hmem'
  rw [mem_append, mem_cons, mem_append, mem_cons]
  tauto

/-! ## The hierarchy -/

/-- A graph and a subgraph of it, which is not the root and has nodes of the graph alone. -/
structure Agraph.Above (a b : Agraph) : Prop where
  isRoot : b.isRoot = false
  n_id : ∀ n ∈ b.n_id, n ∈ a.n_id

theorem Agraph.Above.trans (a b c : Agraph) (h : a.Above b) (h' : b.Above c) : a.Above c :=
  ⟨h'.isRoot, fun n hn => h.n_id n (h'.n_id n hn)⟩

mutual

/-- `rec_apply` reaches the graphs that have the node, where a graph without it has no subgraphs
with it. -/
theorem recApply_rel {objsearch : Agraph → ℕ → Option ℕ} {fn : Agraph → ℕ → Agraph} :
    ∀ {t : Rose Agraph}, (∀ x ∈ Rose.forest t.children,
      objsearch x.label n = if n ∈ x.label.n_id then some n else none) →
      t.Descends Agraph.Above → n ∈ t.label.n_id →
      t.Rel (fun a b => b = if n ∈ a.n_id then fn a n else a) (recApply objsearch fn n t)
  | .mk g subs, hsearch, hdesc, hn => by
    rw [Rose.Descends] at hdesc
    rw [recApply, Rose.Rel]
    exact ⟨(if_pos hn).symm, recApplySubgs_rel hsearch hdesc⟩

theorem recApplySubgs_rel {objsearch : Agraph → ℕ → Option ℕ} {fn : Agraph → ℕ → Agraph}
    {g : Agraph} : ∀ {subs : List (Rose Agraph)}, (∀ x ∈ Rose.forest subs,
      objsearch x.label n = if n ∈ x.label.n_id then some n else none) →
      Rose.DescendsForest Agraph.Above g subs →
      Rose.RelForest (fun a b => b = if n ∈ a.n_id then fn a n else a) subs
        (recApplySubgs objsearch fn n subs)
  | [], _, _ => by rw [recApplySubgs, Rose.RelForest]; trivial
  | sub :: subs, hsearch, hdesc => by
    rw [Rose.DescendsForest] at hdesc
    have hsub : ∀ x ∈ sub.subtrees,
        objsearch x.label n = if n ∈ x.label.n_id then some n else none := fun x hx =>
      hsearch x (Rose.mem_forest_cons.2 (.inl hx))
    rw [recApplySubgs, Rose.RelForest, hsub sub Rose.mem_subtrees_self]
    refine ⟨?_, recApplySubgs_rel (fun x hx => hsearch x (Rose.mem_forest_cons.2 (.inr hx)))
      hdesc.2.2⟩
    by_cases hn : n ∈ sub.label.n_id
    · rw [if_pos hn]
      exact recApply_rel (fun x hx => hsub x (Rose.mem_subtrees_iff.2 (.inr hx))) hdesc.2.1 hn
    · rw [if_neg hn]
      have hout : ∀ x ∈ sub.subtrees, n ∉ x.label.n_id := fun x hx hx' => by
        obtain rfl | hx := Rose.mem_subtrees_iff.1 hx
        · exact hn hx'
        · exact hn ((hdesc.2.1.label Agraph.Above.trans x hx).n_id n hx')
      refine (Rose.Rel.refl (R := fun a b : Agraph => b = a) (fun _ => rfl) sub).imp
        (P := fun a => n ∉ a.n_id) (Q := fun _ => True) (fun a b ha _ heq => ?_) hout
        fun _ _ => trivial
      rw [if_neg ha, heq]

end

/-- The same graph, with the same nodes. -/
structure Agraph.SameNodes (a b : Agraph) : Prop where
  isRoot : b.isRoot = a.isRoot
  n_id : b.n_id = a.n_id

theorem Agraph.SameNodes.refl (a : Agraph) : a.SameNodes a := ⟨rfl, rfl⟩

theorem Agraph.SameNodes.trans (a b c : Agraph) (h : a.SameNodes b) (h' : b.SameNodes c) :
    a.SameNodes c :=
  ⟨h'.isRoot.trans h.isRoot, h'.n_id.trans h.n_id⟩

namespace Hierarchy

variable {h h' h'' : Hierarchy} {A B : List ℕ}

/-- Every graph is in order, has only nodes of its parent, and the identifiers of the nodes
differ. -/
structure Ordered (h : Hierarchy) : Prop where
  above : h.graphs.Descends Agraph.Above
  ids : ∀ m ∈ h.root.n_id, ∀ n ∈ h.root.n_id, h.AGID m = h.AGID n → m = n
  order : ∀ x ∈ h.graphs.subtrees, x.label.Ordered h.AGSEQ

/-- The hierarchy with other sequence numbers, and its graphs in order again. -/
structure Reordered (h h' : Hierarchy) : Prop where
  ordered : h'.Ordered
  AGID : h'.AGID = h.AGID
  seq : h'.seq = h.seq
  graphs : h.graphs.Rel Agraph.SameNodes h'.graphs

theorem Reordered.refl (hh : h.Ordered) : Reordered h h :=
  ⟨hh, rfl, rfl, Rose.Rel.refl Agraph.SameNodes.refl _⟩

theorem Reordered.trans (hh : Reordered h h') (hh' : Reordered h' h'') : Reordered h h'' :=
  ⟨hh'.ordered, hh'.AGID.trans hh.AGID, hh'.seq.trans hh.seq,
    Rose.Rel.trans Agraph.SameNodes.trans hh.graphs hh'.graphs⟩

theorem Reordered.n_id (hh : Reordered h h') : h'.root.n_id = h.root.n_id := hh.graphs.label.n_id

theorem Ordered.root (hh : h.Ordered) : h.root.Ordered h.AGSEQ :=
  hh.order _ Rose.mem_subtrees_self

theorem Ordered.mem_root (hh : h.Ordered) : ∀ x ∈ h.graphs.subtrees, ∀ n ∈ x.label.n_id,
    n ∈ h.root.n_id := fun x hx n hn => by
  obtain rfl | hx := Rose.mem_subtrees_iff.1 hx
  · exact hn
  · exact (hh.above.label Agraph.Above.trans x hx).n_id n hn

/-- The order of each graph is what a change of sequence numbers has to restore. -/
theorem Ordered.reordered (hh : h.Ordered) (hid : h'.AGID = h.AGID) (hseq : h'.seq = h.seq)
    (hrel : h.graphs.Rel Agraph.SameNodes h'.graphs)
    (horder : ∀ x ∈ h'.graphs.subtrees, x.label.Ordered h'.AGSEQ) : Reordered h h' := by
  have hroot : h'.root.n_id = h.root.n_id := hrel.label.n_id
  refine ⟨⟨?_, fun m hm n hn heq => ?_, horder⟩, hid, hseq, hrel⟩
  · refine hh.above.of_rel (fun a b a' b' hab hab' habove => ⟨?_, ?_⟩) hrel
    · rw [hab'.isRoot]
      exact habove.isRoot
    · rw [hab.n_id, hab'.n_id]
      exact habove.n_id
  · rw [hroot] at hm hn
    rw [hid] at heq
    exact hh.ids m hm n hn heq

/-- A node of the hierarchy is found by its identifier among the nodes of a graph that has it. -/
theorem Ordered.find_id (hh : h.Ordered) (hn : n ∈ h.root.n_id) (hL : ∀ m ∈ L, m ∈ h.root.n_id) :
    L.find? (fun m => h.AGID m = h.AGID n) = if n ∈ L then some n else none := by
  cases hfind : L.find? fun m => h.AGID m = h.AGID n with
  | none =>
    have hno : n ∉ L := fun hmem => by
      have := find?_eq_none.1 hfind n hmem
      simp at this
    rw [if_neg hno]
  | some m =>
    have hm := mem_of_find?_eq_some hfind
    have heq : h.AGID m = h.AGID n := by simpa using find?_some hfind
    obtain rfl := hh.ids m (hL m hm) n hn heq
    rw [if_pos hm]

/-- A node is found in the subgraphs that have it. -/
theorem Ordered.agsubrep (hh : h.Ordered) (hn : n ∈ h.root.n_id) {x : Rose Agraph}
    (hx : x ∈ Rose.forest h.graphs.children) :
    agsubrep h.AGID x.label n = if n ∈ x.label.n_id then some n else none := by
  have habove := hh.above.label Agraph.Above.trans x hx
  rw [Nodebefore.agsubrep, habove.isRoot, if_neg Bool.false_ne_true,
    hh.find_id hn fun m hm => habove.n_id m hm]

/-- `agapply` does its work in the graphs that have the node. -/
theorem Ordered.agapply (hh : h.Ordered) (hn : n ∈ h.root.n_id) (fn : Agraph → ℕ → Agraph) :
    h.graphs.Rel (fun a b => b = if n ∈ a.n_id then fn a n else a) (h.agapply fn n).graphs :=
  recApply_rel (fun _ hx => hh.agsubrep hn hx) hh.above hn

/-! ## New numbers -/

/-- What a new sequence number for a node does to one graph. -/
theorem Ordered.renumber_rel (hh : h.Ordered) (hn : n ∈ h.root.n_id) :
    h.graphs.Rel (fun a b => (n ∈ a.n_id → b = agnoderenew (Function.update h.AGSEQ n v)
      (agnodesetfinger h.AGSEQ a n) n) ∧ (n ∉ a.n_id → b = a)) (h.renumber n v).graphs := by
  have hfinger := hh.agapply hn (agnodesetfinger h.AGSEQ)
  have hsame : h.graphs.Rel Agraph.SameNodes (h.agapply (agnodesetfinger h.AGSEQ) n).graphs := by
    refine hfinger.imp (P := fun _ => True) (Q := fun _ => True) (fun a b _ _ hb => ?_)
      (fun _ _ => trivial) fun _ _ => trivial
    rw [hb]
    split
    · exact ⟨rfl, rfl⟩
    · exact .refl a
  have hfound : Reordered h (h.agapply (agnodesetfinger h.AGSEQ) n) := by
    refine hh.reordered rfl rfl hsame (hfinger.forall (fun a b hb ha => ?_) hh.order)
    rw [hb]
    split
    · rename_i hmem
      exact (agnodesetfinger_spec ha hmem).1
    · exact ha
  have hrenew := hfound.ordered.agapply (hfound.n_id ▸ hn)
    (agnoderenew (Function.update h.AGSEQ n v))
  refine hfinger.trans (fun a b c hb hc => ⟨fun hmem => ?_, fun hmem => ?_⟩) hrenew
  · rw [if_pos hmem] at hb
    rw [hc, hb, if_pos]
    exact hmem
  · rw [if_neg hmem] at hb
    rw [hc, hb, if_neg hmem]

/-- A sequence number that no other node has keeps every graph in order. -/
theorem Ordered.renumber (hh : h.Ordered) (hn : n ∈ h.root.n_id)
    (hv : ∀ m ∈ h.root.n_id, m ≠ n → h.AGSEQ m ≠ v) : Reordered h (h.renumber n v) := by
  have hrel := hh.renumber_rel (v := v) hn
  have hsame : h.graphs.Rel Agraph.SameNodes (h.renumber n v).graphs := by
    refine hrel.imp (P := fun _ => True) (Q := fun _ => True) (fun a b _ _ hb => ?_)
      (fun _ _ => trivial) fun _ _ => trivial
    by_cases hmem : n ∈ a.n_id
    · rw [hb.1 hmem]
      exact ⟨rfl, rfl⟩
    · rw [hb.2 hmem]
      exact .refl a
  refine hh.reordered rfl rfl hsame (hrel.forall
    (P := fun a => a.Ordered h.AGSEQ ∧ ∀ m ∈ a.n_id, m ∈ h.root.n_id)
    (fun a b hb ⟨ha, hroot⟩ => ?_) fun x hx => ⟨hh.order x hx, hh.mem_root x hx⟩)
  by_cases hmem : n ∈ a.n_id
  · obtain ⟨hfound, left, right, hhere⟩ := agnodesetfinger_spec ha hmem
    rw [hb.1 hmem]
    exact agnoderenew_spec hfound hhere fun m hm hne => hv m (hroot m hm) hne
  · rw [hb.2 hmem]
    refine ha.congr fun m hm => update_of_ne ?_ _ _
    rintro rfl
    exact hmem hm

/-- The nodes of the root in the order of the new numbers. -/
theorem Ordered.renumber_list (hh : h.Ordered) (hn : n ∈ h.root.n_id)
    (hmem : ∀ m, m ∈ W ↔ m ∈ h.root.n_seq.here.toList)
    (hW : Rises (Function.update h.AGSEQ n v) W) :
    Reordered h (h.renumber n v) ∧ (h.renumber n v).root.n_seq.here.toList = W := by
  have hr : Reordered h (h.renumber n v) := by
    refine hh.renumber hn fun m hm hne heq => hne (hW.inj ?_ ?_ ?_)
    · exact (hmem m).2 ((hh.root.mem m).2 hm)
    · exact (hmem n).2 ((hh.root.mem n).2 hn)
    · rw [update_self, update_of_ne hne]
      exact heq
  refine ⟨hr, hr.ordered.root.rises.eq_of_mem hW fun m => ?_⟩
  rw [hr.ordered.root.mem, hr.n_id, hmem, hh.root.mem]

/-- `agprvnode` returns the node before and changes the shape of a tree alone. -/
theorem Ordered.agprvnode (hh : h.Ordered) (hlist : h.root.n_seq.here.toList = A ++ n :: B) :
    (h.agprvnode n).1 = A.getLast? ∧ Reordered h (h.agprvnode n).2 ∧
      (h.agprvnode n).2.AGSEQ = h.AGSEQ ∧
      (h.agprvnode n).2.root.n_seq.here.toList = A ++ n :: B := by
  have hspec := dttree_spec hh.root.inv (.DT_PREV n)
  have hS := hh.root.inv.sorted
  rw [hlist] at hS
  rw [setSearch, hlist, (hS.cut Std.ReflCmp.compare_self).prev] at hspec
  refine ⟨hspec.1, hh.reordered rfl rfl ?_ fun x hx => ?_, rfl, hspec.2.2⟩
  · have hrefl := Rose.Rel.refl Agraph.SameNodes.refl h.graphs
    obtain ⟨AGID, AGSEQ, seq, ⟨g, subs⟩⟩ := h
    rw [Rose.Rel] at hrefl
    rw [Hierarchy.agprvnode, Rose.children, Rose.Rel]
    exact ⟨⟨rfl, rfl⟩, hrefl.2⟩
  · obtain rfl | hx := Rose.mem_subtrees_iff.1 hx
    · refine ⟨hspec.2.1, fun m => ?_⟩
      show m ∈ (dttree (subnodeSeqDisc h.AGSEQ) h.root.n_seq (.DT_PREV n)).2.here.toList ↔
        m ∈ h.root.n_id
      rw [hspec.2.2, ← hlist]
      exact hh.root.mem m
    · exact hh.order x (Rose.mem_subtrees_iff.2 (.inr hx))

/-! ## The loop -/

/-- The sequence numbers when those of some nodes have been raised by one. -/
def bump (f : ℕ → ℕ) (B : List ℕ) (m : ℕ) : ℕ := if m ∈ B then f m + 1 else f m

theorem bump_cons : bump f (n :: B) = Function.update (bump f B) n (f n + 1) := by
  funext m
  by_cases heq : m = n
  · rw [heq, update_self, bump, if_pos mem_cons_self]
  · rw [update_of_ne heq, bump, bump]
    simp only [mem_cons, heq, false_or]

/-- Raising the numbers of the last nodes but one keeps the order when there is room below the
last. -/
theorem rises_bump (h : Rises f (A ++ (B ++ [snd])))
    (hroom : ∀ m ∈ B, f m + 1 < f snd) : Rises (bump f B) (A ++ (B ++ [snd])) := by
  have hnd := h.nodup
  have hA : ∀ m ∈ A, bump f B m = f m := fun m hm => if_neg fun hB =>
    (disjoint_of_nodup_append hnd) hm (mem_append_left _ hB)
  have hB : ∀ m ∈ B, bump f B m = f m + 1 := fun m hm => if_pos hm
  have hsnd : bump f B snd = f snd := if_neg fun hm =>
    disjoint_of_nodup_append (nodup_append.1 hnd).2.1 hm mem_cons_self
  obtain ⟨hAs, hBs, hAB⟩ := pairwise_append.1 h
  obtain ⟨hBs, -, hBsnd⟩ := pairwise_append.1 hBs
  refine pairwise_append.2 ⟨Rises.congr hAs hA, pairwise_append.2 ⟨?_, ?_, ?_⟩, ?_⟩
  · refine List.Pairwise.imp_of_mem (fun ha hb hlt => ?_) hBs
    rw [hB _ ha, hB _ hb]
    exact succ_lt_succ hlt
  · exact pairwise_singleton _ _
  · intro a ha b hb
    obtain rfl := mem_singleton.1 hb
    rw [hB a ha, hsnd]
    exact hroom a ha
  · intro a ha b hb
    have hlt := hAB a ha b hb
    rw [hA a ha]
    obtain hb' | hb' := mem_append.1 hb
    · rw [hB b hb']
      exact lt_succ_of_lt hlt
    · obtain rfl := mem_singleton.1 hb'
      rw [hsnd]
      exact hlt

/-- The loop raises the numbers of the nodes from `n` down to `fst`, or of all nodes down to the
first when `fst` is not among them. -/
theorem Ordered.shift (hh : h.Ordered) (fst : ℕ) {fuel : ℕ} (hfuel : A.length < fuel)
    (hlist : h.root.n_seq.here.toList = A ++ (n :: B ++ [snd]))
    (hf : Rises f (A ++ (n :: B ++ [snd]))) (hroom : ∀ m ∈ A ++ n :: B, f m + 1 < f snd)
    (hmask : f snd ≤ SEQ_MASK) (hseq : h.AGSEQ = bump f B) :
    ∃ h' A' B', shift fst fuel n h = .ok h' ∧ A ++ n :: B = A' ++ B' ∧
      (fst ∈ A ++ [n] → B'.head? = some fst) ∧ Reordered h h' ∧ h'.AGSEQ = bump f B' ∧
      h'.root.n_seq.here.toList = A' ++ (B' ++ [snd]) := by
  induction fuel generalizing h n A B with
  | zero => omega
  | succ fuel ih =>
    obtain ⟨hprev, hreo, hsame, hlist1⟩ := hh.agprvnode hlist
    have hB : n ∉ B := fun hm => by
      have := (nodup_append.1 hf.nodup).2.1
      rw [cons_append, nodup_cons] at this
      exact this.1 (mem_append_left _ hm)
    have hn : (h.agprvnode n).2.AGSEQ n = f n := by rw [hsame, hseq, bump, if_neg hB]
    have hroom' : ∀ m ∈ n :: B, f m + 1 < f snd := fun m hm =>
      hroom m (mem_append_right _ hm)
    have hmem : n ∈ (h.agprvnode n).2.root.n_id := by
      rw [← hreo.ordered.root.mem, hlist1]
      simp
    have hrises : Rises (Function.update (h.agprvnode n).2.AGSEQ n (f n + 1))
        (A ++ (n :: B ++ [snd])) := by
      rw [hsame, hseq, ← bump_cons]
      exact rises_bump hf hroom'
    obtain ⟨hren, hlist2⟩ := hreo.ordered.renumber_list hmem (fun m => by rw [hlist1]; rfl) hrises
    have hseq2 : ((h.agprvnode n).2.renumber n (f n + 1)).AGSEQ = bump f (n :: B) := by
      rw [bump_cons, ← hseq, ← hsame]
      rfl
    have hpass : f n + 1 ≤ SEQ_MASK := (hroom' n mem_cons_self).le.trans hmask
    rw [Hierarchy.shift]
    dsimp only
    rw [hn, assert, if_pos hpass, ok_bind]
    by_cases heq : n = fst
    · rw [if_pos heq]
      exact ⟨_, A, n :: B, rfl, rfl, fun _ => by rw [heq]; rfl, hreo.trans hren, hseq2, hlist2⟩
    · rw [if_neg heq, hprev]
      obtain rfl | ⟨A', m, rfl⟩ := eq_nil_or_concat A
      · refine ⟨_, [], n :: B, rfl, rfl, fun hmem' => ?_, hreo.trans hren, hseq2, hlist2⟩
        exact absurd (mem_singleton.1 hmem').symm heq
      · rw [concat_eq_append] at hlist2 hf hroom hfuel ⊢
        rw [getLast?_append]
        rw [append_assoc] at hlist2 hf hroom
        rw [length_append] at hfuel
        obtain ⟨h', A'', B'', hres, hcut, hhead, hreo', hseq', hlist'⟩ :=
          ih hren.ordered (by simpa using hfuel) hlist2 hf hroom hseq2
        refine ⟨h', A'', B'', hres, by rw [← hcut]; simp, fun hmem' => hhead ?_,
          (hreo.trans hren).trans hreo', hseq', hlist'⟩
        obtain hmem' | hmem' := mem_append.1 hmem'
        · exact hmem'
        · exact absurd (mem_singleton.1 hmem').symm heq

/-! ## The nodes of a graph in order -/

/-- From a node on, `agnxtnode` goes through the nodes after it. -/
theorem nodesFrom_eq {AGID : ℕ → ℕ} {fuel : ℕ} (hg : g.Ordered f)
    (hid : ∀ m ∈ g.n_id, agsubrep AGID g m = some m)
    (hlist : g.n_seq.here.toList = A ++ n :: B) (hfuel : B.length < fuel) :
    nodesFrom AGID f fuel g n = B := by
  induction fuel generalizing g n A B with
  | zero => omega
  | succ fuel ih =>
    have hspec := dttree_spec hg.inv (.DT_NEXT n)
    have hS := hg.inv.sorted
    rw [hlist] at hS
    rw [setSearch, hlist, (hS.cut Std.ReflCmp.compare_self).next, ← hlist] at hspec
    have hn : n ∈ g.n_id := by
      rw [← hg.mem, hlist]
      simp
    rw [nodesFrom, agnxtnode, hid n hn]
    dsimp only
    rw [hspec.1]
    cases B with
    | nil => rfl
    | cons b B =>
      have hlist' : ({ g with n_seq := (dttree (subnodeSeqDisc f) g.n_seq (.DT_NEXT n)).2 }
          : Agraph).n_seq.here.toList = (A ++ [n]) ++ b :: B := by
        refine hspec.2.2.trans (hlist.trans ?_)
        simp
      refine congrArg (b :: ·) (ih ⟨hspec.2.1, fun m => ?_⟩ hid hlist' ?_)
      · rw [hspec.2.2]
        exact hg.mem m
      · rw [length_cons] at hfuel
        omega

/-- `agfstnode` and `agnxtnode` go through the nodes of a graph in order. -/
theorem nodes_eq {AGID : ℕ → ℕ} (hg : g.Ordered f)
    (hid : ∀ m ∈ g.n_id, agsubrep AGID g m = some m) : nodes AGID f g = g.n_seq.here.toList := by
  have hspec := dttree_spec hg.inv .DT_FIRST
  rw [setSearch] at hspec
  rw [nodes, agfstnode]
  dsimp only
  rw [hspec.1]
  cases hL : g.n_seq.here.toList with
  | nil => rfl
  | cons a L =>
    have hlist : (dttree (subnodeSeqDisc f) g.n_seq .DT_FIRST).2.here.toList = a :: L :=
      hspec.2.2.trans hL
    refine congrArg (a :: ·) (nodesFrom_eq (A := []) ⟨hspec.2.1, fun m => ?_⟩ hid hlist ?_)
    · rw [hspec.2.2]
      exact hg.mem m
    · rw [BinTree.count_eq, hlist]
      exact lt_succ_self _

/-- The nodes of a graph as `agfstnode` and `agnxtnode` go through them. -/
abbrev nodesOf (h : Hierarchy) (g : Agraph) : List ℕ := nodes h.AGID h.AGSEQ g

theorem Ordered.nodesOf (hh : h.Ordered) {x : Rose Agraph} (hx : x ∈ h.graphs.subtrees) :
    h.nodesOf x.label = x.label.n_seq.here.toList := by
  refine nodes_eq (hh.order x hx) fun m hm => ?_
  have hroot := hh.mem_root x hx m hm
  rw [Nodebefore.agsubrep]
  split
  · rfl
  · rw [hh.find_id hroot (hh.mem_root x hx), if_pos hm]

/-! ## Moving a node -/

/-- A root graph as the other functions leave it: in order, and no node has a higher sequence number
than the last one given out. -/
structure Sound (h : Hierarchy) : Prop where
  ordered : h.Ordered
  bounded : ∀ n ∈ h.root.n_id, h.AGSEQ n ≤ h.seq

/-- The sequence numbers are distinct and in bounds, every graph has the nodes it had, in the same
order but for `snd`, and `snd` comes before `fst`. -/
structure Moves (h : Hierarchy) (fst snd : ℕ) (h' : Hierarchy) : Prop where
  distinct : ∀ m ∈ h'.nodesOf h'.root, ∀ n ∈ h'.nodesOf h'.root,
    h'.AGSEQ m = h'.AGSEQ n → m = n
  bounded : ∀ n ∈ h'.nodesOf h'.root, h'.AGSEQ n ≤ h'.seq
  graphs : h.graphs.Rel (fun a b => (h'.nodesOf b).Perm (h.nodesOf a) ∧
    (h'.nodesOf b).filter (· ≠ snd) = (h.nodesOf a).filter (· ≠ snd)) h'.graphs
  before : (h'.nodesOf h'.root).idxOf snd < (h'.nodesOf h'.root).idxOf fst

/-- `snd` is before `fst` already, or they are two nodes and no other node than `snd` has the last
sequence number given out. -/
def Movable (h : Hierarchy) (fst snd : ℕ) : Prop :=
  h.AGSEQ snd < h.AGSEQ fst ∨ fst ≠ snd ∧ ∀ m ∈ h.nodesOf h.root, m ≠ snd → h.AGSEQ m < h.seq

/-- Hierarchies in order with the same nodes agree on the order of the nodes but `snd` when the
sequence numbers do. -/
theorem Reordered.graphs_moved (hh : h.Ordered) (hr : Reordered h h')
    (hmono : ∀ x ∈ h.root.n_id, ∀ y ∈ h.root.n_id, x ≠ snd → y ≠ snd → h.AGSEQ x < h.AGSEQ y →
      h'.AGSEQ x < h'.AGSEQ y) :
    h.graphs.Rel (fun a b => (h'.nodesOf b).Perm (h.nodesOf a) ∧
      (h'.nodesOf b).filter (· ≠ snd) = (h.nodesOf a).filter (· ≠ snd)) h'.graphs := by
  refine hr.graphs.imp
    (P := fun a => h.nodesOf a = a.n_seq.here.toList ∧ a.Ordered h.AGSEQ ∧
      ∀ n ∈ a.n_id, n ∈ h.root.n_id)
    (Q := fun b => h'.nodesOf b = b.n_seq.here.toList ∧ b.Ordered h'.AGSEQ)
    (fun a b ⟨hal, ha, hroot⟩ ⟨hbl, hb⟩ hab => ?_)
    (fun x hx => ⟨hh.nodesOf hx, hh.order x hx, hh.mem_root x hx⟩)
    fun y hy => ⟨hr.ordered.nodesOf hy, hr.ordered.order y hy⟩
  have hmem : ∀ m, m ∈ b.n_seq.here.toList ↔ m ∈ a.n_seq.here.toList := fun m => by
    rw [hb.mem, ha.mem, hab.n_id]
  rw [hal, hbl]
  refine ⟨(perm_ext_iff_of_nodup hb.rises.nodup ha.rises.nodup).2 hmem, ?_⟩
  refine (hb.rises.sublist filter_sublist).eq_of_mem ?_ fun m => ?_
  · have hsub := ha.rises.sublist (filter_sublist (p := (· ≠ snd)))
    refine List.Pairwise.imp_of_mem (fun {x y} hx hy hlt => ?_) hsub
    rw [mem_filter, ha.mem] at hx hy
    exact hmono x (hroot x hx.1) y (hroot y hy.1) (by simpa using hx.2) (by simpa using hy.2) hlt
  · rw [mem_filter, mem_filter, hmem]

/-- When the order of the other nodes is kept and `snd` has come before `fst`, only the bound may
be lost. -/
theorem Reordered.moves_iff (hh : h.Ordered) (hr : Reordered h h') (hfst : fst ∈ h.root.n_id)
    (hsnd : snd ∈ h.root.n_id)
    (hmono : ∀ x ∈ h.root.n_id, ∀ y ∈ h.root.n_id, x ≠ snd → y ≠ snd → h.AGSEQ x < h.AGSEQ y →
      h'.AGSEQ x < h'.AGSEQ y) (hbefore : h'.AGSEQ snd < h'.AGSEQ fst) :
    Moves h fst snd h' ↔ ∀ m ∈ h.root.n_id, h'.AGSEQ m ≤ h'.seq := by
  have hnodes := hr.ordered.nodesOf Rose.mem_subtrees_self
  have hmem : ∀ m, m ∈ h'.nodesOf h'.root ↔ m ∈ h.root.n_id := fun m => by
    rw [hnodes, hr.ordered.root.mem, hr.n_id]
  have hrises : Rises h'.AGSEQ (h'.nodesOf h'.root) := by
    rw [hnodes]
    exact hr.ordered.root.rises
  constructor
  · exact fun hmoves m hm => hmoves.bounded m ((hmem m).2 hm)
  · intro hbounded
    exact ⟨fun m hm n hn heq => hrises.inj hm hn heq, fun m hm => hbounded m ((hmem m).1 hm),
      hr.graphs_moved hh hmono, hrises.idxOf_lt ((hmem snd).2 hsnd) ((hmem fst).2 hfst) hbefore⟩

/-- A node is not moved before itself. -/
theorem Moves.ne (hm : Moves h fst snd h') : fst ≠ snd := fun heq => by
  have := hm.before
  rw [heq] at this
  exact lt_irrefl _ this

/-- `snd` has been moved behind all other nodes, with room for the numbers of the others to rise. -/
theorem Sound.step_aside (hs : h.Sound) {P T : List ℕ}
    (hlist : h.root.n_seq.here.toList = P ++ snd :: T) :
    Reordered h (h.renumber snd (h.seq + 2)) ∧
      (h.renumber snd (h.seq + 2)).root.n_seq.here.toList = P ++ T ++ [snd] ∧
      Rises (Function.update h.AGSEQ snd (h.seq + 2)) (P ++ T ++ [snd]) ∧
      (∀ m ∈ P ++ T, m ∈ h.root.n_id ∧ m ≠ snd) := by
  have hrises := hs.ordered.root.rises
  have hroot := hs.ordered.root.mem
  rw [hlist] at hrises hroot
  have hsub : (P ++ T).Sublist (P ++ snd :: T) := (sublist_cons_self _ _).append_left _
  have hother : ∀ m ∈ P ++ T, m ∈ h.root.n_id ∧ m ≠ snd := fun m hm => by
    refine ⟨(hroot m).1 (hsub.mem hm), ?_⟩
    rintro rfl
    exact (nodup_middle.1 hrises.nodup).notMem hm
  have hW : Rises (Function.update h.AGSEQ snd (h.seq + 2)) (P ++ T ++ [snd]) := by
    refine pairwise_append.2 ⟨(hrises.sublist hsub).congr fun m hm =>
      update_of_ne (hother m hm).2 _ _, pairwise_singleton _ _, fun m hm b hb => ?_⟩
    obtain rfl := mem_singleton.1 hb
    rw [update_self, update_of_ne (hother m hm).2]
    have := hs.bounded m (hother m hm).1
    omega
  obtain ⟨hr, hlist'⟩ := hs.ordered.renumber_list ((hroot snd).1 (by simp))
    (fun m => by rw [hlist]; simp; tauto) hW
  exact ⟨hr, hlist', hW, hother⟩

/-- `snd` takes the number that `fst` had, when the nodes from `fst` on have risen by one. -/
theorem Sound.step_back (hs : h.Sound) (hr : Reordered h h') {A C : List ℕ}
    (hseq : h'.AGSEQ = bump (Function.update h.AGSEQ snd (h.seq + 2)) (fst :: C))
    (hlist : h'.root.n_seq.here.toList = A ++ (fst :: C ++ [snd]))
    (hrises : Rises h.AGSEQ (A ++ fst :: C)) (hne : ∀ m ∈ A ++ fst :: C, m ≠ snd)
    (hsnd : snd ∈ h.root.n_id) :
    Moves h fst snd (h'.renumber snd (h'.AGSEQ fst - 1)) ↔
      ∀ m ∈ h.root.n_id, m ≠ snd → h.AGSEQ m < h.seq := by
  have hroot : ∀ m, m ∈ h.root.n_id ↔ m ∈ A ++ fst :: C ∨ m = snd := fun m => by
    rw [← hr.n_id, ← hr.ordered.root.mem, hlist]
    simp only [mem_append, mem_cons, not_mem_nil, or_false]
    tauto
  have hfst : fst ∈ A ++ fst :: C := by simp
  obtain ⟨hA, hB, hAB⟩ := pairwise_append.1 hrises
  have hdisj : ∀ m ∈ A, m ∉ fst :: C := fun m hm hm' => (hAB m hm m hm').false
  -- the numbers in the end
  have hup : ∀ m ∈ fst :: C, h'.AGSEQ m = h.AGSEQ m + 1 := fun m hm => by
    rw [hseq, bump, if_pos hm, update_of_ne (hne m (mem_append_right _ hm))]
  have hstay : ∀ m ∈ A, h'.AGSEQ m = h.AGSEQ m := fun m hm => by
    rw [hseq, bump, if_neg (hdisj m hm), update_of_ne (hne m (mem_append_left _ hm))]
  have hfirst : h'.AGSEQ fst - 1 = h.AGSEQ fst := by
    rw [hup fst mem_cons_self]
    rfl
  rw [hfirst]
  set f := Function.update h'.AGSEQ snd (h.AGSEQ fst) with hf
  have hfsnd : f snd = h.AGSEQ fst := update_self _ _ _
  have hfup : ∀ m ∈ fst :: C, f m = h.AGSEQ m + 1 := fun m hm =>
    (update_of_ne (hne m (mem_append_right _ hm)) _ _).trans (hup m hm)
  have hfstay : ∀ m ∈ A, f m = h.AGSEQ m := fun m hm =>
    (update_of_ne (hne m (mem_append_left _ hm)) _ _).trans (hstay m hm)
  have hle : ∀ m ∈ fst :: C, h.AGSEQ fst ≤ h.AGSEQ m := fun m hm => by
    obtain rfl | hm := mem_cons.1 hm
    · exact le_rfl
    · exact ((pairwise_cons.1 hB).1 m hm).le
  have hrisesB : Rises f (fst :: C) :=
    List.Pairwise.imp_of_mem (fun ha hb hlt => by
      rw [hfup _ ha, hfup _ hb]
      exact succ_lt_succ hlt) hB
  have hW : Rises f (A ++ snd :: fst :: C) := by
    refine pairwise_append.2 ⟨Rises.congr hA hfstay,
      pairwise_cons.2 ⟨fun b hb => ?_, hrisesB⟩, fun a ha b hb => ?_⟩
    · rw [hfsnd, hfup b hb]
      exact lt_succ_of_le (hle b hb)
    · rw [hfstay a ha]
      obtain rfl | hb := mem_cons.1 hb
      · rw [hfsnd]
        exact hAB a ha fst mem_cons_self
      · rw [hfup b hb]
        exact lt_succ_of_lt (hAB a ha b hb)
  have hsnd' : snd ∈ h'.root.n_id := by rwa [hr.n_id]
  obtain ⟨hren, -⟩ := hr.ordered.renumber_list hsnd' (fun m => by
    rw [hlist]
    simp only [mem_append, mem_cons, not_mem_nil, or_false]
    tauto) hW
  have hsub : (A ++ fst :: C).Sublist (A ++ snd :: fst :: C) :=
    (sublist_cons_self _ _).append_left _
  rw [(hr.trans hren).moves_iff hs.ordered ((hroot fst).2 (.inl hfst)) hsnd
    (fun x hx y hy hxs hys hlt => hrises.lt_of_lt (hW.sublist hsub)
      (((hroot x).1 hx).resolve_right hxs) (((hroot y).1 hy).resolve_right hys) hlt) ?_]
  · show (∀ m ∈ h.root.n_id, f m ≤ h'.seq) ↔ _
    rw [hr.seq]
    constructor
    · intro hle' m hm hms
      obtain hmA | hmB := mem_append.1 (((hroot m).1 hm).resolve_right hms)
      · have := hAB m hmA fst mem_cons_self
        have := hs.bounded fst ((hroot fst).2 (.inl hfst))
        omega
      · have := hle' m hm
        rw [hfup m hmB] at this
        omega
    · intro hlt m hm
      by_cases hms : m = snd
      · rw [hms, hfsnd]
        exact hs.bounded fst ((hroot fst).2 (.inl hfst))
      · have := hlt m hm hms
        obtain hmA | hmB := mem_append.1 (((hroot m).1 hm).resolve_right hms)
        · rw [hfstay m hmA]
          exact this.le
        · rw [hfup m hmB]
          exact this
  · show f snd < f fst
    rw [hfsnd, hfup fst mem_cons_self]
    exact lt_succ_self _

/-- Whenever `agnodebefore` returns, it has moved `snd` before `fst` and kept the sequence numbers
in bounds exactly when it had nothing to do or there was room for them. It does not return when the
numbers do not fit their field, or for the only node of a graph. -/
theorem agnodebefore_moves_iff (hs : h.Sound) (hfst : fst ∈ h.root.n_id)
    (hsnd : snd ∈ h.root.n_id) :
    Meets (h.agnodebefore fst snd) (fun h' => Moves h fst snd h' ↔ Movable h fst snd)
      (fun e => e = .assertion ∧ SEQ_MASK < h.seq + 2 ∨
        e = .segfault ∧ fst = snd ∧ ∀ m ∈ h.root.n_id, m = snd) := by
  have hnodes : ∀ m, m ∈ h.nodesOf h.root ↔ m ∈ h.root.n_id := fun m => by
    rw [hs.ordered.nodesOf Rose.mem_subtrees_self, hs.ordered.root.mem]
  rw [agnodebefore]
  by_cases hdone : h.AGSEQ fst > h.AGSEQ snd
  · rw [if_pos hdone]
    refine ⟨fun _ => .inl hdone, fun _ => ?_⟩
    exact ((Reordered.refl hs.ordered).moves_iff hs.ordered hfst hsnd
      (fun _ _ _ _ _ _ hlt => hlt) hdone).2 hs.bounded
  · rw [if_neg hdone]
    by_cases hmask : h.seq + 2 ≤ SEQ_MASK
    · refine Meets.assert hmask ?_
      obtain ⟨P, T, hlist⟩ := append_of_mem ((hs.ordered.root.mem snd).2 hsnd)
      obtain ⟨hr1, hlist1, hrises1, hother⟩ := hs.step_aside hlist
      obtain ⟨hprev, hr2, hseq2, hlist2⟩ := hr1.ordered.agprvnode hlist1
      have hroot : ∀ m ∈ h.root.n_id, m ≠ snd → m ∈ P ++ T := fun m hm hms => by
        rw [← hs.ordered.root.mem, hlist] at hm
        simp only [mem_append, mem_cons] at hm ⊢
        tauto
      have hrisesPT : Rises h.AGSEQ (P ++ T) := by
        have hrises := hs.ordered.root.rises
        rw [hlist] at hrises
        exact hrises.sublist ((sublist_cons_self _ _).append_left _)
      dsimp only
      cases hres : (h.renumber snd (h.seq + 2)).agprvnode snd with
      | mk o h2 =>
        rw [hres] at hprev hr2 hseq2 hlist2
        dsimp only at hprev hr2 hseq2 hlist2
        obtain hnil | ⟨A, n, hPT⟩ := eq_nil_or_concat (P ++ T)
        · rw [hnil] at hprev hroot
          subst hprev
          have honly : ∀ m ∈ h.root.n_id, m = snd := fun m hm => by
            by_contra hms
            cases hroot m hm hms
          exact .inr ⟨rfl, honly fst hfst, honly⟩
        · rw [concat_eq_append] at hPT
          rw [hPT, getLast?_append] at hprev
          obtain rfl : o = some n := hprev
          rw [hPT] at hlist2 hrises1 hother hroot hrisesPT
          have hassoc : A ++ [n] ++ [snd] = A ++ (n :: [] ++ [snd]) := by simp
          rw [hassoc] at hlist2 hrises1
          have hsndf : Function.update h.AGSEQ snd (h.seq + 2) snd = h.seq + 2 :=
            update_self _ _ _
          have hfuel : A.length < h2.root.n_seq.here.count := by
            rw [BinTree.count_eq, hlist2]
            simp
          obtain ⟨h3, A', B', hloop, hcut, hhead, hr3, hseq3, hlist3⟩ :=
            hr2.ordered.shift fst hfuel hlist2 hrises1 (fun m hm => by
                rw [hsndf, update_of_ne (hother m hm).2]
                have := hs.bounded m (hother m hm).1
                omega) (by rw [hsndf]; exact hmask) (by
                rw [hseq2]
                funext m
                exact (if_neg not_mem_nil).symm)
          rw [hcut] at hother hroot hrisesPT hhead
          dsimp only
          rw [hloop, ok_bind]
          by_cases heq : fst = snd
          · have hzero : h3.AGSEQ fst ≠ 0 := by
              have hout : snd ∉ B' := fun hm => (hother snd (mem_append_right _ hm)).2 rfl
              rw [heq, hseq3, bump, if_neg hout, hsndf]
              exact succ_ne_zero _
            refine Meets.assert hzero ⟨fun hm => absurd heq hm.ne, fun hm => ?_⟩
            obtain hlt | ⟨hne, -⟩ := hm
            · exact absurd hlt hdone
            · exact absurd heq hne
          · obtain ⟨C, rfl⟩ := head?_eq_some_iff.1 (hhead (hroot fst hfst heq))
            have hzero : h3.AGSEQ fst ≠ 0 := by
              rw [hseq3, bump, if_pos mem_cons_self]
              exact succ_ne_zero _
            refine Meets.assert hzero ?_
            have hmoves := hs.step_back ((hr1.trans hr2).trans hr3) hseq3 hlist3 hrisesPT
              (fun m hm => (hother m hm).2) hsnd
            refine hmoves.trans ⟨fun hlt => .inr ⟨heq, fun m hm => hlt m ((hnodes m).1 hm)⟩,
              fun hmov m hm => ?_⟩
            obtain hlt | ⟨-, hlt⟩ := hmov
            · exact absurd hlt hdone
            · exact hlt m ((hnodes m).2 hm)
    · rw [assert, if_neg hmask]
      exact .inl ⟨rfl, Nat.lt_of_not_le hmask⟩

/-- A graph with some of the first nodes, which have been put in by their order. -/
def someNodes (isRoot : Bool) (L : List ℕ) : Agraph where
  isRoot := isRoot
  n_id := L
  n_seq := ⟨.ofList L, false, L.length⟩

/-- A root graph with the nodes 0, 1 and 2, the first three that were made, and a subgraph with the
nodes 0 and 2. -/
def three : Hierarchy where
  AGID n := n
  AGSEQ n := n + 1
  seq := 3
  graphs := .mk (someNodes true [0, 1, 2]) [.mk (someNodes false [0, 2]) []]

theorem ordered_someNodes {isRoot : Bool} (hL : Rises (fun n => n + 1) L) :
    (someNodes isRoot L).Ordered fun n => n + 1 := by
  have hlist : (someNodes isRoot L).n_seq.here.toList = L := BinTree.toList_ofList
  refine ⟨⟨?_, nofun, fun _ => ?_⟩, fun m => ?_⟩
  · rw [hlist]
    exact sorted_iff.2 hL
  · rw [hlist]
    rfl
  · rw [hlist]
    rfl

theorem sound_three : three.Sound := by
  have hall : ∀ x ∈ three.graphs.subtrees, x = three.graphs ∨
      x = .mk (someNodes false [0, 2]) [] := fun x hx => by
    simpa [three, Rose.subtrees, Rose.forest] using hx
  refine ⟨⟨?_, fun m _ n _ heq => heq, fun x hx => ?_⟩, fun n hn => ?_⟩
  · rw [three, Rose.Descends, Rose.DescendsForest, Rose.Descends, Rose.DescendsForest,
      Rose.DescendsForest]
    exact ⟨⟨rfl, by decide⟩, trivial, trivial⟩
  · obtain rfl | rfl := hall x hx
    · exact ordered_someNodes (by decide)
    · exact ordered_someNodes (by decide)
  · revert n
    decide

/-- Node 2 is moved before node 0. -/
theorem agnodebefore_moves_iff_three : ∃ h', three.agnodebefore 0 2 = .ok h' ∧
    Moves three 0 2 h' := by
  have h : Meets (three.agnodebefore 0 2) _ _ :=
    agnodebefore_moves_iff sound_three (by decide) (by decide)
  have hmov : Movable three 0 2 := .inr ⟨by decide, by decide⟩
  exact ⟨_, rfl, (h.of_ok rfl).2 hmov⟩

/-- When node 1 is moved before node 0, node 2 has a higher number than the last one given out. -/
theorem agnodebefore_three_exceeds : three.Sound ∧ ∃ h', three.agnodebefore 0 1 = .ok h' ∧
    h'.AGSEQ 2 = 4 ∧ h'.seq = 3 ∧ ¬ Moves three 0 1 h' := by
  have hrun : (fun h' => (h'.nodesOf h'.root, h'.AGSEQ 2, h'.seq)) <$> three.agnodebefore 0 1 =
      .ok ([1, 0, 2], 4, 3) := by decide +kernel
  cases hres : three.agnodebefore 0 1 with
  | error e =>
    rw [hres] at hrun
    cases hrun
  | ok h' =>
    rw [hres] at hrun
    obtain ⟨hnodes, hrun⟩ := Prod.mk.inj (Except.ok.inj hrun)
    obtain ⟨hup, hseq⟩ := Prod.mk.inj hrun
    refine ⟨sound_three, h', rfl, hup, hseq, fun hm => ?_⟩
    have hle := hm.bounded 2 (by rw [hnodes]; decide)
    omega

end Hierarchy

end Graphviz.Nodebefore
