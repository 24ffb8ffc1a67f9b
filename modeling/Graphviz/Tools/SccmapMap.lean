import Graphviz.Library.FreshNames
import Graphviz.Library.RelGraph
import Graphviz.Tools.Sccmap
import Graphviz.Util.NumeralRead

/-!
# What `sccmap` makes of the components

The names of the subgraphs are different from each other. When none of them is in the graph before,
each component that is not skipped gets a new subgraph with its nodes and the edges between them,
and the map an edge for each that leads to a component that has been made before.
-/

namespace Graphviz.Sccmap

open Function List Option Outcome

variable {n : ℕ} {G : graph_t n} {want : Bool} {o o' : Out n} {v : Fin n} {C : List (Fin n)}
  {R comps : List (List (Fin n))} {g k : ℕ}

theorem clusterName_inj {i j : ℕ} (h : clusterName i = clusterName j) : i = j := by
  have hdec : decimal i = decimal j := append_cancel_left h
  rw [← (decimal_spec i).2.2, hdec, (decimal_spec j).2.2]

/-! ## Parts of the subgraphs -/

theorem modify_concat {α : Type} (l : List α) (a : α) (f : α → α) :
    (l ++ [a]).modify l.length f = l ++ [f a] := by
  induction l with
  | nil => rfl
  | cons b l ih => exact congrArg (b :: ·) ih

theorem putNodes_eq (g : ℕ) (o : Out n) (C : List (Fin n)) :
    C.foldl (putNode g) o = { o with
      subgs := o.subgs.modify g (C.foldl subg_t.agsubnode)
      scc := fun u => if u ∈ C then some g else o.scc u } := by
  induction C generalizing o with
  | nil =>
    simp only [foldl_nil, not_mem_nil, if_false]
    rw [show (fun sg : subg_t n => sg) = id from rfl, modify_id]
  | cons t C ih =>
    rw [foldl_cons, ih, putNode]
    congr 1
    · exact modify_modify_eq _ _ _ _
    · funext u
      change (if u ∈ C then some g else update o.scc t (some g) u) = _
      rw [update_apply]
      simp only [mem_cons]
      split
      next h => rw [if_pos (.inr h)]
      next h => exact if_congr (or_iff_left h).symm rfl rfl

/-- New nodes are put at the end. -/
theorem agsubnode_foldl (sg : subg_t n) (hC : C.Nodup) (hsg : ∀ v ∈ C, v ∉ sg.nodes) :
    C.foldl subg_t.agsubnode sg = { sg with nodes := sg.nodes ++ C } := by
  induction C generalizing sg with
  | nil => rw [append_nil]; rfl
  | cons t C ih =>
    obtain ⟨ht, hC⟩ := nodup_cons.1 hC
    have hstep : sg.agsubnode t = { sg with nodes := sg.nodes ++ [t] } :=
      if_neg (hsg t mem_cons_self)
    rw [foldl_cons, hstep, ih _ hC fun v hv hmem => ?_]
    · simp
    · obtain hmem | hmem := mem_append.1 hmem
      · exact hsg v (mem_cons_of_mem t hv) hmem
      · exact ht (mem_singleton.1 hmem ▸ hv)

/-- New edges are put at the end. -/
theorem agsubedge_foldl {es : List (edge_t n)} (sg : subg_t n) (hes : es.Nodup)
    (hsg : ∀ e ∈ es, e ∉ sg.edges) :
    es.foldl subg_t.agsubedge sg = { sg with edges := sg.edges ++ es } := by
  induction es generalizing sg with
  | nil => rw [append_nil]; rfl
  | cons t es ih =>
    obtain ⟨ht, hes⟩ := nodup_cons.1 hes
    have hstep : sg.agsubedge t = { sg with edges := sg.edges ++ [t] } :=
      if_neg (hsg t mem_cons_self)
    rw [foldl_cons, hstep, ih _ hes fun e he hmem => ?_]
    · simp
    · obtain hmem | hmem := mem_append.1 hmem
      · exact hsg e (mem_cons_of_mem t he) hmem
      · exact ht (mem_singleton.1 hmem ▸ he)

/-! ## The edges of a subgraph -/

attribute [local instance] Instances.lawfulBEq_fin

/-- The edge in the map for one that leaves the nodes of a subgraph, if there is one. -/
def link (o : Out n) (C : List (Fin n)) (e : edge_t n) : Option (CStr × CStr) := do
  guard (e.aghead ∉ C)
  let tscc ← o.scc e.agtail
  let hscc ← o.scc e.aghead
  let t ← o.rep tscc
  let h ← o.rep hscc
  some (t, h)

theorem mem_nodesOf {sg : subg_t n} (h : o.subgs[g]? = some sg) :
    v ∈ o.nodesOf g ↔ v ∈ sg.nodes := by
  rw [Out.nodesOf, h]
  change v ∈ (List.finRange n).filter (· ∈ sg.nodes) ↔ _
  rw [mem_filter, decide_eq_true_iff, and_iff_right (mem_finRange v)]

theorem induceEdge_eq {sg : subg_t n} {e : edge_t n} (hrep : Represented o)
    (h : o.subgs[g]? = some sg) :
    induceEdge g o e = .ok { o with
      subgs := if e.aghead ∈ sg.nodes then o.subgs.modify g (·.agsubedge e) else o.subgs
      map := { o.map with edges := o.map.edges ++ (link o sg.nodes e).toList } } := by
  rw [induceEdge]
  split
  next hmem =>
    rw [mem_nodesOf h] at hmem
    have hlink : link o sg.nodes e = none := by simp [link, hmem]
    rw [hlink, toList_none, append_nil, if_pos hmem]
  next hmem =>
    rw [mem_nodesOf h] at hmem
    rw [if_neg hmem]
    split
    next t d ht hd =>
      obtain ⟨a, ha⟩ := hrep _ _ ht
      obtain ⟨b, hb⟩ := hrep _ _ hd
      have hlink : link o sg.nodes e = some (a, b) := by simp [link, hmem, ht, hd, ha, hb]
      rw [hlink, ha, hb]
      rfl
    next hnone =>
      have hlink : link o sg.nodes e = none := by
        cases ht : o.scc e.agtail with
        | none => simp [link, ht]
        | some t =>
          cases hd : o.scc e.aghead with
          | none => simp [link, ht, hd]
          | some d => exact absurd hd (hnone t d ht)
      rw [hlink, toList_none, append_nil]

/-- The loop over the edges of the nodes: those that stay in the subgraph are put in it, and the
others give edges in the map. -/
theorem induceEdges_eq {sg : subg_t n} (hrep : Represented o) (h : o.subgs[g]? = some sg)
    (es : List (edge_t n)) :
    es.foldlM (induceEdge g) o = .ok { o with
      subgs := o.subgs.modify g ((es.filter (·.aghead ∈ sg.nodes)).foldl subg_t.agsubedge)
      map := { o.map with edges := o.map.edges ++ es.filterMap (link o sg.nodes) } } := by
  induction es generalizing o sg with
  | nil =>
    have hid : (([] : List (edge_t n)).filter (·.aghead ∈ sg.nodes)).foldl subg_t.agsubedge =
        (id : subg_t n → subg_t n) := rfl
    rw [hid, modify_id, filterMap_nil, append_nil]
    rfl
  | cons e es ih =>
    rw [foldlM_cons, induceEdge_eq hrep h, ok_bind]
    have hfilterMap : ∀ l : List (CStr × CStr), l ++ (e :: es).filterMap (link o sg.nodes) =
        l ++ (link o sg.nodes e).toList ++ es.filterMap (link o sg.nodes) := by
      intro l
      rw [filterMap_cons]
      cases link o sg.nodes e with
      | none => simp
      | some p => simp
    rw [hfilterMap]
    split
    next hmem =>
      have hsub : (o.subgs.modify g (·.agsubedge e))[g]? = some (sg.agsubedge e) := by
        rw [getElem?_modify_eq, h]
        rfl
      have hnodes : (sg.agsubedge e).nodes = sg.nodes := by
        rw [subg_t.agsubedge]
        split <;> rfl
      have hrest := ih (o := { o with
        subgs := o.subgs.modify g (·.agsubedge e)
        map := { o.map with edges := o.map.edges ++ (link o sg.nodes e).toList } })
        (fun u g hu => hrep u g hu) hsub
      rw [hnodes, modify_modify_eq] at hrest
      rw [filter_cons_of_pos (by simpa using hmem)]
      exact hrest
    next hmem =>
      have hrest := ih (o := { o with
        map := { o.map with edges := o.map.edges ++ (link o sg.nodes e).toList } })
        (fun u g hu => hrep u g hu) h
      rw [filter_cons_of_neg (by simpa using hmem)]
      exact hrest

/-! ## A component -/

/-- The edges in the order in which they are looked at for a component. -/
def edgesFrom (G : graph_t n) (C : List (Fin n)) : List (edge_t n) :=
  ((List.finRange n).filter (· ∈ C)).flatMap G.out

theorem newSubg_get (o : Out n) : ∃ sg, (newSubg o).2.subgs[(newSubg o).1]? = some sg := by
  change ∃ sg, (agsubg { o with Comp := o.Comp + 1 } (clusterName o.Comp)).2.subgs[
    (agsubg { o with Comp := o.Comp + 1 } (clusterName o.Comp)).1]? = some sg
  rw [agsubg]
  split
  next i hi => exact ⟨_, getElem?_eq_getElem (findIdx?_eq_some_iff_getElem.1 hi).1⟩
  next => exact ⟨_, getElem?_concat_length⟩

/-- The nodes of a component are in its subgraph. -/
def placed (o : Out n) (C : List (Fin n)) : Out n :=
  C.foldl (putNode (newSubg o).1) (newSubg o).2

theorem placed_eq (o : Out n) (C : List (Fin n)) :
    placed o C = { (newSubg o).2 with
      subgs := (newSubg o).2.subgs.modify (newSubg o).1 (C.foldl subg_t.agsubnode)
      scc := fun u => if u ∈ C then some (newSubg o).1 else (newSubg o).2.scc u } :=
  putNodes_eq _ _ C

/-- What is made for a component that is not skipped. -/
theorem report_eq (hrep : Represented o) (hC : ¬Skipped want C) {sg sgC : subg_t n}
    (hsg : (newSubg o).2.subgs[(newSubg o).1]? = some sg)
    (hsgC : C.foldl subg_t.agsubnode sg = sgC) :
    report G want o C = .ok { placed o C with
      subgs := (placed o C).subgs.modify (newSubg o).1
        (((edgesFrom G sgC.nodes).filter (·.aghead ∈ sgC.nodes)).foldl subg_t.agsubedge)
      map := { (placed o C).map with edges := (placed o C).map.edges ++
        (edgesFrom G sgC.nodes).filterMap (link (placed o C) sgC.nodes) } } := by
  obtain ⟨hnew, hnode⟩ := newSubg_represented hrep
  have hget : (placed o C).subgs[(newSubg o).1]? = some sgC := by
    rw [placed_eq, ← hsgC]
    change ((newSubg o).2.subgs.modify _ _)[_]? = _
    rw [getElem?_modify_eq, hsg]
    rfl
  have hnodes : (placed o C).nodesOf (newSubg o).1 =
      (List.finRange n).filter (· ∈ sgC.nodes) := by
    rw [Out.nodesOf, hget]
  rw [report, if_neg hC]
  change nodeInduce G _ (placed o C) = _
  rw [nodeInduce_eq, hnodes]
  exact induceEdges_eq (putNodes_represented hnew hnode C) hget _

/-! ## Names -/

/-- The names of the subgraphs. -/
def namesOf (subgs : List (subg_t n)) : List (Option CStr) :=
  subgs.map (·.name)

theorem namesOf_modify {f : subg_t n → subg_t n} (hf : ∀ sg, (f sg).name = sg.name)
    (subgs : List (subg_t n)) (g : ℕ) : namesOf (subgs.modify g f) = namesOf subgs := by
  induction subgs generalizing g with
  | nil => rw [modify_nil]
  | cons sg subgs ih =>
    cases g with
    | zero => exact congrArg (· :: namesOf subgs) (hf sg)
    | succ g => exact congrArg (sg.name :: ·) (ih g)

theorem agsubnode_foldl_name (C : List (Fin n)) (sg : subg_t n) :
    (C.foldl subg_t.agsubnode sg).name = sg.name := by
  induction C generalizing sg with
  | nil => rfl
  | cons t C ih =>
    rw [foldl_cons, ih, subg_t.agsubnode]
    split <;> rfl

theorem agsubedge_foldl_name (es : List (edge_t n)) (sg : subg_t n) :
    (es.foldl subg_t.agsubedge sg).name = sg.name := by
  induction es generalizing sg with
  | nil => rfl
  | cons e es ih =>
    rw [foldl_cons, ih, subg_t.agsubedge]
    split <;> rfl

/-- The names with one more, unless it is there. -/
def addName (names : List (Option CStr)) (k : ℕ) : List (Option CStr) :=
  if some (clusterName k) ∈ names then names else names ++ [some (clusterName k)]

theorem newSubg_names (o : Out n) :
    namesOf (newSubg o).2.subgs = addName (namesOf o.subgs) o.Comp := by
  change namesOf (agsubg { o with Comp := o.Comp + 1 } (clusterName o.Comp)).2.subgs = _
  rw [agsubg, addName]
  split
  next i hi =>
    rw [if_pos]
    obtain ⟨hlt, hname, -⟩ := findIdx?_eq_some_iff_getElem.1 hi
    exact mem_map.2 ⟨_, getElem_mem hlt, of_decide_eq_true hname⟩
  next hi =>
    rw [if_neg, namesOf, map_append]
    · rfl
    · intro hmem
      obtain ⟨sg, hsg, hname⟩ := mem_map.1 hmem
      exact absurd (decide_eq_true hname) (by simpa using findIdx?_eq_none_iff.1 hi sg hsg)

/-- The names after a component. -/
theorem report_names (hrep : Represented o) (hC : ¬Skipped want C)
    (hrun : report G want o C = .ok o') :
    namesOf o'.subgs = addName (namesOf o.subgs) o.Comp ∧ o'.Comp = o.Comp + 1 := by
  obtain ⟨sg, hsg⟩ := newSubg_get o
  rw [report_eq hrep hC hsg rfl] at hrun
  obtain rfl := Except.ok.inj hrun
  refine ⟨?_, ?_⟩
  · rw [← newSubg_names]
    refine (namesOf_modify (agsubedge_foldl_name _) _ _).trans ?_
    rw [placed_eq]
    exact namesOf_modify (agsubnode_foldl_name C) _ _
  · change (placed o C).Comp = _
    rw [placed_eq]
    exact (agsubg_fields { o with Comp := o.Comp + 1 } (clusterName o.Comp)).2.2.2

end Graphviz.Sccmap

/-!
## The subgraphs and the map of `sccmap`

With fresh names the result is as it should be: a new subgraph for each component, and a map of them
without cycles. A name that the graph has already costs a subgraph, for then the nodes of the
component go to the subgraph that has it.
-/

namespace Graphviz.Sccmap

open Function List Outcome RelGraph Relation StrongComponents

variable {n : ℕ} {G : graph_t n} {want : Bool} {o o' : Out n} {v : Fin n} {C : List (Fin n)}
  {R comps : List (List (Fin n))} {g k : ℕ}

/-! ## Names that are there already -/

/-- The components that are not skipped. -/
def kept (want : Bool) (comps : List (List (Fin n))) : List (List (Fin n)) :=
  comps.filter fun C => ¬Skipped want C

theorem kept_concat (hC : ¬Skipped want C) : kept want (comps ++ [C]) = kept want comps ++ [C] := by
  rw [kept, filter_append, filter_singleton, decide_eq_true hC]
  rfl

theorem kept_concat_of_skipped (hC : Skipped want C) :
    kept want (comps ++ [C]) = kept want comps := by
  rw [kept, filter_append, filter_singleton, decide_eq_false (not_not_intro hC)]
  exact append_nil _

/-- What was made before the last component. -/
theorem reports_concat_ok (hrun : reports G want (comps ++ [C]) = .ok o) :
    ∃ o₀, reports G want comps = .ok o₀ ∧ Represented o₀ ∧ report G want o₀ C = .ok o := by
  obtain ⟨o₀, hrun0, hrep⟩ := reports_ok G want comps
  exact ⟨o₀, hrun0, hrep, (reports_concat hrun0 C).symm.trans hrun⟩

theorem reports_names (hrun : reports G want comps = .ok o) :
    o.Comp = (kept want comps).length ∧
      namesOf o.subgs = (List.range (kept want comps).length).foldl addName (namesOf G.subgs) := by
  induction comps using reverseRecOn generalizing o with
  | nil =>
    obtain rfl := Except.ok.inj hrun
    exact ⟨rfl, rfl⟩
  | append_singleton comps C ih =>
    obtain ⟨o0, hrun0, hrep, hreport⟩ := reports_concat_ok hrun
    obtain ⟨hComp, hnames⟩ := ih hrun0
    obtain hC | hC := Decidable.em (Skipped want C)
    · rw [report, if_pos hC] at hreport
      obtain rfl := Except.ok.inj hreport
      rw [kept_concat_of_skipped hC]
      exact ⟨hComp, hnames⟩
    · obtain ⟨hnames', hComp'⟩ := report_names hrep hC hreport
      rw [kept_concat hC, length_append, length_singleton, range_succ,
        foldl_append, ← hnames, ← hComp]
      exact ⟨hComp', hnames'⟩

/-- The names are added as numbered names are. -/
theorem addName_eq (names : List (Option CStr)) (k : ℕ) :
    addName names k = FreshNames.add (fun j => some (clusterName j)) names k := by
  rw [addName, FreshNames.add]
  congr

/-- There are as many new subgraphs as components only when no name was there. -/
theorem names_fresh (hrun : reports G want comps = .ok o)
    (hlen : o.subgs.length = G.subgs.length + (kept want comps).length)
    (hk : k < (kept want comps).length) : some (clusterName k) ∉ namesOf G.subgs := by
  have hadd : addName = FreshNames.add (fun j => some (clusterName j)) :=
    funext fun names => funext (addName_eq names)
  have hinj : Injective fun j => some (clusterName j) :=
    fun i j heq => clusterName_inj (Option.some.inj heq)
  refine FreshNames.notMem_of_length (f := fun j => some (clusterName j)) hinj ?_ hk
  rw [← hadd, ← (reports_names hrun).2, namesOf, namesOf, length_map, length_map, hlen]

/-! ## Fresh names -/

attribute [local instance] Instances.lawfulBEq_fin

/-- The subgraph of a component. -/
def subgOf (G : graph_t n) (j : ℕ) (C : List (Fin n)) : subg_t n :=
  ⟨some (clusterName j), C, (edgesFrom G C).filter (·.aghead ∈ C)⟩

/-- What has been made for the components in the list: a subgraph for each at the end of those of
the graph, and an edge in the map for each edge to a component before. -/
structure Made (G : graph_t n) (R : List (List (Fin n))) (o : Out n) : Prop where
  Comp : o.Comp = R.length
  subgs : o.subgs = G.subgs ++ R.mapIdx (subgOf G)
  nodes : o.map.nodes = (List.range R.length).map clusterName
  scc : ∀ v g, o.scc v = some g ↔ ∃ j C, R[j]? = some C ∧ v ∈ C ∧ g = G.subgs.length + j
  rep : ∀ j < R.length, o.rep (G.subgs.length + j) = some (clusterName j)
  edges : ∀ a b, (a, b) ∈ o.map.edges ↔ ∃ i j C D, R[i]? = some C ∧ R[j]? = some D ∧ j < i ∧
    a = clusterName i ∧ b = clusterName j ∧ ∃ u ∈ C, ∃ e ∈ G.out u, e.aghead ∈ D

theorem mem_edgesFrom {e : edge_t n} : e ∈ edgesFrom G C ↔ e.agtail ∈ C ∧ e ∈ G.out e.agtail := by
  rw [edgesFrom, mem_flatMap]
  constructor
  · rintro ⟨u, hu, he⟩
    rw [G.tail u e he]
    exact ⟨of_decide_eq_true (mem_filter.1 hu).2, he⟩
  · rintro ⟨hC, he⟩
    exact ⟨_, mem_filter.2 ⟨mem_finRange _, decide_eq_true hC⟩, he⟩

theorem nodup_edgesFrom (G : graph_t n) (C : List (Fin n)) : (edgesFrom G C).Nodup := by
  refine nodup_flatMap.2 ⟨fun u _ => G.nodup u, ?_⟩
  refine ((nodup_finRange n).filter _).imp fun {u v} hne e heu hev => hne ?_
  rw [← G.tail u e heu, ← G.tail v e hev]

theorem Made.start (G : graph_t n) : Made G [] (Out.start G) := by
  refine ⟨rfl, (append_nil _).symm, rfl, fun v g => iff_of_false nofun ?_, nofun,
    fun a b => iff_of_false not_mem_nil ?_⟩
  · rintro ⟨j, C, hj, -⟩
    exact nomatch hj
  · rintro ⟨i, j, C, D, hi, -⟩
    exact nomatch hi

/-- The subgraph for the next component, when its name is fresh. -/
theorem Made.newSubg_eq (h : Made G R o) (hfresh : some (clusterName R.length) ∉ namesOf G.subgs) :
    newSubg o = (o.subgs.length, { o with
      Comp := o.Comp + 1
      subgs := o.subgs ++ [⟨some (clusterName R.length), [], []⟩]
      map := { o.map with nodes := o.map.nodes ++ [clusterName R.length] }
      rep := update o.rep o.subgs.length (some (clusterName R.length)) }) := by
  have hnone : o.subgs.findIdx? (·.name = some (clusterName R.length)) = none := by
    refine findIdx?_eq_none_iff.2 fun sg hsg => decide_eq_false fun hname => ?_
    rw [h.subgs] at hsg
    obtain hsg | hsg := mem_append.1 hsg
    · exact hfresh (mem_map.2 ⟨sg, hsg, hname⟩)
    · obtain ⟨j, hj, rfl⟩ := mem_mapIdx.1 hsg
      exact hj.ne (clusterName_inj (Option.some.inj hname))
  have hnode : clusterName R.length ∉ o.map.nodes := by
    rw [h.nodes]
    intro hmem
    obtain ⟨j, hj, heq⟩ := mem_map.1 hmem
    exact (mem_range.1 hj).ne (clusterName_inj heq)
  have hagnode : o.map.agnode (clusterName R.length) =
      { o.map with nodes := o.map.nodes ++ [clusterName R.length] } := if_neg hnode
  rw [newSubg, h.Comp, agsubg, hnone]
  change (_, Out.mk _ _ (o.map.agnode (clusterName R.length)) _ _) = _
  rw [hagnode]

/-- What the nodes of the next component get. -/
theorem Made.placed_eq (h : Made G R o) (hfresh : some (clusterName R.length) ∉ namesOf G.subgs)
    (hC : C.Nodup) :
    placed o C = ⟨R.length + 1, o.subgs ++ [⟨some (clusterName R.length), C, []⟩],
      ⟨(List.range (R.length + 1)).map clusterName, o.map.edges⟩,
      fun u => if u ∈ C then some (G.subgs.length + R.length) else o.scc u,
      update o.rep (G.subgs.length + R.length) (some (clusterName R.length))⟩ := by
  have hlen : o.subgs.length = G.subgs.length + R.length := by
    rw [h.subgs, length_append, length_mapIdx]
  rw [Sccmap.placed_eq, h.newSubg_eq hfresh]
  change Out.mk (o.Comp + 1) ((o.subgs ++ [_]).modify o.subgs.length _) ⟨o.map.nodes ++ [_], _⟩
    _ _ = _
  rw [modify_concat, agsubnode_foldl _ hC (fun _ _ => not_mem_nil), h.Comp, h.nodes, hlen,
    range_succ, map_append]
  rfl

/-- An edge of the next component that leaves it leads to a component before, if it is recorded. -/
theorem Made.link_eq_some (h : Made G R o) (hfresh : some (clusterName R.length) ∉ namesOf G.subgs)
    (hC : C.Nodup) (hdisj : ∀ D ∈ R, ∀ v ∈ C, v ∉ D) {e : edge_t n} (he : e.agtail ∈ C)
    {p : CStr × CStr} :
    link (placed o C) C e = some p ↔ ∃ j D, R[j]? = some D ∧ e.aghead ∈ D ∧
      p = (clusterName R.length, clusterName j) := by
  have hrep : update o.rep (G.subgs.length + R.length) (some (clusterName R.length))
      (G.subgs.length + R.length) = some (clusterName R.length) := update_self _ _ _
  rw [h.placed_eq hfresh hC, link]
  obtain hmem | hmem := Decidable.em (e.aghead ∈ C)
  · refine iff_of_false (by simp [hmem]) ?_
    rintro ⟨j, D, hj, hD, -⟩
    exact hdisj D (mem_of_getElem? hj) e.aghead hmem hD
  · cases hscc : o.scc e.aghead with
    | none =>
      refine iff_of_false (by simp [hmem, he, hscc]) ?_
      rintro ⟨j, D, hj, hD, -⟩
      exact nomatch hscc.symm.trans ((h.scc _ _).2 ⟨j, D, hj, hD, rfl⟩)
    | some g =>
      obtain ⟨j, D, hj, hD, rfl⟩ := (h.scc _ _).1 hscc
      have hlt : j < R.length := (List.getElem?_eq_some_iff.1 hj).1
      have hrep' : update o.rep (G.subgs.length + R.length) (some (clusterName R.length))
          (G.subgs.length + j) = some (clusterName j) := by
        rw [update_of_ne (by omega), h.rep j hlt]
      simp only [hmem, he, hscc, hrep, hrep', if_true, if_false, not_false_eq_true, guard_true,
        Option.bind_eq_bind, Option.bind_some, pure_bind, Option.some.injEq]
      constructor
      · rintro rfl
        exact ⟨j, D, hj, hD, rfl⟩
      · rintro ⟨j', D', hj', hD', rfl⟩
        have hsame := (h.scc _ _).2 ⟨j', D', hj', hD', rfl⟩
        rw [hscc, Option.some.injEq, Nat.add_left_cancel_iff] at hsame
        rw [hsame]

theorem getElem?_concat_eq_some {α : Type} {l : List α} {a b : α} {i : ℕ} :
    (l ++ [a])[i]? = some b ↔ l[i]? = some b ∨ i = l.length ∧ b = a := by
  obtain hlt | rfl | hgt := lt_trichotomy i l.length
  · rw [getElem?_append_left hlt, or_iff_left fun hand => hlt.ne hand.1]
  · rw [getElem?_concat_length, getElem?_eq_none (Nat.le_refl _), Option.some.injEq]
    simp [eq_comm]
  · rw [getElem?_eq_none (by simp; omega), getElem?_eq_none hgt.le]
    simp [hgt.ne']

/-- The edges in the map for the edges of the next component. -/
theorem Made.mem_links (h : Made G R o) (hfresh : some (clusterName R.length) ∉ namesOf G.subgs)
    (hC : C.Nodup) (hdisj : ∀ D ∈ R, ∀ v ∈ C, v ∉ D) (a b : CStr) :
    (a, b) ∈ (edgesFrom G C).filterMap (link (placed o C) C) ↔ ∃ j D, R[j]? = some D ∧
      a = clusterName R.length ∧ b = clusterName j ∧ ∃ u ∈ C, ∃ e ∈ G.out u, e.aghead ∈ D := by
  rw [mem_filterMap]
  constructor
  · rintro ⟨e, he, hlink⟩
    obtain ⟨hC', hout⟩ := mem_edgesFrom.1 he
    obtain ⟨j, D, hj, hD, heq⟩ := (h.link_eq_some hfresh hC hdisj hC').1 hlink
    obtain ⟨rfl, rfl⟩ := Prod.mk.inj heq
    exact ⟨j, D, hj, rfl, rfl, _, hC', e, hout, hD⟩
  · rintro ⟨j, D, hj, rfl, rfl, u, hu, e, he, hD⟩
    obtain rfl := G.tail u e he
    exact ⟨e, mem_edgesFrom.2 ⟨hu, he⟩, (h.link_eq_some hfresh hC hdisj hu).2 ⟨j, D, hj, hD, rfl⟩⟩

/-- One more component. -/
theorem Made.report (h : Made G R o) (hrep : Represented o)
    (hfresh : some (clusterName R.length) ∉ namesOf G.subgs) (hskip : ¬Skipped want C)
    (hC : C.Nodup) (hdisj : ∀ D ∈ R, ∀ v ∈ C, v ∉ D) (hrun : report G want o C = .ok o') :
    Made G (R ++ [C]) o' := by
  have hnew := h.newSubg_eq hfresh
  have hplaced := h.placed_eq hfresh hC
  have hsg : (newSubg o).2.subgs[(newSubg o).1]? = some ⟨some (clusterName R.length), [], []⟩ := by
    rw [hnew]
    exact getElem?_concat_length
  have hsgC : C.foldl subg_t.agsubnode ⟨some (clusterName R.length), [], []⟩ =
      ⟨some (clusterName R.length), C, []⟩ :=
    agsubnode_foldl _ hC fun _ _ => not_mem_nil
  rw [report_eq hrep hskip hsg hsgC] at hrun
  obtain rfl := Except.ok.inj hrun
  have hsubgs : (placed o C).subgs.modify (newSubg o).1
      (((edgesFrom G C).filter (·.aghead ∈ C)).foldl subg_t.agsubedge) =
      o.subgs ++ [subgOf G R.length C] := by
    rw [hplaced, hnew]
    change (o.subgs ++ [_]).modify o.subgs.length _ = _
    rw [modify_concat, agsubedge_foldl _ ((nodup_edgesFrom G C).filter _) fun _ _ =>
      not_mem_nil]
    rfl
  refine ⟨?_, ?_, ?_, fun v g => ?_, fun j hj => ?_, fun a b => ?_⟩
  · change (placed o C).Comp = _
    rw [hplaced, length_append]
    rfl
  · change (placed o C).subgs.modify _ _ = _
    rw [hsubgs, h.subgs, append_assoc, mapIdx_concat]
  · change (placed o C).map.nodes = _
    rw [hplaced, length_append]
    rfl
  · change (placed o C).scc v = some g ↔ _
    rw [hplaced]
    change (if v ∈ C then some (G.subgs.length + R.length) else o.scc v) = some g ↔ _
    simp only [getElem?_concat_eq_some]
    constructor
    · intro heq
      split at heq
      next hmem =>
        obtain rfl := Option.some.inj heq
        exact ⟨R.length, C, .inr ⟨rfl, rfl⟩, hmem, rfl⟩
      next hmem =>
        obtain ⟨j, D, hj, hD, rfl⟩ := (h.scc v g).1 heq
        exact ⟨j, D, .inl hj, hD, rfl⟩
    · rintro ⟨j, D, hj | ⟨rfl, rfl⟩, hD, rfl⟩
      · rw [if_neg fun hmem => hdisj D (mem_of_getElem? hj) v hmem hD]
        exact (h.scc v _).2 ⟨j, D, hj, hD, rfl⟩
      · exact if_pos hD
  · change (placed o C).rep _ = _
    rw [hplaced]
    change update o.rep _ _ _ = _
    rw [length_append, length_singleton] at hj
    obtain hlt | rfl := Nat.lt_succ_iff_lt_or_eq.1 hj
    · rw [update_of_ne (by omega), h.rep j hlt]
    · exact update_self _ _ _
  · have hold : (placed o C).map.edges = o.map.edges := by rw [hplaced]
    change (a, b) ∈ (placed o C).map.edges ++ _ ↔ _
    rw [hold, mem_append, h.edges, h.mem_links hfresh hC hdisj]
    simp only [getElem?_concat_eq_some]
    constructor
    · rintro (⟨i, j, C', D, hi, hj, hrest⟩ | ⟨j, D, hj, rfl, rfl, hedge⟩)
      · exact ⟨i, j, C', D, .inl hi, .inl hj, hrest⟩
      · exact ⟨R.length, j, C, D, .inr ⟨rfl, rfl⟩, .inl hj,
          (List.getElem?_eq_some_iff.1 hj).1, rfl, rfl, hedge⟩
    · rintro ⟨i, j, C', D, hi, hj, hlt, rfl, rfl, hedge⟩
      have hjR : R[j]? = some D := by
        refine hj.resolve_right fun hand => ?_
        obtain hi | hi := hi
        · have hlt' := (List.getElem?_eq_some_iff.1 hi).1
          omega
        · omega
      obtain hi | ⟨rfl, rfl⟩ := hi
      · exact .inl ⟨i, j, C', D, hi, hjR, hlt, rfl, rfl, hedge⟩
      · exact .inr ⟨j, D, hjR, rfl, rfl, hedge⟩

/-- What has been made for all components, when no name was there. -/
theorem made_of_fresh (hnodup : comps.flatten.Nodup)
    (hfresh : ∀ k < (kept want comps).length, some (clusterName k) ∉ namesOf G.subgs)
    (hrun : reports G want comps = .ok o) : Made G (kept want comps) o := by
  induction comps using reverseRecOn generalizing o with
  | nil =>
    obtain rfl := Except.ok.inj hrun
    exact Made.start G
  | append_singleton comps C ih =>
    obtain ⟨o0, hrun0, hrep, hreport⟩ := reports_concat_ok hrun
    rw [flatten_append, flatten_singleton] at hnodup
    obtain ⟨hnodup, hC, hdisj⟩ := nodup_append.1 hnodup
    obtain hskip | hskip := Decidable.em (Skipped want C)
    · rw [Sccmap.report, if_pos hskip] at hreport
      obtain rfl := Except.ok.inj hreport
      rw [kept_concat_of_skipped hskip] at hfresh ⊢
      exact ih hnodup hfresh hrun0
    · rw [kept_concat hskip, length_append, length_singleton] at hfresh
      rw [kept_concat hskip]
      have hmade := ih hnodup (fun k hk => hfresh k (Nat.lt_succ_of_lt hk)) hrun0
      refine hmade.report hrep (hfresh _ (Nat.lt_succ_self _)) hskip hC (fun D hD v hv hvD => ?_)
        hreport
      have hvcomps : v ∈ comps.flatten :=
        mem_flatten.2 ⟨D, (mem_filter.1 hD).1, hvD⟩
      exact hdisj v hvcomps v hv rfl

/-- The map has no cycle: its edges lead to components before. -/
theorem Made.acyclic (h : Made G R o) : Acyclic fun a b => (a, b) ∈ o.map.edges := by
  have hlt : ∀ a b, TransGen (fun a b => (a, b) ∈ o.map.edges) a b →
      ∃ i j, j < i ∧ a = clusterName i ∧ b = clusterName j := by
    intro a b hab
    induction hab with
    | single hab =>
      obtain ⟨i, j, -, -, -, -, hlt, ha, hb, -⟩ := (h.edges _ _).1 hab
      exact ⟨i, j, hlt, ha, hb⟩
    | tail _ hbc ih =>
      obtain ⟨i, j, hlt, rfl, rfl⟩ := ih
      obtain ⟨i', k, -, -, -, -, hlt', hb, hc, -⟩ := (h.edges _ _).1 hbc
      obtain rfl := clusterName_inj hb
      exact ⟨i, k, hlt'.trans hlt, rfl, hc⟩
  intro a ha
  obtain ⟨i, j, hlt, rfl, heq⟩ := hlt a a ha
  exact hlt.ne (clusterName_inj heq).symm

/-! ## The whole -/

/-- A component that is to be reported; one of a single node only when this is wanted. -/
def Reported (G : graph_t n) (want : Bool) (S : Set (Fin n)) : Prop :=
  (∃ v, S = {u | Mutual (heads G) v u}) ∧ (want ∨ S.Nontrivial)

/-- The result of `process` as it should be: the subgraphs of the graph, and a new one for each
component that is to be reported, with its nodes and the edges between them; and the map, with a
node for each new subgraph and the edges that lead from one to another, and no cycle. -/
structure Maps (G : graph_t n) (want : Bool) (o : Out n) (news : List (subg_t n)) : Prop where
  subgs : o.subgs = G.subgs ++ news
  reported : ∀ S, Reported G want S ↔ ∃ sg ∈ news, {v | v ∈ sg.nodes} = S
  disjoint : news.Pairwise fun sg sh => sg.nodes.Disjoint sh.nodes
  nodup : ∀ sg ∈ news, sg.nodes.Nodup ∧ sg.edges.Nodup
  edges : ∀ sg ∈ news, ∀ e, e ∈ sg.edges ↔
    e ∈ G.out e.agtail ∧ e.agtail ∈ sg.nodes ∧ e.aghead ∈ sg.nodes
  map_nodes : o.map.nodes.map some = news.map (·.name)
  map_nodup : o.map.nodes.Nodup
  map_edges : ∀ a b, (a, b) ∈ o.map.edges ↔ ∃ sg ∈ news, ∃ sh ∈ news, sg.name = some a ∧
    sh.name = some b ∧ a ≠ b ∧ ∃ u ∈ sg.nodes, ∃ e ∈ G.out u, e.aghead ∈ sh.nodes
  acyclic : Acyclic fun a b => (a, b) ∈ o.map.edges

/-- The number of components that are to be reported. -/
theorem ncard_reported {L : List (List (Fin n))}
    (hL : ∀ S, Reported G want S ↔ ∃ C ∈ L, {v | v ∈ C} = S) (hdisj : L.Pairwise List.Disjoint) :
    {S | Reported G want S}.ncard = L.length := by
  classical
  have hnonempty : ∀ C ∈ L, ∃ v, v ∈ C := by
    intro C hC
    obtain ⟨⟨v, hv⟩, -⟩ := (hL _).2 ⟨C, hC, rfl⟩
    have hmem : v ∈ {u | u ∈ C} := by
      rw [hv]
      exact ⟨.refl, .refl⟩
    exact ⟨v, hmem⟩
  have hset : {S | Reported G want S} = ↑(L.map fun C => {v | v ∈ C}).toFinset := by
    ext S
    rw [Finset.mem_coe, mem_toFinset, mem_map]
    exact hL S
  have hnodup : (L.map fun C => {v | v ∈ C}).Nodup := by
    refine pairwise_map.2 (hdisj.imp_of_mem fun {C D} hC _ hCD heq => ?_)
    obtain ⟨v, hv⟩ := hnonempty C hC
    exact hCD hv (heq ▸ hv : v ∈ {v | v ∈ D})
  rw [hset, Set.ncard_coe_finset, toFinset_card_of_nodup hnodup, length_map]

variable (hfound : Found (heads G) (finRange n) comps)

include hfound

theorem found_nodup (hC : C ∈ comps) : C.Nodup :=
  (nodup_flatten.1 hfound.nodup).1 C hC

theorem kept_disjoint (want : Bool) : (kept want comps).Pairwise List.Disjoint :=
  (nodup_flatten.1 hfound.nodup).2.filter _

/-- A component is left out when it has a single node and such are not wanted. -/
theorem skipped_iff (hC : C ∈ comps) : ¬Skipped want C ↔ want ∨ {v | v ∈ C}.Nontrivial := by
  have hne := (hfound.components C hC).1
  have hnodup := found_nodup hfound hC
  have hnontrivial : {v | v ∈ C}.Nontrivial ↔ C.length ≠ 1 := by
    cases C with
    | nil => exact absurd rfl hne
    | cons x C =>
      cases C with
      | nil =>
        refine iff_of_false ?_ (not_not_intro rfl)
        rintro ⟨a, ha, b, hb, hab⟩
        exact hab ((mem_singleton.1 ha).trans (mem_singleton.1 hb).symm)
      | cons y C =>
        refine iff_of_true ⟨x, mem_cons_self, y, mem_cons_of_mem x mem_cons_self,
          fun heq => ?_⟩ (by simp)
        exact (nodup_cons.1 hnodup).1 (heq ▸ mem_cons_self)
  rw [hnontrivial, Skipped, not_and_or, not_not]

/-- The components that are kept are those that are to be reported. -/
theorem kept_reported (S : Set (Fin n)) :
    Reported G want S ↔ ∃ C ∈ kept want comps, {v | v ∈ C} = S := by
  have hclass : ∀ C ∈ comps, ∀ v ∈ C, {u | u ∈ C} = {u | Mutual (heads G) v u} := fun C hC v hv =>
    Set.ext fun u => (hfound.components C hC).2 v hv u
  constructor
  · rintro ⟨⟨v, rfl⟩, hkeep⟩
    obtain ⟨C, hC, hv⟩ := mem_flatten.1 (hfound.all v (mem_finRange v))
    refine ⟨C, mem_filter.2 ⟨hC, decide_eq_true ?_⟩, hclass C hC v hv⟩
    rw [skipped_iff hfound hC, hclass C hC v hv]
    exact hkeep
  · rintro ⟨C, hC, rfl⟩
    obtain ⟨hC, hkeep⟩ := mem_filter.1 hC
    obtain ⟨v, hv⟩ := exists_mem_of_ne_nil C (hfound.components C hC).1
    exact ⟨⟨v, hclass C hC v hv⟩, (skipped_iff hfound hC).1 (of_decide_eq_true hkeep)⟩

/-- An edge from one component that is kept to another leads to one before. -/
theorem kept_ordered {i j : ℕ} {D : List (Fin n)} {u : Fin n} {e : edge_t n}
    (hi : (kept want comps)[i]? = some C) (hj : (kept want comps)[j]? = some D) (hne : i ≠ j)
    (hu : u ∈ C) (he : e ∈ G.out u) (hD : e.aghead ∈ D) : j < i := by
  obtain ⟨hilt, rfl⟩ := List.getElem?_eq_some_iff.1 hi
  obtain ⟨hjlt, rfl⟩ := List.getElem?_eq_some_iff.1 hj
  have hpairwise := (hfound.ordered.pairwise hfound.nodup).filter fun C => ¬Skipped want C
  by_contra hnot
  have hlt : i < j := by omega
  exact pairwise_iff_getElem.1 hpairwise i j hilt hjlt hlt u hu e.aghead
    (mem_map.2 ⟨e, he, rfl⟩) hD

/-- With fresh names the result is as it should be. -/
theorem Made.maps (h : Made G (kept want comps) o) :
    Maps G want o ((kept want comps).mapIdx (subgOf G)) := by
  have hmem : ∀ sg, sg ∈ (kept want comps).mapIdx (subgOf G) ↔
      ∃ i C, (kept want comps)[i]? = some C ∧ sg = subgOf G i C := by
    intro sg
    rw [mem_mapIdx]
    constructor
    · rintro ⟨i, hi, rfl⟩
      exact ⟨i, _, getElem?_eq_getElem hi, rfl⟩
    · rintro ⟨i, C, hi, rfl⟩
      obtain ⟨hlt, rfl⟩ := List.getElem?_eq_some_iff.1 hi
      exact ⟨i, hlt, rfl⟩
  refine ⟨h.subgs, fun S => ?_, ?_, fun sg hsg => ?_, fun sg hsg e => ?_, ?_, ?_, fun a b => ?_,
    h.acyclic⟩
  · rw [kept_reported hfound]
    constructor
    · rintro ⟨C, hC, rfl⟩
      obtain ⟨i, hi⟩ := mem_iff_getElem?.1 hC
      exact ⟨_, (hmem _).2 ⟨i, C, hi, rfl⟩, rfl⟩
    · rintro ⟨sg, hsg, rfl⟩
      obtain ⟨i, C, hi, rfl⟩ := (hmem sg).1 hsg
      exact ⟨C, mem_of_getElem? hi, rfl⟩
  · refine pairwise_iff_getElem.2 fun i j hi hj hlt => ?_
    rw [length_mapIdx] at hi hj
    rw [getElem_mapIdx, getElem_mapIdx]
    exact pairwise_iff_getElem.1 (kept_disjoint hfound want) i j hi hj hlt
  · obtain ⟨i, C, hi, rfl⟩ := (hmem sg).1 hsg
    exact ⟨found_nodup hfound (mem_filter.1 (mem_of_getElem? hi)).1,
      (nodup_edgesFrom G C).filter _⟩
  · obtain ⟨i, C, hi, rfl⟩ := (hmem sg).1 hsg
    change e ∈ (edgesFrom G C).filter (·.aghead ∈ C) ↔ _
    rw [mem_filter, decide_eq_true_iff, mem_edgesFrom, and_assoc, and_left_comm]
    rfl
  · rw [h.nodes, List.map_map]
    refine ext_getElem (by simp) fun i hi hi' => ?_
    rw [getElem_map, getElem_map, getElem_range, getElem_mapIdx]
    rfl
  · rw [h.nodes]
    exact nodup_range.map fun i j => clusterName_inj
  · rw [h.edges]
    constructor
    · rintro ⟨i, j, C, D, hi, hj, hlt, rfl, rfl, hedge⟩
      exact ⟨_, (hmem _).2 ⟨i, C, hi, rfl⟩, _, (hmem _).2 ⟨j, D, hj, rfl⟩, rfl, rfl,
        fun heq => hlt.ne (clusterName_inj heq).symm, hedge⟩
    · rintro ⟨sg, hsg, sh, hsh, hsga, hshb, hne, u, hu, e, he, hD⟩
      obtain ⟨i, C, hi, rfl⟩ := (hmem sg).1 hsg
      obtain ⟨j, D, hj, rfl⟩ := (hmem sh).1 hsh
      obtain rfl := Option.some.inj hsga
      obtain rfl := Option.some.inj hshb
      have hij : i ≠ j := fun heq => hne (congrArg clusterName heq)
      exact ⟨i, j, C, D, hi, hj, kept_ordered hfound hi hj hij hu he hD, rfl, rfl, u, hu, e, he, hD⟩

omit hfound

theorem not_mem_namesOf {name : CStr} :
    some name ∉ namesOf G.subgs ↔ ∀ sg ∈ G.subgs, sg.name ≠ some name := by
  rw [namesOf, mem_map, not_exists]
  exact forall_congr' fun sg => not_and

theorem ncard_kept (hfound : Found (heads G) (finRange n) comps) (want : Bool) :
    {S | Reported G want S}.ncard = (kept want comps).length :=
  ncard_reported (kept_reported hfound) (kept_disjoint hfound want)

/-- There is a new subgraph for each component only with fresh names. -/
theorem Maps.fresh {news : List (subg_t n)} (h : Maps G want o news)
    (hfound : Found (heads G) (finRange n) comps) (hrun : reports G want comps = .ok o)
    (hk : k < {S | Reported G want S}.ncard) : ∀ sg ∈ G.subgs, sg.name ≠ some (clusterName k) := by
  have hnews : {S | Reported G want S}.ncard = (news.map (·.nodes)).length := by
    refine ncard_reported (fun S => (h.reported S).trans ?_) (pairwise_map.2 h.disjoint)
    constructor
    · rintro ⟨sg, hsg, heq⟩
      exact ⟨_, mem_map.2 ⟨sg, hsg, rfl⟩, heq⟩
    · rintro ⟨C, hC, heq⟩
      obtain ⟨sg, hsg, rfl⟩ := mem_map.1 hC
      exact ⟨sg, hsg, heq⟩
  have hcount := ncard_kept hfound want
  rw [length_map] at hnews
  refine not_mem_namesOf.1 (names_fresh hrun ?_ (hcount ▸ hk))
  rw [h.subgs, length_append, ← hnews, hcount]

/-- The result is as it should be exactly when the graph has no subgraph with one of the names
that are used: `cluster_0` and so on, as many as there are components to be reported. -/
theorem process_iff (G : graph_t n) (want : Bool) :
    ∃ o, process G want = .ok o ∧ ((∃ news, Maps G want o news) ↔
      ∀ k < {S | Reported G want S}.ncard, ∀ sg ∈ G.subgs, sg.name ≠ some (clusterName k)) := by
  obtain ⟨comps, o, hfound, hrun, hprocess⟩ := process_eq G want
  refine ⟨o, hprocess, fun ⟨news, hmaps⟩ k hk => hmaps.fresh hfound hrun hk, fun hfresh => ?_⟩
  rw [ncard_kept hfound] at hfresh
  have hmade := made_of_fresh hfound.nodup (fun k hk => not_mem_namesOf.2 (hfresh k hk)) hrun
  exact ⟨_, hmade.maps hfound⟩

/-! ## A subgraph with such a name -/

attribute [local instance] Instances.neZero_three

/-- Two nodes on a cycle, and a third one in a subgraph `cluster_0`. -/
def clusterZero : graph_t 3 where
  out u := if u = 0 then [⟨0, 1, 0⟩] else if u = 1 then [⟨1, 0, 1⟩] else []
  subgs := [⟨some (clusterName 0), [2], []⟩]
  tail := by decide
  nodup := by decide
  lt := by decide

/-- The two nodes go to the subgraph of the third one. -/
theorem process_clusterZero :
    ∃ o, process clusterZero false = .ok o ∧ ¬∃ news, Maps clusterZero false o news := by
  obtain ⟨comps, o, hfound, hrun, hprocess⟩ := process_eq clusterZero false
  refine ⟨o, hprocess, fun ⟨news, hmaps⟩ => ?_⟩
  have hedges : (1 : Fin 3) ∈ heads clusterZero 0 ∧ (0 : Fin 3) ∈ heads clusterZero 1 := by decide
  have hmutual : Mutual (heads clusterZero) 0 1 := ⟨.single hedges.1, .single hedges.2⟩
  have hreported : Reported clusterZero false {u | Mutual (heads clusterZero) 0 u} :=
    ⟨⟨0, rfl⟩, .inr ⟨0, ⟨.refl, .refl⟩, 1, hmutual, by decide⟩⟩
  have hpos : 0 < {S | Reported clusterZero false S}.ncard :=
    (Set.ncard_pos (Set.toFinite _)).2 ⟨_, hreported⟩
  exact hmaps.fresh hfound hrun hpos _ mem_cons_self rfl

end Graphviz.Sccmap
