import Graphviz.Library.Instances
import Graphviz.Library.StrongComponents
import Graphviz.Util.Fault
import Graphviz.Util.Numeral

/-!
# Strongly connected components of a directed graph (`cmd/tools/sccmap.c`)

`visit` searches the graph, keeps the smallest number that it has seen as its result, and makes a
subgraph of the nodes down to one on the stack that sees no smaller number than its own. The
subgraphs are made by names in the graph that is searched, which may have subgraphs with such names.
A subgraph is its place in the list of the subgraphs of the root graph; the counters do not
overflow. What is written, and the statistics, are left out.
-/

namespace Graphviz.Sccmap

open Function Outcome

variable {n : ℕ}

/-- An edge. Parallel edges have different numbers. -/
structure edge_t (n : ℕ) where
  agtail : Fin n
  aghead : Fin n
  seq : ℕ
  deriving DecidableEq

/-- A subgraph of the root graph; an anonymous one has no name. -/
structure subg_t (n : ℕ) where
  name : Option CStr
  nodes : List (Fin n)
  edges : List (edge_t n)
  deriving DecidableEq

/-- A directed graph: the edges that `agfstout` and `agnxtout` find at a node, and the subgraphs.
The nodes are numbered in their order; sequence numbers have 28 bits. -/
structure graph_t (n : ℕ) where
  out : Fin n → List (edge_t n)
  subgs : List (subg_t n)
  tail : ∀ u, ∀ e ∈ out u, e.agtail = u
  nodup : ∀ u, (out u).Nodup
  lt : n < 2 ^ 28

/-- The map of the components, with nodes by their names. -/
structure map_t where
  nodes : List CStr
  edges : List (CStr × CStr)
  deriving DecidableEq

/-- What the search makes: the number of subgraphs, the subgraphs of the root graph, the map, and
the fields `scc` of the nodes and `rep` of the subgraphs. -/
structure Out (n : ℕ) where
  Comp : ℕ
  subgs : List (subg_t n)
  map : map_t
  scc : Fin n → Option ℕ
  rep : ℕ → Option CStr

/-- The state of the search: the counter of nodes, their values, the stack with its top first, and
what has been made. -/
structure State (n : ℕ) where
  ID : ℕ
  val : Fin n → ℕ
  sp : List (Fin n)
  out : Out n

/-- `INF`. -/
def INF : ℕ := 2 ^ 32 - 1

attribute [local instance] Instances.lawfulBEq_fin Instances.lawfulBEq_bytes

/-- `agnode`, in the map. -/
def map_t.agnode (m : map_t) (name : CStr) : map_t :=
  if name ∈ m.nodes then m else { m with nodes := m.nodes ++ [name] }

/-- `agedge` without a name, in the map. -/
def map_t.agedge (m : map_t) (t h : Option CStr) : Except Fault map_t :=
  match t, h with
  | some t, some h => .ok { m with edges := m.edges ++ [(t, h)] }
  | _, _ => .error .segfault

/-- `agsubg`, in the root graph: a subgraph with the name, or else a new one. -/
def agsubg (o : Out n) (name : CStr) : ℕ × Out n :=
  match o.subgs.findIdx? (·.name = some name) with
  | some i => (i, o)
  | none => (o.subgs.length, { o with subgs := o.subgs ++ [⟨some name, [], []⟩] })

/-- `agsubnode`, of a node of the root graph. -/
def subg_t.agsubnode (g : subg_t n) (v : Fin n) : subg_t n :=
  if v ∈ g.nodes then g else { g with nodes := g.nodes ++ [v] }

/-- `agsubedge`, of an edge of the root graph whose ends are in the subgraph. -/
def subg_t.agsubedge (g : subg_t n) (e : edge_t n) : subg_t n :=
  if e ∈ g.edges then g else { g with edges := g.edges ++ [e] }

/-- The nodes of a subgraph, as `agfstnode` and `agnxtnode` go through them. -/
def Out.nodesOf (o : Out n) (g : ℕ) : List (Fin n) :=
  match o.subgs[g]? with
  | some sg => (List.finRange n).filter (· ∈ sg.nodes)
  | none => []

/-- The body of the inner loop of `nodeInduce`. -/
def induceEdge (g : ℕ) (o : Out n) (e : edge_t n) : Except Fault (Out n) :=
  if e.aghead ∈ o.nodesOf g then .ok { o with subgs := o.subgs.modify g (·.agsubedge e) }
  else
    match o.scc e.agtail, o.scc e.aghead with
    | some tscc, some hscc => do
      let map ← o.map.agedge (o.rep tscc) (o.rep hscc)
      .ok { o with map }
    | _, _ => .ok o

/-- `nodeInduce`. -/
def nodeInduce (G : graph_t n) (g : ℕ) (o : Out n) : Except Fault (Out n) :=
  (o.nodesOf g).foldlM (fun o v => (G.out v).foldlM (induceEdge g) o) o

/-- The name of a subgraph, `cluster_%u`. -/
def clusterName (k : ℕ) : CStr :=
  lit "cluster_" ++ decimal k

/-- The subgraph for a component, with its node in the map. -/
def newSubg (o : Out n) : ℕ × Out n :=
  let name := clusterName o.Comp
  let (subg, o) := agsubg { o with Comp := o.Comp + 1 } name
  (subg, { o with rep := update o.rep subg (some name), map := o.map.agnode name })

/-- A node becomes one of the subgraph of its component. -/
def putNode (subg : ℕ) (o : Out n) (t : Fin n) : Out n :=
  { o with subgs := o.subgs.modify subg (·.agsubnode t), scc := update o.scc t (some subg) }

/-- The loop of `visit` that pops the nodes of a component. -/
def popNodes (subg : ℕ) (v : Fin n) : List (Fin n) → State n → Except Fault (State n)
  | [], _ => .error .assertion
  | t :: sp, s =>
    let s' := { s with sp, val := update s.val t INF, out := putNode subg s.out t }
    if t = v then .ok s' else popNodes subg v sp s'

/-- The body of the loop of `visit` over the edges, with the call for a node that is new. -/
def visitEdge (visit : State n → Fin n → Except Fault (ℕ × State n)) (p : ℕ × State n)
    (e : edge_t n) : Except Fault (ℕ × State n) := do
  let t := e.aghead
  let (m, s) ← if p.2.val t = 0 then visit p.2 t else .ok (p.2.val t, p.2)
  .ok (if m < p.1 then m else p.1, s)

/-- The end of `visit`. -/
def visitEnd (G : graph_t n) (wantDegenerateComp : Bool) (v : Fin n) (p : ℕ × State n) :
    Except Fault (ℕ × State n) :=
  if p.2.val v = p.1 then
    if ¬wantDegenerateComp ∧ p.2.sp.head? = some v then
      .ok (p.1, { p.2 with val := update p.2.val v INF, sp := p.2.sp.tail })
    else do
      let (subg, out) := newSubg p.2.out
      let s ← popNodes subg v p.2.sp { p.2 with out }
      let out ← nodeInduce G subg s.out
      .ok (p.1, { s with out })
  else .ok p

/-- `visit`, to a depth of at most the third argument. -/
def visit (G : graph_t n) (wantDegenerateComp : Bool) :
    ℕ → State n → Fin n → Except Fault (ℕ × State n)
  | 0, _, _ => .error .fuel
  | d + 1, s, v => do
    let p ← (G.out v).foldlM (visitEdge (visit G wantDegenerateComp d))
      (s.ID + 1, { s with ID := s.ID + 1, val := update s.val v (s.ID + 1), sp := v :: s.sp })
    visitEnd G wantDegenerateComp v p

/-- The body of the loop of `process`. -/
def processNode (G : graph_t n) (wantDegenerateComp : Bool) (s : State n) (v : Fin n) :
    Except Fault (State n) :=
  if s.val v = 0 then do
    let (_, s) ← visit G wantDegenerateComp (n + 1) s v
    .ok s
  else .ok s

/-- What there is before the search. -/
def Out.start (G : graph_t n) : Out n :=
  ⟨0, G.subgs, ⟨[], []⟩, fun _ => none, fun _ => none⟩

/-- `process`. -/
def process (G : graph_t n) (wantDegenerateComp : Bool) : Except Fault (Out n) := do
  let s ← (List.finRange n).foldlM (processNode G wantDegenerateComp)
    ⟨0, fun _ => 0, [], Out.start G⟩
  .ok s.out

end Graphviz.Sccmap

/-!
## The search of `sccmap` finds the components

What the search makes of the components does not change the way that it goes: it is the search of
the library, and for each component that this finds a subgraph is made, one after another.
-/

namespace Graphviz.Sccmap

open Function List Option Outcome

variable {n : ℕ} {G : graph_t n} {want : Bool} {s s' : State n} {o : Out n} {v : Fin n}
  {c c' : StrongComponents.State (Fin n)} {C : List (Fin n)} {comps : List (List (Fin n))}

/-- The heads of the edges of a node. -/
def heads (G : graph_t n) (v : Fin n) : List (Fin n) :=
  (G.out v).map (·.aghead)

/-- The component is left out: it has one node, and such components are not wanted. -/
def Skipped (want : Bool) (C : List (Fin n)) : Prop :=
  ¬want ∧ C.length = 1

instance (want : Bool) (C : List (Fin n)) : Decidable (Skipped want C) :=
  inferInstanceAs (Decidable (_ ∧ _))

/-- What is made for a component. -/
def report (G : graph_t n) (want : Bool) (o : Out n) (C : List (Fin n)) : Except Fault (Out n) :=
  if Skipped want C then .ok o
  else nodeInduce G (newSubg o).1 (C.foldl (putNode (newSubg o).1) (newSubg o).2)

/-- What is made for components one after another. -/
def reports (G : graph_t n) (want : Bool) (comps : List (List (Fin n))) : Except Fault (Out n) :=
  comps.foldlM (report G want) (Out.start G)

/-! ## Nothing is asked of a node that is not there -/

/-- The subgraphs of nodes have a node in the map. -/
def Represented (o : Out n) : Prop :=
  ∀ u g, o.scc u = some g → ∃ name, o.rep g = some name

theorem agsubg_fields (o : Out n) (name : CStr) :
    (agsubg o name).2.scc = o.scc ∧ (agsubg o name).2.rep = o.rep ∧
      (agsubg o name).2.map = o.map ∧ (agsubg o name).2.Comp = o.Comp := by
  rw [agsubg]
  split <;> exact ⟨rfl, rfl, rfl, rfl⟩

theorem newSubg_represented (h : Represented o) :
    Represented (newSubg o).2 ∧ ∃ name, (newSubg o).2.rep (newSubg o).1 = some name := by
  obtain ⟨hscc, hrep, -, -⟩ := agsubg_fields { o with Comp := o.Comp + 1 } (clusterName o.Comp)
  have hnew : (newSubg o).2.rep = update o.rep (newSubg o).1 (some (clusterName o.Comp)) :=
    congrArg (update · _ _) hrep
  have hold : (newSubg o).2.scc = o.scc := hscc
  refine ⟨fun u g hu => ?_, clusterName o.Comp, by rw [hnew, update_self]⟩
  rw [hold] at hu
  rw [hnew, update_apply]
  split
  · exact ⟨_, rfl⟩
  · exact h u g hu

theorem putNodes_represented {g : ℕ} (h : Represented o) (hg : ∃ name, o.rep g = some name)
    (C : List (Fin n)) : Represented (C.foldl (putNode g) o) := by
  induction C generalizing o with
  | nil => exact h
  | cons t C ih =>
    refine ih (fun u g' hu => ?_) hg
    change update o.scc t (some g) u = some g' at hu
    rw [update_apply] at hu
    split at hu
    · exact Option.some.inj hu ▸ hg
    · exact h u g' hu

theorem induceEdge_represented (h : Represented o) (g : ℕ) (e : edge_t n) :
    ∃ o', induceEdge g o e = .ok o' ∧ Represented o' := by
  rw [induceEdge]
  split
  · exact ⟨_, rfl, h⟩
  · split
    next t hd ht hh =>
      obtain ⟨a, ha⟩ := h _ _ ht
      obtain ⟨b, hb⟩ := h _ _ hh
      rw [ha, hb]
      exact ⟨_, rfl, h⟩
    next => exact ⟨_, rfl, h⟩

/-- The edges of the nodes of a subgraph. -/
theorem nodeInduce_eq (g : ℕ) (o : Out n) :
    nodeInduce G g o = ((o.nodesOf g).flatMap G.out).foldlM (induceEdge g) o :=
  (foldlM_flatMap _ o).symm

theorem report_ok (h : Represented o) (want : Bool) (C : List (Fin n)) :
    ∃ o', report G want o C = .ok o' ∧ Represented o' := by
  rw [report]
  split
  · exact ⟨o, rfl, h⟩
  · obtain ⟨hnew, hrep⟩ := newSubg_represented h
    rw [nodeInduce_eq]
    refine (Meets.foldlM (E := fun _ => False) (fun _ o => Represented o) ?_ _
      (putNodes_represented hnew hrep C)).exists_ok
    intro e rest o ho
    obtain ⟨o', heq, ho'⟩ := induceEdge_represented ho _ e
    rw [heq]
    exact ho'

/-- Something is made for every list of components. -/
theorem reports_ok (G : graph_t n) (want : Bool) (comps : List (List (Fin n))) :
    ∃ o, reports G want comps = .ok o ∧ Represented o := by
  refine (Meets.foldlM (E := fun _ => False) (fun _ o => Represented o) ?_ _
    fun _ g h => nomatch (h : (none : Option ℕ) = some g)).exists_ok
  intro C rest o ho
  obtain ⟨o', heq, ho'⟩ := report_ok (G := G) ho want C
  rw [heq]
  exact ho'

/-! ## The two searches -/

/-- The states of the two searches: what has been made is what is made for the components so far. -/
structure Matches (G : graph_t n) (want : Bool) (s : State n)
    (c : StrongComponents.State (Fin n)) : Prop where
  ID : s.ID = c.count
  val : s.val = c.val
  sp : s.sp = c.stack
  out : reports G want c.comps = .ok s.out

theorem popNodes_eq {g : ℕ} {new sp : List (Fin n)} (hv : v ∉ new) (s : State n) :
    popNodes g v (new ++ v :: sp) s = .ok { s with
      sp
      val := fun u => if u ∈ new ++ [v] then INF else s.val u
      out := (new ++ [v]).foldl (putNode g) s.out } := by
  induction new generalizing s with
  | nil =>
    rw [nil_append, popNodes, if_pos rfl]
    congr 2
    funext u
    rw [update_apply, nil_append]
    exact if_congr mem_singleton.symm rfl rfl
  | cons t new ih =>
    obtain ⟨hne, hv⟩ := not_or.1 (mt mem_cons.2 hv)
    rw [cons_append, popNodes, if_neg (Ne.symm hne), ih hv]
    congr 2
    funext u
    change (if u ∈ new ++ [v] then INF else update s.val t INF u) = _
    rw [update_apply, cons_append]
    simp only [mem_cons]
    split
    next h => rw [if_pos (Or.inr h)]
    next h => exact if_congr (or_iff_left h).symm rfl rfl

/-- What is made for one more component. -/
theorem reports_concat (h : reports G want comps = .ok o) (C : List (Fin n)) :
    reports G want (comps ++ [C]) = report G want o C := by
  rw [reports, foldlM_append]
  change reports G want comps >>= _ = _
  rw [h, ok_bind, foldlM_cons]
  cases report G want o C with
  | ok o' => rfl
  | error e => rfl

/-- The ends of the two searches from a node. -/
theorem visitEnd_matches {low m : ℕ} (h : Matches G want s c)
    (hrun : StrongComponents.leave INF v (low, c) = some (m, c')) :
    ∃ s', visitEnd G want v (low, s) = .ok (m, s') ∧ Matches G want s' c' := by
  rw [StrongComponents.leave] at hrun
  rw [visitEnd]
  change (if c.val v = low then _ else _) = _ at hrun
  change ∃ s', (if s.val v = low then _ else _) = _ ∧ _
  rw [h.val]
  split at hrun
  next heq =>
    rw [if_pos heq]
    obtain ⟨c'', hclose, hrun⟩ := bind_eq_some_iff.1 hrun
    obtain ⟨rfl, rfl⟩ := Prod.mk.inj (Option.some.inj hrun)
    obtain ⟨new, sp, hstack, hv, rfl⟩ := StrongComponents.close_eq_some hclose
    change ∃ s', (if ¬want ∧ s.sp.head? = some v then _ else _) = _ ∧ _
    have hhead : s.sp.head? = some v ↔ new = [] := by
      rw [h.sp, hstack]
      cases new with
      | nil => exact iff_of_true rfl rfl
      | cons t new =>
        refine iff_of_false (fun heq => hv ?_) (cons_ne_nil _ _)
        exact Option.some.inj heq ▸ mem_cons_self
    have hskip : ¬want ∧ s.sp.head? = some v ↔ Skipped want (new ++ [v]) := by
      rw [hhead, Skipped, length_append, length_singleton, Nat.add_eq_right,
        length_eq_zero_iff]
    split
    next hcond =>
      obtain rfl := hhead.1 hcond.2
      refine ⟨_, rfl, h.ID, ?_, ?_, ?_⟩
      · funext u
        change update c.val v INF u = if u ∈ [] ++ [v] then INF else c.val u
        rw [update_apply, nil_append]
        exact if_congr mem_singleton.symm rfl rfl
      · change s.sp.tail = sp
        rw [h.sp, hstack]
        rfl
      · rw [reports_concat h.out, report, if_pos (hskip.1 hcond)]
    next hcond =>
      have hreport : report G want s.out (new ++ [v]) = nodeInduce G (newSubg s.out).1
          ((new ++ [v]).foldl (putNode (newSubg s.out).1) (newSubg s.out).2) :=
        if_neg (mt hskip.2 hcond)
      obtain ⟨o', ho', -⟩ := reports_ok G want (c.comps ++ [new ++ [v]])
      rw [reports_concat h.out] at ho'
      have hpop := @popNodes_eq n v (newSubg s.out).1 new sp hv { s with out := (newSubg s.out).2 }
      rw [← hstack, ← h.sp] at hpop
      change ∃ s', (popNodes (newSubg s.out).1 v s.sp { s with out := (newSubg s.out).2 } >>=
        fun s' => nodeInduce G (newSubg s.out).1 s'.out >>= fun out =>
          .ok (low, { s' with out })) = _ ∧ _
      rw [hpop, ok_bind, ← hreport, ho']
      refine ⟨_, rfl, h.ID, ?_, rfl, ?_⟩
      · funext u
        change (if u ∈ new ++ [v] then INF else s.val u) = _
        rw [h.val]
      · rw [reports_concat h.out, ho']
  next heq =>
    rw [if_neg heq]
    obtain ⟨rfl, rfl⟩ := Prod.mk.inj (Option.some.inj hrun)
    exact ⟨s, rfl, h⟩

/-- The loops of the two searches over edges. -/
theorem visitEdges_matches {d low low' : ℕ} {es : List (edge_t n)}
    (hcall : ∀ {s : State n} {c c' : StrongComponents.State (Fin n)} {v : Fin n} {m : ℕ},
      Matches G want s c → StrongComponents.visit (heads G) INF d c v = some (m, c') →
      ∃ s', visit G want d s v = .ok (m, s') ∧ Matches G want s' c') (h : Matches G want s c)
    (hrun : (es.map (·.aghead)).foldlM
      (StrongComponents.lower (StrongComponents.visit (heads G) INF d)) (low, c) =
        some (low', c')) :
    ∃ s', es.foldlM (visitEdge (visit G want d)) (low, s) = .ok (low', s') ∧
      Matches G want s' c' := by
  induction es generalizing low s c with
  | nil =>
    obtain ⟨rfl, rfl⟩ := Prod.mk.inj (Option.some.inj hrun)
    exact ⟨s, rfl, h⟩
  | cons e es ih =>
    rw [map_cons, foldlM_cons] at hrun
    obtain ⟨⟨low1, c1⟩, hstep, hrun⟩ := bind_eq_some_iff.1 hrun
    have hedge : ∃ s', visitEdge (visit G want d) (low, s) e = .ok (low1, s') ∧
        Matches G want s' c1 := by
      rw [StrongComponents.lower] at hstep
      change (if c.val e.aghead = 0 then _ else _) = _ at hstep
      rw [visitEdge]
      change ∃ s', (if s.val e.aghead = 0 then _ else _) = _ ∧ _
      rw [h.val]
      split at hstep
      next hzero =>
        obtain ⟨⟨m, c2⟩, hvisit, hstep⟩ := bind_eq_some_iff.1 hstep
        obtain ⟨rfl, rfl⟩ := Prod.mk.inj (Option.some.inj hstep)
        obtain ⟨s', hvisit', h'⟩ := hcall h hvisit
        rw [if_pos hzero, hvisit']
        exact ⟨s', rfl, h'⟩
      next hzero =>
        obtain ⟨rfl, rfl⟩ := Prod.mk.inj (Option.some.inj hstep)
        rw [if_neg hzero]
        exact ⟨s, rfl, h⟩
    obtain ⟨s', hedge, h'⟩ := hedge
    rw [foldlM_cons, hedge]
    exact ih h' hrun

/-- The two searches from a node go the same way. -/
theorem visit_matches {d m : ℕ} (h : Matches G want s c)
    (hrun : StrongComponents.visit (heads G) INF d c v = some (m, c')) :
    ∃ s', visit G want d s v = .ok (m, s') ∧ Matches G want s' c' := by
  induction d generalizing s c v m c' with
  | zero => exact nomatch hrun
  | succ d ih =>
    rw [StrongComponents.visit] at hrun
    obtain ⟨⟨low, c1⟩, hfold, hleave⟩ := bind_eq_some_iff.1 hrun
    have henter : Matches G want
        { s with ID := s.ID + 1, val := update s.val v (s.ID + 1), sp := v :: s.sp } (c.enter v) :=
      ⟨congrArg (· + 1) h.ID, by rw [h.ID, h.val]; rfl, congrArg (v :: ·) h.sp, h.out⟩
    rw [← h.ID] at hfold
    obtain ⟨s1, hfold', h1⟩ := visitEdges_matches ih henter hfold
    obtain ⟨s', hend, h'⟩ := visitEnd_matches h1 hleave
    refine ⟨s', ?_, h'⟩
    rw [visit, hfold']
    exact hend

/-- The search of `process` makes what is made for the components that the search of the library
finds. -/
theorem process_eq (G : graph_t n) (want : Bool) :
    ∃ comps o, StrongComponents.Found (heads G) (finRange n) comps ∧
      reports G want comps = .ok o ∧ process G want = .ok o := by
  have hcard : Fintype.card (Fin n) < n + 1 := (Fintype.card_fin n).trans_lt (Nat.lt_succ_self n)
  have hinf : Fintype.card (Fin n) < INF := by
    have hlt := G.lt
    rw [Fintype.card_fin, INF]
    omega
  obtain ⟨c, hrun, -, hfound⟩ :=
    StrongComponents.search_spec (heads G) hinf hcard (finRange n)
  have hloop : ∀ (vs : List (Fin n)) (s : State n) (c c' : StrongComponents.State (Fin n)),
      Matches G want s c → vs.foldlM (StrongComponents.resume (heads G) INF (n + 1)) c = some c' →
      ∃ s', vs.foldlM (processNode G want) s = .ok s' ∧ Matches G want s' c' := by
    intro vs
    induction vs with
    | nil =>
      intro s c c' h hrun
      obtain rfl := Option.some.inj hrun
      exact ⟨s, rfl, h⟩
    | cons v vs ih =>
      intro s c c' h hrun
      rw [foldlM_cons] at hrun
      obtain ⟨c1, hstep, hrun⟩ := bind_eq_some_iff.1 hrun
      have hnode : ∃ s', processNode G want s v = .ok s' ∧ Matches G want s' c1 := by
        rw [StrongComponents.resume] at hstep
        rw [processNode, h.val]
        split at hstep
        next hzero =>
          obtain ⟨⟨m, c2⟩, hvisit, rfl⟩ := map_eq_some_iff.1 hstep
          obtain ⟨s', hvisit', h'⟩ := visit_matches h hvisit
          rw [if_pos hzero, hvisit']
          exact ⟨s', rfl, h'⟩
        next hzero =>
          obtain rfl := Option.some.inj hstep
          exact ⟨s, if_neg hzero, h⟩
      obtain ⟨s', hnode, h'⟩ := hnode
      rw [foldlM_cons, hnode]
      exact ih s' c1 c' h' hrun
  obtain ⟨s, hrun', h⟩ := hloop _ ⟨0, fun _ => 0, [], Out.start G⟩ _ _ ⟨rfl, rfl, rfl, rfl⟩ hrun
  refine ⟨c.comps, s.out, hfound, h.out, ?_⟩
  rw [process, hrun']
  rfl

end Graphviz.Sccmap
