import Graphviz.Library.Instances
import Graphviz.Library.RelGraph
import Graphviz.Ortho.SegCmp
import Graphviz.Util.Fault

/-!
# The precedence graph of a channel (`ortho/rawgraph.c`)

A graph on the vertices `0` to `n - 1` with lists of successors, to which edges are added and from
which they are removed, and `top_sort`, which numbers the vertices by a depth-first search: the
vertex that the search leaves last is the first. The counters do not overflow.
-/

namespace Graphviz.Ortho

open Fintype Function List Outcome RelGraph Relation

variable {n : ℕ}

/-- The state of a vertex in the search. -/
inductive Color where
  | UNSCANNED
  | SCANNING
  | SCANNED
  deriving DecidableEq

/-- `rawgraph`, with the fields of its vertices. -/
structure rawgraph (n : ℕ) where
  color : Fin n → Color
  topsort_order : Fin n → ℕ
  adj_list : Fin n → List (Fin n)

/-- `make_graph`. -/
def make_graph (n : ℕ) : rawgraph n :=
  ⟨fun _ => .UNSCANNED, fun _ => 0, fun _ => []⟩

attribute [local instance] Instances.lawfulBEq_fin

/-- `edge_exists`. -/
def edge_exists (g : rawgraph n) (v1 v2 : Fin n) : Bool :=
  v2 ∈ g.adj_list v1

/-- `insert_edge`. -/
def insert_edge (g : rawgraph n) (v1 v2 : Fin n) : rawgraph n :=
  if edge_exists g v1 v2 then g
  else { g with adj_list := update g.adj_list v1 (g.adj_list v1 ++ [v2]) }

/-- `LIST_REMOVE` on the list of a vertex. -/
def removeFrom (g : rawgraph n) (v1 v2 : Fin n) : rawgraph n :=
  { g with adj_list := update g.adj_list v1 ((g.adj_list v1).erase v2) }

/-- `remove_redge`. -/
def remove_redge (g : rawgraph n) (v1 v2 : Fin n) : rawgraph n :=
  removeFrom (removeFrom g v1 v2) v2 v1

/-- The edges of the graph. -/
def rawgraph.Edge (g : rawgraph n) (i j : Fin n) : Prop :=
  j ∈ g.adj_list i

/-- What the search reads and writes: the graph, the time and the stack, top first. -/
structure Search (n : ℕ) where
  g : rawgraph n
  time : ℕ
  sp : List (Fin n)

/-- The beginning of `DFS_visit`. -/
def Search.enter (s : Search n) (v : Fin n) : Search n :=
  { s with g := { s.g with color := update s.g.color v .SCANNING }, time := s.time + 1 }

/-- The end of `DFS_visit`. -/
def Search.leave (s : Search n) (v : Fin n) : Search n :=
  ⟨{ s.g with color := update s.g.color v .SCANNED }, s.time + 1, v :: s.sp⟩

/-- `DFS_visit`, to a depth of at most the first argument. -/
def DFS_visit : ℕ → Search n → Fin n → Except Fault (Search n)
  | 0, _, _ => .error .fuel
  | d + 1, s, v => do
    let s' ← (s.g.adj_list v).foldlM
      (fun s id => if s.g.color id = .UNSCANNED then DFS_visit d s id else .ok s) (s.enter v)
    .ok (s'.leave v)

/-- The numbers that the vertices get as they are popped from the stack. -/
def popOrder : List (Fin n) → ℕ → (Fin n → ℕ) → Fin n → ℕ
  | [], _, order => order
  | v :: sp, count, order => popOrder sp (count + 1) (update order v count)

/-- `top_sort`. -/
def top_sort (g : rawgraph n) : Except Fault (rawgraph n) :=
  if n = 0 then .ok g
  else if h : n = 1 then
    .ok { g with topsort_order := update g.topsort_order ⟨0, by omega⟩ 0 }
  else do
    let s ← (List.finRange n).foldlM
      (fun s i => if s.g.color i = .UNSCANNED then DFS_visit (n + 1) s i else .ok s) ⟨g, 0, []⟩
    .ok { s.g with topsort_order := popOrder s.sp 0 s.g.topsort_order }

/-! ## Runs of insertions and removals -/

/-- A change of the edges. -/
inductive EdgeOp (n : ℕ) where
  | insert (v1 v2 : Fin n)
  | remove (v1 v2 : Fin n)

/-- The change of the graph. -/
def EdgeOp.apply (g : rawgraph n) : EdgeOp n → rawgraph n
  | .insert v1 v2 => insert_edge g v1 v2
  | .remove v1 v2 => remove_redge g v1 v2

/-- The graph after changes, from a graph without edges. -/
def runOps (ops : List (EdgeOp n)) : rawgraph n :=
  ops.foldl EdgeOp.apply (make_graph n)

theorem color_apply (g : rawgraph n) (op : EdgeOp n) : (op.apply g).color = g.color := by
  cases op with
  | insert v1 v2 =>
    rw [EdgeOp.apply, insert_edge]
    split <;> rfl
  | remove v1 v2 => rfl

/-- No vertex is scanned before the sort. -/
theorem color_runOps (ops : List (EdgeOp n)) (v : Fin n) : (runOps ops).color v = .UNSCANNED := by
  suffices h : ∀ g : rawgraph n, (ops.foldl EdgeOp.apply g).color = g.color from
    congrFun (h (make_graph n)) v
  induction ops with
  | nil => exact fun g => rfl
  | cons op ops ih => exact fun g => (ih _).trans (color_apply g op)

/-! ## The search -/

variable {s s' s'' : Search n} {v : Fin n}

/-- The invariant of the search: the stack holds the vertices that it has left, and in a graph
without cycles each after its successors. -/
structure Search.Inv (s : Search n) : Prop where
  nodup : s.sp.Nodup
  mem : ∀ u, u ∈ s.sp ↔ s.g.color u = .SCANNED
  finishing : Acyclic s.g.Edge → Finishing s.g.Edge s.sp

/-- What a visit does: the edges and the vertices on the way to it stay, and none becomes
unscanned. -/
structure Step (s s' : Search n) : Prop where
  adj_list : s'.g.adj_list = s.g.adj_list
  scanning : ∀ u, s'.g.color u = .SCANNING ↔ s.g.color u = .SCANNING
  unscanned : ∀ u, s'.g.color u = .UNSCANNED → s.g.color u = .UNSCANNED

theorem Step.refl (s : Search n) : Step s s :=
  ⟨rfl, fun _ => Iff.rfl, fun _ => id⟩

theorem Step.trans (h : Step s s') (h' : Step s' s'') : Step s s'' :=
  ⟨h'.adj_list.trans h.adj_list, fun u => (h'.scanning u).trans (h.scanning u),
    fun u hu => h.unscanned u (h'.unscanned u hu)⟩

/-- The number of vertices that the search has not seen. -/
def Search.unscanned (s : Search n) : ℕ :=
  card {u // s.g.color u = .UNSCANNED}

theorem Step.unscanned_le (h : Step s s') : s'.unscanned ≤ s.unscanned :=
  Fintype.card_le_of_injective (fun u => ⟨u.1, h.unscanned u.1 u.2⟩) fun _ _ heq =>
    Subtype.ext (congrArg (fun u => u.1) heq)

/-- Visiting a vertex leaves fewer to see. -/
theorem unscanned_enter (hv : s.g.color v = .UNSCANNED) : (s.enter v).unscanned < s.unscanned := by
  have hmem : ∀ u, (s.enter v).g.color u = .UNSCANNED →
      s.g.color u = .UNSCANNED ∧ u ≠ v := by
    intro u hu
    obtain rfl | hne := eq_or_ne u v
    · exact absurd ((update_self u _ _).symm.trans hu) (by decide)
    · exact ⟨(update_of_ne hne _ _).symm.trans hu, hne⟩
  refine card_lt_of_injective_of_notMem (fun u => ⟨u.1, (hmem u.1 u.2).1⟩)
    (fun _ _ heq => Subtype.ext (congrArg (fun u => u.1) heq)) (b := ⟨v, hv⟩) ?_
  rintro ⟨u, heq⟩
  exact (hmem u.1 u.2).2 (congrArg (fun u => u.1) heq)

/-- The search may visit the vertex: each vertex on the way to it reaches it. -/
def Reaching (s : Search n) (v : Fin n) : Prop :=
  ∀ u, s.g.color u = .SCANNING → ReflTransGen s.g.Edge u v

theorem Step.edge (h : Step s s') : s'.g.Edge = s.g.Edge := by
  funext i j
  rw [rawgraph.Edge, rawgraph.Edge, h.adj_list]

theorem Step.reaching (h : Step s s') (hr : Reaching s v) : Reaching s' v := by
  intro u hu
  rw [h.edge]
  exact hr u ((h.scanning u).1 hu)

/-- The vertex becomes the one that is scanned. -/
theorem Search.Inv.enter (hs : s.Inv) (hv : s.g.color v = .UNSCANNED) (hr : Reaching s v) :
    (s.enter v).Inv ∧ Reaching (s.enter v) v := by
  refine ⟨⟨hs.nodup, fun u => (hs.mem u).trans ?_, hs.finishing⟩, fun u hu => ?_⟩
  · obtain rfl | hne := eq_or_ne u v
    · rw [hv]
      exact iff_of_false nofun fun h => nomatch (update_self u _ _).symm.trans h
    · exact (iff_of_eq (congrArg (· = _) (update_of_ne hne _ _))).symm
  · obtain rfl | hne := eq_or_ne u v
    · exact .refl
    · exact hr u ((update_of_ne hne _ _).symm.trans hu)

/-- The vertex is left: its successors are on the stack, unless one of them reaches it. -/
theorem Search.Inv.leave (hs : s.Inv) (hv : s.g.color v = .SCANNING) (hr : Reaching s v)
    (hsucc : ∀ u, s.g.Edge v u → s.g.color u ≠ .UNSCANNED) : (s.leave v).Inv := by
  refine ⟨nodup_cons.2 ⟨fun hmem => ?_, hs.nodup⟩, fun u => ?_, fun hacyc =>
    ⟨fun u hu => ?_, hs.finishing hacyc⟩⟩
  · exact nomatch hv.symm.trans ((hs.mem v).1 hmem)
  · refine mem_cons.trans ?_
    rw [hs.mem]
    obtain rfl | hne := eq_or_ne u v
    · exact iff_of_true (.inl rfl) (update_self u _ _)
    · refine (or_iff_right hne).trans ?_
      exact (iff_of_eq (congrArg (· = _) (update_of_ne hne _ _))).symm
  · cases hcolor : s.g.color u with
    | UNSCANNED => exact absurd hcolor (hsucc u hu)
    | SCANNING => exact absurd (TransGen.head' hu (hr u hcolor)) (hacyc v)
    | SCANNED => exact (hs.mem u).2 hcolor

/-- A visit as a whole, from its part between. -/
theorem step_leave (hv : s.g.color v = .UNSCANNED) (h : Step (s.enter v) s') :
    Step s (s'.leave v) := by
  refine ⟨h.adj_list, fun u => ?_, fun u hu => ?_⟩
  · obtain rfl | hne := eq_or_ne u v
    · rw [hv]
      exact iff_of_false (fun h => nomatch (update_self u _ _).symm.trans h) nofun
    · have hleave : (s'.leave v).g.color u = s'.g.color u := update_of_ne hne _ _
      have henter : (s.enter v).g.color u = s.g.color u := update_of_ne hne _ _
      rw [hleave, h.scanning, henter]
  · obtain rfl | hne := eq_or_ne u v
    · exact hv
    · have henter : (s.enter v).g.color u = s.g.color u := update_of_ne hne _ _
      exact henter ▸ h.unscanned u ((update_of_ne hne _ _).symm.trans hu)

/-- A visit leaves the vertex scanned, and fails in no graph. -/
theorem DFS_visit_spec {d : ℕ} (hs : s.Inv) (hv : s.g.color v = .UNSCANNED) (hr : Reaching s v)
    (hd : s.unscanned < d) :
    Meets (DFS_visit d s v)
      (fun s' => s'.Inv ∧ Step s s' ∧ s'.g.color v = .SCANNED) fun _ => False := by
  induction d generalizing s v with
  | zero => exact absurd hd (Nat.not_lt_zero _)
  | succ d ih =>
    obtain ⟨hs0, hr0⟩ := hs.enter hv hr
    have hlt := lt_of_lt_of_le (unscanned_enter hv) (Nat.le_of_lt_succ hd)
    have hcolor : (s.enter v).g.color v = .SCANNING := update_self v _ _
    rw [DFS_visit]
    refine (Meets.foldlM (fun rest s' => rest ⊆ s.g.adj_list v ∧ s'.Inv ∧ Step (s.enter v) s' ∧
      ∀ u ∈ s.g.adj_list v, u ∈ rest ∨ s'.g.color u ≠ .UNSCANNED) ?_ (s.enter v)
      ⟨List.Subset.refl _, hs0, .refl _, fun u hu => .inl hu⟩).bind ?_
    · rintro id rest s' ⟨hsub, hs', hstep, hdone⟩
      obtain ⟨hid, hsub⟩ := cons_subset.1 hsub
      split
      next hcol =>
        have hedge : s'.g.Edge v id := by
          rw [hstep.edge]
          exact hid
        have hr' : Reaching s' id := fun u hu => (hstep.reaching hr0 u hu).tail hedge
        refine (ih hs' hcol hr' (lt_of_le_of_lt hstep.unscanned_le hlt)).imp ?_
        rintro s'' ⟨hs'', hstep', hscanned⟩
        refine ⟨hsub, hs'', hstep.trans hstep', fun u hu => ?_⟩
        obtain hmem | hne := hdone u hu
        · obtain rfl | hmem := mem_cons.1 hmem
          · exact .inr fun h => nomatch hscanned.symm.trans h
          · exact .inl hmem
        · exact .inr fun h => hne (hstep'.unscanned u h)
      next hcol =>
        refine ⟨hsub, hs', hstep, fun u hu => ?_⟩
        obtain hmem | hne := hdone u hu
        · obtain rfl | hmem := mem_cons.1 hmem
          · exact .inr hcol
          · exact .inl hmem
        · exact .inr hne
    · rintro s' ⟨-, hs', hstep, hdone⟩
      have hv' : s'.g.color v = .SCANNING := (hstep.scanning v).2 hcolor
      refine ⟨hs'.leave hv' (hstep.reaching hr0) fun u hu => ?_, step_leave hv hstep,
        update_self v _ _⟩
      rw [hstep.edge] at hu
      exact (hdone u hu).resolve_left not_mem_nil

/-! ## The sort -/

theorem popOrder_of_notMem {sp : List (Fin n)} (count : ℕ) (order : Fin n → ℕ) (hv : v ∉ sp) :
    popOrder sp count order v = order v := by
  induction sp generalizing count order with
  | nil => rfl
  | cons u sp ih =>
    obtain ⟨hne, hv⟩ := not_or.1 (mt mem_cons.2 hv)
    rw [popOrder, ih _ _ hv, update_of_ne hne]

/-- A vertex gets the number of its place. -/
theorem popOrder_eq {sp : List (Fin n)} (count : ℕ) (order : Fin n → ℕ) (hnodup : sp.Nodup)
    (hv : v ∈ sp) : popOrder sp count order v = count + sp.idxOf v := by
  induction sp generalizing count order with
  | nil => exact absurd hv not_mem_nil
  | cons u sp ih =>
    obtain ⟨hu, hnodup⟩ := nodup_cons.1 hnodup
    rw [popOrder]
    obtain rfl | hv := mem_cons.1 hv
    · rw [popOrder_of_notMem _ _ hu, update_self, idxOf_cons_self]
      rfl
    · rw [ih _ _ hnodup hv, idxOf_cons_ne _ fun heq : u = v => hu (heq ▸ hv)]
      omega

/-- The numbers that a sort gives: those under `n`, each to one vertex, and in a graph without
cycles a smaller one to the tail of an edge. -/
structure Sorted (g g' : rawgraph n) : Prop where
  adj_list : g'.adj_list = g.adj_list
  lt : ∀ v, g'.topsort_order v < n
  injective : Injective g'.topsort_order
  edge : Acyclic g.Edge → ∀ {i j}, g.Edge i j → g'.topsort_order i < g'.topsort_order j

/-- The loop of `top_sort` leaves every vertex scanned. -/
theorem top_sort_loop (g : rawgraph n) (hg : ∀ v, g.color v = .UNSCANNED) :
    Meets ((List.finRange n).foldlM
      (fun s i => if s.g.color i = .UNSCANNED then DFS_visit (n + 1) s i else .ok s) ⟨g, 0, []⟩)
      (fun s => s.Inv ∧ Step ⟨g, 0, []⟩ s ∧ ∀ v, s.g.color v = .SCANNED) fun _ => False := by
  have hs0 : Search.Inv ⟨g, 0, []⟩ := by
    refine ⟨nodup_nil, fun u => ?_, fun _ => trivial⟩
    exact iff_of_false not_mem_nil fun h => nomatch (hg u).symm.trans h
  have hscanning : ∀ s, Step ⟨g, 0, []⟩ s → ∀ u, s.g.color u ≠ .SCANNING := fun s hstep u hu =>
    nomatch (hg u).symm.trans ((hstep.scanning u).1 hu)
  refine (Meets.foldlM (fun rest s => s.Inv ∧ Step ⟨g, 0, []⟩ s ∧
    ∀ v, v ∈ rest ∨ s.g.color v ≠ .UNSCANNED) ?_ _
    ⟨hs0, .refl _, fun v => .inl (mem_finRange v)⟩).imp ?_
  · rintro i rest s ⟨hs, hstep, hdone⟩
    split
    next hcol =>
      have hcard : s.unscanned < n + 1 := by
        have hle := card_subtype_le fun u => s.g.color u = .UNSCANNED
        rw [card_fin] at hle
        exact Nat.lt_succ_of_le hle
      refine (DFS_visit_spec hs hcol (fun u hu => absurd hu (hscanning s hstep u)) hcard).imp ?_
      rintro s' ⟨hs', hstep', hscanned⟩
      refine ⟨hs', hstep.trans hstep', fun u => ?_⟩
      obtain hmem | hne := hdone u
      · obtain rfl | hmem := mem_cons.1 hmem
        · exact .inr fun h => nomatch hscanned.symm.trans h
        · exact .inl hmem
      · exact .inr fun h => hne (hstep'.unscanned u h)
    next hcol =>
      refine ⟨hs, hstep, fun u => ?_⟩
      obtain hmem | hne := hdone u
      · obtain rfl | hmem := mem_cons.1 hmem
        · exact .inr hcol
        · exact .inl hmem
      · exact .inr hne
  · rintro s ⟨hs, hstep, hdone⟩
    refine ⟨hs, hstep, fun v => ?_⟩
    cases hcol : s.g.color v with
    | UNSCANNED => exact absurd hcol ((hdone v).resolve_left not_mem_nil)
    | SCANNING => exact absurd hcol (hscanning s hstep v)
    | SCANNED => rfl

/-- What is popped from a stack with every vertex. -/
theorem sorted_popOrder {g : rawgraph n} (hs : s.Inv) (hstep : Step ⟨g, 0, []⟩ s)
    (hall : ∀ v, s.g.color v = .SCANNED) :
    Sorted g { s.g with topsort_order := popOrder s.sp 0 s.g.topsort_order } := by
  have hmem : ∀ v, v ∈ s.sp := fun v => (hs.mem v).2 (hall v)
  have horder : ∀ v, popOrder s.sp 0 s.g.topsort_order v = s.sp.idxOf v := fun v =>
    (popOrder_eq 0 _ hs.nodup (hmem v)).trans (zero_add _)
  refine ⟨hstep.adj_list, fun v => ?_, fun i j heq => ?_, fun hacyc i j hij => ?_⟩
  · have hlen : s.sp.length ≤ n := by
      have hle := hs.nodup.length_le_card
      rwa [card_fin] at hle
    change popOrder s.sp 0 s.g.topsort_order v < n
    rw [horder]
    exact lt_of_lt_of_le (idxOf_lt_length_of_mem (hmem v)) hlen
  · have hidx : s.sp.idxOf i = s.sp.idxOf j := by rw [← horder, ← horder]; exact heq
    exact (idxOf_inj (hmem i)).1 hidx
  · have hedge : s.g.Edge = g.Edge := hstep.edge
    rw [← hedge] at hacyc hij
    change popOrder s.sp 0 s.g.topsort_order i < popOrder s.sp 0 s.g.topsort_order j
    rw [horder, horder]
    exact (hs.finishing hacyc).idxOf_lt hs.nodup (hmem i) hij

/-- In every graph the sort ends and numbers the vertices. -/
theorem top_sort_spec (g : rawgraph n) (hg : ∀ v, g.color v = .UNSCANNED) :
    ∃ g', top_sort g = .ok g' ∧ Sorted g g' := by
  rw [top_sort]
  split
  next h =>
    subst h
    exact ⟨g, rfl, rfl, fun v => v.elim0, fun v => v.elim0, fun _ v => v.elim0⟩
  split
  next h =>
    subst h
    refine ⟨_, rfl, rfl, fun v => ?_, fun i j _ => Subsingleton.elim i j, fun hacyc i j hij => ?_⟩
    · rw [Subsingleton.elim v ⟨0, one_pos⟩]
      change update g.topsort_order ⟨0, one_pos⟩ 0 ⟨0, one_pos⟩ < 1
      rw [update_self]
      exact one_pos
    · rw [Subsingleton.elim j i] at hij
      exact absurd (TransGen.single hij) (hacyc i)
  · obtain ⟨s, heq, hs, hstep, hall⟩ := (top_sort_loop g hg).exists_ok
    rw [heq]
    exact ⟨_, rfl, sorted_popOrder hs hstep hall⟩

end Graphviz.Ortho

/-!
## Tracks of a channel (`ortho/ortho.c`)

`add_edges_in_G` turns the comparisons of the segments of a channel into precedence edges, more are
inserted and removed for parallel segments, and `assignTrackNo` numbers the segments by a
topological sort. The tracks are the numbers from `1` on, each given once; the comparisons do not
depend on the order in which segments were appended unless two of them clash.
-/

namespace Graphviz.Ortho

open bend RelGraph Function

variable {α : Type} [LinearOrder α] {n : ℕ}

/-- `channel`, with `n` segments. -/
structure channel (α : Type) (n : ℕ) where
  seg_list : Fin n → segment α
  G : rawgraph n

/-- The edge for a result of `seg_cmp`. -/
def cmpEdge {β : Type} (cmp : ℤ) (x y : β) : Option (β × β) :=
  if cmp > 0 then some (x, y)
  else if cmp = -1 then some (y, x)
  else none

/-- The pairs of positions that `add_edges_in_G` goes through. -/
def segPairs (n : ℕ) : List (Fin n × Fin n) :=
  (List.finRange n).flatMap fun x => ((List.finRange n).filter (x < ·)).map fun y => (x, y)

/-- The loops of `add_edges_in_G`. -/
def addEdges (seg_list : Fin n → segment α) : List (Fin n × Fin n) → rawgraph n → ℤ × rawgraph n
  | [], G => (0, G)
  | (x, y) :: ps, G =>
    let cmp := seg_cmp (seg_list x) (seg_list y)
    if cmp = -2 then (-1, G)
    else
      match cmpEdge cmp x y with
      | some (v1, v2) => addEdges seg_list ps (insert_edge G v1 v2)
      | none => addEdges seg_list ps G

/-- `add_edges_in_G`: its result and the graph. -/
def add_edges_in_G (cp : channel α n) : ℤ × rawgraph n :=
  addEdges cp.seg_list (segPairs n) cp.G

/-- The body of `assignTrackNo`, for one channel. -/
def assignTrackNo (cp : channel α n) : Except Fault (channel α n) :=
  if n = 0 then .ok cp
  else do
    let G ← top_sort cp.G
    .ok ⟨fun k => { cp.seg_list k with track_no := G.topsort_order k + 1 }, G⟩

/-! ## Precedence edges -/

/-- The edges of the comparisons are insertions, from any graph that insertions and removals
made. -/
theorem exists_runOps_add_edges_in_G (cp : channel α n) {ops : List (EdgeOp n)}
    (hG : cp.G = runOps ops) : ∃ ops', (add_edges_in_G cp).2 = runOps ops' := by
  suffices h : ∀ ps ops, ∃ ops', (addEdges cp.seg_list ps (runOps ops)).2 = runOps ops' by
    rw [add_edges_in_G, hG]
    exact h _ ops
  clear hG ops
  intro ps
  induction ps with
  | nil => exact fun ops => ⟨ops, rfl⟩
  | cons p ps ih =>
    intro ops
    rw [addEdges]
    split
    · exact ⟨ops, rfl⟩
    · split
      next v1 v2 _ =>
        have hinsert : insert_edge (runOps ops) v1 v2 = runOps (ops ++ [.insert v1 v2]) := by
          rw [runOps, runOps, List.foldl_append]
          rfl
        rw [hinsert]
        exact ih _
      next => exact ih ops

/-- No comparison of segments of a channel fails, so that the edges are all inserted. -/
theorem add_edges_in_G_result (cp : channel α n) {isVert : Bool} {comm_coord lo hi : α}
    (hseg : ∀ k, (cp.seg_list k).InChannel isVert comm_coord lo hi) :
    (add_edges_in_G cp).1 = 0 := by
  suffices h : ∀ ps G, (addEdges cp.seg_list ps G).1 = 0 from h _ _
  intro ps
  induction ps with
  | nil => exact fun _ => rfl
  | cons p ps ih =>
    intro G
    have hne : seg_cmp (cp.seg_list p.1) (cp.seg_list p.2) ≠ -2 := by
      rw [seg_cmp_eq (hseg p.1) (hseg p.2)]
      rcases isSign_segCmp (cp.seg_list p.1) (cp.seg_list p.2) with h | h | h <;> rw [h] <;> decide
    rw [addEdges, if_neg hne]
    split <;> exact ih _

/-! ## Tracks -/

variable {cp cp' : channel α n}

/-- The segments have the tracks `1` to `n`, and in a precedence graph without cycles a smaller
one at the tail of an edge. -/
structure TracksAssigned (cp cp' : channel α n) : Prop where
  pos : ∀ k, 1 ≤ (cp'.seg_list k).track_no
  le : ∀ k, (cp'.seg_list k).track_no ≤ n
  injective : Injective fun k => (cp'.seg_list k).track_no
  edge : Acyclic cp.G.Edge → ∀ i j, cp.G.Edge i j →
    (cp'.seg_list i).track_no < (cp'.seg_list j).track_no

omit [LinearOrder α] in
/-- Whatever was inserted and removed, tracks are assigned. -/
theorem assignTrackNo_spec {ops : List (EdgeOp n)} (hG : cp.G = runOps ops) :
    ∃ cp', assignTrackNo cp = .ok cp' ∧ TracksAssigned cp cp' := by
  rw [assignTrackNo]
  split
  next h =>
    subst h
    exact ⟨cp, rfl, fun k => k.elim0, fun k => k.elim0, fun k => k.elim0, fun _ k => k.elim0⟩
  · obtain ⟨G, heq, hsorted⟩ := top_sort_spec cp.G fun v => hG ▸ color_runOps ops v
    rw [heq]
    refine ⟨_, rfl, fun k => Nat.succ_pos _, fun k => hsorted.lt k, fun i j hij => ?_,
      fun hacyc i j hij => Nat.succ_lt_succ (hsorted.edge hacyc hij)⟩
    exact hsorted.injective (Nat.succ_injective hij)

/-- The constraint between two segments is the same in both orders. -/
def SameConstraint (S1 S2 : segment α) : Prop :=
  Antisymmetric S1 S2 ∧ ∀ x y : ℕ, cmpEdge (seg_cmp S1 S2) x y = cmpEdge (seg_cmp S2 S1) y x

theorem sameConstraint_iff {S1 S2 : segment α} {isVert : Bool} {comm_coord lo hi : α}
    (h₁ : S1.InChannel isVert comm_coord lo hi) (h₂ : S2.InChannel isVert comm_coord lo hi) :
    SameConstraint S1 S2 ↔ Antisymmetric S1 S2 := by
  refine ⟨And.left, fun h => ⟨h, fun x y => ?_⟩⟩
  have hsign : IsSign (seg_cmp S2 S1) := by
    rw [seg_cmp_eq h₂ h₁]
    exact isSign_segCmp _ _
  rw [show seg_cmp S1 S2 = -seg_cmp S2 S1 from h]
  rcases hsign with h | h | h <;> rw [h] <;> rfl

/-- Every channel gets its tracks, and the constraints do not depend on the order of its segments
exactly when no two of them clash. -/
theorem assignTrackNo_sameConstraint_iff (cp : channel α n) {ops : List (EdgeOp n)}
    (hG : cp.G = runOps ops) {isVert : Bool} {comm_coord lo hi : α}
    (hseg : ∀ k, (cp.seg_list k).InChannel isVert comm_coord lo hi) :
    ((∃ cp', assignTrackNo cp = .ok cp' ∧ TracksAssigned cp cp') ∧
      ∀ i j, SameConstraint (cp.seg_list i) (cp.seg_list j)) ↔
    ∀ i j, ¬Clash (cp.seg_list i) (cp.seg_list j) := by
  rw [and_iff_right (assignTrackNo_spec hG)]
  have hpair : ∀ i j, SameConstraint (cp.seg_list i) (cp.seg_list j) ↔
      ¬(Clash (cp.seg_list i) (cp.seg_list j) ∨ Clash (cp.seg_list j) (cp.seg_list i)) := fun i j =>
    (sameConstraint_iff (hseg i) (hseg j)).trans (antisymmetric_iff (hseg i) (hseg j))
  constructor
  · exact fun h i j hclash => (hpair i j).1 (h i j) (.inl hclash)
  · exact fun h i j => (hpair i j).2 fun hclash => hclash.elim (h i j) (h j i)

/-- A segment through a channel from node to node. -/
def throughSegment : segment ℕ :=
  ⟨false, 0, 0, 4, B_NODE, B_NODE, 0⟩

/-- A segment in the last cell, where a route bends down that comes from the node there. -/
def pointSegment : segment ℕ :=
  ⟨false, 0, 4, 4, B_DOWN, B_NODE, 0⟩

/-- A segment that bends up in the middle. -/
def halfSegment : segment ℕ :=
  ⟨false, 0, 0, 2, B_NODE, B_UP, 0⟩

theorem throughSegment_inChannel : throughSegment.InChannel false 0 0 4 :=
  ⟨rfl, rfl, by decide, by decide, by decide, .inl rfl, .inl rfl, fun _ => .inl rfl,
    fun _ => .inr rfl⟩

theorem halfSegment_inChannel : halfSegment.InChannel false 0 0 4 :=
  ⟨rfl, rfl, by decide, by decide, by decide, .inl rfl, .inr (.inr rfl),
    fun _ => .inl rfl, nofun⟩

theorem assignTrackNo_sameConstraint_iff_halves :
    ((∃ cp', assignTrackNo ⟨![throughSegment, halfSegment], runOps [.insert 0 1]⟩ = .ok cp' ∧
        TracksAssigned ⟨![throughSegment, halfSegment], runOps [.insert 0 1]⟩ cp') ∧
      ∀ i j, SameConstraint (![throughSegment, halfSegment] i)
        (![throughSegment, halfSegment] j)) ↔
    ∀ i j, ¬Clash (![throughSegment, halfSegment] i) (![throughSegment, halfSegment] j) :=
  assignTrackNo_sameConstraint_iff ⟨![throughSegment, halfSegment], runOps [.insert 0 1]⟩ rfl
    (Fin.forall_fin_two.2 ⟨throughSegment_inChannel, halfSegment_inChannel⟩)

/-- Each of two segments of a channel has to lie below the other. -/
theorem seg_cmp_not_antisymmetric : throughSegment.InChannel false 0 0 4 ∧
    pointSegment.InChannel false 0 0 4 ∧ ¬SameConstraint throughSegment pointSegment := by
  refine ⟨throughSegment_inChannel, ⟨rfl, rfl, by decide, by decide, by decide,
    .inr (.inl rfl), .inl rfl, nofun, fun _ => .inr rfl⟩, fun h => ?_⟩
  have hne : seg_cmp throughSegment pointSegment ≠ -seg_cmp pointSegment throughSegment := by
    decide
  exact hne h.1

end Graphviz.Ortho
