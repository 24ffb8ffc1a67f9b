import Graphviz.Library.Instances
import Graphviz.Library.ShortestPath
import Graphviz.Neatogen.Prune
import Graphviz.Neatogen.SpringHeap

/-!
# The distances of the spring model (`neatogen/stuff.c`)

From every node a search sets the distances to the nodes that it reaches. A node that the search has
not reached has the distance `Initial_dist`, and it is reached by a way that is shorter than this
alone: the nodes that are farther away keep the default, which no walk to them is below.
-/

namespace Graphviz.Spring

open Function List Outcome ShortestPath

variable {V K : Type} [DecidableEq V] [Field K] [LinearOrder K]

/-- The heap, the fields of the nodes and the matrix of the distances. -/
structure Search (V K : Type) where
  heap : NodeHeap V
  ND_dist : V → K
  ND_hops : V → ℕ
  GD_dist : ℕ → ℕ → K

/-- `make_spring`. -/
def make_spring (ND_id : V → ℕ) (GD_dist : ℕ → ℕ → K) (u v : V) (f : K) : ℕ → ℕ → K :=
  fun i j => if i = ND_id u ∧ j = ND_id v ∨ i = ND_id v ∧ j = ND_id u then f else GD_dist i j

/-- What `s1` does for an edge of `v`. -/
def relax (v : V) (σ : Search V K) (e : edge_t V K) : Except Fault (Search V K) :=
  let u := if e.agtail = v then e.aghead else e.agtail
  let f := σ.ND_dist v + ED_dist e
  if f < σ.ND_dist u then do
    let ND_dist := update σ.ND_dist u f
    if 0 ≤ σ.heap.ND_heapindex u then do
      let heap ← heapup ND_dist σ.heap u
      .ok { σ with heap, ND_dist }
    else do
      let ND_hops := update σ.ND_hops u (σ.ND_hops v + 1)
      let heap ← neato_enqueue ND_dist σ.heap u
      .ok { σ with heap, ND_dist, ND_hops }
  else .ok σ

/-- The spring of a node that has left the heap. -/
def Search.spring (ND_id : V → ℕ) (Src : V) (σ : Search V K) (v : V) : Search V K :=
  if v ≠ Src then { σ with GD_dist := make_spring ND_id σ.GD_dist Src v (σ.ND_dist v) } else σ

/-- The loop of `s1`. -/
def s1Loop (G : graph_t V K) (ND_id : V → ℕ) (Src : V) :
    ℕ → Search V K → Except Fault (Search V K)
  | 0, _ => .error .fuel
  | fuel + 1, σ => do
    let (v, heap) ← neato_dequeue σ.ND_dist σ.heap
    match v with
    | none => .ok { σ with heap }
    | some v => do
      let σ ← (nodeEdges G v).foldlM (relax v) (Search.spring ND_id Src { σ with heap } v)
      s1Loop G ND_id Src fuel σ

/-- The fields of the nodes at the start of a search. -/
def Search.start (neato_nlist : List V) (Initial_dist : K) (Src : V) (σ : Search V K) :
    Search V K :=
  { σ with
    ND_dist := update (fun v => if v ∈ neato_nlist then Initial_dist else σ.ND_dist v) Src 0
    ND_hops := update σ.ND_hops Src 0 }

/-- `s1`. -/
def s1 (s : Scanned V K) (σ : Search V K) (node : V) : Except Fault (Search V K) := do
  let σ := σ.start s.neato_nlist s.Initial_dist node
  let heap ← neato_enqueue σ.ND_dist σ.heap node
  s1Loop s.G s.ND_id node (s.G.nodes.length + 1) { σ with heap }

/-- The searches from some nodes, one after another. -/
def searches [Inhabited V] (s : Scanned V K) (nodes : List V) : Except Fault (Search V K) :=
  match s.GD_dist with
  | none => .error .segfault
  | some GD_dist =>
    nodes.foldlM (s1 s) {
      heap := { Heap := fun _ => default, Heapsize := 0, ND_heapindex := s.ND_heapindex }
      ND_dist := fun _ => 0
      ND_hops := fun _ => 0
      GD_dist }

/-- `shortest_path`. -/
def shortest_path [Inhabited V] (s : Scanned V K) : Except Fault (Search V K) :=
  searches s s.G.nodes

/-! ## One search -/

/-- The edges with their lengths, in both directions. -/
def Joins (g : graph_t V K) (u v : V) (c : K) : Prop :=
  ∃ e ∈ g.edges, (e.agtail = u ∧ e.aghead = v ∨ e.agtail = v ∧ e.aghead = u) ∧ c = ED_dist e

variable {G : graph_t V K} {ND_id : V → ℕ} {Src u v : V} {D d c x : K} {σ σ' : Search V K}
  {order : List V} {GD_dist : ℕ → ℕ → K} {scanned : V → V → K → Prop} {h : NodeHeap V}
  {e : edge_t V K}

omit [DecidableEq V] in
theorem Joins.symm (hj : Joins G u v c) : Joins G v u c := by
  obtain ⟨e, he, hends, hc⟩ := hj
  exact ⟨e, he, hends.symm, hc⟩

omit [DecidableEq V] in
theorem Joins.mem (hj : Joins G u v c) : v ∈ G.nodes := by
  obtain ⟨e, he, ⟨-, rfl⟩ | ⟨rfl, -⟩, -⟩ := hj
  · exact (G.ends e he).2
  · exact (G.ends e he).1

theorem joins_iff : Joins G u v c ↔ ∃ e ∈ nodeEdges G u, v = otherEnd u e ∧ c = ED_dist e := by
  constructor
  · rintro ⟨e, he, ⟨rfl, rfl⟩ | ⟨rfl, rfl⟩, hc⟩
    · exact ⟨e, mem_nodeEdges.2 ⟨he, .inl rfl⟩, (if_pos rfl).symm, hc⟩
    · refine ⟨e, mem_nodeEdges.2 ⟨he, .inr rfl⟩, ?_, hc⟩
      rw [otherEnd]
      split
      next heq => exact heq
      next => rfl
  · rintro ⟨e, he, rfl, hc⟩
    obtain ⟨he, hinc⟩ := mem_nodeEdges.1 he
    refine ⟨e, he, ?_, hc⟩
    rw [otherEnd]
    split
    next heq => exact .inl ⟨heq, rfl⟩
    next hne => exact .inr ⟨rfl, hinc.resolve_left hne⟩

/-- What the search has written in the matrix. -/
structure Springs (ND_id : V → ℕ) (Src : V) (GD_dist : ℕ → ℕ → K) (order : List V)
    (σ : Search V K) : Prop where
  set : ∀ v ∈ order, v ≠ Src → σ.GD_dist (ND_id Src) (ND_id v) = σ.ND_dist v ∧
    σ.GD_dist (ND_id v) (ND_id Src) = σ.ND_dist v
  frame : ∀ i j, (∀ v ∈ order, v ≠ Src →
    ¬(i = ND_id Src ∧ j = ND_id v ∨ i = ND_id v ∧ j = ND_id Src)) → σ.GD_dist i j = GD_dist i j

/-- The invariant of a search: the nodes that have left the heap are settled, in their order, and
the edges that have been scanned are not a way to come nearer. -/
structure Searching (G : graph_t V K) (D : K) (Src : V) (order : List V)
    (scanned : V → V → K → Prop) (σ : Search V K) : Prop where
  ready : σ.heap.Ready σ.ND_dist
  nodup : order.Nodup
  nodes : ∀ v ∈ order, v ∈ G.nodes
  queued : ∀ v, σ.heap.Mem v → v ∈ G.nodes ∧ v ∉ order
  source : Src ∈ order ∨
    order = [] ∧ σ.heap.Mem Src ∧ ∀ v, σ.heap.Mem v → v = Src ∧ σ.ND_dist v = 0
  walk : ∀ v, v ∈ order ∨ σ.heap.Mem v → Walk (Joins G) Src v (σ.ND_dist v)
  nearest : ∀ v ∈ order, Nearest (Joins G) Src v (σ.ND_dist v)
  low : ∀ v, v ∈ order ∨ σ.heap.Mem v → v = Src ∨ σ.ND_dist v < D
  far : ∀ v ∈ G.nodes, v ∉ order → ¬σ.heap.Mem v → σ.ND_dist v = D
  frontier : ∀ u ∈ order, ∀ v c, scanned u v c → σ.ND_dist v ≤ σ.ND_dist u + c

/-- The edges that have been scanned when one more has been. -/
def OneMore (scanned : V → V → K → Prop) (v : V) (e : edge_t V K) : V → V → K → Prop :=
  fun a b c => scanned a b c ∨ a = v ∧ b = otherEnd v e ∧ c = ED_dist e

variable [IsStrictOrderedRing K]

omit [DecidableEq V] in
theorem ED_dist_pos (e : edge_t V K) : 0 < ED_dist e := by
  rw [ED_dist]
  cases hlen : lenattr e with
  | none => exact zero_lt_one
  | some val =>
    have hval := (Option.filter_eq_some_iff.1 hlen).2
    rw [decide_eq_true_iff, not_or, not_lt] at hval
    exact lt_of_le_of_ne hval.1 (Ne.symm hval.2)

omit [DecidableEq V] in
theorem Joins.pos (hj : Joins G u v c) : 0 < c := by
  obtain ⟨e, -, -, rfl⟩ := hj
  exact ED_dist_pos e

omit [DecidableEq V] in
theorem Joins.nonneg : ∀ u v c, Joins G u v c → 0 ≤ c :=
  fun _ _ _ hj => hj.pos.le

omit [IsStrictOrderedRing K] in
/-- A node that is not settled comes nearer over an edge of a settled node. -/
theorem Searching.lower (hs : Searching G D Src order scanned σ) (hv : v ∈ order)
    (hj : Joins G v (otherEnd v e) (ED_dist e))
    (hlt : σ.ND_dist v + ED_dist e < σ.ND_dist (otherEnd v e))
    (hdist : σ'.ND_dist = update σ.ND_dist (otherEnd v e) (σ.ND_dist v + ED_dist e))
    (hready : σ'.heap.Ready σ'.ND_dist)
    (hmem : ∀ u, σ'.heap.Mem u ↔ u = otherEnd v e ∨ σ.heap.Mem u) :
    Searching G D Src order (OneMore scanned v e) σ' := by
  have hwalk : Walk (Joins G) Src (otherEnd v e) (σ.ND_dist v + ED_dist e) :=
    .snoc (hs.walk v (.inl hv)) hj
  have hout : otherEnd v e ∉ order := fun hin => absurd (hs.nearest _ hin _ hwalk) hlt.not_ge
  have hother : ∀ u, u ≠ otherEnd v e → σ'.ND_dist u = σ.ND_dist u := fun u hu => by
    rw [hdist, update_of_ne hu]
  have hsettled : ∀ u ∈ order, σ'.ND_dist u = σ.ND_dist u :=
    fun u hu => hother u fun heq => hout (heq ▸ hu)
  have hself : σ'.ND_dist (otherEnd v e) = σ.ND_dist v + ED_dist e := by
    rw [hdist, update_self]
  have hle : ∀ u, σ'.ND_dist u ≤ σ.ND_dist u := fun u => by
    obtain rfl | hne := eq_or_ne u (otherEnd v e)
    · exact hself.le.trans hlt.le
    · exact (hother u hne).le
  have hsource : Src ∈ order := hs.source.resolve_right fun hnil => by
    rw [hnil.1] at hv
    cases hv
  have hold : ∀ u, u ≠ otherEnd v e → u ∈ order ∨ σ'.heap.Mem u → u ∈ order ∨ σ.heap.Mem u :=
    fun u hu h => h.imp_right fun hin => ((hmem u).1 hin).resolve_left hu
  refine ⟨hready, hs.nodup, hs.nodes, fun u hu => ?_, .inl hsource, fun u hu => ?_,
    fun u hu => ?_, fun u hu => ?_, fun u hu hnot hnot' => ?_, fun u hu w c hsc => ?_⟩
  · obtain rfl | hu := (hmem u).1 hu
    · exact ⟨hj.mem, hout⟩
    · exact hs.queued u hu
  · obtain rfl | hne := eq_or_ne u (otherEnd v e)
    · rw [hself]
      exact hwalk
    · rw [hother u hne]
      exact hs.walk u (hold u hne hu)
  · rw [hsettled u hu]
    exact hs.nearest u hu
  · obtain rfl | hne := eq_or_ne u (otherEnd v e)
    · right
      refine (hself.le.trans_lt hlt).trans_le ?_
      obtain hin | hin := Classical.em (σ.heap.Mem (otherEnd v e))
      · obtain heq | hlow := hs.low _ (.inr hin)
        · exact absurd (heq ▸ hsource) hout
        · exact hlow.le
      · exact (hs.far _ hj.mem hout hin).le
    · rw [hother u hne]
      exact hs.low u (hold u hne hu)
  · rw [hmem, not_or] at hnot'
    rw [hother u hnot'.1]
    exact hs.far u hu hnot hnot'.2
  · rw [hsettled u hu]
    obtain hsc | ⟨rfl, rfl, rfl⟩ := hsc
    · exact (hle w).trans (hs.frontier u hu w c hsc)
    · exact hself.le

omit [DecidableEq V] [Field K] [LinearOrder K] [IsStrictOrderedRing K] in
theorem Springs.congr (hsp : Springs ND_id Src GD_dist order σ) (heq : σ'.GD_dist = σ.GD_dist)
    (hdist : ∀ u ∈ order, σ'.ND_dist u = σ.ND_dist u) : Springs ND_id Src GD_dist order σ' := by
  refine ⟨fun v hv hne => ?_, fun i j hij => ?_⟩
  · rw [heq, hdist v hv]
    exact hsp.set v hv hne
  · rw [heq]
    exact hsp.frame i j hij

omit [IsStrictOrderedRing K] in
/-- One edge of a settled node is scanned. -/
theorem relax_spec (hs : Searching G D Src order scanned σ)
    (hsp : Springs ND_id Src GD_dist order σ) (hv : v ∈ order) (he : e ∈ nodeEdges G v) :
    ∃ σ', relax v σ e = .ok σ' ∧ Searching G D Src order (OneMore scanned v e) σ' ∧
      Springs ND_id Src GD_dist order σ' := by
  have hj : Joins G v (otherEnd v e) (ED_dist e) := joins_iff.2 ⟨e, he, rfl, rfl⟩
  rw [relax]
  change ∃ σ', (if σ.ND_dist v + ED_dist e < σ.ND_dist (otherEnd v e) then _ else _) = _ ∧ _
  split
  next hlt =>
    have hout : otherEnd v e ∉ order := fun hin =>
      absurd (hs.nearest _ hin _ (.snoc (hs.walk v (.inl hv)) hj)) hlt.not_ge
    have hother : ∀ u, u ≠ otherEnd v e →
        update σ.ND_dist (otherEnd v e) (σ.ND_dist v + ED_dist e) u = σ.ND_dist u :=
      fun u hu => update_of_ne hu _ _
    have hsettled : ∀ u ∈ order,
        update σ.ND_dist (otherEnd v e) (σ.ND_dist v + ED_dist e) u = σ.ND_dist u :=
      fun u hu => hother u fun heq => hout (heq ▸ hu)
    change ∃ σ', (if 0 ≤ σ.heap.ND_heapindex (otherEnd v e) then _ else _) = _ ∧ _
    split
    next hpos =>
      have hin := hs.ready.mem_iff.1 hpos
      obtain ⟨h', hrun, hready, hmem⟩ := heapup_spec hs.ready hin
        (by rw [update_self]; exact hlt.le) hother
      refine ⟨_, congrArg (· >>= _) hrun, hs.lower hv hj hlt rfl hready fun u => ?_,
        hsp.congr rfl hsettled⟩
      rw [hmem, or_iff_right_of_imp]
      rintro rfl
      exact hin
    next hneg =>
      have hin : ¬σ.heap.Mem (otherEnd v e) := mt hs.ready.mem_iff.2 hneg
      obtain ⟨h', hrun, hready, hmem⟩ := neato_enqueue_spec
        (hs.ready.congr fun u hu => hother u fun heq => hin (heq ▸ hu)) hin
      exact ⟨_, congrArg (· >>= _) hrun, hs.lower hv hj hlt rfl hready hmem, hsp.congr rfl hsettled⟩
  next hge =>
    refine ⟨σ, rfl, { hs with frontier := fun u hu w c hsc => ?_ }, hsp⟩
    obtain hsc | ⟨rfl, rfl, rfl⟩ := hsc
    · exact hs.frontier u hu w c hsc
    · exact not_lt.1 hge

omit [IsStrictOrderedRing K] in
/-- All edges of a settled node are scanned. -/
theorem relaxes_spec (es : List (edge_t V K)) (hs : Searching G D Src order scanned σ)
    (hsp : Springs ND_id Src GD_dist order σ) (hv : v ∈ order) (hes : ∀ e ∈ es, e ∈ nodeEdges G v) :
    ∃ σ', es.foldlM (relax v) σ = .ok σ' ∧
      Searching G D Src order (es.foldl (fun scanned e => OneMore scanned v e) scanned) σ' ∧
      Springs ND_id Src GD_dist order σ' := by
  induction es generalizing σ scanned with
  | nil => exact ⟨σ, rfl, hs, hsp⟩
  | cons e es ih =>
    obtain ⟨σ1, hrun, hs1, hsp1⟩ := relax_spec hs hsp hv (hes e mem_cons_self)
    obtain ⟨σ', hrun', hs', hsp'⟩ := ih hs1 hsp1 fun e he => hes e (mem_cons_of_mem _ he)
    refine ⟨σ', ?_, hs', hsp'⟩
    rw [foldlM_cons, hrun]
    exact hrun'

omit [IsStrictOrderedRing K] in
theorem oneMore_foldl {w : V} {es : List (edge_t V K)} :
    es.foldl (fun scanned e => OneMore scanned v e) scanned u w c ↔
      scanned u w c ∨ u = v ∧ ∃ e ∈ es, w = otherEnd v e ∧ c = ED_dist e := by
  induction es generalizing scanned with
  | nil => simp
  | cons e es ih =>
    rw [foldl_cons, ih, OneMore, exists_mem_cons_iff, and_or_left, or_assoc]

omit [DecidableEq V] in
/-- No way to the nearest node of the heap is shorter than its distance. -/
theorem Searching.nearest_first (hs : Searching G D Src order (Joins G) σ) (hv : σ.heap.Mem v)
    (hmin : ∀ u, σ.heap.Mem u → σ.ND_dist v ≤ σ.ND_dist u) :
    Nearest (Joins G) Src v (σ.ND_dist v) := by
  have hvo := (hs.queued v hv).2
  obtain hsource | ⟨-, -, hsource⟩ := hs.source
  · refine nearest_of_frontier Joins.nonneg hsource hs.nearest (fun u hu w c hj hw => ?_) hvo
    have hle := hs.frontier u hu w c hj
    obtain hin | hin := Classical.em (σ.heap.Mem w)
    · exact (hmin w hin).trans hle
    · rw [hs.far w hj.mem hw hin] at hle
      have hlow := (hs.low v (.inr hv)).resolve_left fun heq => hvo (heq ▸ hsource)
      exact hlow.le.trans hle
  · obtain ⟨rfl, hzero⟩ := hsource v hv
    rw [hzero]
    exact nearest_source Joins.nonneg

omit [DecidableEq V] in
/-- The nearest node of the heap is settled. -/
theorem Searching.settle (hs : Searching G D Src order (Joins G) σ) (hv : σ.heap.Mem v)
    (hmin : ∀ u, σ.heap.Mem u → σ.ND_dist v ≤ σ.ND_dist u) (hdist : σ'.ND_dist = σ.ND_dist)
    (hready : σ'.heap.Ready σ.ND_dist) (hmem : ∀ u, σ'.heap.Mem u ↔ σ.heap.Mem u ∧ u ≠ v) :
    Searching G D Src (order ++ [v]) (fun a b c => a ∈ order ∧ Joins G a b c) σ' := by
  obtain ⟨hvn, hvo⟩ := hs.queued v hv
  have happend : ∀ u, u ∈ order ++ [v] ↔ u ∈ order ∨ u = v := fun u => by
    rw [mem_append, mem_singleton]
  have hold : ∀ u, u ∈ order ++ [v] ∨ σ'.heap.Mem u → u ∈ order ∨ σ.heap.Mem u := by
    rintro u (hu | hu)
    · obtain hu | rfl := (happend u).1 hu
      · exact .inl hu
      · exact .inr hv
    · exact .inr ((hmem u).1 hu).1
  refine ⟨hdist ▸ hready, ?_, fun u hu => ?_, fun u hu => ?_, .inl ?_, fun u hu => ?_,
    fun u hu => ?_, fun u hu => ?_, fun u hu hnot hnot' => ?_, fun u hu w c hsc => ?_⟩
  · exact nodup_append.2 ⟨hs.nodup, nodup_singleton v, fun a ha b hb heq =>
      hvo (mem_singleton.1 hb ▸ heq ▸ ha)⟩
  · obtain hu | rfl := (happend u).1 hu
    · exact hs.nodes u hu
    · exact hvn
  · obtain ⟨hin, hne⟩ := (hmem u).1 hu
    obtain ⟨hn, hout⟩ := hs.queued u hin
    exact ⟨hn, fun hu => ((happend u).1 hu).elim hout hne⟩
  · obtain hsource | ⟨-, -, hsource⟩ := hs.source
    · exact (happend Src).2 (.inl hsource)
    · exact (happend Src).2 (.inr (hsource v hv).1.symm)
  · rw [hdist]
    exact hs.walk u (hold u hu)
  · rw [hdist]
    obtain hu | rfl := (happend u).1 hu
    · exact hs.nearest u hu
    · exact hs.nearest_first hv hmin
  · rw [hdist]
    exact hs.low u (hold u hu)
  · rw [happend, not_or] at hnot
    rw [hdist]
    exact hs.far u hu hnot.1 fun hin => hnot' ((hmem u).2 ⟨hin, hnot.2⟩)
  · rw [hdist]
    exact hs.frontier u hsc.1 w c hsc.2

omit [IsStrictOrderedRing K] [LinearOrder K] [Field K] in
theorem spring_fields (ND_id : V → ℕ) (Src : V) (σ : Search V K) (v : V) :
    (σ.spring ND_id Src v).ND_dist = σ.ND_dist ∧ (σ.spring ND_id Src v).heap = σ.heap := by
  rw [Search.spring]
  split
  · exact ⟨rfl, rfl⟩
  · exact ⟨rfl, rfl⟩

omit [IsStrictOrderedRing K] [LinearOrder K] [Field K] in
/-- The matrix has the distance of one more node. -/
theorem Springs.spring (hid : Set.InjOn ND_id {v | v ∈ G.nodes}) (hSrc : Src ∈ G.nodes)
    (hsp : Springs ND_id Src GD_dist order σ) (hv : v ∈ G.nodes) (hvo : v ∉ order)
    (horder : ∀ u ∈ order, u ∈ G.nodes) :
    Springs ND_id Src GD_dist (order ++ [v]) (σ.spring ND_id Src v) := by
  have hdist := (spring_fields ND_id Src σ v).1
  have hset : v ≠ Src → ∀ i j, (σ.spring ND_id Src v).GD_dist i j =
      if i = ND_id Src ∧ j = ND_id v ∨ i = ND_id v ∧ j = ND_id Src then σ.ND_dist v
      else σ.GD_dist i j := fun hne i j => by
    rw [Search.spring, if_pos hne]
    rfl
  refine ⟨fun u hu hne => ?_, fun i j hij => ?_⟩
  · rw [hdist]
    obtain hu | hu := mem_append.1 hu
    · obtain rfl | hvs := eq_or_ne v Src
      · rw [Search.spring, if_neg (not_not_intro rfl)]
        exact hsp.set u hu hne
      · have huv : ND_id u ≠ ND_id v := fun heq =>
          hvo (hid (horder u hu) hv heq ▸ hu)
        have hsv : ND_id Src ≠ ND_id v := fun heq => hvs (hid hSrc hv heq).symm
        rw [hset hvs, hset hvs, if_neg (not_or.2 ⟨fun h => huv h.2, fun h => hsv h.1⟩),
          if_neg (not_or.2 ⟨fun h => hsv h.2, fun h => huv h.1⟩)]
        exact hsp.set u hu hne
    · rw [mem_singleton.1 hu] at hne ⊢
      rw [hset hne, hset hne, if_pos (.inl ⟨rfl, rfl⟩), if_pos (.inr ⟨rfl, rfl⟩)]
      exact ⟨rfl, rfl⟩
  · have hframe := hsp.frame i j fun u hu => hij u (mem_append_left _ hu)
    obtain rfl | hvs := eq_or_ne v Src
    · rw [Search.spring, if_neg (not_not_intro rfl)]
      exact hframe
    · rw [hset hvs, if_neg (hij v (mem_append_right _ (mem_singleton.2 rfl)) hvs)]
      exact hframe

/-- The loop ends with an empty heap. -/
theorem s1Loop_spec (fuel : ℕ) (hid : Set.InjOn ND_id {v | v ∈ G.nodes}) (hSrc : Src ∈ G.nodes)
    (hs : Searching G D Src order (Joins G) σ) (hsp : Springs ND_id Src GD_dist order σ)
    (hfuel : G.nodes.length < order.length + fuel) :
    ∃ σ' order', s1Loop G ND_id Src fuel σ = .ok σ' ∧ Searching G D Src order' (Joins G) σ' ∧
      Springs ND_id Src GD_dist order' σ' ∧ σ'.heap.Heapsize = 0 := by
  induction fuel generalizing σ order with
  | zero =>
    have hle := (hs.nodup.subperm hs.nodes).length_le
    omega
  | succ fuel ih =>
    rw [s1Loop]
    obtain hzero | hpos := eq_or_ne σ.heap.Heapsize 0
    · rw [(neato_dequeue_none hzero).1]
      exact ⟨σ, order, rfl, hs, hsp, hzero⟩
    · obtain ⟨v, h, hrun, hv, hmin, hready, hmem⟩ := neato_dequeue_some hs.ready hpos
      obtain ⟨hdist, hheap⟩ := spring_fields ND_id Src { σ with heap := h } v
      obtain ⟨hvn, hvo⟩ := hs.queued v hv
      have hs1 := hs.settle hv hmin hdist (hheap ▸ hready) (hheap ▸ hmem)
      have hsp1 : Springs ND_id Src GD_dist order { σ with heap := h } :=
        hsp.congr rfl fun _ _ => rfl
      obtain ⟨σ2, hrun2, hs2, hsp2⟩ := relaxes_spec (nodeEdges G v) hs1
        (hsp1.spring hid hSrc hvn hvo hs.nodes) (mem_append_right _ mem_cons_self)
        fun _ he => he
      have hall : Searching G D Src (order ++ [v]) (Joins G) σ2 := by
        refine { hs2 with frontier := fun u hu w c hj => hs2.frontier u hu w c ?_ }
        rw [oneMore_foldl]
        obtain hu | hu := mem_append.1 hu
        · exact .inl ⟨hu, hj⟩
        · obtain rfl := mem_singleton.1 hu
          exact .inr ⟨rfl, joins_iff.1 hj⟩
      obtain ⟨σ', order', hrun', hs', hsp', hsize⟩ := ih hall hsp2 (by
        rw [length_append, length_singleton]
        omega)
      refine ⟨σ', order', ?_, hs', hsp', hsize⟩
      rw [hrun, ok_bind]
      simp only
      rw [hrun2]
      exact hrun'

/-- A heap without nodes, between two searches. -/
structure NodeHeap.Idle (h : NodeHeap V) : Prop where
  size : h.Heapsize = 0
  out : ∀ v, h.ND_heapindex v = -1

omit [DecidableEq V] [Field K] [IsStrictOrderedRing K] in
theorem NodeHeap.Idle.ready {ND_dist : V → K} (hi : h.Idle) : h.Ready ND_dist := by
  have hnone : ∀ i, ¬i < h.Heapsize := fun i => by
    rw [hi.size]
    exact Nat.not_lt_zero i
  refine ⟨⟨fun i _ hlt => absurd hlt (hnone i), ?_⟩, fun i _ hlt => absurd hlt (hnone i),
    fun v _ => hi.out v⟩
  rintro v ⟨i, ⟨-, hlt⟩, -⟩
  exact absurd hlt (hnone i)

omit [DecidableEq V] [Field K] [IsStrictOrderedRing K] in
theorem NodeHeap.Idle.not_mem (hi : h.Idle) : ¬h.Mem v := by
  rintro ⟨i, ⟨-, hlt⟩, -⟩
  rw [hi.size] at hlt
  exact absurd hlt (Nat.not_lt_zero i)

omit [DecidableEq V] [Field K] [IsStrictOrderedRing K] in
theorem NodeHeap.Ready.idle {ND_dist : V → K} (hr : h.Ready ND_dist) (hsize : h.Heapsize = 0) :
    h.Idle := by
  refine ⟨hsize, fun v => hr.out v ?_⟩
  rintro ⟨i, ⟨-, hlt⟩, -⟩
  rw [hsize] at hlt
  exact absurd hlt (Nat.not_lt_zero i)

/-- What a search leaves in the matrix: a node that is nearer than the default has its distance in
the row and in the column of the source, and nothing else is written. -/
structure Row (s : Scanned V K) (Src : V) (GD_dist GD_dist' : ℕ → ℕ → K) : Prop where
  found : ∀ v ∈ s.G.nodes, v ≠ Src →
    (∃ d < s.Initial_dist, Shortest (Joins s.G) Src v d ∧
      GD_dist' (s.ND_id Src) (s.ND_id v) = d ∧ GD_dist' (s.ND_id v) (s.ND_id Src) = d) ∨
    Nearest (Joins s.G) Src v s.Initial_dist ∧
      GD_dist' (s.ND_id Src) (s.ND_id v) = GD_dist (s.ND_id Src) (s.ND_id v) ∧
      GD_dist' (s.ND_id v) (s.ND_id Src) = GD_dist (s.ND_id v) (s.ND_id Src)
  frame : ∀ u ∈ s.G.nodes, ∀ v ∈ s.G.nodes, u ≠ Src → v ≠ Src →
    GD_dist' (s.ND_id u) (s.ND_id v) = GD_dist (s.ND_id u) (s.ND_id v)

omit [LinearOrder K] [IsStrictOrderedRing K] in
theorem start_ND_dist {nlist : List V} : (σ.start nlist D Src).ND_dist =
    update (fun v => if v ∈ nlist then D else σ.ND_dist v) Src 0 :=
  rfl

/-- A search returns, with an empty heap, and has written the row of its source. -/
theorem s1_spec {s : Scanned V K} (hlist : s.neato_nlist = s.G.nodes)
    (hid : Set.InjOn s.ND_id {v | v ∈ s.G.nodes}) (hSrc : Src ∈ s.G.nodes) (hi : σ.heap.Idle) :
    ∃ σ', s1 s σ Src = .ok σ' ∧ σ'.heap.Idle ∧ Row s Src σ.GD_dist σ'.GD_dist := by
  let σ1 := σ.start s.neato_nlist s.Initial_dist Src
  have hzero : σ1.ND_dist Src = 0 := by
    rw [start_ND_dist, update_self]
  have hfar : ∀ v ∈ s.G.nodes, v ≠ Src → σ1.ND_dist v = s.Initial_dist := fun v hv hne => by
    rw [start_ND_dist, update_of_ne hne, if_pos (hlist ▸ hv)]
  have hready1 : σ.heap.Ready σ1.ND_dist := hi.ready
  obtain ⟨h, hrun, hready, hmem⟩ := neato_enqueue_spec hready1 (hi.not_mem : ¬σ.heap.Mem Src)
  have hmem' : ∀ v, h.Mem v ↔ v = Src := fun v => by
    rw [hmem]
    exact or_iff_left hi.not_mem
  have hs : Searching s.G s.Initial_dist Src [] (Joins s.G) { σ1 with heap := h } := by
    refine ⟨hready, nodup_nil, nofun, fun v hv => ?_,
      .inr ⟨rfl, (hmem' Src).2 rfl, fun v hv => ?_⟩, fun v hv => ?_, nofun, fun v hv => ?_,
      fun v hv _ hnot => ?_, nofun⟩
    · rw [(hmem' v).1 hv]
      exact ⟨hSrc, not_mem_nil⟩
    · rw [(hmem' v).1 hv]
      exact ⟨rfl, hzero⟩
    · rw [(hmem' v).1 (hv.resolve_left not_mem_nil)]
      change Walk _ _ _ (σ1.ND_dist Src)
      rw [hzero]
      exact .nil
    · exact .inl ((hmem' v).1 (hv.resolve_left not_mem_nil))
    · exact hfar v hv fun heq => hnot ((hmem' v).2 heq)
  have hsp : Springs s.ND_id Src σ.GD_dist [] { σ1 with heap := h } :=
    ⟨nofun, fun _ _ _ => rfl⟩
  obtain ⟨σ', order, hrun', hs', hsp', hsize⟩ := s1Loop_spec (s.G.nodes.length + 1) hid hSrc hs hsp
    (by
      rw [length_nil]
      omega)
  have hidle := hs'.ready.idle hsize
  have hsource : Src ∈ order := hs'.source.resolve_right fun hnil => hidle.not_mem hnil.2.1
  have hnot : ∀ v ∈ s.G.nodes, v ∉ order → ∀ u ∈ order, u ≠ Src → v ≠ Src →
      s.ND_id v ≠ s.ND_id u ∧ s.ND_id v ≠ s.ND_id Src := fun v hv hout u hu _ hne =>
    ⟨fun heq => hout (hid hv (hs'.nodes u hu) heq ▸ hu), fun heq => hne (hid hv hSrc heq)⟩
  refine ⟨σ', ?_, hidle, fun v hv hne => ?_, fun u hu v hv hus hvs => ?_⟩
  · rw [s1]
    change (neato_enqueue σ1.ND_dist σ.heap Src >>= _) = _
    rw [hrun]
    exact hrun'
  · obtain hin | hout := Decidable.em (v ∈ order)
    · exact .inl ⟨σ'.ND_dist v, (hs'.low v (.inl hin)).resolve_left hne,
        ⟨hs'.walk v (.inl hin), hs'.nearest v hin⟩, hsp'.set v hin hne⟩
    · refine .inr ⟨nearest_of_frontier Joins.nonneg hsource hs'.nearest
        (fun u hu w c hj hw => ?_) hout, ?_, ?_⟩
      · rw [← hs'.far w hj.mem hw hidle.not_mem]
        exact hs'.frontier u hu w c hj
      · refine hsp'.frame _ _ fun u hu hus hor => ?_
        exact hor.elim (fun h => (hnot v hv hout u hu hus hne).1 h.2)
          fun h => (hnot v hv hout u hu hus hne).2 h.2
      · refine hsp'.frame _ _ fun u hu hus hor => ?_
        exact hor.elim (fun h => (hnot v hv hout u hu hus hne).2 h.1)
          fun h => (hnot v hv hout u hu hus hne).1 h.1
  · refine hsp'.frame _ _ fun w hw hws hor => ?_
    obtain ⟨heq, -⟩ | ⟨-, heq⟩ := hor
    · exact hus (hid hu hSrc heq)
    · exact hvs (hid hv hSrc heq)

end Graphviz.Spring

/-!
## The matrix of the spring model has the distances

After all searches every entry is the distance of its nodes if that is less than the default, and
the default else. So the matrix is right exactly when no two nodes are farther apart than the
default, which is the mean length of the edges times the root of the number of the nodes, plus one.
-/

namespace Graphviz.Spring

open List Outcome ShortestPath

variable {V K : Type} [DecidableEq V] [Field K] [LinearOrder K] {s : Scanned V K} {u v Src : V}
  {d : K} {pre nodes : List V} {GD_dist GD_dist' : ℕ → ℕ → K} {G : graph_t V K}

/-! ## The default -/

/-- The mean length of the edges times the root of the number of the nodes, plus one. -/
def meanBound (sqrt : K → K) (G : graph_t V K) : K :=
  (G.edges.map ED_dist).sum / (max 1 G.edges.length : ℕ) * sqrt G.nodes.length + 1

omit [LinearOrder K] in
theorem foldl_add {α : Type} (f : α → K) (l : List α) (x : K) :
    l.foldl (fun acc a => acc + f a) x = x + (l.map f).sum := by
  induction l generalizing x with
  | nil => exact (add_zero x).symm
  | cons a l ih => rw [foldl_cons, ih, map_cons, sum_cons, add_assoc]

/-- Every edge leaves one of the nodes. -/
theorem sum_outEdges (es : List (edge_t V K)) (hnodup : nodes.Nodup)
    (hes : ∀ e ∈ es, e.agtail ∈ nodes) :
    (nodes.map fun n => ((es.filter fun e => e.agtail = n).map ED_dist).sum).sum =
      (es.map ED_dist).sum := by
  induction es with
  | nil => simp
  | cons e es ih =>
    have hsplit : ∀ n, (((e :: es).filter fun e => e.agtail = n).map ED_dist).sum =
        (if e.agtail = n then ED_dist e else 0) +
          ((es.filter fun e => e.agtail = n).map ED_dist).sum := fun n => by
      obtain heq | hne := eq_or_ne e.agtail n
      · rw [filter_cons, if_pos (decide_eq_true heq), map_cons, sum_cons, if_pos heq]
      · rw [filter_cons, if_neg (mt of_decide_eq_true hne), if_neg hne, zero_add]
    have hone : (nodes.map fun n => if e.agtail = n then ED_dist e else 0).sum = ED_dist e := by
      rw [← List.sum_toFinset _ hnodup, Finset.sum_ite_eq,
        if_pos (mem_toFinset.2 (hes e mem_cons_self))]
    simp only [hsplit]
    rw [sum_map_add, hone, ih fun e' he' => hes e' (mem_cons_of_mem _ he'),
      map_cons, sum_cons]

theorem initialDist_none (sqrt : K → K) (Epsilon : K) (G : graph_t V K) :
    initialDist sqrt Epsilon none G = meanBound sqrt G := by
  have hlen : ∀ np, setEdgeLen G np = ((outEdges G np).map ED_dist).sum := fun np => by
    rw [setEdgeLen, foldl_add, zero_add]
  have hmax : (if 0 < G.edges.length then G.edges.length else 1) = max 1 G.edges.length := by
    split <;> omega
  rw [initialDist, meanBound, hmax, foldl_add, zero_add]
  rw [map_congr_left fun np _ => hlen np]
  exact congrArg (fun x => x / _ * _ + 1)
    (sum_outEdges G.edges G.nodup fun e he => (G.ends e he).1)

/-! ## All searches -/

/-- The entry is the distance if that is less than the default, and the default else. -/
def Capped (s : Scanned V K) (u v : V) (d : K) : Prop :=
  d < s.Initial_dist ∧ Shortest (Joins s.G) u v d ∨
    d = s.Initial_dist ∧ Nearest (Joins s.G) u v s.Initial_dist

/-- The matrix after the searches from some nodes. -/
structure Filled (s : Scanned V K) (pre : List V) (GD_dist : ℕ → ℕ → K) : Prop where
  entry : ∀ u ∈ s.G.nodes, ∀ v ∈ s.G.nodes, u ≠ v →
    GD_dist (s.ND_id u) (s.ND_id v) = s.Initial_dist ∨
      Capped s u v (GD_dist (s.ND_id u) (s.ND_id v))
  done : ∀ u ∈ s.G.nodes, ∀ v ∈ s.G.nodes, u ≠ v → u ∈ pre ∨ v ∈ pre →
    Capped s u v (GD_dist (s.ND_id u) (s.ND_id v))

omit [DecidableEq V] in
theorem nearest_symm (h : Nearest (Joins G) u v d) : Nearest (Joins G) v u d :=
  fun x hx => h x (hx.reverse fun _ _ _ => Joins.symm)

omit [DecidableEq V] in
theorem Capped.symm (h : Capped s u v d) : Capped s v u d := by
  obtain ⟨hlt, hwalk, hnear⟩ | ⟨heq, hnear⟩ := h
  · exact .inl ⟨hlt, hwalk.reverse fun _ _ _ => Joins.symm, nearest_symm hnear⟩
  · exact .inr ⟨heq, nearest_symm hnear⟩

omit [DecidableEq V] in
theorem Capped.of_entry (hnear : Nearest (Joins s.G) u v s.Initial_dist)
    (h : d = s.Initial_dist ∨ Capped s u v d) : Capped s u v d :=
  h.elim (fun heq => .inr ⟨heq, hnear⟩) id

/-- One more search. -/
theorem Filled.row (hf : Filled s pre GD_dist) (hrow : Row s Src GD_dist GD_dist')
    (hSrc : Src ∈ s.G.nodes) : Filled s (pre ++ [Src]) GD_dist' := by
  have hsource : ∀ v ∈ s.G.nodes, v ≠ Src →
      Capped s Src v (GD_dist' (s.ND_id Src) (s.ND_id v)) ∧
        Capped s v Src (GD_dist' (s.ND_id v) (s.ND_id Src)) := by
    intro v hv hne
    obtain ⟨d, hlt, hshort, hto, hfrom⟩ | ⟨hnear, hto, hfrom⟩ := hrow.found v hv hne
    · have hcap : Capped s Src v d := .inl ⟨hlt, hshort⟩
      rw [hto, hfrom]
      exact ⟨hcap, hcap.symm⟩
    · rw [hto, hfrom]
      exact ⟨.of_entry hnear (hf.entry Src hSrc v hv hne.symm),
        .of_entry (nearest_symm hnear) (hf.entry v hv Src hSrc hne)⟩
  constructor
  · intro u hu v hv hne
    obtain rfl | hus := eq_or_ne u Src
    · exact .inr (hsource v hv hne.symm).1
    obtain rfl | hvs := eq_or_ne v Src
    · exact .inr (hsource u hu hne).2
    · rw [hrow.frame u hu v hv hus hvs]
      exact hf.entry u hu v hv hne
  · intro u hu v hv hne hdone
    obtain rfl | hus := eq_or_ne u Src
    · exact (hsource v hv hne.symm).1
    obtain rfl | hvs := eq_or_ne v Src
    · exact (hsource u hu hne).2
    · rw [hrow.frame u hu v hv hus hvs]
      refine hf.done u hu v hv hne (hdone.imp ?_ ?_)
      · exact fun hin => (mem_append.1 hin).resolve_right (mt mem_singleton.1 hus)
      · exact fun hin => (mem_append.1 hin).resolve_right (mt mem_singleton.1 hvs)

variable [IsStrictOrderedRing K]

/-- The searches return, each with an empty heap. -/
theorem runs_spec {σ : Search V K} (hlist : s.neato_nlist = s.G.nodes)
    (hid : Set.InjOn s.ND_id {v | v ∈ s.G.nodes}) (hi : σ.heap.Idle) (hf : Filled s pre σ.GD_dist)
    (hnodes : ∀ v ∈ nodes, v ∈ s.G.nodes) :
    ∃ σ', nodes.foldlM (s1 s) σ = .ok σ' ∧ σ'.heap.Idle ∧ Filled s (pre ++ nodes) σ'.GD_dist := by
  induction nodes generalizing σ pre with
  | nil =>
    rw [append_nil]
    exact ⟨σ, rfl, hi, hf⟩
  | cons v nodes ih =>
    obtain ⟨σ1, hrun, hi1, hrow⟩ := s1_spec hlist hid (hnodes v mem_cons_self) hi
    obtain ⟨σ', hrun', hi', hf'⟩ := ih hi1 (hf.row hrow (hnodes v mem_cons_self))
      fun u hu => hnodes u (mem_cons_of_mem _ hu)
    rw [append_assoc, singleton_append] at hf'
    refine ⟨σ', ?_, hi', hf'⟩
    rw [foldlM_cons, hrun]
    exact hrun'

/-- The matrix has the distances of all nodes, and every search leaves the heap without nodes. -/
structure SpringDistances [Inhabited V] (s : Scanned V K) : Prop where
  distances : ∃ σ, shortest_path s = .ok σ ∧ ∀ u ∈ s.G.nodes, ∀ v ∈ s.G.nodes, u ≠ v →
    Shortest (Joins s.G) u v (σ.GD_dist (s.ND_id u) (s.ND_id v))
  heapindex : ∀ pre, pre <+: s.G.nodes → ∃ σ, searches s pre = .ok σ ∧
    ∀ v, σ.heap.ND_heapindex v = -1

/-- No two nodes are farther apart than this. -/
def Within (G : graph_t V K) (bound : K) : Prop :=
  ∀ u ∈ G.nodes, ∀ v ∈ G.nodes, u ≠ v → ∃ x ≤ bound, Walk (Joins G) u v x

omit [IsStrictOrderedRing K] in
theorem scan_graph_mode_kk (sqrt : K → K) (Epsilon : K) (Reduce : Bool) (G : graph_t V K) :
    ∃ s, scan_graph_mode sqrt Epsilon none Reduce G .MODE_KK = .ok s ∧
      s.neato_nlist = s.G.nodes ∧ s.ND_id = (fun v => s.G.nodes.idxOf v) ∧
      s.ND_heapindex = (fun _ => -1) ∧ s.Initial_dist = meanBound sqrt s.G ∧
      s.GD_dist = some fun _ _ => s.Initial_dist := by
  cases Reduce with
  | false => exact ⟨_, rfl, rfl, rfl, rfl, initialDist_none sqrt Epsilon G, rfl⟩
  | true =>
    obtain ⟨g, hrun, -⟩ := reduce_spec G
    rw [scan_graph_mode, if_pos rfl, hrun, ok_bind]
    exact ⟨_, rfl, rfl, rfl, rfl, initialDist_none sqrt Epsilon g, rfl⟩

/-- The searches over the nodes from the start. -/
theorem searches_spec [Inhabited V] (hlist : s.neato_nlist = s.G.nodes)
    (hid : s.ND_id = fun v => s.G.nodes.idxOf v) (hidx : s.ND_heapindex = fun _ => -1)
    (hdist : s.GD_dist = some fun _ _ => s.Initial_dist) (hpre : pre <+: s.G.nodes) :
    ∃ σ, searches s pre = .ok σ ∧ σ.heap.Idle ∧ Filled s pre σ.GD_dist := by
  have hinj : Set.InjOn s.ND_id {v | v ∈ s.G.nodes} := by
    intro u hu v _ heq
    rw [hid] at heq
    exact (List.idxOf_inj hu).1 heq
  rw [searches, hdist]
  refine @runs_spec _ _ _ _ _ s [] pre _ _ hlist hinj ⟨rfl, fun v => congrFun hidx v⟩ ?_ hpre.subset
  exact ⟨fun u _ v _ _ => .inl rfl, fun u _ v _ _ hdone => hdone.elim nofun nofun⟩

/-- The matrix is right exactly when no two nodes are farther apart than the default. -/
theorem springDistances_iff_within [Inhabited V] (hlist : s.neato_nlist = s.G.nodes)
    (hid : s.ND_id = fun v => s.G.nodes.idxOf v) (hidx : s.ND_heapindex = fun _ => -1)
    (hdist : s.GD_dist = some fun _ _ => s.Initial_dist) :
    SpringDistances s ↔ Within s.G s.Initial_dist := by
  obtain ⟨σ, hrun, -, hf⟩ := searches_spec hlist hid hidx hdist (prefix_refl s.G.nodes)
  constructor
  · rintro ⟨⟨σ', hrun', hall⟩, -⟩ u hu v hv hne
    obtain rfl : σ = σ' := Except.ok.inj (hrun.symm.trans hrun')
    have hshort := hall u hu v hv hne
    refine ⟨_, ?_, hshort.1⟩
    obtain ⟨hlt, -⟩ | ⟨heq, -⟩ := hf.done u hu v hv hne (.inl hu)
    · exact hlt.le
    · exact heq.le
  · intro hwithin
    refine ⟨⟨σ, hrun, fun u hu v hv hne => ?_⟩, fun pre hpre => ?_⟩
    · obtain ⟨-, hshort⟩ | ⟨heq, hnear⟩ := hf.done u hu v hv hne (.inl hu)
      · exact hshort
      · -- a walk that is not longer than the default has the length of the default
        obtain ⟨x, hle, hwalk⟩ := hwithin u hu v hv hne
        rw [heq]
        exact ⟨le_antisymm (hnear x hwalk) hle ▸ hwalk, hnear⟩
    · obtain ⟨σ', hrun', hi, -⟩ := searches_spec hlist hid hidx hdist hpre
      exact ⟨σ', hrun', hi.out⟩

/-- Without a default of the user the matrix is right exactly when no two nodes are farther apart
than the mean length of the edges times the root of the number of the nodes, plus one. -/
theorem springDistances_iff [Inhabited V] (sqrt : K → K) (Epsilon : K) (Reduce : Bool)
    (G : graph_t V K) :
    ∃ s, scan_graph_mode sqrt Epsilon none Reduce G .MODE_KK = .ok s ∧
      (SpringDistances s ↔ Within s.G (meanBound sqrt s.G)) := by
  obtain ⟨s, hrun, hlist, hid, hidx, hinit, hdist⟩ :=
    scan_graph_mode_kk sqrt Epsilon Reduce G
  exact ⟨s, hrun, hinit ▸ springDistances_iff_within hlist hid hidx hdist⟩

/-! ## A path that is too long -/

attribute [local instance] Instances.neZero_four

/-- Four nodes in a row, with edges of length two. -/
def longPath : graph_t (Fin 4) ℚ where
  nodes := [0, 1, 2, 3]
  edges := [⟨0, 1, some 2⟩, ⟨1, 2, some 2⟩, ⟨2, 3, some 2⟩]
  nodup := by decide
  ends := by decide

/-- The condition decides about the path in a row, whether it holds there or not. -/
theorem springDistances_iff_row :
    ∃ s, scan_graph_mode (fun x => x / 2) (1 / 10000) none false longPath .MODE_KK = .ok s ∧
      (SpringDistances s ↔ Within s.G (meanBound (fun x => x / 2) s.G)) :=
  springDistances_iff (fun x => x / 2) (1 / 10000) false longPath

/-- The graph is connected. -/
def Connected (G : graph_t V K) : Prop :=
  ∀ u ∈ G.nodes, ∀ v ∈ G.nodes, ∃ x, Walk (Joins G) u v x

theorem longPath_step {u v : Fin 4} {c : ℚ} (hj : Joins longPath u v c) :
    c = 2 ∧ (v : ℕ) ≤ u + 1 := by
  obtain ⟨e, he, hends, rfl⟩ := hj
  have hlen : ∀ e ∈ longPath.edges, ED_dist e = 2 := by decide +kernel
  have hstep : ∀ e ∈ longPath.edges, ∀ u v, e.agtail = u ∧ e.aghead = v ∨
      e.agtail = v ∧ e.aghead = u → (v : ℕ) ≤ u + 1 := by decide
  exact ⟨hlen e he, hstep e he u v hends⟩

theorem longPath_walk {v : Fin 4} {x : ℚ} (h : Walk (Joins longPath) 0 v x) : 2 * (v : ℕ) ≤ x := by
  induction h with
  | nil => norm_num
  | @snoc u v x c _ hj ih =>
    obtain ⟨rfl, hle⟩ := longPath_step hj
    have hle' : ((v : ℕ) : ℚ) ≤ (u : ℕ) + 1 := mod_cast hle
    linarith

theorem longPath_connected : Connected longPath := by
  have hjoins : ∀ e ∈ longPath.edges, Joins longPath e.agtail e.aghead (ED_dist e) :=
    fun e he => ⟨e, he, .inl ⟨rfl, rfl⟩, rfl⟩
  have hone := (Walk.nil (w := Joins longPath)).snoc (hjoins ⟨0, 1, some 2⟩ (by decide))
  have htwo := hone.snoc (hjoins ⟨1, 2, some 2⟩ (by decide))
  have hthree := htwo.snoc (hjoins ⟨2, 3, some 2⟩ (by decide))
  have hfrom : ∀ v, ∃ x, Walk (Joins longPath) 0 v x
    | 0 => ⟨_, .nil⟩
    | 1 => ⟨_, hone⟩
    | 2 => ⟨_, htwo⟩
    | 3 => ⟨_, hthree⟩
  intro u _ v _
  obtain ⟨x, hx⟩ := hfrom u
  obtain ⟨y, hy⟩ := hfrom v
  have hback : Walk (Joins longPath) u 0 x := hx.reverse fun _ _ _ => Joins.symm
  exact ⟨_, hback.trans hy⟩

/-- The ends of the path are farther apart than the default; the root of four is two. -/
theorem springDistances_longPath :
    Connected longPath ∧ (∀ e ∈ longPath.edges, ∃ len, e.len = some len ∧ 0 < len) ∧
      ∃ s, scan_graph_mode (fun x => x / 2) (1 / 10000) none false longPath .MODE_KK = .ok s ∧
        ¬SpringDistances s := by
  refine ⟨longPath_connected, by decide, _, rfl, ?_⟩
  have hinit : initialDist (fun x => x / 2) (1 / 10000) none longPath = 5 := by decide +kernel
  rw [springDistances_iff_within rfl rfl rfl rfl]
  intro hwithin
  obtain ⟨x, hle, hwalk⟩ := hwithin 0 (by decide) 3 (by decide) (by decide)
  change x ≤ initialDist (fun x => x / 2) (1 / 10000) none longPath at hle
  rw [hinit] at hle
  have hx : 2 * (((3 : Fin 4) : ℕ) : ℚ) ≤ x := longPath_walk hwalk
  have hthree : (((3 : Fin 4) : ℕ) : ℚ) = 3 := rfl
  linarith

end Graphviz.Spring
