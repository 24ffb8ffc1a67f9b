import Graphviz.Library.Instances
import Graphviz.Library.ShortestPath
import Graphviz.Ortho.FPQ

/-!
# Shortest paths in a search graph (`ortho/sgraph.c`)

`shortPath` searches from a node in the order of the distances. `N_VAL` is `UNSEEN` for a node that
the search has not met, the distance with its sign changed for a node in the queue, and the distance
for a node that has left it; a node at distance zero has the value `0` on both sides of that. Each
step of the loops is a step of a machine, so that what holds throughout is an invariant of its runs.
-/

namespace Graphviz.Ortho

open Function List Nat Outcome ShortestPath

variable {n m : ℕ}

/-- A search graph with weights that are integers: the edges, and the edges at each node. -/
structure sgraph (n m : ℕ) where
  v1 : Fin m → Fin n
  v2 : Fin m → Fin n
  weight : Fin m → ℕ
  adj_edge_list : Fin n → List (Fin m)
  incident : ∀ u e, e ∈ adj_edge_list u ↔ v1 e = u ∨ v2 e = u

/-- `UNSEEN`, which is `INT_MIN`. -/
def UNSEEN : ℤ := -2 ^ 31

/-- `INT_MAX`. -/
def INT_MAX : ℕ := 2 ^ 31 - 1

/-- A value for an `int`; there is no behaviour for one that does not fit. -/
def intOf (x : ℤ) : Except Fault ℤ :=
  if -2 ^ 31 ≤ x ∧ x < 2 ^ 31 then .ok x else .error .abort

/-- `adjacentNode`. -/
def adjacentNode (g : sgraph n m) (e : Fin m) (u : Fin n) : Fin n :=
  if g.v1 e = u then g.v2 e else g.v1 e

/-- Where `shortPath` is: at the condition of its loop, at an edge of a node, or at its return. -/
inductive Pc (n : ℕ) where
  | loop
  | scan (x : Fin n) (y : ℕ)
  | ret (code : ℕ)

/-- A state of `shortPath`. -/
structure Run (n m : ℕ) where
  pc : Pc n
  mem : Mem n m

/-- `N_DAD` and `N_EDGE` of a node are set. -/
def Mem.setDad (s : Mem n m) (v u : Fin n) (e : Fin m) : Mem n m :=
  { s with n_dad := update s.n_dad v (some u), n_edge := update s.n_edge v (some e) }

/-- The part of `shortPath` before its loop. -/
def start (s : Mem n m) (source : Fin n) : Except Fault (Run n m) := do
  let (ret, s) ← PQ_insert (PQinit { s with n_val := fun _ => UNSEEN }) source
  if ret ≠ 0 then .ok ⟨.ret 1, s⟩
  else
    .ok ⟨.loop, { s with
      n_dad := update s.n_dad source none, n_val := update s.n_val source 0 }⟩

/-- The body of the inner loop, for the edge `e` of `x` at position `y`. -/
def scanEdge (g : sgraph n m) (x : Fin n) (y : ℕ) (e : Fin m) (s : Mem n m) :
    Except Fault (Run n m) :=
  let adjn := adjacentNode g e x
  if s.n_val adjn < 0 then do
    let d ← intOf (-(s.n_val x + g.weight e))
    if s.n_val adjn = UNSEEN then do
      let (ret, s) ← PQ_insert { s with n_val := update s.n_val adjn d } adjn
      if ret ≠ 0 then .ok ⟨.ret 1, s⟩
      else .ok ⟨.scan x (y + 1), s.setDad adjn x e⟩
    else if s.n_val adjn < d then do
      let s ← PQupdate s adjn d
      .ok ⟨.scan x (y + 1), s.setDad adjn x e⟩
    else .ok ⟨.scan x (y + 1), s⟩
  else .ok ⟨.scan x (y + 1), s⟩

/-- A step of `shortPath` on the way to the node `target`. -/
def step (g : sgraph n m) (target : Fin n) (r : Run n m) : Except Fault (Run n m) :=
  match r.pc with
  | .loop => do
    let (x, s) ← PQremove r.mem
    match x with
    | none => .ok ⟨.ret 0, s⟩
    | some x => do
      let v ← intOf (s.n_val x * -1)
      let s := { s with n_val := update s.n_val x v }
      if x = target then .ok ⟨.ret 0, s⟩ else .ok ⟨.scan x 0, s⟩
  | .scan x y =>
    match (g.adj_edge_list x)[y]? with
    | none => .ok ⟨.loop, r.mem⟩
    | some e => scanEdge g x y e r.mem
  | .ret _ => .ok r

/-- `shortPath` after its first steps, from any contents of the memory. -/
def shortPath (g : sgraph n m) (s : Mem n m) (source target : Fin n) : ℕ → Except Fault (Run n m)
  | 0 => start s source
  | k + 1 => shortPath g s source target k >>= step g target

/-! ## Paths -/

/-- The edge joins the two nodes. -/
def sgraph.Joins (g : sgraph n m) (e : Fin m) (u v : Fin n) : Prop :=
  g.v1 e = u ∧ g.v2 e = v ∨ g.v1 e = v ∧ g.v2 e = u

/-- The sum of the weights of edges. -/
def sgraph.length (g : sgraph n m) (es : List (Fin m)) : ℕ :=
  (es.map g.weight).sum

/-- The paths from a node, each with its edges and its nodes from its end on. -/
inductive sgraph.Path (g : sgraph n m) (source : Fin n) : Fin n → List (Fin m) → List (Fin n) → Prop
  | nil : Path g source source [] [source]
  | snoc {u v : Fin n} {e : Fin m} {es : List (Fin m)} {vs : List (Fin n)}
      (h : Path g source u es vs) (he : g.Joins e u v) : Path g source v (e :: es) (v :: vs)

/-- The chain of `N_DAD` from a node to the source, with the edges of `N_EDGE` and the nodes. -/
inductive Chain (g : sgraph n m) (s : Mem n m) (source : Fin n) :
    Fin n → List (Fin m) → List (Fin n) → Prop
  | nil (h : s.n_dad source = none) : Chain g s source source [] [source]
  | cons {u v : Fin n} {e : Fin m} {es : List (Fin m)} {vs : List (Fin n)}
      (hdad : s.n_dad v = some u) (hedge : s.n_edge v = some e) (he : g.Joins e u v)
      (h : Chain g s source u es vs) : Chain g s source v (e :: es) (v :: vs)

/-- The weights of the edges between two nodes. -/
def sgraph.edgeWeight (g : sgraph n m) (u v : Fin n) (c : ℤ) : Prop :=
  ∃ e, g.Joins e u v ∧ c = g.weight e

variable {g : sgraph n m} {s s' : Mem n m} {source target u v x : Fin n} {e : Fin m}
  {es : List (Fin m)} {vs : List (Fin n)} {y : ℕ}

theorem Chain.path (h : Chain g s source v es vs) : g.Path source v es vs := by
  induction h with
  | nil _ => exact .nil
  | cons _ _ he _ ih => exact .snoc ih he

/-- A chain stays as long as its nodes keep what they have. -/
theorem Chain.congr (h : Chain g s source v es vs)
    (heq : ∀ u ∈ vs, s'.n_dad u = s.n_dad u ∧ s'.n_edge u = s.n_edge u) :
    Chain g s' source v es vs := by
  induction h with
  | nil h => exact .nil ((heq _ mem_cons_self).1.trans h)
  | cons hdad hedge he _ ih =>
    obtain ⟨hdad', hedge'⟩ := heq _ mem_cons_self
    exact .cons (hdad'.trans hdad) (hedge'.trans hedge) he
      (ih fun u hu => heq u (mem_cons_of_mem _ hu))

theorem length_cons : g.length (e :: es) = g.weight e + g.length es := rfl

theorem sgraph.Path.walk (h : g.Path source v es vs) :
    Walk g.edgeWeight source v (g.length es : ℤ) := by
  induction h with
  | nil => exact .nil
  | @snoc u v e es vs h he ih =>
    have hwalk := Walk.snoc ih ⟨e, he, rfl⟩
    rwa [← cast_add, add_comm, ← length_cons] at hwalk

theorem edgeWeight_nonneg (g : sgraph n m) : ∀ u v c, g.edgeWeight u v c → 0 ≤ c := by
  rintro u v c ⟨e, -, rfl⟩
  exact Int.natCast_nonneg _

theorem joins_adjacentNode (he : e ∈ g.adj_edge_list u) : g.Joins e u (adjacentNode g e u) := by
  rw [adjacentNode]
  split
  next h => exact .inl ⟨h, rfl⟩
  next h => exact .inr ⟨rfl, ((g.incident u e).1 he).resolve_left h⟩

theorem adjacentNode_of_joins (he : g.Joins e u v) : adjacentNode g e u = v := by
  rw [adjacentNode]
  obtain ⟨h1, h2⟩ | ⟨h1, h2⟩ := he
  · rw [if_pos h1, h2]
  · split
    next h => rw [h2, ← h, h1]
    next => exact h1

theorem mem_adj_of_joins (he : g.Joins e u v) : e ∈ g.adj_edge_list u :=
  (g.incident u e).2 (he.imp And.left And.right)

end Graphviz.Ortho

/-!
## The invariant of `shortPath`

The nodes that have left the queue have their distances and chains to the source, the nodes in the
queue have the nearest of the ways that lead to them from the others, and the value of a node says
which it is but for a zero.
-/

namespace Graphviz.Ortho

open Function List Outcome ShortestPath

variable {n m : ℕ} {g : sgraph n m} {s s' : Mem n m} {source target u v x : Fin n} {e : Fin m}
  {es : List (Fin m)} {vs : List (Fin n)} {y : ℕ} {S Q : Fin n → Prop}
  {scanned : Fin n → Fin m → Prop}

/-- What the search knows of a node: a chain to the source through nodes that have left the queue,
and that no other way is shorter. -/
structure Settled (g : sgraph n m) (s : Mem n m) (source : Fin n) (S : Fin n → Prop) (v : Fin n) :
    Prop where
  nearest : Nearest g.edgeWeight source v (s.n_val v)
  chain : ∃ es vs, Chain g s source v es vs ∧ vs.Nodup ∧ (∀ u ∈ vs, S u) ∧ s.n_val v = g.length es

/-- What a node in the queue has: an edge from a node that has left it. -/
def Queued (g : sgraph n m) (s : Mem n m) (S : Fin n → Prop) (v : Fin n) : Prop :=
  ∃ u e, S u ∧ g.Joins e u v ∧ s.n_dad v = some u ∧ s.n_edge v = some e ∧
    s.n_val v = -(s.n_val u + g.weight e)

/-- The invariant: the nodes `S` have left the queue, which holds `Q`, and of the edges of the
former some are scanned. -/
structure Searching (g : sgraph n m) (source : Fin n) (s : Mem n m) (S Q : Fin n → Prop)
    (scanned : Fin n → Fin m → Prop) : Prop where
  room : n ≤ s.size
  queue : Queue s Q
  disjoint : ∀ v, S v → ¬Q v
  unseen : ∀ v, s.n_val v = UNSEEN ↔ ¬S v ∧ ¬Q v
  nonpos : ∀ v, Q v → s.n_val v ≤ 0
  settled : ∀ v, S v → Settled g s source S v
  queued : ∀ v, Q v → v = source ∧ s.n_val v = 0 ∧ s.n_dad v = none ∨ Queued g s S v
  frontier : ∀ u e v, S u → scanned u e → g.Joins e u v →
    S v ∨ Q v ∧ -s.n_val v ≤ s.n_val u + g.weight e
  first : S source ∨ Q source ∧ ∀ u, ¬S u

theorem Settled.nonneg (h : Settled g s source S v) : 0 ≤ s.n_val v := by
  obtain ⟨es, vs, -, -, -, heq⟩ := h.chain
  exact heq ▸ Int.natCast_nonneg _

/-- What concerns a node that has left the queue stays, as long as the others like it keep what they
have. -/
theorem Settled.congr {S' : Fin n → Prop} (h : Settled g s source S v) (hv : S v)
    (hsub : ∀ u, S u → S' u)
    (heq : ∀ u, S u → s'.n_val u = s.n_val u ∧ s'.n_dad u = s.n_dad u ∧ s'.n_edge u = s.n_edge u) :
    Settled g s' source S' v := by
  obtain ⟨es, vs, hchain, hnodup, hall, hval⟩ := h.chain
  refine ⟨(heq v hv).1 ▸ h.nearest, es, vs, hchain.congr fun u hu => (heq u (hall u hu)).2, hnodup,
    fun u hu => hsub u (hall u hu), (heq v hv).1.trans hval⟩

theorem Queued.congr {S' : Fin n → Prop} (h : Queued g s S v) (hsub : ∀ u, S u → S' u)
    (hval : ∀ u, S u → s'.n_val u = s.n_val u)
    (hv : s'.n_val v = s.n_val v ∧ s'.n_dad v = s.n_dad v ∧ s'.n_edge v = s.n_edge v) :
    Queued g s' S' v := by
  obtain ⟨u, e, hu, he, hdad, hedge, heq⟩ := h
  exact ⟨u, e, hsub u hu, he, hv.2.1.trans hdad, hv.2.2.trans hedge, by rw [hv.1, hval u hu, heq]⟩

/-- No path without a node twice is too long for an `int`. -/
def ShortSums (g : sgraph n m) (source : Fin n) : Prop :=
  ∀ v es vs, g.Path source v es vs → vs.Nodup → g.length es < INT_MAX

/-- A way over an edge to a node that has not left the queue is short enough. -/
theorem Searching.sum_lt (h : Searching g source s S Q scanned) (hsums : ShortSums g source)
    (hu : S u) (he : g.Joins e u v) (hv : ¬S v) : s.n_val u + g.weight e < INT_MAX := by
  obtain ⟨es, vs, hchain, hnodup, hall, heq⟩ := (h.settled u hu).chain
  have hlt := hsums v (e :: es) (v :: vs) (.snoc hchain.path he)
    (nodup_cons.2 ⟨fun hmem => hv (hall v hmem), hnodup⟩)
  rw [length_cons] at hlt
  omega

/-! ## Leaving the queue -/

/-- As long as no node has left the queue, the source is alone in it. -/
theorem Searching.eq_source (h : Searching g source s S Q scanned) (hx : Q x) (hS : ∀ u, ¬S u) :
    x = source ∧ s.n_val x = 0 ∧ s.n_dad x = none := by
  obtain hsource | ⟨u, -, hu, -⟩ := h.queued x hx
  · exact hsource
  · exact absurd hu (hS u)

/-- The node with the largest value is nearest at its distance. -/
theorem Searching.nearest (h : Searching g source s S Q fun _ _ => True) (hx : Q x)
    (hmax : ∀ v, Q v → s.n_val v ≤ s.n_val x) : Nearest g.edgeWeight source x (-s.n_val x) := by
  have hw := edgeWeight_nonneg g
  obtain hsource | ⟨-, hS⟩ := h.first
  · have hSx : ¬S x := fun hS => h.disjoint x hS hx
    refine nearest_of_frontier hw hsource (fun u hu => (h.settled u hu).nearest) ?_ hSx
    rintro u hu v c ⟨e, he, rfl⟩ hv
    obtain ⟨hQ, hle⟩ := (h.frontier u e v hu trivial he).resolve_left hv
    exact (neg_le_neg (hmax v hQ)).trans hle
  · obtain ⟨rfl, hval, -⟩ := h.eq_source hx hS
    rw [hval, neg_zero]
    exact nearest_source hw

/-- The node that leaves the queue has a chain to the source. -/
theorem Searching.settled_of_queued (h : Searching g source s S Q fun _ _ => True) (hx : Q x)
    (hmax : ∀ v, Q v → s.n_val v ≤ s.n_val x) (hsame : SameNodes s s') :
    Settled g { s' with n_val := update s'.n_val x (-s.n_val x) } source
      (fun v => v = x ∨ S v) x := by
  have hSx : ¬S x := fun hS => h.disjoint x hS hx
  have hself : update s'.n_val x (-s.n_val x) x = -s.n_val x := update_self _ _ _
  have hdad : s'.n_dad = s.n_dad := hsame.n_dad
  have hedge : s'.n_edge = s.n_edge := hsame.n_edge
  refine ⟨?_, ?_⟩
  · change Nearest g.edgeWeight source x (update s'.n_val x (-s.n_val x) x)
    rw [hself]
    exact h.nearest hx hmax
  · obtain ⟨rfl, hval, hnone⟩ | ⟨u, e, hu, he, hdad', hedge', hval⟩ := h.queued x hx
    · refine ⟨[], [x], .nil ?_, nodup_singleton x,
        fun u hu => .inl (mem_singleton.1 hu), ?_⟩
      · change s'.n_dad x = none
        rw [hdad, hnone]
      · change update s'.n_val x (-s.n_val x) x = 0
        rw [hself, hval, neg_zero]
    · obtain ⟨es, vs, hchain, hnodup, hall, heq⟩ := (h.settled u hu).chain
      refine ⟨e :: es, x :: vs, .cons (u := u) ?_ ?_ he (hchain.congr fun w _ => ?_),
        nodup_cons.2 ⟨fun hmem => hSx (hall x hmem), hnodup⟩, fun w hw => ?_, ?_⟩
      · change s'.n_dad x = some u
        rw [hdad, hdad']
      · change s'.n_edge x = some e
        rw [hedge, hedge']
      · exact ⟨congrFun hdad w, congrFun hedge w⟩
      · exact (mem_cons.1 hw).imp id (hall w)
      · change update s'.n_val x (-s.n_val x) x = _
        rw [hself, hval, neg_neg, heq, length_cons, Nat.cast_add, add_comm]

/-- The node with the largest value leaves the queue. -/
theorem Searching.settle (h : Searching g source s S Q fun _ _ => True) (hx : Q x)
    (hmax : ∀ v, Q v → s.n_val v ≤ s.n_val x) (hsame : SameNodes s s')
    (hq : Queue s' fun v => Q v ∧ v ≠ x) :
    Searching g source { s' with n_val := update s'.n_val x (-s.n_val x) } (fun v => v = x ∨ S v)
      (fun v => Q v ∧ v ≠ x) fun u _ => u ≠ x := by
  have hSx : ∀ v, S v → v ≠ x := fun v hv heq => h.disjoint v hv (heq ▸ hx)
  have hval : ∀ v, v ≠ x → update s'.n_val x (-s.n_val x) v = s.n_val v := fun v hv => by
    rw [update_of_ne hv, hsame.n_val]
  have hself : update s'.n_val x (-s.n_val x) x = -s.n_val x := update_self _ _ _
  have hsource : x = source ∨ S source := by
    obtain hsource | ⟨-, hS⟩ := h.first
    · exact .inr hsource
    · exact .inl (h.eq_source hx hS).1
  refine ⟨hsame.size.symm ▸ h.room, hq.congr rfl rfl rfl fun v hv => update_of_ne hv.2 _ _, ?_, ?_,
    fun v hv => ?_, ?_, ?_, ?_, .inl (hsource.imp Eq.symm id)⟩
  · rintro v (rfl | hv) ⟨hQ, hne⟩
    · exact hne rfl
    · exact h.disjoint v hv hQ
  · intro v
    change update s'.n_val x (-s.n_val x) v = UNSEEN ↔ _
    obtain rfl | hne := eq_or_ne v x
    · rw [hself]
      have hnonpos := h.nonpos v hx
      exact iff_of_false (by rw [UNSEEN]; omega) fun hnot => hnot.1 (.inl rfl)
    · rw [hval v hne, h.unseen v, or_iff_right hne, and_iff_left hne]
  · change update s'.n_val x (-s.n_val x) v ≤ 0
    rw [hval v hv.2]
    exact h.nonpos v hv.1
  · rintro v (rfl | hv)
    · exact h.settled_of_queued hx hmax hsame
    · exact (h.settled v hv).congr hv (fun _ => .inr) fun u hu =>
        ⟨hval u (hSx u hu), congrFun hsame.n_dad u, congrFun hsame.n_edge u⟩
  · rintro v ⟨hQ, hne⟩
    obtain ⟨rfl, -⟩ | hqueued := h.queued v hQ
    · obtain rfl | hS := hsource
      · exact absurd rfl hne
      · exact absurd hQ (h.disjoint v hS)
    · exact .inr (hqueued.congr (fun _ => .inr) (fun u hu => hval u (hSx u hu))
        ⟨hval v hne, congrFun hsame.n_dad v, congrFun hsame.n_edge v⟩)
  · rintro u e v hu hne he
    have hu : S u := hu.resolve_left hne
    change (v = x ∨ S v) ∨ (Q v ∧ v ≠ x) ∧ -update s'.n_val x (-s.n_val x) v ≤
      update s'.n_val x (-s.n_val x) u + g.weight e
    obtain rfl | hvx := eq_or_ne v x
    · exact .inl (.inl rfl)
    · rw [hval v hvx, hval u hne]
      exact (h.frontier u e v hu trivial he).imp .inr fun ⟨hQ, hle⟩ => ⟨⟨hQ, hvx⟩, hle⟩

/-! ## Scanning an edge -/

theorem Searching.source_mem (h : Searching g source s S Q scanned) (hu : S u) : S source :=
  h.first.resolve_right fun hS => hS.2 u hu

/-- An edge to a node that needs no change. -/
theorem Searching.keep (h : Searching g source s S Q scanned) (he : g.Joins e x v)
    (hv : S v ∨ Q v ∧ -s.n_val v ≤ s.n_val x + g.weight e) :
    Searching g source s S Q fun u e' => scanned u e' ∨ u = x ∧ e' = e := by
  refine { h with frontier := ?_ }
  rintro u e' w hu (hscanned | ⟨rfl, rfl⟩) hjoins
  · exact h.frontier u e' w hu hscanned hjoins
  · obtain rfl := (adjacentNode_of_joins hjoins).symm.trans (adjacentNode_of_joins he)
    exact hv

/-- An edge over which a node gets a shorter way, or its first one. -/
theorem Searching.relax (h : Searching g source s S Q scanned) (hsums : ShortSums g source)
    (hx : S x) (he : g.Joins e x v) (hv : ¬S v)
    (hle : Q v → s.n_val v ≤ -(s.n_val x + g.weight e)) (hsize : s'.size = s.size)
    (hval : s'.n_val = update s.n_val v (-(s.n_val x + g.weight e)))
    (hdad : s'.n_dad = update s.n_dad v (some x)) (hedge : s'.n_edge = update s.n_edge v (some e))
    (hq : Queue s' fun w => w = v ∨ Q w) :
    Searching g source s' S (fun w => w = v ∨ Q w) fun u e' => scanned u e' ∨ u = x ∧ e' = e := by
  have hlt := h.sum_lt hsums hx he hv
  have hnonneg := (h.settled x hx).nonneg
  have hself : s'.n_val v = -(s.n_val x + g.weight e) := by rw [hval, update_self]
  have hother : ∀ w, w ≠ v →
      s'.n_val w = s.n_val w ∧ s'.n_dad w = s.n_dad w ∧ s'.n_edge w = s.n_edge w := fun w hw => by
    rw [hval, hdad, hedge, update_of_ne hw, update_of_ne hw, update_of_ne hw]
    exact ⟨rfl, rfl, rfl⟩
  have hS : ∀ w, S w → w ≠ v := fun w hw heq => hv (heq ▸ hw)
  refine ⟨hsize.symm ▸ h.room, hq, ?_, fun w => ?_, ?_, fun w hw => ?_, ?_, ?_,
    .inl (h.source_mem hx)⟩
  · rintro w hw (rfl | hQ)
    · exact hv hw
    · exact h.disjoint w hw hQ
  · obtain rfl | hne := eq_or_ne w v
    · rw [hself]
      refine iff_of_false ?_ fun hnot => hnot.2 (.inl rfl)
      rw [UNSEEN]
      rw [INT_MAX] at hlt
      omega
    · rw [(hother w hne).1, h.unseen w, or_iff_right hne]
  · rintro w (rfl | hQ)
    · rw [hself]
      omega
    · obtain rfl | hne := eq_or_ne w v
      · rw [hself]
        omega
      · rw [(hother w hne).1]
        exact h.nonpos w hQ
  · exact (h.settled w hw).congr hw (fun _ => id) fun u hu => hother u (hS u hu)
  · intro w hw
    obtain rfl | hne := eq_or_ne w v
    · refine .inr ⟨x, e, hx, he, ?_, ?_, ?_⟩
      · rw [hdad, update_self]
      · rw [hedge, update_self]
      · rw [hself, (hother x (hS x hx)).1]
    · obtain ⟨hval', hdad', -⟩ := hother w hne
      refine (h.queued w (hw.resolve_left hne)).imp ?_ fun hqueued =>
        hqueued.congr (fun _ => id) (fun u hu => (hother u (hS u hu)).1) (hother w hne)
      rintro ⟨hsource, hzero, hnone⟩
      exact ⟨hsource, hval'.trans hzero, hdad'.trans hnone⟩
  · rintro u e' w hu hscanned hjoins
    rw [(hother u (hS u hu)).1]
    obtain hscanned | ⟨rfl, rfl⟩ := hscanned
    · refine (h.frontier u e' w hu hscanned hjoins).imp id fun ⟨hQ, hle'⟩ => ⟨.inr hQ, ?_⟩
      obtain rfl | hne := eq_or_ne w v
      · rw [hself]
        exact (neg_le_neg (hle hQ)).trans hle'
      · rw [(hother w hne).1]
        exact hle'
    · obtain rfl := (adjacentNode_of_joins hjoins).symm.trans (adjacentNode_of_joins he)
      refine .inr ⟨.inl rfl, ?_⟩
      rw [hself, neg_neg]

/-- The edges that are scanned when `shortPath` is at the edge of `x` at position `y`. -/
def Scanned (g : sgraph n m) (x : Fin n) (y : ℕ) (u : Fin n) (e : Fin m) : Prop :=
  u ≠ x ∨ e ∈ (g.adj_edge_list x).take y

theorem Searching.mono {scanned' : Fin n → Fin m → Prop} (h : Searching g source s S Q scanned)
    (hle : ∀ u e v, g.Joins e u v → scanned' u e → scanned u e) :
    Searching g source s S Q scanned' :=
  { h with frontier := fun u e v hu hs he => h.frontier u e v hu (hle u e v he hs) he }

theorem setDad_n_dad {dad : Fin n → Option (Fin n)} (h : s'.n_dad = dad) :
    (s'.setDad v x e).n_dad = update dad v (some x) := h ▸ rfl

theorem setDad_n_edge {edge : Fin n → Option (Fin m)} (h : s'.n_edge = edge) :
    (s'.setDad v x e).n_edge = update edge v (some e) := h ▸ rfl

/-- The body of the inner loop goes on to the next edge. -/
theorem scanEdge_spec (h : Searching g source s S Q (Scanned g x y)) (hsums : ShortSums g source)
    (hx : S x) (he : (g.adj_edge_list x)[y]? = some e) :
    ∃ s' Q', scanEdge g x y e s = .ok ⟨.scan x (y + 1), s'⟩ ∧
      Searching g source s' S Q' (Scanned g x (y + 1)) := by
  have hjoins := joins_adjacentNode (mem_of_getElem? he)
  have hscanned : ∀ u e' v, g.Joins e' u v → Scanned g x (y + 1) u e' →
      Scanned g x y u e' ∨ u = x ∧ e' = e := by
    rintro u e' v - (hne | hmem)
    · exact .inl (.inl hne)
    · rw [take_add_one, he, mem_append] at hmem
      obtain hmem | hmem := hmem
      · exact .inl (.inr hmem)
      · obtain rfl | hne := eq_or_ne u x
        · exact .inr ⟨rfl, mem_singleton.1 hmem⟩
        · exact .inl (.inl hne)
  have hnonneg := (h.settled x hx).nonneg
  rw [scanEdge]
  generalize adjacentNode g e x = v at *
  simp only
  split
  next hneg =>
    have hv : ¬S v := fun hS => absurd (h.settled v hS).nonneg (not_le.2 hneg)
    have hlt := h.sum_lt hsums hx hjoins hv
    have hint : intOf (-(s.n_val x + g.weight e)) = .ok (-(s.n_val x + g.weight e)) := by
      rw [INT_MAX] at hlt
      exact if_pos (by omega)
    rw [hint]
    simp only [ok_bind]
    split
    next hunseen =>
      have hQ : ¬Q v := ((h.unseen v).1 hunseen).2
      have hne : ∀ w, Q w → w ≠ v := fun w hw heq => hQ (heq ▸ hw)
      have hqueue : Queue { s with n_val := update s.n_val v (-(s.n_val x + g.weight e)) } Q :=
        h.queue.congr rfl rfl rfl fun w hw => update_of_ne (hne w hw) _ _
      obtain ⟨s', hs', hsame, -, hq⟩ := PQ_insert_spec hqueue hQ
        (show update s.n_val v (-(s.n_val x + g.weight e)) v ≤ 0 by rw [update_self]; omega)
        (lt_of_lt_of_le (h.queue.cnt_lt hQ) h.room)
      have hrelax : Searching g source (s'.setDad v x e) S (fun w => w = v ∨ Q w) _ :=
        h.relax hsums hx hjoins hv (fun hw => absurd hw hQ) hsame.size hsame.n_val
          (setDad_n_dad hsame.n_dad) (setDad_n_edge hsame.n_edge)
          (hq.congr rfl rfl rfl fun _ _ => rfl)
      rw [hs']
      exact ⟨s'.setDad v x e, _, rfl, hrelax.mono hscanned⟩
    next hseen =>
      have hQ : Q v := by
        by_contra hQ
        exact hseen ((h.unseen v).2 ⟨hv, hQ⟩)
      split
      next hless =>
        obtain ⟨s', hs', hsame, hq⟩ := PQupdate_spec h.queue hQ hless.le (by omega)
        have hiff : ∀ w, Q w ↔ w = v ∨ Q w := fun w =>
          ⟨.inr, fun hw => hw.elim (fun heq => heq ▸ hQ) id⟩
        have hq' : Queue (s'.setDad v x e) fun w => w = v ∨ Q w :=
          (hq.iff hiff).congr rfl rfl rfl fun _ _ => rfl
        have hrelax : Searching g source (s'.setDad v x e) S (fun w => w = v ∨ Q w) _ :=
          h.relax hsums hx hjoins hv (fun _ => hless.le) hsame.size hsame.n_val
            (setDad_n_dad hsame.n_dad) (setDad_n_edge hsame.n_edge) hq'
        rw [hs']
        exact ⟨s'.setDad v x e, _, rfl, hrelax.mono hscanned⟩
      next hmore =>
        exact ⟨s, Q, rfl, (h.keep hjoins (.inr ⟨hQ, by omega⟩)).mono hscanned⟩
  next hnonneg' =>
    refine ⟨s, Q, rfl, (h.keep hjoins ?_).mono hscanned⟩
    obtain hS | hS := Classical.em (S v)
    · exact .inl hS
    · have hQ : Q v := by
        by_contra hQ
        exact hnonneg' (((h.unseen v).2 ⟨hS, hQ⟩).symm ▸ by decide)
      have hnonpos := h.nonpos v hQ
      exact .inr ⟨hQ, by omega⟩

end Graphviz.Ortho

/-!
## Runs of `shortPath`

Every step keeps the invariant and leaves less to do, so that `shortPath` comes to its return, and
it does so when the chain of the node that it is to reach is a shortest path.
-/

namespace Graphviz.Ortho

open Function List Outcome ShortestPath

variable {n m : ℕ} {g : sgraph n m} {s s' : Mem n m} {source target x : Fin n} {y w : ℕ}
  {S Q : Fin n → Prop} {r : Run n m}

/-- The queue is a heap by the largest value, its index is exact, and it has no more entries than
there are nodes. -/
structure HeapExact (s : Mem n m) : Prop where
  heap : ∀ i, 2 ≤ i → i ≤ s.cnt → s.n_val (s.pq i) ≤ s.n_val (s.pq (i / 2))
  index : ∀ i, 1 ≤ i → i ≤ s.cnt → s.n_idx (s.pq i) = i
  size : s.cnt ≤ n

theorem Queue.heapExact (h : Queue s Q) : HeapExact s :=
  ⟨fun i hi hlt => h.ordered i hi (Nat.lt_succ_of_le hlt),
    fun i hi hlt => h.exact i hi (Nat.lt_succ_of_le hlt), h.cnt_le⟩

/-- The chain of the node is a shortest path from the source. -/
def ShortestChain (g : sgraph n m) (s : Mem n m) (source target : Fin n) : Prop :=
  ∃ es vs, Chain g s source target es vs ∧
    ∀ es' vs', g.Path source target es' vs' → g.length es ≤ g.length es'

theorem Settled.shortestChain (h : Settled g s source S target) :
    ShortestChain g s source target := by
  obtain ⟨es, vs, hchain, -, -, hval⟩ := h.chain
  refine ⟨es, vs, hchain, fun es' vs' hpath => ?_⟩
  have hle := h.nearest _ hpath.walk
  rw [hval] at hle
  exact_mod_cast hle

/-! ## What is left to do -/

/-- The number of the edges at a node. -/
def sgraph.n_adj (g : sgraph n m) (v : Fin n) : ℕ :=
  (g.adj_edge_list v).length

/-- The invariant of a run, with the work that is left. -/
inductive RunInv (g : sgraph n m) (source target : Fin n) : Run n m → ℕ → Prop where
  | loop {s : Mem n m} {S Q : Fin n → Prop} (h : Searching g source s S Q fun _ _ => True) :
    RunInv g source target ⟨.loop, s⟩ (workLeft g.n_adj S + 1)
  | scan {s : Mem n m} {S Q : Fin n → Prop} {x : Fin n} {y : ℕ} (hx : S x)
    (h : Searching g source s S Q (Scanned g x y)) :
    RunInv g source target ⟨.scan x y, s⟩ (workLeft g.n_adj S + (g.n_adj x - y) + 2)
  | ret {s : Mem n m} {Q : Fin n → Prop} (hq : Queue s Q)
    (hchain : ShortestChain g s source target) : RunInv g source target ⟨.ret 0, s⟩ 0

theorem RunInv.heapExact (h : RunInv g source target r w) : HeapExact r.mem := by
  cases h with
  | loop h => exact h.queue.heapExact
  | scan _ h => exact h.queue.heapExact
  | ret hq _ => exact hq.heapExact

/-- When the queue is empty, every node that can be reached has left it. -/
theorem Searching.settled_of_empty (h : Searching g source s S Q fun _ _ => True)
    (hQ : ∀ v, ¬Q v) {es : List (Fin m)} {vs : List (Fin n)} (hpath : g.Path source target es vs) :
    S target := by
  have hsource : S source := h.first.resolve_right fun hS => hQ _ hS.1
  refine hpath.walk.mem_of_closed hsource ?_
  rintro u hu v c ⟨e, he, rfl⟩
  exact (h.frontier u e v hu trivial he).resolve_right fun hv => hQ v hv.1

/-- The value of a node in the queue with its sign changed is one for an `int`. -/
theorem Searching.intOf_neg {scanned : Fin n → Fin m → Prop}
    (h : Searching g source s S Q scanned) (hsums : ShortSums g source) (hx : Q x) :
    intOf (s.n_val x * -1) = .ok (-s.n_val x) := by
  have hnonpos := h.nonpos x hx
  have hle : -s.n_val x < INT_MAX := by
    obtain ⟨-, hzero, -⟩ | ⟨u, e, hu, he, -, -, hval⟩ := h.queued x hx
    · rw [hzero, INT_MAX]
      omega
    · have hlt := h.sum_lt hsums hu he fun hS => h.disjoint x hS hx
      omega
  rw [INT_MAX] at hle
  rw [mul_neg_one]
  exact if_pos (by omega)

/-- A node leaves the queue, or the search is over. -/
theorem step_loop (h : Searching g source s S Q fun _ _ => True) (hsums : ShortSums g source)
    (hreach : ∃ es vs, g.Path source target es vs) :
    ∃ r' w', step g target ⟨.loop, s⟩ = .ok r' ∧ RunInv g source target r' w' ∧
      w' < workLeft g.n_adj S + 1 := by
  rw [step]
  simp only
  obtain ⟨hnone, hQ⟩ | ⟨x, s', hsome, hsame, hx, hmax, hq⟩ := PQremove_spec h.queue
  · obtain ⟨es, vs, hpath⟩ := hreach
    have hS := h.settled_of_empty hQ hpath
    rw [hnone]
    exact ⟨_, _, rfl, .ret h.queue (h.settled target hS).shortestChain, Nat.succ_pos _⟩
  · have hnotS : ¬S x := fun hS => h.disjoint x hS hx
    have hnext := h.settle hx hmax hsame hq
    have hval : s'.n_val x = s.n_val x := congrFun hsame.n_val x
    rw [hsome]
    simp only [ok_bind, hval, h.intOf_neg hsums hx]
    split
    next heq =>
      subst heq
      have hchain := (hnext.settled x (.inl rfl)).shortestChain
      exact ⟨_, _, rfl, .ret hnext.queue hchain, Nat.succ_pos _⟩
    next hne =>
      have hscanned : ∀ u e v, g.Joins e u v → Scanned g x 0 u e → u ≠ x := fun u e v _ hs =>
        hs.resolve_right (by rw [take_zero]; exact not_mem_nil)
      have hwork := @workLeft_settle _ _ _ g.n_adj _ hnotS
      exact ⟨_, _, rfl, .scan (.inl rfl) (hnext.mono hscanned), by omega⟩

theorem step_scan (hx : S x) (h : Searching g source s S Q (Scanned g x y))
    (hsums : ShortSums g source) :
    ∃ r' w', step g target ⟨.scan x y, s⟩ = .ok r' ∧ RunInv g source target r' w' ∧
      w' < workLeft g.n_adj S + (g.n_adj x - y) + 2 := by
  rw [step]
  simp only
  split
  next hnone =>
    refine ⟨_, _, rfl, .loop (h.mono fun u e v he _ => ?_), by omega⟩
    obtain rfl | hne := eq_or_ne u x
    · refine .inr ?_
      rw [take_of_length_le (List.getElem?_eq_none_iff.1 hnone)]
      exact mem_adj_of_joins he
    · exact .inl hne
  next e he =>
    obtain ⟨s', Q', hs', h'⟩ := scanEdge_spec h hsums hx he
    have hlt : y < g.n_adj x := (List.getElem?_eq_some_iff.1 he).1
    exact ⟨_, _, hs', .scan hx h', by omega⟩

/-- The search begins with the source alone in the queue. -/
theorem start_spec (s : Mem n m) (hsize : n ≤ s.size) :
    ∃ r, start s source = .ok r ∧
      RunInv g source target r (workLeft g.n_adj (fun _ => False) + 1) := by
  have hpos : 0 < s.size := lt_of_lt_of_le source.pos hsize
  obtain ⟨s', hs', hsame, hcnt, hq⟩ := @PQ_insert_spec n m _ _ source
    (queue_init { s with n_val := fun _ => UNSEEN }) id (show UNSEEN ≤ 0 by decide) hpos
  have hone : s'.cnt = 1 := hcnt
  have hval : ∀ v, v ≠ source → update s'.n_val source 0 v = UNSEEN := fun v hv => by
    rw [update_of_ne hv, hsame.n_val]
    rfl
  have hself : update s'.n_val source 0 source = 0 := update_self _ _ _
  rw [start, hs']
  refine ⟨_, rfl, .loop (Q := fun v => v = source) ⟨hsame.size.symm ▸ hsize, ?_,
    fun v hv => hv.elim, fun v => ?_, ?_, fun v hv => hv.elim, ?_, fun u e v hu => hu.elim, .inr ⟨rfl, fun u => id⟩⟩⟩
  · refine ⟨fun i (hroot : 1 < i) (hlt : i < s'.cnt + 1) => ?_, hq.exact, fun v => ?_⟩
    · omega
    · exact (hq.mem v).trans (or_iff_left id)
  · change update s'.n_val source 0 v = UNSEEN ↔ _
    obtain rfl | hne := eq_or_ne v source
    · rw [hself]
      exact iff_of_false (by decide) fun hnot => hnot.2 rfl
    · rw [hval v hne]
      exact iff_of_true rfl ⟨id, hne⟩
  · rintro v rfl
    exact hself.le
  · rintro v rfl
    exact .inl ⟨rfl, hself, update_self _ _ _⟩

/-- Every step keeps the invariant, and there is less to do until the return. -/
theorem RunInv.step (h : RunInv g source target r w) (hsums : ShortSums g source)
    (hreach : ∃ es vs, g.Path source target es vs) :
    ∃ r' w', step g target r = .ok r' ∧ RunInv g source target r' w' ∧ (w' < w ∨ w' = 0) := by
  cases h with
  | loop h =>
    obtain ⟨r', w', hr', hinv, hlt⟩ := step_loop h hsums hreach
    exact ⟨r', w', hr', hinv, .inl hlt⟩
  | scan hx h =>
    obtain ⟨r', w', hr', hinv, hlt⟩ := step_scan hx h hsums
    exact ⟨r', w', hr', hinv, .inl hlt⟩
  | ret hq hchain => exact ⟨_, 0, rfl, .ret hq hchain, .inr rfl⟩

theorem RunInv.ret_of_zero (h : RunInv g source target r 0) :
    r.pc = .ret 0 ∧ ShortestChain g r.mem source target := by
  cases h with
  | ret hq hchain => exact ⟨rfl, hchain⟩

/-- After any number of steps the invariant holds, and as much less is left to do. -/
theorem shortPath_inv (hsize : n ≤ s.size) (hsums : ShortSums g source)
    (hreach : ∃ es vs, g.Path source target es vs) (k : ℕ) :
    ∃ r w, shortPath g s source target k = .ok r ∧ RunInv g source target r w ∧
      w ≤ workLeft g.n_adj (fun _ => False) + 1 - k := by
  induction k with
  | zero =>
    obtain ⟨r, hr, hinv⟩ := @start_spec n m g source target s hsize
    exact ⟨r, _, hr, hinv, le_rfl⟩
  | succ k ih =>
    obtain ⟨r, w, hr, hinv, hle⟩ := ih
    obtain ⟨r', w', hr', hinv', hless⟩ := hinv.step hsums hreach
    refine ⟨r', w', ?_, hinv', by omega⟩
    rw [shortPath, hr]
    exact hr'

/-- At every moment the queue is a heap with an exact index and no more entries than there are
nodes, and `shortPath` comes to return `0` with a shortest path in the chain of the node that it is
to reach. -/
theorem shortPath_shortest (g : sgraph n m) (s : Mem n m) (source target : Fin n)
    (hsize : n ≤ s.size) (hsums : ShortSums g source)
    (hreach : ∃ es vs, g.Path source target es vs) :
    (∀ k, ∃ r, shortPath g s source target k = .ok r ∧ HeapExact r.mem) ∧
      ∃ k r, shortPath g s source target k = .ok r ∧ r.pc = .ret 0 ∧
        ShortestChain g r.mem source target := by
  refine ⟨fun k => ?_, workLeft g.n_adj (fun _ => False) + 1, ?_⟩
  · obtain ⟨r, w, hr, hinv, -⟩ := shortPath_inv hsize hsums hreach k
    exact ⟨r, hr, hinv.heapExact⟩
  · obtain ⟨r, w, hr, hinv, hle⟩ := shortPath_inv hsize hsums hreach _
    rw [Nat.sub_self] at hle
    obtain rfl := Nat.le_zero.1 hle
    exact ⟨r, hr, hinv.ret_of_zero⟩

theorem sgraph.Path.length_eq {v : Fin n} {es : List (Fin m)} {vs : List (Fin n)}
    (h : g.Path source v es vs) : vs.length = es.length + 1 := by
  induction h with
  | nil => rfl
  | snoc _ _ ih => rw [List.length_cons, List.length_cons, ih]

/-- Sums are short enough when the weights are, as a path has fewer edges than there are nodes. -/
theorem shortSums_of_weight_le {c : ℕ} (hw : ∀ e, g.weight e ≤ c) (hn : n * c < INT_MAX) :
    ShortSums g source := by
  intro v es vs hpath hnodup
  have hle : g.length es ≤ es.length * c := by
    have hlen : (es.map g.weight).length = es.length := length_map _
    rw [← hlen]
    refine sum_le_card_nsmul _ _ fun w hw' => ?_
    obtain ⟨e, -, rfl⟩ := mem_map.1 hw'
    exact hw e
  have hcard : es.length ≤ n := by
    have hvs := hnodup.length_le_card
    rw [Fintype.card_fin, hpath.length_eq] at hvs
    omega
  exact (hle.trans (Nat.mul_le_mul_right c hcard)).trans_lt hn

attribute [local instance] Instances.neZero_two

/-- Two nodes with an edge of weight `3` between them. -/
def pairGraph : sgraph 2 1 where
  v1 _ := 0
  v2 _ := 1
  weight _ := 3
  adj_edge_list _ := [0]
  incident := by decide

/-- A memory with room for two nodes. -/
def pairMem : Mem 2 1 where
  n_val _ := 0
  n_idx _ := 0
  n_dad _ := none
  n_edge _ := none
  pq _ := 0
  cnt := 0
  size := 2

theorem shortPath_shortest_pair :
    (∀ k, ∃ r, shortPath pairGraph pairMem 0 1 k = .ok r ∧ HeapExact r.mem) ∧
      ∃ k r, shortPath pairGraph pairMem 0 1 k = .ok r ∧ r.pc = .ret 0 ∧
        ShortestChain pairGraph r.mem 0 1 :=
  shortPath_shortest pairGraph pairMem 0 1 le_rfl
    (shortSums_of_weight_le (fun _ => le_rfl) (by decide))
    ⟨[0], [1, 0], .snoc .nil (.inl ⟨rfl, rfl⟩)⟩

end Graphviz.Ortho
