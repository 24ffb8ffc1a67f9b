import Graphviz.Dotgen.Decomp

/-!
# The rank constraint graph (`dotgen/rank.c`, `dotgen/class1.c`)

`dot1_rank` up to the call of `rank1`, for a graph without clusters: rank sets are collapsed into
leaders, the edges between leaders are merged into the fast graph, the edges out of the set of
maximal and into the set of minimal rank are reversed, cycles are broken, and the remaining sinks
and sources are tied to the two sets.
-/

namespace Graphviz

open Function

variable {n : ℕ}

/-! ## The input -/

/-- The subgraphs of a graph, first subgraph and next, each with the value of its `rank`
attribute, its nodes and its own subgraphs. -/
inductive SubgList (n : ℕ) where
  | nil
  | cons (rank : Option String) (nodes : List (Fin n)) (subgs next : SubgList n)

/-- What the ranking phase is given: subgraphs, edges in the order of their sequence numbers with
their `constraint` attributes, `ND_id` of the nodes, whether there are edge labels, and `Cmark`. -/
structure RankInput (n : ℕ) where
  subgs : SubgList n
  nEdges : ℕ
  edge : ℕ → Fedge n
  constr : ℕ → Option String
  id : Fin n → ℕ
  edgeLabels : Bool
  cmark : ℕ

/-- The state at the start of the ranking phase. -/
def RankInput.start (inp : RankInput n) : DotGraph n where
  fg := {
    edge := fun e => { inp.edge e with toVirt := none, toOrig := none }
    next := inp.nEdges
    out := fun _ => []
    inn := fun _ => [] }
  mark := fun _ => 0
  onstack := fun _ => false
  uf := ⟨inp.id, fun _ => none, fun _ => 1⟩
  ranktype := fun _ => none
  minset := none
  maxset := none
  cmark := inp.cmark
  comp := []

/-- `agfstout` and `agnxtout`: the input edges that leave `v`, in order. -/
def RankInput.agout (inp : RankInput n) (v : Fin n) : List ℕ :=
  (List.range inp.nEdges).filter fun e => (inp.edge e).tail = v

/-- `edgelabel_ranks`: with edge labels, minimal lengths are doubled. -/
def edgelabelRanks (inp : RankInput n) (fg : FastGraph n) : FastGraph n :=
  if inp.edgeLabels then
    (List.finRange n).foldl (fun fg v => (inp.agout v).foldl (fun fg e =>
      fg.setEdge e { fg.edge e with minlen := (fg.edge e).minlen * 2 }) fg) fg
  else fg

/-! ## Rank sets -/

/-- `rank_set_class` by `maptoken`, for a subgraph that is not a cluster. -/
def rankSetClass (rank : Option String) : Option RankKind :=
  match rank with
  | none => none
  | some p =>
    if p = "same" then some .same
    else if p = "min" then some .min
    else if p = "source" then some .source
    else if p = "max" then some .max
    else if p = "sink" then some .sink
    else none

/-- The loop of `collapse_rankset` over the nodes after the first. -/
def collapseNode (u : Fin n) (g : DotGraph n) (v : Fin n) : Except Fault (DotGraph n) := do
  let (uf, _) ← g.uf.union u v
  .ok { g with uf := uf, ranktype := update g.ranktype v (g.ranktype u) }

/-- The `GD_minset` or `GD_maxset` a rank set is joined to. -/
def joinSet (uf : UF n) (set : Option (Fin n)) (u : Fin n) :
    Except Fault (UF n × Option (Fin n)) :=
  match set with
  | none => .ok (uf, some u)
  | some m => do
    let (uf, r) ← uf.union m u
    .ok (uf, some r)

/-- `ND_ranktype(GD_minset(g)) = kind` and its twin. -/
def setRanktype (ranktype : Fin n → Option RankKind) (set : Option (Fin n)) (kind : RankKind) :
    Fin n → Option RankKind :=
  match set with
  | none => ranktype
  | some m => update ranktype m (some kind)

/-- `collapse_rankset`: merges the nodes of a min, max or same rank set. -/
def collapseRankset (g : DotGraph n) (kind : RankKind) (nodes : List (Fin n)) :
    Except Fault (DotGraph n) :=
  match nodes with
  | [] => .ok g
  | u :: vs => do
    let g ← vs.foldlM (collapseNode u) { g with ranktype := update g.ranktype u (some kind) }
    match kind with
    | .min => do
      let (uf, set) ← joinSet g.uf g.minset u
      .ok { g with uf := uf, minset := set }
    | .source => do
      let (uf, set) ← joinSet g.uf g.minset u
      .ok { g with uf := uf, minset := set, ranktype := setRanktype g.ranktype set .source }
    | .max => do
      let (uf, set) ← joinSet g.uf g.maxset u
      .ok { g with uf := uf, maxset := set }
    | .sink => do
      let (uf, set) ← joinSet g.uf g.maxset u
      .ok { g with uf := uf, maxset := set, ranktype := setRanktype g.ranktype set .sink }
    | .same => .ok g

/-- `collapse_sets`. -/
def collapseSets : SubgList n → DotGraph n → Except Fault (DotGraph n)
  | .nil, g => .ok g
  | .cons rank nodes subgs next, g => do
    let g ← match rankSetClass rank with
      | some kind => collapseRankset g kind nodes
      | none => collapseSets subgs g
    collapseSets next g

/-! ## Edges between leaders -/

/-- `mapbool`. -/
def mapbool (p : String) : Bool :=
  if p = "" then false
  else if p.toLower = "false" then false
  else if p.toLower = "no" then false
  else if p.toLower = "true" then true
  else if p.toLower = "yes" then true
  else (p.toList.takeWhile Char.isDigit).any (· ≠ '0')

/-- `nonconstraint_edge`, of the value of the attribute `constraint`. -/
def nonconstraintEdge (constr : Option String) : Bool :=
  match constr with
  | none => false
  | some p => p ≠ "" && !mapbool p

/-- The body of the loop of `class1`, for one input edge of a graph without clusters. -/
def class1Edge (inp : RankInput n) (g : DotGraph n) (e : ℕ) : Except Fault (DotGraph n) :=
  if (g.fg.edge e).toVirt ≠ none then .ok g
  else if nonconstraintEdge (inp.constr e) then .ok g
  else do
    let (uf, t) ← g.uf.find (g.fg.edge e).tail
    let (uf, h) ← uf.find (g.fg.edge e).head
    let g := { g with uf := uf }
    if t = h then .ok g
    else
      match g.fg.findFastEdge t h with
      | some rep => do
        let fg ← g.fg.mergeOneway e rep
        .ok { g with fg := fg }
      | none => .ok { g with fg := (g.fg.virtualEdge t h (some e)).1 }

/-- `class1`. -/
def class1 (inp : RankInput n) (g : DotGraph n) : Except Fault (DotGraph n) :=
  (List.finRange n).foldlM (fun g v => (inp.agout v).foldlM (class1Edge inp) g) g

/-! ## The sets of minimal and maximal rank -/

/-- The loops of `minmax_edges`: reverses the first edge of a list until the list is empty. The
assertion is on the other end of the edge. -/
def reverseAll (list : FastGraph n → List ℕ) (other : Fedge n → Fin n) :
    ℕ → DotGraph n → Except Fault (DotGraph n)
  | 0, _ => .error .fuel
  | k + 1, g =>
    match list g.fg with
    | [] => .ok g
    | e :: _ => do
      let (uf, r) ← g.uf.find (other (g.fg.edge e))
      assert (other (g.fg.edge e) = r)
      let fg ← g.fg.reverseEdge e
      reverseAll list other k { g with uf := uf, fg := fg }

/-- `UF_find` of one of the two sets, when it is there. -/
def findSet (uf : UF n) (set : Option (Fin n)) : Except Fault (UF n × Option (Fin n)) :=
  match set with
  | none => .ok (uf, none)
  | some m => do
    let (uf, r) ← uf.find m
    .ok (uf, some r)

/-- The lengths `slen.x` and `slen.y` of the edges `minmax_edges2` adds. -/
structure Slen where
  x : ℤ
  y : ℤ

/-- The first loop of `minmax_edges`: reverses the edges that leave the set of maximal rank. -/
def reverseOuts (g : DotGraph n) : Except Fault (DotGraph n) :=
  match g.maxset with
  | none => .ok g
  | some m => reverseAll (fun fg => fg.out m) Fedge.head (n + 1) g

/-- The second loop of `minmax_edges`: reverses the edges that enter the set of minimal rank. -/
def reverseIns (g : DotGraph n) : Except Fault (DotGraph n) :=
  match g.minset with
  | none => .ok g
  | some m => reverseAll (fun fg => fg.inn m) Fedge.tail (n + 1) g

/-- `minmax_edges`. -/
def minmaxEdges (g : DotGraph n) : Except Fault (DotGraph n × Slen) :=
  if g.maxset = none ∧ g.minset = none then .ok (g, ⟨0, 0⟩)
  else do
    let (uf, minset) ← findSet g.uf g.minset
    let (uf, maxset) ← findSet uf g.maxset
    let g ← reverseOuts { g with uf := uf, minset := minset, maxset := maxset }
    let g ← reverseIns g
    .ok (g, {
      x := if minset.bind g.ranktype = some .source then 1 else 0
      y := if maxset.bind g.ranktype = some .sink then 1 else 0 })

/-- A virtual edge without original, of the given length and weight `0`. -/
def tieEdge (fg : FastGraph n) (u v : Fin n) (minlen : ℤ) : FastGraph n :=
  let r := fg.virtualEdge u v none
  let fg := r.1.setEdge r.2 { r.1.edge r.2 with minlen := minlen }
  fg.setEdge r.2 { fg.edge r.2 with weight := 0 }

/-- The first test of the loop of `minmax_edges2`: an edge from a sink to the set of maximal
rank. The flag tells whether an edge has been added. -/
def tieSink (slen : Slen) (v : Fin n) (x : DotGraph n × Bool) : DotGraph n × Bool :=
  match x.1.maxset with
  | none => x
  | some m =>
    if x.1.fg.out v = [] ∧ v ≠ m then ({ x.1 with fg := tieEdge x.1.fg v m slen.y }, true) else x

/-- The second test of the loop of `minmax_edges2`: an edge from the set of minimal rank to a
source. -/
def tieSource (slen : Slen) (v : Fin n) (x : DotGraph n × Bool) : DotGraph n × Bool :=
  match x.1.minset with
  | none => x
  | some m =>
    if x.1.fg.inn v = [] ∧ v ≠ m then ({ x.1 with fg := tieEdge x.1.fg m v slen.x }, true) else x

/-- The body of the loop of `minmax_edges2`. -/
def minmaxNode (slen : Slen) (x : DotGraph n × Bool) (v : Fin n) :
    Except Fault (DotGraph n × Bool) := do
  let (uf, r) ← x.1.uf.find v
  let x := ({ x.1 with uf := uf }, x.2)
  .ok (if v ≠ r then x else tieSource slen v (tieSink slen v x))

/-- `minmax_edges2`. -/
def minmaxEdges2 (g : DotGraph n) (slen : Slen) : Except Fault (DotGraph n × Bool) :=
  if g.maxset ≠ none ∨ g.minset ≠ none then
    (List.finRange n).foldlM (minmaxNode slen) (g, false)
  else .ok (g, false)

/-! ## The sequence -/

/-- `dot1_rank` up to the call of `rank1`. -/
def dot1Rank (inp : RankInput n) : Except Fault (DotGraph n) := do
  let g := inp.start
  let g := { g with fg := edgelabelRanks inp g.fg }
  let g ← collapseSets inp.subgs g
  let g ← class1 inp g
  let (g, slen) ← minmaxEdges g
  let g ← decompose g
  let s ← acyclic g.comp g.toSearch
  let (g, added) ← minmaxEdges2 { g with toSearch := s } slen
  if added then decompose g else .ok g

end Graphviz

/-!
## Rank sets and leaders

The classes that `collapse_sets` leaves are those generated by the rank subgraphs of the input:
two nodes are linked when one rank subgraph holds both, when both are in sets of minimal rank, or
when both are in sets of maximal rank. `class1` then joins leaders only.
-/

namespace Graphviz

open Outcome UnionFind Function FastGraph Relation

variable {n : ℕ}

/-! ## The rank sets of the input -/

/-- The kinds of rank sets that `GD_minset` collects. -/
def RankKind.isMin : RankKind → Bool
  | .min | .source => true
  | _ => false

/-- The kinds of rank sets that `GD_maxset` collects. -/
def RankKind.isMax : RankKind → Bool
  | .max | .sink => true
  | _ => false

/-- The rank sets of the subgraphs, in the order in which `collapse_sets` meets them. The
subgraphs of a rank set are not looked at. -/
def rankSets : SubgList n → List (RankKind × List (Fin n))
  | .nil => []
  | .cons rank nodes subgs next =>
    (match rankSetClass rank with
      | some kind => [(kind, nodes)]
      | none => rankSets subgs) ++ rankSets next

variable {S T : List (RankKind × List (Fin n))} {f : Fin n → Fin n} {u v w : Fin n}

/-- The node is in a set of minimal rank. -/
def InMin (S : List (RankKind × List (Fin n))) (u : Fin n) : Prop :=
  ∃ x ∈ S, x.1.isMin = true ∧ u ∈ x.2

/-- The node is in a set of maximal rank. -/
def InMax (S : List (RankKind × List (Fin n))) (u : Fin n) : Prop :=
  ∃ x ∈ S, x.1.isMax = true ∧ u ∈ x.2

/-- The rank sets ask for one rank for both nodes. -/
def Linked (S : List (RankKind × List (Fin n))) (u v : Fin n) : Prop :=
  (∃ x ∈ S, u ∈ x.2 ∧ v ∈ x.2) ∨ (InMin S u ∧ InMin S v) ∨ (InMax S u ∧ InMax S v)

/-- The nodes of minimal rank after one more rank set. -/
theorem inMin_snoc {kind : RankKind} {L : List (Fin n)} :
    InMin (S ++ [(kind, L)]) u ↔ InMin S u ∨ (kind.isMin = true ∧ u ∈ L) := by
  simp only [InMin, List.mem_append, List.mem_singleton]
  constructor
  · rintro ⟨x, hx | rfl, hm, hu⟩
    · exact .inl ⟨x, hx, hm, hu⟩
    · exact .inr ⟨hm, hu⟩
  · rintro (⟨x, hx, hm, hu⟩ | ⟨hm, hu⟩)
    · exact ⟨x, .inl hx, hm, hu⟩
    · exact ⟨_, .inr rfl, hm, hu⟩

/-- The nodes of maximal rank after one more rank set. -/
theorem inMax_snoc {kind : RankKind} {L : List (Fin n)} :
    InMax (S ++ [(kind, L)]) u ↔ InMax S u ∨ (kind.isMax = true ∧ u ∈ L) := by
  simp only [InMax, List.mem_append, List.mem_singleton]
  constructor
  · rintro ⟨x, hx | rfl, hm, hu⟩
    · exact .inl ⟨x, hx, hm, hu⟩
    · exact .inr ⟨hm, hu⟩
  · rintro (⟨x, hx, hm, hu⟩ | ⟨hm, hu⟩)
    · exact ⟨x, .inl hx, hm, hu⟩
    · exact ⟨_, .inr rfl, hm, hu⟩

/-- The links after one more rank set. -/
theorem linked_snoc {kind : RankKind} {L : List (Fin n)} :
    Linked (S ++ [(kind, L)]) u v ↔ (∃ x ∈ S, u ∈ x.2 ∧ v ∈ x.2) ∨ (u ∈ L ∧ v ∈ L) ∨
      ((InMin S u ∨ (kind.isMin = true ∧ u ∈ L)) ∧ (InMin S v ∨ (kind.isMin = true ∧ v ∈ L))) ∨
      ((InMax S u ∨ (kind.isMax = true ∧ u ∈ L)) ∧ (InMax S v ∨ (kind.isMax = true ∧ v ∈ L))) := by
  rw [Linked, inMin_snoc, inMin_snoc, inMax_snoc, inMax_snoc, ← or_assoc (b := u ∈ L ∧ v ∈ L)]
  refine or_congr_left ?_
  simp only [List.mem_append, List.mem_singleton]
  constructor
  · rintro ⟨x, hx | rfl, hu, hv⟩
    · exact .inl ⟨x, hx, hu, hv⟩
    · exact .inr ⟨hu, hv⟩
  · rintro (⟨x, hx, hu, hv⟩ | ⟨hu, hv⟩)
    · exact ⟨x, .inl hx, hu, hv⟩
    · exact ⟨_, .inr rfl, hu, hv⟩

/-- What merging one rank set joins: its nodes to its first node, and the nodes of the sets it
belongs with to the first node as well. -/
def Merges (S : List (RankKind × List (Fin n))) (kind : RankKind) (u : Fin n) (vs : List (Fin n))
    (a b : Fin n) : Prop :=
  Linked S a b ∨ (a = u ∧ b ∈ vs) ∨ (kind.isMin = true ∧ InMin S a ∧ b = u) ∨
    (kind.isMax = true ∧ InMax S a ∧ b = u)

/-- Merging a rank set links its nodes. -/
theorem tracks_snoc {kind : RankKind} {vs : List (Fin n)} (h : Tracks f (Merges S kind u vs)) :
    Tracks f (Linked (S ++ [(kind, u :: vs)])) := by
  -- every node of the set is joined to the first
  have hset : ∀ {a}, a ∈ u :: vs → EqvGen (Merges S kind u vs) a u := by
    intro a ha
    obtain rfl | ha := List.mem_cons.1 ha
    · exact .refl _
    · exact .symm _ _ (.rel _ _ (.inr (.inl ⟨rfl, ha⟩)))
  have hold : ∀ {a b}, Linked S a b → EqvGen (Merges S kind u vs) a b :=
    fun hab => .rel _ _ (.inl hab)
  refine h.congr (fun a b hab => ?_) fun a b hab => ?_
  · refine .rel _ _ (linked_snoc.2 ?_)
    obtain hab | ⟨rfl, hb⟩ | ⟨hk, ha, rfl⟩ | ⟨hk, ha, rfl⟩ := hab
    · obtain hab | ⟨ha, hb⟩ | ⟨ha, hb⟩ := hab
      · exact .inl hab
      · exact .inr (.inr (.inl ⟨.inl ha, .inl hb⟩))
      · exact .inr (.inr (.inr ⟨.inl ha, .inl hb⟩))
    · exact .inr (.inl ⟨List.mem_cons_self, List.mem_cons_of_mem _ hb⟩)
    · exact .inr (.inr (.inl ⟨.inl ha, .inr ⟨hk, List.mem_cons_self⟩⟩))
    · exact .inr (.inr (.inr ⟨.inl ha, .inr ⟨hk, List.mem_cons_self⟩⟩))
  · obtain hab | ⟨ha, hb⟩ | ⟨ha, hb⟩ | ⟨ha, hb⟩ := linked_snoc.1 hab
    · exact hold (.inl hab)
    · exact (hset ha).trans _ _ _ (hset hb).symm
    · rcases ha with ha | ⟨hk, ha⟩ <;> rcases hb with hb | ⟨hk', hb⟩
      · exact hold (.inr (.inl ⟨ha, hb⟩))
      · exact .trans _ _ _ (.rel _ _ (.inr (.inr (.inl ⟨hk', ha, rfl⟩)))) (hset hb).symm
      · exact (hset ha).trans _ _ _ (.symm _ _ (.rel _ _ (.inr (.inr (.inl ⟨hk, hb, rfl⟩)))))
      · exact (hset ha).trans _ _ _ (hset hb).symm
    · rcases ha with ha | ⟨hk, ha⟩ <;> rcases hb with hb | ⟨hk', hb⟩
      · exact hold (.inr (.inr ⟨ha, hb⟩))
      · exact .trans _ _ _ (.rel _ _ (.inr (.inr (.inr ⟨hk', ha, rfl⟩)))) (hset hb).symm
      · exact (hset ha).trans _ _ _ (.symm _ _ (.rel _ _ (.inr (.inr (.inr ⟨hk, hb, rfl⟩)))))
      · exact (hset ha).trans _ _ _ (hset hb).symm

/-! ## Collapsing rank sets -/

/-- `GD_minset` or `GD_maxset` stands for the nodes that satisfy `P`. -/
structure SetOf (f : Fin n → Fin n) (P : Fin n → Prop) (set : Option (Fin n)) : Prop where
  none : set = none → ∀ u, ¬ P u
  some : ∀ {m}, set = some m → ∃ u, P u ∧ f m = f u

/-- The state during `collapse_sets`, started at `g₀`, after the rank sets `S`. -/
structure CollapseInv (g₀ : DotGraph n) (S : List (RankKind × List (Fin n)))
    (f : Fin n → Fin n) (g : DotGraph n) : Prop where
  frame : g = { g₀ with uf := g.uf, ranktype := g.ranktype, minset := g.minset, maxset := g.maxset }
  rep : Represents g.uf.parent f
  tracks : Tracks f (Linked S)
  minset : SetOf f (InMin S) g.minset
  maxset : SetOf f (InMax S) g.maxset

/-- A set stays the set of its nodes when classes are merged. -/
theorem SetOf.mono {f' : Fin n → Fin n} {P : Fin n → Prop} {set : Option (Fin n)}
    (h : SetOf f P set) (hf : ∀ a b, f a = f b → f' a = f' b) : SetOf f' P set :=
  ⟨h.none, fun hm => (h.some hm).imp fun _ ⟨hu, hfu⟩ => ⟨hu, hf _ _ hfu⟩⟩

/-- A set stands for whatever nodes are the same. -/
theorem SetOf.congr {P Q : Fin n → Prop} {set : Option (Fin n)} (h : SetOf f P set)
    (hPQ : ∀ u, P u ↔ Q u) : SetOf f Q set :=
  ⟨fun hs u hu => h.none hs u ((hPQ u).2 hu), fun hm => (h.some hm).imp fun u ⟨hu, hfu⟩ =>
    ⟨(hPQ u).1 hu, hfu⟩⟩

/-- More pairs merge classes. -/
theorem tracks_mono {f' : Fin n → Fin n} {R R' : Fin n → Fin n → Prop} (h : Tracks f R)
    (h' : Tracks f' R') (hR : ∀ a b, R a b → R' a b) {a b : Fin n} (hab : f a = f b) :
    f' a = f' b :=
  (h' a b).2 (((h a b).1 hab).mono hR)

/-- The loop of `collapse_rankset` joins the nodes of the set to its first. -/
theorem collapseNodes_spec {g₀ g : DotGraph n} {l : List (Fin n)} (h : CollapseInv g₀ S f g) :
    Meets (l.foldlM (collapseNode u) g)
      (fun g' => ∃ f', g' = { g with uf := g'.uf, ranktype := g'.ranktype } ∧
        Represents g'.uf.parent f' ∧ Tracks f' fun a b => Linked S a b ∨ (a = u ∧ b ∈ l))
      fun _ => False := by
  let I : List (Fin n) → DotGraph n → Prop := fun rest g' => ∃ f' pre, pre ++ rest = l ∧
    g' = { g with uf := g'.uf, ranktype := g'.ranktype } ∧ Represents g'.uf.parent f' ∧
    Tracks f' fun a b => Linked S a b ∨ (a = u ∧ b ∈ pre)
  have hstart : I l g := by
    refine ⟨f, [], rfl, rfl, h.rep, h.tracks.congr (fun a b hab => .rel _ _ (.inl hab)) ?_⟩
    rintro a b (hab | ⟨_, hb⟩)
    · exact .rel _ _ hab
    · cases hb
  refine (Meets.foldlM I ?_ g hstart).imp ?_
  · rintro v rest g₁ ⟨f₁, pre, hpre, hg, hrep, htr⟩
    unfold collapseNode
    refine (UF.union_spec hrep htr u v).bind fun ⟨uf, r⟩ ⟨f₂, hrep₂, htr₂, _⟩ => ?_
    refine ⟨f₂, pre ++ [v], by rw [List.append_assoc]; exact hpre, by rw [hg], hrep₂,
      htr₂.congr (fun a b hab => ?_) fun a b hab => ?_⟩
    · rcases hab with (hab | ⟨rfl, hb⟩) | ⟨rfl, rfl⟩
      · exact .rel _ _ (.inl hab)
      · exact .rel _ _ (.inr ⟨rfl, List.mem_append_left _ hb⟩)
      · exact .rel _ _ (.inr ⟨rfl, by simp⟩)
    · obtain hab | ⟨rfl, hb⟩ := hab
      · exact .rel _ _ (.inl (.inl hab))
      · obtain hb | hb := List.mem_append.1 hb
        · exact .rel _ _ (.inl (.inr ⟨rfl, hb⟩))
        · exact .rel _ _ (.inr ⟨rfl, List.mem_singleton.1 hb⟩)
  · rintro g₁ ⟨f₁, pre, hpre, hg, hrep, htr⟩
    rw [List.append_nil] at hpre
    subst hpre
    exact ⟨f₁, hg, hrep, htr⟩

/-- Joining `GD_minset` or `GD_maxset` joins all nodes it stands for. -/
theorem joinSet_spec {uf : UF n} {R : Fin n → Fin n → Prop} {P : Fin n → Prop}
    {set : Option (Fin n)} (hrep : Represents uf.parent f) (htr : Tracks f R)
    (hset : SetOf f P set) (hP : ∀ {a b}, P a → P b → f a = f b) :
    Meets (joinSet uf set u)
      (fun x => ∃ f', Represents x.1.parent f' ∧
        Tracks f' (fun a b => R a b ∨ (P a ∧ b = u)) ∧ ∃ m, x.2 = some m ∧ f' m = f' u)
      fun _ => False := by
  unfold joinSet
  cases hs : set with
  | none =>
    refine ⟨f, hrep, htr.congr (fun a b hab => .rel _ _ (.inl hab)) ?_, u, rfl, rfl⟩
    rintro a b (hab | ⟨ha, _⟩)
    · exact .rel _ _ hab
    · exact absurd ha (hset.none hs a)
  | some m =>
    obtain ⟨w, hw, hmw⟩ := hset.some hs
    refine (UF.union_spec hrep htr m u).bind fun ⟨uf', r⟩ ⟨f', hrep', htr', hr⟩ => ?_
    have hlift : ∀ {a b}, f a = f b → EqvGen (fun a b => R a b ∨ (a = m ∧ b = u)) a b :=
      fun hab => ((htr _ _).1 hab).mono fun _ _ => .inl
    have hlift' : ∀ {a b}, f a = f b → EqvGen (fun a b => R a b ∨ (P a ∧ b = u)) a b :=
      fun hab => ((htr _ _).1 hab).mono fun _ _ => .inl
    refine ⟨f', hrep', htr'.congr (fun a b hab => ?_) fun a b hab => ?_, r, rfl, ?_⟩
    · obtain hab | ⟨rfl, rfl⟩ := hab
      · exact .rel _ _ (.inl hab)
      · exact (hlift' hmw).trans _ _ _ (.rel _ _ (.inr ⟨hw, rfl⟩))
    · obtain hab | ⟨ha, rfl⟩ := hab
      · exact .rel _ _ (.inl hab)
      · exact (hlift ((hP ha hw).trans hmw.symm)).trans _ _ _ (.rel _ _ (.inr ⟨rfl, rfl⟩))
    · exact hr.trans (htr'.rel (.inr ⟨rfl, rfl⟩))

/-- `collapse_rankset` links the nodes of its set. -/
theorem collapseRankset_spec {g₀ g : DotGraph n} {kind : RankKind} {L : List (Fin n)}
    (h : CollapseInv g₀ S f g) :
    Meets (collapseRankset g kind L) (fun g' => ∃ f', CollapseInv g₀ (S ++ [(kind, L)]) f' g')
      fun _ => False := by
  unfold collapseRankset
  cases L with
  | nil =>
    have hmin : ∀ u, InMin S u ↔ InMin (S ++ [(kind, [])]) u := fun u => by simp [inMin_snoc]
    have hmax : ∀ u, InMax S u ↔ InMax (S ++ [(kind, [])]) u := fun u => by simp [inMax_snoc]
    have hlink : ∀ u v, Linked S u v ↔ Linked (S ++ [(kind, [])]) u v := fun u v => by
      rw [linked_snoc]; simp [Linked]
    exact ⟨f, h.frame, h.rep, h.tracks.congr (fun a b hab => .rel _ _ ((hlink a b).1 hab))
      fun a b hab => .rel _ _ ((hlink a b).2 hab), h.minset.congr hmin, h.maxset.congr hmax⟩
  | cons u vs =>
    have h₁ : CollapseInv g₀ S f { g with ranktype := update g.ranktype u (some kind) } :=
      ⟨by rw [h.frame], h.rep, h.tracks, h.minset, h.maxset⟩
    refine (collapseNodes_spec (u := u) (l := vs) h₁).bind fun g2 ⟨f2, hg2, hrep2, htr2⟩ => ?_
    have hmin2 : g2.minset = g.minset := by rw [hg2]
    have hmax2 : g2.maxset = g.maxset := by rw [hg2]
    have hup : ∀ a b, f a = f b → f2 a = f2 b := fun _ _ hab =>
      tracks_mono h.tracks htr2 (fun _ _ => .inl) hab
    have hmin : SetOf f2 (InMin S) g2.minset := hmin2 ▸ h.minset.mono hup
    have hmax : SetOf f2 (InMax S) g2.maxset := hmax2 ▸ h.maxset.mono hup
    have hPmin : ∀ {a b}, InMin S a → InMin S b → f2 a = f2 b := fun ha hb =>
      htr2.rel (.inl (.inr (.inl ⟨ha, hb⟩)))
    have hPmax : ∀ {a b}, InMax S a → InMax S b → f2 a = f2 b := fun ha hb =>
      htr2.rel (.inl (.inr (.inr ⟨ha, hb⟩)))
    -- a set the rank set is joined to stands for its old nodes and the new ones
    have hjoin : ∀ {f' : Fin n → Fin n} {P : Fin n → Prop} {set : Option (Fin n)},
        (∃ m, set = some m ∧ f' m = f' u) → SetOf f' (fun w => P w ∨ w ∈ u :: vs) set := by
      rintro f' P set ⟨m, rfl, hm⟩
      refine ⟨fun hs => (nomatch hs), fun hs => ?_⟩
      obtain rfl := Option.some.inj hs
      exact ⟨u, .inr List.mem_cons_self, hm⟩
    have hframe : ∀ {g' : DotGraph n}, g' = { g2 with
        uf := g'.uf, ranktype := g'.ranktype, minset := g'.minset, maxset := g'.maxset } →
        g' = { g₀ with
          uf := g'.uf, ranktype := g'.ranktype, minset := g'.minset, maxset := g'.maxset } := by
      intro g' hg'
      rw [hg', hg2, h.frame]
    have hminCase : kind.isMin = true → kind.isMax = false → ∀ {uf : UF n}
        {set : Option (Fin n)} {rt : Fin n → Option RankKind} {f' : Fin n → Fin n},
        Represents uf.parent f' →
        Tracks f' (fun a b => (Linked S a b ∨ (a = u ∧ b ∈ vs)) ∨ (InMin S a ∧ b = u)) →
        (∃ m, set = some m ∧ f' m = f' u) →
        CollapseInv g₀ (S ++ [(kind, u :: vs)]) f'
          { g2 with uf := uf, minset := set, ranktype := rt } := by
      intro hk hk' uf set rt f' hrep htr hset
      refine ⟨hframe rfl, hrep, tracks_snoc (htr.congr (fun a b hab => .rel _ _ ?_) fun a b hab =>
        .rel _ _ ?_), (hjoin (P := InMin S) hset).congr fun w => ?_, SetOf.congr (hmax.mono fun _ _ hab =>
        tracks_mono htr2 htr (fun _ _ => .inl) hab) fun w => ?_⟩
      · simp only [Merges, hk, hk']; tauto
      · simp only [Merges, hk, hk'] at hab; tauto
      · rw [inMin_snoc]; simp only [hk, true_and]
      · rw [inMax_snoc]; simp [hk']
    have hmaxCase : kind.isMin = false → kind.isMax = true → ∀ {uf : UF n}
        {set : Option (Fin n)} {rt : Fin n → Option RankKind} {f' : Fin n → Fin n},
        Represents uf.parent f' →
        Tracks f' (fun a b => (Linked S a b ∨ (a = u ∧ b ∈ vs)) ∨ (InMax S a ∧ b = u)) →
        (∃ m, set = some m ∧ f' m = f' u) →
        CollapseInv g₀ (S ++ [(kind, u :: vs)]) f'
          { g2 with uf := uf, maxset := set, ranktype := rt } := by
      intro hk hk' uf set rt f' hrep htr hset
      refine ⟨hframe rfl, hrep, tracks_snoc (htr.congr (fun a b hab => .rel _ _ ?_) fun a b hab =>
        .rel _ _ ?_), SetOf.congr (hmin.mono fun _ _ hab =>
        tracks_mono htr2 htr (fun _ _ => .inl) hab) fun w => ?_,
        (hjoin (P := InMax S) hset).congr fun w => ?_⟩
      · simp only [Merges, hk, hk']; tauto
      · simp only [Merges, hk, hk'] at hab; tauto
      · rw [inMin_snoc]; simp [hk]
      · rw [inMax_snoc]; simp only [hk', true_and]
    cases kind with
    | same =>
      refine ⟨f2, hframe rfl, hrep2, tracks_snoc (htr2.congr (fun a b hab => .rel _ _ ?_)
        fun a b hab => .rel _ _ ?_), hmin.congr fun w => ?_, hmax.congr fun w => ?_⟩
      · simp only [Merges, RankKind.isMin, RankKind.isMax]; tauto
      · simp only [Merges, RankKind.isMin, RankKind.isMax] at hab; tauto
      · rw [inMin_snoc]; simp [RankKind.isMin]
      · rw [inMax_snoc]; simp [RankKind.isMax]
    | min =>
      refine (joinSet_spec (u := u) hrep2 htr2 hmin hPmin).bind fun ⟨uf, set⟩ ⟨f', h1, h2, h3⟩ => ?_
      exact ⟨f', hminCase rfl rfl h1 h2 h3⟩
    | source =>
      refine (joinSet_spec (u := u) hrep2 htr2 hmin hPmin).bind fun ⟨uf, set⟩ ⟨f', h1, h2, h3⟩ => ?_
      exact ⟨f', hminCase rfl rfl h1 h2 h3⟩
    | max =>
      refine (joinSet_spec (u := u) hrep2 htr2 hmax hPmax).bind fun ⟨uf, set⟩ ⟨f', h1, h2, h3⟩ => ?_
      exact ⟨f', hmaxCase rfl rfl h1 h2 h3⟩
    | sink =>
      refine (joinSet_spec (u := u) hrep2 htr2 hmax hPmax).bind fun ⟨uf, set⟩ ⟨f', h1, h2, h3⟩ => ?_
      exact ⟨f', hmaxCase rfl rfl h1 h2 h3⟩

/-- `collapse_sets` links the nodes of all rank sets. -/
theorem collapseSets_spec {g₀ g : DotGraph n} (subgs : SubgList n) (h : CollapseInv g₀ S f g) :
    Meets (collapseSets subgs g) (fun g' => ∃ f', CollapseInv g₀ (S ++ rankSets subgs) f' g')
      fun _ => False := by
  induction subgs generalizing g S f with
  | nil => exact ⟨f, by rw [rankSets, List.append_nil]; exact h⟩
  | cons rank nodes subgs next ihs ihn =>
    unfold collapseSets rankSets
    cases hk : rankSetClass rank with
    | some kind =>
      refine (collapseRankset_spec h).bind fun g1 ⟨f1, h1⟩ => ?_
      simpa only [List.append_assoc] using ihn h1
    | none =>
      refine (ihs h).bind fun g1 ⟨f1, h1⟩ => ?_
      simpa only [List.append_assoc] using ihn h1

/-! ## Edges between leaders -/

/-- The state of the ranking phase when the leaders are fixed: the edges join leaders. -/
structure Ranked (f : Fin n → Fin n) (g : DotGraph n) : Prop where
  rep : Represents g.uf.parent f
  wf : g.fg.Wf
  leads : Leads f g.fg

/-- A change of shape leaves the edges between leaders. -/
theorem Ranked.sameShape {g : DotGraph n} {uf : UF n} {fg : FastGraph n} (h : Ranked f g)
    (hrep : Represents uf.parent f) (hs : SameShape g.fg fg) :
    Ranked f { g with uf := uf, fg := fg } :=
  ⟨hrep, hs.wf h.wf, fun huw => h.leads (hs.adj.1 huw)⟩

/-- The invariant of `class1`: the input edges stay off the lists. -/
structure Class1Inv (inp : RankInput n) (f : Fin n → Fin n) (g₀ g : DotGraph n) : Prop
    extends Ranked f g where
  frame : g = { g₀ with uf := g.uf, fg := g.fg }
  next : inp.nEdges ≤ g.fg.next
  virtual : ∀ {v e}, e ∈ g.fg.out v → inp.nEdges ≤ e

/-- One edge of `class1`. -/
theorem class1Edge_spec {inp : RankInput n} {g₀ g : DotGraph n} (h : Class1Inv inp f g₀ g) {e : ℕ}
    (he : e < inp.nEdges) : Meets (class1Edge inp g e) (Class1Inv inp f g₀) fun _ => False := by
  unfold class1Edge
  split
  next => exact h
  next hvirt =>
    split
    next => exact h
    next =>
      refine (UF.find_spec h.rep _).bind fun ⟨uf, t⟩ ⟨hrep, ht⟩ => ?_
      refine (UF.find_spec hrep _).bind fun ⟨uf', hd⟩ ⟨hrep', hh⟩ => ?_
      simp only at hrep hrep' ht hh ⊢
      have hout : ∀ v, e ∉ g.fg.out v := fun v hv => absurd (h.virtual hv) (by omega)
      have hlead : f t = t ∧ f hd = hd := by rw [ht, hh]; exact ⟨hrep.idem _, hrep.idem _⟩
      split
      next => exact ⟨⟨hrep', h.wf, h.leads⟩, by rw [h.frame], h.next, h.virtual⟩
      next hne =>
        cases hf : g.fg.findFastEdge t hd with
        | some rep =>
          obtain ⟨hmem, -⟩ := h.wf.findFastEdge_some hf
          refine (mergeOneway_spec h.wf hout (by simpa using hvirt) hmem).bind fun fg hs => ?_
          refine ⟨h.toRanked.sameShape hrep' hs, by rw [h.frame], ?_, fun {v e'} he' => ?_⟩
          · show inp.nEdges ≤ fg.next
            rw [hs.next]; exact h.next
          · have he' : e' ∈ fg.out v := he'
            rw [hs.out] at he'
            exact h.virtual he'
        | none =>
          obtain ⟨hwf, hadd⟩ := virtualEdge_spec h.wf (o := some e) hne
            (h.wf.findFastEdge_none hf) fun o ho => by
              obtain rfl := Option.some.inj ho
              exact ⟨he.trans_le h.next, hout⟩
          refine ⟨⟨hrep', hwf, fun {u w} huw => ?_⟩, by rw [h.frame], ?_, fun {v e'} he' => ?_⟩
          · obtain huw | ⟨rfl, rfl⟩ := (hadd.adj h.wf).1 huw
            · exact h.leads huw
            · exact hlead
          · have := hadd.next
            have := h.next
            simp only
            omega
          · by_cases hv : v = t
            · subst hv
              have he' : e' ∈ (g.fg.virtualEdge v hd (some e)).1.out v := he'
              rw [hadd.out_tail] at he'
              obtain he' | he' := List.mem_append.1 he'
              · exact h.virtual he'
              · rw [List.mem_singleton.1 he']; exact h.next
            · have he' : e' ∈ (g.fg.virtualEdge t hd (some e)).1.out v := he'
              rw [hadd.out_other hv] at he'
              exact h.virtual he'

/-- `class1` joins leaders. -/
theorem class1_spec {inp : RankInput n} {g₀ g : DotGraph n} (h : Class1Inv inp f g₀ g) :
    Meets (class1 inp g) (Class1Inv inp f g₀) fun _ => False := by
  unfold class1
  refine Meets.foldlM (fun _ => Class1Inv inp f g₀) (fun v _ g1 h1 => ?_) g h
  refine (Meets.foldlM (fun rest g' => Class1Inv inp f g₀ g' ∧ ∀ e ∈ rest, e < inp.nEdges)
    (fun e rest g2 h2 => ?_) g1 ⟨h1, fun e he => ?_⟩).imp fun _ => And.left
  · exact (class1Edge_spec h2.1 (h2.2 e List.mem_cons_self)).imp fun g' h' =>
      ⟨h', fun e' he' => h2.2 e' (List.mem_cons_of_mem _ he')⟩
  · exact List.mem_range.1 (List.mem_of_mem_filter he)

end Graphviz
