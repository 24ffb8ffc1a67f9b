import Graphviz.Dotgen.FastGraph
import Graphviz.Library.Instances

/-!
# The order of a rank with flat edges (`dotgen/mincross.c`)

`flat_reorder` puts the nodes of each rank in an order that the constraining flat edges follow: it
lists them in postorder of a depth-first search from those without constraining edges into them,
copies the list back, and reverses the flat edges that do not constrain and go the other way.
`inside_cluster` reads nothing that is written here; labels and ports of edges are left out.
-/

namespace Graphviz

open Function

variable {n : ℕ}

/-- `ED_edge_type`. -/
inductive EdgeType where
  | NORMAL
  | VIRTUAL
  | REVERSED
  | FLATORDER
  deriving DecidableEq, Repr

/-- The fast graph with its flat edges and its ranks, as `flat_reorder` reads and writes them. The
array `rank r` is the part of the root's that is the graph's own. -/
structure FlatRanks (n : ℕ) extends FastGraph n where
  flatOut : Fin n → List ℕ
  flatIn : Fin n → List ℕ
  other : Fin n → List ℕ
  edgeType : ℕ → EdgeType
  insideCluster : Fin n → Bool
  flip : Bool
  hasFlatEdges : Bool
  minrank : ℕ
  maxrank : ℕ
  rank : ℕ → List (Fin n)
  valid : ℕ → Bool
  nodeRank : Fin n → ℕ
  order : Fin n → ℕ
  mark : Fin n → Bool

namespace FlatRanks

/-- `aghead`. -/
abbrev aghead (g : FlatRanks n) (e : ℕ) : Fin n := (g.edge e).head

/-- `agtail`. -/
abbrev agtail (g : FlatRanks n) (e : ℕ) : Fin n := (g.edge e).tail

/-- `constraining_flat_edge`. -/
def constrainingFlatEdge (g : FlatRanks n) (e : ℕ) : Bool :=
  (g.edge e).weight ≠ 0 ∧ g.insideCluster (g.agtail e) ∧ g.insideCluster (g.aghead e)

/-! ## Flat edges -/

/-- `flat_edge`. -/
def flatEdge (g : FlatRanks n) (e : ℕ) : FlatRanks n :=
  { g with
    flatOut := update g.flatOut (g.agtail e) (g.flatOut (g.agtail e) ++ [e])
    flatIn := update g.flatIn (g.aghead e) (g.flatIn (g.aghead e) ++ [e])
    hasFlatEdges := true }

/-- What `delete_flat_edge` does to the edge that the deleted one stood for. -/
def detach (g : FlatRanks n) (e : ℕ) : FlatRanks n :=
  match (g.edge e).toOrig with
  | some o =>
    if (g.edge o).toVirt = some e then
      { g with toFastGraph := g.setEdge o { g.edge o with toVirt := none } }
    else g
  | none => g

/-- `delete_flat_edge`. -/
def deleteFlatEdge (g : FlatRanks n) (e : ℕ) : FlatRanks n :=
  let g := g.detach e
  { g with
    flatOut := update g.flatOut (g.agtail e) (FastGraph.zapinlist (g.flatOut (g.agtail e)) e)
    flatIn := update g.flatIn (g.aghead e) (FastGraph.zapinlist (g.flatIn (g.aghead e)) e) }

/-- The merge of a flat edge into one that goes the other way. -/
def mergeRev (g : FlatRanks n) (e rev : ℕ) : Except Fault (FlatRanks n) := do
  let fast ← g.toFastGraph.mergeOneway e rev
  let fast :=
    if g.edgeType rev = .FLATORDER ∧ (fast.edge rev).toOrig = none then
      fast.setEdge rev { fast.edge rev with toOrig := some e }
    else fast
  .ok { g with
    toFastGraph := fast
    other := update g.other (g.agtail e) (g.other (g.agtail e) ++ [e]) }

/-- A new flat edge that goes the other way. -/
def newRev (g : FlatRanks n) (e : ℕ) : FlatRanks n :=
  let (fast, rev) := g.toFastGraph.newVirtualEdge (g.aghead e) (g.agtail e) (some e)
  let type := if g.edgeType e = .FLATORDER then EdgeType.FLATORDER else EdgeType.REVERSED
  flatEdge { g with toFastGraph := fast, edgeType := update g.edgeType rev type } rev

/-- `flat_rev`. -/
def flatRev (g : FlatRanks n) (e : ℕ) : Except Fault (FlatRanks n) :=
  match (g.flatOut (g.aghead e)).find? fun rev => g.aghead rev = g.agtail e with
  | some rev => g.mergeRev e rev
  | none => .ok (g.newRev e)

/-! ## The order -/

/-- The marks of the nodes and the list `temprank`. -/
structure Search (n : ℕ) where
  mark : Fin n → Bool
  temprank : List (Fin n)

/-- `postorder`. -/
def postorder (g : FlatRanks n) (r : ℕ) : ℕ → Fin n → Search n → Except Fault (Search n)
  | 0, _, _ => .error .fuel
  | fuel + 1, v, st => do
    let st ← (g.flatOut v).foldlM (fun st e =>
      if g.constrainingFlatEdge e then
        if st.mark (g.aghead e) then .ok st else postorder g r fuel (g.aghead e) st
      else .ok st) { st with mark := update st.mark v true }
    assert (g.nodeRank v = r)
    .ok { st with temprank := st.temprank ++ [v] }

/-- The body of the loop that makes `temprank`. No search is deeper than there are nodes. -/
def visit (g : FlatRanks n) (r : ℕ) (st : Search n) (v : Fin n) : Except Fault (Search n) :=
  let localInCnt := (g.flatIn v).countP g.constrainingFlatEdge
  let localOutCnt := (g.flatOut v).countP g.constrainingFlatEdge
  if localInCnt = 0 ∧ localOutCnt = 0 then .ok { st with temprank := st.temprank ++ [v] }
  else if ¬ st.mark v ∧ localInCnt = 0 then g.postorder r (n + 1) v st
  else .ok st

/-- The body of the loop that copies `temprank` back, for the position `i`. -/
def copyBack (r baseOrder : ℕ) (temprank : List (Fin n)) (g : FlatRanks n) (i : ℕ) :
    Except Fault (FlatRanks n) :=
  match temprank[i]? with
  | none => .error .assertion
  | some v => .ok { g with
      rank := update g.rank r ((g.rank r).set i v)
      order := update g.order v (i + baseOrder) }

/-- An edge goes the wrong way. -/
def goesBack (g : FlatRanks n) (e : ℕ) : Bool :=
  (¬ g.flip ∧ g.order (g.aghead e) < g.order (g.agtail e)) ∨
    (g.flip ∧ g.order (g.aghead e) > g.order (g.agtail e))

/-- The loop over the flat edges of a node, from the index `j` on. -/
def makeLR (v : Fin n) : ℕ → ℕ → FlatRanks n → Except Fault (FlatRanks n)
  | 0, _, _ => .error .fuel
  | fuel + 1, j, g =>
    match (g.flatOut v)[j]? with
    | none => .ok g
    | some e =>
      if g.goesBack e then do
        assert (¬ g.constrainingFlatEdge e)
        let g ← (g.deleteFlatEdge e).flatRev e
        makeLR v fuel j g
      else makeLR v fuel (j + 1) g

/-- The edges of the nodes that are left, made to go the right way. Each step of a loop over the
edges of a node deletes one or goes on to the next. -/
def makeAllLR (r : ℕ) (g : FlatRanks n) : Except Fault (FlatRanks n) :=
  (g.rank r).foldlM (fun g v => makeLR v ((g.flatOut v).length + 1) 0 g) g

/-- A rank takes the order of `temprank`. -/
def install (g : FlatRanks n) (r baseOrder : ℕ) (temprank : List (Fin n)) :
    Except Fault (FlatRanks n) :=
  if temprank ≠ [] then do
    let temprank := if g.flip then temprank else temprank.reverse
    let g ← (List.range (g.rank r).length).foldlM (copyBack r baseOrder temprank) g
    g.makeAllLR r
  else .ok g

attribute [local instance] Instances.lawfulBEq_fin

/-- The body of the loop of `flat_reorder` over the ranks. -/
def reorderRank (g : FlatRanks n) (r : ℕ) : Except Fault (FlatRanks n) :=
  match g.rank r with
  | [] => .ok g
  | first :: _ => do
    let baseOrder := g.order first
    let mark := fun v => if v ∈ g.rank r then false else g.mark v
    let scan := if g.flip then g.rank r else (g.rank r).reverse
    let st ← scan.foldlM (g.visit r) { mark, temprank := [] }
    let g ← { g with mark := st.mark }.install r baseOrder st.temprank
    .ok { g with valid := update g.valid r false }

/-- `flat_reorder`. -/
def flatReorder (g : FlatRanks n) : Except Fault (FlatRanks n) :=
  if ¬ g.hasFlatEdges then .ok g
  else (List.range' g.minrank (g.maxrank + 1 - g.minrank)).foldlM reorderRank g

end FlatRanks

end Graphviz

/-!
## Flat edges that constrain nothing

What `flat_reorder` needs of the flat edges and of the ranks, and that neither the deletion of a
flat edge that constrains nothing nor its reversal takes it away. The edges that constrain stay the
same.
-/

namespace Graphviz

open Function List Outcome

variable {n : ℕ}

namespace FlatRanks

variable {g g' : FlatRanks n} {e rev x r : ℕ} {u v w : Fin n}

/-- A constraining flat edge from `u` to `v`. -/
def Constraint (g : FlatRanks n) (e : ℕ) (u v : Fin n) : Prop :=
  e ∈ g.flatOut u ∧ g.constrainingFlatEdge e = true ∧ g.aghead e = v

/-- A node must come before another. -/
def Constrains (g : FlatRanks n) (u v : Fin n) : Prop := ∃ e, g.Constraint e u v

/-- The lists of an edge's ends both have a flat edge, once, and it was not merged into another;
each node is on one rank, and a constraining flat edge joins nodes of one rank. -/
structure Valid (g : FlatRanks n) : Prop where
  outTail : ∀ v, ∀ e ∈ g.flatOut v, g.agtail e = v
  inHead : ∀ v, ∀ e ∈ g.flatIn v, g.aghead e = v
  outIn : ∀ v, ∀ e ∈ g.flatOut v, e ∈ g.flatIn (g.aghead e)
  inOut : ∀ v, ∀ e ∈ g.flatIn v, e ∈ g.flatOut (g.agtail e)
  outNodup : ∀ v, (g.flatOut v).Nodup
  inNodup : ∀ v, (g.flatIn v).Nodup
  virt : ∀ v, ∀ e ∈ g.flatOut v, (g.edge e).toVirt = none
  fresh : ∀ v, ∀ e ∈ g.flatOut v, e < g.next
  rankNodup : ∀ r, (g.rank r).Nodup
  nodeRank : ∀ r, ∀ v ∈ g.rank r, g.nodeRank v = r
  closed : ∀ u v r, g.Constrains u v → (u ∈ g.rank r ↔ v ∈ g.rank r)

/-- What the changes of flat edges that constrain nothing leave. -/
structure Kept (g g' : FlatRanks n) : Prop where
  rank : g'.rank = g.rank
  order : g'.order = g.order
  flip : g'.flip = g.flip
  nodeRank : g'.nodeRank = g.nodeRank
  same : ∀ e u v, g'.Constraint e u v ↔ g.Constraint e u v

theorem Kept.refl (g : FlatRanks n) : Kept g g := ⟨rfl, rfl, rfl, rfl, fun _ _ _ => .rfl⟩

theorem Kept.trans {g'' : FlatRanks n} (h : Kept g g') (h' : Kept g' g'') : Kept g g'' :=
  ⟨h'.rank.trans h.rank, h'.order.trans h.order, h'.flip.trans h.flip,
    h'.nodeRank.trans h.nodeRank, fun e u v => (h'.same e u v).trans (h.same e u v)⟩

theorem Kept.constrains (h : Kept g g') : g'.Constrains u v ↔ g.Constrains u v :=
  exists_congr fun e => h.same e u v

theorem constrainingFlatEdge_iff : g.constrainingFlatEdge e = true ↔
    (g.edge e).weight ≠ 0 ∧ g.insideCluster (g.agtail e) ∧ g.insideCluster (g.aghead e) :=
  decide_eq_true_iff

theorem constraining_congr (hin : g'.insideCluster = g.insideCluster)
    (ht : (g'.edge x).tail = (g.edge x).tail) (hh : (g'.edge x).head = (g.edge x).head)
    (hw : (g'.edge x).weight = (g.edge x).weight) :
    g'.constrainingFlatEdge x = g.constrainingFlatEdge x := by
  rw [Bool.eq_iff_iff, constrainingFlatEdge_iff, constrainingFlatEdge_iff, aghead, agtail, hin, ht,
    hh, hw]

/-- The records of the edges change, and the ends of the flat edges and what they constrain do
not. -/
theorem Valid.setEdges (h : g.Valid) (edge : ℕ → Fedge n)
    (hedge : ∀ v, ∀ x ∈ g.flatOut v, (edge x).tail = g.agtail x ∧ (edge x).head = g.aghead x ∧
      (edge x).toVirt = none ∧ constrainingFlatEdge { g with edge } x = g.constrainingFlatEdge x) :
    Valid { g with edge } ∧ Kept g { g with edge } := by
  have hin : ∀ v, ∀ x ∈ g.flatIn v, (edge x).tail = g.agtail x ∧ (edge x).head = g.aghead x :=
    fun v x hx => ⟨(hedge _ x (h.inOut v x hx)).1, (hedge _ x (h.inOut v x hx)).2.1⟩
  have hsame : ∀ e u v, Constraint { g with edge } e u v ↔ g.Constraint e u v := by
    refine fun e u v => and_congr_right fun he => ?_
    obtain ⟨-, hhead, -, hcon⟩ := hedge u e he
    rw [hcon]
    exact and_congr_right fun _ => by rw [aghead, hhead]
  have hkept : Kept g { g with edge } := ⟨rfl, rfl, rfl, rfl, hsame⟩
  refine ⟨⟨fun v x hx => ?_, fun v x hx => ?_, fun v x hx => ?_, fun v x hx => ?_, h.outNodup,
    h.inNodup, fun v x hx => (hedge v x hx).2.2.1, h.fresh, h.rankNodup, h.nodeRank,
    fun u v r hc => h.closed u v r (hkept.constrains.1 hc)⟩, hkept⟩
  · exact (hedge v x hx).1.trans (h.outTail v x hx)
  · exact (hin v x hx).2.trans (h.inHead v x hx)
  · have hhead : (edge x).head = g.aghead x := (hedge v x hx).2.1
    rw [aghead, hhead]
    exact h.outIn v x hx
  · have htail : (edge x).tail = g.agtail x := (hin v x hx).1
    rw [agtail, htail]
    exact h.inOut v x hx

/-! ## Deletion -/

/-- `detach` changes the chain of one edge. -/
theorem detach_eq (g : FlatRanks n) (e : ℕ) : ∃ edge : ℕ → Fedge n, g.detach e = { g with edge } ∧
    ∀ x, edge x = g.edge x ∨ edge x = { g.edge x with toVirt := none } := by
  rw [detach]
  split
  · rename_i o _
    split
    · refine ⟨update g.edge o { g.edge o with toVirt := none }, rfl, fun x => ?_⟩
      by_cases hx : x = o
      · subst hx
        rw [update_self]
        exact .inr rfl
      · rw [update_of_ne hx]
        exact .inl rfl
    · exact ⟨g.edge, rfl, fun x => .inl rfl⟩
  · exact ⟨g.edge, rfl, fun x => .inl rfl⟩

theorem mem_update_zapinlist {f : Fin n → List ℕ} (hf : ∀ v, (f v).Nodup) (u : Fin n) :
    x ∈ update f u (FastGraph.zapinlist (f u) e) v ↔ x ∈ f v ∧ (v = u → x ≠ e) := by
  by_cases hv : v = u
  · subst hv
    rw [update_self, FastGraph.mem_zapinlist (hf v)]
    simp
  · rw [update_of_ne hv]
    simp [hv]

theorem nodup_zapinlist {l : List ℕ} (hl : l.Nodup) : (FastGraph.zapinlist l e).Nodup := by
  have h := FastGraph.zapinlist_map_nodup (e := e) (k := id) (by rwa [map_id])
  rwa [map_id] at h

theorem length_zapinlist {l : List ℕ} (he : e ∈ l) :
    (FastGraph.zapinlist l e).length < l.length := by
  rw [(FastGraph.zapinlist_perm he).length_eq, length_erase_of_mem he]
  have := length_pos_of_mem he
  omega

/-- The lists lose an edge that constrains nothing. -/
theorem Valid.zap (h : g.Valid) (hcon : g.constrainingFlatEdge e = false) :
    let g' : FlatRanks n := { g with
      flatOut := update g.flatOut (g.agtail e) (FastGraph.zapinlist (g.flatOut (g.agtail e)) e)
      flatIn := update g.flatIn (g.aghead e) (FastGraph.zapinlist (g.flatIn (g.aghead e)) e) }
    Valid g' ∧ Kept g g' ∧ ∀ v x, x ∈ g'.flatOut v ↔ x ∈ g.flatOut v ∧ x ≠ e := by
  intro g'
  have hout : ∀ v x, x ∈ g'.flatOut v ↔ x ∈ g.flatOut v ∧ x ≠ e := by
    refine fun v x => (mem_update_zapinlist h.outNodup _).trans (and_congr_right fun hx => ?_)
    exact ⟨fun hne hxe => hne (by rw [← h.outTail v x hx, hxe]) hxe, fun hne _ => hne⟩
  have hin : ∀ v x, x ∈ g'.flatIn v ↔ x ∈ g.flatIn v ∧ x ≠ e := by
    refine fun v x => (mem_update_zapinlist h.inNodup _).trans (and_congr_right fun hx => ?_)
    exact ⟨fun hne hxe => hne (by rw [← h.inHead v x hx, hxe]) hxe, fun hne _ => hne⟩
  have hkept : Kept g g' := by
    refine ⟨rfl, rfl, rfl, rfl, fun x u v => ?_⟩
    rw [Constraint, hout]
    constructor
    · rintro ⟨⟨hx, -⟩, hc⟩
      exact ⟨hx, hc⟩
    · rintro ⟨hx, hc, hv⟩
      refine ⟨⟨hx, fun hxe => ?_⟩, hc, hv⟩
      rw [hxe, hcon] at hc
      cases hc
  have hnodup : ∀ (f : Fin n → List ℕ) (u : Fin n), (∀ v, (f v).Nodup) →
      ∀ v, (update f u (FastGraph.zapinlist (f u) e) v).Nodup := by
    intro f u hf v
    by_cases hv : v = u
    · subst hv
      rw [update_self]
      exact nodup_zapinlist (hf v)
    · rw [update_of_ne hv]
      exact hf v
  refine ⟨⟨fun v x hx => ?_, fun v x hx => ?_, fun v x hx => ?_, fun v x hx => ?_,
    hnodup _ _ h.outNodup, hnodup _ _ h.inNodup, fun v x hx => ?_, fun v x hx => ?_, h.rankNodup,
    h.nodeRank, fun u v r hc => h.closed u v r (hkept.constrains.1 hc)⟩, hkept, hout⟩
  · exact h.outTail v x ((hout v x).1 hx).1
  · exact h.inHead v x ((hin v x).1 hx).1
  · obtain ⟨hx, hne⟩ := (hout v x).1 hx
    exact (hin _ x).2 ⟨h.outIn v x hx, hne⟩
  · obtain ⟨hx, hne⟩ := (hin v x).1 hx
    exact (hout _ x).2 ⟨h.inOut v x hx, hne⟩
  · exact h.virt v x ((hout v x).1 hx).1
  · exact h.fresh v x ((hout v x).1 hx).1

/-- A flat edge that constrains nothing is deleted. -/
structure Deleted (g : FlatRanks n) (e : ℕ) (g' : FlatRanks n) : Prop where
  valid : g'.Valid
  kept : Kept g g'
  mem : ∀ v x, x ∈ g'.flatOut v ↔ x ∈ g.flatOut v ∧ x ≠ e
  length : (g'.flatOut (g.agtail e)).length < (g.flatOut (g.agtail e)).length
  edge : g'.edge e = g.edge e
  next : g'.next = g.next
  insideCluster : g'.insideCluster = g.insideCluster

theorem Valid.delete (h : g.Valid) (he : e ∈ g.flatOut u)
    (hcon : g.constrainingFlatEdge e = false) : Deleted g e (g.deleteFlatEdge e) := by
  obtain ⟨edge, hdetach, hedge⟩ := detach_eq g e
  have hfields : ∀ x, (edge x).tail = g.agtail x ∧ (edge x).head = g.aghead x ∧
      (edge x).weight = (g.edge x).weight ∧
      ((g.edge x).toVirt = none → (edge x).toVirt = none) := by
    intro x
    obtain hx | hx := hedge x
    · rw [hx]
      exact ⟨rfl, rfl, rfl, id⟩
    · rw [hx]
      exact ⟨rfl, rfl, rfl, fun _ => rfl⟩
  have hcons : ∀ x, constrainingFlatEdge { g with edge } x = g.constrainingFlatEdge x := fun x =>
    constraining_congr rfl (hfields x).1 (hfields x).2.1 (hfields x).2.2.1
  obtain ⟨hvalid, hkept⟩ := h.setEdges edge fun v x hx =>
    ⟨(hfields x).1, (hfields x).2.1, (hfields x).2.2.2 (h.virt v x hx), hcons x⟩
  obtain ⟨hvalid', hkept', hmem⟩ := hvalid.zap (e := e) ((hcons e).trans hcon)
  rw [deleteFlatEdge, hdetach]
  refine ⟨hvalid', hkept.trans hkept', hmem, ?_, ?_, rfl, rfl⟩
  · have htail : agtail { g with edge } e = g.agtail e := (hfields e).1
    dsimp only
    rw [htail, update_self]
    exact length_zapinlist (h.outTail u e he ▸ he)
  obtain hx | hx := hedge e
  · exact hx
  · refine hx.trans ?_
    rw [← h.virt u e he]

/-! ## Reversal -/

/-- A merge into an edge that stands for itself. -/
theorem mergeOneway_edges {f : FastGraph n} (hne : rev ≠ e) (hv : (f.edge e).toVirt = none)
    (hr : (f.edge rev).toVirt = none) : ∃ edge : ℕ → Fedge n,
      f.mergeOneway e rev = .ok { f with edge } ∧ (∀ x, x ≠ e → x ≠ rev → edge x = f.edge x) ∧
      (edge rev).tail = (f.edge rev).tail ∧ (edge rev).head = (f.edge rev).head ∧
      (edge rev).toVirt = none ∧ (edge rev).weight = (f.edge rev).weight + (f.edge e).weight := by
  have hchain : ∀ f' : FastGraph n, (f'.edge rev).toVirt = none → ∃ edge : ℕ → Fedge n,
      FastGraph.mergeChain (f'.next + 1) f' e (some rev) = .ok { f' with edge } ∧
      (∀ x, x ≠ rev → edge x = f'.edge x) ∧ (edge rev).tail = (f'.edge rev).tail ∧
      (edge rev).head = (f'.edge rev).head ∧ (edge rev).toVirt = none ∧
      (edge rev).weight = (f'.edge rev).weight + (f'.edge e).weight := by
    intro f' hf'
    rw [FastGraph.mergeChain]
    simp only [FastGraph.setEdge, update_self, hf']
    rw [FastGraph.mergeChain]
    refine ⟨_, rfl, fun x hx => update_of_ne hx _ _, ?_⟩
    rw [update_self]
    exact ⟨rfl, rfl, rfl, rfl⟩
  rw [FastGraph.mergeOneway, if_neg (by rw [hv, hr]; simp), assert, if_pos hv, ok_bind]
  dsimp only
  rw [FastGraph.basicMerge]
  -- the length that the first test sets is not among what is asked for
  have hmin : ∀ minlen : ℤ, ∃ edge : ℕ → Fedge n,
      FastGraph.mergeChain (f.next + 1) ((f.setEdge e { f.edge e with toVirt := some rev }).setEdge rev
        { f.edge rev with minlen }) e (some rev) = .ok { f with edge } ∧
      (∀ x, x ≠ e → x ≠ rev → edge x = f.edge x) ∧
      (edge rev).tail = (f.edge rev).tail ∧ (edge rev).head = (f.edge rev).head ∧
      (edge rev).toVirt = none ∧ (edge rev).weight = (f.edge rev).weight + (f.edge e).weight := by
    intro minlen
    obtain ⟨edge, hok, hother, htail, hhead, hvirt, hweight⟩ := hchain
      ((f.setEdge e { f.edge e with toVirt := some rev }).setEdge rev { f.edge rev with minlen })
      (by simp only [FastGraph.setEdge, update_self]; exact hr)
    simp only [FastGraph.setEdge, update_self, update_of_ne hne.symm]
      at hok hother htail hhead hweight ⊢
    refine ⟨edge, hok, fun x hxe hxr => ?_, htail, hhead, hvirt, hweight⟩
    rw [hother x hxr, update_of_ne hxr, update_of_ne hxe]
  have hrev : (f.setEdge e { f.edge e with toVirt := some rev }).edge rev = f.edge rev := by
    simp only [FastGraph.setEdge, update_of_ne hne]
  rw [hrev]
  split
  · exact hmin _
  · have hself : ((f.setEdge e { f.edge e with toVirt := some rev }).setEdge rev
        { f.edge rev with minlen := (f.edge rev).minlen }) =
        f.setEdge e { f.edge e with toVirt := some rev } := by
      rw [← hrev, FastGraph.setEdge]
      simp
    have := hmin (f.edge rev).minlen
    rwa [hself] at this

/-- A flat edge that is on no list is put on the lists of its ends. -/
theorem Valid.flatEdge (h : g.Valid) (hoff : ∀ v, x ∉ g.flatOut v)
    (hcon : g.constrainingFlatEdge x = false) (hvirt : (g.edge x).toVirt = none)
    (hfresh : x < g.next) : Valid (g.flatEdge x) ∧ Kept g (g.flatEdge x) := by
  have hoffIn : ∀ v, x ∉ g.flatIn v := fun v hx => hoff _ (h.inOut v x hx)
  have hmem : ∀ (f : Fin n → List ℕ) (u v : Fin n) (y : ℕ),
      y ∈ update f u (f u ++ [x]) v ↔ y ∈ f v ∨ v = u ∧ y = x := by
    intro f u v y
    by_cases hv : v = u
    · subst hv
      simp
    · simp [hv]
  have hnodup : ∀ (f : Fin n → List ℕ) (u : Fin n), (∀ v, (f v).Nodup) → (∀ v, x ∉ f v) →
      ∀ v, (update f u (f u ++ [x]) v).Nodup := by
    intro f u hf hx v
    by_cases hv : v = u
    · subst hv
      rw [update_self]
      exact nodup_append'.2 ⟨hf v, nodup_singleton x, disjoint_singleton.2 (hx v)⟩
    · rw [update_of_ne hv]
      exact hf v
  have hout := hmem g.flatOut (g.agtail x)
  have hin := hmem g.flatIn (g.aghead x)
  have hkept : Kept g (g.flatEdge x) := by
    refine ⟨rfl, rfl, rfl, rfl, fun y u v => ?_⟩
    refine (and_congr_left fun hc => ?_)
    rw [FlatRanks.flatEdge, hout]
    refine or_iff_left fun hx => ?_
    have hc' : g.constrainingFlatEdge y = true := hc.1
    rw [hx.2, hcon] at hc'
    cases hc'
  refine ⟨⟨fun v y hy => ?_, fun v y hy => ?_, fun v y hy => ?_, fun v y hy => ?_,
    hnodup _ _ h.outNodup hoff, hnodup _ _ h.inNodup hoffIn, fun v y hy => ?_, fun v y hy => ?_,
    h.rankNodup, h.nodeRank, fun u v r hc => h.closed u v r (hkept.constrains.1 hc)⟩, hkept⟩
  · obtain hy | ⟨rfl, rfl⟩ := (hout v y).1 hy
    · exact h.outTail v y hy
    · rfl
  · obtain hy | ⟨rfl, rfl⟩ := (hin v y).1 hy
    · exact h.inHead v y hy
    · rfl
  · obtain hy | ⟨-, rfl⟩ := (hout v y).1 hy
    · exact (hin _ y).2 (.inl (h.outIn v y hy))
    · exact (hin _ y).2 (.inr ⟨rfl, rfl⟩)
  · obtain hy | ⟨-, rfl⟩ := (hin v y).1 hy
    · exact (hout _ y).2 (.inl (h.inOut v y hy))
    · exact (hout _ y).2 (.inr ⟨rfl, rfl⟩)
  · obtain hy | ⟨-, rfl⟩ := (hout v y).1 hy
    · exact h.virt v y hy
    · exact hvirt
  · obtain hy | ⟨-, rfl⟩ := (hout v y).1 hy
    · exact h.fresh v y hy
    · exact hfresh

/-- An edge between the same two nodes, the other way, constrains as little. -/
theorem constraining_reverse (htail : (g'.edge x).tail = g.aghead e)
    (hhead : (g'.edge x).head = g.agtail e) (hin : g'.insideCluster = g.insideCluster)
    (hcon : g.constrainingFlatEdge e = false) :
    g'.constrainingFlatEdge x = true ↔ (g.edge e).weight = 0 ∧ (g'.edge x).weight ≠ 0 ∧
      g.insideCluster (g.agtail e) ∧ g.insideCluster (g.aghead e) := by
  have hno : ¬ ((g.edge e).weight ≠ 0 ∧ g.insideCluster (g.agtail e) ∧
      g.insideCluster (g.aghead e)) := fun h => by
    rw [constrainingFlatEdge_iff.2 h] at hcon
    cases hcon
  rw [constrainingFlatEdge_iff, aghead, agtail, htail, hhead, hin]
  tauto

/-- What a reversal leaves. -/
structure Reversed (g : FlatRanks n) (e : ℕ) (g' : FlatRanks n) : Prop where
  valid : g'.Valid
  kept : Kept g g'
  out : ∀ u, u ≠ g.aghead e → g'.flatOut u = g.flatOut u

section Reversal

variable (h : g.Valid) (hoff : ∀ v, e ∉ g.flatOut v) (hvirt : (g.edge e).toVirt = none)
  (hcon : g.constrainingFlatEdge e = false)

include h hoff hvirt hcon

theorem Valid.mergeRev (hrev : rev ∈ g.flatOut (g.aghead e)) (hhead : g.aghead rev = g.agtail e) :
    Meets (g.mergeRev e rev) (Reversed g e) fun _ => False := by
  have hne : rev ≠ e := fun hre => hoff _ (hre ▸ hrev)
  obtain ⟨edge, hok, hother, ht, hh, hv, hw⟩ :=
    mergeOneway_edges hne hvirt (h.virt _ rev hrev)
  rw [FlatRanks.mergeRev, hok, ok_bind]
  dsimp only
  have htail : g.agtail rev = g.aghead e := h.outTail _ rev hrev
  have hspec : ∀ edge' : ℕ → Fedge n, (∀ x, x ≠ rev → edge' x = edge x) →
      (edge' rev).tail = (edge rev).tail → (edge' rev).head = (edge rev).head →
      (edge' rev).toVirt = (edge rev).toVirt → (edge' rev).weight = (edge rev).weight →
      Valid { g with edge := edge' } ∧ Kept g { g with edge := edge' } := by
    intro edge' hrest ht' hh' hv' hw'
    refine h.setEdges _ fun v x hx => ?_
    have hxe : x ≠ e := fun hxe => hoff v (hxe ▸ hx)
    by_cases hxr : x = rev
    · subst hxr
      refine ⟨ht'.trans ht, hh'.trans hh, hv'.trans hv, ?_⟩
      have hnew : constrainingFlatEdge { g with edge := edge' } x = true ↔ (g.edge e).weight = 0 ∧
          (edge' x).weight ≠ 0 ∧ g.insideCluster (g.agtail e) ∧ g.insideCluster (g.aghead e) :=
        constraining_reverse ((ht'.trans ht).trans htail) ((hh'.trans hh).trans hhead) rfl hcon
      rw [Bool.eq_iff_iff, hnew, constraining_reverse htail hhead rfl hcon]
      refine and_congr_right fun hzero => ?_
      have hweight : (edge' x).weight = (g.edge x).weight := by omega
      rw [hweight]
    · have hsame : edge' x = g.edge x := (hrest x hxr).trans (hother x hxe hxr)
      refine ⟨by rw [hsame], by rw [hsame], by rw [hsame]; exact h.virt v x hx,
        constraining_congr rfl ?_ ?_ ?_⟩
      all_goals
        dsimp only
        rw [hsame]
  split
  · obtain ⟨hvalid, hkept⟩ := hspec (update edge rev { edge rev with toOrig := some e })
      (fun x hx => update_of_ne hx _ _) (by rw [update_self]) (by rw [update_self])
      (by rw [update_self]) (by rw [update_self])
    exact ⟨⟨hvalid.outTail, hvalid.inHead, hvalid.outIn, hvalid.inOut, hvalid.outNodup,
      hvalid.inNodup, hvalid.virt, hvalid.fresh, hvalid.rankNodup, hvalid.nodeRank, hvalid.closed⟩,
      ⟨rfl, rfl, rfl, rfl, hkept.same⟩, fun u _ => rfl⟩
  · obtain ⟨hvalid, hkept⟩ := hspec edge (fun _ _ => rfl) rfl rfl rfl rfl
    exact ⟨⟨hvalid.outTail, hvalid.inHead, hvalid.outIn, hvalid.inOut, hvalid.outNodup,
      hvalid.inNodup, hvalid.virt, hvalid.fresh, hvalid.rankNodup, hvalid.nodeRank, hvalid.closed⟩,
      ⟨rfl, rfl, rfl, rfl, hkept.same⟩, fun u _ => rfl⟩

theorem Valid.newRev (hfresh : e < g.next) : Reversed g e (g.newRev e) := by
  have hne : e ≠ g.next := hfresh.ne
  set new : Fedge n := { g.edge e with
    tail := g.aghead e, head := g.agtail e, toVirt := none, toOrig := some e } with hnew
  set edge : ℕ → Fedge n :=
    update (update g.edge g.next new) e { g.edge e with toVirt := some g.next } with hedge
  have hother : ∀ y, y ≠ e → y < g.next → edge y = g.edge y := fun y hye hy => by
    rw [hedge, update_of_ne hye, update_of_ne hy.ne]
  have hself : edge g.next = new := by
    rw [hedge, update_of_ne hne.symm, update_self]
  obtain ⟨hvalid, hkept⟩ := h.setEdges edge fun v y hy => by
    have hsame := hother y (fun hye => hoff v (hye ▸ hy)) (h.fresh v y hy)
    refine ⟨by rw [hsame], by rw [hsame], by rw [hsame]; exact h.virt v y hy,
      constraining_congr rfl ?_ ?_ ?_⟩
    all_goals
      dsimp only
      rw [hsame]
  set type := if g.edgeType e = .FLATORDER then EdgeType.FLATORDER else EdgeType.REVERSED
  set g1 : FlatRanks n := { g with
    edge := edge, next := g.next + 1, edgeType := update g.edgeType g.next type } with hg1
  have hvalid1 : g1.Valid := ⟨hvalid.outTail, hvalid.inHead, hvalid.outIn, hvalid.inOut,
    hvalid.outNodup, hvalid.inNodup, hvalid.virt, fun v y hy => (h.fresh v y hy).trans_le
      (Nat.le_succ _), hvalid.rankNodup, hvalid.nodeRank, hvalid.closed⟩
  have hcon1 : g1.constrainingFlatEdge g.next = false := by
    have hrev : g1.constrainingFlatEdge g.next = true ↔ (g.edge e).weight = 0 ∧
        (edge g.next).weight ≠ 0 ∧ g.insideCluster (g.agtail e) ∧ g.insideCluster (g.aghead e) :=
      constraining_reverse (congrArg Fedge.tail hself) (congrArg Fedge.head hself) rfl hcon
    rw [← Bool.not_eq_true, hrev, hself]
    rintro ⟨hzero, hweight, -⟩
    exact hweight hzero
  have hg2 : g.newRev e = g1.flatEdge g.next := by
    rw [FlatRanks.newRev, FastGraph.newVirtualEdge]
    simp only [FastGraph.setEdge, hvirt, if_true]
    rfl
  obtain ⟨hvalid2, hkept2⟩ := hvalid1.flatEdge (x := g.next)
    (fun v hv => (h.fresh v _ hv).ne rfl) hcon1 (congrArg Fedge.toVirt hself) (Nat.lt_succ_self _)
  have hkept1 : Kept g g1 := ⟨rfl, rfl, rfl, rfl, hkept.same⟩
  rw [hg2]
  refine ⟨hvalid2, hkept1.trans hkept2, fun u hu => ?_⟩
  have htail : g1.agtail g.next = g.aghead e := congrArg Fedge.tail hself
  rw [FlatRanks.flatEdge]
  dsimp only
  rw [htail, update_of_ne hu]

/-- `flat_rev` of an edge that is on no list. -/
theorem Valid.flatRev (hfresh : e < g.next) :
    Meets (g.flatRev e) (Reversed g e) fun _ => False := by
  rw [FlatRanks.flatRev]
  split
  · rename_i rev hfind
    have hhead : g.aghead rev = g.agtail e := by simpa using find?_some hfind
    exact h.mergeRev hoff hvirt hcon (mem_of_find?_eq_some hfind) hhead
  · exact h.newRev hoff hvirt hcon hfresh

end Reversal

/-! ## The loop over the flat edges of a node -/

theorem goesBack_ne (he : g.goesBack e = true) : g.aghead e ≠ g.agtail e := by
  intro heq
  rw [goesBack, heq] at he
  simp at he

/-- No edge that constrains goes the wrong way. -/
def Ordered (g : FlatRanks n) (u : Fin n) : Prop :=
  ∀ v, g.Constrains u v → if g.flip then g.order v ≤ g.order u else g.order u ≤ g.order v

theorem Kept.ordered (h : Kept g g') : g'.Ordered u ↔ g.Ordered u := by
  rw [Ordered, Ordered, h.flip, h.order]
  exact forall_congr' fun v => imp_congr_left h.constrains

theorem Valid.not_goesBack (h : g.Valid) (hord : g.Ordered u) (he : e ∈ g.flatOut u)
    (hcon : g.constrainingFlatEdge e = true) : g.goesBack e = false := by
  have hle := hord _ ⟨e, he, hcon, rfl⟩
  rw [goesBack, h.outTail u e he]
  cases hf : g.flip with
  | true =>
    rw [hf, if_pos rfl] at hle
    simpa using hle
  | false =>
    rw [hf, if_neg (by simp)] at hle
    simpa using hle

/-- The loop over the flat edges of a node comes to its end, unless an edge that constrains goes the
wrong way. -/
theorem Valid.makeLR {fuel j : ℕ} (h : g.Valid) (hfuel : (g.flatOut v).length - j < fuel) :
    Meets (makeLR v fuel j g) (fun g' => g'.Valid ∧ Kept g g') (fun _ => ¬ g.Ordered v) := by
  induction fuel generalizing g j with
  | zero => exact absurd hfuel (Nat.not_lt_zero _)
  | succ fuel ih =>
    rw [FlatRanks.makeLR]
    split
    · exact ⟨h, .refl g⟩
    · rename_i e hget
      have hlt : j < (g.flatOut v).length := (List.getElem?_eq_some_iff.1 hget).1
      have he : e ∈ g.flatOut v := mem_of_getElem? hget
      split
      · rename_i hback
        cases hcon : g.constrainingFlatEdge e with
        | true =>
          rw [assert, if_neg (by simp)]
          exact fun hord => by rw [h.not_goesBack hord he hcon] at hback; cases hback
        | false =>
          rw [assert, if_pos (by simp), ok_bind]
          have hdel := h.delete he hcon
          have hends : (g.deleteFlatEdge e).aghead e = g.aghead e ∧
              (g.deleteFlatEdge e).agtail e = g.agtail e := by
            rw [aghead, agtail, hdel.edge]
            exact ⟨rfl, rfl⟩
          have hcon' : (g.deleteFlatEdge e).constrainingFlatEdge e = false :=
            (constraining_congr hdel.insideCluster (by rw [hdel.edge]) (by rw [hdel.edge])
              (by rw [hdel.edge])).trans hcon
          have hrev := hdel.valid.flatRev (fun u hu => ((hdel.mem u e).1 hu).2 rfl)
            (by rw [hdel.edge]; exact h.virt v e he) hcon' (by rw [hdel.next]; exact h.fresh v e he)
          refine (hrev.mono (F := fun _ => ¬ g.Ordered v) (fun _ => id) fun _ => False.elim).bind
            fun g' hg' => ?_
          have hkept := hdel.kept.trans hg'.kept
          have htail := h.outTail v e he
          have hout : g'.flatOut v = (g.deleteFlatEdge e).flatOut v :=
            hg'.out v (by rw [hends.1, ← htail]; exact (goesBack_ne hback).symm)
          have hlen := hdel.length
          rw [htail, ← hout] at hlen
          exact (ih (j := j) hg'.valid (by omega)).mono
            (fun _ => .imp_right hkept.trans) fun _ hnot hord => hnot (hkept.ordered.2 hord)
      · exact ih h (by omega)

end FlatRanks

end Graphviz
