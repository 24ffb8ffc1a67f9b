import Graphviz.Cgraph.Views

/-!
# Walks up and down the hierarchy

The specifications of the functions that change several graphs: `installnodetoroot`,
`agsubnode` and `installedge` add to a graph and to those above it that lack the object,
`rec_apply` takes from a graph and from those below it that have the object.
-/

namespace Graphviz

open Function List Outcome

namespace Store

variable {s : Store} {U : View} {V : Views} {p : GPath} {n : Agnode} {e : Agedge}
  {E : Fault → Prop}

/-! ## Up -/

/-- `installnode` adds a new node to one graph. -/
theorem installnode_set (hU : U.Distinct) (hn : n ∈ U.nodes) (hp : s.Live p) (h : s.Shows U V)
    (hnew : n ∉ (V p).nodes) :
    Meets ((s.graphs p).installnode n)
      (fun g => SameFrame s (s.set p g) ∧
        (s.set p g).Shows U (Function.update V p ((V p).addNode n))) E := by
  refine ((h.rep p hp).installnode hU (h.sub p hp).nodes (h.ends p hp) hn hnew).imp
    fun g ⟨hg, hsub⟩ => ?_
  refine ⟨.set hsub, h.set (v := (V p).addNode n) hg hsub ?_ ?_⟩
  · exact ⟨Set.insert_subset hn (h.sub p hp).nodes, (h.sub p hp).edges⟩
  · exact ⟨fun f hf => .inr ((h.ends p hp).tail f hf), fun f hf => .inr ((h.ends p hp).head f hf)⟩

/-- `installnodetoroot` adds a new node to a graph and to all above it. -/
theorem installnodetoroot_meets (hU : U.Distinct) (hn : n ∈ U.nodes) (hp : s.Live p)
    (h : s.Shows U V) (hnew : ∀ q, q <:+ p → n ∉ (V q).nodes) :
    Meets (installnodetoroot n p s)
      (fun s' => SameFrame s s' ∧ s'.Shows U (V.above (View.addNode n) p)) E := by
  induction p generalizing s V with
  | nil =>
    rw [Views.above_nil]
    exact (installnode_set hU hn hp h (hnew [] suffix_rfl)).bind fun g hg => hg
  | cons id p ih =>
    rw [Views.above_cons']
    refine (installnode_set hU hn hp h (hnew _ suffix_rfl)).bind fun g ⟨hf, hg⟩ => ?_
    refine (ih (hf.live.2 hp.1) hg fun q hq => ?_).imp fun s' ⟨hf', hs'⟩ => ⟨hf.trans hf', hs'⟩
    have hne : q ≠ id :: p := fun he => Views.not_cons_suffix (he ▸ hq)
    rw [update_of_ne hne]
    exact hnew q (hq.trans (suffix_cons id p))

/-- `agsubnode` with `cflag` adds a node of the root to a graph and to those above it. -/
theorem agsubnode_meets (hU : U.Distinct) (hn : n ∈ (V []).nodes) (hp : s.Live p)
    (h : s.Shows U V) (hV : s.Hier V) :
    Meets (agsubnode n true p s)
      (fun r => r.1 = some n ∧ SameFrame s r.2 ∧ r.2.Shows U (V.above (View.addNode n) p)) E := by
  have hnU : n ∈ U.nodes := (h.sub [] trivial).nodes hn
  -- where the node is found it is also in the graphs above
  have found : ∀ q, s.Live q → n ∈ (V q).nodes → V.above (View.addNode n) q = V :=
    fun q hq hnq => Views.above_eq_self fun r hr =>
      View.addNode_of_mem ((hV.suffix hq hr).nodes hnq)
  induction p with
  | nil =>
    rw [agsubnode, (h.rep [] hp).agfindnodeById_mem hU (h.sub [] hp).nodes hn, found [] hp hn]
    exact ⟨rfl, .refl s, h⟩
  | cons id p ih =>
    rw [agsubnode]
    by_cases hm : n ∈ (V (id :: p)).nodes
    · rw [(h.rep _ hp).agfindnodeById_mem hU (h.sub _ hp).nodes hm, found _ hp hm]
      exact ⟨rfl, .refl s, h⟩
    · rw [(h.rep _ hp).agfindnodeById_not_mem hU (h.sub _ hp).nodes hnU hm, Views.above_cons]
      refine (ih hp.1).bind fun ⟨m, s'⟩ ⟨hm', hf, hs'⟩ => ?_
      cases hm'
      have hsame : V.above (View.addNode n) p (id :: p) = V (id :: p) :=
        Views.above_of_not_suffix Views.not_cons_suffix
      refine (installnode_set hU hnU (hf.live.2 hp) hs' (hsame ▸ hm)).bind
        fun g ⟨hf', hg⟩ => ?_
      rw [hsame] at hg
      exact ⟨rfl, hf.trans hf', hg⟩

/-- `agsubnode` without `cflag` looks the node up. -/
theorem agsubnode_false (hU : U.Distinct) (hn : n ∈ U.nodes) (hp : s.Live p) (h : s.Shows U V) :
    agsubnode n false p s = .ok (some n, s) ∧ n ∈ (V p).nodes ∨
      agsubnode n false p s = .ok (none, s) ∧ n ∉ (V p).nodes := by
  by_cases hm : n ∈ (V p).nodes
  · refine .inl ⟨?_, hm⟩
    have hf := (h.rep p hp).agfindnodeById_mem hU (h.sub p hp).nodes hm
    cases p <;> simp only [agsubnode, hf]
  · refine .inr ⟨?_, hm⟩
    have hf := (h.rep p hp).agfindnodeById_not_mem hU (h.sub p hp).nodes hn hm
    cases p <;> simp [agsubnode, hf]

/-- The insertions of `installedge` add a new edge to one graph. -/
theorem insert_set (hU : U.Distinct) (he : e ∈ U.edges) (hp : s.Live p) (h : s.Shows U V)
    (ht : e.tail ∈ (V p).nodes) (hh : e.head ∈ (V p).nodes) (hnew : e ∉ (V p).edges) :
    Meets ((s.graphs p).insOut e >>= fun g => g.insIn e)
      (fun g => SameFrame s (s.set p g) ∧
        (s.set p g).Shows U (Function.update V p ((V p).addEdge e))) E := by
  have hE := (h.sub p hp).edges
  refine ((h.rep p hp).install hU (h.sub p hp).nodes he hE hE ht hh hnew hnew).imp
    fun g ⟨hg, hsub⟩ => ?_
  refine ⟨.set hsub, h.set (v := (V p).addEdge e) hg hsub ?_ ?_⟩
  · exact ⟨(h.sub p hp).nodes, Set.insert_subset he hE⟩
  · constructor
    · rintro f (rfl | hf)
      · exact ht
      · exact (h.ends p hp).tail f hf
    · rintro f (rfl | hf)
      · exact hh
      · exact (h.ends p hp).head f hf

/-- `installedge` adds an edge between nodes of a graph to it and to those above it. -/
theorem installedge_meets (hU : U.Distinct) (he : e ∈ U.edges) (hp : s.Live p)
    (h : s.Shows U V) (c : Cdt) (hends : ∀ q, q <:+ p → e.tail ∈ (V q).nodes ∧ e.head ∈ (V q).nodes)
    (hup : ∀ q r, q <:+ r → r <:+ p → e ∈ (V r).edges → e ∈ (V q).edges) :
    Meets (installedge c e p s)
      (fun s' => SameFrame s s' ∧ s'.Shows U (V.above (View.addEdge e) p)) E := by
  induction p generalizing s V with
  | nil =>
    obtain ⟨ht, hh⟩ := hends [] suffix_rfl
    rw [installedge, Views.above_nil]
    rcases (h.rep [] hp).agfindedgeByKey_eq hU (h.sub [] hp).nodes (h.sub [] hp).edges
      (h.ends [] hp).head he c with ⟨hf, hm⟩ | ⟨hf, hm⟩
    · rw [hf, View.addEdge_of_mem hm, update_eq_self]
      exact ⟨.refl s, h⟩
    · rw [hf]
      dsimp only
      rw [← bind_assoc]
      exact (insert_set hU he hp h ht hh hm).bind fun g hg => hg
  | cons id p ih =>
    obtain ⟨ht, hh⟩ := hends _ suffix_rfl
    rw [installedge]
    rcases (h.rep _ hp).agfindedgeByKey_eq hU (h.sub _ hp).nodes (h.sub _ hp).edges
      (h.ends _ hp).head he c with ⟨hf, hm⟩ | ⟨hf, hm⟩
    · rw [hf, Views.above_eq_self fun q hq => View.addEdge_of_mem (hup q _ hq suffix_rfl hm)]
      exact ⟨.refl s, h⟩
    · rw [hf, Views.above_cons']
      dsimp only
      rw [← bind_assoc]
      refine (insert_set hU he hp h ht hh hm).bind fun g ⟨hf', hg⟩ => ?_
      have hne : ∀ q, q <:+ p → q ≠ id :: p := fun q hq he =>
        Views.not_cons_suffix (he ▸ hq)
      have hle : ∀ q, q <:+ p → q <:+ id :: p := fun q hq => hq.trans (suffix_cons id p)
      refine (ih (hf'.live.2 hp.1) hg (fun q hq => ?_) fun q r hq hr => ?_).imp
        fun s' ⟨hf'', hs'⟩ => ⟨hf'.trans hf'', hs'⟩
      · rw [update_of_ne (hne q hq)]
        exact hends q (hle q hq)
      · rw [update_of_ne (hne r hr), update_of_ne (hne q (hq.trans hr))]
        exact hup q r hq (hle r hr)

/-- `installedge` follows a null pointer when the graph lacks an end point of the edge. -/
theorem installedge_segfault (hU : U.Distinct) (he : e ∈ U.edges) (hp : s.Live p)
    (h : s.Shows U V) (c : Cdt) (hends : ¬ (e.tail ∈ (V p).nodes ∧ e.head ∈ (V p).nodes)) :
    installedge c e p s = .error .segfault := by
  have hN := (h.sub p hp).nodes
  have hE := (h.sub p hp).edges
  have hm : e ∉ (V p).edges := fun hm => hends ⟨(h.ends p hp).tail e hm, (h.ends p hp).head e hm⟩
  have hnone : (s.graphs p).agfindedgeByKey c e.tail e.head (some e.id) = none := by
    obtain ⟨_, hf⟩ | ⟨hf, _⟩ := (h.rep p hp).agfindedgeByKey_eq hU hN hE (h.ends p hp).head he c
    · exact absurd hf hm
    · exact hf
  have hfault : ((s.graphs p).insOut e >>= fun g => g.insIn e) = .error .segfault := by
    by_cases ht : e.tail ∈ (V p).nodes
    · have hh : e.head ∉ (V p).nodes := fun hh => hends ⟨ht, hh⟩
      have hout := (h.rep p hp).insOut hU hN he (E := fun _ => False) hE ht hm
      cases ho : (s.graphs p).insOut e with
      | error f => exact (hout.of_error ho).elim
      | ok g =>
        show g.insIn e = _
        rw [Agraph.insIn, (hout.of_ok ho).1.agsubrep_not_mem hU hN (hU.head_mem e he) hh]
    · rw [Agraph.insOut, (h.rep p hp).agsubrep_not_mem hU hN (hU.tail_mem e he) ht]
      rfl
  cases p <;>
  · rw [installedge, hnone]
    dsimp only
    rw [← bind_assoc, hfault]
    rfl

/-! ## Down -/

/-- What a deletion does to one graph: `objsearch` tells whether the graph has the object, `fn`
removes it from the record and `del` from the view, and a view without it stays as it is. -/
structure Deletes (U : View) (fn : Agraph → Except Fault Agraph) (objsearch : Agraph → Bool)
    (has : View → Prop) (del : View → View) : Prop where
  run : ∀ {g : Agraph} {v : View} {E : Fault → Prop}, g.Rep v.nodes v.edges v.edges → v.Sub U →
    Agraph.Ends v.nodes v.edges → has v →
    Meets (fn g) (fun g' => g'.Rep (del v).nodes (del v).edges (del v).edges ∧
      g'.subgs = g.subgs) E
  search : ∀ {g : Agraph} {v : View}, g.Rep v.nodes v.edges v.edges → v.Sub U →
    Agraph.Ends v.nodes v.edges → (objsearch g = true ↔ has v)
  ends : ∀ {v : View}, Agraph.Ends v.nodes v.edges → Agraph.Ends (del v).nodes (del v).edges
  sub : ∀ v, (del v).Sub v
  skip : ∀ {v : View}, Agraph.Ends v.nodes v.edges → ¬ has v → del v = v
  mono : ∀ {v w : View}, v.Sub w → has v → has w

/-- `rec_apply` deletes an object from a graph and from those below it, with fuel for every
path that is still longer. -/
theorem recApply_meets {fn : Agraph → Except Fault Agraph} {objsearch : Agraph → Bool}
    {has : View → Prop} {del : View → View} (hdel : Deletes U fn objsearch has del) {B : Nat} :
    ∀ (fuel : Nat) (p : GPath) (s : Store) (V : Views), B < p.length + fuel →
      (∀ q, s.Live q → q.length ≤ B ∧ (s.graphs q).subgs.Nodup) → s.Live p → s.Shows U V →
      has (V p) → (∀ q r, p <:+ q → q <:+ r → s.Live r → has (V r) → has (V q)) →
      Meets (recApply fn objsearch fuel p s)
        (fun s' => SameFrame s s' ∧ s'.Shows U (V.below del p)) E := by
  intro fuel
  induction fuel with
  | zero =>
    intro p s V hfuel hshape hp
    have := (hshape p hp).1
    omega
  | succ fuel ih =>
    intro p s V hfuel hshape hp h hhas hdown
    have hnd := (hshape p hp).2
    -- the subgraphs already visited have lost the object, the others are as they were
    have loop := Meets.foldlM (E := E) (f := fun s id =>
        if objsearch (s.graphs (id :: p)) then recApply fn objsearch fuel (id :: p) s else .ok s)
      (l := (s.graphs p).subgs)
      (fun rest s' => SameFrame s s' ∧ ∃ done, (s.graphs p).subgs = done ++ rest ∧
        s'.Shows U (V.belowSubgs del p done))
      (fun id rest s' ⟨hf, done, hsubgs, hs'⟩ => by
        have hmem : id ∈ (s.graphs p).subgs := by simp [hsubgs]
        have hnot : id ∉ done := by
          rw [hsubgs, nodup_append] at hnd
          exact fun hd => hnd.2.2 id hd id (by simp) rfl
        have hsame : ∀ q, id :: p <:+ q → V.belowSubgs del p done q = V q := fun q hq =>
          Views.belowSubgs_of_not_mem hnot hq
        have hlive : s.Live (id :: p) := ⟨hp, hmem⟩
        have hsearch := hdel.search (hs'.rep _ (hf.live.2 hlive)) (hs'.sub _ (hf.live.2 hlive))
          (hs'.ends _ (hf.live.2 hlive))
        rw [hsame _ suffix_rfl] at hsearch
        have hsubgs' : (s.graphs p).subgs = (done ++ [id]) ++ rest := by simp [hsubgs]
        split
        · rename_i hfound
          refine (ih (id :: p) s' _ (by rw [length_cons]; omega)
            (fun q hq => by rw [hf.subgs]; exact hshape q (hf.live.1 hq)) (hf.live.2 hlive) hs'
            (by rw [hsame _ suffix_rfl]; exact hsearch.1 hfound)
            fun q r hq hr hlr => ?_).imp fun s'' ⟨hf', hs''⟩ => ?_
          · rw [hsame r (hq.trans hr), hsame q hq]
            exact hdown q r ((suffix_cons id p).trans hq) hr (hf.live.1 hlr)
          · rw [Views.below_belowSubgs hnot] at hs''
            exact ⟨hf.trans hf', done ++ [id], hsubgs', hs''⟩
        · rename_i hfound
          refine ⟨hf, done ++ [id], hsubgs', hs'.congr fun q hq => ?_⟩
          rw [← Views.below_belowSubgs hnot]
          by_cases hqs : id :: p <:+ q
          · rw [Views.below_of_suffix hqs]
            refine (hdel.skip (hs'.ends q hq) fun hhq => hfound (hsearch.2 ?_)).symm
            rw [hsame q hqs] at hhq
            exact hdown _ q (suffix_cons id p) hqs (hf.live.1 hq) hhq
          · rw [Views.below_of_not_suffix hqs])
      s ⟨.refl s, [], rfl, by rwa [Views.belowSubgs_nil]⟩
    rw [recApply]
    refine loop.bind fun s' ⟨hf, done, hsubgs, hs'⟩ => ?_
    rw [append_nil] at hsubgs
    subst hsubgs
    have hp' := hf.live.2 hp
    have hself : V.belowSubgs del p (s.graphs p).subgs p = V p :=
      Views.belowSubgs_of_not_suffix fun id _ => Views.not_cons_suffix
    have hends := hs'.ends p hp'
    have hsub := hs'.sub p hp'
    have hrep := hs'.rep p hp'
    rw [hself] at hends hsub hrep
    refine (hdel.run hrep hsub hends hhas).bind fun g ⟨hg, hgs⟩ => ?_
    refine ⟨hf.trans (.set hgs), (hs'.set hg hgs ((hdel.sub _).trans hsub)
      (hdel.ends hends)).congr fun q hq => ?_⟩
    have hlq : s.Live q := hf.live.1 ((SameFrame.set hgs).live.1 hq)
    by_cases hqp : q = p
    · rw [hqp, update_self, Views.below_of_suffix suffix_rfl]
    · rw [update_of_ne hqp]
      by_cases hpq : p <:+ q
      · obtain ⟨id, hid⟩ := (Views.eq_or_cons_suffix hpq).resolve_left hqp
        rw [Views.below_of_suffix hpq, Views.belowSubgs_of_suffix (hlq.suffix hid).2 hid]
      · rw [Views.below_of_not_suffix hpq]
        exact Views.belowSubgs_of_not_suffix fun id _ hid =>
          hpq ((suffix_cons id p).trans hid)

end Store

end Graphviz

/-!
## The invariant of the graph store

`Store.Inv s V`: the records of the live graphs hold the views `V`, a subgraph's view is part
of its parent's, the root's objects are distinct, and the counters are past every identifier
and sequence number given out. Each operation gets one lemma that says which views the store
holds afterwards and how the operation can fail.
-/

namespace Graphviz

open List Outcome

namespace Store

/-- The counters are past what the objects of a view and the internal map use. -/
structure Fresh (s : Store) (v : View) : Prop where
  nodeSeq : ∀ n ∈ v.nodes, n.seq ≤ s.seqNode
  edgeSeq : ∀ e ∈ v.edges, e.seq ≤ s.seqEdge
  nodeId : ∀ n ∈ v.nodes, ∀ k, n.id = .anon k → k < s.counter
  edgeId : ∀ e ∈ v.edges, ∀ k, e.id = .anon k → k < s.counter
  imapId : ∀ ent ∈ s.imap, ∀ k, ent.2.2 = .anon k → k < s.counter

/-- The invariant of the store. -/
structure Inv (s : Store) (V : Views) : Prop where
  shows : s.Shows (V []) V
  hier : s.Hier V
  distinct : (V []).Distinct
  shape : ∀ q, s.Live q → q.length ≤ s.seqGraph ∧ (s.graphs q).subgs.Nodup
  fresh : s.Fresh (V [])

/-- The only failure of the operations: a sequence number that does not fit its field. -/
def Overflows (s : Store) (f : Fault) : Prop :=
  f = .assertion ∧ (SEQ_MASK ≤ s.seqGraph ∨ SEQ_MASK ≤ s.seqNode ∨ SEQ_MASK ≤ s.seqEdge)

variable {s s' : Store} {U : View} {V W : Views} {p : GPath} {n : Agnode} {e : Agedge}
  {E : Fault → Prop}

theorem Shows.root (h : s.Shows U V) (hV : s.Hier V) : s.Shows (V []) V :=
  ⟨h.rep, fun _ hp => hV.root hp, h.ends⟩

theorem SameFrame.hier (hf : SameFrame s s') : s'.Hier V ↔ s.Hier V :=
  ⟨fun h id p hp => h id p (hf.live.2 hp), fun h id p hp => h id p (hf.live.1 hp)⟩

theorem SameFrame.fresh (hf : SameFrame s s') {v : View} (h : s.Fresh v) : s'.Fresh v := by
  obtain ⟨gs, rfl, -⟩ := hf
  exact ⟨h.nodeSeq, h.edgeSeq, h.nodeId, h.edgeId, h.imapId⟩

theorem Fresh.sub {v w : View} (h : s.Fresh w) (hv : v.Sub w) : s.Fresh v :=
  ⟨fun n hn => h.nodeSeq n (hv.nodes hn), fun e he => h.edgeSeq e (hv.edges he),
    fun n hn => h.nodeId n (hv.nodes hn), fun e he => h.edgeId e (hv.edges he), h.imapId⟩

/-- A growing change keeps the hierarchy when it is made in a graph and in those above it. -/
theorem Hier.above (h : s.Hier V) {f : View → View} (hf : ∀ {v w}, v.Sub w → (f v).Sub (f w))
    (hle : ∀ v : View, v.Sub (f v)) (p : GPath) : s.Hier (V.above f p) := by
  intro id q hq
  by_cases hc : id :: q <:+ p
  · rw [Views.above_of_suffix hc, Views.above_of_suffix ((suffix_cons id q).trans hc)]
    exact hf (h id q hq)
  · rw [Views.above_of_not_suffix hc]
    by_cases hqp : q <:+ p
    · rw [Views.above_of_suffix hqp]
      exact (h id q hq).trans (hle _)
    · rw [Views.above_of_not_suffix hqp]
      exact h id q hq

/-- A shrinking change keeps the hierarchy when it is made in a graph and in those below it. -/
theorem Hier.below (h : s.Hier V) {f : View → View} (hf : ∀ {v w}, v.Sub w → (f v).Sub (f w))
    (hle : ∀ v : View, (f v).Sub v) (p : GPath) : s.Hier (V.below f p) := by
  intro id q hq
  by_cases hqp : p <:+ q
  · rw [Views.below_of_suffix hqp, Views.below_of_suffix (hqp.trans (suffix_cons id q))]
    exact hf (h id q hq)
  · rw [Views.below_of_not_suffix hqp]
    by_cases hc : p <:+ id :: q
    · rw [Views.below_of_suffix hc]
      exact (hle _).trans (h id q hq)
    · rw [Views.below_of_not_suffix hc]
      exact h id q hq

/-- The invariant after a change of graphs alone. -/
theorem Inv.of_frame (h : s.Inv V) (hf : SameFrame s s') (hs : s'.Shows U W) (hW : s.Hier W)
    (hd : (W []).Distinct) (hfr : s.Fresh (W [])) : s'.Inv W where
  shows := hs.root (hf.hier.2 hW)
  hier := hf.hier.2 hW
  distinct := hd
  shape q hq := by
    rw [hf.seqGraph, hf.subgs]
    exact h.shape q (hf.live.1 hq)
  fresh := hf.fresh hfr

/-- Live graphs are a matter of the records. -/
theorem live_congr (hg : s'.graphs = s.graphs) {q : GPath} : s'.Live q ↔ s.Live q := by
  induction q with
  | nil => rfl
  | cons id q ih => rw [Live, Live, ih, hg]

/-- The invariant after a change of counters or of the internal map. -/
theorem Inv.of_graphs (h : s.Inv V) (hg : s'.graphs = s.graphs) (hseq : s'.seqGraph = s.seqGraph)
    (hfr : s'.Fresh (V [])) : s'.Inv V where
  shows := h.shows.frame hg
  hier id q hq := h.hier id q ((live_congr hg).1 hq)
  distinct := h.distinct
  shape q hq := by
    rw [hseq, hg]
    exact h.shape q ((live_congr hg).1 hq)
  fresh := hfr

/-- The descriptor, the counts of objects made and the subgraphs of every graph stay. -/
structure Keeps (s s' : Store) : Prop where
  desc : s'.desc = s.desc
  subgs : ∀ q, (s'.graphs q).subgs = (s.graphs q).subgs
  seqGraph : s'.seqGraph = s.seqGraph

theorem SameFrame.keeps (hf : SameFrame s s') : Keeps s s' := by
  obtain ⟨gs, rfl, hgs⟩ := hf
  exact ⟨rfl, hgs, rfl⟩

theorem Keeps.refl (s : Store) : Keeps s s := ⟨rfl, fun _ => rfl, rfl⟩

theorem Keeps.trans {s₁ s₂ s₃ : Store} (h : Keeps s₁ s₂) (h' : Keeps s₂ s₃) : Keeps s₁ s₃ :=
  ⟨h'.desc.trans h.desc, fun q => (h'.subgs q).trans (h.subgs q), h'.seqGraph.trans h.seqGraph⟩

theorem Keeps.live (h : Keeps s s') {q : GPath} : s'.Live q ↔ s.Live q := by
  induction q with
  | nil => rfl
  | cons id q ih => rw [Live, Live, ih, h.subgs]

/-! ## Identifiers -/

/-- `agmapnametoid` with `createflag` returns the identifier the name has, or an anonymous one
that nothing has. -/
theorem agmapnametoid_true (s : Store) (objtype : ObjType) (str : Option CStr) :
    ∃ id counter imap, s.agmapnametoid objtype str true =
        (some id, { s with counter := counter, imap := imap }) ∧
      (∀ v, s.Fresh v → Fresh { s with counter := counter, imap := imap } v ∧
        ∀ k, id = .anon k → k < counter) ∧
      ((s.agmapnametoid objtype str false).1 = some id ∨
        (s.agmapnametoid objtype str false).1 = none ∧ id = .anon s.counter) := by
  have later : ∀ v imap, s.Fresh v →
      (∀ ent ∈ imap, ent ∈ s.imap ∨ ent.2.2 = .anon s.counter) →
      Fresh { s with counter := s.counter + 1, imap := imap } v := by
    intro v imap hv himap
    refine ⟨hv.nodeSeq, hv.edgeSeq, fun n hn k hk => ?_, fun e he k hk => ?_,
      fun ent hent k hk => ?_⟩
    · exact Nat.lt_succ_of_lt (hv.nodeId n hn k hk)
    · exact Nat.lt_succ_of_lt (hv.edgeId e he k hk)
    · obtain hent | hent := himap ent hent
      · exact Nat.lt_succ_of_lt (hv.imapId ent hent k hk)
      · rw [hent] at hk
        cases hk
        exact Nat.lt_succ_self _
  have new : ∀ k, IdType.anon s.counter = .anon k → k < s.counter + 1 := by
    rintro k ⟨⟩
    exact Nat.lt_succ_self _
  cases str with
  | none =>
    exact ⟨.anon s.counter, s.counter + 1, s.imap, rfl,
      fun v hv => ⟨later v _ hv fun ent hent => .inl hent, new⟩, .inr ⟨rfl, rfl⟩⟩
  | some str =>
    by_cases hl : str.head? ≠ some LOCALNAMEPREFIX
    · refine ⟨.named str, s.counter, s.imap, ?_, fun v hv => ⟨hv, fun k hk => by cases hk⟩, .inl ?_⟩
      · simp only [agmapnametoid, if_pos hl]
      · simp only [agmapnametoid, if_pos hl]
    · cases hf : s.aginternalmaplookup objtype str with
      | some id =>
        refine ⟨id, s.counter, s.imap, ?_, fun v hv => ⟨hv, fun k hk => ?_⟩, .inl ?_⟩
        · simp only [agmapnametoid, if_neg hl, hf]
        · rw [aginternalmaplookup, Option.map_eq_some_iff] at hf
          obtain ⟨ent, hent, rfl⟩ := hf
          exact hv.imapId ent (mem_of_find?_eq_some hent) k hk
        · simp only [agmapnametoid, if_neg hl, hf]
      | none =>
        refine ⟨.anon s.counter, s.counter + 1, (objtype, str, .anon s.counter) :: s.imap, ?_,
          fun v hv => ⟨later v _ hv fun ent hent => ?_, new⟩, .inr ⟨?_, rfl⟩⟩
        · simp only [agmapnametoid, if_neg hl, hf, if_true]
        · obtain rfl | hent := mem_cons.1 hent
          · exact .inr rfl
          · exact .inl hent
        · simp [agmapnametoid, hl, hf]

theorem Fresh.agfreeid {v : View} (h : s.Fresh v) (objtype : ObjType) (id : IdType) :
    (s.agfreeid objtype id).Fresh v :=
  ⟨h.nodeSeq, h.edgeSeq, h.nodeId, h.edgeId, fun ent hent =>
    h.imapId ent (mem_of_mem_filter hent)⟩

/-- Freeing an identifier changes the internal map alone. -/
theorem Inv.agfreeid (h : s.Inv V) (objtype : ObjType) (id : IdType) :
    (s.agfreeid objtype id).Inv V :=
  h.of_graphs rfl rfl (h.fresh.agfreeid objtype id)

theorem keeps_agfreeid (s : Store) (objtype : ObjType) (id : IdType) :
    Keeps s (s.agfreeid objtype id) := ⟨rfl, fun _ => rfl, rfl⟩

/-! ## Nodes -/

/-- `agsubnode` with `cflag`. -/
theorem Inv.agsubnode (h : s.Inv V) (hp : s.Live p) (hn : n ∈ (V []).nodes) :
    Meets (agsubnode n true p s)
      (fun r => r.1 = some n ∧ SameFrame s r.2 ∧ r.2.Inv (V.above (View.addNode n) p)) E := by
  refine (agsubnode_meets h.distinct hn hp h.shows h.hier).imp fun r ⟨hr, hf, hs⟩ => ?_
  have hroot : V.above (View.addNode n) p [] = V [] := by
    rw [Views.above_of_suffix nil_suffix, View.addNode_of_mem hn]
  refine ⟨hr, hf, h.of_frame hf hs (h.hier.above View.Sub.addNode (fun _ => View.sub_addNode) p)
    ?_ ?_⟩
  · rw [hroot]; exact h.distinct
  · rw [hroot]; exact h.fresh

/-- A node made in a graph is new, and is in the graph and in those above it. -/
theorem Inv.newnode (h : s.Inv V) (hp : s.Live p) {id : IdType}
    (hid : ∀ m ∈ (V []).nodes, m.id ≠ id) (hk : ∀ k, id = .anon k → k < s.counter) :
    Meets (s.newnode p id)
      (fun r => r.2.Inv (V.above (View.addNode r.1) p) ∧ Keeps s r.2) s.Overflows := by
  rw [Store.newnode]
  dsimp only
  rw [assert]
  split
  · set n : Agnode := { id := id, seq := s.seqNode + 1 } with hn
    set s1 : Store := { s with seqNode := s.seqNode + 1 } with hs1
    have hseq : ∀ m ∈ (V []).nodes, m.seq ≠ n.seq := fun m hm => by
      have := h.fresh.nodeSeq m hm
      rw [hn]
      dsimp only
      omega
    have hU := h.distinct.addNode hid hseq
    have hfr : s1.Fresh ((V []).addNode n) := by
      refine ⟨?_, h.fresh.edgeSeq, ?_, h.fresh.edgeId, h.fresh.imapId⟩
      · rintro m (rfl | hm)
        · exact le_rfl
        · exact Nat.le_succ_of_le (h.fresh.nodeSeq m hm)
      · rintro m (rfl | hm)
        · exact hk
        · exact h.fresh.nodeId m hm
    have h1 : s1.Inv V := h.of_graphs rfl rfl (hfr.sub View.sub_addNode)
    have hk1 : Keeps s s1 := ⟨rfl, fun _ => rfl, rfl⟩
    have hp1 : s1.Live p := hk1.live.2 hp
    have hnew : ∀ q, q <:+ p → n ∉ (V q).nodes := fun q hq hm =>
      hid n ((h.hier.root (hp.suffix hq)).nodes hm) rfl
    refine (installnodetoroot_meets hU (Set.mem_insert n _) hp1
      (h1.shows.mono View.sub_addNode) hnew).bind fun s' h' => ?_
    obtain ⟨hf, hs'⟩ := h'
    have hroot : V.above (View.addNode n) p [] = (V []).addNode n :=
      Views.above_of_suffix nil_suffix
    have hinv : s'.Inv (V.above (View.addNode n) p) :=
      h1.of_frame hf hs' (h1.hier.above View.Sub.addNode (fun _ => View.sub_addNode) p)
        (hroot ▸ hU) (hroot ▸ hfr)
    refine Meets.assert ?_ ⟨hinv, hk1.trans hf.keeps⟩
    have hp' := hf.live.2 hp1
    obtain ⟨sn, -, -, hsn⟩ := (hinv.shows.rep p hp').agsubrep_mem hinv.distinct
      (hinv.shows.sub p hp').nodes
      (show n ∈ _ by rw [Views.above_of_suffix suffix_rfl]; exact Set.mem_insert n _)
    rw [hsn]
    rfl
  · exact ⟨rfl, .inr (.inl (by omega))⟩

/-- `agnode` finds a node, or adds one to the graph and to those above it. -/
theorem Inv.agnode (h : s.Inv V) (hp : s.Live p) (name : Option CStr) (cflag : Bool) :
    Meets (s.agnode p name cflag)
      (fun r => Keeps s r.2 ∧ ∃ W, r.2.Inv W ∧ (W []).edges = (V []).edges) s.Overflows := by
  have stay : s.Inv V → ∃ W, s.Inv W ∧ (W []).edges = (V []).edges := fun h => ⟨V, h, rfl⟩
  have create : (∀ id, (s.agmapnametoid .AGNODE name false).1 = some id →
      ∀ m ∈ (V []).nodes, m.id ≠ id) → Meets (s.agnodeCreate p name cflag)
      (fun r => Keeps s r.2 ∧ ∃ W, r.2.Inv W ∧ (W []).edges = (V []).edges) s.Overflows := by
    intro hnew
    obtain ⟨id, counter, imap, hm, hfr, hid⟩ := s.agmapnametoid_true .AGNODE name
    rw [agnodeCreate]
    split
    · rw [hm]
      dsimp only
      have h1 : Inv { s with counter := counter, imap := imap } V :=
        h.of_graphs rfl rfl (hfr _ h.fresh).1
      have hk1 : Keeps s { s with counter := counter, imap := imap } :=
        ⟨rfl, fun _ => rfl, rfl⟩
      refine ((h1.newnode (hk1.live.2 hp) ?_ (hfr _ h.fresh).2).mono
        (fun r hr => hr) fun f hf => hf).bind fun r ⟨hr, hk⟩ => ?_
      · obtain hid | ⟨-, hid⟩ := hid
        · exact hnew id hid
        · intro m hm he
          exact absurd (h.fresh.nodeId m hm s.counter (he.trans hid)) (lt_irrefl _)
      · refine ⟨hk1.trans hk, _, hr, ?_⟩
        rw [Views.above_of_suffix nil_suffix]
        rfl
    · exact ⟨.refl s, stay h⟩
  rw [Store.agnode]
  split
  · rename_i hnone
    exact create fun id hid => by rw [hnone] at hid; cases hid
  · rename_i id hsome
    split
    · exact ⟨.refl s, stay h⟩
    · rename_i hlocal
      split
      · split
        · rename_i n hroot
          have hn := ((h.shows.rep [] trivial).of_agfindnodeById hroot).1
          refine (h.agsubnode hp hn).imp fun r ⟨_, hf, hr⟩ => ⟨hf.keeps, _, hr, ?_⟩
          rw [Views.above_of_suffix nil_suffix]
          rfl
        · rename_i hroot
          refine create fun id' hid' m hm => ?_
          rw [hsome] at hid'
          cases hid'
          exact (h.shows.rep [] trivial).of_agfindnodeById_none hroot hm
      · rename_i hc
        by_cases hcf : cflag = true
        · have hroot : p = [] := by
            by_contra hp'
            exact hc ⟨hcf, hp'⟩
          subst hroot
          refine create fun id' hid' m hm => ?_
          rw [hsome] at hid'
          cases hid'
          exact (h.shows.rep [] trivial).of_agfindnodeById_none hlocal hm
        · rw [agnodeCreate, if_neg hcf]
          exact ⟨.refl s, stay h⟩

end Store

end Graphviz
