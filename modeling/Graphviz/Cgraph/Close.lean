import Graphviz.Cgraph.LocalNames
import Graphviz.Util.Numeral

/-!
# Closing a subgraph

What `agclose` of a subgraph leaves as it was: the records of the graphs that are not below the
subgraph, and the attributes of all other objects. It closes the internal map of names, too, which
is the whole root graph's.
-/

namespace Graphviz

open List Option Outcome

variable {α : Type}

/-! ## Attributes and names -/

/-- The attribute records of a root graph: whether a graph's descriptor has attributes, what the
graphs hold (their values, and their dictionaries of declarations), and what the nodes and edges
hold, which subgraphs share. -/
structure Attrs (α : Type) where
  has_attrs : GPath → Bool
  graph : GPath → Option α
  node : Agnode → Option α
  edge : Agedge → Option α

/-- `agraphattr_delete`. -/
def Attrs.agraphattrDelete (at' : Attrs α) (p : GPath) : Attrs α :=
  { at' with graph := Function.update at'.graph p none }

namespace Store

/-- `agclose` of a subgraph, with the attributes. The nodes that go are images in a subgraph, whose
attributes stay with the nodes of the root. -/
def agcloseAttrs (c : Cdt) : ℕ → IdType → GPath → Store × Attrs α → Except Fault (Store × Attrs α)
  | 0, _, _, _ => .error .fuel
  | fuel + 1, id, par, (s, attrs) => do
    let p := id :: par
    let (s, attrs) ←
      (s.graphs p).subgs.foldlM (fun st sub => agcloseAttrs c fuel sub p st) (s, attrs)
    let s ← (s.graphs p).nSeq.foldlM (fun s n => Prod.snd <$> s.agdelnode c p n) s
    let s := s.aginternalmapclose
    assert ((s.graphs p).nId = [])
    assert ((s.graphs p).nSeq = [])
    assert ((s.graphs p).subgs = [])
    let attrs := if attrs.has_attrs p then attrs.agraphattrDelete p else attrs
    let s := s.agfreeid .AGRAPH id
    .ok (s.set par { s.graphs par with subgs := (s.graphs par).subgs.erase id }, attrs)

/-- `aginternalmapprint`. -/
def aginternalmapprint (s : Store) (objtype : ObjType) (id : IdType) : Option CStr :=
  (s.imap.find? fun ent => ent.1 = objtype ∧ ent.2.2 = id).map (·.2.1)

/-- What `agnameof` returns of an identifier without a name in the internal map. -/
def idname (objtype : ObjType) : IdType → Option CStr
  | .named str => some str
  | .anon k => if objtype = .AGEDGE then none else some (LOCALNAMEPREFIX :: decimal (2 * k + 1))

/-- `agnameof`. -/
def agnameof (s : Store) (objtype : ObjType) (id : IdType) : Option CStr :=
  match s.aginternalmapprint objtype id with
  | some str => some str
  | none => idname objtype id

variable {s s' : Store} {attrs attrs' : Attrs α} {p q par : GPath} {n : Agnode} {c : Cdt}
  {objtype : ObjType} {str : CStr} {id rid : IdType} {V : Views}

section Fst

variable {β γ σ τ : Type}

/-- A sequence that carries the attributes along does to the store what the sequence without them
does. -/
theorem fst_bind {x : Except Fault (σ × β)} {f' : σ × β → Except Fault (τ × β)}
    {f : σ → Except Fault τ} (h : ∀ st, Prod.fst <$> f' st = f st.1) :
    Prod.fst <$> (x >>= f') = (Prod.fst <$> x) >>= f := by
  cases x with
  | ok st => exact h st
  | error e => rfl

theorem fst_after {x : Except Fault γ} {f' : γ → Except Fault (τ × β)} {f : γ → Except Fault τ}
    (h : ∀ a, Prod.fst <$> f' a = f a) : Prod.fst <$> (x >>= f') = x >>= f := by
  cases x with
  | ok a => exact h a
  | error e => rfl

theorem fst_foldlM {f : σ → γ → Except Fault σ} {f' : σ × β → γ → Except Fault (σ × β)}
    (h : ∀ st x, Prod.fst <$> f' st x = f st.1 x) (l : List γ) (st : σ × β) :
    Prod.fst <$> l.foldlM f' st = l.foldlM f st.1 := by
  induction l generalizing st with
  | nil => rfl
  | cons x l ih =>
    rw [foldlM_cons, foldlM_cons, ← h st x]
    exact fst_bind ih

end Fst

/-- The attributes do not matter to what is closed. -/
theorem agcloseAttrs_fst (c : Cdt) (fuel : ℕ) (id : IdType) (par : GPath) (st : Store × Attrs α) :
    Prod.fst <$> agcloseAttrs c fuel id par st = agclose c fuel id par st.1 := by
  induction fuel generalizing id par st with
  | zero => rfl
  | succ fuel ih =>
    rw [agcloseAttrs, agclose, ← fst_foldlM (fun st sub => ih sub (id :: par) st)]
    refine fst_bind fun st => fst_after fun s => ?_
    exact fst_after fun _ => fst_after fun _ => fst_after fun _ => rfl

/-! ## What a deletion leaves -/

/-- Nothing but records below a graph has changed. -/
def Below (p : GPath) (s s' : Store) : Prop := ∀ q, ¬ p <:+ q → s'.graphs q = s.graphs q

theorem Below.refl (p : GPath) (s : Store) : Below p s s := fun _ _ => rfl

theorem Below.trans {s'' : Store} (h : Below p s s') (h' : Below p s' s'') : Below p s s'' :=
  fun q hq => (h' q hq).trans (h q hq)

theorem Below.set (p : GPath) (s : Store) (g : Agraph) : Below p s (s.set p g) :=
  fun _ hq => set_graphs_of_ne fun heq => hq (heq ▸ suffix_rfl)

/-- `rec_apply` changes records below its graph alone. -/
theorem recApply_below {fn : Agraph → Except Fault Agraph} {objsearch : Agraph → Bool} {fuel : ℕ} :
    Meets (recApply fn objsearch fuel p s) (Below p s) Any := by
  induction fuel generalizing p s with
  | zero => trivial
  | succ fuel ih =>
    rw [recApply]
    have loop : Meets ((s.graphs p).subgs.foldlM (fun s id =>
        if objsearch (s.graphs (id :: p)) then recApply fn objsearch fuel (id :: p) s
        else .ok s) s) (Below p s) Any := by
      refine Meets.foldlM (fun _ s' => Below p s s') (fun id _ s' hs' => ?_) s (.refl p s)
      split
      · refine ih.imp fun s'' hs'' => hs'.trans fun q hq => hs'' q fun h => hq ?_
        exact (suffix_cons id p).trans h
      · exact hs'
    exact loop.bind fun s' hs' => meets_after _ fun g => hs'.trans (Below.set p s' g)

theorem agapply_below {fn : Agraph → Except Fault Agraph} {objsearch : Agraph → Bool} :
    Meets (s.agapply fn objsearch p) (fun r => Below p s r.2) Any := by
  rw [agapply]
  split
  · exact recApply_below.bind fun s' hs' => hs'
  · exact .refl p s

/-- `agdelnode` from a subgraph changes records below the subgraph alone. -/
theorem agdelnode_below (hp : p ≠ []) : Meets (s.agdelnode c p n) (fun r => Below p s r.2) Any := by
  rw [agdelnode]
  split
  · exact .refl p s
  · simp only [if_neg hp]
    exact agapply_below

/-- What `agclose` of a subgraph changes outside of what it closes: the subgraph is taken out of its
parent, and the internal map is emptied. -/
structure Outside (id : IdType) (par : GPath) (st st' : Store × Attrs α) : Prop where
  graphs : ∀ q, q ≠ par → ¬ id :: par <:+ q → st'.1.graphs q = st.1.graphs q
  parent : st'.1.graphs par =
    { st.1.graphs par with subgs := (st.1.graphs par).subgs.erase id }
  imap : st'.1.imap = []
  node : st'.2.node = st.2.node
  edge : st'.2.edge = st.2.edge
  graph : ∀ q, ¬ id :: par <:+ q → st'.2.graph q = st.2.graph q

theorem agcloseAttrs_outside {fuel : ℕ} {st : Store × Attrs α} :
    Meets (agcloseAttrs c fuel id par st) (Outside id par st) Any := by
  induction fuel generalizing id par st with
  | zero => trivial
  | succ fuel ih =>
    obtain ⟨s, attrs⟩ := st
    rw [agcloseAttrs]
    set p := id :: par with hpdef
    have hcons : ∀ {q : GPath}, ¬ p <:+ q → ∀ sub, q ≠ p ∧ ¬ sub :: p <:+ q := fun hq sub =>
      ⟨fun heq => hq (heq ▸ suffix_rfl), fun h => hq ((suffix_cons sub p).trans h)⟩
    have loop : Meets ((s.graphs p).subgs.foldlM
        (fun st sub => agcloseAttrs c fuel sub p st) (s, attrs))
        (fun st' => Below p s st'.1 ∧ st'.2.node = attrs.node ∧ st'.2.edge = attrs.edge ∧
          ∀ q, ¬ p <:+ q → st'.2.graph q = attrs.graph q) Any := by
      refine Meets.foldlM (fun _ st' => Below p s st'.1 ∧ st'.2.node = attrs.node ∧
        st'.2.edge = attrs.edge ∧ ∀ q, ¬ p <:+ q → st'.2.graph q = attrs.graph q)
        (fun sub _ st' ⟨hbelow, hnode, hedge, hgraph⟩ => ?_) (s, attrs)
        ⟨.refl p s, rfl, rfl, fun _ _ => rfl⟩
      refine ih.imp fun st'' h => ⟨fun q hq => ?_, h.node.trans hnode, h.edge.trans hedge,
        fun q hq => (h.graph q (hcons hq sub).2).trans (hgraph q hq)⟩
      exact (h.graphs q (hcons hq sub).1 (hcons hq sub).2).trans (hbelow q hq)
    refine loop.bind fun ⟨s1, attrs1⟩ ⟨h1, hnode, hedge, hgraph⟩ => ?_
    have nodes : Meets ((s1.graphs p).nSeq.foldlM (fun s n => Prod.snd <$> s.agdelnode c p n) s1)
        (Below p s1) Any := by
      refine Meets.foldlM (fun _ s' => Below p s1 s') (fun n _ s' hs' => ?_) s1 (.refl p s1)
      exact (agdelnode_below (cons_ne_nil id par)).bind fun r hr => hs'.trans hr
    refine nodes.bind fun s2 h2 => ?_
    refine meets_after _ fun _ => meets_after _ fun _ => meets_after _ fun _ => ?_
    have hpar : ¬ p <:+ par := Views.not_cons_suffix
    have h := h1.trans h2
    refine ⟨fun q hqpar hq => ?_, ?_, rfl, ?_, ?_, fun q hq => ?_⟩
    · exact (set_graphs_of_ne hqpar).trans (h q hq)
    · refine (set_graphs_self _ _ _).trans ?_
      show ({ s2.graphs par with subgs := (s2.graphs par).subgs.erase id } : Agraph) = _
      rw [h par hpar]
    · dsimp only
      split
      · exact hnode
      · exact hnode
    · dsimp only
      split
      · exact hedge
      · exact hedge
    · dsimp only
      split
      · refine (Function.update_of_ne ?_ _ _).trans (hgraph q hq)
        exact (hcons hq id).1
      · exact hgraph q hq

/-! ## Looking up -/

/-- What `agnode` finds. -/
theorem agnode_false (name : Option CStr) : s.agnode q name false =
    .ok ((s.agmapnametoid .AGNODE name false).1.bind (s.graphs q).agfindnodeById, s) := by
  rw [agnode]
  split
  · rename_i hid
    rw [hid]
    rfl
  · rename_i i hid
    rw [hid, bind_some]
    split
    · rename_i n hn
      rw [hn]
    · rename_i hn
      rw [if_neg (by simp), hn]
      rfl

/-- What `agsubg` finds. -/
theorem agsubg_false (name : Option CStr) : s.agsubg q name false = .ok
    (((s.agmapnametoid .AGRAPH name false).1.filter fun i => i ∈ (s.graphs q).subgs).map (· :: q),
      s) := by
  rw [agsubg]
  cases (s.agmapnametoid .AGRAPH name false).1.filter fun i => i ∈ (s.graphs q).subgs with
  | none => rfl
  | some i => rfl

/-- What `agedge` finds: nothing, when it has a name that no identifier belongs to. -/
theorem agedge_false (t hd : Agnode) (name : Option CStr) : s.agedge c q t hd name false = .ok
    (if name ≠ none ∧ (s.agmapnametoid .AGEDGE name false).1 = none then none
      else s.probe c q t hd (s.agmapnametoid .AGEDGE name false).1, s) := by
  rw [agedge, probes]
  cases (s.agmapnametoid .AGEDGE name false).1 with
  | none =>
    cases name with
    | none =>
      simp only [isSome_none, Bool.false_eq_true, not_false_eq_true, true_or, and_true,
        or_true, decide_true, if_true, if_false, ne_eq, not_true]
      cases s.probe c q t hd none with
      | some e => rfl
      | none => rfl
    | some str => rfl
  | some i =>
    simp only [isSome_some, true_or, decide_true, if_true, reduceCtorEq, and_false,
      if_false, Bool.false_eq_true]
    cases s.probe c q t hd (some i) with
    | some e => rfl
    | none => rfl

/-- Without the internal map a local name has no identifier. -/
theorem agmapnametoid_unmapped (himap : s'.imap = []) (hlocal : str.head? = some LOCALNAMEPREFIX) :
    (s'.agmapnametoid objtype (some str) false).1 = none := by
  rw [agmapnametoid, if_neg (not_not.2 hlocal), aginternalmaplookup, himap]
  rfl

/-- Without the internal map a name has the identifier it had, or none where it was in the map. -/
theorem agmapnametoid_closed (himap : s'.imap = []) (objtype : ObjType) (name : Option CStr) :
    (s'.agmapnametoid objtype name false).1 = (s.agmapnametoid objtype name false).1 ∨
      ∃ str i, name = some str ∧ (objtype, str, i) ∈ s.imap ∧
        (s.agmapnametoid objtype name false).1 = some i ∧
        (s'.agmapnametoid objtype name false).1 = none := by
  cases name with
  | none => exact .inl rfl
  | some str =>
    by_cases hlocal : str.head? = some LOCALNAMEPREFIX
    · have hs' : (s'.agmapnametoid objtype (some str) false).1 = none :=
        agmapnametoid_unmapped himap hlocal
      rw [hs', agmapnametoid, if_neg (not_not.2 hlocal)]
      cases hlookup : s.aginternalmaplookup objtype str with
      | none => exact .inl rfl
      | some i => exact .inr ⟨str, i, rfl, aginternalmaplookup_eq_some hlookup, rfl, rfl⟩
    · refine .inl ?_
      rw [agmapnametoid, agmapnametoid, if_pos hlocal, if_pos hlocal]

/-- A name of the map has its identifier. -/
theorem LocalNames.agmapnametoid_mem (h : s.LocalNames) (hent : (objtype, str, id) ∈ s.imap) :
    (s.agmapnametoid objtype (some str) false).1 = some id := by
  rw [Store.agmapnametoid, if_neg (not_not.2 (h.head _ hent)), h.lookup hent]

theorem agnameof_unmapped (h : ∀ str, (objtype, str, id) ∉ s.imap) :
    s.agnameof objtype id = idname objtype id := by
  rw [agnameof, aginternalmapprint, find?_eq_none.2 fun ent hent => ?_]
  · rfl
  · obtain ⟨k, str, i⟩ := ent
    simp only [decide_eq_true_eq]
    rintro ⟨rfl, rfl⟩
    exact h str hent

/-! ## A local operation -/

/-- The identifier `agopen` gives the root graph. -/
def rootId : Option CStr → IdType
  | none => .anon 0
  | some str => if str.head? ≠ some LOCALNAMEPREFIX then .named str else .anon 0

/-- A subgraph has been closed, and everything else is as it was: the graphs with their nodes and
edges, the attributes, what is found by name and the names of what is left. -/
structure ClosesLocally (s : Store) (attrs : Attrs α) (rid id : IdType) (par : GPath) (s' : Store)
    (attrs' : Attrs α) : Prop where
  live : ∀ q, s'.Live q ↔ s.Live q ∧ ¬ id :: par <:+ q
  desc : s'.desc = s.desc
  nodes : ∀ q, s'.Live q → (s'.graphs q).nSeq = (s.graphs q).nSeq
  images : ∀ q, s'.Live q → (s'.graphs q).nId = (s.graphs q).nId
  graphAttrs : ∀ q, s'.Live q → attrs'.graph q = attrs.graph q
  nodeAttrs : attrs'.node = attrs.node
  edgeAttrs : attrs'.edge = attrs.edge
  agnode : ∀ q, s'.Live q → ∀ name,
    Prod.fst <$> s'.agnode q name false = Prod.fst <$> s.agnode q name false
  agedge : ∀ c q, s'.Live q → ∀ t ∈ (s.graphs []).nSeq, ∀ hd ∈ (s.graphs []).nSeq, ∀ name,
    Prod.fst <$> s'.agedge c q t hd name false = Prod.fst <$> s.agedge c q t hd name false
  agsubg : ∀ q, s'.Live q → ∀ name, Prod.fst <$> s'.agsubg q name false =
    (fun r => r.1.filter fun q' => ¬ id :: par <:+ q') <$> s.agsubg q name false
  rootName : s'.agnameof .AGRAPH rid = s.agnameof .AGRAPH rid
  graphName : ∀ i q, s'.Live (i :: q) → s'.agnameof .AGRAPH i = s.agnameof .AGRAPH i
  nodeName : ∀ n ∈ (s.graphs []).nSeq, s'.agnameof .AGNODE n.id = s.agnameof .AGNODE n.id
  edgeName : ∀ e, (s.graphs []).HasEdge e → s'.agnameof .AGEDGE e.id = s.agnameof .AGEDGE e.id

/-- No node, edge or graph that is left when a subgraph is closed has its name from the internal
map. The root graph may have the name it would have without the map. -/
structure Unmapped (s : Store) (rid id : IdType) (par : GPath) : Prop where
  root : s.agnameof .AGRAPH rid = idname .AGRAPH rid
  graph : ∀ str i q, (.AGRAPH, str, i) ∈ s.imap → s.Live (i :: q) → id :: par <:+ i :: q
  node : ∀ str, ∀ n ∈ (s.graphs []).nSeq, (.AGNODE, str, n.id) ∉ s.imap
  edge : ∀ str e, (s.graphs []).HasEdge e → (.AGEDGE, str, e.id) ∉ s.imap

/-- The graphs that are left. -/
theorem Outside.live_iff {st st' : Store × Attrs α} (h : Outside id par st st')
    (hnd : (st.1.graphs par).subgs.Nodup) : st'.1.Live q ↔ st.1.Live q ∧ ¬ id :: par <:+ q := by
  induction q with
  | nil => exact ⟨fun hq => ⟨hq, fun hs => by cases suffix_nil.1 hs⟩, And.left⟩
  | cons i q ih =>
    rw [Live, Live, ih, and_assoc, and_assoc]
    refine and_congr_right fun hq => ?_
    rw [suffix_cons_iff, not_or]
    by_cases hqp : q = par
    · subst hqp
      rw [h.parent]
      dsimp only
      rw [hnd.mem_erase_iff, ne_comm]
      have hcons : id :: q = i :: q ↔ id = i := by simp
      rw [hcons]
      exact ⟨fun h => ⟨h.2.2, h.2.1, h.1⟩, fun h => ⟨h.2.2, h.2.1, h.1⟩⟩
    · have hcons : ¬ id :: par = i :: q := fun heq => hqp (List.cons.inj heq).2.symm
      constructor
      · rintro ⟨hs, hi⟩
        rw [h.graphs q hqp hs] at hi
        exact ⟨hi, hcons, hs⟩
      · rintro ⟨hi, -, hs⟩
        rw [h.graphs q hqp hs]
        exact ⟨hs, hi⟩

/-- A graph that is left has its nodes and edges. -/
theorem Outside.record {st st' : Store × Attrs α} (h : Outside id par st st')
    (hq : ¬ id :: par <:+ q) : (st'.1.graphs q).nId = (st.1.graphs q).nId ∧
      (st'.1.graphs q).nSeq = (st.1.graphs q).nSeq := by
  by_cases hqp : q = par
  · subst hqp
    rw [h.parent]
    exact ⟨rfl, rfl⟩
  · rw [h.graphs q hqp hq]
    exact ⟨rfl, rfl⟩

theorem agfindnodeById_congr {g g' : Agraph} (h : g'.nId = g.nId) :
    g'.agfindnodeById = g.agfindnodeById := by
  funext i
  rw [Agraph.agfindnodeById, Agraph.agfindnodeById, h]

theorem probe_congr (hdesc : s'.desc = s.desc) (h : (s'.graphs q).nId = (s.graphs q).nId)
    (t hd : Agnode) (key : Option IdType) : s'.probe c q t hd key = s.probe c q t hd key := by
  rw [probe, probe, Agraph.agfindedgeByKey, Agraph.agfindedgeByKey, Agraph.agfindedgeByKey,
    Agraph.agfindedgeByKey, Agraph.agsubrep, Agraph.agsubrep, Agraph.agsubrep, Agraph.agsubrep,
    hdesc, h]

/-- A probe for an identifier returns an edge with it. -/
theorem Inv.id_of_probe (h : s.Inv V) (hq : s.Live q) {t hd : Agnode} (ht : t ∈ (V []).nodes)
    (hh : hd ∈ (V []).nodes) {e : Agedge} (hf : s.probe c q t hd (some id) = some e) :
    e.id = id := by
  rw [probe] at hf
  split at hf
  · rename_i f hfind
    cases hf
    exact (h.of_find hq ht hh hfind).2.2.2 id rfl
  · split at hf
    · cases hf
    · exact (h.of_find hq hh ht hf).2.2.2 id rfl

/-- Where nothing that is left has a name from the internal map, everything is as it was. -/
theorem Inv.closesLocally (h : s.Inv V) (hp : s.Live (id :: par))
    (hout : Outside id par (s, attrs) (s', attrs')) (hdesc : s'.desc = s.desc)
    (hun : s.Unmapped rid id par) : s.ClosesLocally attrs rid id par s' attrs' := by
  have hlive : ∀ q, s'.Live q ↔ s.Live q ∧ ¬ id :: par <:+ q := fun q =>
    hout.live_iff (h.shape par hp.1).2
  have hid : ∀ q, s'.Live q → (s'.graphs q).nId = (s.graphs q).nId := fun q hq =>
    (hout.record ((hlive q).1 hq).2).1
  have mem_root : ∀ n, n ∈ (s.graphs []).nSeq ↔ n ∈ (V []).nodes := fun n =>
    h.mem_nSeq (p := []) trivial
  have hname : ∀ objtype i, s'.agnameof objtype i = idname objtype i := fun objtype i =>
    agnameof_unmapped fun str hent => by
      rw [hout.imap] at hent
      cases hent
  refine ⟨hlive, hdesc, fun q hq => (hout.record ((hlive q).1 hq).2).2, hid,
    fun q hq => hout.graph q ((hlive q).1 hq).2, hout.node, hout.edge, fun q hq name => ?_,
    fun c q hq t ht hd hh name => ?_, fun q hq name => ?_, ?_, fun i q hq => ?_, fun n hn => ?_,
    fun e he => ?_⟩
  · rw [agnode_false, agnode_false, agfindnodeById_congr (hid q hq)]
    obtain heq | ⟨str, i, -, hent, hs, hs'⟩ := agmapnametoid_closed hout.imap .AGNODE name
    · rw [heq]
      rfl
    · rw [hs, hs', bind_some]
      cases hf : (s.graphs q).agfindnodeById i with
      | none => rfl
      | some n =>
        have hlq := ((hlive q).1 hq).1
        obtain ⟨hn, rfl⟩ := (h.shows.rep q hlq).of_agfindnodeById hf
        exact absurd hent (hun.node str n ((mem_root n).2 ((h.hier.root hlq).nodes hn)))
  · rw [agedge_false, agedge_false, probe_congr hdesc (hid q hq)]
    obtain heq | ⟨str, i, hstr, hent, hs, hs'⟩ := agmapnametoid_closed hout.imap .AGEDGE name
    · rw [heq]
      rfl
    · rw [hs, hs', if_pos ⟨by rw [hstr]; simp, rfl⟩, if_neg (by simp)]
      cases hf : s.probe c q t hd (some i) with
      | none => rfl
      | some e =>
        have hlq := ((hlive q).1 hq).1
        rw [mem_root] at ht hh
        have he := (h.hier.root hlq).edges (h.of_probe hlq ht hh hf).1
        rw [← h.id_of_probe hlq ht hh hf] at hent
        exact absurd hent (hun.edge str e ((h.hasEdge_iff (p := []) trivial).2 he))
  · have hlq := ((hlive q).1 hq).1
    rw [agsubg_false, agsubg_false]
    obtain heq | ⟨str, i, -, hent, hs, hs'⟩ := agmapnametoid_closed hout.imap .AGRAPH name
    · rw [heq]
      cases (s.agmapnametoid .AGRAPH name false).1 with
      | none => rfl
      | some i =>
        have hiff : i ∈ (s'.graphs q).subgs ↔ i ∈ (s.graphs q).subgs ∧ ¬ id :: par <:+ i :: q := by
          have := hlive (i :: q)
          rw [Live, Live] at this
          exact ⟨fun hi => ⟨(this.1 ⟨hq, hi⟩).1.2, (this.1 ⟨hq, hi⟩).2⟩,
            fun hi => (this.2 ⟨⟨hlq, hi.1⟩, hi.2⟩).2⟩
        by_cases hi : i ∈ (s.graphs q).subgs
        · by_cases hs : id :: par <:+ i :: q
          · have hno : i ∉ (s'.graphs q).subgs := fun hmem => (hiff.1 hmem).2 hs
            simp [Option.filter, hi, hs, hno]
          · have hmem : i ∈ (s'.graphs q).subgs := hiff.2 ⟨hi, hs⟩
            simp [Option.filter, hi, hs, hmem]
        · have hno : i ∉ (s'.graphs q).subgs := fun hmem => hi (hiff.1 hmem).1
          simp [Option.filter, hi, hno]
    · rw [hs, hs']
      by_cases hi : i ∈ (s.graphs q).subgs
      · have hsuf := hun.graph str i q hent ⟨hlq, hi⟩
        simp [Option.filter, hi, hsuf]
      · simp [Option.filter, hi]
  · rw [hname, hun.root]
  · rw [hname, agnameof_unmapped fun str hent => ?_]
    obtain ⟨hl, hs⟩ := (hlive _).1 hq
    exact hs (hun.graph str i q hent hl)
  · rw [hname, agnameof_unmapped fun str => hun.node str n hn]
  · rw [hname, agnameof_unmapped fun str => hun.edge str e he]

/-- Where everything is as it was, nothing that is left had a name from the internal map. -/
theorem ClosesLocally.unmapped (hcl : s.ClosesLocally attrs rid id par s' attrs') (h : s.Inv V)
    (hlocal : s.LocalNames) (himap : s'.imap = []) : s.Unmapped rid id par := by
  have lost : ∀ {objtype str i}, (objtype, str, i) ∈ s.imap →
      (s.agmapnametoid objtype (some str) false).1 = some i ∧
        (s'.agmapnametoid objtype (some str) false).1 = none := fun hent =>
    ⟨hlocal.agmapnametoid_mem hent, agmapnametoid_unmapped himap (hlocal.head _ hent)⟩
  have hroot : s.Live [] := trivial
  have hroot' : s'.Live [] := trivial
  refine ⟨?_, fun str i q hent hq => by_contra fun hs => ?_, fun str n hn hent => ?_,
    fun str e he hent => ?_⟩
  · rw [← hcl.rootName, agnameof_unmapped fun str hent => ?_]
    rw [himap] at hent
    cases hent
  · have hq' := (hcl.live (i :: q)).2 ⟨hq, hs⟩
    have hfound := hcl.agsubg q hq'.1 (some str)
    rw [agsubg_false, agsubg_false, (lost hent).1, (lost hent).2] at hfound
    simp [Option.filter, hq.2, hs] at hfound
  · have hfound := hcl.agnode [] hroot' (some str)
    rw [agnode_false, agnode_false, (lost hent).1, (lost hent).2, bind_some,
      (h.shows.rep [] hroot).agfindnodeById_mem h.distinct subset_rfl
        ((h.mem_nSeq hroot).1 hn)] at hfound
    cases hfound
  · have he' := (h.hasEdge_iff hroot).1 he
    have ht := (h.mem_nSeq hroot).2 ((h.shows.ends [] hroot).tail e he')
    have hh := (h.mem_nSeq hroot).2 ((h.shows.ends [] hroot).head e he')
    have hfound := hcl.agedge .first [] hroot' e.tail ht e.head hh (some str)
    rw [agedge_false, agedge_false, (lost hent).1, (lost hent).2, if_pos ⟨by simp, rfl⟩,
      if_neg (by simp)] at hfound
    cases hf : s.probe .first [] e.tail e.head (some e.id) with
    | none => exact h.of_probe_none hroot hf he' (.inl ⟨rfl, rfl⟩) (by simp)
    | some f =>
      rw [hf] at hfound
      cases hfound

/-- After every run, closing a subgraph returns and is a local operation exactly when nothing that
is left has its name from the internal map. -/
theorem agclose_local_iff {desc : Agdesc} {name : Option CStr} {ops : List StoreOp}
    (hrun : Run (fun _ _ _ => True) (agopen desc name) ops s) (hp : s.Live (id :: par))
    (attrs : Attrs α) (c : Cdt) :
    (∃ s' attrs', agcloseAttrs c s.depth id par (s, attrs) = .ok (s', attrs') ∧
      s.ClosesLocally attrs (rootId name) id par s' attrs') ↔
        s.Unmapped (rootId name) id par := by
  obtain ⟨V, h⟩ := hrun.inv
  have hfst := agcloseAttrs_fst c s.depth id par (s, attrs)
  have hout : Meets (agcloseAttrs c s.depth id par (s, attrs)) (Outside id par (s, attrs)) Any :=
    agcloseAttrs_outside
  constructor
  · rintro ⟨s', attrs', hres, hcl⟩
    exact hcl.unmapped h hrun.localNames (hout.of_ok hres).imap
  · intro hun
    obtain ⟨s1, hs1, W, -, hclosed⟩ := (agclose_meets (E := fun _ => False) c s.depth id par s V h
      hp le_rfl (by rw [depth]; omega)).exists_ok
    rw [hs1] at hfst
    cases hres : agcloseAttrs c s.depth id par (s, attrs) with
    | error f =>
      rw [hres] at hfst
      cases hfst
    | ok st =>
      rw [hres] at hfst
      obtain rfl := Except.ok.inj hfst
      exact ⟨st.1, st.2, rfl, h.closesLocally hp (hout.of_ok hres) hclosed.desc hun⟩

/-- No object has attributes. -/
def noAttrs : Attrs Unit where
  has_attrs _ := false
  graph _ := none
  node _ := none
  edge _ := none

/-- Closing the empty subgraph `s` beside the nodes `a` and `b` and their edge. -/
theorem agclose_local_makeAB :
    ∃ s, Run (fun _ _ _ => True) (agopen ⟨true, false, false⟩ none) makeAB s ∧
      ∃ s' attrs', agcloseAttrs .first s.depth (.named [115]) [] (s, noAttrs) = .ok (s', attrs') ∧
        s.ClosesLocally noAttrs (rootId none) (.named [115]) [] s' attrs' := by
  obtain ⟨s, hrun, hroot, -, himap⟩ := run_makeAB
  have hrun' := hrun.imp fun _ _ _ _ => trivial
  have hno : ∀ ent, ent ∉ s.imap := fun ent hent => by
    rw [himap] at hent
    cases hent
  have hlive : s.Live [.named [115]] := by
    refine ⟨trivial, ?_⟩
    rw [hroot]
    decide
  exact ⟨s, hrun', (agclose_local_iff hrun' hlive noAttrs .first).2
    ⟨agnameof_unmapped fun str => hno _, fun str i q hent => absurd hent (hno _),
      fun str n _ => hno _, fun str e _ => hno _⟩⟩

/-- The operations that open a subgraph `s` and make a node `%a` in the graph. -/
def makeLocal : List StoreOp :=
  [.agsubg [] (some [115]) true, .agnode [] (some [37, 97]) true]

/-- When the subgraph has been closed, the node `%a` is not found any more. -/
theorem agclose_loses_local :
    ∃ s, Run (fun _ _ _ => True) (agopen ⟨true, false, false⟩ none) makeLocal s ∧
      s.Live [.named [115]] ∧
      ¬ ∃ s' attrs',
        agcloseAttrs .first s.depth (.named [115]) [] (s, noAttrs) = .ok (s', attrs') ∧
          s.ClosesLocally noAttrs (rootId none) (.named [115]) [] s' attrs' := by
  refine ⟨_, .snoc [_] .first (.snoc [] .first .nil trivial trivial rfl) trivial trivial rfl,
    ⟨trivial, by decide⟩, ?_⟩
  rintro ⟨s', attrs', hres, hcl⟩
  cases hres
  have := hcl.agnode [] trivial (some [37, 97])
  rw [agnode_false, agnode_false] at this
  exact absurd (Except.ok.inj this) (by decide)

end Store

end Graphviz
