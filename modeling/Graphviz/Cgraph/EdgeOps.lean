import Graphviz.Cgraph.Close

/-!
# Edges of one graph

How `agedge` and `agdeledge` change the sequences of the graph they are called with. A walk over the
out-edges of a node, with `agfstout` and `agnxtout`, may go on while edges come and go: an edge that
is added goes in between, and one that is deleted leaves the others where they are.
-/

namespace Graphviz

open List Outcome

/-- The item after the first `a`. -/
def nextOf {α : Type} [DecidableEq α] (l : List α) (a : α) : Option α :=
  ((l.dropWhile fun b => b ≠ a).drop 1).head?

theorem nextOf_append {α : Type} [DecidableEq α] {l₁ l₂ : List α} {a : α}
    (hn : (l₁ ++ a :: l₂).Nodup) : nextOf (l₁ ++ a :: l₂) a = l₂.head? := by
  have ha : ∀ b ∈ l₁, decide (b ≠ a) = true := fun b hb => decide_eq_true fun hab =>
    (nodup_append'.1 hn).2.2 hb (hab ▸ mem_cons_self)
  rw [nextOf, dropWhile_append_of_pos ha, dropWhile_cons_of_neg (by simp)]
  rfl

namespace Agraph

open Store (Any meets_after)

variable {g g' : Agraph} {n : Agnode} {e : Agedge} {sn : Agsubnode}

/-- `agfstnode`. -/
def agfstnode (g : Agraph) : Option Agnode := g.nSeq.head?

/-- `agnxtnode`. -/
def agnxtnode (g : Agraph) (n : Agnode) : Option Agnode := nextOf g.nSeq n

/-- `agfstout`. -/
def agfstout (g : Agraph) (n : Agnode) : Option Agedge := (g.outSeqOf n).head?

/-- `agnxtout`. -/
def agnxtout (g : Agraph) (e : Agedge) : Option Agedge := nextOf (g.outSeqOf e.tail) e

/-! ## Sequences that grow and shrink -/

/-- A graph with the same nodes and, it may be, more edges. -/
structure Grows (g g' : Agraph) : Prop where
  nSeq : g'.nSeq = g.nSeq
  out : ∀ n, (g.outSeqOf n).Sublist (g'.outSeqOf n)

theorem Grows.refl (g : Agraph) : Grows g g := ⟨rfl, fun _ => .refl _⟩

theorem Grows.trans {g'' : Agraph} (h : Grows g g') (h' : Grows g' g'') : Grows g g'' :=
  ⟨h'.nSeq.trans h.nSeq, fun n => (h.out n).trans (h'.out n)⟩

/-- The image of a node after a write to an image. -/
theorem agsubrep_setSubrep : (g.setSubrep sn).agsubrep n =
    (g.agsubrep n).map fun s => if s.node.id = sn.node.id then sn else s := by
  rw [agsubrep, agsubrep, setSubrep, find?_map]
  congr 2
  funext s
  by_cases hs : s.node.id = sn.node.id
  · simp [hs]
  · simp [hs]

/-- A write to an image leaves the other sequences alone. -/
theorem outSeqOf_setSubrep {sn' : Agsubnode} (hsn : g.agsubrep n = some sn)
    (hnode : sn'.node = sn.node) (m : Agnode) :
    (g.setSubrep sn').outSeqOf m = if m.id = n.id then sn'.outSeq else g.outSeqOf m := by
  have hid : sn.node.id = n.id := by simpa using find?_some hsn
  rw [outSeqOf, agsubrep_setSubrep, hnode, hid, outSeqOf]
  by_cases hm : m.id = n.id
  · have hsn' : g.agsubrep m = some sn := by rw [agsubrep, hm]; exact hsn
    rw [hsn', if_pos hm]
    simp [hid]
  · rw [if_neg hm]
    cases hr : g.agsubrep m with
    | none => rfl
    | some sm =>
      have hsm : sm.node.id = m.id := by simpa using find?_some hr
      simp [hsm, hm]

theorem sublist_insert {α : Type} {cmp : α → α → Ordering} {d : List α} {x : α} :
    d.Sublist (Dict.insert cmp d x) := by
  induction d with
  | nil => exact nil_sublist _
  | cons y d ih =>
    rw [Dict.insert]
    split
    · exact sublist_cons_self x _
    · exact .refl _
    · exact ih.cons_cons y

theorem insOut_grows : Meets (g.insOut e) (Grows g) Any := by
  rw [insOut]
  split
  · trivial
  · rename_i sn hsn
    refine ⟨rfl, fun m => ?_⟩
    refine (outSeqOf_setSubrep hsn ?_ m).symm ▸ ?_
    · rfl
    split
    · rename_i hm
      rw [outSeqOf, agsubrep, hm, ← agsubrep, hsn]
      exact sublist_insert
    · exact .refl _

theorem insIn_grows : Meets (g.insIn e) (Grows g) Any := by
  rw [insIn]
  split
  · trivial
  · rename_i sn hsn
    refine ⟨rfl, fun m => ?_⟩
    refine (outSeqOf_setSubrep hsn ?_ m).symm ▸ ?_
    · rfl
    split
    · rename_i hm
      rw [outSeqOf, agsubrep, hm, ← agsubrep, hsn]
      exact .refl _
    · exact .refl _

/-- `del` leaves the others in their order. -/
theorem del_sublist {cmp : Agedge → Agedge → Ordering} {d : List Agedge} :
    Meets (del cmp d e) (fun d' => d'.Sublist d) Any := by
  rw [del]
  split
  · rename_i d' hd
    rw [Dict.delete] at hd
    split at hd
    · cases hd
      exact eraseP_sublist
    · cases hd
  · trivial

theorem delOut_shrinks : Meets (g.delOut e) (fun g' => Grows g' g) Any := by
  rw [delOut]
  split
  · trivial
  · rename_i sn hsn
    refine del_sublist.bind fun outSeq hseq => meets_after _ fun outId => ⟨rfl, fun m => ?_⟩
    refine (outSeqOf_setSubrep hsn ?_ m).symm ▸ ?_
    · rfl
    split
    · rename_i hm
      rw [outSeqOf, agsubrep, hm, ← agsubrep, hsn]
      exact hseq
    · exact .refl _

theorem delIn_shrinks : Meets (g.delIn e) (fun g' => Grows g' g) Any := by
  rw [delIn]
  split
  · trivial
  · rename_i sn hsn
    refine meets_after _ fun inSeq => meets_after _ fun inId => ⟨rfl, fun m => ?_⟩
    refine (outSeqOf_setSubrep hsn ?_ m).symm ▸ ?_
    · rfl
    split
    · rename_i hm
      rw [outSeqOf, agsubrep, hm, ← agsubrep, hsn]
      exact .refl _
    · exact .refl _

theorem agdeledgeimage_shrinks : Meets (g.agdeledgeimage e) (fun g' => Grows g' g) Any :=
  delOut_shrinks.bind fun _ h => delIn_shrinks.imp fun _ h' => h'.trans h

end Agraph

namespace Store

variable {s s' : Store} {V : Views} {p : GPath} {n t hd : Agnode} {e : Agedge} {c : Cdt}
  {E : Fault → Prop}

/-- `installedge` adds an edge to sequences. -/
theorem installedge_grows :
    Meets (installedge c e p s) (fun s' => ∀ q, (s.graphs q).Grows (s'.graphs q)) Any := by
  have hset : ∀ {p : GPath} {s : Store}, Meets ((s.graphs p).insOut e >>= fun g => g.insIn e)
      (fun g => ∀ q, (s.graphs q).Grows ((s.set p g).graphs q)) Any := by
    intro p s
    refine Agraph.insOut_grows.bind fun g hg => Agraph.insIn_grows.imp fun g' hg' q => ?_
    by_cases hq : q = p
    · subst hq
      rw [set_graphs_self]
      exact hg.trans hg'
    · rw [set_graphs_of_ne hq]
      exact .refl _
  induction p generalizing s with
  | nil =>
    rw [installedge]
    split
    · exact fun q => .refl _
    · rw [← bind_assoc]
      exact hset.bind fun g hg => hg
  | cons id p ih =>
    rw [installedge]
    split
    · exact fun q => .refl _
    · rw [← bind_assoc]
      exact hset.bind fun g hg => ih.imp fun s' hs' q => (hg q).trans (hs' q)

/-- `rec_apply` changes the record of its own graph by the function alone. -/
theorem recApply_at {fn : Agraph → Except Fault Agraph} {objsearch : Agraph → Bool} {fuel : ℕ} :
    Meets (recApply fn objsearch fuel p s) (fun s' => fn (s.graphs p) = .ok (s'.graphs p)) Any := by
  cases fuel with
  | zero => trivial
  | succ fuel =>
    rw [recApply]
    have loop : Meets ((s.graphs p).subgs.foldlM (fun s id =>
        if objsearch (s.graphs (id :: p)) then recApply fn objsearch fuel (id :: p) s
        else .ok s) s) (fun s' => s'.graphs p = s.graphs p) Any := by
      refine Meets.foldlM (fun _ s' => s'.graphs p = s.graphs p) (fun id _ s' hs' => ?_) s rfl
      split
      · exact recApply_below.imp fun s'' hs'' => (hs'' p Views.not_cons_suffix).trans hs'
      · exact hs'
    refine loop.bind fun s1 hs1 => ?_
    rw [hs1]
    cases hfn : fn (s.graphs p) with
    | error f => trivial
    | ok g => exact congrArg Except.ok (set_graphs_self _ _ _).symm

theorem agapply_at {fn : Agraph → Except Fault Agraph} {objsearch : Agraph → Bool}
    (hfn : ∀ g, Meets (fn g) (fun g' => g'.Grows g) Any) :
    Meets (s.agapply fn objsearch p) (fun r => (r.2.graphs p).Grows (s.graphs p)) Any := by
  rw [agapply]
  split
  · exact recApply_at.bind fun s' hs' => (hfn _).of_ok hs'
  · exact .refl _

/-- `agdeledge` takes an edge from sequences. -/
theorem agdeledge_shrinks :
    Meets (s.agdeledge c p e) (fun r => (r.2.graphs p).Grows (s.graphs p)) Any := by
  rw [agdeledge]
  split
  · exact .refl _
  · have hgraphs : (if p = [] then s.agfreeid .AGEDGE e.id else s).graphs = s.graphs := by
      split <;> rfl
    refine (agapply_at fun g => Agraph.agdeledgeimage_shrinks).imp fun r hr => ?_
    rwa [hgraphs] at hr

/-! ## Operations on edges between nodes of the graph -/

/-- The out-edges of a node of the graph. -/
theorem Inv.isSet_outSeqOf (h : s.Inv V) (hp : s.Live p) (hn : n ∈ (V p).nodes) :
    IsSet ((s.graphs p).outSeqOf n) {e | e ∈ (V p).edges ∧ e.tail = n} := by
  have hrep := h.shows.rep p hp
  obtain ⟨sn, hmem, hnode, hfind⟩ :=
    hrep.agsubrep_mem h.distinct (h.shows.sub p hp).nodes hn
  rw [Agraph.outSeqOf, hfind, ← hnode]
  exact (hrep.holds sn hmem).outSeq

/-- A node of the graph is its own image. -/
theorem Inv.agsubnode_self (h : s.Inv V) (hp : s.Live p) (hn : n ∈ (V p).nodes) :
    Store.agsubnode n true p s = .ok (some n, s) := by
  have hfind := (h.shows.rep p hp).agfindnodeById_mem h.distinct (h.shows.sub p hp).nodes hn
  cases p with
  | nil => rw [Store.agsubnode, hfind]
  | cons id p => rw [Store.agsubnode, hfind]

/-- What an edge more in a graph changes. -/
structure EdgeAdded (s : Store) (V : Views) (p : GPath) (f : Agedge) (s' : Store) : Prop where
  new : f ∉ (V p).edges
  inv : s'.Inv (V.above (View.addEdge f) p)
  keeps : Keeps s s'
  seqEdge : s'.seqEdge ≤ s.seqEdge + 1
  imap : s'.imap = s.imap
  grows : (s.graphs p).Grows (s'.graphs p)

/-- `newedge` between two nodes of the graph. -/
theorem Inv.newedge_within (h : s.Inv V) (hp : s.Live p) (ht : t ∈ (V p).nodes)
    (hh : hd ∈ (V p).nodes) {id : IdType}
    (hid : ∀ f ∈ (V []).edges, f.tail = t → f.head = hd → f.id ≠ id)
    (hk : ∀ k, id = .anon k → k < s.counter) (c : Cdt) :
    Meets (s.newedge c p t hd id) (fun r => r.1.tail = t ∧ r.1.head = hd ∧ s.EdgeAdded V p r.1 r.2)
      (fun f => f = .assertion ∧ SEQ_MASK ≤ s.seqEdge) := by
  have hsub := (h.hier.root hp).nodes
  rw [Store.newedge, h.agsubnode_self hp ht, ok_bind]
  dsimp only
  rw [h.agsubnode_self hp hh, ok_bind]
  dsimp only
  rw [assert]
  split
  · set e : Agedge := { tail := t, head := hd, id := id, seq := s.seqEdge + 1 } with he
    set s1 : Store := { s with seqEdge := s.seqEdge + 1 } with hs1
    have hseq : ∀ f ∈ (V []).edges, f.seq ≠ e.seq := fun f hf => by
      have := h.fresh.edgeSeq f hf
      rw [he]
      dsimp only
      omega
    have hU : ((V []).addEdge e).Distinct :=
      h.distinct.addEdge (hsub ht) (hsub hh) hid hseq
    have hfr : s1.Fresh ((V []).addEdge e) := by
      refine ⟨h.fresh.nodeSeq, ?_, h.fresh.nodeId, ?_, h.fresh.imapId⟩
      · rintro f (rfl | hf)
        · exact le_rfl
        · exact Nat.le_succ_of_le (h.fresh.edgeSeq f hf)
      · rintro f (rfl | hf)
        · exact hk
        · exact h.fresh.edgeId f hf
    have h1 : s1.Inv V := h.of_graphs rfl rfl (hfr.sub View.sub_addEdge)
    have hk1 : Keeps s s1 := ⟨rfl, fun _ => rfl, rfl⟩
    have hnew : ∀ q, q <:+ p → e ∉ (V q).edges := fun q hq hm =>
      hseq e ((h.hier.root (hp.suffix hq)).edges hm) rfl
    refine ((installedge_meets hU (Set.mem_insert e _) (hk1.live.2 hp)
      (h1.shows.mono View.sub_addEdge) c
      (fun q hq => ⟨(h.hier.suffix hp hq).nodes ht, (h.hier.suffix hp hq).nodes hh⟩)
      fun q r _ hr hm => absurd hm (hnew r hr)).and installedge_grows).bind
      fun s2 h2 => ⟨rfl, rfl, ?_⟩
    obtain ⟨⟨hf2, hs2⟩, hgrows⟩ := h2
    have hroot : V.above (View.addEdge e) p [] = (V []).addEdge e :=
      Views.above_of_suffix nil_suffix
    have hinv := h1.of_frame hf2 hs2 (h1.hier.above View.Sub.addEdge (fun _ => View.sub_addEdge) p)
      (hroot ▸ hU) (hroot ▸ hfr)
    have hk2 := hf2.keeps
    obtain ⟨gs, rfl, -⟩ := hf2
    exact ⟨hnew p suffix_rfl, hinv, hk1.trans hk2, le_rfl, rfl, hgrows p⟩
  · exact ⟨rfl, by omega⟩

/-- In a directed graph a probe returns an edge from the first node to the second. -/
theorem Inv.of_probe_directed (h : s.Inv V) (hp : s.Live p) (hdir : s.desc.directed = true)
    (ht : t ∈ (V p).nodes) (hh : hd ∈ (V p).nodes) {key : Option IdType}
    (hf : s.probe c p t hd key = some e) :
    e ∈ (V p).edges ∧ e.tail = t ∧ e.head = hd ∧ ∀ id ∈ key, e.id = id := by
  have hsub := (h.hier.root hp).nodes
  rw [probe] at hf
  split at hf
  · rename_i f hfind
    cases hf
    exact h.of_find hp (hsub ht) (hsub hh) hfind
  · rw [if_pos hdir] at hf
    cases hf

/-- A name whose identifier is known is mapped to it, and any other to an identifier that is new. -/
theorem agmapnametoid_mapped {objtype : ObjType} {name : Option CStr}
    (hname : name = none ∨ (s.agmapnametoid objtype name false).1 ≠ none) :
    ∃ id counter, s.agmapnametoid objtype name true = (some id, { s with counter }) ∧
      (∀ v, s.Fresh v → Fresh { s with counter } v ∧ ∀ k, id = .anon k → k < counter) ∧
      ((s.agmapnametoid objtype name false).1 = some id ∨ name = none ∧ id = .anon s.counter) := by
  obtain ⟨id, counter, imap, hm, hfr, hid⟩ := s.agmapnametoid_true objtype name
  have himap : imap = s.imap := by
    cases name with
    | none => exact (congrArg (fun r => r.2.imap) hm).symm
    | some str =>
      have hsome := hname.resolve_left nofun
      rw [Store.agmapnametoid] at hm hsome
      split at hm
      · exact (congrArg (fun r => r.2.imap) hm).symm
      · rename_i hlocal
        rw [if_neg hlocal] at hsome
        cases hl : s.aginternalmaplookup objtype str with
        | none =>
          rw [hl] at hsome
          exact absurd rfl hsome
        | some id =>
          rw [hl] at hm
          exact (congrArg (fun r => r.2.imap) hm).symm
  subst himap
  refine ⟨id, counter, hm, hfr, hid.imp_right fun h => ⟨?_, h.2⟩⟩
  exact hname.resolve_right fun hne => hne h.1

/-- `agedge` between two nodes of a directed graph without the edge makes or installs one. -/
theorem Inv.agedge_within (h : s.Inv V) (hp : s.Live p) (hdir : s.desc.directed = true)
    (ht : t ∈ (V p).nodes) (hh : hd ∈ (V p).nodes) (hne : t ≠ hd) {name : Option CStr}
    (hname : name = none ∨ (s.agmapnametoid .AGEDGE name false).1 ≠ none)
    (hprobe : s.probes name true = true →
      s.probe c p t hd (s.agmapnametoid .AGEDGE name false).1 = none)
    (hstrict : s.desc.strict = true → ∀ f ∈ (V p).edges, f.tail = t → f.head ≠ hd) :
    Meets (s.agedge c p t hd name true)
      (fun r => ∃ f, r.1 = some f ∧ f.tail = t ∧ f.head = hd ∧ s.EdgeAdded V p f r.2)
      (fun f => f = .assertion ∧ SEQ_MASK ≤ s.seqEdge) := by
  have hsub := (h.hier.root hp).nodes
  have hok : s.okToMakeEdge c p t hd = true := by
    refine decide_eq_true ⟨fun hfound => ?_, fun hloop => hne hloop.2⟩
    obtain ⟨hs, hfind⟩ := hfound
    obtain ⟨f, hf⟩ := Option.isSome_iff_exists.1 hfind
    obtain ⟨hmem, htail, hhead, -⟩ := h.of_find hp (hsub ht) (hsub hh) hf
    exact hstrict hs f hmem htail hhead
  have create : (s.probes name true = true → ∀ f ∈ (V []).edges, f.tail = t → f.head = hd →
      ¬ ∀ id ∈ (s.agmapnametoid .AGEDGE name false).1, f.id = id) →
      Meets (s.agedgeCreate c p t hd name true)
        (fun r => ∃ f, r.1 = some f ∧ f.tail = t ∧ f.head = hd ∧ s.EdgeAdded V p f r.2)
        (fun f => f = .assertion ∧ SEQ_MASK ≤ s.seqEdge) := by
    intro hnone
    obtain ⟨id, counter, hm, hfr, hid⟩ := agmapnametoid_mapped hname
    have hnew : ∀ f ∈ (V []).edges, f.tail = t → f.head = hd → f.id ≠ id := by
      intro f hf hft hfh he
      obtain hid | ⟨-, hid⟩ := hid
      · refine hnone ?_ f hf hft hfh ?_
        · rw [probes, hid]
          simp
        · rw [hid]
          rintro id' ⟨⟩
          exact he
      · exact absurd (h.fresh.edgeId f hf s.counter (he.trans hid)) (lt_irrefl _)
    have h1 : Inv { s with counter } V := h.of_graphs rfl rfl (hfr _ h.fresh).1
    have hk1 : Keeps s { s with counter } := ⟨rfl, fun _ => rfl, rfl⟩
    rw [agedgeCreate, if_pos ⟨rfl, hok⟩, hm]
    refine (h1.newedge_within (hk1.live.2 hp) ht hh hnew (hfr _ h.fresh).2 c).bind
      fun r h => ⟨r.1, rfl, h.1, h.2.1, ?_⟩
    obtain ⟨-, -, hr⟩ := h
    exact ⟨hr.new, hr.inv, hk1.trans hr.keeps, hr.seqEdge, hr.imap, hr.grows⟩
  rw [Store.agedge]
  split
  · rename_i hprobes
    rw [hprobe hprobes]
    dsimp only
    rw [if_pos rfl]
    split
    · rename_i f hroot
      obtain ⟨hf, rfl, rfl, hid⟩ :=
        h.of_probe_directed (p := []) trivial hdir (hsub ht) (hsub hh) hroot
      have hfp : f ∉ (V p).edges := fun hm =>
        h.of_probe_none hp (hprobe hprobes) hm (.inl ⟨rfl, rfl⟩) hid
      refine ((h.installedge hp hf ht hh c).and installedge_grows).bind
        fun s' h' => ⟨f, rfl, rfl, rfl, ?_⟩
      obtain ⟨⟨hframe, hs'⟩, hgrows⟩ := h'
      have hkeeps := hframe.keeps
      obtain ⟨gs, rfl, -⟩ := hframe
      exact ⟨hfp, hs', hkeeps, Nat.le_succ _, rfl, hgrows p⟩
    · rename_i hroot
      refine create fun _ f hf hft hfh => ?_
      exact h.of_probe_none (p := []) trivial hroot hf (.inl ⟨hft, hfh⟩)
  · rename_i hprobes
    exact create fun hp => absurd hp hprobes

/-- What an edge less in a graph changes. -/
structure EdgeDeleted (s : Store) (V : Views) (p : GPath) (e : Agedge) (s' : Store) : Prop where
  inv : s'.Inv (V.below (View.delEdge e) p)
  keeps : Keeps s s'
  seqEdge : s'.seqEdge = s.seqEdge
  imap : s'.imap.Sublist s.imap
  grows : (s'.graphs p).Grows (s.graphs p)

/-- `agdeledge` of an edge of the graph. -/
theorem Inv.agdeledge_within (h : s.Inv V) (hp : s.Live p) (he : e ∈ (V p).edges) (c : Cdt) :
    Meets (s.agdeledge c p e) (fun r => r.1 = true ∧ s.EdgeDeleted V p e r.2) E := by
  have heU := (h.hier.root hp).edges he
  have hfind := (h.shows.rep p hp).agfindedgeByKey_eq h.distinct (h.shows.sub p hp).nodes
    (h.shows.sub p hp).edges (h.shows.ends p hp).head heU c
  have hf := (hfind.resolve_right fun hno => hno.2 he).1
  have hfree : ∃ imap, (if p = [] then s.agfreeid .AGEDGE e.id else s) = { s with imap } ∧
      imap.Sublist s.imap := by
    split
    · exact ⟨_, rfl, filter_sublist⟩
    · exact ⟨_, rfl, .refl _⟩
  have hshrinks : Meets (s.agdeledge c p e) (fun r => (r.2.graphs p).Grows (s.graphs p)) Any :=
    agdeledge_shrinks
  rw [Store.agdeledge, hf] at hshrinks ⊢
  dsimp only at hshrinks ⊢
  obtain ⟨imap, hs1, himap⟩ := hfree
  rw [hs1] at hshrinks ⊢
  have h1 : Inv { s with imap } V := h.of_graphs rfl rfl
    ⟨h.fresh.nodeSeq, h.fresh.edgeSeq, h.fresh.nodeId, h.fresh.edgeId,
      fun ent hent => h.fresh.imapId ent (himap.subset hent)⟩
  have hk1 : Keeps s { s with imap } := ⟨rfl, fun _ => rfl, rfl⟩
  refine ((h1.agapply (hk1.live.2 hp) (deletes_edge h.distinct heU c) View.Sub.delEdge he).and
    hshrinks).imp fun r hr => ⟨hr.1.1, ?_⟩
  obtain ⟨⟨-, hframe, hinv⟩, hgrows⟩ := hr
  have hkeeps := hframe.keeps
  obtain ⟨gs, hgs, -⟩ := hframe
  exact ⟨hinv, hk1.trans hkeeps, by rw [hgs], by rw [hgs]; exact himap, hgrows⟩

/-! ## The names of edges -/

/-- A map that has lost names is in order. -/
theorem LocalNames.sublist (h : s.LocalNames) (himap : s'.imap.Sublist s.imap) : s'.LocalNames :=
  ⟨fun ent hent => h.head ent (himap.subset hent), h.nodup.sublist (himap.map _)⟩

/-- The names that identifiers of edges are the addresses of are not local. -/
def Named (E : Set Agedge) : Prop :=
  ∀ e ∈ E, ∀ str, e.id = .named str → str.head? ≠ some LOCALNAMEPREFIX

theorem agmapnametoid_named (h : s.AnonIds) {objtype : ObjType} {name : Option CStr}
    {createflag : Bool} {str : CStr}
    (hm : (s.agmapnametoid objtype name createflag).1 = some (.named str)) :
    str.head? ≠ some LOCALNAMEPREFIX := by
  cases name with
  | none =>
    rw [Store.agmapnametoid] at hm
    split at hm <;> cases hm
  | some str' =>
    rw [Store.agmapnametoid] at hm
    split at hm
    · rename_i hglobal
      cases hm
      exact hglobal
    · split at hm
      · rename_i id hlookup
        obtain ⟨k, hk⟩ := h _ (aginternalmaplookup_eq_some hlookup)
        cases hm
        cases hk
      · split at hm <;> cases hm

theorem newedge_id {id : IdType} : Meets (s.newedge c p t hd id) (fun r => r.1.id = id) Any :=
  meets_after _ fun _ => meets_after _ fun _ => meets_after _ fun _ => meets_after _ fun _ => rfl

/-- An edge that `agedge` makes has the identifier of its name. -/
theorem Inv.named_of_makesEdge {W : Views} {name : Option CStr} {cflag : Bool}
    {r : Option Agedge × Store} (h : s.Inv V) (hp : s.Live p) (ht : t ∈ (V []).nodes)
    (hh : hd ∈ (V []).nodes) (hanon : s.AnonIds) (hnamed : Named (V []).edges)
    (hmakes : s.makesEdge c p t hd name cflag = true)
    (hr : s.agedge c p t hd name cflag = .ok r) (hW : r.2.Inv W) : Named (W []).edges := by
  obtain ⟨hcf, hprobe, hok⟩ := of_decide_eq_true hmakes
  subst hcf
  have hcreate : s.agedgeCreate c p t hd name true = .ok r := by
    rw [← hr, Store.agedge]
    split
    · rename_i hprobes
      rw [(hprobe hprobes).1, (hprobe hprobes).2]
      rfl
    · rfl
  obtain ⟨id, counter, imap, hm, hfr, hid⟩ := s.agmapnametoid_true .AGEDGE name
  have hnew : ∀ f ∈ (V []).edges, f.tail = t → f.head = hd → f.id ≠ id := by
    intro f hf hft hfh he
    obtain hid | ⟨-, hid⟩ := hid
    · have hprobes : s.probes name true = true := by rw [probes, hid]; simp
      refine h.of_probe_none (p := []) trivial (hprobe hprobes).2 hf (.inl ⟨hft, hfh⟩) ?_
      rw [hid]
      rintro id' ⟨⟩
      exact he
    · exact absurd (h.fresh.edgeId f hf s.counter (he.trans hid)) (lt_irrefl _)
  have h1 : Inv { s with counter, imap } V := h.of_graphs rfl rfl (hfr _ h.fresh).1
  have hk1 : Keeps s { s with counter, imap } := ⟨rfl, fun _ => rfl, rfl⟩
  rw [agedgeCreate, if_pos ⟨rfl, hok⟩, hm] at hcreate
  obtain ⟨r', hr', hrr⟩ := bind_eq_ok.1 hcreate
  cases hrr
  obtain ⟨⟨-, -, -, W', hW', hedges⟩, hrid⟩ :=
    ((h1.newedge (hk1.live.2 hp) ht hh hnew (hfr _ h.fresh).2 c).and newedge_id).of_ok hr'
  intro e he str hstr
  have he' : e ∈ (W' []).edges :=
    (hW'.hasEdge_iff (p := []) trivial).1 ((hW.hasEdge_iff (p := []) trivial).2 he)
  rw [hedges] at he'
  obtain rfl | he' := he'
  · rw [hrid] at hstr
    subst hstr
    exact agmapnametoid_named hanon (congrArg Prod.fst hm)
  · exact hnamed e he' str hstr

/-- After every run no identifier of an edge is the address of a local name. -/
theorem Run.named {ok : Cdt → Store → StoreOp → Prop} {desc : Agdesc} {name : Option CStr}
    {ops : List StoreOp} (hrun : Run ok (agopen desc name) ops s) :
    ∃ V, s.Inv V ∧ Named (V []).edges := by
  induction hrun with
  | nil => exact ⟨_, Inv.agopen desc name, fun e he => he.elim⟩
  | @snoc ops s s' op c hops hargs _ hstep ih =>
    obtain ⟨V, hV, hnamed⟩ := ih
    have hends := by_contra fun hends => by
      rw [hV.step_segfault c hargs hends] at hstep
      cases hstep
    obtain ⟨-, W, hW, hedges⟩ := (hV.step c hargs hends).of_ok hstep
    refine ⟨W, hW, ?_⟩
    obtain hsub | ⟨g, t, hd, name, cflag, f, rfl, hmakes, -, -, -⟩ := hedges
    · exact fun e he => hnamed e (hsub he)
    · obtain ⟨hg, ht, hh⟩ := hargs
      obtain ⟨r, hr, hrs⟩ : ∃ r, s.agedge c g t hd name cflag = .ok r ∧ r.2 = s' := by
        cases hr : s.agedge c g t hd name cflag with
        | error f =>
          rw [Store.step, hr] at hstep
          cases hstep
        | ok r =>
          rw [Store.step, hr] at hstep
          exact ⟨r, rfl, Except.ok.inj hstep⟩
      subst hrs
      exact hV.named_of_makesEdge hg ((hV.mem_nSeq (p := []) trivial).1 ht)
        ((hV.mem_nSeq (p := []) trivial).1 hh) (AnonIds.mapInvariant.run hops) hnamed hmakes hr hW

/-- The name of an edge is mapped to its identifier. -/
theorem agmapnametoid_agnameof (hlocal : s.LocalNames) {E : Set Agedge} (hnamed : Named E)
    (he : e ∈ E) {str : CStr} (hstr : s.agnameof .AGEDGE e.id = some str) :
    (s.agmapnametoid .AGEDGE (some str) false).1 = some e.id := by
  rw [agnameof] at hstr
  split at hstr
  · rename_i str' hprint
    cases hstr
    rw [aginternalmapprint, Option.map_eq_some_iff] at hprint
    obtain ⟨⟨k, str', id⟩, hfind, rfl⟩ := hprint
    have hkey : k = .AGEDGE ∧ id = e.id := by simpa using find?_some hfind
    obtain ⟨rfl, rfl⟩ := hkey
    exact hlocal.agmapnametoid_mem (mem_of_find?_eq_some hfind)
  · cases hid : e.id with
    | named str' =>
      rw [hid] at hstr
      cases hstr
      rw [Store.agmapnametoid, if_pos (hnamed e he str hid)]
    | anon k =>
      rw [hid] at hstr
      cases hstr

/-- An edge that has a name now had one when the map was larger. -/
theorem agnameof_of_sublist (himap : s'.imap.Sublist s.imap) {id : IdType}
    (h : s'.agnameof .AGEDGE id ≠ none) : s.agnameof .AGEDGE id ≠ none := by
  rw [agnameof] at h ⊢
  cases hprint : s.aginternalmapprint .AGEDGE id with
  | some str => exact Option.some_ne_none str
  | none =>
    have hprint' : s'.aginternalmapprint .AGEDGE id = none := by
      rw [aginternalmapprint, Option.map_eq_none_iff, find?_eq_none] at hprint ⊢
      exact fun ent hent => hprint ent (himap.subset hent)
    rwa [hprint'] at h

end Store

end Graphviz
