import Mathlib.Data.List.GetD
import Mathlib.Data.Nat.Cast.Basic
import Mathlib.Data.Setoid.Basic
import Graphviz.Circogen.PairEdges

/-!
# The skeleton of a block is connected

An edge is deleted from the skeleton when a node is taken away that was joined to both of its ends
in the working copy. Of an edge of the copy, either its original is still in the skeleton, or its
ends are connected there by edges at nodes that have been taken away, and no edge at such a node is
ever deleted. So each deletion leaves a way around through the node.
-/

namespace Graphviz.Circogen

open Function List Outcome Prod Relation

variable {n : ℕ}

/-! ## Edges and adjacency -/

/-- The edge joins the nodes. -/
def Joins (e : edge_t n) (u v : Fin n) : Prop :=
  e.agtail = u ∧ e.aghead = v ∨ e.agtail = v ∧ e.aghead = u

/-- An edge of the list joins the nodes. -/
def Adj (edges : List (edge_t n)) (u v : Fin n) : Prop := ∃ e ∈ edges, Joins e u v

/-- The number of edges at a node. -/
def degree (edges : List (edge_t n)) (u : Fin n) : ℕ :=
  edges.countP fun e => e.agtail = u ∨ e.aghead = u

/-- Different edges without loops join different nodes. -/
structure Simple (edges : List (edge_t n)) : Prop where
  nodup : edges.Nodup
  loopless : ∀ e ∈ edges, e.agtail ≠ e.aghead
  unique : ∀ e ∈ edges, ∀ e' ∈ edges, Joins e' e.agtail e.aghead → e' = e

/-- Any two nodes are connected by edges of the list. -/
def Connected (edges : List (edge_t n)) : Prop :=
  ∀ u v, EqvGen (Adj edges) u v

section Edges

variable {edges : List (edge_t n)} {e ex : edge_t n} {u v w : Fin n}

theorem Joins.symm (h : Joins e u v) : Joins e v u := Or.symm h

theorem Joins.self : Joins e e.agtail e.aghead := .inl ⟨rfl, rfl⟩

theorem Adj.symm (h : Adj edges u v) : Adj edges v u :=
  have ⟨e, he, hj⟩ := h
  ⟨e, he, hj.symm⟩

theorem adj_append_singleton : Adj (edges ++ [e]) u v ↔ Adj edges u v ∨ Joins e u v := by
  simp only [Adj, mem_append, mem_singleton, or_and_right, exists_or, exists_eq_left]

/-- Edges that join the same nodes as an edge join the same nodes as each other. -/
theorem Joins.trans (h : Joins e u v) (h' : Joins ex u v) : Joins ex e.agtail e.aghead := by
  obtain ⟨rfl, rfl⟩ | ⟨rfl, rfl⟩ := h
  · exact h'
  · exact h'.symm

/-- An edge joins what an edge between the same nodes joins. -/
theorem Joins.of_joins (h : Joins ex e.agtail e.aghead) (h' : Joins ex u v) : Joins e u v := by
  obtain ⟨ht, hh⟩ | ⟨ht, hh⟩ := h
  · exact h'.imp (fun ⟨hu, hv⟩ => ⟨ht ▸ hu, hh ▸ hv⟩) fun ⟨hv, hu⟩ => ⟨ht ▸ hv, hh ▸ hu⟩
  · exact h'.symm.imp (fun ⟨hv, hu⟩ => ⟨hh ▸ hu, ht ▸ hv⟩) fun ⟨hu, hv⟩ => ⟨hh ▸ hv, ht ▸ hu⟩

theorem Simple.eq_of_joins (h : Simple edges) (he : e ∈ edges) (hex : ex ∈ edges)
    (hj : Joins e u v) (hjx : Joins ex u v) : ex = e :=
  h.unique e he ex hex (hj.trans hjx)

theorem Simple.not_adj_self (h : Simple edges) : ¬ Adj edges u u := by
  rintro ⟨e, he, ⟨ht, hh⟩ | ⟨ht, hh⟩⟩
  · exact h.loopless e he (ht.trans hh.symm)
  · exact h.loopless e he (ht.trans hh.symm)

theorem Simple.filter (h : Simple edges) (p : edge_t n → Bool) : Simple (edges.filter p) where
  nodup := h.nodup.filter p
  loopless e he := h.loopless e (mem_filter.1 he).1
  unique e he e' he' := h.unique e (mem_filter.1 he).1 e' (mem_filter.1 he').1

theorem mem_outEdges : e ∈ outEdges edges u ↔ e ∈ edges ∧ e.agtail = u := by
  simp [outEdges]

theorem mem_inEdges : e ∈ inEdges edges u ↔ e ∈ edges ∧ e.aghead = u := by
  simp [inEdges]

theorem mem_edgesOf : e ∈ edgesOf edges u ↔ e ∈ edges ∧ (e.agtail = u ∨ e.aghead = u) := by
  rw [edgesOf, mem_append, mem_filter, mem_outEdges, mem_inEdges, decide_eq_true_iff]
  tauto

/-- Edges found by one of their ends, end by end. -/
theorem nodup_byEnd (h : edges.Nodup) (p : edge_t n → Prop) [DecidablePred p]
    (f : edge_t n → Fin n) :
    ((finRange n).flatMap fun v => edges.filter fun e => p e ∧ f e = v).Nodup := by
  refine nodup_flatMap.2 ⟨fun _ _ => h.filter _, (nodup_finRange n).imp ?_⟩
  rintro v w hne e hv hw
  have hfv := (of_decide_eq_true (mem_filter.1 hv).2).2
  have hfw := (of_decide_eq_true (mem_filter.1 hw).2).2
  exact hne (hfv.symm.trans hfw)

theorem nodup_edgesOf (h : edges.Nodup) : (edgesOf edges u).Nodup := by
  refine Nodup.append (nodup_byEnd h _ _) ((nodup_byEnd h _ _).filter _) fun e ho hi => ?_
  have hloop := of_decide_eq_true (mem_filter.1 hi).2
  exact hloop (mem_outEdges.1 ho).2

/-- The edges at a node, in some order. -/
theorem edgesOf_perm (h : edges.Nodup) :
    (edgesOf edges u).Perm (edges.filter fun e => e.agtail = u ∨ e.aghead = u) := by
  refine (perm_ext_iff_of_nodup (nodup_edgesOf h) (h.filter _)).2 fun e => ?_
  rw [mem_edgesOf, mem_filter, decide_eq_true_iff]

theorem length_edgesOf (h : edges.Nodup) : (edgesOf edges u).length = degree edges u := by
  rw [(edgesOf_perm h).length_eq, degree, countP_eq_length_filter]

theorem agfindedge_eq_some (h : agfindedge edges u v = some e) : e ∈ edges ∧ Joins e u v := by
  obtain h | ⟨-, h⟩ := Option.or_eq_some_iff.1 h
  · have hp := find?_some h
    exact ⟨mem_of_find?_eq_some h, .inl (of_decide_eq_true hp)⟩
  · have hp := find?_some h
    exact ⟨mem_of_find?_eq_some h, .inr (of_decide_eq_true hp)⟩

theorem agfindedge_eq_none : agfindedge edges u v = none ↔ ¬ Adj edges u v := by
  rw [agfindedge, Option.or_eq_none_iff, find?_eq_none, find?_eq_none]
  constructor
  · rintro ⟨h, h'⟩ ⟨e, he, hj | hj⟩
    · exact h e he (decide_eq_true hj)
    · exact h' e he (decide_eq_true hj)
  · intro h
    exact ⟨fun e he hj => h ⟨e, he, .inl (of_decide_eq_true hj)⟩,
      fun e he hj => h ⟨e, he, .inr (of_decide_eq_true hj)⟩⟩

/-- The other end of an edge at a node. -/
theorem joins_other (h : e.agtail = u ∨ e.aghead = u) : Joins e u (other u e) := by
  unfold other
  split
  next hh => exact .inr ⟨rfl, hh⟩
  next hh => exact .inl ⟨h.resolve_right hh, rfl⟩

theorem other_eq (h : Joins e u v) : other u e = v := by
  unfold other
  obtain ⟨ht, hh⟩ | ⟨ht, hh⟩ := h
  · split
    next hu => rw [ht, ← hu, hh]
    next => exact hh
  · rw [if_pos hh, ht]

theorem adj_iff_other : Adj edges u v ↔ v ∈ (edgesOf edges u).map (other u) := by
  rw [mem_map]
  constructor
  · rintro ⟨e, he, hj⟩
    exact ⟨e, mem_edgesOf.2 ⟨he, hj.imp And.left And.right⟩, other_eq hj⟩
  · rintro ⟨e, he, rfl⟩
    obtain ⟨he, hu⟩ := mem_edgesOf.1 he
    exact ⟨e, he, joins_other hu⟩

/-- Different edges at a node lead to different nodes. -/
theorem Simple.nodup_others (h : Simple edges) : ((edgesOf edges u).map (other u)).Nodup := by
  refine (nodup_map_iff_inj_on (nodup_edgesOf h.nodup)).2 fun e he e' he' heq => ?_
  obtain ⟨he, hu⟩ := mem_edgesOf.1 he
  obtain ⟨he', hu'⟩ := mem_edgesOf.1 he'
  exact h.eq_of_joins he' he (joins_other hu') (heq ▸ joins_other hu)

end Edges

/-! ## The working copy -/

/-- What the working copy is between two operations: a simple graph on its nodes, with `DEGREE` the
degrees of the nodes. -/
structure Work (g : work_t n) : Prop where
  simple : Simple g.edges
  nodup : g.nodes.Nodup
  ends : ∀ e ∈ g.edges, e.agtail ∈ g.nodes ∧ e.aghead ∈ g.nodes
  seq_lt : ∀ e ∈ g.edges, e.seq < g.nextSeq
  seq_inj : ∀ e ∈ g.edges, ∀ e' ∈ g.edges, e.seq = e'.seq → e = e'
  degree : ∀ u ∈ g.nodes, g.DEGREE u = degree g.edges u

section Working

variable {g : work_t n} {strict : Bool} {u v tp hp : Fin n} {e : edge_t n}

theorem Work.adj_mem (h : Work g) (huv : Adj g.edges u v) : u ∈ g.nodes ∧ v ∈ g.nodes := by
  obtain ⟨e, he, ⟨rfl, rfl⟩ | ⟨rfl, rfl⟩⟩ := huv
  · exact h.ends e he
  · exact (h.ends e he).symm

/-- Between nodes that are not adjacent `agedge` makes an edge in a strict graph too. -/
theorem agedge_eq (h : ¬ Adj g.edges tp hp) : g.agedge strict tp hp = g.newedge tp hp := by
  rw [work_t.agedge, agfindedge_eq_none.2 h]
  cases strict <;> rfl

theorem edges_joinNodes (h : ¬ Adj g.edges tp hp) :
    (joinNodes strict g tp hp).edges = g.edges ++ [⟨tp, hp, g.nextSeq⟩] := by
  rw [joinNodes, agedge_eq h]
  rfl

theorem ORIGE_joinNodes (h : ¬ Adj g.edges tp hp) :
    (joinNodes strict g tp hp).ORIGE = update g.ORIGE g.nextSeq none := by
  rw [joinNodes, agedge_eq h]
  rfl

theorem nodes_joinNodes : (joinNodes strict g tp hp).nodes = g.nodes := by
  rw [joinNodes, work_t.agedge]
  split
  · split <;> rfl
  · rfl

theorem nextSeq_joinNodes (h : ¬ Adj g.edges tp hp) :
    (joinNodes strict g tp hp).nextSeq = g.nextSeq + 1 := by
  rw [joinNodes, agedge_eq h]
  rfl

theorem DEGREE_addDegree (d : ℤ) :
    (g.addDegree u d).DEGREE v = g.DEGREE v + if u = v then d else 0 := by
  show update g.DEGREE u (g.DEGREE u + d) v = _
  by_cases huv : u = v
  · rw [huv, update_self, if_pos rfl]
  · rw [update_of_ne (Ne.symm huv), if_neg huv, Int.add_zero]

theorem DEGREE_joinNodes (hne : tp ≠ hp) :
    (joinNodes strict g tp hp).DEGREE u = g.DEGREE u + if tp = u ∨ hp = u then 1 else 0 := by
  have hdegree : (g.agedge strict tp hp).2.DEGREE = g.DEGREE := by
    rw [work_t.agedge]
    split
    · split <;> rfl
    · rfl
  rw [joinNodes, DEGREE_addDegree, DEGREE_addDegree, hdegree, Int.add_assoc]
  congr 1
  by_cases htu : tp = u
  · rw [if_pos htu, if_neg fun hu => hne (htu.trans hu.symm), if_pos (.inl htu)]
    rfl
  · rw [if_neg htu, Int.zero_add]
    exact if_congr (or_iff_right htu).symm rfl rfl

theorem degree_append_singleton (edges : List (edge_t n)) :
    degree (edges ++ [e]) u = degree edges u + if e.agtail = u ∨ e.aghead = u then 1 else 0 := by
  rw [degree, countP_append, countP_singleton, ← degree]
  simp only [decide_eq_true_eq]

/-- Two nodes of the copy are joined that are not adjacent. -/
theorem Work.joinNodes (h : Work g) (ht : tp ∈ g.nodes) (hh : hp ∈ g.nodes) (hne : tp ≠ hp)
    (hadj : ¬ Adj g.edges tp hp) : Work (joinNodes strict g tp hp) where
  simple := by
    rw [edges_joinNodes hadj]
    have hnew : ∀ e ∈ g.edges, ¬ Joins e tp hp := fun e he hj => hadj ⟨e, he, hj⟩
    refine ⟨?_, fun e he => ?_, fun e he e' he' hj => ?_⟩
    · refine nodup_append.2 ⟨h.simple.nodup, nodup_singleton _, ?_⟩
      rintro e he e' he' rfl
      exact hnew e he (mem_singleton.1 he' ▸ Joins.self)
    · obtain he | he := mem_append.1 he
      · exact h.simple.loopless e he
      · rw [mem_singleton.1 he]
        exact hne
    · obtain he | he := mem_append.1 he <;> obtain he' | he' := mem_append.1 he'
      · exact h.simple.unique e he e' he' hj
      · rw [mem_singleton.1 he'] at hj
        exact absurd (hj.trans Joins.self) (hnew e he)
      · rw [mem_singleton.1 he] at hj
        exact absurd hj (hnew e' he')
      · rw [mem_singleton.1 he, mem_singleton.1 he']
  nodup := by
    rw [nodes_joinNodes]
    exact h.nodup
  ends e he := by
    rw [edges_joinNodes hadj] at he
    rw [nodes_joinNodes]
    obtain he | he := mem_append.1 he
    · exact h.ends e he
    · rw [mem_singleton.1 he]
      exact ⟨ht, hh⟩
  seq_lt e he := by
    rw [edges_joinNodes hadj] at he
    rw [nextSeq_joinNodes hadj]
    obtain he | he := mem_append.1 he
    · exact Nat.lt_succ_of_lt (h.seq_lt e he)
    · rw [mem_singleton.1 he]
      exact Nat.lt_succ_self _
  seq_inj e he e' he' heq := by
    rw [edges_joinNodes hadj] at he he'
    obtain he | he := mem_append.1 he <;> obtain he' | he' := mem_append.1 he'
    · exact h.seq_inj e he e' he' heq
    · rw [mem_singleton.1 he'] at heq
      exact absurd heq (h.seq_lt e he).ne
    · rw [mem_singleton.1 he] at heq
      exact absurd heq.symm (h.seq_lt e' he').ne
    · rw [mem_singleton.1 he, mem_singleton.1 he']
  degree u hu := by
    rw [nodes_joinNodes] at hu
    rw [DEGREE_joinNodes hne, edges_joinNodes hadj, degree_append_singleton, h.degree u hu,
      Int.natCast_add]
    congr 1
    split <;> rfl

end Working

/-! ## Pair edges -/

/-- The originals that edges of the copy have are edges of the skeleton between the same nodes. -/
def Originals (g : work_t n) (outg : List (edge_t n)) : Prop :=
  ∀ e ∈ g.edges, ∀ o, g.ORIGE e.seq = some o → o ∈ outg ∧ Joins o e.agtail e.aghead

/-- What the loops over the pairs of neighbours of a node leave: edges are deleted from the
skeleton, and lose their `ORIGE`, only between neighbours. -/
structure Pruned (g : work_t n) (u : Fin n) (outg : List (edge_t n)) (s : pairs_t n) : Prop where
  kept : ∀ e ∈ g.edges, ∀ o, s.ORIGE e.seq = some o → g.ORIGE e.seq = some o ∧ o ∈ s.outg
  lost : ∀ e ∈ g.edges, s.ORIGE e.seq = none →
    g.ORIGE e.seq = none ∨ Adj g.edges u e.agtail ∧ Adj g.edges u e.aghead
  sublist : s.outg.Sublist outg
  gone : ∀ o ∈ outg, o ∉ s.outg → Adj g.edges u o.agtail ∧ Adj g.edges u o.aghead

section Pairs

variable {g : work_t n} {addr : Fin n → ℕ} {u : Fin n} {e ep ex : edge_t n}
  {outg : List (edge_t n)} {p : Bool × pairs_t n} {l : List (edge_t n)} {v w : Fin n}

theorem Joins.adj_ends {edges : List (edge_t n)} (h : Joins ex v w) (hv : Adj edges u v)
    (hw : Adj edges u w) : Adj edges u ex.agtail ∧ Adj edges u ex.aghead := by
  obtain ⟨rfl, rfl⟩ | ⟨rfl, rfl⟩ := h
  · exact ⟨hv, hw⟩
  · exact ⟨hw, hv⟩

/-- The original of an edge between two neighbours is deleted. -/
theorem Pruned.delete (hg : Work g) (ho : Originals g outg) {s : pairs_t n}
    (h : Pruned g u outg s) (hex : ex ∈ g.edges) (hj : Joins ex v w) (hv : Adj g.edges u v)
    (hw : Adj g.edges u w) {o : edge_t n} (hs : s.ORIGE ex.seq = some o) :
    Pruned g u outg { s with outg := s.outg.erase o, ORIGE := update s.ORIGE ex.seq none } where
  kept e he o' hs' := by
    have hs' : update s.ORIGE ex.seq none e.seq = some o' := hs'
    by_cases hseq : e.seq = ex.seq
    · rw [hseq, update_self] at hs'
      cases hs'
    · rw [update_of_ne hseq] at hs'
      obtain ⟨hge, hmem⟩ := h.kept e he o' hs'
      refine ⟨hge, (mem_erase_of_ne fun heq => hseq ?_).2 hmem⟩
      have hjo := (ho ex hex o (h.kept ex hex o hs).1).2
      have hjo' := (ho e he o' hge).2
      rw [heq] at hjo'
      rw [hg.simple.unique e he ex hex (hjo.of_joins hjo')]
  lost e he hs' := by
    have hs' : update s.ORIGE ex.seq none e.seq = none := hs'
    by_cases hseq : e.seq = ex.seq
    · obtain rfl := hg.seq_inj e he ex hex hseq
      exact .inr (hj.adj_ends hv hw)
    · rw [update_of_ne hseq] at hs'
      exact h.lost e he hs'
  sublist := erase_sublist.trans h.sublist
  gone o' ho' hnot := by
    by_cases hmem : o' ∈ s.outg
    · have heq : o' = o := by
        by_contra hne
        exact hnot ((mem_erase_of_ne hne).2 hmem)
      obtain ⟨hge, -⟩ := h.kept ex hex o hs
      have hjo := (ho ex hex o hge).2
      obtain ⟨hvx, hwx⟩ := hj.adj_ends hv hw
      rw [heq]
      exact hjo.adj_ends hvx hwx
    · exact h.gone o' ho' hmem

theorem Pruned.count {s : pairs_t n} (h : Pruned g u outg s) (c : ℤ) :
    Pruned g u outg { s with edge_cnt := c } := ⟨h.kept, h.lost, h.sublist, h.gone⟩

theorem Pruned.pairEdge (hg : Work g) (ho : Originals g outg) (h : Pruned g u outg p.2)
    (hv : Adj g.edges u v) (hep : Adj g.edges u (other u ep)) :
    Pruned g u outg (pairEdge addr g.edges u e v p ep).2 := by
  unfold Circogen.pairEdge
  split
  · exact h
  dsimp only
  split
  · exact h
  next ex hex =>
    obtain ⟨hmem, hj⟩ := agfindedge_eq_some hex
    split
    · split
      next o hs => exact (h.count _).delete hg ho hmem hj hv hep hs
      next => exact h.count _
    · exact h

/-- The flag says whether a pair edge was met, and if none was nothing else changes. -/
theorem pairEdge_flag (hne : (pairEdge addr g.edges u e v p ep).1 = false) :
    pairEdge addr g.edges u e v p ep = p ∧ (ep ≠ e → ¬ Adj g.edges v (other u ep)) := by
  unfold pairEdge at hne ⊢
  split at hne
  next heq => exact ⟨if_pos heq, fun hne => absurd heq hne⟩
  next heq =>
    rw [if_neg heq]
    dsimp only at hne ⊢
    cases hex : agfindedge g.edges v (other u ep) with
    | none => exact ⟨rfl, fun _ => agfindedge_eq_none.1 hex⟩
    | some ex =>
      rw [hex] at hne
      dsimp only at hne
      split at hne
      · split at hne <;> cases hne
      · cases hne

theorem pairEdge_met (h : (pairEdge addr g.edges u e v p ep).1 = true) :
    p.1 = true ∨ ep ≠ e ∧ Adj g.edges v (other u ep) := by
  unfold pairEdge at h
  split at h
  · exact .inl h
  next hne =>
    dsimp only at h
    cases hex : agfindedge g.edges v (other u ep) with
    | none =>
      rw [hex] at h
      exact .inl h
    | some ex => exact .inr ⟨hne, ex, agfindedge_eq_some hex⟩

theorem Pruned.pairEdges (addr : Fin n → ℕ) (hg : Work g) (ho : Originals g outg)
    (h : Pruned g u outg p.2) (hv : Adj g.edges u v) (hl : ∀ ep ∈ l, Adj g.edges u (other u ep)) :
    Pruned g u outg (l.foldl (Circogen.pairEdge addr g.edges u e v) p).2 := by
  induction l generalizing p with
  | nil => exact h
  | cons ep l ih =>
    exact ih (h.pairEdge hg ho hv (hl ep mem_cons_self))
      fun ep' hep' => hl ep' (mem_cons_of_mem _ hep')

theorem pairEdges_flag (h : (l.foldl (pairEdge addr g.edges u e v) p).1 = false) :
    l.foldl (pairEdge addr g.edges u e v) p = p ∧
      ∀ ep ∈ l, ep ≠ e → ¬ Adj g.edges v (other u ep) := by
  induction l generalizing p with
  | nil => exact ⟨rfl, fun ep hep => absurd hep not_mem_nil⟩
  | cons ep l ih =>
    obtain ⟨heq, hl⟩ := ih h
    rw [foldl_cons, heq] at h
    obtain ⟨hp, hep⟩ := pairEdge_flag h
    refine ⟨heq.trans hp, fun ep' hep' => ?_⟩
    obtain rfl | hep' := mem_cons.1 hep'
    · exact hep
    · exact hl ep' hep'

theorem pairEdges_met (h : (l.foldl (pairEdge addr g.edges u e v) p).1 = true) :
    p.1 = true ∨ ∃ ep ∈ l, ep ≠ e ∧ Adj g.edges v (other u ep) := by
  induction l generalizing p with
  | nil => exact .inl h
  | cons ep l ih =>
    obtain h | ⟨ep', hep', hmet⟩ := ih h
    · exact (pairEdge_met h).imp_right fun hmet => ⟨ep, mem_cons_self, hmet⟩
    · exact .inr ⟨ep', mem_cons_of_mem _ hep', hmet⟩

/-- What the outer loop has found after the edges of a list. -/
structure Scanned (g : work_t n) (u : Fin n) (outg : List (edge_t n)) (l : List (edge_t n))
    (s : scan_t n) : Prop where
  pruned : Pruned g u outg s.pairs
  paired : ∀ v ∈ s.neighbors_with,
    Adj g.edges u v ∧ ∃ w, Adj g.edges u w ∧ w ≠ v ∧ Adj g.edges v w
  sublist : s.neighbors_without.Sublist (l.map (other u))
  single : ∀ v ∈ s.neighbors_without, ∀ w, Adj g.edges u w → w ≠ v → ¬ Adj g.edges v w
  all_single : s.neighbors_with = [] →
    s.pairs.edge_cnt = 0 ∧ s.neighbors_without = l.map (other u)

theorem Scanned.scanEdge (addr : Fin n → ℕ) (hg : Work g) (ho : Originals g outg) {s : scan_t n}
    (h : Scanned g u outg l s) (he : e ∈ edgesOf g.edges u) :
    Scanned g u outg (l ++ [e]) (scanEdge addr g.edges u s e) := by
  have hadj : ∀ ep ∈ edgesOf g.edges u, Adj g.edges u (other u ep) := fun ep hep =>
    adj_iff_other.2 (mem_map_of_mem hep)
  have hpruned := Pruned.pairEdges (e := e) (p := (false, s.pairs)) addr hg ho h.pruned
    (hadj e he) hadj
  have hmet := @pairEdges_met n g addr u e (false, s.pairs) (edgesOf g.edges u) (other u e)
  have hflag := @pairEdges_flag n g addr u e (false, s.pairs) (edgesOf g.edges u) (other u e)
  rw [Circogen.scanEdge]
  rcases hr : (edgesOf g.edges u).foldl (Circogen.pairEdge addr g.edges u e (other u e))
    (false, s.pairs) with ⟨has_pair_edge, pairs⟩
  rw [hr] at hpruned hmet hflag
  have hlast : (l ++ [e]).map (other u) = l.map (other u) ++ [other u e] := map_append
  cases has_pair_edge with
  | true =>
    refine ⟨hpruned, fun v hv => ?_, ?_, h.single, fun hnil => ?_⟩
    · obtain hv | hv := mem_append.1 hv
      · exact h.paired v hv
      · obtain rfl := mem_singleton.1 hv
        obtain hf | ⟨ep, hep, hne, hw⟩ := hmet rfl
        · cases hf
        · refine ⟨hadj e he, _, hadj ep hep, fun heq => hne ?_, hw⟩
          exact inj_on_of_nodup_map hg.simple.nodup_others hep he heq
    · rw [hlast]
      exact h.sublist.trans (sublist_append_left _ _)
    · exact absurd hnil (append_ne_nil_of_right_ne_nil _ (cons_ne_nil _ _))
  | false =>
    obtain ⟨heq, hnone⟩ := hflag rfl
    obtain rfl : pairs = s.pairs := (mk.inj heq).2
    refine ⟨hpruned, h.paired, ?_, fun v hv w hw hne => ?_, fun hnil => ?_⟩
    · rw [hlast]
      exact h.sublist.append (Sublist.refl _)
    · obtain hv | hv := mem_append.1 hv
      · exact h.single v hv w hw hne
      · obtain rfl := mem_singleton.1 hv
        obtain ⟨ep, hep, rfl⟩ := mem_map.1 (adj_iff_other.1 hw)
        exact hnone ep hep fun heq => hne (heq ▸ rfl)
    · obtain ⟨hcnt, hwithout⟩ := h.all_single hnil
      exact ⟨hcnt, by rw [hlast, ← hwithout]; rfl⟩

theorem Scanned.scanEdges (addr : Fin n → ℕ) (hg : Work g) (ho : Originals g outg)
    {s : scan_t n} {es : List (edge_t n)} (h : Scanned g u outg l s)
    (hes : ∀ e ∈ es, e ∈ edgesOf g.edges u) :
    Scanned g u outg (l ++ es) (es.foldl (Circogen.scanEdge addr g.edges u) s) := by
  induction es generalizing l s with
  | nil =>
    rw [append_nil]
    exact h
  | cons e es ih =>
    have hstep := ih (h.scanEdge addr hg ho (hes e mem_cons_self))
      fun e' he' => hes e' (mem_cons_of_mem _ he')
    rwa [append_assoc] at hstep

/-- What the loops of `find_pair_edges` find. -/
theorem scanned (addr : Fin n → ℕ) (hg : Work g) (ho : Originals g outg) :
    Scanned g u outg (edgesOf g.edges u)
      ((edgesOf g.edges u).foldl (scanEdge addr g.edges u) ⟨⟨0, g.ORIGE, outg⟩, [], []⟩) := by
  have hstart : Scanned g u outg [] ⟨⟨0, g.ORIGE, outg⟩, [], []⟩ := by
    refine ⟨⟨fun e he o hs => ⟨hs, (ho e he o hs).1⟩, fun e _ hs => .inl hs, Sublist.refl _,
      fun o hmem hnot => absurd hmem hnot⟩, fun v hv => absurd hv not_mem_nil,
      nil_sublist _, fun v hv => absurd hv not_mem_nil, fun _ => ⟨rfl, rfl⟩⟩
  exact hstart.scanEdges addr hg ho fun _ he => he

end Pairs

/-! ## New edges of the copy -/

/-- Joining the pairs of nodes in a list. -/
def joinAll (strict : Bool) (g : work_t n) (ps : List (Fin n × Fin n)) : work_t n :=
  ps.foldl (fun g p => joinNodes strict g p.1 p.2) g

/-- The copy `g'` has edges more than `g`, without an original and between neighbours of a node. -/
structure Grown (u : Fin n) (g g' : work_t n) : Prop where
  work : Work g'
  nodes : g'.nodes = g.nodes
  sub : ∀ e ∈ g.edges, e ∈ g'.edges
  new : ∀ e ∈ g'.edges, e ∈ g.edges ∧ g'.ORIGE e.seq = g.ORIGE e.seq ∨
    g'.ORIGE e.seq = none ∧ Adj g.edges u e.agtail ∧ Adj g.edges u e.aghead

/-- A pair of neighbours of a node that can be joined. -/
structure Joinable (u : Fin n) (g : work_t n) (p : Fin n × Fin n) : Prop where
  fst : Adj g.edges u p.1
  snd : Adj g.edges u p.2
  ne : p.1 ≠ p.2
  apart : ¬ Adj g.edges p.1 p.2

section Growing

variable {g g' g'' : work_t n} {u v : Fin n} {p : Fin n × Fin n} {strict : Bool}

theorem Grown.refl (h : Work g) : Grown u g g :=
  ⟨h, rfl, fun _ he => he, fun _ he => .inl ⟨he, rfl⟩⟩

/-- At the node itself there is no new edge. -/
theorem Grown.mem_of_end (hg : Work g) (h : Grown u g g') {e : edge_t n} (he : e ∈ g'.edges)
    (hu : e.agtail = u ∨ e.aghead = u) : e ∈ g.edges := by
  obtain ⟨hmem, -⟩ | ⟨-, ht, hh⟩ := h.new e he
  · exact hmem
  · obtain rfl | rfl := hu
    · exact absurd ht hg.simple.not_adj_self
    · exact absurd hh hg.simple.not_adj_self

theorem Grown.adj_iff (hg : Work g) (h : Grown u g g') : Adj g'.edges u v ↔ Adj g.edges u v :=
  ⟨fun ⟨e, he, hj⟩ => ⟨e, h.mem_of_end hg he (hj.imp And.left And.right), hj⟩,
    fun ⟨e, he, hj⟩ => ⟨e, h.sub e he, hj⟩⟩

theorem Grown.trans (hg : Work g) (h : Grown u g g') (h' : Grown u g' g'') : Grown u g g'' where
  work := h'.work
  nodes := h'.nodes.trans h.nodes
  sub e he := h'.sub e (h.sub e he)
  new e he := by
    obtain ⟨hmem, heq⟩ | ⟨hnone, ht, hh⟩ := h'.new e he
    · rw [heq]
      exact h.new e hmem
    · exact .inr ⟨hnone, (h.adj_iff hg).1 ht, (h.adj_iff hg).1 hh⟩

theorem Grown.join (hg : Work g) (h : Joinable u g p) :
    Grown u g (joinNodes strict g p.1 p.2) where
  work := hg.joinNodes (hg.adj_mem h.fst).2 (hg.adj_mem h.snd).2 h.ne h.apart
  nodes := nodes_joinNodes
  sub e he := by
    rw [edges_joinNodes h.apart]
    exact mem_append_left _ he
  new e he := by
    rw [edges_joinNodes h.apart] at he
    rw [ORIGE_joinNodes h.apart]
    obtain he | he := mem_append.1 he
    · exact .inl ⟨he, update_of_ne (hg.seq_lt e he).ne _ _⟩
    · obtain rfl := mem_singleton.1 he
      exact .inr ⟨update_self .., h.fst, h.snd⟩

theorem Joinable.join (h : Joinable u g p) (hg : Work g) {q : Fin n × Fin n}
    (hq : Joinable u g q) (hne : q ≠ p) (hswap : q ≠ p.swap) :
    Joinable u (joinNodes strict g p.1 p.2) q where
  fst := ((Grown.join hg h).adj_iff hg).2 hq.fst
  snd := ((Grown.join hg h).adj_iff hg).2 hq.snd
  ne := hq.ne
  apart := by
    rw [edges_joinNodes h.apart, adj_append_singleton]
    rintro (hadj | ⟨h₁, h₂⟩ | ⟨h₁, h₂⟩)
    · exact hq.apart hadj
    · exact hne (Prod.ext h₁.symm h₂.symm)
    · exact hswap (Prod.ext h₂.symm h₁.symm)

/-- Different pairs of neighbours that are not adjacent can be joined one after another. -/
theorem joinAll_grown {ps : List (Fin n × Fin n)} (hg : Work g) (hps : ∀ p ∈ ps, Joinable u g p)
    (hdiff : ps.Pairwise fun p q => q ≠ p ∧ q ≠ p.swap) : Grown u g (joinAll strict g ps) := by
  induction ps generalizing g with
  | nil => exact .refl hg
  | cons p ps ih =>
    obtain ⟨hp, hdiff⟩ := pairwise_cons.1 hdiff
    have hjp := hps p mem_cons_self
    have hjoin : Grown u g (joinNodes strict g p.1 p.2) := .join hg hjp
    refine hjoin.trans hg (ih hjoin.work (fun q hq => ?_) hdiff)
    exact hjp.join hg (hps q (mem_cons_of_mem _ hq)) (hp q hq).1 (hp q hq).2

theorem LIST_GET_eq_ok {α : Type} {list : List α} {i : ℕ} (h : i < list.length) (a : α) :
    LIST_GET list i = .ok (list.getD i a) := by
  rw [LIST_GET, getElem?_eq_getElem h, getD_eq_getElem?_getD,
    getElem?_eq_getElem h, Option.getD_some]

theorem joinAt_eq_ok {list : List (Fin n)} {i j : ℕ} (hi : i < list.length)
    (hj : j < list.length) (a : Fin n) :
    joinAt strict list g i j = .ok (joinNodes strict g (list.getD i a) (list.getD j a)) := by
  rw [joinAt, LIST_GET_eq_ok hi a, LIST_GET_eq_ok hj a]
  rfl

/-- The nodes at two places of a list. -/
def atPlaces (list : List (Fin n)) (a : Fin n) (p : ℕ × ℕ) : Fin n × Fin n :=
  (list.getD p.1 a, list.getD p.2 a)

/-- The places that the first loop joins. -/
def pairPlaces (k : ℕ) : List (ℕ × ℕ) := (List.range k).map fun i => (2 * i, 2 * i + 1)

/-- The places that the second loop joins. -/
def firstPlaces (k : ℕ) : List (ℕ × ℕ) := (List.range k).map fun i => (0, i + 2)

theorem foldl_count {α β : Type} (f : α → β → α) (l : List β) (a : α) (d : ℤ) :
    l.foldl (fun s b => (f s.1 b, s.2 - 1)) (a, d) = (l.foldl f a, d - l.length) := by
  induction l generalizing a d with
  | nil => rw [foldl_nil, foldl_nil, length_nil]; simp
  | cons b l ih =>
    rw [foldl_cons, foldl_cons, ih, length_cons]
    congr 1
    omega

theorem joinPairs_eq_ok (list : List (Fin n)) (diff : ℤ) (a : Fin n) :
    joinPairs strict list g diff =
      .ok (joinAll strict g ((pairPlaces (list.length / 2)).map (atPlaces list a)),
        diff - (list.length / 2 : ℕ)) := by
  rw [joinPairs, foldlM_eq_ok (g := fun (s : work_t n × ℤ) i =>
    (joinNodes strict s.1 (list.getD (2 * i) a) (list.getD (2 * i + 1) a), s.2 - 1)),
    foldl_count fun g i => joinNodes strict g (list.getD (2 * i) a) (list.getD (2 * i + 1) a),
    joinAll, foldl_map, pairPlaces, foldl_map, length_range]
  · rfl
  · rintro i hi ⟨g, diff⟩
    have hlt := mem_range.1 hi
    dsimp only
    rw [joinAt_eq_ok (by omega) (by omega) a]
    rfl

theorem joinFirst_eq_ok (list : List (Fin n)) {diff : ℤ} (a : Fin n)
    (hdiff : diff.toNat + 1 < list.length ∨ diff ≤ 0) :
    joinFirst strict list g diff =
      .ok (joinAll strict g ((firstPlaces diff.toNat).map (atPlaces list a))) := by
  rw [joinFirst, foldlM_eq_ok (g := fun g i =>
    joinNodes strict g (list.getD 0 a) (list.getD (i + 2) a)), joinAll, foldl_map,
    firstPlaces, foldl_map]
  · rfl
  · intro i hi g
    have hlt := mem_range.1 hi
    exact joinAt_eq_ok (by omega) (by omega) a

theorem nodup_places (k l : ℕ) : (pairPlaces k ++ firstPlaces l).Nodup := by
  refine Nodup.append ?_ ?_ ?_
  · exact nodup_range.map fun i j hij => by
      have := (mk.inj hij).1
      omega
  · exact nodup_range.map fun i j hij => by
      have := (mk.inj hij).2
      omega
  · intro p hp hf
    obtain ⟨i, -, rfl⟩ := mem_map.1 hp
    obtain ⟨j, -, hj⟩ := mem_map.1 hf
    obtain ⟨h1, h2⟩ := mk.inj hj
    omega

/-- Neighbours without pair edges can be joined two by two in any way. -/
theorem places_grown {list : List (Fin n)} {ps : List (ℕ × ℕ)} (hg : Work g) (a : Fin n)
    (hnodup : list.Nodup) (hadj : ∀ v ∈ list, Adj g.edges u v)
    (hsingle : ∀ v ∈ list, ∀ w, Adj g.edges u w → w ≠ v → ¬ Adj g.edges v w)
    (hps : ∀ p ∈ ps, p.1 < p.2 ∧ p.2 < list.length) (hdiff : ps.Nodup) :
    Grown u g (joinAll strict g (ps.map (atPlaces list a))) := by
  have hinj : ∀ {i j : ℕ}, i < list.length → j < list.length → list.getD i a = list.getD j a →
      i = j := fun hi hj heq => by
    rw [getD_eq_getElem _ _ hi, getD_eq_getElem _ _ hj] at heq
    exact (hnodup.getElem_inj_iff).1 heq
  have hmem : ∀ {i : ℕ}, i < list.length → list.getD i a ∈ list := fun hi => by
    rw [getD_eq_getElem _ _ hi]
    exact getElem_mem hi
  refine joinAll_grown hg (fun q hq => ?_) (pairwise_map.2 ?_)
  · obtain ⟨p, hp, rfl⟩ := mem_map.1 hq
    obtain ⟨hlt, hlen⟩ := hps p hp
    have hne : list.getD p.1 a ≠ list.getD p.2 a := fun heq =>
      hlt.ne (hinj (hlt.trans hlen) hlen heq)
    have h2 := hadj _ (hmem hlen)
    exact ⟨hadj _ (hmem (hlt.trans hlen)), h2, hne, hsingle _ (hmem (hlt.trans hlen)) _ h2 hne.symm⟩
  · refine (nodup_iff_pairwise_ne.1 hdiff).imp_of_mem fun {p q} hp hq hne => ⟨?_, ?_⟩
    · intro heq
      obtain ⟨h1, h2⟩ := mk.inj heq
      obtain ⟨hltp, hlenp⟩ := hps p hp
      obtain ⟨hltq, hlenq⟩ := hps q hq
      exact hne (Prod.ext (hinj (hltq.trans hlenq) (hltp.trans hlenp) h1).symm
        (hinj hlenq hlenp h2).symm)
    · intro heq
      obtain ⟨h1, h2⟩ := mk.inj heq
      obtain ⟨hltp, hlenp⟩ := hps p hp
      obtain ⟨hltq, hlenq⟩ := hps q hq
      have e1 := hinj (hltq.trans hlenq) hlenp h1
      have e2 := hinj hlenq (hltp.trans hlenp) h2
      omega

/-- The first neighbour with a pair edge can be joined with all neighbours without. -/
theorem with_grown {list : List (Fin n)} {tp w : Fin n} (hg : Work g) (hnodup : list.Nodup)
    (hadj : ∀ v ∈ list, Adj g.edges u v)
    (hsingle : ∀ v ∈ list, ∀ w, Adj g.edges u w → w ≠ v → ¬ Adj g.edges v w)
    (htp : Adj g.edges u tp) (hw : Adj g.edges u w) (hne : w ≠ tp) (hpair : Adj g.edges tp w) :
    Grown u g (joinAll strict g (list.map fun hp => (tp, hp))) := by
  have htp_ne : ∀ v ∈ list, v ≠ tp := fun v hv heq => by
    subst heq
    exact hsingle v hv w hw hne hpair
  refine joinAll_grown hg (fun q hq => ?_) (pairwise_map.2 ?_)
  · obtain ⟨v, hv, rfl⟩ := mem_map.1 hq
    exact ⟨htp, hadj v hv, (htp_ne v hv).symm,
      fun h => hsingle v hv tp htp (htp_ne v hv).symm h.symm⟩
  · refine (nodup_iff_pairwise_ne.1 hnodup).imp_of_mem fun hv hv' hvv => ⟨?_, ?_⟩
    · exact fun heq => hvv (mk.inj heq).2.symm
    · exact fun heq => htp_ne _ hv (mk.inj heq).1.symm

theorem joinWith_eq_ok {neighbors_with : List (Fin n)} (list : List (Fin n)) {tp : Fin n}
    (h : neighbors_with.head? = some tp) :
    joinWith strict neighbors_with list g =
      .ok (joinAll strict g (list.map fun hp => (tp, hp))) := by
  rw [joinWith, foldlM_eq_ok (g := fun g hp => joinNodes strict g tp hp), joinAll, foldl_map]
  intro hp _ g
  rw [h]

theorem Work.withORIGE (h : Work g) (ORIGE : ℕ → Option (edge_t n)) : Work { g with ORIGE } :=
  ⟨h.simple, h.nodup, h.ends, h.seq_lt, h.seq_inj, h.degree⟩

/-- What `find_pair_edges` does to the copy and the skeleton. -/
structure Thinned (u : Fin n) (g g' : work_t n) (outg outg' : List (edge_t n)) : Prop where
  work : Work g'
  nodes : g'.nodes = g.nodes
  adj : ∀ v, Adj g'.edges u v ↔ Adj g.edges u v
  kept : ∀ e ∈ g'.edges, ∀ o, g'.ORIGE e.seq = some o →
    e ∈ g.edges ∧ g.ORIGE e.seq = some o ∧ o ∈ outg'
  lost : ∀ e ∈ g'.edges, g'.ORIGE e.seq = none →
    e ∈ g.edges ∧ g.ORIGE e.seq = none ∨ Adj g.edges u e.agtail ∧ Adj g.edges u e.aghead
  sublist : outg'.Sublist outg
  gone : ∀ o ∈ outg, o ∉ outg' → Adj g.edges u o.agtail ∧ Adj g.edges u o.aghead

theorem Grown.thinned {s : pairs_t n} {outg : List (edge_t n)} (hs : Pruned g u outg s)
    (hg : Work g) (h : Grown u { g with ORIGE := s.ORIGE } g') : Thinned u g g' outg s.outg where
  work := h.work
  nodes := h.nodes
  adj v := by
    have hiff := Grown.adj_iff (v := v) (hg.withORIGE s.ORIGE) h
    exact hiff
  kept e he o ho := by
    obtain ⟨hmem, heq⟩ | ⟨hnone, -⟩ := h.new e he
    · exact ⟨hmem, hs.kept e hmem o (heq.symm.trans ho)⟩
    · rw [hnone] at ho
      cases ho
  lost e he ho := by
    obtain ⟨hmem, heq⟩ | ⟨-, hadj⟩ := h.new e he
    · exact (hs.lost e hmem (heq.symm.trans ho)).imp_left fun hnone => ⟨hmem, hnone⟩
    · exact .inr hadj
  sublist := hs.sublist
  gone := hs.gone

theorem find_pair_edges_spec {outg : subg_t n} (strict : Bool) (addr : Fin n → ℕ) (hg : Work g)
    (ho : Originals g outg.edges) (hu : u ∈ g.nodes) : ∃ g' edges,
      find_pair_edges strict addr g u outg = .ok (g', { outg with edges }) ∧
        Thinned u g g' outg.edges edges := by
  have hs := scanned (u := u) addr hg ho
  rw [find_pair_edges]
  generalize (edgesOf g.edges u).foldl (scanEdge addr g.edges u)
    ⟨⟨0, g.ORIGE, outg.edges⟩, [], []⟩ = s at *
  have hg' := hg.withORIGE s.pairs.ORIGE
  have hnodup : s.neighbors_without.Nodup := hs.sublist.nodup hg.simple.nodup_others
  have hadj : ∀ v ∈ s.neighbors_without, Adj g.edges u v := fun v hv =>
    adj_iff_other.2 (hs.sublist.subset hv)
  dsimp only
  by_cases hpos : 0 < g.DEGREE u - 1 - s.pairs.edge_cnt
  · rw [if_pos hpos]
    by_cases hlt : g.DEGREE u - 1 - s.pairs.edge_cnt < s.neighbors_without.length
    · rw [if_pos hlt, joinPairs_eq_ok _ _ u, ok_bind]
      dsimp only
      rw [joinFirst_eq_ok _ u (by omega), ok_bind]
      refine ⟨_, _, rfl, Grown.thinned hs.pruned hg ?_⟩
      rw [joinAll, joinAll, ← foldl_append, ← map_append]
      refine places_grown hg' u hnodup hadj hs.single (fun p hp => ?_) (nodup_places _ _)
      obtain hp | hp := mem_append.1 hp
      · obtain ⟨i, hi, rfl⟩ := mem_map.1 hp
        have hi := mem_range.1 hi
        dsimp only
        omega
      · obtain ⟨i, hi, rfl⟩ := mem_map.1 hp
        have hi := mem_range.1 hi
        dsimp only
        omega
    · rw [if_neg hlt]
      by_cases heq : g.DEGREE u - 1 - s.pairs.edge_cnt = s.neighbors_without.length
      · rw [if_pos heq]
        cases hwith : s.neighbors_with with
        | nil =>
          -- all neighbours are without pair edges, and they are one more than `diff`
          obtain ⟨hcnt, hall⟩ := hs.all_single hwith
          have hlen : s.neighbors_without.length = degree g.edges u := by
            rw [hall, length_map, length_edgesOf hg.simple.nodup]
          rw [hcnt, hlen, hg.degree u hu] at heq
          omega
        | cons tp rest =>
          obtain ⟨htp, w, hw, hne, hpair⟩ := hs.paired tp (hwith ▸ mem_cons_self)
          rw [joinWith_eq_ok _ rfl, ok_bind]
          refine ⟨_, _, rfl, Grown.thinned hs.pruned hg ?_⟩
          exact with_grown hg' hnodup hadj hs.single htp hw hne hpair
      · rw [if_neg heq]
        exact ⟨_, _, rfl, Grown.thinned hs.pruned hg (.refl hg')⟩
  · rw [if_neg hpos]
    exact ⟨_, _, rfl, Grown.thinned hs.pruned hg (.refl hg')⟩

end Growing

/-! ## One turn -/

/-- An edge of the skeleton joins the nodes, and one of them has been taken away. -/
def AdjAway (nodes : List (Fin n)) (outg : List (edge_t n)) (u v : Fin n) : Prop :=
  ∃ o ∈ outg, Joins o u v ∧ (u ∉ nodes ∨ v ∉ nodes)

/-- What holds between two turns. -/
structure Inv (ing : graph_t n) (s : State n) : Prop where
  work : Work s.g
  originals : Originals s.g s.outg.edges
  lost : ∀ e ∈ s.g.edges, s.g.ORIGE e.seq = none →
    EqvGen (AdjAway s.g.nodes s.outg.edges) e.agtail e.aghead
  connected : Connected s.outg.edges
  nodes : s.outg.nodes = finRange n
  subset : s.outg.edges ⊆ ing.edges
  dl_perm : s.dl.Perm s.g.nodes
  dl_sorted : s.dl.Pairwise fun a b => cmpDegree s.g.DEGREE a b ≤ 0

theorem eqvGen_le {α : Type} {r s : α → α → Prop} (h : ∀ a b, r a b → EqvGen s a b)
    {a b : α} (hab : EqvGen r a b) : EqvGen s a b :=
  Setoid.eqvGen_le (s := EqvGen.setoid s) h hab

section Turn

variable {ing : graph_t n} {g g' : work_t n} {outg outg' : List (edge_t n)} {u v w : Fin n}
  {es : List (edge_t n)} {dl : List (Fin n)}

/-- The edges at nodes that have been taken away stay. -/
theorem Thinned.away (hg : Work g) (h : Thinned u g g' outg outg')
    (hvw : AdjAway g.nodes outg v w) : AdjAway (g'.agdelete u).nodes outg' v w := by
  obtain ⟨o, ho, hj, hout⟩ := hvw
  refine ⟨o, ?_, hj, ?_⟩
  · by_contra hnot
    obtain ⟨ht, hh⟩ := h.gone o ho hnot
    have ht := (hg.adj_mem ht).2
    have hh := (hg.adj_mem hh).2
    obtain ⟨rfl, rfl⟩ | ⟨rfl, rfl⟩ := hj
    · exact hout.elim (· ht) (· hh)
    · exact hout.elim (· hh) (· ht)
  · have hsub : ∀ x, x ∉ g.nodes → x ∉ (g'.agdelete u).nodes := fun x hx hmem =>
      hx (h.nodes ▸ mem_of_mem_erase hmem)
    exact hout.imp (hsub v) (hsub w)

/-- A node that is taken away stays connected with its neighbours in the copy. -/
theorem Thinned.neighbour (hg : Work g) (ho : Originals g outg)
    (hlost : ∀ e ∈ g.edges, g.ORIGE e.seq = none →
      EqvGen (AdjAway g.nodes outg) e.agtail e.aghead)
    (h : Thinned u g g' outg outg') (hv : Adj g.edges u v) :
    EqvGen (AdjAway (g'.agdelete u).nodes outg') u v := by
  obtain ⟨e, he, hj⟩ := hv
  have hu : u ∉ (g'.agdelete u).nodes := (h.work.nodup.mem_erase_iff.1 · |>.1 rfl)
  cases horig : g.ORIGE e.seq with
  | some o =>
    obtain ⟨hmem, hjo⟩ := ho e he o horig
    have hjo : Joins o u v := by
      obtain ⟨rfl, rfl⟩ | ⟨rfl, rfl⟩ := hj
      · exact hjo
      · exact hjo.symm
    refine .rel _ _ ⟨o, ?_, hjo, .inl hu⟩
    by_contra hnot
    obtain ⟨ht, hh⟩ := h.gone o hmem hnot
    obtain ⟨rfl, -⟩ | ⟨-, rfl⟩ := hjo
    · exact hg.simple.not_adj_self ht
    · exact hg.simple.not_adj_self hh
  | none =>
    have hmono := (hlost e he horig).mono fun _ _ => h.away hg
    obtain ⟨rfl, rfl⟩ | ⟨rfl, rfl⟩ := hj
    · exact hmono
    · exact hmono.symm

/-- So its neighbours stay connected with each other. -/
theorem Thinned.around (hg : Work g) (ho : Originals g outg)
    (hlost : ∀ e ∈ g.edges, g.ORIGE e.seq = none →
      EqvGen (AdjAway g.nodes outg) e.agtail e.aghead)
    (h : Thinned u g g' outg outg') (hv : Adj g.edges u v) (hw : Adj g.edges u w) :
    EqvGen (AdjAway (g'.agdelete u).nodes outg') v w :=
  ((h.neighbour hg ho hlost hv).symm).trans _ _ _ (h.neighbour hg ho hlost hw)

theorem Thinned.connected (hg : Work g) (ho : Originals g outg)
    (hlost : ∀ e ∈ g.edges, g.ORIGE e.seq = none →
      EqvGen (AdjAway g.nodes outg) e.agtail e.aghead)
    (h : Thinned u g g' outg outg') (hconn : Connected outg) : Connected outg' := by
  refine fun v w => eqvGen_le (fun a b hab => ?_) (hconn v w)
  obtain ⟨o, hmem, hj⟩ := hab
  by_cases hstays : o ∈ outg'
  · exact .rel _ _ ⟨o, hstays, hj⟩
  · obtain ⟨ht, hh⟩ := h.gone o hmem hstays
    have haround : EqvGen (Adj outg') o.agtail o.aghead :=
      (h.around hg ho hlost ht hh).mono fun _ _ ⟨o, ho, hj, _⟩ => ⟨o, ho, hj⟩
    obtain ⟨rfl, rfl⟩ | ⟨rfl, rfl⟩ := hj
    · exact haround
    · exact haround.symm

/-! ## The list of the nodes -/

theorem putBacks (g : work_t n) (dl : List (Fin n)) :
    es.foldl (putBack u) (g, dl) =
      ({ g with DEGREE := fun v => g.DEGREE v - (es.map (other u)).count v },
        dl ++ es.map (other u)) := by
  induction es generalizing g dl with
  | nil =>
    have hdegree : (fun v => g.DEGREE v - (([] : List (edge_t n)).map (other u)).count v) =
        g.DEGREE := funext fun v => by
      rw [map_nil, count_nil]
      exact Int.sub_zero _
    rw [foldl_nil, hdegree, map_nil, append_nil]
  | cons e es ih =>
    have hdegree : ∀ v, (g.addDegree (other u e) (-1)).DEGREE v - (es.map (other u)).count v =
        g.DEGREE v - ((e :: es).map (other u)).count v := fun v => by
      rw [DEGREE_addDegree, map_cons, count_cons]
      by_cases hv : other u e = v
      · rw [if_pos hv, if_pos (beq_iff_eq.2 hv)]
        omega
      · rw [if_neg hv, if_neg fun h => hv (beq_iff_eq.1 h)]
        omega
    rw [foldl_cons, putBack, ih, funext hdegree, append_assoc]
    rfl

/-- The nodes that are taken out of the list and put back are the neighbours. -/
theorem relisted (h : (dl ++ [u]).Perm g.nodes) (hg : Work g)
    (hadj : ∀ v, Adj g'.edges u v ↔ Adj g.edges u v) (hg' : Work g') :
    ((edgesOf g.edges u).foldl (fun dl e => dl.erase (other u e)) dl ++
      (edgesOf g'.edges u).map (other u)).Perm (g.nodes.erase u) := by
  have hrest : dl.Perm (g.nodes.erase u) := by
    have hperm := (perm_append_singleton u dl).symm.trans h
    exact (cons_perm_iff_perm_erase.1 hperm).2
  have hsame : ((edgesOf g'.edges u).map (other u)).Perm ((edgesOf g.edges u).map (other u)) := by
    refine (perm_ext_iff_of_nodup hg'.simple.nodup_others hg.simple.nodup_others).2 fun v => ?_
    rw [← adj_iff_other, ← adj_iff_other, hadj]
  have hsub : (edgesOf g.edges u).map (other u) ⊆ dl := fun v hv => by
    have hv := adj_iff_other.2 hv
    refine hrest.mem_iff.2 ((mem_erase_of_ne ?_).2 (hg.adj_mem hv).2)
    rintro rfl
    exact hg.simple.not_adj_self hv
  have hdiff : (edgesOf g.edges u).foldl (fun dl e => dl.erase (other u e)) dl =
      dl.diff ((edgesOf g.edges u).map (other u)) := by
    rw [diff_eq_foldl, foldl_map]
  have hcount := subperm_ext_iff.1 (subperm_of_subset hg.simple.nodup_others hsub)
  rw [hdiff]
  refine (Perm.append_left _ hsame).trans (perm_append_comm.trans ?_)
  exact (subperm_append_diff_self_of_count_le hcount).trans hrest

/-- The edges between a node and another. -/
theorem count_others (hg : Work g) :
    ((edgesOf g.edges u).map (other u)).count v =
      g.edges.countP fun e => (e.agtail = u ∨ e.aghead = u) ∧ other u e = v := by
  rw [count_eq_countP, countP_map, (edgesOf_perm hg.simple.nodup).countP_eq, countP_filter]
  refine countP_congr fun e _ => ?_
  simp [and_comm]

/-- At a node an edge leads to the others of its ends. -/
theorem end_iff_other {e : edge_t n} (hu : e.agtail = u ∨ e.aghead = u) (hne : v ≠ u) :
    e.agtail = v ∨ e.aghead = v ↔ other u e = v := by
  refine ⟨fun hv => ?_, fun h => ?_⟩
  · refine other_eq ?_
    obtain rfl | rfl := hu
    · exact .inl ⟨rfl, hv.resolve_left hne.symm⟩
    · exact .inr ⟨hv.resolve_right hne.symm, rfl⟩
  · obtain ⟨-, hh⟩ | ⟨ht, -⟩ := joins_other hu
    · exact .inr (hh.trans h)
    · exact .inl (ht.trans h)

theorem degree_agdelete (hg : Work g) (hne : v ≠ u) :
    degree (g.agdelete u).edges v + ((edgesOf g.edges u).map (other u)).count v =
      degree g.edges v := by
  have hsplit := g.edges.countP_eq_countP_filter_add
    (fun e => e.agtail = v ∨ e.aghead = v) fun e => e.agtail ≠ u ∧ e.aghead ≠ u
  rw [count_others hg, degree, degree, work_t.agdelete, hsplit]
  congr 1
  rw [countP_filter]
  refine countP_congr fun e _ => ?_
  have hnot : ¬ (e.agtail ≠ u ∧ e.aghead ≠ u) ↔ e.agtail = u ∨ e.aghead = u := by tauto
  simp only [Bool.and_eq_true, Bool.not_eq_true', decide_eq_true_eq, decide_eq_false_iff_not, hnot]
  exact ⟨fun h => ⟨(end_iff_other h.1 hne).2 h.2, h.1⟩,
    fun h => ⟨h.2, (end_iff_other h.2 hne).1 h.1⟩⟩

/-- The copy without the node. -/
theorem Work.agdelete (h : Work g) {DEGREE : Fin n → ℤ}
    (hdeg : ∀ v, DEGREE v = g.DEGREE v - ((edgesOf g.edges u).map (other u)).count v) :
    Work (work_t.agdelete { g with DEGREE } u) where
  simple := h.simple.filter _
  nodup := h.nodup.erase u
  ends e he := by
    obtain ⟨hmem, hne⟩ := mem_filter.1 he
    obtain ⟨ht, hh⟩ := of_decide_eq_true hne
    exact ⟨(mem_erase_of_ne ht).2 (h.ends e hmem).1, (mem_erase_of_ne hh).2 (h.ends e hmem).2⟩
  seq_lt e he := h.seq_lt e (mem_filter.1 he).1
  seq_inj e he e' he' := h.seq_inj e (mem_filter.1 he).1 e' (mem_filter.1 he').1
  degree v hv := by
    obtain ⟨hne, hmem⟩ := h.nodup.mem_erase_iff.1 hv
    have hcount := degree_agdelete h hne
    show DEGREE v = Circogen.degree (g.agdelete u).edges v
    rw [hdeg, h.degree v hmem]
    omega

theorem cmpDegree_le_iff {DEGREE : Fin n → ℤ} : cmpDegree DEGREE v w ≤ 0 ↔ DEGREE w ≤ DEGREE v := by
  unfold cmpDegree
  split_ifs <;> omega

/-- The last of the nodes in the list has a smallest degree. -/
theorem Inv.last_le {s : State n} (h : Inv ing s) (hu : s.dl.getLast? = some u) :
    u ∈ s.g.nodes ∧ ∀ v ∈ s.g.nodes, degree s.g.edges u ≤ degree s.g.edges v := by
  obtain ⟨dl, hdl⟩ := getLast?_eq_some_iff.1 hu
  have hmem : u ∈ s.g.nodes := h.dl_perm.mem_iff.1 (mem_of_getLast? hu)
  refine ⟨hmem, fun v hv => ?_⟩
  have hle : s.g.DEGREE u ≤ s.g.DEGREE v := by
    have hv := h.dl_perm.mem_iff.2 hv
    have hsorted := h.dl_sorted
    rw [hdl] at hv hsorted
    obtain hv | hv := mem_append.1 hv
    · have hle := (pairwise_append.1 hsorted).2.2 v hv u (mem_singleton_self u)
      exact cmpDegree_le_iff.1 hle
    · rw [mem_singleton.1 hv]
  rw [h.work.degree u hmem, h.work.degree v hv] at hle
  exact Int.ofNat_le.1 hle

/-- A turn takes a node away and keeps the rest. -/
theorem step_spec (strict : Bool) (addr : Fin n → ℕ)
    (sort : (DEGREE : Fin n → ℤ) → Qsort (cmpDegree DEGREE)) {s : State n} (h : Inv ing s)
    (hne : s.g.nodes ≠ []) : ∃ s', step strict addr sort s = .ok s' ∧ Inv ing s' ∧
      s'.g.nodes.length = s.g.nodes.length - 1 := by
  have hdl : s.dl ≠ [] := fun hnil => hne (by
    have hperm := h.dl_perm
    rw [hnil] at hperm
    exact hperm.nil_eq.symm)
  obtain ⟨u, hu⟩ : ∃ u, s.dl.getLast? = some u := ⟨_, getLast?_eq_some_getLast hdl⟩
  have hmem := (h.last_le hu).1
  obtain ⟨g', edges, hfind, hthin⟩ :=
    find_pair_edges_spec strict addr h.work h.originals hmem
  obtain ⟨dl, hlast⟩ := getLast?_eq_some_iff.1 hu
  have hperm := h.dl_perm
  rw [hlast] at hperm
  have hdrop : s.dl.dropLast = dl := by rw [hlast, dropLast_concat]
  rw [step, hu]
  dsimp only
  rw [hfind, ok_bind, hdrop]
  dsimp only
  rw [putBacks]
  refine ⟨_, rfl, ⟨hthin.work.agdelete fun _ => rfl, fun e he o ho => ?_, fun e he ho => ?_,
    hthin.connected h.work h.originals h.lost h.connected, h.nodes,
    fun o ho => h.subset (hthin.sublist.subset ho), ?_, (sort _).sorted _⟩, ?_⟩
  · obtain ⟨hg, horig, hin⟩ := hthin.kept e (mem_filter.1 he).1 o ho
    exact ⟨hin, (h.originals e hg o horig).2⟩
  · have hlinked : EqvGen (AdjAway (g'.agdelete u).nodes edges) e.agtail e.aghead := by
      obtain ⟨hg, horig⟩ | ⟨ht, hh⟩ := hthin.lost e (mem_filter.1 he).1 ho
      · exact (h.lost e hg horig).mono fun _ _ => hthin.away h.work
      · exact hthin.around h.work h.originals h.lost ht hh
    exact hlinked
  · have hlisted := relisted hperm h.work hthin.adj hthin.work
    rw [← hthin.nodes] at hlisted
    exact ((sort _).perm _).trans hlisted
  · show (g'.nodes.erase u).length = _
    rw [hthin.nodes, length_erase_of_mem hmem]

end Turn

/-! ## The whole run -/

/-- What the loops of `clone_graph` have made of the edges of a list. -/
structure Cloned (l : List (edge_t n)) (c : subg_t n × work_t n) : Prop where
  work : Work c.2
  nodes : c.2.nodes = finRange n
  clone_nodes : c.1.nodes = finRange n
  clone_edges : c.1.edges = l
  original : ∀ e ∈ c.2.edges, ∃ o, c.2.ORIGE e.seq = some o ∧ o ∈ l ∧ Joins o e.agtail e.aghead

section Run

variable {ing : graph_t n} {l es : List (edge_t n)} {e : edge_t n} {c : subg_t n × work_t n}

theorem Cloned.cloneEdge (strict : Bool) (h : Cloned l c) (hsimple : Simple (l ++ [e])) :
    Cloned (l ++ [e]) (cloneEdge strict c e) := by
  have hnew : ∀ o ∈ l, ¬ Joins o e.agtail e.aghead := fun o ho hj => by
    have heq := hsimple.unique e (mem_append_right _ (mem_singleton_self e)) o
      (mem_append_left _ ho) hj
    subst heq
    exact (nodup_append.1 hsimple.nodup).2.2 o ho o (mem_singleton_self o) rfl
  have hadj : ¬ Adj c.2.edges e.agtail e.aghead := by
    rintro ⟨e', he', hj⟩
    obtain ⟨o, -, ho, hjo⟩ := h.original e' he'
    refine hnew o ho ?_
    obtain ⟨h1, h2⟩ | ⟨h1, h2⟩ := hj
    · exact h1 ▸ h2 ▸ hjo
    · exact h1 ▸ h2 ▸ hjo.symm
  have hall : ∀ v, v ∈ c.2.nodes := fun v => h.nodes ▸ mem_finRange v
  have hloop : e.agtail ≠ e.aghead :=
    hsimple.loopless e (mem_append_right _ (mem_singleton_self e))
  have heq : Circogen.cloneEdge strict c e = ({ c.1 with edges := c.1.edges ++ [e] },
      { joinNodes strict c.2 e.agtail e.aghead with
        ORIGE := update (joinNodes strict c.2 e.agtail e.aghead).ORIGE c.2.nextSeq (some e) }) := by
    rw [Circogen.cloneEdge, joinNodes, agedge_eq hadj]
    rfl
  rw [heq]
  refine ⟨(h.work.joinNodes (hall _) (hall _) hloop hadj).withORIGE _,
    nodes_joinNodes.trans h.nodes, h.clone_nodes, congrArg (· ++ [e]) h.clone_edges,
    fun e' he' => ?_⟩
  have he' : e' ∈ (joinNodes strict c.2 e.agtail e.aghead).edges := he'
  show ∃ o, update (joinNodes strict c.2 e.agtail e.aghead).ORIGE c.2.nextSeq (some e) e'.seq =
    some o ∧ _
  rw [edges_joinNodes hadj] at he'
  rw [ORIGE_joinNodes hadj]
  obtain he' | he' := mem_append.1 he'
  · obtain ⟨o, horig, ho, hj⟩ := h.original e' he'
    have hseq := (h.work.seq_lt e' he').ne
    exact ⟨o, by rw [update_of_ne hseq, update_of_ne hseq, horig], mem_append_left _ ho, hj⟩
  · obtain rfl := mem_singleton.1 he'
    exact ⟨e, update_self .., mem_append_right _ (mem_singleton_self e), Joins.self⟩

theorem Simple.sublist (h : Simple es) (hl : l.Sublist es) : Simple l where
  nodup := hl.nodup h.nodup
  loopless e he := h.loopless e (hl.subset he)
  unique e he e' he' := h.unique e (hl.subset he) e' (hl.subset he')

theorem Cloned.cloneEdges (strict : Bool) (h : Cloned l c) (hsimple : Simple (l ++ es)) :
    Cloned (l ++ es) (es.foldl (Circogen.cloneEdge strict) c) := by
  induction es generalizing l c with
  | nil =>
    rw [append_nil]
    exact h
  | cons e es ih =>
    rw [append_cons] at hsimple ⊢
    exact ih (h.cloneEdge strict (hsimple.sublist (sublist_append_left _ _))) hsimple

/-- The edges of the block, tail by tail. -/
theorem outEdges_perm (h : ing.edges.Nodup) :
    ((finRange n).flatMap (outEdges ing.edges)).Perm ing.edges := by
  have hnodup : ((finRange n).flatMap (outEdges ing.edges)).Nodup := by
    refine nodup_flatMap.2 ⟨fun _ _ => nodup_byEnd h _ _, (nodup_finRange n).imp ?_⟩
    intro v w hne e hv hw
    exact hne ((mem_outEdges.1 hv).2.symm.trans (mem_outEdges.1 hw).2)
  refine (perm_ext_iff_of_nodup hnodup h).2 fun e => ?_
  rw [mem_flatMap]
  exact ⟨fun ⟨u, _, he⟩ => (mem_outEdges.1 he).1,
    fun he => ⟨e.agtail, mem_finRange _, mem_outEdges.2 ⟨he, rfl⟩⟩⟩

theorem clone_graph_spec (strict : Bool) (hsimple : Simple ing.edges) :
    ∃ l, l.Perm ing.edges ∧ Cloned l (clone_graph strict ing) := by
  have hperm := outEdges_perm hsimple.nodup
  have hsub : Simple ((finRange n).flatMap (outEdges ing.edges)) := by
    refine ⟨hperm.nodup_iff.2 hsimple.nodup, fun e he => hsimple.loopless e (hperm.mem_iff.1 he),
      fun e he e' he' => hsimple.unique e (hperm.mem_iff.1 he) e' (hperm.mem_iff.1 he')⟩
  refine ⟨_, hperm, Cloned.cloneEdges (l := []) strict ⟨⟨⟨nodup_nil, ?_, ?_⟩,
    nodup_finRange n, ?_, ?_, ?_, ?_⟩, rfl, rfl, rfl, ?_⟩ hsub⟩
  · exact fun e he => absurd he not_mem_nil
  · exact fun e he => absurd he not_mem_nil
  · exact fun e he => absurd he not_mem_nil
  · exact fun e he => absurd he not_mem_nil
  · exact fun e he => absurd he not_mem_nil
  · exact fun u _ => rfl
  · exact fun e he => absurd he not_mem_nil

variable (strict : Bool) (addr : Fin n → ℕ)
  (sort : (DEGREE : Fin n → ℤ) → Qsort (cmpDegree DEGREE))

theorem steps_zero (hsimple : Simple ing.edges) (hconn : Connected ing.edges) :
    ∃ s, steps strict addr sort ing 0 = .ok s ∧ Inv ing s ∧ s.g.nodes.length = n := by
  obtain ⟨l, hperm, hcloned⟩ := clone_graph_spec strict hsimple
  rw [steps]
  generalize clone_graph strict ing = c at *
  obtain ⟨outg, g⟩ := c
  have hedges : outg.edges = l := hcloned.clone_edges
  refine ⟨_, rfl, ⟨hcloned.work, fun e he o ho => ?_, fun e he ho => ?_, fun u v => ?_,
    hcloned.clone_nodes, fun o ho => ?_, (sort _).perm _, (sort _).sorted _⟩, ?_⟩
  · obtain ⟨o', ho', hl, hj⟩ := hcloned.original e he
    obtain rfl := Option.some.inj (ho'.symm.trans ho)
    exact ⟨hedges ▸ hl, hj⟩
  · obtain ⟨o', ho', -⟩ := hcloned.original e he
    cases ho'.symm.trans ho
  · refine (hconn u v).mono fun a b ⟨o, ho, hj⟩ => ⟨o, ?_, hj⟩
    rw [hedges]
    exact hperm.mem_iff.2 ho
  · have ho : o ∈ outg.edges := ho
    rw [hedges] at ho
    exact hperm.mem_iff.1 ho
  · exact (congrArg List.length hcloned.nodes).trans (length_finRange)

theorem steps_spec (hsimple : Simple ing.edges) (hconn : Connected ing.edges) {k : ℕ}
    (hk : k ≤ n) : ∃ s, steps strict addr sort ing k = .ok s ∧ Inv ing s ∧
      s.g.nodes.length = n - k := by
  induction k with
  | zero => exact steps_zero strict addr sort hsimple hconn
  | succ k ih =>
    obtain ⟨s, hs, hinv, hlen⟩ := ih (Nat.le_of_succ_le hk)
    have hne : s.g.nodes ≠ [] := ne_nil_of_length_pos (by omega)
    obtain ⟨s', hs', hinv', hlen'⟩ := step_spec strict addr sort hinv hne
    exact ⟨s', by rw [steps, hs]; exact hs', hinv', by omega⟩

end Run

/-- The skeleton of a connected simple graph is a connected spanning subgraph of it. The run never
fails, so that no index is out of range and no edge gets a null pointer. Between the turns `DEGREE`
is the degree in the working copy, and the list has a node of smallest degree last. -/
theorem remove_pair_edges_spec (strict : Bool) (addr : Fin n → ℕ)
    (sort : (DEGREE : Fin n → ℤ) → Qsort (cmpDegree DEGREE)) (ing : graph_t n)
    (hsimple : Simple ing.edges) (hconn : Connected ing.edges) :
    (∃ outg, remove_pair_edges strict addr sort ing = .ok outg ∧ outg.nodes = finRange n ∧
      outg.edges ⊆ ing.edges ∧ Connected outg.edges) ∧
    ∀ k ≤ n - 3, ∃ s, steps strict addr sort ing k = .ok s ∧
      (∀ u ∈ s.g.nodes, s.g.DEGREE u = degree s.g.edges u) ∧
      (k < n - 3 → ∃ u, s.dl.getLast? = some u ∧ u ∈ s.g.nodes ∧
        ∀ v ∈ s.g.nodes, degree s.g.edges u ≤ degree s.g.edges v) := by
  constructor
  · obtain ⟨s, hs, hinv, -⟩ := steps_spec strict addr sort hsimple hconn (Nat.sub_le n 3)
    obtain ⟨l, -, hcloned⟩ := clone_graph_spec strict hsimple
    have hcount : (clone_graph strict ing).2.nodes.length = n := by
      rw [hcloned.nodes, length_finRange]
    refine ⟨s.outg, ?_, hinv.nodes, hinv.subset, hinv.connected⟩
    rw [remove_pair_edges, hcount, hs]
    rfl
  · intro k hk
    obtain ⟨s, hs, hinv, hlen⟩ :=
      steps_spec strict addr sort hsimple hconn (hk.trans (Nat.sub_le n 3))
    refine ⟨s, hs, hinv.work.degree, fun hlt => ?_⟩
    have hdl : s.dl ≠ [] := ne_nil_of_length_pos (by rw [hinv.dl_perm.length_eq]; omega)
    exact ⟨_, getLast?_eq_some_getLast hdl, hinv.last_le (getLast?_eq_some_getLast hdl)⟩

/-- `qsort` as a merge sort. -/
def mergeDegree (DEGREE : Fin n → ℤ) : Qsort (cmpDegree DEGREE) where
  run l := l.mergeSort fun a b => cmpDegree DEGREE a b ≤ 0
  perm l := mergeSort_perm l _
  sorted l := by
    refine (pairwise_mergeSort (fun x y z => ?_) (fun x y => ?_) l).imp fun h => ?_
    · simp only [cmpDegree_le_iff, decide_eq_true_eq]
      omega
    · simp only [cmpDegree_le_iff, Bool.or_eq_true, decide_eq_true_eq]
      omega
    · exact of_decide_eq_true h

instance (e : edge_t n) (u v : Fin n) : Decidable (Joins e u v) :=
  inferInstanceAs (Decidable (_ ∧ _ ∨ _ ∧ _))

instance (edges : List (edge_t n)) (u v : Fin n) : Decidable (Adj edges u v) :=
  inferInstanceAs (Decidable (∃ e ∈ edges, Joins e u v))

/-- A node joined with the four nodes of a cycle. -/
def wheel : graph_t 5 :=
  ⟨[⟨0, 1, 1⟩, ⟨0, 2, 2⟩, ⟨0, 3, 3⟩, ⟨0, 4, 4⟩, ⟨1, 2, 5⟩, ⟨2, 3, 6⟩, ⟨3, 4, 7⟩, ⟨4, 1, 8⟩]⟩

theorem remove_pair_edges_wheel :
    (∃ outg, remove_pair_edges true (fun u => u) mergeDegree wheel = .ok outg ∧
      outg.nodes = finRange 5 ∧ outg.edges ⊆ wheel.edges ∧ Connected outg.edges) ∧
    ∀ k ≤ 5 - 3, ∃ s, steps true (fun u => u) mergeDegree wheel k = .ok s ∧
      (∀ u ∈ s.g.nodes, s.g.DEGREE u = degree s.g.edges u) ∧
      (k < 5 - 3 → ∃ u, s.dl.getLast? = some u ∧ u ∈ s.g.nodes ∧
        ∀ v ∈ s.g.nodes, degree s.g.edges u ≤ degree s.g.edges v) := by
  refine remove_pair_edges_spec true (fun u => u) mergeDegree wheel
    ⟨by decide, by decide, by decide⟩ fun u v => ?_
  have hhub : ∀ v : Fin 5, EqvGen (Adj wheel.edges) 0 v := fun v => by
    have hadj : ∀ v : Fin 5, v = 0 ∨ Adj wheel.edges 0 v := by decide
    obtain rfl | h := hadj v
    · exact .refl _
    · exact .rel _ _ h
  exact (hhub u).symm.trans _ _ _ (hhub v)

end Graphviz.Circogen
