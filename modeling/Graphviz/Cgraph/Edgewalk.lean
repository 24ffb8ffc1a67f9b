import Graphviz.Cdt.DtRun
import Graphviz.Cgraph.Hierarchy

/-!
# The edges of a node, one after another

`agfstedge` and `agnxtedge` of `lib/cgraph/edge.c`, and `agcountuniqedges` of `graph.c`, with the
dictionary of a graph that takes up the splay tree of a node's edges at each step and gives it back
in another shape. A graph is its record with the trees of its nodes. What the step after an edge
returns does not depend on the order, since the edge is still at the root.
-/

namespace Graphviz.Edgewalk

open Outcome

/-- An edge by one of its halves, whose `AGTYPE` is the constructor. -/
inductive Half where
  | AGOUTEDGE (e : Agedge)
  | AGINEDGE (e : Agedge)
  deriving DecidableEq

/-- The edge of a half. -/
def Half.edge : Half → Agedge
  | .AGOUTEDGE e => e
  | .AGINEDGE e => e

/-- The field `node` of a half. -/
def Half.node : Half → Agnode
  | .AGOUTEDGE e => e.head
  | .AGINEDGE e => e.tail

/-- `AGTAIL`. -/
def AGTAIL (e : Half) : Agnode := e.edge.tail

/-- `AGHEAD`. -/
def AGHEAD (e : Half) : Agnode := e.edge.head

/-- `Ag_mainedge_seq_disc` and `Ag_subedge_seq_disc`. Two nodes of a graph have two sequence
numbers, so that `agedgeseqcmpf` compares these first and those of the edges last. -/
def edgeSeqDisc : Dtdisc Half (ℕ × ℕ) where
  key e := (e.node.seq, e.edge.seq)
  comparf := compareLex (compareOn Prod.fst) (compareOn Prod.snd)
  makef := none
  trans := inferInstance
  makef_key := nofun

/-- The out-set or the in-set of a node. -/
inductive Side where
  | out
  | inn
  deriving DecidableEq

/-- A graph: its record, its dictionary `e_seq`, and the links `out_seq` and `in_seq` of the images
of its nodes. -/
structure Graph where
  record : Agraph
  e_seq : Dt Half
  seq : Side → Agnode → BinTree Half

namespace Graph

/-- Something done to a set of a node, which the dictionary takes up for it. -/
def onSet {α : Type} (g : Graph) (side : Side) (sn : Agsubnode) (f : Dt Half → α × Dt Half) :
    α × Graph :=
  let (a, e_seq) := f (dtrestore g.e_seq (g.seq side sn.node)).2
  let (set, e_seq) := dtextract e_seq
  let seq := Function.update g.seq side (Function.update (g.seq side) sn.node set)
  (a, { g with e_seq, seq })

/-- A step in a set of a node, if the graph has the node. -/
def step (g : Graph) (side : Side) (n : Agnode) (req : DtSearch Half (ℕ × ℕ)) :
    Option Half × Graph :=
  match g.record.agsubrep n with
  | some sn => g.onSet side sn fun d => dttree edgeSeqDisc d req
  | none => (none, g)

/-- `agfstout`. -/
def agfstout (g : Graph) (n : Agnode) : Option Half × Graph := g.step .out n .DT_FIRST

/-- `agnxtout`. -/
def agnxtout (g : Graph) (e : Half) : Option Half × Graph := g.step .out (AGTAIL e) (.DT_NEXT e)

/-- `agfstin`. -/
def agfstin (g : Graph) (n : Agnode) : Option Half × Graph := g.step .inn n .DT_FIRST

/-- `agnxtin`. -/
def agnxtin (g : Graph) (e : Half) : Option Half × Graph := g.step .inn (AGHEAD e) (.DT_NEXT e)

/-- `agfstedge`. -/
def agfstedge (g : Graph) (n : Agnode) : Option Half × Graph :=
  match g.agfstout n with
  | (some e, g) => (some e, g)
  | (none, g) => g.agfstin n

/-- The rest of the loops of `agnxtedge`, which ignore loops as in-edges. -/
def skipLoops (n : Agnode) : ℕ → Option Half → Graph → Except Fault (Option Half × Graph)
  | _, none, g => .ok (none, g)
  | 0, some _, _ => .error .fuel
  | fuel + 1, some rv, g =>
    if rv.node = n then
      let (rv, g) := g.agnxtin rv
      skipLoops n fuel rv g
    else .ok (some rv, g)

/-- The number of links in the in-set of a node, which no loop goes round more often than. -/
def fuel (g : Graph) (n : Agnode) : ℕ := (g.seq .inn n).count + 1

/-- `agnxtedge`. -/
def agnxtedge (g : Graph) (e : Half) (n : Agnode) : Except Fault (Option Half × Graph) :=
  match e with
  | .AGOUTEDGE _ =>
    match g.agnxtout e with
    | (some rv, g) => .ok (some rv, g)
    | (none, g) =>
      let (rv, g) := g.agfstin n
      skipLoops n (g.fuel n) rv g
  | .AGINEDGE _ =>
    let (rv, g) := g.agnxtin e
    skipLoops n (g.fuel n) rv g

/-- `agnxtedge` until it returns null. -/
def edgesFrom (n : Agnode) : ℕ → Option Half → Graph → Except Fault (List Half × Graph)
  | _, none, g => .ok ([], g)
  | 0, some _, _ => .error .fuel
  | fuel + 1, some e, g => do
    let (rv, g) ← g.agnxtedge e n
    let (es, g) ← edgesFrom n fuel rv g
    .ok (e :: es, g)

/-- The edges of a node, by `agfstedge` and `agnxtedge`. -/
def edges (g : Graph) (n : Agnode) : Except Fault (List Half × Graph) :=
  let (e, g) := g.agfstedge n
  edgesFrom n ((g.seq .out n).count + (g.seq .inn n).count) e g

/-- `cnt`. -/
def cnt (g : Graph) (side : Side) (sn : Agsubnode) : ℤ × Graph := g.onSet side sn dtsize

/-- The loop of `agcountuniqedges`. -/
def countIn (n : Agnode) : ℕ → Option Half → ℤ → Graph → Except Fault (ℤ × Graph)
  | _, none, rv, g => .ok (rv, g)
  | 0, some _, _, _ => .error .fuel
  | fuel + 1, some e, rv, g =>
    let rv := if e.node ≠ n then rv + 1 else rv
    let (e, g) := g.agnxtin e
    countIn n fuel e rv g

/-- `agcountuniqedges`. -/
def agcountuniqedges (g : Graph) (n : Agnode)
    (want_in want_out : Bool) : Except Fault (ℤ × Graph) :=
  match g.record.agsubrep n with
  | none => if want_in ∨ want_out then .error .segfault else .ok (0, g)
  | some sn =>
    let (rv, g) := if want_out then g.cnt .out sn else (0, g)
    if want_in then
      if want_out then
        let (e, g) := g.agfstin n
        countIn n (g.fuel n) e rv g
      else
        let (k, g) := g.cnt .inn sn
        .ok (rv + k, g)
    else .ok (rv, g)

/-! ## One step -/

/-- The list of a set of a node's image. -/
def list (side : Side) (sn : Agsubnode) : List Half :=
  match side with
  | .out => sn.outSeq.map .AGOUTEDGE
  | .inn => sn.inSeq.map .AGINEDGE

/-- The trees hold the sequences of the record, in whatever shape, and the dictionary is empty. -/
structure Holds (record : Agraph) (g : Graph) : Prop where
  same : g.record = record
  nodup : (record.nId.map (·.node)).Nodup
  e_seq : g.e_seq = dtopen
  seq : ∀ sn ∈ record.nId, ∀ side, (g.seq side sn.node).toList = list side sn

variable {record : Agraph} {g g' : Graph} {n : Agnode} {sn : Agsubnode} {side : Side}
  {e : Half} {rest : List Half}

/-- The dictionary with the links of a set. -/
theorem Holds.restored (h : Holds record g) (hsn : sn ∈ record.nId) (side : Side) :
    (dtrestore g.e_seq (g.seq side sn.node)).2.here = g.seq side sn.node ∧
      (dtsize (dtrestore g.e_seq (g.seq side sn.node)).2).1 = (list side sn).length ∧
      (dtsize (dtrestore g.e_seq (g.seq side sn.node)).2).2.here = g.seq side sn.node := by
  have hseq := h.seq sn hsn side
  rw [h.e_seq, ← hseq]
  cases g.seq side sn.node with
  | nil => exact ⟨rfl, rfl, rfl⟩
  | node l a r => exact ⟨rfl, congrArg Int.ofNat BinTree.count_eq, rfl⟩

/-- What is done to a set of a node changes the shape of its tree, at most. -/
theorem Holds.onSet {α : Type} (h : Holds record g) (hsn : sn ∈ record.nId)
    {f : Dt Half → α × Dt Half}
    (hf : (f (dtrestore g.e_seq (g.seq side sn.node)).2).2.here.toList = list side sn) :
    Holds record (g.onSet side sn f).2 ∧ (g.onSet side sn f).2.seq side sn.node =
      (f (dtrestore g.e_seq (g.seq side sn.node)).2).2.here := by
  have hself : (g.onSet side sn f).2.seq side sn.node =
      (f (dtrestore g.e_seq (g.seq side sn.node)).2).2.here := by
    simp [Graph.onSet, dtextract]
  refine ⟨⟨h.same, h.nodup, rfl, fun sn' hsn' side' => ?_⟩, hself⟩
  by_cases hside : side' = side
  · subst hside
    by_cases hnode : sn'.node = sn.node
    · obtain rfl := List.inj_on_of_nodup_map h.nodup hsn' hsn hnode
      rw [hself]
      exact hf
    · have hold : (g.onSet side' sn f).2.seq side' sn'.node = g.seq side' sn'.node := by
        simp [Graph.onSet, hnode]
      rw [hold]
      exact h.seq sn' hsn' side'
  · have hold : (g.onSet side sn f).2.seq side' sn'.node = g.seq side' sn'.node := by
      simp [Graph.onSet, hside]
    rw [hold]
    exact h.seq sn' hsn' side'

/-- The set goes on with the halves `cur`, the first of which is at the root of its tree. -/
def At (g : Graph) (side : Side) (n : Agnode) (cur : List Half) : Prop :=
  ∀ e rest, cur = e :: rest → AtRoot (g.seq side n) e rest

/-- The first step in a set. -/
theorem Holds.first (h : Holds record g) (hsn : record.agsubrep n = some sn) (side : Side) :
    ∃ g', g.step side n .DT_FIRST = ((list side sn).head?, g') ∧ Holds record g' ∧
      g'.At side sn.node (list side sn) := by
  have hmem : sn ∈ record.nId := List.mem_of_find?_eq_some hsn
  have hrun := first_atRoot edgeSeqDisc (dtrestore g.e_seq (g.seq side sn.node)).2
  rw [(h.restored hmem side).1, h.seq sn hmem side] at hrun
  obtain ⟨hholds, hself⟩ :=
    h.onSet (f := fun d => dttree edgeSeqDisc d .DT_FIRST) hmem hrun.2.1
  refine ⟨_, ?_, hholds, fun e rest he => ?_⟩
  · rw [Graph.step, h.same, hsn, ← hrun.1]
    rfl
  · rw [hself]
    exact hrun.2.2 e rest he

/-- The step after a half that the last step returned. -/
theorem Holds.next (h : Holds record g) (hsn : record.agsubrep n = some sn) {side : Side}
    (hat : g.At side sn.node (e :: rest)) :
    ∃ g', g.step side n (.DT_NEXT e) = (rest.head?, g') ∧ Holds record g' ∧
      g'.At side sn.node rest := by
  have hmem : sn ∈ record.nId := List.mem_of_find?_eq_some hsn
  have hroot : AtRoot (dtrestore g.e_seq (g.seq side sn.node)).2.here e rest := by
    rw [(h.restored hmem side).1]
    exact hat e rest rfl
  have hrun := next_atRoot edgeSeqDisc hroot
  have hlist : (dttree edgeSeqDisc (dtrestore g.e_seq (g.seq side sn.node)).2
      (.DT_NEXT e)).2.here.toList = list side sn := by
    rw [hrun.2.1, (h.restored hmem side).1, h.seq sn hmem side]
  obtain ⟨hholds, hself⟩ := h.onSet (f := fun d => dttree edgeSeqDisc d (.DT_NEXT e)) hmem hlist
  refine ⟨_, ?_, hholds, fun e' rest' he => ?_⟩
  · rw [Graph.step, h.same, hsn, ← hrun.1]
    rfl
  · rw [hself]
    exact hrun.2.2 e' rest' he

/-! ## The walk -/

/-- A node of a graph, with the edges of its sets. -/
structure Image (record : Agraph) (n : Agnode) (sn : Agsubnode) : Prop where
  agsubrep : record.agsubrep n = some sn
  node : sn.node = n
  tail : ∀ e ∈ sn.outSeq, e.tail = n
  head : ∀ e ∈ sn.inSeq, e.head = n
  loop : ∀ e ∈ sn.inSeq, e.tail = n → e ∈ sn.outSeq

/-- In-edges that are not loops. -/
def noLoop (n : Agnode) (e : Half) : Bool := e.node ≠ n

variable {cur : List Half} {fuel : ℕ}

/-- `agnxtin` on the halves of the in-set. -/
theorem Holds.agnxtin (h : Holds record g) (hsn : Image record n sn)
    (hcur : e :: rest <:+ list .inn sn) (hat : g.At .inn n (e :: rest)) :
    ∃ g', g.agnxtin e = (rest.head?, g') ∧ Holds record g' ∧ g'.At .inn n rest := by
  obtain ⟨f, hf, rfl⟩ := List.mem_map.1 (hcur.mem List.mem_cons_self)
  have hhead : AGHEAD (.AGINEDGE f) = n := hsn.head f hf
  rw [← hsn.node] at hat ⊢
  rw [Graph.agnxtin, hhead]
  exact h.next hsn.agsubrep hat

/-- The loops of `agnxtedge` come to the next in-edge that is not a loop. -/
theorem Holds.skipLoops (h : Holds record g) (hsn : Image record n sn)
    (hcur : cur <:+ list .inn sn) (hat : g.At .inn n cur) (hfuel : cur.length ≤ fuel) :
    ∃ g' cur', Graph.skipLoops n fuel cur.head? g = .ok (cur'.head?, g') ∧ Holds record g' ∧
      cur' <:+ cur ∧ g'.At .inn n cur' ∧ cur'.filter (noLoop n) = cur.filter (noLoop n) ∧
      ∀ e ∈ cur'.head?, noLoop n e := by
  induction cur generalizing g fuel with
  | nil => exact ⟨g, [], by cases fuel <;> rfl, h, List.suffix_rfl, hat, rfl, by simp⟩
  | cons e rest ih =>
    cases fuel with
    | zero => simp at hfuel
    | succ fuel =>
      rw [List.head?_cons, Graph.skipLoops]
      by_cases he : e.node = n
      · obtain ⟨g1, hg1, h1, hat1⟩ := h.agnxtin hsn hcur hat
        obtain ⟨g2, cur', hg2, h2, hsuf, hat2, hfil, hhead⟩ :=
          ih h1 ((List.suffix_cons e rest).trans hcur) hat1 (by simpa using hfuel)
        refine ⟨g2, cur', ?_, h2, hsuf.trans (List.suffix_cons e rest), hat2, ?_, hhead⟩
        · rw [if_pos he, hg1]
          exact hg2
        · rw [hfil, List.filter_cons_of_neg (by simp [noLoop, he])]
      · refine ⟨g, e :: rest, if_neg he, h, List.suffix_rfl, hat, rfl, ?_⟩
        simp [noLoop, he]

theorem Holds.length_le_fuel (h : Holds record g) (hsn : Image record n sn)
    (hcur : cur <:+ list .inn sn) : cur.length ≤ g.fuel n := by
  have hseq := h.seq sn (List.mem_of_find?_eq_some hsn.agsubrep) .inn
  rw [hsn.node] at hseq
  rw [Graph.fuel, BinTree.count_eq, hseq]
  exact hcur.length_le.trans (Nat.le_succ _)

/-- `agnxtedge` from an in-edge on. -/
theorem Holds.edgesFrom_inn (h : Holds record g) (hsn : Image record n sn)
    (hcur : cur <:+ list .inn sn) (hat : g.At .inn n cur) (hhead : ∀ e ∈ cur.head?, noLoop n e)
    (hfuel : cur.length ≤ fuel) :
    ∃ g', Graph.edgesFrom n fuel cur.head? g = .ok (cur.filter (noLoop n), g') ∧
      Holds record g' := by
  induction fuel generalizing g cur with
  | zero =>
    obtain rfl := List.length_eq_zero_iff.1 (Nat.le_zero.1 hfuel)
    exact ⟨g, rfl, h⟩
  | succ fuel ih =>
    cases cur with
    | nil => exact ⟨g, rfl, h⟩
    | cons e rest =>
      have hrest : rest <:+ list .inn sn := (List.suffix_cons e rest).trans hcur
      obtain ⟨g1, hg1, h1, hat1⟩ := h.agnxtin hsn hcur hat
      obtain ⟨g2, cur', hg2, h2, hsuf, hat2, hfil, hhead2⟩ :=
        h1.skipLoops hsn hrest hat1 (h1.length_le_fuel hsn hrest)
      have hlen : cur'.length ≤ fuel := by
        have hle := hsuf.length_le
        rw [List.length_cons] at hfuel
        omega
      obtain ⟨g3, hg3, h3⟩ := ih h2 (hsuf.trans hrest) hat2 hhead2 hlen
      refine ⟨g3, ?_, h3⟩
      obtain ⟨f, -, rfl⟩ := List.mem_map.1 (hcur.mem List.mem_cons_self)
      rw [List.head?_cons, Graph.edgesFrom, Graph.agnxtedge, hg1]
      dsimp only
      rw [hg2, ok_bind]
      dsimp only
      rw [hg3, ok_bind, hfil, List.filter_cons_of_pos (hhead _ rfl)]

/-- `agnxtout` on the halves of the out-set. -/
theorem Holds.agnxtout (h : Holds record g) (hsn : Image record n sn)
    (hcur : e :: rest <:+ list .out sn) (hat : g.At .out n (e :: rest)) :
    ∃ g', g.agnxtout e = (rest.head?, g') ∧ Holds record g' ∧ g'.At .out n rest := by
  obtain ⟨f, hf, rfl⟩ := List.mem_map.1 (hcur.mem List.mem_cons_self)
  have htail : AGTAIL (.AGOUTEDGE f) = n := hsn.tail f hf
  rw [← hsn.node] at hat ⊢
  rw [Graph.agnxtout, htail]
  exact h.next hsn.agsubrep hat

/-- The first in-edge that is not a loop, and those after it. -/
theorem Holds.edgesFrom_agfstin (h : Holds record g) (hsn : Image record n sn)
    (hfuel : (list .inn sn).length ≤ fuel) :
    ∃ e g₁ g₂ g', g.agfstin n = (e, g₁) ∧
      Graph.skipLoops n (g₁.fuel n) e g₁ = .ok (g₂) ∧
      Graph.edgesFrom n fuel g₂.1 g₂.2 = .ok ((list .inn sn).filter (noLoop n), g') ∧
      Holds record g' := by
  obtain ⟨g₁, hg1, h1, hat1⟩ := h.first hsn.agsubrep .inn
  rw [hsn.node] at hat1
  obtain ⟨g₂, cur, hg2, h2, hsuf, hat2, hfil, hhead⟩ :=
    h1.skipLoops hsn List.suffix_rfl hat1 (h1.length_le_fuel hsn List.suffix_rfl)
  obtain ⟨g3, hg3, h3⟩ := h2.edgesFrom_inn hsn hsuf hat2 hhead (hsuf.length_le.trans hfuel)
  exact ⟨_, g₁, _, g3, hg1, hg2, hfil ▸ hg3, h3⟩

/-- `agnxtedge` from an out-edge on: the other out-edges, then the in-edges. -/
theorem Holds.edgesFrom_out (h : Holds record g) (hsn : Image record n sn)
    (hcur : e :: rest <:+ list .out sn) (hat : g.At .out n (e :: rest))
    (hfuel : (e :: rest).length + (list .inn sn).length ≤ fuel) :
    ∃ g', Graph.edgesFrom n fuel (some e) g =
      .ok (e :: rest ++ (list .inn sn).filter (noLoop n), g') ∧ Holds record g' := by
  induction rest generalizing g e fuel with
  | nil =>
    obtain ⟨fuel, rfl⟩ : ∃ k, fuel = k + 1 := ⟨fuel - 1, by rw [List.length_cons] at hfuel; omega⟩
    obtain ⟨g1, hg1, h1, -⟩ := h.agnxtout hsn hcur hat
    have hleft : (list .inn sn).length ≤ fuel := by rw [List.length_cons] at hfuel; omega
    obtain ⟨e', g2, g3, g4, hg2, hg3, hg4, h4⟩ := h1.edgesFrom_agfstin hsn hleft
    refine ⟨g4, ?_, h4⟩
    obtain ⟨f, -, rfl⟩ := List.mem_map.1 (hcur.mem List.mem_cons_self)
    rw [Graph.edgesFrom, Graph.agnxtedge, hg1]
    dsimp only [List.head?_nil]
    rw [hg2]
    dsimp only
    rw [hg3, ok_bind, hg4]
    rfl
  | cons e' rest ih =>
    obtain ⟨fuel, rfl⟩ : ∃ k, fuel = k + 1 := ⟨fuel - 1, by rw [List.length_cons] at hfuel; omega⟩
    obtain ⟨g1, hg1, h1, hat1⟩ := h.agnxtout hsn hcur hat
    have hleft : (e' :: rest).length + (list .inn sn).length ≤ fuel := by
      rw [List.length_cons] at hfuel
      omega
    obtain ⟨g2, hg2, h2⟩ := ih h1 ((List.suffix_cons _ _).trans hcur) hat1 hleft
    refine ⟨g2, ?_, h2⟩
    obtain ⟨f, -, rfl⟩ := List.mem_map.1 (hcur.mem List.mem_cons_self)
    rw [Graph.edgesFrom, Graph.agnxtedge, hg1]
    dsimp only [List.head?_cons]
    rw [ok_bind]
    dsimp only
    rw [hg2]
    rfl

/-- All the edges of a node: its out-edges, then its in-edges that are not loops. -/
theorem Holds.edges (h : Holds record g) (hsn : Image record n sn) :
    ∃ g', g.edges n = .ok (list .out sn ++ (list .inn sn).filter (noLoop n), g') ∧
      Holds record g' := by
  have hmem : sn ∈ record.nId := List.mem_of_find?_eq_some hsn.agsubrep
  have hcount : ∀ {g'}, Holds record g' →
      (g'.seq .out n).count + (g'.seq .inn n).count =
        (list .out sn).length + (list .inn sn).length := fun h' => by
    rw [BinTree.count_eq, BinTree.count_eq, ← hsn.node, h'.seq sn hmem, h'.seq sn hmem]
  obtain ⟨g1, hg1, h1, hat1⟩ := h.first hsn.agsubrep .out
  rw [hsn.node] at hat1
  rw [Graph.edges, agfstedge, agfstout, hg1]
  cases hout : list .out sn with
  | cons e rest =>
    obtain ⟨g', hg', h'⟩ := h1.edgesFrom_out hsn (hout ▸ List.suffix_rfl) (hout ▸ hat1)
      (hout ▸ (hcount h1).ge)
    exact ⟨g', hg', h'⟩
  | nil =>
    obtain ⟨g2, hg2, h2, hat2⟩ := h1.first hsn.agsubrep .inn
    rw [hsn.node] at hat2
    have hloop : ∀ e ∈ list .inn sn, noLoop n e := by
      rintro e he
      obtain ⟨f, hf, rfl⟩ := List.mem_map.1 he
      refine decide_eq_true fun htail => ?_
      have hmem : Half.AGOUTEDGE f ∈ list .out sn := List.mem_map_of_mem (hsn.loop f hf htail)
      rw [hout] at hmem
      cases hmem
    obtain ⟨g', hg', h'⟩ := h2.edgesFrom_inn hsn List.suffix_rfl hat2
      (fun e he => hloop e (List.mem_of_mem_head? he))
      (((Nat.le_add_left _ _)).trans (hcount h2).ge)
    refine ⟨g', ?_, h'⟩
    dsimp only [List.head?_nil]
    rw [agfstin, hg2]
    exact hg'

/-! ## The count -/

/-- The loop of `agcountuniqedges` counts the in-edges that are not loops. -/
theorem Holds.countIn (h : Holds record g) (hsn : Image record n sn)
    (hcur : cur <:+ list .inn sn) (hat : g.At .inn n cur) (hfuel : cur.length ≤ fuel) (rv : ℤ) :
    ∃ g', Graph.countIn n fuel cur.head? rv g =
      .ok (rv + (cur.filter (noLoop n)).length, g') ∧ Holds record g' := by
  induction cur generalizing g fuel rv with
  | nil => exact ⟨g, by cases fuel <;> simp [Graph.countIn], h⟩
  | cons e rest ih =>
    obtain ⟨fuel, rfl⟩ : ∃ k, fuel = k + 1 := ⟨fuel - 1, by rw [List.length_cons] at hfuel; omega⟩
    obtain ⟨g1, hg1, h1, hat1⟩ := h.agnxtin hsn hcur hat
    obtain ⟨g2, hg2, h2⟩ := ih h1 ((List.suffix_cons _ _).trans hcur) hat1
      (by simpa using hfuel) (if e.node ≠ n then rv + 1 else rv)
    refine ⟨g2, ?_, h2⟩
    rw [List.head?_cons, Graph.countIn, hg1]
    dsimp only
    rw [hg2]
    by_cases he : e.node = n
    · simp [noLoop, he]
    · have hfil : (e :: rest).filter (noLoop n) = e :: rest.filter (noLoop n) :=
        List.filter_cons_of_pos (by simp [noLoop, he])
      rw [hfil, if_pos he, List.length_cons, Int.natCast_succ, Int.add_assoc, Int.add_comm 1]

/-- `agcountuniqedges` of all the edges of a node. -/
theorem Holds.agcountuniqedges (h : Holds record g) (hsn : Image record n sn) :
    ∃ g', g.agcountuniqedges n true true =
      .ok ((list .out sn ++ (list .inn sn).filter (noLoop n)).length, g') ∧ Holds record g' := by
  have hmem : sn ∈ record.nId := List.mem_of_find?_eq_some hsn.agsubrep
  obtain ⟨-, hsize, hhere⟩ := h.restored hmem .out
  obtain ⟨h1, -⟩ := h.onSet (f := dtsize) hmem (hhere ▸ h.seq sn hmem .out)
  obtain ⟨g2, hg2, h2, hat2⟩ := h1.first hsn.agsubrep .inn
  rw [hsn.node] at hat2
  obtain ⟨g', hg', h'⟩ := h2.countIn hsn List.suffix_rfl hat2
    (h2.length_le_fuel hsn List.suffix_rfl) (list .out sn).length
  refine ⟨g', ?_, h'⟩
  have hcnt : g.cnt .out sn = (((list .out sn).length : ℤ), (g.onSet .out sn dtsize).2) :=
    Prod.ext hsize rfl
  rw [Graph.agcountuniqedges, h.same, hsn.agsubrep]
  dsimp only
  rw [if_pos rfl, if_pos rfl, if_pos rfl, hcnt]
  dsimp only
  rw [agfstin, hg2]
  dsimp only
  rw [hg', List.length_append, Int.natCast_add]

end Graph

/-! ## Reachable graphs -/

open Graph

variable {s : Store} {V : Views} {p : GPath} {n : Agnode} {sn : Agsubnode}

/-- The image of a node of a live graph. -/
theorem image_of_mem (h : s.Inv V) (hp : s.Live p) (hn : n ∈ (s.graphs p).nSeq) :
    ∃ sn, Image (s.graphs p) n sn ∧ sn.Holds (V p).edges (V p).edges := by
  have hrep := h.shows.rep p hp
  obtain ⟨sn, hmem, hnode, hfind⟩ := hrep.agsubrep_mem h.distinct (h.shows.sub p hp).nodes
    ((h.mem_nSeq hp).1 hn)
  have hholds := hrep.holds sn hmem
  refine ⟨sn, ⟨hfind, hnode, fun e he => ?_, fun e he => ?_, fun e he htail => ?_⟩, hholds⟩
  · rw [← hnode]
    exact ((hholds.outSeq.mem e).1 he).2
  · rw [← hnode]
    exact ((hholds.inSeq.mem e).1 he).2
  · exact (hholds.outSeq.mem e).2 ⟨((hholds.inSeq.mem e).1 he).1, htail.trans hnode.symm⟩

/-- The halves are those of the edges of the node. -/
theorem map_edge {record : Agraph} (hsn : Image record n sn) :
    (list .out sn ++ (list .inn sn).filter (noLoop n)).map Half.edge = record.edgesOf n := by
  rw [Agraph.edgesOf, hsn.agsubrep]
  simp only [list, List.map_append, List.filter_map, List.map_map]
  congr 1
  · exact List.map_id _
  · exact List.map_id _

/-- The edges of a node are those of the graph that have it as an end, each once. -/
theorem edges_once {E : Set Agedge} {record : Agraph} (hsn : Image record n sn)
    (hholds : sn.Holds E E) :
    (record.edgesOf n).Nodup ∧ ∀ e, e ∈ record.edgesOf n ↔ e ∈ E ∧ (e.tail = n ∨ e.head = n) := by
  rw [Agraph.edgesOf, hsn.agsubrep]
  dsimp only
  refine ⟨List.nodup_append'.2 ⟨hholds.outSeq.nodup, hholds.inSeq.nodup.filter _, ?_⟩, fun e => ?_⟩
  · intro e hout hin
    have htail := ((hholds.outSeq.mem e).1 hout).2
    simp only [List.mem_filter, decide_eq_true_eq] at hin
    exact hin.2 (htail.trans hsn.node)
  · rw [List.mem_append, List.mem_filter, hholds.outSeq.mem, hholds.inSeq.mem, decide_eq_true_eq]
    simp only [Set.mem_ofPred_eq, hsn.node]
    tauto

/-- In every reachable store, the edges of a node of a graph, one after another, are the edges of
the graph that have the node as an end, each once, whatever the shapes of the trees. There are as
many as `agcountuniqedges` says. -/
theorem edges_run {ok : Cdt → Store → StoreOp → Prop} {desc : Agdesc} {name : Option CStr}
    {ops : List StoreOp} (hrun : Store.Run ok (Store.agopen desc name) ops s) (hp : s.Live p)
    {g : Graph} (hg : Holds (s.graphs p) g) (hn : n ∈ (s.graphs p).nSeq) :
    ∃ es g', g.edges n = .ok (es, g') ∧ Holds (s.graphs p) g' ∧ (es.map Half.edge).Nodup ∧
      (∀ e, e ∈ es.map Half.edge ↔ (s.graphs p).HasEdge e ∧ (e.tail = n ∨ e.head = n)) ∧
      ∃ g'', g'.agcountuniqedges n true true = .ok (es.length, g'') ∧ Holds (s.graphs p) g'' := by
  obtain ⟨V, hV⟩ := hrun.inv
  obtain ⟨sn, hsn, hholds⟩ := image_of_mem hV hp hn
  obtain ⟨g', hg', h'⟩ := hg.edges hsn
  obtain ⟨hnodup, hmem⟩ := edges_once hsn hholds
  rw [← map_edge hsn] at hnodup hmem
  refine ⟨_, g', hg', h', hnodup, fun e => ?_, h'.agcountuniqedges hsn⟩
  rw [hmem, hV.hasEdge_iff hp]

/-- The graph of `makeAB` with a tree for each set. -/
def graphAB : Graph where
  record := Store.recordAB
  e_seq := dtopen
  seq side n := (Store.recordAB.agsubrep n).elim .nil fun sn => .ofList (list side sn)

/-- The edges of the first node of `makeAB`. -/
theorem edges_run_makeAB :
    ∃ es g', graphAB.edges nodeA = .ok (es, g') ∧ Holds Store.recordAB g' ∧
      (es.map Half.edge).Nodup ∧
      (∀ e, e ∈ es.map Half.edge ↔ Store.recordAB.HasEdge e ∧ (e.tail = nodeA ∨ e.head = nodeA)) ∧
      ∃ g'', g'.agcountuniqedges nodeA true true = .ok (es.length, g'') ∧
        Holds Store.recordAB g'' := by
  obtain ⟨s, hs, hroot, -⟩ := Store.run_makeAB
  have hg : Holds Store.recordAB graphAB := by
    refine ⟨rfl, by decide, rfl, fun sn hsn side => ?_⟩
    rcases List.mem_pair.1 hsn with rfl | rfl <;> cases side <;> rfl
  rw [← hroot] at hg ⊢
  exact edges_run (p := []) hs trivial hg (by rw [hroot]; decide)

end Graphviz.Edgewalk
