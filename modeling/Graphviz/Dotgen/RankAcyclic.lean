import Graphviz.Common.InitRank
import Graphviz.Dotgen.Rank

/-!
# Minimal and maximal rank

`minmax_edges` makes the leader of the sets of minimal rank a source and the leader of the sets of
maximal rank a sink, unless both are one leader: then it is a source only. `minmax_edges2` ties
every other sink to the one and every other source to the other.
-/

namespace Graphviz

open FastGraph Finset Function Outcome RelGraph UnionFind

variable {n : ℕ} {f : Fin n → Fin n} {g : DotGraph n} {m : Fin n}

/-! ## Reversing all edges at a leader -/

/-- A loop that reverses the edges of a list ends with the list empty, when every reversal
shortens it. -/
theorem reverseAll_spec {L : FastGraph n → List ℕ} {other : Fedge n → Fin n}
    {I : FastGraph n → Prop} {μ : FastGraph n → ℕ}
    (hlist : ∀ {fg : FastGraph n}, fg.Wf → ∀ e ∈ L fg, fg.Listed e)
    (hother : ∀ e, other e = e.head ∨ other e = e.tail)
    (hstep : ∀ {fg fg' : FastGraph n} {e}, fg.Wf → e ∈ L fg → Reversed fg e fg' → I fg →
      I fg' ∧ μ fg' < μ fg) {k : ℕ} (h : Ranked f g) (hI : I g.fg) (hk : μ g.fg < k) :
    Meets (reverseAll L other k g)
      (fun g' => Ranked f g' ∧ I g'.fg ∧ L g'.fg = [] ∧ g' = { g with uf := g'.uf, fg := g'.fg })
      fun _ => False := by
  induction k generalizing g with
  | zero => omega
  | succ k ih =>
    unfold reverseAll
    cases hL : L g.fg with
    | nil => exact ⟨h, hI, hL, rfl⟩
    | cons e rest =>
      have he : e ∈ L g.fg := by rw [hL]; exact List.mem_cons_self
      have hlisted := hlist h.wf e he
      have hadj : g.fg.Adj (g.fg.edge e).tail (g.fg.edge e).head := ⟨e, hlisted, rfl⟩
      have hlead : f (other (g.fg.edge e)) = other (g.fg.edge e) := by
        obtain ho | ho := hother (g.fg.edge e)
        · rw [ho]; exact (h.leads hadj).2
        · rw [ho]; exact (h.leads hadj).1
      simp only
      refine (UF.find_spec h.rep _).bind fun ⟨uf, r⟩ ⟨hrep, hr⟩ => ?_
      refine Meets.assert (hlead.symm.trans hr.symm) ?_
      refine (reverseEdge_spec h.wf hlisted).bind fun fg ⟨hwf, hrev⟩ => ?_
      obtain ⟨hI', hμ⟩ := hstep h.wf he hrev hI
      have h' : Ranked f { g with uf := uf, fg := fg } := by
        refine ⟨hrep, hwf, fun {u w} huw => ?_⟩
        obtain huw | ⟨rfl, rfl⟩ := hrev.adj.1 huw
        · exact h.leads huw.1
        · exact ⟨(h.leads hadj).2, (h.leads hadj).1⟩
      refine (ih h' hI' (by simp only; omega)).imp fun g' ⟨h₂, hI₂, hnil, hg⟩ => ?_
      exact ⟨h₂, hI₂, hnil, by rw [hg]⟩

open Classical in
/-- The number of nodes that satisfy a predicate. -/
noncomputable def neighbours (P : Fin n → Prop) : ℕ :=
  (univ.filter P).card

/-- There are at most as many neighbours as nodes. -/
theorem neighbours_lt (P : Fin n → Prop) : neighbours P < n + 1 :=
  Nat.lt_succ_of_le ((card_le_univ _).trans_eq (Fintype.card_fin n))

/-- There are fewer neighbours after one is lost. -/
theorem neighbours_lost {P Q : Fin n → Prop} {w : Fin n} (hsub : ∀ x, Q x → P x) (hw : P w)
    (hw' : ¬ Q w) : neighbours Q < neighbours P := by
  classical
  refine card_lt_card (Finset.ssubset_iff_subset_ne.2 ⟨fun x hx => ?_, fun heq => ?_⟩)
  · simp only [mem_filter, mem_univ, true_and] at hx ⊢
    exact hsub x hx
  · have hmem : w ∈ univ.filter P := by simp [hw]
    rw [← heq] at hmem
    simp only [mem_filter, mem_univ, true_and] at hmem
    exact hw' hmem

/-- The loop over an out list makes its node a sink. -/
theorem reverseAll_out (h : Ranked f g) :
    Meets (reverseAll (fun fg => fg.out m) Fedge.head (n + 1) g)
      (fun g' => Ranked f g' ∧ Sink g'.fg.Adj m ∧ g' = { g with uf := g'.uf, fg := g'.fg })
      fun _ => False := by
  refine (reverseAll_spec (I := fun _ => True)
    (μ := fun fg => neighbours (fg.Adj m))
    (fun hwf e he => hwf.listed he) (fun e => .inl rfl) (fun {fg fg' e} hwf he hr _ => ?_) h
    trivial (neighbours_lt _)).imp fun g' ⟨h', _, hnil, hg⟩ => ⟨h', Wf.out_nil.1 hnil, hg⟩
  refine ⟨trivial, neighbours_lost (w := (fg.edge e).head) (fun x hx => ?_) ⟨e, he, rfl⟩
    fun hx => ?_⟩
  · obtain hx | ⟨hx, -⟩ := hr.adj.1 hx
    · exact hx.1
    · exact absurd hx.symm (hwf.loopless he)
  · obtain hx | ⟨hx, -⟩ := hr.adj.1 hx
    · exact hx.2 ⟨(hwf.out_tail he).symm, rfl⟩
    · exact hwf.loopless he hx.symm

/-- The loop over an in list makes its node a source and leaves every other sink. -/
theorem reverseAll_inn (h : Ranked f g) :
    Meets (reverseAll (fun fg => fg.inn m) Fedge.tail (n + 1) g)
      (fun g' => Ranked f g' ∧ Source g'.fg.Adj m ∧
        (∀ x, x ≠ m → Sink g.fg.Adj x → Sink g'.fg.Adj x) ∧
        g' = { g with uf := g'.uf, fg := g'.fg })
      fun _ => False := by
  refine (reverseAll_spec (I := fun fg => ∀ x, x ≠ m → Sink g.fg.Adj x → Sink fg.Adj x)
    (μ := fun fg => neighbours fun w => fg.Adj w m)
    (fun hwf e he => hwf.listed_inn he) (fun e => .inr rfl) (fun {fg fg' e} hwf he hr hI => ?_) h
    (fun _ _ => id) (neighbours_lt _)).imp
    fun g' ⟨h', hI, hnil, hg⟩ => ⟨h', h'.wf.inn_nil.1 hnil, hI, hg⟩
  have hadj : fg.Adj (fg.edge e).tail m := ⟨e, hwf.listed_inn he, hwf.inn_head he⟩
  have hne := hwf.adj_ne hadj
  refine ⟨fun x hxm hx b hb => ?_, neighbours_lost (w := (fg.edge e).tail) (fun x hx => ?_) hadj
    fun hx => ?_⟩
  · obtain hb | ⟨rfl, -⟩ := hr.adj.1 hb
    · exact hI x hxm hx b hb.1
    · exact hxm (hwf.inn_head he)
  · obtain hx | ⟨-, hx⟩ := hr.adj.1 hx
    · exact hx.1
    · exact absurd hx.symm hne
  · obtain hx | ⟨-, hx⟩ := hr.adj.1 hx
    · exact hx.2 ⟨rfl, (hwf.inn_head he).symm⟩
    · exact hne hx.symm

/-- `findSet` replaces a set by its leader. -/
theorem findSet_spec {uf : UF n} (hrep : Represents uf.parent f) (set : Option (Fin n)) :
    Meets (findSet uf set) (fun x => Represents x.1.parent f ∧ x.2 = set.map f)
      fun _ => False := by
  unfold findSet
  cases set with
  | none => exact ⟨hrep, rfl⟩
  | some m =>
    refine (UF.find_spec hrep m).bind fun ⟨uf', r⟩ ⟨hrep', hr⟩ => ?_
    exact ⟨hrep', congrArg some hr⟩

/-- `reverseOuts` makes the leader of maximal rank a sink. -/
theorem reverseOuts_spec (h : Ranked f g) :
    Meets (reverseOuts g)
      (fun g' => Ranked f g' ∧ (∀ m, g.maxset = some m → Sink g'.fg.Adj m) ∧
        g' = { g with uf := g'.uf, fg := g'.fg }) fun _ => False := by
  unfold reverseOuts
  split
  next hm => exact ⟨h, fun m hm' => (nomatch hm.symm.trans hm'), rfl⟩
  next m hm =>
    refine (reverseAll_out (m := m) h).imp fun g' ⟨h', hs, hg⟩ => ⟨h', fun m' hm' => ?_, hg⟩
    rw [← Option.some.inj (hm.symm.trans hm')]
    exact hs

/-- `reverseIns` makes the leader of minimal rank a source and leaves every other sink. -/
theorem reverseIns_spec (h : Ranked f g) :
    Meets (reverseIns g)
      (fun g' => Ranked f g' ∧ (∀ m, g.minset = some m → Source g'.fg.Adj m) ∧
        (∀ x, g.minset ≠ some x → Sink g.fg.Adj x → Sink g'.fg.Adj x) ∧
        g' = { g with uf := g'.uf, fg := g'.fg }) fun _ => False := by
  unfold reverseIns
  split
  next hm => exact ⟨h, fun m hm' => (nomatch hm.symm.trans hm'), fun _ _ => id, rfl⟩
  next m hm =>
    refine (reverseAll_inn (m := m) h).imp fun g' ⟨h', hs, hk, hg⟩ => ⟨h', fun m' hm' => ?_,
      fun x hx => hk x fun hxm => hx (hxm ▸ hm), hg⟩
    rw [← Option.some.inj (hm.symm.trans hm')]
    exact hs

/-- What `minmax_edges` establishes: both sets are leaders, that of minimal rank is a source, and
that of maximal rank is a sink unless it is the same leader. -/
structure Extremes (f : Fin n → Fin n) (g g' : DotGraph n) : Prop extends Ranked f g' where
  frame : g' = { g with uf := g'.uf, fg := g'.fg, minset := g'.minset, maxset := g'.maxset }
  minset : g'.minset = g.minset.map f
  maxset : g'.maxset = g.maxset.map f
  source : ∀ {m}, g'.minset = some m → Source g'.fg.Adj m
  sink : ∀ {m}, g'.maxset = some m → g'.minset ≠ some m → Sink g'.fg.Adj m

/-- `minmax_edges` makes the leader of minimal rank a source and that of maximal rank a sink. -/
theorem minmaxEdges_spec (h : Ranked f g) :
    Meets (minmaxEdges g) (fun x => Extremes f g x.1) fun _ => False := by
  unfold minmaxEdges
  split
  next hnone =>
    refine ⟨h, rfl, ?_, ?_, fun hm => ?_, fun hm => ?_⟩
    · rw [hnone.2]; rfl
    · rw [hnone.1]; rfl
    · rw [hnone.2] at hm; cases hm
    · rw [hnone.1] at hm; cases hm
  next =>
    refine (findSet_spec h.rep g.minset).bind fun ⟨uf, minset⟩ ⟨hrep, hmin⟩ => ?_
    refine (findSet_spec hrep g.maxset).bind fun ⟨uf', maxset⟩ ⟨hrep', hmax⟩ => ?_
    simp only at hrep hrep' hmin hmax ⊢
    have h1 : Ranked f { g with uf := uf', minset := minset, maxset := maxset } :=
      ⟨hrep', h.wf, h.leads⟩
    refine (reverseOuts_spec h1).bind fun g2 ⟨h2, hs, hg2⟩ => ?_
    refine (reverseIns_spec h2).bind fun g3 ⟨h3, hso, hk, hg3⟩ => ?_
    have hmin2 : g2.minset = minset := by rw [hg2]
    have hmin3 : g3.minset = g2.minset := by rw [hg3]
    have hmax3 : g3.maxset = maxset := by rw [hg3, hg2]
    refine ⟨h3, ?_, (hmin3.trans hmin2).trans hmin, hmax3.trans hmax, fun {m} hm => ?_,
      fun {m} hm hne => ?_⟩
    · rw [hg3, hg2]
    · rw [hmin3] at hm; exact hso m hm
    · rw [hmax3] at hm
      rw [hmin3] at hne
      exact hk m hne (hs m hm)

/-! ## Tying sinks and sources to the sets -/

/-- `virtual_edge` with the settings of `minmax_edges2` adds one edge. -/
theorem tieEdge_spec {fg : FastGraph n} (hwf : fg.Wf) {u v : Fin n} (huv : u ≠ v)
    (hadj : ¬ fg.Adj u v) (minlen : ℤ) :
    (tieEdge fg u v minlen).Wf ∧
      ∀ {a b}, (tieEdge fg u v minlen).Adj a b ↔ fg.Adj a b ∨ (a = u ∧ b = v) := by
  obtain ⟨hwf', hadd⟩ := virtualEdge_spec hwf (o := none) huv hadj fun _ ho => nomatch ho
  have hs : SameShape (fg.virtualEdge u v none).1 (tieEdge fg u v minlen) :=
    (setEdge_sameShape (e := (fg.virtualEdge u v none).2)
      (x := { (fg.virtualEdge u v none).1.edge (fg.virtualEdge u v none).2 with minlen := minlen })
      rfl rfl fun _ => rfl).trans (setEdge_sameShape rfl rfl fun _ => rfl)
  exact ⟨hs.wf hwf', fun {a b} => hs.adj.trans (hadd.adj hwf)⟩

variable {x : DotGraph n × Bool} {v : Fin n}

/-- What a test of `minmax_edges2` does: it adds the edges `E`, and the flag tells whether it has
added one. -/
structure Ties (f : Fin n → Fin n) (x y : DotGraph n × Bool) (E : Fin n → Fin n → Prop) : Prop
    extends Ranked f y.1 where
  frame : y.1 = { x.1 with uf := y.1.uf, fg := y.1.fg }
  adj : ∀ {a b}, y.1.fg.Adj a b ↔ x.1.fg.Adj a b ∨ E a b
  flag : (y.2 = x.2 ∧ y.1.fg = x.1.fg) ∨ y.2 = true

/-- The first test of `minmax_edges2` ties a sink to the set of maximal rank. -/
theorem tieSink_spec (slen : Slen) (h : Ranked f x.1) (hv : f v = v)
    (hmax : ∀ {m}, x.1.maxset = some m → f m = m) :
    Ties f x (tieSink slen v x) fun a b =>
      Sink x.1.fg.Adj v ∧ a = v ∧ b ≠ v ∧ x.1.maxset = some b := by
  unfold tieSink
  split
  next hm =>
    refine ⟨h, rfl, fun {a b} => ⟨.inl, fun hab => hab.elim id fun hab => ?_⟩, .inl ⟨rfl, rfl⟩⟩
    rw [hm] at hab
    cases hab.2.2.2
  next m hm =>
    split
    next hc =>
      have hs : Sink x.1.fg.Adj v := Wf.out_nil.1 hc.1
      obtain ⟨hwf, hadj⟩ := tieEdge_spec h.wf hc.2 (hs m) slen.y
      refine ⟨⟨h.rep, hwf, fun {a b} hab => ?_⟩, rfl, fun {a b} => ?_, .inr rfl⟩
      · obtain hab | ⟨rfl, rfl⟩ := hadj.1 hab
        · exact h.leads hab
        · exact ⟨hv, hmax hm⟩
      · rw [hadj, hm]
        refine or_congr_right ⟨?_, ?_⟩
        · rintro ⟨rfl, rfl⟩
          exact ⟨hs, rfl, hc.2.symm, rfl⟩
        · rintro ⟨-, rfl, -, hb⟩
          exact ⟨rfl, (Option.some.inj hb).symm⟩
    next hc =>
      refine ⟨h, rfl, fun {a b} => ⟨.inl, fun hab => hab.elim id ?_⟩, .inl ⟨rfl, rfl⟩⟩
      rintro ⟨hs, rfl, hb, hmb⟩
      rw [hm] at hmb
      obtain rfl := Option.some.inj hmb
      exact absurd ⟨Wf.out_nil.2 hs, hb.symm⟩ hc

/-- The second test of `minmax_edges2` ties a source to the set of minimal rank. -/
theorem tieSource_spec (slen : Slen) (h : Ranked f x.1) (hv : f v = v)
    (hmin : ∀ {m}, x.1.minset = some m → f m = m) :
    Ties f x (tieSource slen v x) fun a b =>
      Source x.1.fg.Adj v ∧ b = v ∧ a ≠ v ∧ x.1.minset = some a := by
  unfold tieSource
  split
  next hm =>
    refine ⟨h, rfl, fun {a b} => ⟨.inl, fun hab => hab.elim id fun hab => ?_⟩, .inl ⟨rfl, rfl⟩⟩
    rw [hm] at hab
    cases hab.2.2.2
  next m hm =>
    split
    next hc =>
      have hs : Source x.1.fg.Adj v := h.wf.inn_nil.1 hc.1
      obtain ⟨hwf, hadj⟩ := tieEdge_spec h.wf (Ne.symm hc.2) (hs m) slen.x
      refine ⟨⟨h.rep, hwf, fun {a b} hab => ?_⟩, rfl, fun {a b} => ?_, .inr rfl⟩
      · obtain hab | ⟨rfl, rfl⟩ := hadj.1 hab
        · exact h.leads hab
        · exact ⟨hmin hm, hv⟩
      · rw [hadj, hm]
        refine or_congr_right ⟨?_, ?_⟩
        · rintro ⟨rfl, rfl⟩
          exact ⟨hs, rfl, Ne.symm hc.2, rfl⟩
        · rintro ⟨-, rfl, -, ha⟩
          exact ⟨(Option.some.inj ha).symm, rfl⟩
    next hc =>
      refine ⟨h, rfl, fun {a b} => ⟨.inl, fun hab => hab.elim id ?_⟩, .inl ⟨rfl, rfl⟩⟩
      rintro ⟨hs, rfl, ha, hma⟩
      rw [hm] at hma
      obtain rfl := Option.some.inj hma
      exact absurd ⟨h.wf.inn_nil.2 hs, ha.symm⟩ hc

/-- The edges one round of `minmax_edges2` adds, at the node `v` of the graph `adj`. -/
def TieEdges (f : Fin n → Fin n) (minset maxset : Option (Fin n)) (adj : Fin n → Fin n → Prop)
    (v a b : Fin n) : Prop :=
  f v = v ∧ ((Sink adj v ∧ a = v ∧ b ≠ v ∧ maxset = some b) ∨
    (Source adj v ∧ b = v ∧ a ≠ v ∧ minset = some a))

/-- One round of `minmax_edges2`. -/
theorem minmaxNode_spec (slen : Slen) (h : Ranked f x.1)
    (hmin : ∀ {m}, x.1.minset = some m → f m = m) (hmax : ∀ {m}, x.1.maxset = some m → f m = m) :
    Meets (minmaxNode slen x v)
      (fun y => Ties f x y (TieEdges f x.1.minset x.1.maxset x.1.fg.Adj v)) fun _ => False := by
  unfold minmaxNode
  refine (UF.find_spec h.rep v).bind fun ⟨uf, r⟩ ⟨hrep, hr⟩ => ?_
  simp only at hrep hr ⊢
  subst hr
  have h₁ : Ranked f { x.1 with uf := uf } := ⟨hrep, h.wf, h.leads⟩
  split
  next hne =>
    refine ⟨h₁, rfl, fun {a b} => ⟨.inl, fun hab => hab.elim id fun hab => ?_⟩,
      .inl ⟨rfl, rfl⟩⟩
    exact absurd hab.1.symm hne
  next heq =>
    have hv : f v = v := (not_not.1 heq).symm
    have hsink := tieSink_spec (x := ({ x.1 with uf := uf }, x.2)) slen h₁ hv hmax
    generalize tieSink slen v ({ x.1 with uf := uf }, x.2) = y at hsink ⊢
    have hymin : y.1.minset = x.1.minset := by rw [hsink.frame]
    have hsource := tieSource_spec slen hsink.toRanked hv (by rw [hymin]; exact hmin)
    generalize tieSource slen v y = z at hsource ⊢
    -- the edge to the set of maximal rank does not enter `v`
    have hsrc : Source y.1.fg.Adj v ↔ Source x.1.fg.Adj v := by
      refine ⟨fun hs b hb => hs b (hsink.adj.2 (.inl hb)), fun hs b hb => ?_⟩
      obtain hb | ⟨-, -, hb, -⟩ := hsink.adj.1 hb
      · exact hs b hb
      · exact hb rfl
    refine ⟨hsource.toRanked, ?_, fun {a b} => ?_, ?_⟩
    · rw [hsource.frame, hsink.frame]
    · rw [hsource.adj, hsink.adj, hsrc, hymin, TieEdges, or_assoc]
      simp only [hv, true_and]
    · obtain ⟨h1, h2⟩ | h1 := hsource.flag
      · obtain ⟨h3, h4⟩ | h3 := hsink.flag
        · exact .inl ⟨h1.trans h3, h2.trans h4⟩
        · exact .inr (h1.trans h3)
      · exact .inr h1

/-- The invariant of `minmax_edges2`: the sets stay where they are, and until an edge is added
the graph stays as it is. -/
structure TieInv (f : Fin n → Fin n) (g : DotGraph n) (x : DotGraph n × Bool) : Prop
    extends Ranked f x.1 where
  frame : x.1 = { g with uf := x.1.uf, fg := x.1.fg }
  flag : x.2 = false → x.1.fg = g.fg

/-- A round of `minmax_edges2` keeps its invariant. -/
theorem TieInv.node (slen : Slen) (h : TieInv f g x) (hmin : ∀ {m}, g.minset = some m → f m = m)
    (hmax : ∀ {m}, g.maxset = some m → f m = m) :
    Meets (minmaxNode slen x v)
      (fun y => TieInv f g y ∧ Ties f x y (TieEdges f g.minset g.maxset x.1.fg.Adj v))
      fun _ => False := by
  have hxmin : x.1.minset = g.minset := by rw [h.frame]
  have hxmax : x.1.maxset = g.maxset := by rw [h.frame]
  refine (minmaxNode_spec slen h.toRanked (by rw [hxmin]; exact hmin)
    (by rw [hxmax]; exact hmax)).imp fun y hy => ?_
  rw [hxmin, hxmax] at hy
  refine ⟨⟨hy.toRanked, by rw [hy.frame, h.frame], fun hf => ?_⟩, hy⟩
  obtain ⟨h1, h2⟩ | h1 := hy.flag
  · exact h2.trans (h.flag (h1.symm.trans hf))
  · rw [hf] at h1; cases h1

/-- Tying sinks to a sink and sources to a source closes no cycle. -/
theorem minmaxEdges2_acyclic (slen : Slen) (h : Ranked f g) (hac : Acyclic g.fg.Adj)
    (hmin : ∀ {m}, g.minset = some m → f m = m ∧ Source g.fg.Adj m)
    (hmax : ∀ {m}, g.maxset = some m → f m = m ∧ Sink g.fg.Adj m)
    (hne : ∀ {m}, g.maxset = some m → g.minset ≠ some m) :
    Meets (minmaxEdges2 g slen) (fun x => TieInv f g x ∧ Acyclic x.1.fg.Adj) fun _ => False := by
  unfold minmaxEdges2
  split
  next =>
    let I : List (Fin n) → DotGraph n × Bool → Prop := fun _ x => TieInv f g x ∧
      Acyclic x.1.fg.Adj ∧ (∀ m, g.minset = some m → Source x.1.fg.Adj m) ∧
      ∀ m, g.maxset = some m → Sink x.1.fg.Adj m
    have hstart : I (List.finRange n) (g, false) :=
      ⟨⟨h, rfl, fun _ => rfl⟩, hac, fun m hm => (hmin hm).2, fun m hm => (hmax hm).2⟩
    refine (Meets.foldlM I (fun v rest x ⟨hx, hac, hso, hsi⟩ => ?_) (g, false) hstart).imp
      fun x hx => ⟨hx.1, hx.2.1⟩
    refine (hx.node slen (fun hm => (hmin hm).1) fun hm => (hmax hm).1).imp
      fun y ⟨hy, ht⟩ => ⟨hy, ?_, fun m hm b hb => ?_, fun m hm b hb => ?_⟩
    · -- first the edge into the sink, then the edge out of the source
      let r : Fin n → Fin n → Prop := fun a b => x.1.fg.Adj a b ∨
        (f v = v ∧ Sink x.1.fg.Adj v ∧ a = v ∧ b ≠ v ∧ g.maxset = some b)
      have hr : Acyclic r := by
        cases hm : g.maxset with
        | none =>
          refine hac.mono fun a b hab => hab.elim id fun hab => ?_
          rw [hm] at hab
          cases hab.2.2.2.2
        | some M =>
          by_cases hvM : v = M
          · refine hac.mono fun a b hab => hab.elim id fun hab => ?_
            rw [hm] at hab
            obtain rfl := Option.some.inj hab.2.2.2.2
            exact absurd hvM.symm hab.2.2.2.1
          · refine hac.add_sink (hsi M hm) hvM fun c d hcd => hcd.imp id fun hcd => ?_
            rw [hm] at hcd
            exact ⟨hcd.2.2.1, (Option.some.inj hcd.2.2.2.2).symm⟩
      have hry : ∀ {a b}, y.1.fg.Adj a b → r a b ∨
          (Source x.1.fg.Adj v ∧ b = v ∧ a ≠ v ∧ g.minset = some a) := by
        intro a b hab
        obtain hab | ⟨hv, hab | hab⟩ := ht.adj.1 hab
        · exact .inl (.inl hab)
        · exact .inl (.inr ⟨hv, hab⟩)
        · exact .inr hab
      cases hm : g.minset with
      | none =>
        refine hr.mono fun a b hab => (hry hab).elim id fun hab => ?_
        rw [hm] at hab
        cases hab.2.2.2
      | some m =>
        by_cases hvm : v = m
        · refine hr.mono fun a b hab => (hry hab).elim id fun hab => ?_
          rw [hm] at hab
          obtain rfl := Option.some.inj hab.2.2.2
          exact absurd hvm.symm hab.2.2.1
        · have hsrc : Source r m := by
            rintro b (hb | ⟨-, -, -, -, hb⟩)
            · exact hso m hm b hb
            · exact hne hb hm
          refine hr.add_source hsrc hvm fun c d hcd => (hry hcd).imp id fun hcd => ?_
          rw [hm] at hcd
          exact ⟨(Option.some.inj hcd.2.2.2).symm, hcd.2.1⟩
    · obtain hb | ⟨-, ⟨-, -, -, hb⟩ | ⟨-, rfl, hb, hb'⟩⟩ := ht.adj.1 hb
      · exact hso m hm b hb
      · exact hne hb hm
      · rw [hm] at hb'
        exact hb (Option.some.inj hb').symm
    · obtain hb | ⟨-, ⟨-, rfl, hb, hb'⟩ | ⟨-, -, -, hb⟩⟩ := ht.adj.1 hb
      · exact hsi m hm b hb
      · rw [hm] at hb'
        exact hb (Option.some.inj hb').symm
      · exact hne hm hb
  next => exact ⟨⟨h, rfl, fun _ => rfl⟩, hac⟩

/-- When one leader is of minimal and of maximal rank, every other leader gets an edge to a leader
and an edge from a leader. -/
theorem minmaxEdges2_merged (slen : Slen) (h : Ranked f g) (hmin : g.minset = some m)
    (hmax : g.maxset = some m) (hm : f m = m) :
    Meets (minmaxEdges2 g slen)
      (fun x => TieInv f g x ∧ ∀ v, f v = v → v ≠ m →
        (∃ w, x.1.fg.Adj v w) ∧ ∃ w, x.1.fg.Adj w v) fun _ => False := by
  unfold minmaxEdges2
  rw [if_pos (.inl (by rw [hmax]; exact Option.some_ne_none m))]
  let I : List (Fin n) → DotGraph n × Bool → Prop := fun rest x => TieInv f g x ∧
    ∀ v, f v = v → v ≠ m → v ∈ rest ∨ (∃ w, x.1.fg.Adj v w) ∧ ∃ w, x.1.fg.Adj w v
  have hstart : I (List.finRange n) (g, false) :=
    ⟨⟨h, rfl, fun _ => rfl⟩, fun v _ _ => .inl (List.mem_finRange v)⟩
  have hlead : ∀ {s : Option (Fin n)}, s = some m → ∀ {m'}, s = some m' → f m' = m' := by
    intro s hs m' hm'
    rw [hs] at hm'
    rw [← Option.some.inj hm']
    exact hm
  refine (Meets.foldlM I (fun v rest x ⟨hx, hall⟩ => ?_) (g, false) hstart).imp
    fun x ⟨hx, hall⟩ => ⟨hx, fun v hv hvm => (hall v hv hvm).resolve_left List.not_mem_nil⟩
  refine (hx.node slen (hlead hmin) (hlead hmax)).imp fun y ⟨hy, ht⟩ => ⟨hy, fun u hu hum => ?_⟩
  have hup : ∀ {a b}, x.1.fg.Adj a b → y.1.fg.Adj a b := fun hab => ht.adj.2 (.inl hab)
  obtain hmem | ⟨⟨w, hw⟩, w', hw'⟩ := hall u hu hum
  · obtain rfl | hmem := List.mem_cons.1 hmem
    · refine .inr ⟨?_, ?_⟩
      · by_cases hs : Sink x.1.fg.Adj u
        · exact ⟨m, ht.adj.2 (.inr ⟨hu, .inl ⟨hs, rfl, Ne.symm hum, hmax⟩⟩)⟩
        · obtain ⟨w, hw⟩ := not_forall_not.1 hs
          exact ⟨w, hup hw⟩
      · by_cases hs : Source x.1.fg.Adj u
        · exact ⟨m, ht.adj.2 (.inr ⟨hu, .inr ⟨hs, rfl, Ne.symm hum, hmin⟩⟩)⟩
        · obtain ⟨w, hw⟩ := not_forall_not.1 hs
          exact ⟨w, hup hw⟩
    · exact .inl hmem
  · exact .inr ⟨⟨w, hup hw⟩, w', hup hw'⟩

end Graphviz

/-!
## Acyclicity of the rank constraint graph

`dot1_rank` leaves an acyclic graph over the leaders, and `init_rank` processes every node of
every component, exactly when the sets of minimal and of maximal rank are not one class beside
which there is another. The one class is made a source only, and `minmax_edges2` then ties every
other sink to it and it to every other source.
-/

namespace Graphviz

open FastGraph Function List Outcome RelGraph Relation UnionFind

variable {n : ℕ} {f : Fin n → Fin n}

/-- The rank sets force one rank on both nodes. -/
def SameRank (inp : RankInput n) (u v : Fin n) : Prop :=
  EqvGen (Linked (rankSets inp.subgs)) u v

/-- Some node of minimal rank is forced to the rank of some node of maximal rank, and some node
is not forced to that rank. -/
def MergedExtremes (inp : RankInput n) : Prop :=
  ∃ u v w, InMin (rankSets inp.subgs) u ∧ InMax (rankSets inp.subgs) v ∧ SameRank inp u v ∧
    ¬ SameRank inp u w

/-- `init_rank` processes every node of every component. -/
def RanksAll (g : DotGraph n) : Prop :=
  ∀ c ∈ g.comp, ∀ rank priority, ∃ s, initRank g.fg c rank priority = .ok s ∧ s.ctr = c.length

/-! ## The steps -/

/-- `edgelabel_ranks` keeps the shape of the graph. -/
theorem edgelabelRanks_sameShape (inp : RankInput n) (fg : FastGraph n) :
    SameShape fg (edgelabelRanks inp fg) := by
  unfold edgelabelRanks
  split
  next =>
    generalize finRange n = vs
    induction vs generalizing fg with
    | nil => exact .rfl fg
    | cons v vs ih =>
      rw [foldl_cons]
      refine SameShape.trans ?_ (ih _)
      generalize inp.agout v = es
      induction es generalizing fg with
      | nil => exact .rfl fg
      | cons e es ihe =>
        rw [foldl_cons]
        have hs : SameShape fg (fg.setEdge e { fg.edge e with minlen := (fg.edge e).minlen * 2 }) :=
          setEdge_sameShape rfl rfl fun _ => rfl
        exact hs.trans (ihe _)
  next => exact .rfl fg

/-- The graph is empty at the start. -/
theorem RankInput.start_wf (inp : RankInput n) : inp.start.fg.Wf := by
  refine ⟨?_, ?_, fun e => ⟨?_, ?_⟩, fun v => nodup_nil, fun v => nodup_nil, ?_, ?_, ?_⟩
  all_goals
    intros
    rename_i he
    cases he

/-- No node has a link at the start. -/
theorem linked_nil (u v : Fin n) : ¬ Linked [] u v := by
  simp [Linked, InMin, InMax]

/-- The sets of extreme rank before the leaders are found. -/
theorem setOf_map_eq {P : Fin n → Prop} {set : Option (Fin n)} (h : SetOf f P set)
    (hP : ∀ {a b}, P a → P b → f a = f b) {m : Fin n} :
    set.map f = some m ↔ ∃ u, P u ∧ f u = m := by
  cases hs : set with
  | none =>
    refine ⟨fun hm => (nomatch hm), fun ⟨u, hu, _⟩ => absurd hu (h.none hs u)⟩
  | some x =>
    obtain ⟨w, hw, hxw⟩ := h.some hs
    rw [Option.map_some, Option.some.injEq]
    constructor
    · rintro rfl
      exact ⟨w, hw, hxw.symm⟩
    · rintro ⟨u, hu, rfl⟩
      exact hxw.trans (hP hw hu)

/-- `minmax_edges2` closes a cycle exactly when one leader of several is of minimal and of maximal
rank. -/
theorem minmaxEdges2_spec {g : DotGraph n} (slen : Slen) (h : Ranked f g)
    (hac : Acyclic g.fg.Adj) (hmin : ∀ {m}, g.minset = some m → f m = m ∧ Source g.fg.Adj m)
    (hmax : ∀ {m}, g.maxset = some m → f m = m ∧ (g.minset ≠ some m → Sink g.fg.Adj m)) :
    Meets (minmaxEdges2 g slen)
      (fun x => TieInv f g x ∧ (Acyclic x.1.fg.Adj ↔
        ¬ ∃ m w, g.minset = some m ∧ g.maxset = some m ∧ f w = w ∧ w ≠ m)) fun _ => False := by
  by_cases hboth : ∃ m, g.minset = some m ∧ g.maxset = some m
  · obtain ⟨m, hm, hM⟩ := hboth
    have hfm : f m = m := (hmin hm).1
    refine (minmaxEdges2_merged slen h hm hM hfm).imp fun x ⟨hx, hties⟩ => ⟨hx, ?_⟩
    constructor
    · rintro hac' ⟨m', w, hm', -, hw, hwm⟩
      rw [hm] at hm'
      obtain rfl := Option.some.inj hm'
      by_cases hs : Sink x.1.fg.Adj m
      · -- every other leader has a predecessor that is not `m`
        refine not_acyclic_of_pred (S := fun v => f v = v ∧ v ≠ m) ⟨hw, hwm⟩ ?_ hac'
        rintro v ⟨hv, hvm⟩
        obtain ⟨y, hy⟩ := (hties v hv hvm).2
        exact ⟨y, ⟨(hx.leads hy).1, fun hym => hs v (hym ▸ hy)⟩, hy⟩
      · -- every leader has a successor
        refine not_acyclic_of_succ (S := fun v => f v = v) hw ?_ hac'
        intro v hv
        by_cases hvm : v = m
        · obtain ⟨y, hy⟩ := not_forall_not.1 hs
          exact ⟨y, (hx.leads hy).2, by rw [hvm]; exact hy⟩
        · obtain ⟨y, hy⟩ := (hties v hv hvm).1
          exact ⟨y, (hx.leads hy).2, hy⟩
    · intro hno a ha
      have honly : ∀ v, f v = v → v = m := fun v hv => by
        by_contra hvm
        exact hno ⟨m, v, hm, hM, hv, hvm⟩
      obtain ⟨b, hab, -⟩ := TransGen.head'_iff.1 ha
      exact hx.wf.adj_ne hab ((honly a (hx.leads hab).1).trans (honly b (hx.leads hab).2).symm)
  · have hne : ∀ {m}, g.maxset = some m → g.minset ≠ some m :=
      fun hM hm => hboth ⟨_, hm, hM⟩
    refine (minmaxEdges2_acyclic slen h hac hmin (fun hM => ⟨(hmax hM).1, (hmax hM).2 (hne hM)⟩)
      hne).imp fun x ⟨hx, hac'⟩ => ⟨hx, iff_of_true hac' ?_⟩
    rintro ⟨m, w, hm, hM, -⟩
    exact hboth ⟨m, hm, hM⟩

/-! ## The sequence -/

/-- What `dot1_rank` has computed before `rank1`: leaders for the classes of the rank sets, a
graph between leaders, its components, and when the graph is acyclic. -/
structure Dot1Ranked (inp : RankInput n) (f : Fin n → Fin n) (g : DotGraph n) : Prop
    extends Ranked f g where
  tracks : Tracks f (Linked (rankSets inp.subgs))
  comps : Components f g.fg g.comp
  acyclic_iff : Acyclic g.fg.Adj ↔ ¬ MergedExtremes inp

/-- The last step of `dot1_rank`: new components when edges have been added. -/
theorem dot1Rank_comps {g : DotGraph n} {x : DotGraph n × Bool} (hx : TieInv f g x)
    (hmark : ∀ u, g.mark u < g.cmark + 1) (hcomp : Components f g.fg g.comp) :
    Meets (if x.2 then decompose x.1 else .ok x.1)
      (fun g' => Ranked f g' ∧ g'.fg = x.1.fg ∧ Components f g'.fg g'.comp) fun _ => False := by
  split
  next hadd =>
    have hmark' : ∀ u, x.1.mark u < x.1.cmark + 1 := by rw [hx.frame]; exact hmark
    refine (decompose_partition hx.rep hx.leads hx.wf hmark').imp
      fun g' ⟨⟨uf, mark, comp, hg⟩, hrep, _, hc⟩ => ?_
    have hfg : g'.fg = x.1.fg := by rw [hg]
    refine ⟨⟨hrep, hfg ▸ hx.wf, fun huw => hx.leads (hfg ▸ huw)⟩, hfg, hfg ▸ hc⟩
  next hadd =>
    have hfg : x.1.fg = g.fg := hx.flag (by simpa using hadd)
    have hcomp' : x.1.comp = g.comp := by rw [hx.frame]
    exact ⟨hx.toRanked, rfl, by rw [hfg, hcomp']; exact hcomp⟩

/-- The merged sets of extreme rank, seen from the leaders. -/
theorem mergedExtremes_iff {inp : RankInput n} {g₁ g : DotGraph n}
    (htr : Tracks f (Linked (rankSets inp.subgs))) (hidem : ∀ a, f (f a) = f a)
    (hmin : SetOf f (InMin (rankSets inp.subgs)) g₁.minset)
    (hmax : SetOf f (InMax (rankSets inp.subgs)) g₁.maxset)
    (hgmin : g.minset = g₁.minset.map f) (hgmax : g.maxset = g₁.maxset.map f) :
    (∃ m w, g.minset = some m ∧ g.maxset = some m ∧ f w = w ∧ w ≠ m) ↔ MergedExtremes inp := by
  have hPmin : ∀ {a b}, InMin (rankSets inp.subgs) a → InMin (rankSets inp.subgs) b → f a = f b :=
    fun ha hb => htr.rel (.inr (.inl ⟨ha, hb⟩))
  have hPmax : ∀ {a b}, InMax (rankSets inp.subgs) a → InMax (rankSets inp.subgs) b → f a = f b :=
    fun ha hb => htr.rel (.inr (.inr ⟨ha, hb⟩))
  rw [hgmin, hgmax]
  constructor
  · rintro ⟨m, w, hm, hM, hw, hwm⟩
    obtain ⟨u, hu, hum⟩ := (setOf_map_eq hmin hPmin).1 hm
    obtain ⟨v, hv, hvm⟩ := (setOf_map_eq hmax hPmax).1 hM
    refine ⟨u, v, w, hu, hv, (htr u v).1 (hum.trans hvm.symm), fun huw => hwm ?_⟩
    rw [← hum, (htr u w).2 huw, hw]
  · rintro ⟨u, v, w, hu, hv, huv, huw⟩
    refine ⟨f u, f w, (setOf_map_eq hmin hPmin).2 ⟨u, hu, rfl⟩,
      (setOf_map_eq hmax hPmax).2 ⟨v, hv, ((htr u v).2 huv).symm⟩, hidem w, fun h => huw ?_⟩
    exact (htr u w).1 h.symm

/-- `dot1_rank` up to `rank1` passes its assertions and computes what it should; its graph is
acyclic exactly when the sets of extreme rank are not merged. -/
theorem dot1Rank_spec (inp : RankInput n) :
    Meets (dot1Rank inp) (fun g => ∃ f, Dot1Ranked inp f g) fun _ => False := by
  unfold dot1Rank
  have hshape := edgelabelRanks_sameShape inp inp.start.fg
  have hinit : CollapseInv { inp.start with fg := edgelabelRanks inp inp.start.fg } [] id
      { inp.start with fg := edgelabelRanks inp inp.start.fg } := by
    refine ⟨rfl, represents_none, tracks_id linked_nil, ⟨fun _ u hu => ?_, fun hm => nomatch hm⟩,
      ⟨fun _ u hu => ?_, fun hm => nomatch hm⟩⟩
    · obtain ⟨x, hx, -⟩ := hu; cases hx
    · obtain ⟨x, hx, -⟩ := hu; cases hx
  refine (collapseSets_spec inp.subgs hinit).bind fun g1 ⟨f, h1⟩ => ?_
  rw [nil_append] at h1
  have hfg1 : g1.fg = edgelabelRanks inp inp.start.fg := by rw [h1.frame]
  have hno : ∀ v, g1.fg.out v = [] := fun v => by rw [hfg1, hshape.out]; rfl
  have hclass : Class1Inv inp f g1 g1 := by
    refine ⟨⟨h1.rep, hfg1 ▸ hshape.wf inp.start_wf, fun {u w} huw => ?_⟩, rfl, ?_,
      fun {v e} he => ?_⟩
    · obtain ⟨e, he, -⟩ := huw
      rw [hno] at he
      cases he
    · rw [hfg1, hshape.next]; exact le_rfl
    · rw [hno] at he
      cases he
  refine (class1_spec hclass).bind fun g2 h2 => ?_
  refine (minmaxEdges_spec h2.toRanked).bind fun ⟨g3, slen⟩ h3 => ?_
  simp only at h3 ⊢
  have hmark3 : ∀ v, g3.mark v = 0 := fun v => by rw [h3.frame, h2.frame, h1.frame]; rfl
  have hidle3 : ∀ v, g3.onstack v = false := fun v => by
    rw [h3.frame, h2.frame, h1.frame]; rfl
  refine (decompose_partition h3.rep h3.leads h3.wf fun v => by rw [hmark3]; exact Nat.succ_pos _).bind
    fun g4 ⟨⟨uf, mark, comp, hg4⟩, hrep4, hmark4, hcomp4⟩ => ?_
  have hfg4 : g4.fg = g3.fg := by rw [hg4]
  have hcm4 : g4.cmark = g3.cmark + 1 := by rw [hg4]
  refine (acyclic_spec (s := g4.toSearch) (c := g4.comp) (by rw [hfg4]; exact h3.wf)
    (fun u => by rw [hg4]; exact hidle3 u)
    (fun c hc u w huw => hcomp4.closed hc (.inl (by rw [← hfg4]; exact huw)))).bind
    fun s ⟨hs, hacc⟩ => ?_
  have hsym : ∀ {u w}, Joined s.fg u w ↔ Joined g3.fg u w := by
    intro u w
    rw [← hfg4]
    exact hs.sym
  have hleads : Leads f s.fg := fun huw =>
    (hsym.1 (.inl huw)).elim (fun h => h3.leads h) fun h => (h3.leads h).symm
  -- every path from a leader ends, and no edge leaves any other node
  have hac : Acyclic s.fg.Adj := by
    refine acyclic_of_acc fun v => ?_
    by_cases hv : f v = v
    · obtain ⟨c, hc, hvc⟩ := hcomp4.cover hv
      exact hacc c hc v hvc
    · exact Acc.intro _ fun w hw => absurd (hleads hw).1 hv
  have hrank : Ranked f { g4 with toSearch := s } := ⟨hrep4, hs.wf, hleads⟩
  have hmin4 : g4.minset = g3.minset := by rw [hg4]
  have hmax4 : g4.maxset = g3.maxset := by rw [hg4]
  have hlead : ∀ {set : Option (Fin n)} {m}, set.map f = some m → f m = m := by
    intro set m hm
    cases set with
    | none => cases hm
    | some x => rw [← Option.some.inj hm]; exact h1.rep.idem x
  have hcomp : Components f s.fg g4.comp :=
    ⟨hcomp4.cover, hcomp4.leader, fun hc _ _ huw => hcomp4.closed hc (hsym.1 huw), hcomp4.nodup⟩
  refine (minmaxEdges2_spec slen hrank hac (fun {m} hm => ?_) fun {m} hm => ?_).bind
    fun x ⟨hx, hiff⟩ => ?_
  · have hm : g4.minset = some m := hm
    rw [hmin4] at hm
    exact ⟨hlead (h3.minset.symm.trans hm), hs.source (by rw [hfg4]; exact h3.source hm)⟩
  · have hm : g4.maxset = some m := hm
    rw [hmax4] at hm
    refine ⟨hlead (h3.maxset.symm.trans hm), fun hne => hs.sink ?_⟩
    rw [hfg4]
    exact h3.sink hm (by rw [← hmin4]; exact hne)
  · refine (dot1Rank_comps hx (fun u => ?_) hcomp).imp fun g' ⟨h', hfg', hc'⟩ => ?_
    · show s.mark u < g4.cmark + 1
      rw [hcm4]
      exact Nat.lt_succ_of_le (hs.mark_le hmark4 u)
    · refine ⟨f, h', h1.tracks, hc', ?_⟩
      rw [hfg', hiff]
      have hmin2 : g2.minset = g1.minset := by rw [h2.frame]
      have hmax2 : g2.maxset = g1.maxset := by rw [h2.frame]
      exact not_congr (mergedExtremes_iff (g := { g4 with toSearch := s }) h1.tracks h1.rep.idem
        h1.minset h1.maxset (by rw [← hmin2]; exact hmin4.trans h3.minset)
        (by rw [← hmax2]; exact hmax4.trans h3.maxset))

/-- The rank constraint graph is acyclic, and `init_rank` processes every node of every component,
exactly when the sets of minimal and maximal rank are not merged beside another class. -/
theorem dot1Rank_acyclic_iff (inp : RankInput n) :
    ∃ g, dot1Rank inp = .ok g ∧ ((Acyclic g.fg.Adj ∧ RanksAll g) ↔ ¬ MergedExtremes inp) := by
  obtain ⟨g, hg, f, h⟩ := (dot1Rank_spec inp).exists_ok
  refine ⟨g, hg, fun hac => h.acyclic_iff.1 hac.1, fun hno => ?_⟩
  have hac := h.acyclic_iff.2 hno
  refine ⟨hac, fun c hc rank priority => ?_⟩
  have hnd : c.Nodup := (nodup_flatten.1 h.comps.nodup).1 c hc
  exact (initRank_spec h.wf (fun huw => h.comps.closed hc (.inl huw)) hnd hac rank
    priority).exists_ok

/-- Two nodes `a` and `b` with `a -> b`, and the node `a` in a set of minimal and in a set of
maximal rank. -/
def minMaxTwice : RankInput 2 where
  subgs := .cons (some "min") [0] .nil (.cons (some "max") [0] .nil .nil)
  nEdges := 1
  edge := fun _ => ⟨0, 1, 1, 1, 1, 1, none, none⟩
  constr := fun _ => none
  id := fun _ => 0
  edgeLabels := false
  cmark := 0

/-- With `a` of minimal and of maximal rank the graph has the edges `a -> b` and `b -> a`. -/
theorem dot1Rank_minMaxTwice : ∃ g, dot1Rank minMaxTwice = .ok g ∧ ¬ Acyclic g.fg.Adj := by
  have hrun : (match dot1Rank minMaxTwice with
      | .ok g => decide (g.fg.Adj 0 1 ∧ g.fg.Adj 1 0)
      | .error _ => false) = true := by decide +kernel
  split at hrun
  next g hg =>
    obtain ⟨h01, h10⟩ := of_decide_eq_true hrun
    exact ⟨g, hg, fun hac => hac 0 (.tail (.single h01) h10)⟩
  next => cases hrun

end Graphviz
