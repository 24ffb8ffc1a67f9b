import Graphviz.Neatogen.ScanGraph

/-!
# The reduction leaves the core

The nodes that the reduction deletes have less than two neighbours among those that are left, so
that no set in which every node has two neighbours loses one. The nodes that the iteration has
passed keep two neighbours: when one of them loses a neighbour it is looked at again at once. The
node to visit next is never one that has been deleted.
-/

namespace Graphviz.Spring

open List Nat Outcome

variable {V K : Type} {g G : graph_t V K} {n u v o : V} {next : Option V} {done rest : List V}

/-- Two nodes are neighbours: they are different, and an edge joins them. -/
def Neighbours (g : graph_t V K) (u v : V) : Prop :=
  u ≠ v ∧ ∃ e ∈ g.edges, e.agtail = u ∧ e.aghead = v ∨ e.agtail = v ∧ e.aghead = u

/-- A set of nodes in which each has at least two neighbours. -/
structure TwoNeighbours (g : graph_t V K) (S : Set V) : Prop where
  nodes : ∀ v ∈ S, v ∈ g.nodes
  two : ∀ u ∈ S, ∃ a ∈ S, ∃ b ∈ S, a ≠ b ∧ Neighbours g u a ∧ Neighbours g u b

/-- The node has at least two neighbours. -/
def HasTwo (g : graph_t V K) (u : V) : Prop :=
  ∃ a b, a ≠ b ∧ Neighbours g u a ∧ Neighbours g u b

theorem Neighbours.symm (h : Neighbours g u v) : Neighbours g v u := by
  obtain ⟨hne, e, he, hends⟩ := h
  exact ⟨hne.symm, e, he, hends.symm⟩

theorem Neighbours.mem (h : Neighbours g u v) : v ∈ g.nodes := by
  obtain ⟨-, e, he, ⟨-, rfl⟩ | ⟨rfl, -⟩⟩ := h
  · exact (g.ends e he).2
  · exact (g.ends e he).1

variable [DecidableEq V]

/-! ## The degree of a node -/

/-- The other end of an edge. -/
def otherEnd (n : V) (e : edge_t V K) : V :=
  if e.agtail = n then e.aghead else e.agtail

/-- The edge ends at the node. -/
def Incident (n : V) (e : edge_t V K) : Prop :=
  e.agtail = n ∨ e.aghead = n

theorem mem_nodeEdges {e : edge_t V K} : e ∈ nodeEdges g n ↔ e ∈ g.edges ∧ Incident n e := by
  rw [nodeEdges, outEdges, mem_append, mem_filter, mem_filter, decide_eq_true_iff,
    decide_eq_true_iff, Incident]
  constructor
  · rintro (⟨he, ht⟩ | ⟨he, hh, -⟩)
    · exact ⟨he, .inl ht⟩
    · exact ⟨he, .inr hh⟩
  · rintro ⟨he, hends⟩
    obtain ht | ht := eq_or_ne e.agtail n
    · exact .inl ⟨he, ht⟩
    · exact .inr ⟨he, hends.resolve_left ht, ht⟩

/-- The neighbours of a node are the other ends of its edges. -/
theorem neighbours_iff : Neighbours g n v ↔
    ∃ e ∈ nodeEdges g n, e.aghead ≠ e.agtail ∧ otherEnd n e = v := by
  constructor
  · rintro ⟨hne, e, he, ⟨rfl, rfl⟩ | ⟨rfl, rfl⟩⟩
    · exact ⟨e, mem_nodeEdges.2 ⟨he, .inl rfl⟩, hne.symm, if_pos rfl⟩
    · exact ⟨e, mem_nodeEdges.2 ⟨he, .inr rfl⟩, hne, if_neg hne.symm⟩
  · rintro ⟨e, he, hne, rfl⟩
    obtain ⟨he, hends⟩ := mem_nodeEdges.1 he
    rw [otherEnd]
    split
    next ht => exact ⟨ht ▸ hne.symm, e, he, .inl ⟨ht, rfl⟩⟩
    next ht =>
      have hh := hends.resolve_left ht
      exact ⟨Ne.symm ht, e, he, .inr ⟨rfl, hh⟩⟩

/-- When one other end has been found, the rest of the edges have the same or another one. -/
theorem degreeLoop_one {es : List (edge_t V K)} (hes : ∀ e ∈ es, Incident n e) :
    degreeLoop n es 1 (some o) = (1, some o) ∧ (∀ e ∈ es, e.aghead ≠ e.agtail → otherEnd n e = o) ∨
      degreeLoop n es 1 (some o) = (2, some o) ∧
        ∃ e ∈ es, e.aghead ≠ e.agtail ∧ otherEnd n e ≠ o := by
  induction es with
  | nil => exact .inl ⟨rfl, nofun⟩
  | cons e es ih =>
    have ih := ih fun e' he' => hes e' (mem_cons_of_mem e he')
    have hskip : (e.aghead ≠ e.agtail → otherEnd n e = o) →
        degreeLoop n (e :: es) 1 (some o) = degreeLoop n es 1 (some o) →
        degreeLoop n (e :: es) 1 (some o) = (1, some o) ∧
            (∀ e' ∈ e :: es, e'.aghead ≠ e'.agtail → otherEnd n e' = o) ∨
          degreeLoop n (e :: es) 1 (some o) = (2, some o) ∧
            ∃ e' ∈ e :: es, e'.aghead ≠ e'.agtail ∧ otherEnd n e' ≠ o := by
      intro hsame heq
      rw [heq]
      refine ih.imp ?_ ?_
      · exact fun ⟨hdeg, hall⟩ => ⟨hdeg, forall_mem_cons.2 ⟨hsame, hall⟩⟩
      · exact fun ⟨hdeg, e', he', hother⟩ => ⟨hdeg, e', mem_cons_of_mem e he', hother⟩
    obtain hloop | hloop := eq_or_ne e.aghead e.agtail
    · exact hskip (fun hne => absurd hloop hne) (by rw [degreeLoop, if_pos hloop])
    · have hcond : (e.agtail = n ∧ some e.aghead = some o ∨
          some e.agtail = some o ∧ e.aghead = n) ↔ otherEnd n e = o := by
        rw [otherEnd, Option.some.injEq, Option.some.injEq]
        have hend := hes e mem_cons_self
        split
        next ht =>
          refine ⟨fun h => h.elim And.right fun h => ?_, fun h => .inl ⟨ht, h⟩⟩
          exact absurd (h.2.trans ht.symm) hloop
        next ht =>
          refine ⟨fun h => h.elim (fun h => absurd h.1 ht) And.left, fun h => .inr ⟨h, ?_⟩⟩
          exact hend.resolve_left ht
      obtain ho | ho := eq_or_ne (otherEnd n e) o
      · exact hskip (fun _ => ho)
          (by rw [degreeLoop, if_neg hloop, if_pos rfl, if_pos (hcond.2 ho)])
      · refine .inr ⟨?_, e, mem_cons_self, hloop, ho⟩
        rw [degreeLoop, if_neg hloop, if_pos rfl, if_neg (mt hcond.1 ho)]

/-- What the loop of `degreeKind` finds among edges of the node. -/
theorem degreeLoop_zero {es : List (edge_t V K)} (hes : ∀ e ∈ es, Incident n e) :
    degreeLoop n es 0 none = (0, none) ∧ (∀ e ∈ es, e.aghead = e.agtail) ∨
      ∃ o, (∃ e ∈ es, e.aghead ≠ e.agtail ∧ otherEnd n e = o) ∧
        (degreeLoop n es 0 none = (1, some o) ∧ (∀ e ∈ es, e.aghead ≠ e.agtail → otherEnd n e = o) ∨
          degreeLoop n es 0 none = (2, some o) ∧
            ∃ e ∈ es, e.aghead ≠ e.agtail ∧ otherEnd n e ≠ o) := by
  induction es with
  | nil => exact .inl ⟨rfl, nofun⟩
  | cons e es ih =>
    have hrest : ∀ e' ∈ es, Incident n e' := fun e' he' => hes e' (mem_cons_of_mem e he')
    rw [degreeLoop]
    split
    next hloop =>
      obtain ⟨hdeg, hall⟩ | ⟨o, ⟨e', he', hother⟩, hdeg⟩ := ih hrest
      · exact .inl ⟨hdeg, forall_mem_cons.2 ⟨hloop, hall⟩⟩
      · refine .inr ⟨o, ⟨e', mem_cons_of_mem e he', hother⟩, hdeg.imp ?_ ?_⟩
        · exact fun ⟨hdeg, hall⟩ =>
            ⟨hdeg, forall_mem_cons.2 ⟨fun hne => absurd hloop hne, hall⟩⟩
        · exact fun ⟨hdeg, e', he', hne⟩ => ⟨hdeg, e', mem_cons_of_mem e he', hne⟩
    next hloop =>
      rw [if_neg zero_ne_one]
      refine .inr ⟨otherEnd n e, ⟨e, mem_cons_self, hloop, rfl⟩, ?_⟩
      refine (degreeLoop_one (o := otherEnd n e) hrest).imp ?_ ?_
      · exact fun ⟨hdeg, hall⟩ => ⟨hdeg, forall_mem_cons.2 ⟨fun _ => rfl, hall⟩⟩
      · exact fun ⟨hdeg, e', he', hne⟩ => ⟨hdeg, e', mem_cons_of_mem e he', hne⟩

/-- What `degreeKind` finds for a node of the graph: none, one, or many neighbours. -/
theorem degreeKind_spec (hn : n ∈ g.nodes) :
    degreeKind g n = .ok (0, none) ∧ (∀ v, ¬Neighbours g n v) ∨
      ∃ o, Neighbours g n o ∧ (degreeKind g n = .ok (1, some o) ∧ (∀ v, Neighbours g n v → v = o) ∨
        degreeKind g n = .ok (2, some o) ∧ HasTwo g n) := by
  rw [degreeKind, if_pos hn]
  have hinc : ∀ e ∈ nodeEdges g n, Incident n e := fun e he => (mem_nodeEdges.1 he).2
  rcases degreeLoop_zero hinc with
    ⟨hdeg, hall⟩ | ⟨o, hsome, ⟨hdeg, hall⟩ | ⟨hdeg, e, he, hloop, hne⟩⟩
  · refine .inl ⟨by rw [hdeg], fun v hv => ?_⟩
    obtain ⟨e, he, hloop, -⟩ := neighbours_iff.1 hv
    exact hloop (hall e he)
  · refine .inr ⟨o, neighbours_iff.2 hsome, .inl ⟨by rw [hdeg], fun v hv => ?_⟩⟩
    obtain ⟨e, he, hloop, rfl⟩ := neighbours_iff.1 hv
    exact hall e he hloop
  · have ho := neighbours_iff.2 hsome
    exact .inr ⟨o, ho, .inr ⟨by rw [hdeg], _, o, hne, neighbours_iff.2 ⟨e, he, hloop, rfl⟩, ho⟩⟩

/-! ## Deleting a node -/

theorem mem_without : v ∈ (without g n).nodes ↔ v ∈ g.nodes ∧ v ≠ n := by
  rw [without, mem_filter, decide_eq_true_iff]

/-- The neighbours that are left. -/
theorem neighbours_without : Neighbours (without g n) u v ↔ Neighbours g u v ∧ u ≠ n ∧ v ≠ n := by
  rw [Neighbours, Neighbours]
  constructor
  · rintro ⟨hne, e, he, hends⟩
    rw [without, mem_filter, decide_eq_true_iff] at he
    obtain ⟨he, ht, hh⟩ := he
    refine ⟨⟨hne, e, he, hends⟩, ?_⟩
    obtain ⟨rfl, rfl⟩ | ⟨rfl, rfl⟩ := hends
    · exact ⟨ht, hh⟩
    · exact ⟨hh, ht⟩
  · rintro ⟨⟨hne, e, he, hends⟩, hu, hv⟩
    refine ⟨hne, e, ?_, hends⟩
    rw [without, mem_filter, decide_eq_true_iff]
    obtain ⟨rfl, rfl⟩ | ⟨rfl, rfl⟩ := hends
    · exact ⟨he, hu, hv⟩
    · exact ⟨he, hv, hu⟩

/-- A node keeps its two neighbours when one that is not among its neighbours is deleted. -/
theorem HasTwo.without (h : HasTwo g u) (hne : u ≠ n) (hn : ¬Neighbours g n u) :
    HasTwo (without g n) u := by
  obtain ⟨a, b, hab, ha, hb⟩ := h
  have hkeep : ∀ v, Neighbours g u v → Neighbours (Spring.without g n) u v := by
    rintro v hv
    refine neighbours_without.2 ⟨hv, hne, ?_⟩
    rintro rfl
    exact hn hv.symm
  exact ⟨a, b, hab, hkeep a ha, hkeep b hb⟩

/-- What has been deleted is in no set in which every node has two neighbours. -/
structure Reduced (G g : graph_t V K) : Prop where
  sub : ∀ u v, Neighbours g u v → Neighbours G u v
  full : ∀ u v, Neighbours G u v → u ∈ g.nodes → v ∈ g.nodes → Neighbours g u v
  nodes : ∀ v ∈ g.nodes, v ∈ G.nodes
  core : ∀ S, TwoNeighbours G S → ∀ v ∈ S, v ∈ g.nodes

omit [DecidableEq V] in
theorem Reduced.refl (G : graph_t V K) : Reduced G G :=
  ⟨fun _ _ => id, fun _ _ h _ _ => h, fun _ => id, fun _ hS => hS.nodes⟩

/-- A node without two neighbours is deleted. -/
theorem Reduced.delete (h : Reduced G g) (hn : ¬HasTwo g n) : Reduced G (without g n) := by
  refine ⟨fun u v huv => h.sub u v (neighbours_without.1 huv).1, fun u v huv hu hv => ?_,
    fun v hv => h.nodes v (mem_without.1 hv).1, fun S hS v hv => ?_⟩
  · obtain ⟨hu, hun⟩ := mem_without.1 hu
    obtain ⟨hv, hvn⟩ := mem_without.1 hv
    exact neighbours_without.2 ⟨h.full u v huv hu hv, hun, hvn⟩
  · refine mem_without.2 ⟨h.core S hS v hv, ?_⟩
    rintro rfl
    obtain ⟨a, ha, b, hb, hab, hva, hvb⟩ := hS.two v hv
    have hmem := h.core S hS
    exact hn ⟨a, b, hab, h.full v a hva (hmem v hv) (hmem a ha),
      h.full v b hvb (hmem v hv) (hmem b hb)⟩

/-! ## The place of the iteration -/

/-- The nodes `done` have been passed, and the first one of the others is visited next. -/
structure At (g : graph_t V K) (next : Option V) (done rest : List V) : Prop where
  nodes : g.nodes = done ++ rest
  next : rest.head? = next

theorem agnxtnode_eq (h : g.nodes = done ++ n :: rest) : agnxtnode g n = .ok rest.head? := by
  have hnodup := g.nodup
  rw [h, nodup_append] at hnodup
  have hdone : ∀ x ∈ done, decide (x ≠ n) = true := fun x hx =>
    decide_eq_true (hnodup.2.2 x hx n mem_cons_self)
  rw [agnxtnode, if_pos (by rw [h]; exact mem_append_right _ mem_cons_self), h,
    dropWhile_append_of_pos hdone, dropWhile_cons_of_neg (by simp), tail_cons]

/-- The node to visit next when a node is deleted, which is not that node. -/
theorem At.delete (h : At g next done rest) (hn : n ∈ g.nodes) :
    ∃ next' done' rest', skip g n next = .ok next' ∧
      At (without g n) next' done' rest' ∧ rest'.length ≤ rest.length ∧ ∀ u ∈ done', u ∈ done := by
  have hnodes : (without g n).nodes = done.filter (· ≠ n) ++ rest.filter (· ≠ n) := by
    rw [← filter_append, ← h.nodes]
    rfl
  have hdone : ∀ u ∈ done.filter (· ≠ n), u ∈ done := fun u hu => (mem_filter.1 hu).1
  cases rest with
  | nil =>
    rw [← h.next, head?_nil, skip, if_neg (by simp)]
    exact ⟨none, _, [], rfl, ⟨hnodes, rfl⟩, le_rfl, hdone⟩
  | cons x rest =>
    rw [← h.next, head?_cons, skip]
    split
    next heq =>
      obtain rfl := Option.some.inj heq
      have hnot : x ∉ rest := by
        have hnodup := g.nodup
        rw [h.nodes, nodup_append, nodup_cons] at hnodup
        exact hnodup.2.1.1
      rw [filter_cons_of_neg (by simp), filter_eq_self.2 fun y hy =>
        decide_eq_true (p := y ≠ x) fun hyx => hnot (hyx ▸ hy)] at hnodes
      exact ⟨rest.head?, _, rest, agnxtnode_eq h.nodes, ⟨hnodes, rfl⟩, by simp, hdone⟩
    next hne =>
      have hx : x ≠ n := fun heq => hne (congrArg some heq)
      refine ⟨some x, _, _, rfl, ⟨hnodes, ?_⟩, length_filter_le _ _, hdone⟩
      rw [filter_cons_of_pos (by simpa using hx), head?_cons]

/-- A node that is deleted is not among those that have been passed. -/
theorem At.not_mem (h : At (without g n) next done rest) (hu : u ∈ done) : u ≠ n := by
  have hmem : u ∈ (without g n).nodes := h.nodes ▸ mem_append_left _ hu
  exact (mem_without.1 hmem).2

/-! ## The two loops -/

/-- The nodes that have been passed have two neighbours, but for one that may have lost one. -/
def DoneBut (g : graph_t V K) (done : List V) (np : V) : Prop :=
  ∀ u ∈ done, u ≠ np → HasTwo g u

/-- What a run of `prune` leaves. -/
structure Passed (G : graph_t V K) (rest : List V) (g' : graph_t V K) (next' : Option V) :
    Prop where
  reduced : Reduced G g'
  place : ∃ done' rest', At g' next' done' rest' ∧ rest'.length ≤ rest.length ∧
    ∀ u ∈ done', HasTwo g' u

theorem length_without (hn : n ∈ g.nodes) : (without g n).nodes.length < g.nodes.length := by
  refine length_filter_lt_length_iff_exists.2 ⟨n, hn, ?_⟩
  simp

theorem pruneLoop_spec {fuel : ℕ} {np : V} (hfuel : g.nodes.length ≤ fuel) (hnp : np ∈ g.nodes)
    (hred : Reduced G g) (hat : At g next done rest) (hdone : DoneBut g done np) :
    ∃ g' next', pruneLoop fuel g np next = .ok (g', next') ∧ Passed G rest g' next' := by
  induction fuel generalizing g np next done rest with
  | zero =>
    have := length_pos_of_mem hnp
    omega
  | succ fuel ih =>
    rw [pruneLoop]
    obtain ⟨hdeg, hnone⟩ | ⟨o, ho, ⟨hdeg, hone⟩ | ⟨hdeg, htwo⟩⟩ := degreeKind_spec hnp
    · -- its neighbours, of which there are none, have lost nothing
      obtain ⟨next', done', rest', hnext, hat', hle, hsub⟩ := hat.delete hnp
      rw [hdeg, ok_bind]
      simp only [if_true, hnext, ok_bind, agdelete, if_pos hnp]
      refine ⟨_, _, rfl, hred.delete ?_, done', rest', hat', hle, fun u hu => ?_⟩
      · exact fun ⟨a, _, _, ha, _⟩ => hnone a ha
      · have hu' := hat'.not_mem hu
        exact (hdone u (hsub u hu) hu').without hu' (hnone u)
    · obtain ⟨next', done', rest', hnext, hat', hle, hsub⟩ := hat.delete hnp
      rw [hdeg, ok_bind]
      simp only [one_ne_zero, if_true, if_false, hnext, ok_bind, agdelete, if_pos hnp]
      have hlt := length_without hnp
      have hnot : ¬HasTwo g np := fun ⟨a, b, hab, ha, hb⟩ =>
        hab ((hone a ha).trans (hone b hb).symm)
      have hdone' : DoneBut (without g np) done' o := fun u hu huo => by
        have hu' := hat'.not_mem hu
        exact (hdone u (hsub u hu) hu').without hu' fun hn => huo (hone u hn)
      obtain ⟨g', next'', hrun, hred', done'', rest'', hat'', hle', hall⟩ := ih (by omega)
        (mem_without.2 ⟨ho.mem, ho.1.symm⟩) (hred.delete hnot) hat' hdone'
      exact ⟨g', next'', hrun, hred', done'', rest'', hat'', hle'.trans hle, hall⟩
    · rw [hdeg, ok_bind]
      simp only [succ_ne_zero, OfNat.ofNat_ne_one, if_false]
      refine ⟨g, next, rfl, hred, done, rest, hat, le_rfl, fun u hu => ?_⟩
      obtain rfl | hne := eq_or_ne u np
      · exact htwo
      · exact hdone u hu hne

omit [DecidableEq V] in
/-- When all nodes have been passed all have two neighbours. -/
theorem At.finish (h : At g none done rest) (hdone : ∀ u ∈ done, HasTwo g u) :
    ∀ u ∈ g.nodes, HasTwo g u := by
  have hnodes := h.nodes
  rw [head?_eq_none_iff.1 h.next, append_nil] at hnodes
  exact fun u hu => hdone u (hnodes ▸ hu)

theorem reduceLoop_spec {fuel : ℕ} (hfuel : rest.length ≤ fuel) (hred : Reduced G g)
    (hat : At g next done rest) (hdone : ∀ u ∈ done, HasTwo g u) :
    ∃ g', reduceLoop fuel g next = .ok g' ∧ Reduced G g' ∧ ∀ u ∈ g'.nodes, HasTwo g' u := by
  induction fuel generalizing g next done rest with
  | zero =>
    have hnext := hat.next
    rw [length_eq_zero_iff.1 (le_zero.1 hfuel), head?_nil] at hnext
    subst hnext
    exact ⟨g, rfl, hred, hat.finish hdone⟩
  | succ fuel ih =>
    cases rest with
    | nil =>
      have hnext := hat.next
      rw [head?_nil] at hnext
      subst hnext
      exact ⟨g, rfl, hred, hat.finish hdone⟩
    | cons np rest =>
      have hnext := hat.next
      rw [head?_cons] at hnext
      subst hnext
      have hnp : np ∈ g.nodes := hat.nodes ▸ mem_append_right _ mem_cons_self
      have hrest : rest.length ≤ fuel := le_of_succ_le_succ hfuel
      -- the node is passed, and may be deleted behind the one to visit next
      have hat' : At g rest.head? (done ++ [np]) rest :=
        ⟨by rw [hat.nodes, append_assoc, singleton_append], rfl⟩
      have hnot : rest.head? ≠ some np := by
        intro heq
        have hnodup := g.nodup
        rw [hat.nodes, nodup_append, nodup_cons] at hnodup
        exact hnodup.2.1.1 (mem_of_head? heq)
      obtain ⟨next', done', rest', hkeep, hat'', hle, hsub⟩ := hat'.delete hnp
      rw [skip, if_neg hnot, Except.ok.injEq] at hkeep
      subst hkeep
      have hdone' : ∀ u ∈ done', u ∈ done ∧ u ≠ np := fun u hu => by
        have hu' := hsub u hu
        rw [mem_append, mem_singleton] at hu'
        exact ⟨hu'.resolve_right (hat''.not_mem hu), hat''.not_mem hu⟩
      rw [reduceLoop, agnxtnode_eq hat.nodes, ok_bind]
      obtain ⟨hdeg, hnone⟩ | ⟨o, ho, ⟨hdeg, hone⟩ | ⟨hdeg, htwo⟩⟩ := degreeKind_spec hnp
      · rw [hdeg, ok_bind]
        simp only [if_true, agdelete, if_pos hnp, ok_bind]
        refine ih (hle.trans hrest) (hred.delete fun ⟨a, _, _, ha, _⟩ => hnone a ha) hat''
          fun u hu => ?_
        exact (hdone u (hdone' u hu).1).without (hdone' u hu).2 (hnone u)
      · rw [hdeg, ok_bind]
        simp only [one_ne_zero, if_true, if_false, agdelete, if_pos hnp, ok_bind, prune]
        obtain ⟨g', next', hrun, hred', done'', rest'', hat2, hle', hall⟩ := pruneLoop_spec
          (le_succ _) (mem_without.2 ⟨ho.mem, ho.1.symm⟩)
          (hred.delete fun ⟨a, b, hab, ha, hb⟩ => hab ((hone a ha).trans (hone b hb).symm)) hat''
          fun u hu huo => (hdone u (hdone' u hu).1).without (hdone' u hu).2 fun hn =>
            huo (hone u hn)
        rw [hrun, ok_bind]
        exact ih ((hle'.trans hle).trans hrest) hred' hat2 hall
      · rw [hdeg, ok_bind]
        simp only [succ_ne_zero, OfNat.ofNat_ne_one, if_false]
        refine ih hrest hred hat' fun u hu => ?_
        rw [mem_append, mem_singleton] at hu
        obtain hu | rfl := hu
        · exact hdone u hu
        · exact htwo

/-- The reduction returns, and leaves the largest set in which every node has two neighbours. -/
theorem reduce_spec (G : graph_t V K) :
    ∃ g, reduce G = .ok g ∧ IsGreatest {S | TwoNeighbours G S} {v | v ∈ g.nodes} := by
  have hstart : At G (agfstnode G) [] G.nodes := ⟨(nil_append G.nodes).symm, rfl⟩
  obtain ⟨g, hrun, hred, htwo⟩ := reduceLoop_spec le_rfl (.refl G) hstart
    (nofun : ∀ u ∈ [], HasTwo G u)
  refine ⟨g, hrun, ⟨hred.nodes, fun u hu => ?_⟩, fun S hS v hv => hred.core S hS v hv⟩
  obtain ⟨a, b, hab, ha, hb⟩ := htwo u hu
  exact ⟨a, ha.mem, b, hb.mem, hab, hred.sub u a ha, hred.sub u b hb⟩

variable [Field K] [LinearOrder K]

/-- With `Reduce` set the nodes that `scan_graph_mode` leaves are the largest set in which every
node has at least two neighbours, and no node is touched that has been deleted. -/
theorem scan_graph_mode_core (sqrt : K → K) (Epsilon : K) (defaultdist : Option K)
    (G : graph_t V K) (mode : Mode) :
    ∃ s, scan_graph_mode sqrt Epsilon defaultdist true G mode = .ok s ∧
      IsGreatest {S | TwoNeighbours G S} {v | v ∈ s.G.nodes} := by
  obtain ⟨g, hrun, hcore⟩ := reduce_spec G
  rw [scan_graph_mode, if_pos rfl, hrun, ok_bind]
  exact ⟨_, rfl, hcore⟩

end Graphviz.Spring
