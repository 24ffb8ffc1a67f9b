import Mathlib.Combinatorics.SimpleGraph.Acyclic

/-!
# The blocks of a graph

A set of vertices is nonseparable when it is linked by edges inside it and stays so without any one
of its vertices; the largest such sets with two vertices are the blocks. When a list of nonseparable
sets has every edge of the graph in one of them, and each of them has at most one vertex in common
with all that come after it, then these are the blocks, and the graph that joins the blocks to their
vertices has no cycle.
-/

namespace Blocks

open List Relation

universe u

variable {α : Type u} {r : α → α → Prop} {X Y : Set α} {x y z : α}

/-! ## Linked sets -/

/-- The vertices are linked by edges between vertices of the set. -/
def Within (r : α → α → Prop) (X : Set α) : α → α → Prop :=
  ReflTransGen fun a b => r a b ∧ a ∈ X ∧ b ∈ X

/-- Any two vertices of the set are linked in it. -/
def Linked (r : α → α → Prop) (X : Set α) : Prop :=
  ∀ x ∈ X, ∀ y ∈ X, Within r X x y

/-- The set is linked, also without one of its vertices. -/
def Nonseparable (r : α → α → Prop) (X : Set α) : Prop :=
  Linked r X ∧ ∀ w ∈ X, Linked r (X \ {w})

/-- A block: a largest nonseparable set with at least two vertices. -/
def IsBlock (r : α → α → Prop) (X : Set α) : Prop :=
  X.Nontrivial ∧ Nonseparable r X ∧ ∀ Y, Nonseparable r Y → X ⊆ Y → Y ⊆ X

/-- A biconnected component: a largest nonseparable set. This is a block, or a vertex that has no
edge to another one. -/
def IsComponent (r : α → α → Prop) (X : Set α) : Prop :=
  X.Nonempty ∧ Nonseparable r X ∧ ∀ Y, Nonseparable r Y → X ⊆ Y → Y ⊆ X

theorem Within.mono (hXY : X ⊆ Y) (h : Within r X x y) : Within r Y x y :=
  ReflTransGen.mono (fun _ _ hab => ⟨hab.1, hXY hab.2.1, hXY hab.2.2⟩) x y h

theorem Within.symm (hr : ∀ a b, r a b → r b a) (h : Within r X x y) : Within r X y x := by
  induction h with
  | refl => exact .refl
  | tail _ hbc ih => exact .head ⟨hr _ _ hbc.1, hbc.2.2, hbc.2.1⟩ ih

/-- Loops do not matter. -/
theorem Within.congr {r' : α → α → Prop} (hr : ∀ a b, a ≠ b → r a b → r' a b)
    (h : Within r X x y) : Within r' X x y := by
  induction h with
  | refl => exact .refl
  | @tail b c _ hbc ih =>
    obtain rfl | hne := Classical.em (b = c)
    · exact ih
    · exact ih.tail ⟨hr b c hne hbc.1, hbc.2⟩

theorem Nonseparable.congr {r' : α → α → Prop} (hr : ∀ a b, a ≠ b → r a b → r' a b)
    (h : Nonseparable r X) : Nonseparable r' X :=
  ⟨fun x hx y hy => (h.1 x hx y hy).congr hr,
    fun w hw x hx y hy => (h.2 w hw x hx y hy).congr hr⟩

theorem IsComponent.congr {r' : α → α → Prop} (hr : ∀ a b, a ≠ b → (r a b ↔ r' a b))
    (h : IsComponent r X) : IsComponent r' X :=
  ⟨h.1, h.2.1.congr fun a b hne => (hr a b hne).1,
    fun Y hY => h.2.2 Y (hY.congr fun a b hne => (hr a b hne).2)⟩

theorem IsBlock.isComponent (h : IsBlock r X) : IsComponent r X :=
  ⟨h.1.nonempty, h.2⟩

/-- The only vertex of a graph is a biconnected component. -/
theorem isComponent_singleton (h : ∀ y, y = x) : IsComponent r {x} := by
  refine ⟨Set.singleton_nonempty x, ⟨?_, fun w _ => ?_⟩, fun Y _ _ y _ => h y⟩
  · rintro a - b -
    rw [h a, h b]
    exact .refl
  · rintro a - b -
    rw [h a, h b]
    exact .refl

/-- An edge of the set. -/
theorem Within.edge (h : r x y) (hx : x ∈ X) (hy : y ∈ X) : Within r X x y :=
  .single ⟨h, hx, hy⟩

/-- A set is linked when all its vertices are linked to one. -/
theorem linked_of_center (hr : ∀ a b, r a b → r b a) (h : ∀ x ∈ X, Within r X x z) : Linked r X :=
  fun x hx y hy => (h x hx).trans ((h y hy).symm hr)

/-- On the way from one side of a cut to the other there is an edge across it. -/
theorem Within.crossing {P : α → Prop} (h : Within r X x y) (hx : P x) (hy : ¬P y) :
    ∃ a b, r a b ∧ a ∈ X ∧ b ∈ X ∧ P a ∧ ¬P b := by
  induction h with
  | refl => exact absurd hx hy
  | @tail b c _ hbc ih =>
    obtain hb | hb := Classical.em (P b)
    · exact ⟨b, c, hbc.1, hbc.2.1, hbc.2.2, hb, hy⟩
    · exact ih hb

/-- A linked set with two vertices has an edge. -/
theorem Linked.exists_edge (h : Linked r X) (hX : X.Nontrivial) :
    ∃ a b, r a b ∧ a ∈ X ∧ b ∈ X ∧ a ≠ b := by
  obtain ⟨x, hx, y, hy, hne⟩ := hX
  obtain ⟨a, b, hab, ha, hb, rfl, hbx⟩ := (h x hx y hy).crossing rfl (P := (· = x)) hne.symm
  exact ⟨a, b, hab, ha, hb, fun heq => hbx heq.symm⟩

/-! ## A list of nonseparable sets -/

/-- Nonseparable sets, each with the only vertex in it that the later ones may have too. -/
structure Parts (r : α → α → Prop) (parts : List (Set α × α)) : Prop where
  mem : ∀ b ∈ parts, b.2 ∈ b.1
  nontrivial : ∀ b ∈ parts, b.1.Nontrivial
  nonseparable : ∀ b ∈ parts, Nonseparable r b.1
  pairwise : parts.Pairwise fun b c => ∀ x ∈ b.1, x ∈ c.1 → x = b.2

/-- Every edge is in one of the sets. -/
structure Decomposition (r : α → α → Prop) (parts : List (Set α × α)) : Prop
    extends Parts r parts where
  covered : ∀ x y, r x y → x ≠ y → ∃ b ∈ parts, x ∈ b.1 ∧ y ∈ b.1

variable {parts : List (Set α × α)} {b c : Set α × α}

theorem Parts.concat (h : Parts r parts) (hmem : b.2 ∈ b.1) (hnontrivial : b.1.Nontrivial)
    (hnonsep : Nonseparable r b.1) (hnew : ∀ c ∈ parts, ∀ x ∈ c.1, x ∈ b.1 → x = c.2) :
    Parts r (parts ++ [b]) := by
  have hall : ∀ {P : Set α × α → Prop}, (∀ c ∈ parts, P c) → P b → ∀ c ∈ parts ++ [b], P c := by
    intro P hP hb c hc
    obtain hc | hc := mem_append.1 hc
    · exact hP c hc
    · exact mem_singleton.1 hc ▸ hb
  refine ⟨hall h.mem hmem, hall h.nontrivial hnontrivial, hall h.nonseparable hnonsep,
    pairwise_append.2 ⟨h.pairwise, pairwise_singleton _ _, fun c hc d hd => ?_⟩⟩
  exact mem_singleton.1 hd ▸ hnew c hc

/-- The first part that has an edge of a nonseparable set has all of it. -/
theorem Decomposition.subset_part (h : Decomposition r parts) (hX : Nonseparable r X)
    (hX' : X.Nontrivial) : ∃ b ∈ parts, X ⊆ b.1 := by
  classical
  -- the least index of a part with an edge of the set
  have hex : ∃ i, ∃ hi : i < parts.length, ∃ a b, a ≠ b ∧ a ∈ X ∧ b ∈ X ∧
      a ∈ (parts[i]).1 ∧ b ∈ (parts[i]).1 := by
    obtain ⟨a, b, hab, ha, hb, hne⟩ := hX.1.exists_edge hX'
    obtain ⟨p, hp, hap, hbp⟩ := h.covered a b hab hne
    obtain ⟨i, hi, rfl⟩ := mem_iff_getElem.1 hp
    exact ⟨i, hi, a, b, hne, ha, hb, hap, hbp⟩
  obtain ⟨hi, a, b, hne, ha, hb, hai, hbi⟩ := Nat.find_spec hex
  generalize hindex : Nat.find hex = i at hi hai hbi
  have hmem := getElem_mem hi
  refine ⟨parts[i], hmem, fun x hx => by_contra fun hxi => ?_⟩
  -- one end of the edge is not the vertex in common
  obtain ⟨d, hd, hdi, hdu⟩ : ∃ d, d ∈ X ∧ d ∈ (parts[i]).1 ∧ d ≠ (parts[i]).2 := by
    obtain hau | hau := Classical.em (a = (parts[i]).2)
    · exact ⟨b, hb, hbi, fun hbu => hne (hau.trans hbu.symm)⟩
    · exact ⟨a, ha, hai, hau⟩
  have hxu : x ≠ (parts[i]).2 := fun heq => hxi (heq ▸ h.mem _ hmem)
  have hlinked : Linked r (X \ {(parts[i]).2}) := by
    obtain hu | hu := Classical.em ((parts[i]).2 ∈ X)
    · exact hX.2 _ hu
    · rw [Set.sdiff_singleton_eq_self hu]
      exact hX.1
  obtain ⟨e, f, hef, he, hf, hei, hfi⟩ :=
    (hlinked d ⟨hd, hdu⟩ x ⟨hx, hxu⟩).crossing (P := (· ∈ (parts[i]).1)) hdi hxi
  have hne' : e ≠ f := fun heq => hfi (heq ▸ hei)
  obtain ⟨p, hp, hep, hfp⟩ := h.covered e f hef hne'
  obtain ⟨j, hj, rfl⟩ := mem_iff_getElem.1 hp
  have hle : i ≤ j := hindex ▸ Nat.find_min' hex ⟨hj, e, f, hne', he.1, hf.1, hep, hfp⟩
  have hlt : i < j := lt_of_le_of_ne hle fun heq => by
    subst heq
    exact hfi hfp
  exact he.2 (pairwise_iff_getElem.1 h.pairwise i j hi hj hlt e hei hep)

/-- Two parts with two vertices in common are in one place. -/
theorem Decomposition.index_eq (h : Decomposition r parts) {i j : ℕ} (hi : i < parts.length)
    (hj : j < parts.length) (hne : x ≠ y) (hxi : x ∈ (parts[i]).1) (hyi : y ∈ (parts[i]).1)
    (hxj : x ∈ (parts[j]).1) (hyj : y ∈ (parts[j]).1) : i = j := by
  have hpairwise := pairwise_iff_getElem.1 h.pairwise
  obtain hlt | heq | hlt := lt_trichotomy i j
  · exact absurd ((hpairwise i j hi hj hlt x hxi hxj).trans
      (hpairwise i j hi hj hlt y hyi hyj).symm) hne
  · exact heq
  · exact absurd ((hpairwise j i hj hi hlt x hxj hxi).trans
      (hpairwise j i hj hi hlt y hyj hyi).symm) hne

/-- The parts are the blocks. -/
theorem Decomposition.isBlock_iff (h : Decomposition r parts) :
    IsBlock r X ↔ ∃ b ∈ parts, b.1 = X := by
  constructor
  · rintro ⟨hX', hX, hmax⟩
    obtain ⟨b, hb, hsub⟩ := h.subset_part hX hX'
    exact ⟨b, hb, (hmax _ (h.nonseparable b hb) hsub).antisymm hsub⟩
  · rintro ⟨b, hb, rfl⟩
    refine ⟨h.nontrivial b hb, h.nonseparable b hb, fun Y hY hsub => ?_⟩
    obtain ⟨c, hc, hYc⟩ := h.subset_part hY ((h.nontrivial b hb).mono hsub)
    obtain ⟨x, hx, y, hy, hne⟩ := h.nontrivial b hb
    obtain ⟨i, hi, rfl⟩ := mem_iff_getElem.1 hb
    obtain ⟨j, hj, rfl⟩ := mem_iff_getElem.1 hc
    have heq := h.index_eq hi hj hne hx hy (hYc (hsub hx)) (hYc (hsub hy))
    subst heq
    exact hYc

/-- No block is there twice. -/
theorem Decomposition.pairwise_ne (h : Decomposition r parts) :
    parts.Pairwise fun b c => b.1 ≠ c.1 := by
  refine pairwise_iff_getElem.2 fun i j hi hj hlt heq => ?_
  obtain ⟨x, hx, y, hy, hne⟩ := h.nontrivial _ (getElem_mem hi)
  exact hlt.ne (h.index_eq hi hj hne hx hy (heq ▸ hx) (heq ▸ hy))

/-- The vertex is in two blocks. -/
def Articulation (r : α → α → Prop) (x : α) : Prop :=
  ∃ X Y, IsBlock r X ∧ IsBlock r Y ∧ X ≠ Y ∧ x ∈ X ∧ x ∈ Y

/-- A vertex in two blocks is the one that the first of them has in common with later ones. -/
theorem Decomposition.eq_of_articulation (h : Decomposition r parts) (hx : Articulation r x) :
    ∃ b ∈ parts, b.2 = x := by
  obtain ⟨X, Y, hX, hY, hne, hxX, hxY⟩ := hx
  obtain ⟨b, hb, rfl⟩ := h.isBlock_iff.1 hX
  obtain ⟨c, hc, rfl⟩ := h.isBlock_iff.1 hY
  obtain ⟨i, hi, rfl⟩ := mem_iff_getElem.1 hb
  obtain ⟨j, hj, rfl⟩ := mem_iff_getElem.1 hc
  have hpairwise := pairwise_iff_getElem.1 h.pairwise
  obtain hlt | rfl | hlt := lt_trichotomy i j
  · exact ⟨_, hb, (hpairwise i j hi hj hlt x hxX hxY).symm⟩
  · exact absurd rfl hne
  · exact ⟨_, hc, (hpairwise j i hj hi hlt x hxY hxX).symm⟩

/-- A vertex is in two blocks when it is the one in common in one and another one in another. -/
theorem Decomposition.articulation (h : Decomposition r parts) (hb : b ∈ parts) (hc : c ∈ parts)
    (hbx : b.2 = x) (hxc : x ∈ c.1) (hcx : c.2 ≠ x) : Articulation r x := by
  subst hbx
  refine ⟨b.1, c.1, h.isBlock_iff.2 ⟨b, hb, rfl⟩, h.isBlock_iff.2 ⟨c, hc, rfl⟩, fun heq => ?_,
    h.mem b hb, hxc⟩
  obtain ⟨u, hu, v, hv, hne⟩ := h.nontrivial b hb
  obtain ⟨i, hi, rfl⟩ := mem_iff_getElem.1 hb
  obtain ⟨j, hj, rfl⟩ := mem_iff_getElem.1 hc
  have hij := h.index_eq hi hj hne hu hv (heq ▸ hu) (heq ▸ hv)
  subst hij
  exact hcx rfl

/-! ## The last part with a vertex -/

open Classical in
/-- The place of the last part that has the vertex. -/
noncomputable def lastPart (parts : List (Set α × α)) (x : α) : ℕ :=
  Nat.findGreatest (fun i => ∃ b, parts[i]? = some b ∧ x ∈ b.1) parts.length

theorem le_lastPart {i : ℕ} (hb : parts[i]? = some b) (hx : x ∈ b.1) : i ≤ lastPart parts x := by
  classical
  exact Nat.le_findGreatest (List.getElem?_eq_some_iff.1 hb).1.le ⟨b, hb, hx⟩

/-- A vertex that later parts may not have is in no later part. -/
theorem Parts.lastPart_eq (h : Parts r parts) {i : ℕ} (hb : parts[i]? = some b) (hx : x ∈ b.1)
    (hne : x ≠ b.2) : lastPart parts x = i := by
  classical
  refine le_antisymm (not_lt.1 fun hlt => hne ?_) (le_lastPart hb hx)
  obtain ⟨c, hc, hxc⟩ := Nat.findGreatest_spec (P := fun i => ∃ b, parts[i]? = some b ∧ x ∈ b.1)
    (List.getElem?_eq_some_iff.1 hb).1.le ⟨b, hb, hx⟩
  obtain ⟨hi, rfl⟩ := List.getElem?_eq_some_iff.1 hb
  obtain ⟨hj, rfl⟩ := List.getElem?_eq_some_iff.1 hc
  exact pairwise_iff_getElem.1 h.pairwise i _ hi hj hlt x hx hxc

/-! ## Graphs without cycles -/

/-- A graph has no cycle when every vertex has at most one neighbour that is not ranked under it. -/
theorem isAcyclic_of_rank {V : Type u} {G : SimpleGraph V} (rank : V → ℕ)
    (h : ∀ v w w', G.Adj v w → G.Adj v w' → rank v ≤ rank w → rank v ≤ rank w' → w = w') :
    G.IsAcyclic := by
  classical
  intro v p hp
  -- the vertex of least rank on the cycle
  obtain ⟨m, hm, hmin⟩ : ∃ m ∈ p.support, ∀ w ∈ p.support, rank m ≤ rank w := by
    obtain ⟨m, hm, hmin⟩ := Finset.exists_min_image p.support.toFinset rank
      ⟨v, mem_toFinset.2 p.start_mem_support⟩
    exact ⟨m, mem_toFinset.1 hm, fun w hw => hmin w (mem_toFinset.2 hw)⟩
  have hsub : ∀ w ∈ (p.rotate m hm).support, rank m ≤ rank w := by
    intro w hw
    obtain rfl | hw := SimpleGraph.Walk.mem_support_iff _ |>.1 hw
    · exact le_rfl
    · exact hmin w (mem_of_mem_tail ((p.support_rotate m hm).perm.mem_iff.1 hw))
  have hq := (SimpleGraph.Walk.isCycle_rotate hm).2 hp
  generalize p.rotate m hm = q at hq hsub
  exact hq.snd_ne_penultimate (h m _ _ (q.adj_snd hq.not_nil) (q.adj_penultimate hq.not_nil).symm
    (hsub _ (q.getVert_mem_support 1)) (hsub _ (q.getVert_mem_support _)))

open Classical in
/-- The rank of a label: a vertex comes after the parts before its last one, and before that. -/
noncomputable def labelRank {V : Type u} (parts : List (Set α × α)) (block : ℕ → V) (vertex : α → V)
    (P : α → Prop) (a : V) : ℕ :=
  if h : ∃ x, P x ∧ vertex x = a then 2 * lastPart parts h.choose
  else if h : ∃ i, block i = a then 2 * h.choose + 1 else 0

/-- The graph that joins the parts to their vertices has no cycle. -/
theorem Parts.isAcyclic {V : Type u} (h : Parts r parts) {R : V → V → Prop} {block : ℕ → V}
    {vertex : α → V} {P : α → Prop} (hblock : Function.Injective block)
    (hvertex : Function.Injective vertex) (hne : ∀ i < parts.length, ∀ x, P x → block i ≠ vertex x)
    (hR : ∀ v w, R v w → ∃ i b x, parts[i]? = some b ∧ x ∈ b.1 ∧ P x ∧ block i = v ∧ vertex x = w) :
    (SimpleGraph.fromRel R).IsAcyclic := by
  have hrank : ∀ x, P x → labelRank parts block vertex P (vertex x) = 2 * lastPart parts x := by
    intro x hx
    have hex : ∃ y, P y ∧ vertex y = vertex x := ⟨x, hx, rfl⟩
    rw [labelRank, dif_pos hex, hvertex hex.choose_spec.2]
  have hrank' : ∀ i < parts.length, labelRank parts block vertex P (block i) = 2 * i + 1 := by
    intro i hi
    have hex : ∃ j, block j = block i := ⟨i, rfl⟩
    rw [labelRank, dif_neg fun ⟨x, hx, heq⟩ => hne i hi x hx heq.symm, dif_pos hex,
      hblock hex.choose_spec]
  refine isAcyclic_of_rank (labelRank parts block vertex P) fun v w w' hw hw' hle hle' => ?_
  rw [SimpleGraph.fromRel_adj] at hw hw'
  rcases hw.2 with hw | hw <;> rcases hw'.2 with hw' | hw'
  · -- a part with two vertices that are not ranked under it
    obtain ⟨i, b, x, hi, hx, hPx, rfl, rfl⟩ := hR _ _ hw
    obtain ⟨j, b', x', hj, hx', hPx', hij, rfl⟩ := hR _ _ hw'
    obtain rfl := hblock hij
    obtain rfl := Option.some.inj (hi.symm.trans hj)
    have hlt := (List.getElem?_eq_some_iff.1 hi).1
    have huniq : ∀ y ∈ b.1, P y → labelRank parts block vertex P (block j) ≤
        labelRank parts block vertex P (vertex y) → y = b.2 := by
      intro y hy hPy hle
      by_contra hyne
      rw [hrank y hPy, hrank' j hlt, h.lastPart_eq hi hy hyne] at hle
      omega
    rw [huniq x hx hPx hle, huniq x' hx' hPx' hle']
  · obtain ⟨i, b, x, hi, -, -, rfl, -⟩ := hR _ _ hw
    obtain ⟨j, b', x', -, -, hPx', -, heq⟩ := hR _ _ hw'
    exact absurd heq.symm (hne i (List.getElem?_eq_some_iff.1 hi).1 x' hPx')
  · obtain ⟨i, b, x, -, -, hPx, -, rfl⟩ := hR _ _ hw
    obtain ⟨j, b', x', hj, -, -, heq, -⟩ := hR _ _ hw'
    exact absurd heq (hne j (List.getElem?_eq_some_iff.1 hj).1 x hPx)
  · -- a vertex in two parts
    obtain ⟨i, b, x, hi, hx, hPx, rfl, rfl⟩ := hR _ _ hw
    obtain ⟨j, b', x', hj, hx', hPx', rfl, heq⟩ := hR _ _ hw'
    obtain rfl := hvertex heq
    rw [hrank x' hPx, hrank' _ (List.getElem?_eq_some_iff.1 hi).1] at hle
    rw [hrank x' hPx, hrank' _ (List.getElem?_eq_some_iff.1 hj).1] at hle'
    have hlei := le_lastPart hi hx
    have hlej := le_lastPart hj hx'
    have hij : i = j := by omega
    rw [hij]

end Blocks
