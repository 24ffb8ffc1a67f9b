import Graphviz.Library.Instances
import Graphviz.Neatogen.DijkstraRun
import Graphviz.Neatogen.ExtractAdjacency

/-!
# What Dijkstra's algorithm finds

Before its loop the search gives a neighbour of the source the length of the last edge to it. So the
distances are right exactly when no edge that is lost that way was needed. `ngdijkstra` moreover
cuts the lengths to integers, and has a number for the vertices that it does not find only when it
finds another vertex.
-/

namespace Graphviz.Dijkstra

open Function List Outcome ShortestPath

section Search

variable {n : ℕ} {K A : Type} [AddZeroClass K] [LinearOrder K] [AddLeftMono K] [AddRightMono K]
  {V : Variant n K A} {adj : Fin n → List (Fin n × K)} {source v : Fin n} {dist : Fin n → K}
  {order : List (Fin n)} {acc₀ : A} {x : K}

/-- The index and the array of the heap are inverse to each other. -/
def heap.Inverse (h : heap n) : Prop :=
  (∀ i < h.heapSize, h.index (h.data i) = i) ∧
    ∀ v, (∃ i < h.heapSize, h.data i = v) → h.index v < h.heapSize ∧ h.data (h.index v) = v

omit [AddZeroClass K] [LinearOrder K] [AddLeftMono K] [AddRightMono K] in
theorem Holds.heapInverse {h : heap n} {Q : Fin n → Prop} (h' : Holds h Q) : h.Inverse := by
  refine ⟨fun i hi => (h'.inverse.1 i hi).2, ?_⟩
  rintro v ⟨i, hi, rfl⟩
  exact h'.inverse.2 _ (h'.inverse.1 i hi).1

/-- The vertex can be reached. -/
def Reachable (adj : Fin n → List (Fin n × K)) (source v : Fin n) : Prop :=
  ∃ x, Walk (edge adj) source v x

/-- The search ends with the distances of all vertices that can be reached, and the heap is as it
should be throughout. -/
def Correct (V : Variant n K A) (adj : Fin n → List (Fin n × K)) (source : Fin n)
    (acc₀ : A) : Prop :=
  (∀ k r, search V adj source acc₀ k = .ok r → r.heap.Inverse) ∧
    ∃ k r, search V adj source acc₀ k = .ok r ∧ r.pc = .ret ∧
      ∀ v, Reachable adj source v → Shortest (edge adj) source v (r.dist v)

/-- For every edge from the source, also for one with another edge to the same vertex after it,
there is a way over edges that the search keeps and that is not longer. -/
def Covered (adj : Fin n → List (Fin n × K)) (source : Fin n) : Prop :=
  ∀ v w, (v, w) ∈ adj source → ∃ x ≤ w, Walk (kept adj source) source v x

/-- Every vertex that can be reached can be reached within the largest number. -/
def Bounded (adj : Fin n → List (Fin n × K)) (source : Fin n) (maxDist : K) : Prop :=
  ∀ v, Reachable adj source v → ∃ x ≤ maxDist, Walk (edge adj) source v x

omit [LinearOrder K] [AddLeftMono K] [AddRightMono K] in
theorem edge_walk (h : Walk (kept adj source) source v x) : Walk (edge adj) source v x :=
  h.mono fun _ _ _ => edge_of_kept

/-- Every walk has one over edges that the search keeps and that is not longer. -/
theorem Covered.walk (hc : Covered adj source) (hl : Lengths V adj source)
    (h : Walk (edge adj) source v x) : ∃ x' ≤ x, Walk (kept adj source) source v x' := by
  refine h.replace hl.kept_nonneg fun u v w he => ?_
  obtain rfl | hne := eq_or_ne u source
  · exact .inr (hc v w he)
  · exact .inl ((kept_of_ne hne).2 he)

/-- Where all numbers fit, the search is right exactly when the edges that it keeps are enough and
no distance is above the largest number. -/
theorem correct_iff (hl : Lengths V adj source) (hfits : ∀ x, V.fits x)
    (hle : ∀ e ∈ adj source, e.2 ≤ V.maxDist) :
    Correct V adj source acc₀ ↔ Covered adj source ∧ Bounded adj source V.maxDist := by
  constructor
  · rintro ⟨-, k, r, hok, hret, hright⟩
    obtain ⟨order, hf, -⟩ := search_found hl hok hret
    refine ⟨fun v w he => ?_, fun v hv => ⟨_, hf.le_max v, (hright v hv).1⟩⟩
    have hwalk := Walk.snoc (w := edge adj) .nil he
    rw [zero_add] at hwalk
    have hshort := (hright v ⟨w, hwalk⟩).2 w hwalk
    obtain hmax | hkept := hf.found v
    · obtain ⟨w', hlast⟩ := lastTo_of_mem he
      have hwalk' := Walk.snoc .nil (kept_source.2 hlast)
      rw [zero_add] at hwalk'
      exact ⟨w', (hle _ (mem_of_lastTo hlast)).trans (hmax ▸ hshort), hwalk'⟩
    · exact ⟨_, hshort, hkept⟩
  · rintro ⟨hc, hb⟩
    obtain ⟨k, r, hok, hret⟩ := (search_ret_iff hl acc₀).2 fun u d _ _ e _ => ⟨hfits _, hfits _⟩
    obtain ⟨order, hf, -⟩ := search_found hl hok hret
    refine ⟨fun k r hok => ?_, k, r, hok, hret, fun v hv => ?_⟩
    · obtain ⟨Q, hholds⟩ := search_inverse hl hok
      exact hholds.heapInverse
    · have hnearest : Nearest (edge adj) source v (r.dist v) := by
        intro x hx
        obtain ⟨x', hle', hwalk⟩ := hc.walk hl hx
        exact (hf.nearest v x' hwalk).trans hle'
      refine ⟨?_, hnearest⟩
      obtain hmax | hkept := hf.found v
      · obtain ⟨x, hx, hwalk⟩ := hb v hv
        rwa [hmax, le_antisymm (hmax ▸ hnearest x hwalk) hx]
      · exact edge_walk hkept

end Search

/-! ## `ngdijkstra` -/

section Integers

variable {n : ℕ} {g : vtx_data n ℚ} {source v : Fin n} {r : Run n ℤ ℤ} {dist : Fin n → ℤ}
  {order : List (Fin n)} {x : ℤ} {k : ℕ}

/-- The edges with their lengths as `DistType`. -/
abbrev cutEdges (g : vtx_data n ℚ) (u : Fin n) : List (Fin n × ℤ) :=
  cut (g.edges u)

/-- The lengths over the edges that `ngdijkstra` keeps, as `DistType`. -/
abbrev keptCut (g : vtx_data n ℚ) (source : Fin n) : Fin n → Fin n → ℤ → Prop :=
  kept (cutEdges g) source

/-- There is no way to the vertex below `MAX_DIST`. -/
def Lost (g : vtx_data n ℚ) (source v : Fin n) : Prop :=
  ∀ x, Walk (keptCut g source) source v x → MAX_DIST ≤ x

/-- The distance of the vertex that is farthest of those that are not lost, apart from the
source. -/
def Farthest (g : vtx_data n ℚ) (source : Fin n) (f : ℤ) : Prop :=
  (∃ v, v ≠ source ∧ Shortest (keptCut g source) source v f ∧ f < MAX_DIST) ∧
    ∀ v x, Shortest (keptCut g source) source v x → x < MAX_DIST → x ≤ f

/-- `ngdijkstra` ends with the distances of all vertices that can be reached and with a larger
number for the others, and the heap is as it should be throughout. -/
def NgCorrect (g : vtx_data n ℚ) (source : Fin n) : Prop :=
  (∀ k r, ngdijkstra source g k = .ok r → r.heap.Inverse) ∧
    ∃ k r dist, ngdijkstra source g k = .ok r ∧ r.pc = .ret ∧ disconnected r = .ok dist ∧
      (∀ v, Reachable g.edges source v → Shortest (edge g.edges) source v (dist v : ℚ)) ∧
      ∀ u v, Reachable g.edges source u → ¬Reachable g.edges source v → dist u < dist v

/-- When `ngdijkstra` is right: the sums fit, the distances below `MAX_DIST` over the edges and
lengths that it uses are those of the graph, and either no vertex is lost, or there is another
vertex than the source that is not, there is room for ten more than the farthest of them, and the
lost vertices cannot be reached (or all of them are just that far). -/
structure NgCondition (g : vtx_data n ℚ) (source : Fin n) : Prop where
  fits : Fits (@intVariant n) (cutEdges g) source
  exact : ∀ v x, Shortest (keptCut g source) source v x → x < MAX_DIST →
    Shortest (edge g.edges) source v (x : ℚ)
  lost : (∀ v, ¬Lost g source v) ∨ ∃ f, Farthest g source f ∧ fitsInt (f + 10) ∧
    ((∀ v, Lost g source v → ¬Reachable g.edges source v) ∨
      ∀ v, Lost g source v → Shortest (edge g.edges) source v ((f + 10 : ℤ) : ℚ))

theorem mem_cut {es : List (Fin n × ℚ)} {e : Fin n × ℤ} :
    e ∈ cut es ↔ ∃ q, (e.1, q) ∈ es ∧ ⌊q⌋ = e.2 := by
  rw [cut, mem_map]
  constructor
  · rintro ⟨e, he, rfl⟩
    exact ⟨e.2, he, rfl⟩
  · rintro ⟨q, hq, heq⟩
    exact ⟨_, hq, Prod.ext rfl heq⟩

theorem fitsInt_iff : fitsInt x ↔ -2 ^ 31 ≤ x ∧ x < 2 ^ 31 := decide_eq_true_iff

theorem lengths_cut (g : vtx_data n ℚ) (source : Fin n) :
    Lengths (@intVariant n) (cutEdges g) source where
  pos := show (0 : ℤ) < MAX_DIST by decide
  nonneg u e he := by
    obtain ⟨q, hq, heq⟩ := mem_cut.1 he
    rw [← heq]
    exact Int.floor_nonneg.2 (g.nonneg u _ hq)
  le_max u e _ hfits := Int.le_sub_one_of_lt (fitsInt_iff.1 hfits).2
  loopless e he := by
    obtain ⟨q, hq, -⟩ := mem_cut.1 he
    exact g.loopless source _ hq

/-- A walk over edges with their lengths as integers is one of the graph. -/
theorem reachable_of_walk (h : Walk (keptCut g source) source v x) :
    Reachable g.edges source v := by
  induction h with
  | nil => exact ⟨0, .nil⟩
  | snoc _ hc ih =>
    obtain ⟨y, hy⟩ := ih
    obtain ⟨q, hq, -⟩ := mem_cut.1 (edge_of_kept hc)
    exact ⟨y + q, .snoc hy hq⟩

/-- The last loop changes the vertices of a list that are not found, if there are any. -/
theorem setUnconnected_spec (prev : ℤ) (l : List (Fin n)) (dist : Fin n → ℤ) :
    ((∀ i ∈ l, dist i ≠ MAX_DIST) ∨ fitsInt (prev + 10)) ∧
      l.foldlM (setUnconnected prev) dist =
        .ok (fun v => if v ∈ l ∧ dist v = MAX_DIST then prev + 10 else dist v) ∨
    (∃ i ∈ l, dist i = MAX_DIST) ∧ ¬fitsInt (prev + 10) ∧
      l.foldlM (setUnconnected prev) dist = .error .abort := by
  induction l generalizing dist with
  | nil =>
    refine .inl ⟨.inl fun i hi => absurd hi not_mem_nil, congrArg Except.ok ?_⟩
    funext v
    exact (if_neg fun h => not_mem_nil h.1).symm
  | cons i l ih =>
    rw [foldlM_cons, setUnconnected]
    obtain hmax | hmax := eq_or_ne (dist i) MAX_DIST
    · rw [if_pos hmax]
      obtain ⟨hfits, hok⟩ | ⟨hfits, herr⟩ := num_cases (@intVariant n) (prev + 10)
      · rw [hok]
        obtain ⟨-, hrest⟩ | ⟨-, hnot, -⟩ := ih (update dist i (prev + 10))
        · refine .inl ⟨.inr hfits, hrest.trans (congrArg Except.ok ?_)⟩
          funext v
          obtain rfl | hv := eq_or_ne v i
          · rw [update_self, ite_self, if_pos ⟨mem_cons_self, hmax⟩]
          · simp only [update_of_ne hv, mem_cons, hv, false_or]
        · exact absurd hfits hnot
      · rw [herr]
        exact .inr ⟨⟨i, mem_cons_self, hmax⟩, hfits, rfl⟩
    · rw [if_neg hmax, ok_bind]
      obtain ⟨hcond, hrest⟩ | ⟨⟨j, hj, hjmax⟩, hnot, hrest⟩ := ih dist
      · refine .inl ⟨hcond.imp (fun hall => forall_mem_cons.2 ⟨hmax, hall⟩) id,
          hrest.trans (congrArg Except.ok ?_)⟩
        funext v
        obtain rfl | hv := eq_or_ne v i
        · rw [if_neg fun h => hmax h.2, if_neg fun h => hmax h.2]
        · simp only [mem_cons, hv, false_or]
      · exact .inr ⟨⟨j, mem_cons_of_mem i hj, hjmax⟩, hnot, hrest⟩

/-- The distances after the last loop. -/
theorem disconnected_eq_ok : disconnected r = .ok dist ↔
    ((∀ i, r.dist i ≠ MAX_DIST) ∨ fitsInt (r.acc + 10)) ∧
      dist = fun v => if r.dist v = MAX_DIST then r.acc + 10 else r.dist v := by
  have hall : ∀ v, v ∈ finRange n := mem_finRange
  rw [disconnected]
  rcases setUnconnected_spec r.acc (finRange n) r.dist with
    ⟨hcond, hok⟩ | ⟨⟨i, -, hi⟩, hnot, herr⟩
  · rw [hok]
    simp only [hall, forall_const, true_and] at hcond ⊢
    rw [and_iff_right hcond]
    exact ⟨fun heq => (Except.ok.inj heq).symm, fun heq => congrArg Except.ok heq.symm⟩
  · rw [herr]
    refine iff_of_false (by simp) fun h => ?_
    exact h.1.elim (fun hne => hne i hi) hnot

/-- A vertex that is found has its distance. -/
theorem shortest_of_lt (hf : Found (@intVariant n) (cutEdges g) source dist order)
    (hlt : dist v < MAX_DIST) : Shortest (keptCut g source) source v (dist v) :=
  ⟨(hf.found v).resolve_left hlt.ne, hf.nearest v⟩

theorem dist_of_shortest (hf : Found (@intVariant n) (cutEdges g) source dist order)
    (h : Shortest (keptCut g source) source v x) (hx : x < MAX_DIST) : dist v = x := by
  have hle := hf.nearest v x h.1
  exact (shortest_of_lt hf (hle.trans_lt hx)).unique h

/-- A vertex is lost when the search does not find it. -/
theorem lost_iff (hf : Found (@intVariant n) (cutEdges g) source dist order) :
    Lost g source v ↔ dist v = MAX_DIST := by
  constructor
  · intro hlost
    obtain hmax | hwalk := hf.found v
    · exact hmax
    · exact le_antisymm (hf.le_max v) (hlost _ hwalk)
  · intro heq x hwalk
    exact heq ▸ hf.nearest v x hwalk

/-- The last vertex that is found is the farthest. -/
theorem farthest_of_found (hf : Found (@intVariant n) (cutEdges g) source dist order) :
    order = [] ∧ visits intVariant dist order MAX_DIST = MAX_DIST ∨
      Farthest g source (visits intVariant dist order MAX_DIST) := by
  obtain rfl | ⟨l, x, rfl⟩ := eq_nil_or_concat order
  · exact .inl ⟨rfl, rfl⟩
  · have hx := (hf.mem_order x).1
      (concat_eq_append ▸ mem_append_right _ mem_cons_self)
    rw [concat_eq_append, visits_append]
    refine .inr ⟨⟨x, hx.1, shortest_of_lt hf hx.2, hx.2⟩, fun v y hv hy => ?_⟩
    change y ≤ dist x
    rw [← dist_of_shortest hf hv hy]
    obtain rfl | hne := eq_or_ne v source
    · rw [hf.source_zero]
      exact (shortest_of_lt hf hx.2).1.nonneg (lengths_cut g v).kept_nonneg
    · have hmem := (hf.mem_order v).2 ⟨hne, (dist_of_shortest hf hv hy).trans_lt hy⟩
      have hsorted := hf.sorted
      rw [concat_eq_append] at hmem hsorted
      obtain hmem | hmem := mem_append.1 hmem
      · exact (pairwise_append.1 hsorted).2.2 v hmem x mem_cons_self
      · rw [mem_singleton.1 hmem]

theorem Farthest.acc {f : ℤ} (hf : Found (@intVariant n) (cutEdges g) source dist order)
    (h : Farthest g source f) : visits intVariant dist order MAX_DIST = f := by
  obtain ⟨⟨v, hv, hshort, hlt⟩, hmax⟩ := h
  obtain ⟨rfl, -⟩ | ⟨⟨u, -, hu, hult⟩, hmax'⟩ := farthest_of_found hf
  · refine absurd ((hf.mem_order v).2 ⟨hv, ?_⟩) not_mem_nil
    exact (dist_of_shortest hf hshort hlt).trans_lt hlt
  · exact le_antisymm (hmax u _ hu hult) (hmax' v f hshort hlt)

/-- The condition is necessary. -/
theorem NgCorrect.condition (h : NgCorrect g source) : NgCondition g source := by
  obtain ⟨-, k, r, dist, hok, hret, hdis, hreach, hless⟩ := h
  have hl := lengths_cut g source
  obtain ⟨order, hf, hacc⟩ := search_found hl hok hret
  obtain ⟨hcond, rfl⟩ := disconnected_eq_ok.1 hdis
  beta_reduce at hreach hless
  refine ⟨(search_ret_iff hl MAX_DIST).1 ⟨k, r, hok, hret⟩, fun v x hshort hx => ?_, ?_⟩
  · have heq := dist_of_shortest hf hshort hx
    have hright := hreach v (reachable_of_walk hshort.1)
    rwa [if_neg (heq.trans_lt hx).ne, heq] at hright
  obtain ⟨v, hv⟩ | hnone := Classical.em (∃ v, Lost g source v)
  · have hfits := hcond.resolve_left fun hall => hall v ((lost_iff hf).1 hv)
    have hfar : Farthest g source r.acc := by
      obtain ⟨-, hmax⟩ | hfar := farthest_of_found hf
      · rw [hacc, hmax] at hfits
        exact absurd hfits (by decide)
      · exact hacc ▸ hfar
    refine .inr ⟨_, hfar, hfits, ?_⟩
    obtain ⟨u, hu⟩ | hall := Classical.em (∃ u, ¬Reachable g.edges source u)
    · refine .inl fun w hw hwr => ?_
      have hulost : Lost g source u := fun x hx => absurd (reachable_of_walk hx) hu
      have hlt := hless w u hwr hu
      rw [if_pos ((lost_iff hf).1 hw), if_pos ((lost_iff hf).1 hulost)] at hlt
      exact lt_irrefl _ hlt
    · refine .inr fun w hw => ?_
      have hright := hreach w (by_contra fun hwr => hall ⟨w, hwr⟩)
      rwa [if_pos ((lost_iff hf).1 hw)] at hright
  · exact .inl fun v hv => hnone ⟨v, hv⟩

/-- The condition is sufficient. -/
theorem NgCondition.correct (h : NgCondition g source) : NgCorrect g source := by
  have hl := lengths_cut g source
  obtain ⟨k, r, hok, hret⟩ := (search_ret_iff hl MAX_DIST).2 h.fits
  obtain ⟨order, hf, hacc⟩ := search_found hl hok hret
  have hfound : ∀ v, ¬Lost g source v → r.dist v < MAX_DIST := fun v hv =>
    lt_of_le_of_ne (hf.le_max v) fun heq => hv ((lost_iff hf).2 heq)
  have hright : ∀ v, ¬Lost g source v →
      Shortest (edge g.edges) source v (r.dist v : ℚ) := fun v hv =>
    h.exact v _ (shortest_of_lt hf (hfound v hv)) (hfound v hv)
  have hlost : ∀ v, ¬Reachable g.edges source v → Lost g source v := fun v hv x hx =>
    absurd (reachable_of_walk hx) hv
  refine ⟨fun k r hok => ?_, k, r, _, hok, hret, disconnected_eq_ok.2 ⟨?_, rfl⟩, fun v hv => ?_,
    fun u v hu hv => ?_⟩
  · obtain ⟨Q, hholds⟩ := search_inverse hl hok
    exact hholds.heapInverse
  · obtain hnone | ⟨f, hfar, hfits, -⟩ := h.lost
    · exact .inl fun i => (hfound i (hnone i)).ne
    · rw [hacc, hfar.acc hf]
      exact .inr hfits
  · obtain hv' | hv' := Classical.em (Lost g source v)
    · rw [if_pos ((lost_iff hf).1 hv')]
      obtain hnone | ⟨f, hfar, -, hnot | hsame⟩ := h.lost
      · exact absurd hv' (hnone v)
      · exact absurd hv (hnot v hv')
      · rw [hacc, hfar.acc hf]
        exact hsame v hv'
    · rw [if_neg (hfound v hv').ne]
      exact hright v hv'
  · have hv' := hlost v hv
    obtain hnone | ⟨f, hfar, -, hnot | hsame⟩ := h.lost
    · exact absurd hv' (hnone v)
    · have hu' : ¬Lost g source u := fun hu' => hnot u hu' hu
      rw [if_neg (hfound u hu').ne, if_pos ((lost_iff hf).1 hv'), hacc, hfar.acc hf]
      have hle := hfar.2 u _ (shortest_of_lt hf (hfound u hu')) (hfound u hu')
      omega
    · exact absurd ⟨_, (hsame v hv').1⟩ hv

/-- `ngdijkstra` is right exactly under its condition. -/
theorem ngCorrect_iff (g : vtx_data n ℚ) (source : Fin n) :
    NgCorrect g source ↔ NgCondition g source :=
  ⟨NgCorrect.condition, NgCondition.correct⟩

end Integers

/-! ## All three -/

section Floats

variable {n : ℕ} {F : Type} [AddZeroClass F] [LinearOrder F] [One F] [Mul F] [Div F]
  {FLT_MAX : F} {source : Fin n}

/-- `dijkstra_f` ends with the distances of all vertices that can be reached. -/
def FloatCorrect (FLT_MAX : F) (g : vtx_data n F) (source : Fin n) : Prop :=
  Correct (floatVariant FLT_MAX) g.edges source ()

/-- `dijkstra_sgd` ends with the distances of all vertices that can be reached. -/
def SgdCorrect (FLT_MAX : F) (g : graph_sgd n F) (source : Fin n) : Prop :=
  Correct (sgdVariant FLT_MAX g.pinneds source) g.edges source []

omit [One F] [Mul F] [Div F] in
theorem lengths_float (g : vtx_data n F) (hmax : 0 < FLT_MAX)
    (hfinite : ∀ u, ∀ e ∈ g.edges u, e.2 ≤ FLT_MAX) :
    Lengths (floatVariant FLT_MAX) g.edges source :=
  ⟨hmax, g.nonneg, fun u e he _ => hfinite u e he, g.loopless source⟩

theorem lengths_sgd (g : graph_sgd n F) (hmax : 0 < FLT_MAX)
    (hfinite : ∀ u, ∀ e ∈ g.edges u, e.2 ≤ FLT_MAX) :
    Lengths (sgdVariant FLT_MAX g.pinneds source) g.edges source :=
  ⟨hmax, g.nonneg, fun u e he _ => hfinite u e he, g.loopless source⟩

end Floats

/-- The largest number of the type `float`. -/
def fltMax : ℚ := 2 ^ 128 - 2 ^ 104

theorem fltMax_large : (5 : ℚ) ≤ fltMax := by norm_num [fltMax]

theorem fltMax_pos : 0 < fltMax := by linarith only [fltMax_large]

/-- Two vertices without edges. -/
def apart : vtx_data 2 ℚ where
  edges _ := []
  nonneg _ _ he := absurd he not_mem_nil
  loopless _ _ he := absurd he not_mem_nil

theorem fin_two (v : Fin 2) : v = 0 ∨ v = 1 := by
  revert v
  decide

attribute [local instance] Instances.neZero_two

/-- Two nodes with an edge of length `1` and then one of length `5`. -/
def parallel : graph_t 2 ℚ where
  edges _ := [⟨0, 1, 1⟩, ⟨0, 1, 5⟩]
  isFixed _ := false
  ends i e he := by
    obtain rfl | he := mem_cons.1 he
    · exact (fin_two i).imp Eq.symm Eq.symm
    · obtain rfl := mem_singleton.1 he
      exact (fin_two i).imp Eq.symm Eq.symm
  both _ _ he := ⟨he, he⟩

/-- The edge of length `5` is kept to the other node, and that of length `1` is lost. -/
theorem parallel_walk {adj : Fin 2 → List (Fin 2 × ℚ)} (hadj : ∀ v, adj v = parallel.arcs v)
    {v : Fin 2} {x : ℚ} (h : Walk (kept adj 0) 0 v x) : 0 ≤ x ∧ (v = 1 → 5 ≤ x) := by
  induction h with
  | nil => exact ⟨le_rfl, fun heq => absurd heq (by decide)⟩
  | @snoc u v x c h hc ih =>
    obtain rfl | rfl := fin_two u
    · rw [kept_source, hadj] at hc
      obtain rfl | rfl := fin_two v
      · exact absurd hc (Option.some_ne_none c).symm
      · obtain rfl : (5 : ℚ) = c := Option.some.inj hc
        exact ⟨by linarith only [ih.1], fun _ => by linarith only [ih.1]⟩
    · rw [kept_of_ne (by decide), hadj] at hc
      obtain heq | hc := mem_cons.1 hc
      · obtain ⟨rfl, rfl⟩ := Prod.ext_iff.1 heq
        exact ⟨by linarith only [ih.1], fun heq => absurd heq (by decide)⟩
      · obtain ⟨rfl, rfl⟩ := Prod.ext_iff.1 (mem_singleton.1 hc)
        exact ⟨by linarith only [ih.1], fun heq => absurd heq (by decide)⟩

/-- Without an edge there is no way to the other vertex. -/
theorem apart_walk {v : Fin 2} {x : ℤ} (h : Walk (keptCut apart 0) 0 v x) : v = 0 := by
  cases h with
  | nil => rfl
  | snoc _ hc => exact absurd (edge_of_kept hc) not_mem_nil

/-- Two vertices without edges, for `dijkstra_sgd`. -/
def apartSgd : graph_sgd 2 ℚ where
  sources _ := 0
  arcs := []
  pinneds _ := false
  nonneg _ _ he := absurd he not_mem_nil
  loopless _ _ he := absurd he not_mem_nil

end Graphviz.Dijkstra
