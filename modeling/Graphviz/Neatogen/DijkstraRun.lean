import Graphviz.Neatogen.Dijkstra

/-!
# The invariant of the search

The search follows the edges that it keeps: of the edges from the source to one vertex the last one,
and all edges of the others. The vertices that have left the heap have their distances over these,
in the order of the distances, and no vertex that has left it comes nearer.
-/

namespace Graphviz.Dijkstra

open Function List Outcome ShortestPath

/-- The length of the last edge to the vertex. -/
def lastTo {n : ℕ} {K : Type} : List (Fin n × K) → Fin n → Option K
  | [], _ => none
  | e :: es, v => (lastTo es v).or (if e.1 = v then some e.2 else none)

/-- The edges of a graph. -/
def edge {n : ℕ} {K : Type} (adj : Fin n → List (Fin n × K)) (u v : Fin n) (w : K) : Prop :=
  (v, w) ∈ adj u

/-- The edges that the search keeps. -/
def kept {n : ℕ} {K : Type} (adj : Fin n → List (Fin n × K)) (source u v : Fin n) (w : K) : Prop :=
  if u = source then lastTo (adj source) v = some w else (v, w) ∈ adj u

variable {n : ℕ} {K A : Type} [AddZeroClass K] [LinearOrder K] {V : Variant n K A}
  {adj : Fin n → List (Fin n × K)} {source x u v : Fin n} {dist dist' : Fin n → K} {h : heap n}
  {order : List (Fin n)} {scanned : Fin n → Fin n × K → Prop} {es pre : List (Fin n × K)} {w d : K}
  {acc acc₀ : A} {k : ℕ}

omit [AddZeroClass K] [LinearOrder K] in
theorem mem_of_lastTo (h : lastTo es v = some w) : (v, w) ∈ es := by
  induction es with
  | nil => exact absurd h (Option.some_ne_none w).symm
  | cons e es ih =>
    rw [lastTo] at h
    cases hlast : lastTo es v with
    | some w' =>
      rw [hlast, Option.some_or] at h
      exact mem_cons_of_mem e (ih (hlast.trans h))
    | none =>
      rw [hlast, Option.none_or] at h
      split at h
      next heq =>
        obtain rfl := Option.some.inj h
        exact heq ▸ mem_cons_self
      next => exact absurd h (Option.some_ne_none w).symm

omit [AddZeroClass K] [LinearOrder K] in
theorem lastTo_of_mem (h : (v, w) ∈ es) : ∃ w', lastTo es v = some w' := by
  induction es with
  | nil => exact absurd h not_mem_nil
  | cons e es ih =>
    rw [lastTo]
    cases hlast : lastTo es v with
    | some w' => exact ⟨w', Option.some_or⟩
    | none =>
      obtain rfl | hmem := mem_cons.1 h
      · exact ⟨w, by rw [Option.none_or, if_pos rfl]⟩
      · obtain ⟨w', hw'⟩ := ih hmem
        rw [hlast] at hw'
        exact absurd hw' (Option.some_ne_none w').symm

omit [AddZeroClass K] [LinearOrder K] in
theorem edge_of_kept (h : kept adj source u v w) : edge adj u v w := by
  rw [kept] at h
  split at h
  next heq => exact heq ▸ mem_of_lastTo h
  next => exact h

omit [AddZeroClass K] [LinearOrder K] in
theorem kept_source : kept adj source source v w ↔ lastTo (adj source) v = some w := by
  rw [kept, if_pos rfl]

omit [AddZeroClass K] [LinearOrder K] in
theorem kept_of_ne (hne : u ≠ source) : kept adj source u v w ↔ (v, w) ∈ adj u := by
  rw [kept, if_neg hne]

/-- What the search relies on. -/
structure Lengths (V : Variant n K A) (adj : Fin n → List (Fin n × K)) (source : Fin n) : Prop where
  pos : 0 < V.maxDist
  nonneg : ∀ u, ∀ e ∈ adj u, 0 ≤ e.2
  le_max : ∀ u, ∀ e ∈ adj u, V.fits e.2 → e.2 ≤ V.maxDist
  loopless : ∀ e ∈ adj source, e.1 ≠ source

theorem Lengths.kept_nonneg (hl : Lengths V adj source) : ∀ u v w, kept adj source u v w → 0 ≤ w :=
  fun u _ _ h => hl.nonneg u _ (edge_of_kept h)

/-- The source, and the vertices that have left the heap. -/
def Settled (source : Fin n) (order : List (Fin n)) (v : Fin n) : Prop :=
  v = source ∨ v ∈ order

/-- The invariant: `order` has the vertices that have left the heap, and of the edges of these some
are scanned. -/
structure Searching (V : Variant n K A) (adj : Fin n → List (Fin n × K)) (source : Fin n)
    (dist : Fin n → K) (h : heap n) (order : List (Fin n)) (scanned : Fin n → Fin n × K → Prop) :
    Prop where
  holds : Holds h fun v => ¬Settled source order v
  inOrder : InOrder dist h 0
  source_zero : dist source = 0
  nodup : order.Nodup ∧ source ∉ order
  sorted : order.Pairwise fun u v => dist u ≤ dist v
  nearest : ∀ u, Settled source order u → Nearest (kept adj source) source u (dist u)
  lt_max : ∀ u, Settled source order u → dist u < V.maxDist
  found : ∀ v, dist v = V.maxDist ∨ Walk (kept adj source) source v (dist v)
  le_max : ∀ v, dist v ≤ V.maxDist
  settled_le : ∀ u v, Settled source order u → ¬Settled source order v → dist u ≤ dist v
  frontier : ∀ u v w, Settled source order u → scanned u (v, w) → kept adj source u v w →
    ¬Settled source order v → dist v ≤ dist u + w
  fits : ∀ u, ∀ e ∈ adj u, Settled source order u → scanned u e →
    V.fits e.2 ∧ V.fits (dist u + e.2)

/-! ## The beginning -/

omit [AddZeroClass K] [LinearOrder K] in
/-- The neighbours of the source get the lengths of the last edges to them. -/
theorem seed_spec (V : Variant n K A) (es : List (Fin n × K)) (dist : Fin n → K) :
    (∀ e ∈ es, V.fits e.2) ∧ seed V es dist = .ok (fun v => (lastTo es v).getD (dist v)) ∨
      (∃ e ∈ es, ¬V.fits e.2) ∧ seed V es dist = .error .abort := by
  induction es generalizing dist with
  | nil => exact .inl ⟨fun e he => absurd he not_mem_nil, rfl⟩
  | cons e es ih =>
    rw [seed, Variant.num]
    by_cases hfits : V.fits e.2
    · rw [if_pos hfits, ok_bind]
      obtain ⟨hall, hok⟩ | ⟨⟨e', he', hnot⟩, herr⟩ := ih (update dist e.1 e.2)
      · refine .inl ⟨forall_mem_cons.2 ⟨hfits, hall⟩, hok.trans (congrArg _ ?_)⟩
        funext v
        rw [lastTo]
        cases lastTo es v with
        | some w => rfl
        | none =>
          rw [Option.none_or, Option.getD_none]
          split
          next heq => rw [← heq, update_self, Option.getD_some]
          next hne => rw [update_of_ne (Ne.symm hne), Option.getD_none]
      · exact .inr ⟨⟨e', mem_cons_of_mem e he', hnot⟩, herr⟩
    · rw [if_neg hfits]
      exact .inr ⟨⟨e, mem_cons_self, hfits⟩, rfl⟩

/-- The distances before the loop. -/
def seeded (V : Variant n K A) (adj : Fin n → List (Fin n × K)) (source v : Fin n) : K :=
  (lastTo (adj source) v).getD (update (fun _ => V.maxDist) source 0 v)

theorem seeded_source (hl : Lengths V adj source) : seeded V adj source source = 0 := by
  have hnone : lastTo (adj source) source = none := by
    rw [Option.eq_none_iff_forall_ne_some]
    exact fun w hw => hl.loopless _ (mem_of_lastTo hw) rfl
  rw [seeded, hnone, Option.getD_none, update_self]

omit [LinearOrder K] in
theorem seeded_cases (hv : v ≠ source) :
    lastTo (adj source) v = none ∧ seeded V adj source v = V.maxDist ∨
      lastTo (adj source) v = some (seeded V adj source v) := by
  rw [seeded]
  cases hlast : lastTo (adj source) v with
  | none => exact .inl ⟨rfl, by rw [Option.getD_none, update_of_ne hv]⟩
  | some w => exact .inr rfl

variable [AddLeftMono K]

/-- The search begins with the source settled and its edges scanned. -/
theorem searching_start (hl : Lengths V adj source) (hfits : ∀ e ∈ adj source, V.fits e.2)
    (hord : InOrder (seeded V adj source) h 0) (hholds : Holds h fun v => v ≠ source) :
    Searching V adj source (seeded V adj source) h [] fun _ _ => True := by
  have hsettled : ∀ v, Settled source [] v ↔ v = source := fun v => or_iff_left not_mem_nil
  have hzero := seeded_source hl
  have hnonneg : ∀ v, 0 ≤ seeded V adj source v := by
    intro v
    obtain rfl | hv := eq_or_ne v source
    · exact hzero.ge
    obtain ⟨-, heq⟩ | heq := @seeded_cases _ _ _ _ V adj _ _ hv
    · rw [heq]
      exact hl.pos.le
    · exact hl.nonneg _ _ (mem_of_lastTo heq)
  refine ⟨⟨hholds.exact, fun v => (hholds.mem v).trans (not_congr (hsettled v)).symm⟩, hord, hzero,
    ⟨nodup_nil, not_mem_nil⟩, .nil, fun u hu => ?_, fun u hu => ?_, fun v => ?_,
    fun v => ?_, fun u v hu _ => ?_, fun u v w hu _ hkept hv => ?_, fun u e he hu _ => ?_⟩
  · obtain rfl := (hsettled u).1 hu
    rw [hzero]
    exact nearest_source hl.kept_nonneg
  · obtain rfl := (hsettled u).1 hu
    rw [hzero]
    exact hl.pos
  · obtain rfl | hv := eq_or_ne v source
    · rw [hzero]
      exact .inr .nil
    refine (@seeded_cases _ _ _ _ V adj _ _ hv).imp And.right fun hlast => ?_
    have hwalk := Walk.snoc .nil (kept_source.2 hlast)
    rwa [zero_add] at hwalk
  · obtain rfl | hv := eq_or_ne v source
    · rw [hzero]
      exact hl.pos.le
    obtain ⟨-, heq⟩ | heq := @seeded_cases _ _ _ _ V adj _ _ hv
    · exact heq.le
    · have hmem := mem_of_lastTo heq
      exact hl.le_max _ _ hmem (hfits _ hmem)
  · obtain rfl := (hsettled u).1 hu
    rw [hzero]
    exact hnonneg v
  · obtain rfl := (hsettled u).1 hu
    rw [kept_source] at hkept
    rw [hzero, zero_add, seeded, hkept, Option.getD_some]
  · obtain rfl := (hsettled u).1 hu
    rw [hzero, zero_add]
    exact ⟨hfits e he, hfits e he⟩

theorem start_spec (hl : Lengths V adj source) (acc : A) :
    (∃ h dist, start V adj source acc = .ok ⟨.loop, h, dist, acc⟩ ∧
      Searching V adj source dist h [] fun _ _ => True) ∨
    (∃ e ∈ adj source, ¬V.fits e.2) ∧ start V adj source acc = .error .abort := by
  rw [start]
  rcases seed_spec V (adj source) (update (fun _ => V.maxDist) source 0) with
    ⟨hfits, hok⟩ | ⟨hnot, herr⟩
  · obtain ⟨h, hh, hord, hholds⟩ := initHeap_spec source (seeded V adj source)
    rw [hok, ok_bind]
    change (∃ h dist, initHeap source (seeded V adj source) >>= _ = _ ∧ _) ∨ _
    rw [hh, ok_bind]
    exact .inl ⟨h, _, rfl, searching_start hl hfits hord hholds⟩
  · rw [herr]
    exact .inr ⟨hnot, rfl⟩

/-! ## The edges of a vertex -/

/-- The edges that are scanned when `pre` is done of those of the vertex. -/
def Scanned (x : Fin n) (pre : List (Fin n × K)) (u : Fin n) (e : Fin n × K) : Prop :=
  u ≠ x ∨ e ∈ pre

/-- An edge of the vertex that left the heap last. -/
theorem Searching.relax {e : Fin n × K} (hs : Searching V adj source dist h order (Scanned x pre))
    (hl : Lengths V adj source) (hx : x ∈ order) (he : e ∈ adj x)
    (hle : ∀ u, Settled source order u → dist u ≤ dist x)
    (hfits : V.fits e.2 ∧ V.fits (dist x + e.2)) :
    ∃ h' dist', increaseKey h e.1 (dist x + e.2) dist = .ok (h', dist') ∧
      (∀ u, Settled source order u → dist' u = dist u) ∧
      Searching V adj source dist' h' order (Scanned x (pre ++ [e])) := by
  have hw := hl.nonneg x e he
  have hS : ∀ u, Settled source order u → dist u ≤ dist x + e.2 := fun u hu =>
    (hle u hu).trans (le_add_of_nonneg_right hw)
  have hxs : Settled source order x := .inr hx
  have hne : x ≠ source := fun heq => hs.nodup.2 (heq ▸ hx)
  have hcond : ¬Settled source order e.1 ∨ dist e.1 ≤ dist x + e.2 :=
    (Classical.em (Settled source order e.1)).symm.imp id (hS _)
  obtain ⟨h', hok, hord, hholds⟩ := increaseKey_spec hs.inOrder hs.holds hcond
  refine ⟨h', _, hok, ?_⟩
  generalize hdist : update dist e.1 (min (dist e.1) (dist x + e.2)) = dist' at *
  have hnew : ∀ v, dist' v = dist v ∨ v = e.1 ∧ dist' v = dist x + e.2 ∧ dist x + e.2 ≤ dist v := by
    intro v
    rw [← hdist]
    obtain rfl | hv := eq_or_ne v e.1
    · rw [update_self]
      obtain hmin | hmin := le_total (dist e.1) (dist x + e.2)
      · exact .inl (min_eq_left hmin)
      · exact .inr ⟨rfl, min_eq_right hmin, hmin⟩
    · exact .inl (update_of_ne hv _ _)
  have hkeep : ∀ u, Settled source order u → dist' u = dist u := by
    intro u hu
    obtain heq | ⟨-, heq, hge⟩ := hnew u
    · exact heq
    · exact heq.trans (le_antisymm hge (hS u hu))
  have hdown : ∀ v, dist' v ≤ dist v := by
    intro v
    obtain heq | ⟨-, heq, hge⟩ := hnew v
    · exact heq.le
    · exact heq.trans_le hge
  have hrelaxed : dist' e.1 ≤ dist x + e.2 := by
    rw [← hdist, update_self]
    exact min_le_right _ _
  refine ⟨hkeep, hholds, hord, (hkeep source (.inl rfl)).trans hs.source_zero, hs.nodup, ?_,
    fun u hu => ?_, fun u hu => ?_, fun v => ?_, fun v => (hdown v).trans (hs.le_max v),
    fun u v hu hv => ?_, fun u v w hu hscan hkept hv => ?_, fun u e' he' hu hscan => ?_⟩
  · refine hs.sorted.imp_of_mem fun {u v} hu hv hle => ?_
    rwa [hkeep u (.inr hu), hkeep v (.inr hv)]
  · rw [hkeep u hu]
    exact hs.nearest u hu
  · rw [hkeep u hu]
    exact hs.lt_max u hu
  · obtain heq | ⟨rfl, heq, -⟩ := hnew v
    · rw [heq]
      exact hs.found v
    · rw [heq]
      have hwalk := (hs.found x).resolve_left (hs.lt_max x hxs).ne
      exact .inr (.snoc hwalk ((kept_of_ne hne).2 he))
  · rw [hkeep u hu]
    obtain heq | ⟨-, heq, -⟩ := hnew v
    · rw [heq]
      exact hs.settled_le u v hu hv
    · rw [heq]
      exact hS u hu
  · rw [hkeep u hu]
    obtain hux | hmem := hscan
    · exact (hdown v).trans (hs.frontier u v w hu (.inl hux) hkept hv)
    obtain hmem | hmem := mem_append.1 hmem
    · exact (hdown v).trans (hs.frontier u v w hu (.inr hmem) hkept hv)
    obtain rfl | hux := eq_or_ne u x
    · obtain rfl := mem_singleton.1 hmem
      exact hrelaxed
    · exact (hdown v).trans (hs.frontier u v w hu (.inl hux) hkept hv)
  · rw [hkeep u hu]
    obtain hux | hmem := hscan
    · exact hs.fits u e' he' hu (.inl hux)
    obtain hmem | hmem := mem_append.1 hmem
    · exact hs.fits u e' he' hu (.inr hmem)
    obtain rfl | hux := eq_or_ne u x
    · obtain rfl := mem_singleton.1 hmem
      exact hfits
    · exact hs.fits u e' he' hu (.inl hux)

/-! ## A vertex leaves the heap -/

omit [AddZeroClass K] [LinearOrder K] [AddLeftMono K] in
theorem settled_append : Settled source (order ++ [x]) v ↔ Settled source order v ∨ v = x := by
  rw [Settled, Settled, mem_append, mem_singleton, or_assoc]

variable [AddRightMono K]

/-- No vertex that is not settled is nearer than the nearest of them. -/
theorem Searching.nearest_bound (hs : Searching V adj source dist h order fun _ _ => True)
    (hl : Lengths V adj source) (hmin : ∀ v, ¬Settled source order v → d ≤ dist v)
    (hv : ¬Settled source order v) : Nearest (kept adj source) source v d :=
  nearest_of_frontier hl.kept_nonneg (.inl rfl) hs.nearest
    (fun u hu v w hkept hv => (hmin v hv).trans (hs.frontier u v w hu trivial hkept hv)) hv

/-- The nearest vertex leaves the heap. -/
theorem Searching.settle (hs : Searching V adj source dist h order fun _ _ => True)
    (hl : Lengths V adj source) (hx : ¬Settled source order x)
    (hmin : ∀ v, ¬Settled source order v → dist x ≤ dist v) (hmax : dist x ≠ V.maxDist)
    {h' : heap n} (hord : InOrder dist h' 0)
    (hholds : Holds h' fun v => ¬Settled source order v ∧ v ≠ x) :
    Searching V adj source dist h' (order ++ [x]) (Scanned x []) := by
  have hnot : ∀ v, ¬Settled source (order ++ [x]) v ↔ ¬Settled source order v ∧ v ≠ x := fun v => by
    rw [settled_append, not_or]
  refine ⟨⟨hholds.exact, fun v => (hholds.mem v).trans (hnot v).symm⟩, hord, hs.source_zero,
    ⟨?_, ?_⟩, ?_, fun u hu => ?_, fun u hu => ?_, hs.found, hs.le_max, fun u v hu hv => ?_,
    fun u v w hu hscan hkept hv => ?_, fun u e he hu hscan => ?_⟩
  · refine nodup_append.2 ⟨hs.nodup.1, nodup_singleton x, fun u hu v hv => ?_⟩
    rintro rfl
    exact hx (.inr (mem_singleton.1 hv ▸ hu))
  · rw [mem_append, not_or]
    exact ⟨hs.nodup.2, fun hmem => hx (.inl (mem_singleton.1 hmem).symm)⟩
  · refine pairwise_append.2 ⟨hs.sorted, pairwise_singleton _ _, fun u hu v hv => ?_⟩
    obtain rfl := mem_singleton.1 hv
    exact hs.settled_le u v (.inr hu) hx
  · obtain hu | rfl := settled_append.1 hu
    · exact hs.nearest u hu
    · exact hs.nearest_bound hl hmin hx
  · obtain hu | rfl := settled_append.1 hu
    · exact hs.lt_max u hu
    · exact lt_of_le_of_ne (hs.le_max u) hmax
  · have hv' := ((hnot v).1 hv).1
    obtain hu | rfl := settled_append.1 hu
    · exact hs.settled_le u v hu hv'
    · exact hmin v hv'
  · have hv' := ((hnot v).1 hv).1
    have hux := hscan.resolve_right not_mem_nil
    exact hs.frontier u v w ((settled_append.1 hu).resolve_right hux) trivial hkept hv'
  · have hux := hscan.resolve_right not_mem_nil
    exact hs.fits u e he ((settled_append.1 hu).resolve_right hux) trivial

/-! ## The end -/

/-- What the search has found: the distances up to the largest number, and the vertices at the
others in the order of their distances. -/
structure Found (V : Variant n K A) (adj : Fin n → List (Fin n × K)) (source : Fin n)
    (dist : Fin n → K) (order : List (Fin n)) : Prop where
  source_zero : dist source = 0
  nodup : order.Nodup
  sorted : order.Pairwise fun u v => dist u ≤ dist v
  mem_order : ∀ v, v ∈ order ↔ v ≠ source ∧ dist v < V.maxDist
  nearest : ∀ v, Nearest (kept adj source) source v (dist v)
  found : ∀ v, dist v = V.maxDist ∨ Walk (kept adj source) source v (dist v)
  le_max : ∀ v, dist v ≤ V.maxDist
  fits : ∀ u, dist u < V.maxDist → ∀ e ∈ adj u, V.fits e.2 ∧ V.fits (dist u + e.2)

/-- The search is over when the vertices that are left are not found. -/
theorem Searching.done (hs : Searching V adj source dist h order fun _ _ => True)
    (hl : Lengths V adj source) (hmax : ∀ v, ¬Settled source order v → dist v = V.maxDist) :
    Found V adj source dist order := by
  have hsettled : ∀ v, dist v < V.maxDist → Settled source order v := by
    intro v hlt
    by_contra hv
    exact hlt.ne (hmax v hv)
  refine ⟨hs.source_zero, hs.nodup.1, hs.sorted,
    fun v => ⟨fun hv => ⟨fun heq => hs.nodup.2 (heq ▸ hv), hs.lt_max v (.inr hv)⟩,
      fun hv => (hsettled v hv.2).resolve_left hv.1⟩, fun v => ?_, hs.found,
    hs.le_max, fun u hu e he => hs.fits u e he (hsettled u hu) trivial⟩
  obtain hv | hv := Classical.em (Settled source order v)
  · exact hs.nearest v hv
  · exact hs.nearest_bound hl (fun u hu => (hmax v hv).trans (hmax u hu).symm |>.le) hv

end Graphviz.Dijkstra

/-!
## Runs of the search

Every step keeps the invariant and leaves less to do, or there is a number that the type of the
distances does not have. So the search comes to its end exactly when the numbers fit, and it has
then found the distances.
-/

namespace Graphviz.Dijkstra

open Function List Outcome ShortestPath

variable {n : ℕ} {K A : Type} [AddZeroClass K] [LinearOrder K] {V : Variant n K A}
  {adj : Fin n → List (Fin n × K)} {source x u v : Fin n} {dist : Fin n → K} {h : heap n}
  {order : List (Fin n)} {es pre : List (Fin n × K)} {w d : K} {acc acc₀ : A} {r : Run n K A}
  {k work : ℕ}

/-- What comes of the visits of the vertices in their order. -/
def visits (V : Variant n K A) (dist : Fin n → K) (order : List (Fin n)) (acc : A) : A :=
  order.foldl (fun acc v => V.visit v (dist v) acc) acc

omit [AddZeroClass K] [LinearOrder K] in
theorem visits_append : visits V dist (order ++ [x]) acc = V.visit x (dist x)
    (visits V dist order acc) :=
  foldl_append

omit [AddZeroClass K] [LinearOrder K] in
theorem visits_congr {dist' : Fin n → K} (heq : ∀ v ∈ order, dist' v = dist v) :
    visits V dist' order acc = visits V dist order acc := by
  refine foldl_ext _ _ _ fun acc v hv => ?_
  rw [heq v hv]

/-- The number of the edges of a vertex. -/
def degree (adj : Fin n → List (Fin n × K)) (v : Fin n) : ℕ :=
  (adj v).length

/-- The invariant of a run, with the work that is left. -/
inductive RunInv (V : Variant n K A) (adj : Fin n → List (Fin n × K)) (source : Fin n) (acc₀ : A) :
    Run n K A → ℕ → Prop where
  | loop {h : heap n} {dist : Fin n → K} {order : List (Fin n)}
    (hs : Searching V adj source dist h order fun _ _ => True) :
    RunInv V adj source acc₀ ⟨.loop, h, dist, visits V dist order acc₀⟩
      (workLeft (degree adj) (Settled source order) + 1)
  | scan {h : heap n} {dist : Fin n → K} {order : List (Fin n)} {x : Fin n}
    {pre es : List (Fin n × K)} (hx : x ∈ order) (hadj : adj x = pre ++ es)
    (hle : ∀ u, Settled source order u → dist u ≤ dist x)
    (hs : Searching V adj source dist h order (Scanned x pre)) :
    RunInv V adj source acc₀ ⟨.scan x (dist x) es, h, dist, visits V dist order acc₀⟩
      (workLeft (degree adj) (Settled source order) + es.length + 2)
  | ret {h : heap n} {dist : Fin n → K} {order : List (Fin n)} {Q : Fin n → Prop}
    (hf : Found V adj source dist order) (hholds : Holds h Q) :
    RunInv V adj source acc₀ ⟨.ret, h, dist, visits V dist order acc₀⟩ 0

/-- All sums that the search makes are numbers of the type of the distances. -/
def Fits (V : Variant n K A) (adj : Fin n → List (Fin n × K)) (source : Fin n) : Prop :=
  ∀ u d, Shortest (kept adj source) source u d → d < V.maxDist →
    ∀ e ∈ adj u, V.fits e.2 ∧ V.fits (d + e.2)

theorem RunInv.holds (h : RunInv V adj source acc₀ r work) : ∃ Q, Holds r.heap Q := by
  cases h with
  | loop hs => exact ⟨_, hs.holds⟩
  | scan _ _ _ hs => exact ⟨_, hs.holds⟩
  | ret _ hholds => exact ⟨_, hholds⟩

theorem RunInv.found (h : RunInv V adj source acc₀ r work) (hret : r.pc = .ret) :
    ∃ order, Found V adj source r.dist order ∧ r.acc = visits V r.dist order acc₀ := by
  cases h with
  | loop _ => exact absurd hret (by simp)
  | scan _ _ _ _ => exact absurd hret (by simp)
  | ret hf _ => exact ⟨_, hf, rfl⟩

theorem RunInv.ret_of_zero (h : RunInv V adj source acc₀ r 0) : r.pc = .ret := by
  cases h with
  | ret _ _ => rfl

omit [AddZeroClass K] [LinearOrder K] in
theorem num_cases (V : Variant n K A) (x : K) :
    V.fits x ∧ V.num x = .ok x ∨ ¬V.fits x ∧ V.num x = .error .abort := by
  rw [Variant.num]
  split
  next hfits => exact .inl ⟨hfits, rfl⟩
  next hfits => exact .inr ⟨hfits, rfl⟩

variable [AddLeftMono K] [AddRightMono K]

/-- A vertex leaves the heap, or the search is over. -/
theorem step_loop (hl : Lengths V adj source)
    (hs : Searching V adj source dist h order fun _ _ => True) :
    ∃ r' work', step V adj ⟨.loop, h, dist, visits V dist order acc₀⟩ = .ok r' ∧
      RunInv V adj source acc₀ r' work' ∧
      work' < workLeft (degree adj) (Settled source order) + 1 := by
  rw [step]
  simp only
  rcases extractMax_spec hs.inOrder hs.holds with
    ⟨hnone, hall⟩ | ⟨x, h', hsome, hx, hmin, hord, hholds⟩
  · rw [hnone]
    exact ⟨_, _, rfl, .ret (hs.done hl fun v hv => absurd hv (hall v)) hs.holds, Nat.succ_pos _⟩
  · rw [hsome]
    simp only [ok_bind]
    split
    next hmax =>
      have hdone := hs.done hl fun v hv => le_antisymm (hs.le_max v) (hmax ▸ hmin v hv)
      exact ⟨_, _, rfl, .ret hdone hholds, Nat.succ_pos _⟩
    next hmax =>
      have hnext := hs.settle hl hx hmin hmax hord hholds
      have hle : ∀ u, Settled source (order ++ [x]) u → dist u ≤ dist x := by
        intro u hu
        obtain hu | rfl := settled_append.1 hu
        · exact hs.settled_le u x hu hx
        · exact le_rfl
      have hwork : workLeft (degree adj) (Settled source (order ++ [x])) + (degree adj x + 2) =
          workLeft (degree adj) (Settled source order) := by
        rw [← @workLeft_settle _ _ _ (degree adj) _ hx]
        congr 2
        funext v
        rw [settled_append, or_comm]
      rw [← visits_append]
      refine ⟨_, _, rfl, .scan (mem_append_right _ mem_cons_self) rfl hle hnext, ?_⟩
      rw [degree] at hwork
      omega

omit [AddRightMono K] in
/-- The next edge of the vertex, or the condition of the loop. -/
theorem step_scan (hl : Lengths V adj source) (hx : x ∈ order) (hadj : adj x = pre ++ es)
    (hle : ∀ u, Settled source order u → dist u ≤ dist x)
    (hs : Searching V adj source dist h order (Scanned x pre)) :
    (∃ r' work', step V adj ⟨.scan x (dist x) es, h, dist, visits V dist order acc₀⟩ = .ok r' ∧
      RunInv V adj source acc₀ r' work' ∧
      work' < workLeft (degree adj) (Settled source order) + es.length + 2) ∨
    step V adj ⟨.scan x (dist x) es, h, dist, visits V dist order acc₀⟩ = .error .abort ∧
      ¬Fits V adj source := by
  cases es with
  | nil =>
    rw [append_nil] at hadj
    refine .inl ⟨_, _, rfl, .loop { hs with frontier := ?_, fits := ?_ }, by simp⟩
    · intro u v w hu _ hkept hv
      obtain rfl | hux := eq_or_ne u x
      · exact hs.frontier u v w hu (.inr (hadj ▸ edge_of_kept hkept)) hkept hv
      · exact hs.frontier u v w hu (.inl hux) hkept hv
    · intro u e he hu _
      obtain rfl | hux := eq_or_ne u x
      · exact hs.fits u e he hu (.inr (hadj ▸ he))
      · exact hs.fits u e he hu (.inl hux)
  | cons e es =>
    have he : e ∈ adj x := by
      rw [hadj]
      exact mem_append_right _ mem_cons_self
    have hlt := hs.lt_max x (.inr hx)
    have hshort : Shortest (kept adj source) source x (dist x) :=
      ⟨(hs.found x).resolve_left hlt.ne, hs.nearest x (.inr hx)⟩
    have hfail : ¬(V.fits e.2 ∧ V.fits (dist x + e.2)) → ¬Fits V adj source := fun hnot hfits =>
      hnot (hfits x _ hshort hlt e he)
    rw [step]
    simp only
    obtain ⟨hw, hok⟩ | ⟨hw, herr⟩ := num_cases V e.2
    · obtain ⟨hsum, hok'⟩ | ⟨hsum, herr⟩ := num_cases V (dist x + e.2)
      · obtain ⟨h', dist', hinc, hkeep, hnext⟩ := hs.relax hl hx he hle ⟨hw, hsum⟩
        have hxd := hkeep x (.inr hx)
        have hvisits : visits V dist order acc₀ = visits V dist' order acc₀ :=
          visits_congr fun v hv => (hkeep v (.inr hv)).symm
        rw [hok, ok_bind, hok', ok_bind, hinc, ok_bind, ← hxd, hvisits]
        refine .inl ⟨_, _, rfl, .scan hx ?_ (fun u hu => ?_) hnext, ?_⟩
        · rw [hadj, append_assoc, singleton_append]
        · rw [hkeep u hu, hxd]
          exact hle u hu
        · rw [List.length_cons]
          omega
      · rw [hok, ok_bind, herr]
        exact .inr ⟨rfl, hfail fun hfits => hsum hfits.2⟩
    · rw [herr]
      exact .inr ⟨rfl, hfail fun hfits => hw hfits.1⟩

theorem RunInv.step (h : RunInv V adj source acc₀ r work) (hl : Lengths V adj source) :
    (∃ r' work', step V adj r = .ok r' ∧ RunInv V adj source acc₀ r' work' ∧
      (work' < work ∨ work' = 0)) ∨ step V adj r = .error .abort ∧ ¬Fits V adj source := by
  cases h with
  | loop hs =>
    obtain ⟨r', work', hok, hinv, hlt⟩ := step_loop hl hs
    exact .inl ⟨r', work', hok, hinv, .inl hlt⟩
  | scan hx hadj hle hs =>
    refine (step_scan hl hx hadj hle hs).imp ?_ id
    rintro ⟨r', work', hok, hinv, hlt⟩
    exact ⟨r', work', hok, hinv, .inl hlt⟩
  | ret hf hholds => exact .inl ⟨_, 0, rfl, .ret hf hholds, .inr rfl⟩

/-- After any number of steps the invariant holds, and as much less is left to do. -/
theorem search_inv (hl : Lengths V adj source) (acc₀ : A) (k : ℕ) :
    (∃ r work, search V adj source acc₀ k = .ok r ∧ RunInv V adj source acc₀ r work ∧
      work ≤ workLeft (degree adj) (Settled source []) + 1 - k) ∨
    search V adj source acc₀ k = .error .abort ∧ ¬Fits V adj source := by
  induction k with
  | zero =>
    obtain ⟨h, dist, hok, hs⟩ | ⟨⟨e, he, hnot⟩, herr⟩ := start_spec hl acc₀
    · exact .inl ⟨_, _, hok, .loop hs, le_rfl⟩
    · refine .inr ⟨herr, fun hfits => hnot ?_⟩
      exact (hfits source 0 ⟨.nil, nearest_source hl.kept_nonneg⟩ hl.pos e he).1
  | succ k ih =>
    obtain ⟨r, work, hok, hinv, hle⟩ | ⟨herr, hnot⟩ := ih
    · rw [search, hok, ok_bind]
      refine (hinv.step hl).imp ?_ id
      rintro ⟨r', work', hok', hinv', hless⟩
      exact ⟨r', work', hok', hinv', by omega⟩
    · rw [search, herr]
      exact .inr ⟨rfl, hnot⟩

/-- The index and the array of the heap are inverse to each other throughout. -/
theorem search_inverse (hl : Lengths V adj source) (hok : search V adj source acc₀ k = .ok r) :
    ∃ Q, Holds r.heap Q := by
  obtain ⟨r', work, hok', hinv, -⟩ | ⟨herr, -⟩ := search_inv hl acc₀ k
  · obtain rfl := Except.ok.inj (hok.symm.trans hok')
    exact hinv.holds
  · rw [herr] at hok
    exact absurd hok (by simp)

/-- What a search that has come to its end has found. -/
theorem search_found (hl : Lengths V adj source) (hok : search V adj source acc₀ k = .ok r)
    (hret : r.pc = .ret) :
    ∃ order, Found V adj source r.dist order ∧ r.acc = visits V r.dist order acc₀ := by
  obtain ⟨r', work, hok', hinv, -⟩ | ⟨herr, -⟩ := search_inv hl acc₀ k
  · obtain rfl := Except.ok.inj (hok.symm.trans hok')
    exact hinv.found hret
  · rw [herr] at hok
    exact absurd hok (by simp)

/-- The search comes to its end exactly when its numbers fit. -/
theorem search_ret_iff (hl : Lengths V adj source) (acc₀ : A) :
    (∃ k r, search V adj source acc₀ k = .ok r ∧ r.pc = .ret) ↔ Fits V adj source := by
  constructor
  · rintro ⟨k, r, hok, hret⟩ u d hshort hlt
    obtain ⟨order, hf, -⟩ := search_found hl hok hret
    have heq : r.dist u = d := by
      have hle := hf.nearest u d hshort.1
      obtain hmax | hwalk := hf.found u
      · exact absurd (hmax ▸ hle) (not_le.2 hlt)
      · exact le_antisymm hle (hshort.2 _ hwalk)
    subst heq
    exact hf.fits u hlt
  · intro hfits
    rcases search_inv hl acc₀ (workLeft (degree adj) (Settled source []) + 1) with
      ⟨r, work, hok, hinv, hle⟩ | ⟨-, hnot⟩
    · rw [Nat.sub_self] at hle
      obtain rfl := Nat.le_zero.1 hle
      exact ⟨_, r, hok, hinv.ret_of_zero⟩
    · exact absurd hfits hnot

end Graphviz.Dijkstra
