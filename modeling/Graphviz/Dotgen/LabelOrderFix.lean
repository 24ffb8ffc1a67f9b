import Mathlib.Data.Finset.Max
import Mathlib.Data.List.Pairwise
import Graphviz.Dotgen.LabelOrder

/-!
# Sorting the components of labels

`topsort` empties the component and lists all of its nodes, no edge going back. When these are put
at the sorted positions of the component, the rank stays a permutation with the positions of its
nodes.
-/

namespace Graphviz

open Function List Nat Outcome Relation

namespace LabelOrder

variable {ν : Type}

/-- The order of the nodes of a rank is their position. -/
def Ranked (order : ν → ℕ) (v : List ν) : Prop :=
  ∀ i u, v[i]? = some u → order u = i

variable {order : ν → ℕ} {v : List ν} {u : ν}

theorem Ranked.get (h : Ranked order v) (hu : u ∈ v) : v[order u]? = some u := by
  obtain ⟨i, hi⟩ := mem_iff_getElem?.1 hu
  rw [h i u hi, hi]

theorem Ranked.inj (h : Ranked order v) {w : ν} (hu : u ∈ v) (hw : w ∈ v)
    (heq : order u = order w) : u = w :=
  Option.some_inj.1 ((h.get hu).symm.trans (heq ▸ h.get hw))

theorem Ranked.nodup (h : Ranked order v) : v.Nodup := by
  refine nodup_iff_getElem?_ne_getElem?.2 fun i j hij hj heq => ?_
  have hi := h i v[j] (heq.trans (getElem?_eq_getElem hj))
  have hj := h j v[j] (getElem?_eq_getElem hj)
  omega

variable [DecidableEq ν] {L sg : List (LabelNode ν)} {E : List (LabelEdge ν)}

/-! ## The topological order -/

theorem emptyComp_eq (sg : List (LabelNode ν)) : emptyComp sg = [] := by
  have hfold : ∀ l m : List (LabelNode ν), m.Perm l → l.foldl List.erase m = [] := by
    intro l
    induction l with
    | nil => exact fun m hm => perm_nil.1 hm
    | cons a l ih => exact fun m hm => ih _ ((hm.erase a).trans (by rw [erase_cons_head]))
  exact hfold sg sg (.refl sg)

/-- A set of nodes that edges do not enter has a source. -/
theorem findSource_isSome (hlt : ∀ e ∈ E, e.1.lo < e.2.lo) (hL : sg ⊆ L) (hne : sg ≠ [])
    (hclosed : ∀ e ∈ E, e.2 ∈ sg → e.1 ∈ sg) : findSource L E sg ≠ none := by
  obtain ⟨m, hm, hmin⟩ := Finset.exists_min_image sg.toFinset LabelNode.lo
    (toFinset_nonempty_iff sg |>.2 hne)
  rw [mem_toFinset] at hm
  intro hnone
  refine find?_eq_none.1 hnone m (hL hm) (decide_eq_true ⟨hm, ?_⟩)
  refine eq_nil_iff_forall_not_mem.2 fun p hp => ?_
  obtain ⟨he, hm', -⟩ := mem_inEdges.1 hp
  have hfrom := hmin p.1.1 (mem_toFinset.2 (hclosed _ he (hm' ▸ hm)))
  have := hlt _ he
  rw [hm'] at this
  omega

/-- All nodes are listed, no edge going back, and with them go the edges out of them. -/
theorem topsort_spec (hlt : ∀ e ∈ E, e.1.lo < e.2.lo) (hL : sg ⊆ L) (hsg : sg.Nodup)
    (hclosed : ∀ e ∈ E, e.2 ∈ sg → e.1 ∈ sg) :
    ∃ A : List (LabelNode ν), topsort L E sg = (A.map (·.np), E.filter fun e => e.1 ∉ sg, []) ∧
      A.Perm sg ∧ A.Pairwise fun a b => (b, a) ∉ E := by
  induction hn : sg.length generalizing sg E with
  | zero =>
    obtain rfl := length_eq_zero_iff.1 hn
    refine ⟨[], ?_, .refl _, .nil⟩
    rw [topsort]
    split
    next =>
      rw [filter_eq_self.2 fun e _ => decide_eq_true not_mem_nil]
      rfl
    next n h => exact absurd (findSource_spec h).2.1 not_mem_nil
  | succ k ih =>
    have hne : sg ≠ [] := by
      rintro rfl
      exact absurd hn (by simp)
    rw [topsort]
    split
    next h => exact absurd h (findSource_isSome hlt hL hne hclosed)
    next n h =>
      obtain ⟨-, hmem, hin⟩ := findSource_spec h
      have hsource : ∀ a, (a, n) ∉ E := by
        intro a ha
        have := mem_inEdges.2 ⟨ha, rfl, rfl⟩
        rw [hin] at this
        exact not_mem_nil this
      have hfilter : ∀ e ∈ E.filter (fun e => e.1 ≠ n), e ∈ E ∧ e.1 ≠ n := fun e he =>
        ⟨(mem_filter.1 he).1, of_decide_eq_true (mem_filter.1 he).2⟩
      obtain ⟨A, hA, hperm, hpair⟩ := ih (E := E.filter fun e => e.1 ≠ n)
        (fun e he => hlt e (hfilter e he).1)
        (fun a ha => hL (mem_of_mem_erase ha)) (hsg.erase n)
        (fun e he hmem' => (hsg.mem_erase_iff).2 ⟨(hfilter e he).2,
          hclosed e (hfilter e he).1 (mem_of_mem_erase hmem')⟩)
        (by rw [length_erase_of_mem hmem, hn]; rfl)
      have hpermn : (n :: A).Perm sg := (hperm.cons n).trans (perm_cons_erase hmem).symm
      refine ⟨n :: A, ?_, hpermn, .cons (fun a _ => hsource a) ?_⟩
      · rw [hA, map_cons, filter_filter]
        refine congrArg (fun F => (_, F, _)) (filter_congr fun e _ => ?_)
        rw [← Bool.decide_and]
        refine decide_eq_decide.2 ?_
        rw [hsg.mem_erase_iff]
        constructor
        · rintro ⟨hno, hne'⟩ hmem'
          exact hno ⟨hne', hmem'⟩
        · intro hno
          refine ⟨fun h => hno h.2, ?_⟩
          intro heq
          exact hno (heq ▸ hmem)
      · refine hpair.imp_of_mem fun {a b} _ hb hno hmem' => hno ?_
        have hb' := (hsg.mem_erase_iff).1 (hperm.subset hb)
        exact mem_filter.2 ⟨hmem', decide_eq_true hb'.1⟩

/-! ## Positions -/

/-- Nodes are put at positions, all of them different. -/
theorem place_fold (order : ν → ℕ) (v : List ν) (pairs : List (ν × ℕ))
    (hpos : ∀ p ∈ pairs, p.2 < v.length)
    (hnodes : (pairs.map Prod.fst).Nodup) (hnodup : (pairs.map Prod.snd).Nodup) :
    ∃ order' v', pairs.foldlM place (order, v) = .ok (order', v') ∧ v'.length = v.length ∧
      (∀ p ∈ pairs, order' p.1 = p.2 ∧ v'[p.2]? = some p.1) ∧
      (∀ u, u ∉ pairs.map Prod.fst → order' u = order u) ∧
      ∀ j, j ∉ pairs.map Prod.snd → v'[j]? = v[j]? := by
  induction pairs generalizing order v with
  | nil => exact ⟨order, v, rfl, rfl, nofun, fun _ _ => rfl, fun _ _ => rfl⟩
  | cons p pairs ih =>
    obtain ⟨hp1, hnodes⟩ := nodup_cons.1 hnodes
    obtain ⟨hp2, hnodup⟩ := nodup_cons.1 hnodup
    have hlt := hpos p mem_cons_self
    obtain ⟨order', v', hfold, hlen, hplaced, horder, hv⟩ := ih (update order p.1 p.2)
      (v.set p.2 p.1) (fun q hq => by
        rw [length_set]
        exact hpos q (mem_cons_of_mem p hq)) hnodes hnodup
    rw [foldlM_cons, place, if_pos hlt, ok_bind]
    refine ⟨order', v', hfold, by rw [hlen, length_set], fun q hq => ?_, fun u hu => ?_,
      fun j hj => ?_⟩
    · obtain rfl | hq := mem_cons.1 hq
      · refine ⟨by rw [horder _ hp1, update_self], ?_⟩
        rw [hv _ hp2, getElem?_set_self hlt]
      · exact hplaced q hq
    · rw [map_cons, mem_cons, not_or] at hu
      rw [horder u hu.2, update_of_ne hu.1]
    · rw [map_cons, mem_cons, not_or] at hj
      rw [hv j hj.2, getElem?_set_ne (Ne.symm hj.1)]

/-- When some nodes of a rank change places among themselves, the rank is a permutation with the
positions of its nodes. -/
theorem place_ranked (hv : Ranked order v) {U : List ν} {is : List ℕ} (hU : U.Nodup) (hmem : U ⊆ v)
    (his : is.Perm (U.map order)) :
    ∃ order' v', (U.zip is).foldlM place (order, v) = .ok (order', v') ∧ Ranked order' v' ∧
      v'.Perm v ∧ (∀ u, u ∉ U → order' u = order u) ∧ U.map order' = is := by
  have hlen : is.length = U.length := by rw [his.length_eq, length_map]
  have hfst : (U.zip is).map Prod.fst = U := map_fst_zip (by omega)
  have hsnd : (U.zip is).map Prod.snd = is := map_snd_zip (by omega)
  have hnodup : is.Nodup := his.nodup_iff.2 (hU.map_on fun u hu w hw heq =>
    hv.inj (hmem hu) (hmem hw) heq)
  have hold : ∀ i ∈ is, ∃ w ∈ U, order w = i := fun i hi => mem_map.1 (his.subset hi)
  obtain ⟨order', v', hfold, hlen', hplaced, horder, hkept⟩ := place_fold order v (U.zip is)
    (fun p hp => by
      obtain ⟨w, hw, heq⟩ := hold p.2 (hsnd ▸ mem_map_of_mem hp)
      rw [← heq]
      exact (List.getElem?_eq_some_iff.1 (hv.get (hmem hw))).1)
    (by rw [hfst]; exact hU) (by rw [hsnd]; exact hnodup)
  rw [hfst] at horder
  rw [hsnd] at hkept
  have hat : ∀ u ∈ U, ∃ i, (u, i) ∈ U.zip is := fun u hu => by
    rw [← hfst] at hu
    obtain ⟨p, hp, rfl⟩ := mem_map.1 hu
    exact ⟨p.2, hp⟩
  have hnode : ∀ i ∈ is, ∃ u, (u, i) ∈ U.zip is := fun i hi => by
    rw [← hsnd] at hi
    obtain ⟨p, hp, rfl⟩ := mem_map.1 hi
    exact ⟨p.1, hp⟩
  -- a position that no node of `U` had keeps its node, which is none of `U`
  have hother : ∀ j u, j ∉ is → v[j]? = some u → u ∉ U := by
    intro j u hj hju hu
    exact hj (his.symm.subset (mem_map.2 ⟨u, hu, hv j u hju⟩))
  have hranked : Ranked order' v' := by
    intro j u hju
    by_cases hj : j ∈ is
    · obtain ⟨w, hw⟩ := hnode j hj
      obtain ⟨horder', hget⟩ := hplaced (w, j) hw
      obtain rfl := Option.some_inj.1 (hju.symm.trans hget)
      exact horder'
    · rw [hkept j hj] at hju
      rw [horder u (hother j u hj hju)]
      exact hv j u hju
  refine ⟨order', v', hfold, hranked, ?_, horder, ?_⟩
  · refine (perm_ext_iff_of_nodup hranked.nodup hv.nodup).2 fun u => ?_
    constructor
    · intro hu
      have hju := hranked.get hu
      by_cases hj : order' u ∈ is
      · obtain ⟨w, hw⟩ := hnode _ hj
        obtain rfl := Option.some_inj.1 (hju.symm.trans (hplaced _ hw).2)
        exact hmem (hfst ▸ mem_map_of_mem hw)
      · rw [hkept _ hj] at hju
        exact mem_of_getElem? hju
    · intro hu
      by_cases hmemU : u ∈ U
      · obtain ⟨i, hi⟩ := hat u hmemU
        exact mem_of_getElem? (hplaced _ hi).2
      · have hj : order u ∉ is := by
          intro hj
          obtain ⟨w, hw, heq⟩ := hold _ hj
          exact hmemU (hv.inj (hmem hw) hu heq ▸ hw)
        have hju := hv.get hu
        rw [← hkept _ hj] at hju
        exact mem_of_getElem? hju
  · have hmap : (U.zip is).map (fun p => order' p.1) = (U.zip is).map Prod.snd :=
      map_congr_left fun p hp => (hplaced p hp).1
    rw [hsnd] at hmap
    rw [← hmap]
    conv_lhs => rw [← hfst, List.map_map]
    rfl

/-! ## Components -/

/-- A longer second list is cut off at the length of the first one. -/
theorem zip_append_of_length_eq {α β : Type} {l : List α} {r : List β} (h : l.length = r.length)
    (t : List β) : l.zip (r ++ t) = l.zip r := by
  induction l generalizing r with
  | nil => rw [zip_nil_left, zip_nil_left]
  | cons a l ih =>
    obtain ⟨b, r, rfl⟩ := exists_cons_of_length_eq_add_one h.symm
    rw [cons_append, zip_cons_cons, zip_cons_cons, ih (by simpa using h)]

/-- What a component is when it is sorted: nodes of the rank that edges do not enter, with the
positions that they have. -/
structure Component (L : List (LabelNode ν)) (s : Fix ν) : Prop where
  nodup : (s.comp.map (·.np)).Nodup
  subset : s.comp ⊆ L
  mem : s.comp.map (·.np) ⊆ s.v
  lt : ∀ e ∈ s.edges, e.1.lo < e.2.lo
  closed : ∀ e ∈ s.edges, e.2 ∈ s.comp → e.1 ∈ s.comp
  ranked : Ranked s.order s.v
  indices : s.indices.take s.comp.length = s.comp.map fun a => s.order a.np

/-- The nodes of a component take its positions in their topological order. -/
theorem sortComp_spec {s : Fix ν} (h : Component L s) :
    ∃ s', sortComp true L s = .ok s' ∧ s'.x = s.x ∧ s'.comp = [] ∧
      s'.indices.length = s.indices.length ∧ s'.edges = s.edges.filter (fun e => e.1 ∉ s.comp) ∧
      Ranked s'.order s'.v ∧ s'.v.Perm s.v ∧ (∀ u, u ∉ s.comp.map (·.np) → s'.order u = s.order u) ∧
      ∀ a ∈ s.comp, ∀ b ∈ s.comp, (a, b) ∈ s.edges → s'.order a.np < s'.order b.np := by
  obtain ⟨A, hA, hperm, hpair⟩ := topsort_spec h.lt h.subset (Nodup.of_map _ h.nodup) h.closed
  have hpermU : (A.map (·.np)).Perm (s.comp.map (·.np)) := hperm.map _
  have hlen : (A.map (·.np)).length = s.comp.length := by
    rw [length_map, hperm.length_eq]
  have hsorted : ((s.indices.take s.comp.length).mergeSort (· ≤ ·)).Perm
      ((A.map (·.np)).map s.order) := by
    refine (mergeSort_perm _ _).trans ?_
    rw [h.indices, List.map_map]
    exact (hperm.map _).symm
  obtain ⟨order', v', hfold, hranked, hv, horder, hmap⟩ := place_ranked h.ranked
    (hpermU.nodup_iff.2 h.nodup) (fun u hu => h.mem (hpermU.subset hu)) hsorted
  have hzip : (A.map (·.np)).zip ((s.indices.take s.comp.length).mergeSort (· ≤ ·) ++
      s.indices.drop s.comp.length) =
      (A.map (·.np)).zip ((s.indices.take s.comp.length).mergeSort (· ≤ ·)) := by
    have hsame := hsorted.length_eq
    rw [length_map] at hsame
    exact zip_append_of_length_eq hsame.symm _
  have hincreasing : A.Pairwise fun a b => order' a.np < order' b.np := by
    have hle := @List.pairwise_mergeSort _ (fun i j : ℕ => decide (i ≤ j))
      (fun i j k hij hjk => decide_eq_true
        ((of_decide_eq_true hij).trans (of_decide_eq_true hjk)))
      (fun i j => by simpa using le_total i j) (s.indices.take s.comp.length)
    rw [← hmap, List.map_map, pairwise_map] at hle
    have hne : A.Pairwise fun a b => order' a.np ≠ order' b.np := by
      refine Pairwise.imp_of_mem (fun {a b} ha hb hab heq => hab ?_)
        (pairwise_map.1 (hpermU.nodup_iff.2 h.nodup))
      have hin : ∀ {c}, c ∈ A → c.np ∈ v' := fun hc =>
        hv.symm.subset (h.mem (hpermU.subset (mem_map_of_mem hc)))
      exact hranked.inj (hin ha) (hin hb) heq
    exact hle.imp₂ (fun a b hle hne => lt_of_le_of_ne (of_decide_eq_true hle) hne) hne
  rw [sortComp, hA]
  dsimp only
  rw [assertUnless, if_pos rfl, ok_bind, hlen, hzip, hfold, ok_bind]
  refine ⟨_, rfl, rfl, rfl, ?_, rfl, hranked, hv,
    fun u hu => horder u fun hno => hu (hpermU.subset hno),
    ?_⟩
  · rw [length_append, length_mergeSort, ← length_append, take_append_drop]
  · intro a ha b hb hab
    -- of two nodes in the list, the later one has no edge to the earlier one
    have hsym : ∀ a ∈ A, ∀ b ∈ A, (a, b) ∈ s.edges → order' a.np < order' b.np := by
      refine Pairwise.forall_of_forall_of_flip
        (R := fun a b => (a, b) ∈ s.edges → order' a.np < order' b.np) ?_ ?_ ?_
      · exact fun a _ haa => absurd (h.lt _ haa) (lt_irrefl _)
      · exact hincreasing.imp fun {a b} hlt (_ : (a, b) ∈ s.edges) => hlt
      · exact hpair.imp fun hno hba => absurd hba hno
    exact hsym a (hperm.symm.subset ha) b (hperm.symm.subset hb) hab

/-- The assertion fails: nothing is left in the component when it is compared with the list. -/
theorem sortComp_assert {s : Fix ν} (h : Component L s) (hne : s.comp ≠ []) :
    sortComp false L s = .error .assertion := by
  obtain ⟨A, hA, hperm, -⟩ := topsort_spec h.lt h.subset (Nodup.of_map _ h.nodup) h.closed
  rw [sortComp, hA]
  dsimp only
  rw [assertUnless, if_neg (by decide), assert, if_neg]
  · rfl
  · rw [length_map, hperm.length_eq, length_nil, length_eq_zero_iff]
    exact hne

end LabelOrder

end Graphviz

/-!
## Fixing the order of the labels of a rank

`fixLabelOrder` goes through the components. One with an edge that goes forward is sorted, or stops
at the assertion; one without is left as it is.
-/

namespace Graphviz

open Function List Outcome Relation

namespace LabelOrder

variable {ν : Type} {L S : List (LabelNode ν)} {E : List (LabelEdge ν)} {order order₀ : ν → ℕ}
  {v v₀ : List ν} {NDEBUG : Bool} {a b c n : LabelNode ν} {e : LabelEdge ν}

/-- The nodes of the labels of a rank. -/
structure Labels (L : List (LabelNode ν)) (order : ν → ℕ) (v : List ν) : Prop where
  names : L.Pairwise fun a b => a.name < b.name
  lt : ∀ a ∈ L, a.lo < a.hi
  order_np : ∀ a ∈ L, order a.np = a.name
  mem : ∀ a ∈ L, a.np ∈ v
  ranked : Ranked order v

theorem Labels.eq_of_name (h : Labels L order v) (ha : a ∈ L) (hb : b ∈ L)
    (hname : a.name = b.name) : a = b := by
  refine Pairwise.forall_of_forall_of_flip (R := fun a b => a.name = b.name → a = b)
    (fun _ _ _ => rfl) ?_ ?_ ha hb hname
  · exact h.names.imp fun hlt heq => absurd heq (ne_of_lt hlt)
  · exact h.names.imp fun {a b} hlt (heq : b.name = a.name) => absurd heq.symm (ne_of_lt hlt)

theorem Labels.inj (h : Labels L order v) (ha : a ∈ L) (hb : b ∈ L) (heq : a.np = b.np) : a = b :=
  h.eq_of_name ha hb (by rw [← h.order_np a ha, ← h.order_np b hb, heq])

theorem Labels.nodup (h : Labels L order v) : L.Nodup :=
  h.names.imp fun hlt heq => absurd (congrArg LabelNode.name heq) (ne_of_lt hlt)

/-- What the loop over the nodes keeps. A component that was visited is sorted, or it has no edge
that goes forward and is as it was. -/
structure FixInv (NDEBUG : Bool) (L : List (LabelNode ν)) (E : List (LabelEdge ν)) (order₀ : ν → ℕ)
    (v₀ : List ν) (s : Fix ν) : Prop where
  comp : s.comp = []
  length : s.indices.length = L.length
  mem : ∀ a, s.x a = true → a ∈ L
  closed : ∀ a b, s.x a = true → Adj E a b → s.x b = true
  sub : ∀ e ∈ s.edges, e ∈ E
  keep : ∀ e ∈ E, s.x e.1 = false → e ∈ s.edges
  other : ∀ u, (∀ a, s.x a = true → a.np ≠ u) → s.order u = order₀ u
  ranked : Ranked s.order s.v
  perm : s.v.Perm v₀
  done : ∀ a, s.x a = true → ((∃ c, ReflTransGen (Adj E) a c ∧ ¬ Silent E order₀ c) ∧
      ∀ b, (a, b) ∈ E → s.order a.np < s.order b.np) ∨
    ∀ c, ReflTransGen (Adj E) a c → s.order c.np = order₀ c.np ∧ Silent E order₀ c
  debug : NDEBUG = false → s.order = order₀ ∧ s.v = v₀

theorem FixInv.linked {s : Fix ν} (h : FixInv NDEBUG L E order₀ v₀ s) (ha : s.x a = true)
    (hac : ReflTransGen (Adj E) a c) : s.x c = true := by
  induction hac with
  | refl => exact ha
  | tail _ hbc ih => exact h.closed _ _ ih hbc

/-- A component that `getComp` has visited, in a state of the loop. -/
structure Found (NDEBUG : Bool) (L : List (LabelNode ν)) (E : List (LabelEdge ν)) (order₀ : ν → ℕ)
    (v₀ : List ν) (s : Fix ν) (S : List (LabelNode ν)) (x : LabelNode ν → Bool) : Prop where
  inv : FixInv NDEBUG L E order₀ v₀ s
  marks : ∀ a, x a = true ↔ s.x a = true ∨ a ∈ S
  fresh : ∀ a ∈ S, s.x a = false ∧ a ∈ L
  nodup : S.Nodup
  closed : ∀ a ∈ S, ∀ w, Adj s.edges a w → x w = true

variable {s : Fix ν} {x : LabelNode ν → Bool}

/-- The edges of the component are still there. -/
theorem Found.edge (h : Found NDEBUG L E order₀ v₀ s S x) (he : e ∈ E)
    (ha : e.1 ∈ S ∨ e.2 ∈ S) : e ∈ s.edges := by
  refine h.inv.keep e he ?_
  obtain ha | ha := ha
  · exact (h.fresh _ ha).1
  · have hx := (h.fresh _ ha).1
    rw [← Bool.not_eq_true] at hx ⊢
    exact fun hno => hx (h.inv.closed e.1 e.2 hno (.inl he))

theorem Found.adj (h : Found NDEBUG L E order₀ v₀ s S x) (ha : a ∈ S)
    (hab : Adj E a b) : b ∈ S := by
  have hadj : Adj s.edges a b := hab.imp (fun he => h.edge he (.inl ha)) fun he => h.edge he (.inr ha)
  refine ((h.marks b).1 (h.closed a ha b hadj)).resolve_left fun hb => ?_
  have := h.inv.closed b a hb hab.symm
  rw [(h.fresh a ha).1] at this
  exact absurd this (by decide)

theorem Found.linked (h : Found NDEBUG L E order₀ v₀ s S x) (ha : a ∈ S)
    (hac : ReflTransGen (Adj E) a c) : c ∈ S := by
  induction hac with
  | refl => exact ha
  | tail _ hbc ih => exact h.adj ih hbc

/-- The nodes of the component have the order that they had. -/
theorem Found.order_eq (h : Found NDEBUG L E order₀ v₀ s S x) (hL : Labels L order₀ v₀)
    (ha : a ∈ S) : s.order a.np = order₀ a.np := by
  refine h.inv.other a.np fun b hb heq => ?_
  obtain ⟨hx, hmem⟩ := h.fresh a ha
  rw [hL.inj (h.inv.mem b hb) hmem heq, hx] at hb
  exact absurd hb (by decide)

theorem Found.silent_iff (h : Found NDEBUG L E order₀ v₀ s S x) (hL : Labels L order₀ v₀)
    (hc : c ∈ S) : Silent s.edges s.order c ↔ Silent E order₀ c := by
  have hsame : ∀ e ∈ E, e.1 = c ∨ e.2 = c → isBackedge s.order e = isBackedge order₀ e := by
    intro e he hends
    have hmem : e.1 ∈ S ∧ e.2 ∈ S := by
      obtain rfl | rfl := hends
      · exact ⟨hc, h.adj hc (.inl he)⟩
      · exact ⟨h.adj hc (.inr he), hc⟩
    rw [isBackedge, isBackedge, h.order_eq hL hmem.1, h.order_eq hL hmem.2]
  constructor
  · intro hsilent e he hends
    rw [← hsame e he hends]
    refine hsilent e (h.edge he (hends.imp ?_ ?_)) hends
    · exact fun heq => heq ▸ hc
    · exact fun heq => heq ▸ hc
  · intro hsilent e he hends
    rw [hsame e (h.inv.sub e he) hends]
    exact hsilent e (h.inv.sub e he) hends

theorem Found.notMem (h : Found NDEBUG L E order₀ v₀ s S x) (hL : Labels L order₀ v₀)
    (hb : s.x b = true) : b.np ∉ S.map (·.np) := by
  intro hmem
  obtain ⟨a, ha, heq⟩ := mem_map.1 hmem
  obtain ⟨hx, hmem⟩ := h.fresh a ha
  rw [← hL.inj hmem (h.inv.mem b hb) heq, hx] at hb
  exact absurd hb (by decide)

theorem Found.component (h : Found NDEBUG L E order₀ v₀ s S x) (hL : Labels L order₀ v₀)
    (hE : ∀ e ∈ E, e.1 ∈ L ∧ e.2 ∈ L ∧ e.1.hi ≤ e.2.lo) {indices : List ℕ}
    (hindices : indices.take S.length = S.map fun a => s.order a.np) :
    Component L { s with toComp := ⟨x, S, indices⟩ } where
  nodup := h.nodup.map_on fun a ha b hb heq => hL.inj (h.fresh a ha).2 (h.fresh b hb).2 heq
  subset a ha := (h.fresh a ha).2
  mem u hu := by
    obtain ⟨a, ha, rfl⟩ := mem_map.1 hu
    exact h.inv.perm.symm.subset (hL.mem a (h.fresh a ha).2)
  lt e he := lt_of_lt_of_le (hL.lt _ (hE e (h.inv.sub e he)).1) (hE e (h.inv.sub e he)).2.2
  closed e he hmem := h.adj hmem (.inr (h.inv.sub e he))
  ranked := h.inv.ranked
  indices := hindices

/-- A component without an edge that goes forward stays as it is. -/
theorem Found.leave (h : Found NDEBUG L E order₀ v₀ s S x) (hL : Labels L order₀ v₀)
    {indices : List ℕ} (hlen : indices.length = L.length)
    (hsilent : ∀ a ∈ S, Silent s.edges s.order a) :
    FixInv NDEBUG L E order₀ v₀ { s with toComp := ⟨x, [], indices⟩ } where
  comp := rfl
  length := hlen
  mem a ha := ((h.marks a).1 ha).elim (h.inv.mem a) fun hmem => (h.fresh a hmem).2
  closed a b ha hab := by
    refine (h.marks b).2 (((h.marks a).1 ha).imp (fun ha => ?_) fun ha => ?_)
    · exact h.inv.closed a b ha hab
    · exact h.adj ha hab
  sub := h.inv.sub
  keep e he hx := by
    refine h.inv.keep e he ?_
    rw [← Bool.not_eq_true] at hx ⊢
    exact fun hno => hx ((h.marks e.1).2 (.inl hno))
  other u hu := h.inv.other u fun a ha => hu a ((h.marks a).2 (.inl ha))
  ranked := h.inv.ranked
  perm := h.inv.perm
  done a ha := by
    obtain ha | ha := (h.marks a).1 ha
    · exact h.inv.done a ha
    · refine .inr fun c hac => ?_
      have hc := h.linked ha hac
      exact ⟨h.order_eq hL hc, (h.silent_iff hL hc).1 (hsilent c hc)⟩
  debug := h.inv.debug

variable [DecidableEq ν]

/-- A component is sorted. -/
theorem Found.sort (h : Found true L E order₀ v₀ s S x) (hL : Labels L order₀ v₀) (s' : Fix ν)
    (hx : s'.x = x) (hcomp : s'.comp = []) (hlen : s'.indices.length = L.length)
    (hedges : s'.edges = s.edges.filter fun e => e.1 ∉ S) (hranked : Ranked s'.order s'.v)
    (hperm : s'.v.Perm s.v) (horder : ∀ u, u ∉ S.map (·.np) → s'.order u = s.order u)
    (hlt : ∀ a ∈ S, ∀ b ∈ S, (a, b) ∈ s.edges → s'.order a.np < s'.order b.np)
    (hloud : ∃ c ∈ S, ¬ Silent s.edges s.order c)
    (hreach : ∀ a ∈ S, ∀ c ∈ S, ReflTransGen (Adj E) a c) :
    FixInv true L E order₀ v₀ s' where
  comp := hcomp
  length := hlen
  mem a ha := by
    rw [hx] at ha
    exact ((h.marks a).1 ha).elim (h.inv.mem a) fun hmem => (h.fresh a hmem).2
  closed a b ha hab := by
    rw [hx] at ha ⊢
    refine (h.marks b).2 (((h.marks a).1 ha).imp (fun ha => ?_) fun ha => ?_)
    · exact h.inv.closed a b ha hab
    · exact h.adj ha hab
  sub e he := by
    rw [hedges] at he
    exact h.inv.sub e (mem_filter.1 he).1
  keep e he hno := by
    rw [hx, ← Bool.not_eq_true, h.marks, not_or, Bool.not_eq_true] at hno
    rw [hedges]
    exact mem_filter.2 ⟨h.inv.keep e he hno.1, decide_eq_true hno.2⟩
  other u hu := by
    rw [hx] at hu
    rw [horder u, h.inv.other u fun a ha => hu a ((h.marks a).2 (.inl ha))]
    intro hmem
    obtain ⟨a, ha, heq⟩ := mem_map.1 hmem
    exact hu a ((h.marks a).2 (.inr ha)) heq
  ranked := hranked
  perm := hperm.trans h.inv.perm
  done a ha := by
    rw [hx] at ha
    obtain ha | ha := (h.marks a).1 ha
    · refine (h.inv.done a ha).imp (And.imp_right fun hdone b hab => ?_) fun hdone c hac => ?_
      · rw [horder _ (h.notMem hL ha), horder _ (h.notMem hL (h.inv.closed a b ha (.inl hab)))]
        exact hdone b hab
      · rw [horder _ (h.notMem hL (h.inv.linked ha hac))]
        exact hdone c hac
    · obtain ⟨c, hc, hnot⟩ := hloud
      refine .inl ⟨⟨c, hreach a ha c hc, fun hno => hnot ((h.silent_iff hL hc).2 hno)⟩, fun b hab => ?_⟩
      exact hlt a ha b (h.adj ha (.inl hab)) (h.edge hab (.inl ha))
  debug hno := absurd hno (by decide)

/-- The loop visits a node with the rest of its component, unless it has no edge. -/
theorem fixComp_spec (h : FixInv NDEBUG L E order₀ v₀ s) (hL : Labels L order₀ v₀)
    (hE : ∀ e ∈ E, e.1 ∈ L ∧ e.2 ∈ L ∧ e.1.hi ≤ e.2.lo) (hn : n ∈ L) :
    Meets (fixComp NDEBUG L s n) (fun s' => FixInv NDEBUG L E order₀ v₀ s' ∧
      (∀ a, s.x a = true → s'.x a = true) ∧ (s'.x n = true ∨ ∀ e ∈ E, e.1 ≠ n ∧ e.2 ≠ n))
      (fun f => f = .assertion ∧ NDEBUG = false) := by
  rw [fixComp]
  split
  next hskip =>
    refine ⟨h, fun _ => id, ?_⟩
    by_cases hx : s.x n = true
    · exact .inl hx
    refine .inr fun e he => ?_
    obtain ⟨hout, hin⟩ := Nat.add_eq_zero_iff.1 (hskip.resolve_left hx)
    rw [length_eq_zero_iff] at hout hin
    rw [Bool.not_eq_true] at hx
    have hnone : ∀ {p : LabelEdge ν × LabelNode ν}, p ∈ ([] : List _) → False := not_mem_nil
    constructor
    · rintro rfl
      exact hnone (hout ▸ mem_outEdges.2 ⟨h.keep e he hx, rfl, rfl⟩)
    · rintro rfl
      refine hnone (hin ▸ mem_inEdges.2 ⟨h.keep e he ?_, rfl, rfl⟩)
      rw [← Bool.not_eq_true] at hx ⊢
      exact fun hno => hx (h.closed e.1 e.2 hno (.inl he))
  next hgo =>
    have hx : s.x n = false := Bool.not_eq_true _ ▸ fun hx => hgo (.inl hx)
    have hunmarked : unmarked L s.toComp ≤ L.length := countP_le_length
    obtain ⟨k, s1, S, hget, hvisited, hreach⟩ := getComp_spec hL.nodup
      (fun e he => ⟨(hE e (h.sub e he)).1, (hE e (h.sub e he)).2.1⟩) s.order L.length n s.toComp hn
      hx hunmarked
      (by rw [h.comp, h.length]; simpa using hunmarked)
    have hcomp : s1.comp = n :: S := by rw [hvisited.comp, h.comp, nil_append]
    have hindices : s1.indices.take (n :: S).length = (n :: S).map fun a => s.order a.np := by
      have := hvisited.indices
      rwa [hcomp, h.comp, length_nil, take_zero, nil_append] at this
    have hfound : Found NDEBUG L E order₀ v₀ s (n :: S) s1.x :=
      ⟨h, hvisited.marks, hvisited.fresh, hvisited.nodup, hvisited.closed⟩
    have hlen : s1.indices.length = L.length := by rw [hvisited.length, h.length]
    have hkept : ∀ a, s.x a = true → s1.x a = true := fun a ha => (hvisited.marks a).2 (.inl ha)
    have hmarked : s1.x n = true := (hvisited.marks n).2 (.inr mem_cons_self)
    obtain ⟨x, comp, indices⟩ := s1
    dsimp only at hcomp hindices hlen hkept hmarked hfound
    subst hcomp
    rw [hget, ok_bind]
    dsimp only
    by_cases hk : k = 0
    · rw [sortBack, if_neg (fun hno => hno hk), ok_bind, emptyComp_eq]
      exact ⟨hfound.leave hL hlen (hvisited.silent.1 hk), hkept, .inl hmarked⟩
    · have hcomponent := hfound.component hL hE hindices
      rw [sortBack, if_pos hk]
      cases NDEBUG with
      | true =>
        obtain ⟨s', hsort, hx', hcomp', hlen', hedges, hranked, hperm, horder, hlt⟩ :=
          sortComp_spec hcomponent
        rw [hsort, ok_bind, emptyComp_eq]
        have hloud : ∃ a ∈ n :: S, ¬ Silent s.edges s.order a := by
          by_contra hnone
          exact hk (hvisited.silent.2 fun a ha => by_contra fun hno => hnone ⟨a, ha, hno⟩)
        have hlink : ∀ a ∈ n :: S, ReflTransGen (Adj E) n a := fun a ha =>
          ReflTransGen.mono (fun p q hpq => hpq.imp (h.sub _) (h.sub _)) n a (hreach a ha)
        refine ⟨?_, ?_, .inl ?_⟩
        · refine hfound.sort hL { s' with comp := [] } hx' rfl (hlen'.trans hlen) hedges hranked
            hperm horder hlt hloud fun a ha c hc => ?_
          have hadj : Std.Symm (Adj E) := ⟨fun _ _ => Adj.symm⟩
          have hsymm : Std.Symm (ReflTransGen (Adj E)) := ReflTransGen.stdSymm
          exact (hsymm.symm _ _ (hlink a ha)).trans (hlink c hc)
        · intro a ha
          change s'.x a = true
          rw [hx']
          exact hkept a ha
        · change s'.x n = true
          rw [hx']
          exact hmarked
      | false =>
        rw [sortComp_assert hcomponent (cons_ne_nil n S)]
        exact ⟨rfl, rfl⟩

/-- Two labels are linked by labels whose intervals do not overlap. -/
def LinkedNodes (L : List (LabelNode ν)) : LabelNode ν → LabelNode ν → Prop :=
  ReflTransGen fun a b => a ∈ L ∧ b ∈ L ∧ (a.hi ≤ b.lo ∨ b.hi ≤ a.lo)

/-- A label is linked with labels that are in order. -/
def Forward (L : List (LabelNode ν)) (order : ν → ℕ) (a : LabelNode ν) : Prop :=
  ∃ c ∈ L, ∃ d ∈ L, LinkedNodes L a c ∧ c.hi ≤ d.lo ∧ order c.np < order d.np

/-- What `fixLabelOrder` does: the rank is a permutation with the positions of its nodes, and only
labels move. Two labels that are to be in order are, and then labels that are linked with them were
in order; or they did not move, and no such labels were. When assertions are compiled nothing moves
at all, and the assertion fails only where labels are not in order. -/
theorem fixLabelOrder_spec (hL : Labels L order₀ v₀) (NDEBUG : Bool) :
    Meets (fixLabelOrder NDEBUG L order₀ v₀) (fun r => Ranked r.1 r.2 ∧ r.2.Perm v₀ ∧
      (∀ u, u ∉ L.map (·.np) → r.1 u = order₀ u) ∧ (NDEBUG = false → r = (order₀, v₀)) ∧
      ∀ a ∈ L, ∀ b ∈ L, a.hi ≤ b.lo → (Forward L order₀ a ∧ r.1 a.np < r.1 b.np) ∨
          (¬ Forward L order₀ a ∧ r.1 a.np = order₀ a.np ∧ r.1 b.np = order₀ b.np))
      (fun f => f = .assertion ∧ NDEBUG = false ∧
        ∃ a ∈ L, ∃ b ∈ L, a.hi ≤ b.lo ∧ order₀ b.np < order₀ a.np) := by
  obtain ⟨hback, hedges⟩ := addEdges_spec hL.lt hL.names (false, [])
  rw [fixLabelOrder]
  generalize hadd : addEdges L (false, []) = r at hback hedges
  obtain ⟨haveBackedge, E⟩ := r
  dsimp only at hback hedges ⊢
  have hmem : ∀ e, e ∈ E ↔ e.1 ∈ L ∧ e.2 ∈ L ∧ e.1.hi ≤ e.2.lo := fun e =>
    (hedges e).trans ⟨fun h => h.resolve_left not_mem_nil, .inr⟩
  cases haveBackedge with
  | false =>
    rw [if_neg (by decide)]
    refine ⟨hL.ranked, .refl _, fun _ _ => rfl, fun _ => rfl, fun a ha b hb hle => .inl ?_⟩
    have hlt : order₀ a.np < order₀ b.np := by
      rw [hL.order_np a ha, hL.order_np b hb]
      refine Nat.lt_of_not_le fun hle' => ?_
      obtain hlt | heq := Nat.lt_or_eq_of_le hle'
      · exact absurd (hback.2 (.inr ⟨a, ha, b, hb, hlt, hle⟩)) (by decide)
      · rw [hL.eq_of_name hb ha heq] at hle
        exact absurd hle (not_le.2 (hL.lt a ha))
    exact ⟨⟨a, ha, b, hb, .refl, hle, hlt⟩, hlt⟩
  | true =>
    rw [if_pos rfl]
    have hE : ∀ e ∈ E, e.1 ∈ L ∧ e.2 ∈ L ∧ e.1.hi ≤ e.2.lo := fun e => (hmem e).1
    have hstart : FixInv NDEBUG L E order₀ v₀
        ⟨⟨fun _ => false, [], replicate L.length 0⟩, E, order₀, v₀⟩ :=
      ⟨rfl, length_replicate, nofun, nofun, fun _ => id, fun _ he _ => he, fun _ _ => rfl,
        hL.ranked, .refl _, nofun, fun _ => ⟨rfl, rfl⟩⟩
    have hbad : ∃ a ∈ L, ∃ b ∈ L, a.hi ≤ b.lo ∧ order₀ b.np < order₀ a.np := by
      obtain ⟨a, ha, b, hb, hlt, hle⟩ := (hback.1 rfl).resolve_left (by decide)
      exact ⟨a, ha, b, hb, hle, by rw [hL.order_np a ha, hL.order_np b hb]; exact hlt⟩
    have hloop : Meets (L.foldlM (fixComp NDEBUG L)
        ⟨⟨fun _ => false, [], replicate L.length 0⟩, E, order₀, v₀⟩)
        (fun s => FixInv NDEBUG L E order₀ v₀ s ∧ ∀ a ∈ L, s.x a = true ∨ ∀ e ∈ E, e.1 ≠ a ∧ e.2 ≠ a)
        (fun f => f = .assertion ∧ NDEBUG = false) := by
      refine (Meets.foldlM (fun rest s => rest ⊆ L ∧ FixInv NDEBUG L E order₀ v₀ s ∧
        ∀ a ∈ L, a ∈ rest ∨ s.x a = true ∨ ∀ e ∈ E, e.1 ≠ a ∧ e.2 ≠ a) ?_ _
        ⟨Subset.refl L, hstart, fun a ha => .inl ha⟩).imp fun s hs => ?_
      · rintro n rest s ⟨hsub, hinv, hseen⟩
        refine (fixComp_spec hinv hL hE (hsub mem_cons_self)).imp fun s' hs' => ?_
        obtain ⟨hinv', hgrow, hn⟩ := hs'
        refine ⟨fun a ha => hsub (mem_cons_of_mem n ha), hinv', fun a ha => ?_⟩
        obtain hmem' | hx | hfree := hseen a ha
        · obtain rfl | hmem' := mem_cons.1 hmem'
          · exact .inr hn
          · exact .inl hmem'
        · exact .inr (.inl (hgrow a hx))
        · exact .inr (.inr hfree)
      · exact ⟨hs.2.1, fun a ha => (hs.2.2 a ha).resolve_left not_mem_nil⟩
    refine (hloop.mono (fun _ => id) fun f hf => ⟨hf.1, hf.2, hbad⟩).bind fun s hs => ?_
    obtain ⟨hinv, hseen⟩ := hs
    refine ⟨hinv.ranked, hinv.perm, fun u hu => hinv.other u fun a ha heq => ?_, fun hno => ?_,
      fun a ha b hb hle => ?_⟩
    · exact hu (mem_map.2 ⟨a, hinv.mem a ha, heq⟩)
    · obtain ⟨horder, hv⟩ := hinv.debug hno
      exact Prod.ext horder hv
    · have hab : (a, b) ∈ E := (hmem (a, b)).2 ⟨ha, hb, hle⟩
      have hx : s.x a = true := (hseen a ha).resolve_right fun hfree => (hfree _ hab).1 rfl
      have hlink : ∀ c, LinkedNodes L a c ↔ ReflTransGen (Adj E) a c := by
        intro c
        have hadj : ∀ p q, (p ∈ L ∧ q ∈ L ∧ (p.hi ≤ q.lo ∨ q.hi ≤ p.lo)) ↔ Adj E p q := by
          intro p q
          rw [Adj, hmem, hmem]
          constructor
          · rintro ⟨hp, hq, hle | hle⟩
            · exact .inl ⟨hp, hq, hle⟩
            · exact .inr ⟨hq, hp, hle⟩
          · rintro (⟨hp, hq, hle⟩ | ⟨hq, hp, hle⟩)
            · exact ⟨hp, hq, .inl hle⟩
            · exact ⟨hp, hq, .inr hle⟩
        exact ⟨ReflTransGen.mono (fun p q => (hadj p q).1) a c,
          ReflTransGen.mono (fun p q => (hadj p q).2) a c⟩
      refine (hinv.done a hx).imp (fun hdone => ⟨?_, hdone.2 b hab⟩) fun hdone => ⟨?_, ?_⟩
      · obtain ⟨⟨c, hac, hnot⟩, -⟩ := hdone
        obtain ⟨e, he, hends, hforward⟩ :
            ∃ e ∈ E, (e.1 = c ∨ e.2 = c) ∧ isBackedge order₀ e = true := by
          by_contra hnone
          refine hnot fun e he hends => ?_
          rw [← Bool.not_eq_true]
          exact fun hno => hnone ⟨e, he, hends, hno⟩
        obtain ⟨h1, h2, hle'⟩ := hE e he
        refine ⟨e.1, h1, e.2, h2, (hlink e.1).2 ?_, hle', of_decide_eq_true hforward⟩
        obtain heq | heq := hends
        · rwa [heq]
        · exact hac.tail (.inr (heq ▸ he))
      · rintro ⟨c, hc, d, hd, hac, hcd, hlt⟩
        have := (hdone c ((hlink c).1 hac)).2 (c, d) ((hmem (c, d)).2 ⟨hc, hd, hcd⟩) (.inl rfl)
        exact of_decide_eq_false this hlt
      · exact ⟨(hdone a .refl).1, (hdone b (.single (.inl hab))).1⟩

end LabelOrder

end Graphviz
