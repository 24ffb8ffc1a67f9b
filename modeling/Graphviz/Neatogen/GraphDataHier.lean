import Graphviz.Library.Instances
import Graphviz.Library.RelGraph
import Graphviz.Neatogen.GraphData

/-!
# The search makes the graph acyclic

The search looks at each place of a node while its calls may overwrite places that it has passed or
not yet reached. What stays true is that a node that the search has left has opposite directions at
all its edges, with those that leave it leading to nodes that were left earlier. Only edges on a
cycle change, where an edge without direction may be gone along both ways; and an edge that the
search finds with no or two directions gets one.
-/

namespace Graphviz.Hier

open Function List Nat Outcome RelGraph Relation Spring

variable {n : ℕ} {K : Type} {base : Fin n → vtx_data n K} {N : Fin n → List (Fin n)}
  {D₀ D D' : Fin n → Fin n → ℤ} {F F' : List (Fin n)} {s s' : Search n K} {i j u v : Fin n}

/-- The neighbours in the arrays: none twice, and the one of the other. -/
structure Adjacency (base : Fin n → vtx_data n K) (N : Fin n → List (Fin n)) : Prop where
  edges : ∀ i, (base i).edges = i :: N i
  nodup : ∀ i, (i :: N i).Nodup
  symm : ∀ {i j}, j ∈ N i → i ∈ N j

theorem Adjacency.ne (h : Adjacency base N) (hj : j ∈ N i) : i ≠ j :=
  fun heq => (nodup_cons.1 (h.nodup i)).1 (heq ▸ hj)

theorem Adjacency.nodup_tail (h : Adjacency base N) (i : Fin n) : (N i).Nodup :=
  (nodup_cons.1 (h.nodup i)).2

/-- The arrays hold the directions. -/
def Holds (base : Fin n → vtx_data n K) (N : Fin n → List (Fin n)) (s : Search n K)
    (D : Fin n → Fin n → ℤ) : Prop :=
  ∀ i, s.graph i = { base i with edists := some (0 :: (N i).map (D i)) }

/-- The directions with another one at a place. -/
def setEntry (D : Fin n → Fin n → ℤ) (i j : Fin n) (x : ℤ) : Fin n → Fin n → ℤ :=
  update D i (update (D i) j x)

/-- The directions with the edge reversed, so that it leads from the second node to the first. -/
def reversed (D : Fin n → Fin n → ℤ) (i j : Fin n) : Fin n → Fin n → ℤ :=
  setEntry (setEntry D i j 1) j i (-1)

theorem reversed_left (h : i ≠ j) : reversed D i j i j = 1 := by
  rw [reversed, setEntry, update_of_ne h, setEntry, update_self, update_self]

theorem reversed_right : reversed D i j j i = -1 := by
  rw [reversed, setEntry, update_self, update_self]

theorem reversed_of_ne (hij : ¬(u = i ∧ v = j)) (hji : ¬(u = j ∧ v = i)) :
    reversed D i j u v = D u v := by
  simp only [reversed, setEntry, update_apply]
  grind

/-! ## The places -/

/-- The places after the first one are those of the elements. -/
theorem range'_eq_map_idxOf {α : Type} [DecidableEq α] {l : List α} (h : l.Nodup) :
    List.range' 1 l.length = l.map fun a => l.idxOf a + 1 := by
  refine ext_getElem (by simp) fun k hk hk' => ?_
  rw [getElem_range', getElem_map, h.idxOf_getElem]
  omega

theorem Holds.edist (h : Holds base N s D) (hj : j ∈ N i) :
    s.edist i ((N i).idxOf j + 1) = .ok (D i j) := by
  have hget : (0 :: (N i).map (D i))[(N i).idxOf j + 1]? = some (D i j) := by
    rw [getElem?_cons_succ, getElem?_map, getElem?_idxOf hj]
    rfl
  have hbind : (s.graph i).edists.bind (·[(N i).idxOf j + 1]?) = some (D i j) := by
    rw [h i]
    exact hget
  rw [Search.edist, hbind]

variable (hadj : Adjacency base N)

include hadj

theorem Holds.edges (h : Holds base N s D) (i : Fin n) : (s.graph i).edges = i :: N i := by
  rw [h i]
  exact hadj.edges i

theorem Holds.edge (h : Holds base N s D) (hj : j ∈ N i) :
    s.edge i ((N i).idxOf j + 1) = .ok j := by
  rw [Search.edge, h.edges hadj, getElem?_cons_succ, getElem?_idxOf hj]

theorem Holds.setEdist (h : Holds base N s D) (hj : j ∈ N i) (x : ℤ) :
    Holds base N (s.setEdist i ((N i).idxOf j + 1) x) (setEntry D i j x) := by
  intro k
  rw [Search.setEdist, setEntry]
  obtain rfl | hne := eq_or_ne k i
  · have hset : ((N k).map (D k)).set ((N k).idxOf j) x = (N k).map (update (D k) j x) := by
      rw [(hadj.nodup_tail k).map_update, if_pos hj]
    change update s.graph k _ k = _
    rw [update_self, update_self, h k, ← hset]
    rfl
  · change update s.graph i _ k = _
    rw [update_of_ne hne, update_of_ne hne]
    exact h k

theorem Holds.place (h : Holds base N s D) (hi : i ∈ N j) :
    s.place j i = (N j).idxOf i + 1 ∧ (N j).idxOf i + 1 < (s.graph j).nedges := by
  rw [Search.place, vtx_data.nedges, h.edges hadj]
  exact ⟨rfl, succ_lt_succ (idxOf_lt_length_of_mem hi)⟩

/-- A back edge is reversed at both ends. -/
theorem Holds.reverse (h : Holds base N s D) (hj : j ∈ N i) :
    ∃ s', reverse .MODE_HIER s i ((N i).idxOf j + 1) j = .ok s' ∧
      Holds base N s' (reversed D i j) ∧ s'.mark = s.mark ∧ s'.onstack = s.onstack := by
  have hset := h.setEdist hadj hj 1
  obtain ⟨hplace, hlt⟩ := hset.place hadj (hadj.symm hj)
  rw [Hier.reverse, if_neg (by decide)]
  change ∃ s', (assert ((s.setEdist i ((N i).idxOf j + 1) 1).place j i <
    ((s.setEdist i ((N i).idxOf j + 1) 1).graph j).nedges) >>= fun _ =>
      .ok ((s.setEdist i ((N i).idxOf j + 1) 1).setEdist j
        ((s.setEdist i ((N i).idxOf j + 1) 1).place j i) (-1))) = .ok s' ∧ _
  rw [hplace, Graphviz.assert, if_pos hlt]
  exact ⟨_, rfl, hset.setEdist hadj (hadj.symm hj) (-1), rfl, rfl⟩

omit hadj

/-! ## The invariant -/

/-- The two directions of an edge are opposite. -/
def Opposite (D : Fin n → Fin n → ℤ) (i j : Fin n) : Prop :=
  D i j = 1 ∧ D j i = -1 ∨ D i j = -1 ∧ D j i = 1

theorem Opposite.symm (h : Opposite D i j) : Opposite D j i :=
  Or.symm (h.imp And.symm And.symm)

theorem Opposite.congr (h : Opposite D i j) (hij : D' i j = D i j) (hji : D' j i = D j i) :
    Opposite D' i j := by
  rw [Opposite, hij, hji]
  exact h

/-- The search may go along the edge: it is no in-edge. -/
def Arc (N : Fin n → List (Fin n)) (D : Fin n → Fin n → ℤ) (i j : Fin n) : Prop :=
  j ∈ N i ∧ D i j ≠ 1

/-- There are ways from each of the nodes to the other one. -/
def Mutual (N : Fin n → List (Fin n)) (D : Fin n → Fin n → ℤ) (i j : Fin n) : Prop :=
  ReflTransGen (Arc N D) i j ∧ ReflTransGen (Arc N D) j i

/-- An edge that leaves its node. -/
def Leaves (N : Fin n → List (Fin n)) (D : Fin n → Fin n → ℤ) (i j : Fin n) : Prop :=
  j ∈ N i ∧ D i j = -1

/-- The invariant of the search. The nodes that it has left are in a list, the last one first. -/
structure Inv (base : Fin n → vtx_data n K) (N : Fin n → List (Fin n)) (D₀ : Fin n → Fin n → ℤ)
    (s : Search n K) (D : Fin n → Fin n → ℤ) (F : List (Fin n)) : Prop where
  holds : Holds base N s D
  nodup : F.Nodup
  mark : ∀ v, s.mark v ↔ s.onstack v ∨ v ∈ F
  off : ∀ v ∈ F, ¬s.onstack v
  opposite : ∀ i, ∀ j ∈ N i, D i j = 1 → D j i = -1
  settled : ∀ w ∈ F, ∀ v ∈ N w, Opposite D w v
  finishing : Finishing (Leaves N D) F
  fresh : ∀ u, ¬s.mark u → ∀ v ∈ N u, v ∉ F → D u v = D₀ u v ∧ D v u = D₀ v u
  kept : ∀ u, ∀ v ∈ N u, ¬Mutual N D₀ u v → D u v = D₀ u v

/-- The directions are the same but at nodes of a kind. -/
def SameBut (X : Fin n → Prop) (D D' : Fin n → Fin n → ℤ) : Prop :=
  ∀ u v, ¬X u → ¬X v → D' u v = D u v

/-- What part of the search does: the nodes on the stack stay there, those that are left stay left,
and the directions change only at nodes of a kind. -/
structure Step (X : Fin n → Prop) (s : Search n K) (D : Fin n → Fin n → ℤ) (F : List (Fin n))
    (s' : Search n K) (D' : Fin n → Fin n → ℤ) (F' : List (Fin n)) : Prop where
  onstack : s'.onstack = s.onstack
  left : F ⊆ F'
  same : SameBut X D D'

/-- The node is left in the meantime. -/
def Newly (F F' : List (Fin n)) (v : Fin n) : Prop :=
  v ∈ F' ∧ v ∉ F

/-- The search may visit the node: each node on the stack reaches it. -/
def Reaching (N : Fin n → List (Fin n)) (D₀ : Fin n → Fin n → ℤ) (s : Search n K) (v : Fin n) :
    Prop :=
  ∀ u, s.onstack u → ReflTransGen (Arc N D₀) u v

theorem Inv.not_mem (h : Inv base N D₀ s D F) (hi : s.onstack i) : i ∉ F :=
  fun hmem => h.off i hmem hi

theorem Inv.not_onstack (h : Inv base N D₀ s D F) (hi : ¬s.mark i) : ¬s.onstack i :=
  fun hon => hi ((h.mark i).2 (.inl hon))

/-- The node is put on the stack. -/
theorem Inv.enter (h : Inv base N D₀ s D F) (hi : ¬s.mark i) : Inv base N D₀ (s.enter i) D F := by
  refine { h with mark := fun v => ?_, off := fun v hv => ?_, fresh := fun u hu => h.fresh u ?_ }
  · change update s.mark i true v ↔ update s.onstack i true v ∨ v ∈ F
    obtain rfl | hne := eq_or_ne v i
    · rw [update_self, update_self]
      exact iff_of_true rfl (.inl rfl)
    · rw [update_of_ne hne, update_of_ne hne]
      exact h.mark v
  · have hne : v ≠ i := fun heq => hi ((h.mark i).2 (.inr (heq ▸ hv)))
    change ¬update s.onstack i true v
    rw [update_of_ne hne]
    exact h.off v hv
  · intro hmark
    refine hu ?_
    change update s.mark i true u
    rw [update_apply]
    split
    · rfl
    · exact hmark

/-- The node is taken from the stack: its edges are settled, and those that leave it lead to nodes
that have been left. -/
theorem Inv.leave (h : Inv base N D₀ s D F) (hi : s.onstack i)
    (hdone : ∀ j ∈ N i, Opposite D i j ∧ (D i j = -1 → j ∈ F)) :
    Inv base N D₀ (s.leave i) D (i :: F) := by
  refine { h with nodup := nodup_cons.2 ⟨h.not_mem hi, h.nodup⟩, mark := fun v => ?_,
                  off := fun v hv => ?_, settled := fun w hw => ?_,
                  finishing := ⟨fun b hb => (hdone b hb.1).2 hb.2, h.finishing⟩,
                  fresh := fun u hu v hv hnot => ?_ }
  · change s.mark v ↔ update s.onstack i false v ∨ v ∈ i :: F
    obtain rfl | hne := eq_or_ne v i
    · exact iff_of_true ((h.mark v).2 (.inl hi)) (.inr mem_cons_self)
    · rw [update_of_ne hne, mem_cons, or_iff_right hne]
      exact h.mark v
  · change ¬update s.onstack i false v
    obtain rfl | hne := eq_or_ne v i
    · rw [update_self]
      exact Bool.false_ne_true
    · rw [update_of_ne hne]
      exact h.off v ((mem_cons.1 hv).resolve_left hne)
  · obtain rfl | hw := mem_cons.1 hw
    · exact fun v hv => (hdone v hv).1
    · exact h.settled w hw
  · exact h.fresh u hu v hv fun hmem => hnot (mem_cons_of_mem i hmem)

/-- A back edge is reversed: it is on a cycle. -/
theorem Inv.reversed (hadj : Adjacency base N) (h : Inv base N D₀ s D F) (hj : j ∈ N i)
    (hi : s.onstack i) (hon : s.onstack j) (hmutual : Mutual N D₀ i j)
    (hs' : Holds base N s' (reversed D i j)) (hmark : s'.mark = s.mark)
    (hstack : s'.onstack = s.onstack) : Inv base N D₀ s' (Hier.reversed D i j) F := by
  have hne := hadj.ne hj
  have hout : ∀ w v, w ≠ i → w ≠ j → Hier.reversed D i j w v = D w v ∧
      Hier.reversed D i j v w = D v w := fun w v hwi hwj =>
    ⟨reversed_of_ne (fun hand => hwi hand.1) fun hand => hwj hand.1,
      reversed_of_ne (fun hand => hwj hand.2) fun hand => hwi hand.2⟩
  have hleft : ∀ w ∈ F, w ≠ i ∧ w ≠ j := fun w hw =>
    ⟨fun heq => h.not_mem hi (heq ▸ hw), fun heq => h.not_mem hon (heq ▸ hw)⟩
  have hnew : ∀ u, ¬s.mark u → u ≠ i ∧ u ≠ j := fun u hu =>
    ⟨fun heq => h.not_onstack hu (heq ▸ hi), fun heq => h.not_onstack hu (heq ▸ hon)⟩
  refine ⟨hs', h.nodup, fun v => ?_, fun v hv => ?_, fun u v hv hone => ?_, fun w hw v hv => ?_,
    h.finishing.mono fun w hw v hv => ?_, fun u hu v hv hnot => ?_, fun u v hv hnot => ?_⟩
  · rw [hmark, hstack]
    exact h.mark v
  · rw [hstack]
    exact h.off v hv
  · obtain ⟨rfl, rfl⟩ | hij := Decidable.em (u = i ∧ v = j)
    · exact reversed_right
    obtain ⟨rfl, rfl⟩ | hji := Decidable.em (u = j ∧ v = i)
    · exact absurd (hone.symm.trans reversed_right) (by decide)
    rw [reversed_of_ne hij hji] at hone
    rw [reversed_of_ne (fun hand => hji hand.symm) fun hand => hij hand.symm]
    exact h.opposite u v hv hone
  · obtain ⟨hwv, hvw⟩ := hout w v (hleft w hw).1 (hleft w hw).2
    exact (h.settled w hw v hv).congr hwv hvw
  · exact ⟨hv.1, (hout w v (hleft w hw).1 (hleft w hw).2).1.symm.trans hv.2⟩
  · rw [hmark] at hu
    obtain ⟨huv, hvu⟩ := hout u v (hnew u hu).1 (hnew u hu).2
    rw [huv, hvu]
    exact h.fresh u hu v hv hnot
  · rw [reversed_of_ne]
    · exact h.kept u v hv hnot
    · rintro ⟨rfl, rfl⟩
      exact hnot hmutual
    · rintro ⟨rfl, rfl⟩
      exact hnot hmutual.symm

/-! ## The search -/

/-- The number of nodes without a mark. -/
def Search.unmarked (s : Search n K) : ℕ :=
  Fintype.card {v // ¬s.mark v}

theorem unmarked_le (h : ∀ v, s.mark v → s'.mark v) : s'.unmarked ≤ s.unmarked :=
  Fintype.card_le_of_injective (fun v => ⟨v.1, fun hv => v.2 (h v.1 hv)⟩) fun _ _ heq =>
    Subtype.ext (congrArg (fun v => v.1) heq)

theorem unmarked_enter (hi : ¬s.mark i) : (s.enter i).unmarked < s.unmarked := by
  have hmark : ∀ v, ¬(s.enter i).mark v → ¬s.mark v ∧ v ≠ i := by
    intro v hv
    change ¬update s.mark i true v at hv
    obtain rfl | hne := eq_or_ne v i
    · exact absurd (update_self v true s.mark) hv
    · rw [update_of_ne hne] at hv
      exact ⟨hv, hne⟩
  refine Fintype.card_lt_of_injective_of_notMem (fun v => ⟨v.1, (hmark v.1 v.2).1⟩)
    (fun _ _ heq => Subtype.ext (congrArg (fun v => v.1) heq)) (b := ⟨i, hi⟩) ?_
  rintro ⟨v, heq⟩
  exact (hmark v.1 v.2).2 (congrArg (fun v => v.1) heq)

/-- The marks stay. -/
theorem Inv.mark_mono {X : Fin n → Prop} (h : Inv base N D₀ s D F) (h' : Inv base N D₀ s' D' F')
    (hstep : Step X s D F s' D' F') (hv : s.mark v) : s'.mark v := by
  refine (h'.mark v).2 (((h.mark v).1 hv).imp ?_ fun hmem => hstep.left hmem)
  rw [hstep.onstack]
  exact id

/-- The loop of `dfsCycle` at a point where the edges to some neighbours are left to look at. -/
structure AtLoop (base : Fin n → vtx_data n K) (N : Fin n → List (Fin n)) (D₀ : Fin n → Fin n → ℤ)
    (i : Fin n) (rest : List (Fin n)) (s : Search n K) (D : Fin n → Fin n → ℤ)
    (F : List (Fin n)) : Prop where
  inv : Inv base N D₀ s D F
  onstack : s.onstack i
  subset : rest ⊆ N i
  nodup : rest.Nodup
  done : ∀ j ∈ N i, j ∈ rest ∨ Opposite D i j ∧ (D i j = -1 → j ∈ F)
  ahead : ∀ j ∈ rest, j ∉ F → D i j = D₀ i j

/-- An edge that is settled has been looked at. -/
theorem AtLoop.skip {rest : List (Fin n)} (h : AtLoop base N D₀ i (j :: rest) s D F)
    (hop : Opposite D i j) (hleft : D i j = -1 → j ∈ F) : AtLoop base N D₀ i rest s D F := by
  refine ⟨h.inv, h.onstack, (cons_subset.1 h.subset).2, (nodup_cons.1 h.nodup).2,
    fun k hk => ?_, fun k hk => h.ahead k (mem_cons_of_mem j hk)⟩
  obtain hmem | hdone := h.done k hk
  · obtain rfl | hmem := mem_cons.1 hmem
    · exact .inr ⟨hop, hleft⟩
    · exact .inl hmem
  · exact .inr hdone

/-- A back edge has been looked at. -/
theorem AtLoop.reversed {rest : List (Fin n)} (hadj : Adjacency base N)
    (h : AtLoop base N D₀ i (j :: rest) s D F) (hstack : s'.onstack = s.onstack)
    (hinv : Inv base N D₀ s' (Hier.reversed D i j) F) :
    AtLoop base N D₀ i rest s' (Hier.reversed D i j) F := by
  obtain ⟨hj, hsub⟩ := cons_subset.1 h.subset
  obtain ⟨hnot, hnodup⟩ := nodup_cons.1 h.nodup
  have hne := hadj.ne hj
  have hkeep : ∀ k, k ≠ j → Hier.reversed D i j i k = D i k ∧ Hier.reversed D i j k i = D k i :=
    fun k hk => ⟨reversed_of_ne (fun hand => hk hand.2) fun hand => hne hand.1,
      reversed_of_ne (fun hand => hne hand.2) fun hand => hk hand.1⟩
  refine ⟨hinv, hstack ▸ h.onstack, hsub, hnodup, fun k hk => ?_, fun k hk hleft => ?_⟩
  · obtain rfl | hkj := eq_or_ne k j
    · refine .inr ⟨.inl ⟨reversed_left hne, reversed_right⟩, fun heq => ?_⟩
      exact absurd ((reversed_left hne).symm.trans heq) (by decide)
    · obtain hmem | ⟨hop, hback⟩ := h.done k hk
      · exact .inl ((mem_cons.1 hmem).resolve_left hkj)
      · rw [(hkeep k hkj).1]
        exact .inr ⟨hop.congr (hkeep k hkj).1 (hkeep k hkj).2, hback⟩
  · rw [(hkeep k fun heq => hnot (heq ▸ hk)).1]
    exact h.ahead k (mem_cons_of_mem j hk) hleft

/-- An edge has been looked at by a call for its other end. -/
theorem AtLoop.visited {rest : List (Fin n)} (hadj : Adjacency base N)
    (h : AtLoop base N D₀ i (j :: rest) s D F) (hinv : Inv base N D₀ s' D' F')
    (hstep : Step (Newly F F') s D F s' D' F') (hj : j ∈ F') :
    AtLoop base N D₀ i rest s' D' F' := by
  obtain ⟨hmem, hsub⟩ := cons_subset.1 h.subset
  have hon : s'.onstack i := hstep.onstack ▸ h.onstack
  have hi : ¬Newly F F' i := fun hnew => hinv.not_mem hon hnew.1
  have hold : ∀ k, k ∉ F' ∨ k ∈ F → D' i k = D i k ∧ D' k i = D k i := by
    intro k hk
    have hnot : ¬Newly F F' k := fun hnew => hk.elim (fun h => h hnew.1) hnew.2
    exact ⟨hstep.same i k hi hnot, hstep.same k i hnot hi⟩
  have hleft : ∀ k ∈ N i, k ∈ F' → Opposite D' i k := fun k hk hkF =>
    (hinv.settled k hkF i (hadj.symm hk)).symm
  refine ⟨hinv, hon, hsub, (nodup_cons.1 h.nodup).2, fun k hk => ?_, fun k hk hnot => ?_⟩
  · obtain hkF | hkF := Decidable.em (k ∈ F')
    · exact .inr ⟨hleft k hk hkF, fun _ => hkF⟩
    obtain hrest | ⟨hop, hback⟩ := h.done k hk
    · obtain rfl | hrest := mem_cons.1 hrest
      · exact absurd hj hkF
      · exact .inl hrest
    · obtain ⟨hik, hki⟩ := hold k (.inl hkF)
      rw [hik]
      exact .inr ⟨hop.congr hik hki, fun heq => hstep.left (hback heq)⟩
  · rw [(hold k (.inl hnot)).1]
    exact h.ahead k (mem_cons_of_mem j hk) fun hkF => hnot (hstep.left hkF)

theorem Step.refl (X : Fin n → Prop) (s : Search n K) (D : Fin n → Fin n → ℤ) (F : List (Fin n)) :
    Step X s D F s D F :=
  ⟨rfl, List.Subset.refl F, fun _ _ _ _ => rfl⟩

/-- A call in the loop of a node. -/
theorem Step.trans_call {s'' : Search n K} {D'' : Fin n → Fin n → ℤ} {F'' : List (Fin n)}
    (h : Step (fun v => v = i ∨ Newly F F' v) s D F s' D' F')
    (h' : Step (Newly F' F'') s' D' F' s'' D'' F'') :
    Step (fun v => v = i ∨ Newly F F'' v) s D F s'' D'' F'' := by
  have hfirst : ∀ v, ¬(v = i ∨ Newly F F'' v) → ¬(v = i ∨ Newly F F' v) := fun v hv hor =>
    hv (hor.imp_right fun hnew => ⟨h'.left hnew.1, hnew.2⟩)
  have hsecond : ∀ v, ¬(v = i ∨ Newly F F'' v) → ¬Newly F' F'' v := fun v hv hnew =>
    hv (.inr ⟨hnew.1, fun hF => hnew.2 (h.left hF)⟩)
  exact ⟨h'.onstack.trans h.onstack, List.Subset.trans h.left h'.left, fun u v hu hv =>
    (h'.same u v (hsecond u hu) (hsecond v hv)).trans (h.same u v (hfirst u hu) (hfirst v hv))⟩

/-- A back edge in the loop of a node leads to a node on the stack. -/
theorem Step.reversed {s₀ : Search n K} (h : Step (fun v => v = i ∨ Newly F F' v) s₀ D F s D' F')
    (hstack : s'.onstack = s.onstack) :
    Step (fun v => v = i ∨ Newly F F' v) s₀ D F s' (Hier.reversed D' i j) F' :=
  ⟨hstack.trans h.onstack, h.left, fun u v hu hv =>
    (reversed_of_ne (fun hand => hu (.inl hand.1)) fun hand => hv (.inl hand.2)).trans
      (h.same u v hu hv)⟩

/-- What a call does as a whole. -/
theorem Step.leave (h : Step (fun v => v = i ∨ Newly F F' v) (s.enter i) D F s' D' F')
    (hi : ¬s.onstack i) (hnot : i ∉ F) :
    Step (Newly F (i :: F')) s D F (s'.leave i) D' (i :: F') := by
  refine ⟨?_, fun v hv => mem_cons_of_mem i (h.left hv), fun u v hu hv => ?_⟩
  · change update s'.onstack i false = s.onstack
    rw [h.onstack]
    change update (update s.onstack i true) i false = s.onstack
    rw [update_idem, ← Bool.eq_false_of_not_eq_true hi, update_eq_self]
  · have hnew : ∀ w, ¬Newly F (i :: F') w → ¬(w = i ∨ Newly F F' w) := by
      rintro w hw (rfl | hnew)
      · exact hw ⟨mem_cons_self, hnot⟩
      · exact hw ⟨mem_cons_of_mem i hnew.1, hnew.2⟩
    exact h.same u v (hnew u hu) (hnew v hv)

/-- The body of the loop. -/
theorem cycleEdge_spec (hadj : Adjacency base N) {d : ℕ} {s₀ : Search n K} {rest : List (Fin n)}
    (hcall : ∀ {s : Search n K} {D : Fin n → Fin n → ℤ} {F : List (Fin n)} {j : Fin n},
      Inv base N D₀ s D F → ¬s.mark j → Reaching N D₀ s j → s.unmarked < d →
      Meets (dfsCycle .MODE_HIER d s j) (fun s' => ∃ D' F', Inv base N D₀ s' D' F' ∧
        Step (Newly F F') s D F s' D' F' ∧ j ∈ F') fun _ => False)
    (hinv₀ : Inv base N D₀ s₀ D F) (hr : Reaching N D₀ s₀ i) (hd : s₀.unmarked < d)
    (h : AtLoop base N D₀ i (j :: rest) s D' F')
    (hstep : Step (fun v => v = i ∨ Newly F F' v) s₀ D F s D' F') :
    Meets (cycleEdge .MODE_HIER (dfsCycle .MODE_HIER d) i s ((N i).idxOf j + 1))
      (fun s' => ∃ D' F', AtLoop base N D₀ i rest s' D' F' ∧
        Step (fun v => v = i ∨ Newly F F' v) s₀ D F s' D' F') fun _ => False := by
  obtain ⟨hj, -⟩ := cons_subset.1 h.subset
  have hreach : Reaching N D₀ s i := fun u hu => hr u (hstep.onstack ▸ hu)
  have harc : D' i j ≠ 1 → j ∉ F' → Arc N D₀ i j := fun hne hnot =>
    ⟨hj, h.ahead j mem_cons_self hnot ▸ hne⟩
  rw [cycleEdge, h.inv.holds.edist hj, ok_bind]
  split
  next hone =>
    have hop := h.inv.opposite i j hj hone
    exact ⟨D', F', h.skip (.inl ⟨hone, hop⟩) fun heq =>
      absurd (hone.symm.trans heq) (by decide), hstep⟩
  next hne =>
    rw [h.inv.holds.edge hadj hj, ok_bind]
    split
    next hon =>
      have hback := harc hne (h.inv.not_mem hon)
      obtain ⟨s', heq, hholds, hmark, hstack⟩ := h.inv.holds.reverse hadj hj
      rw [heq]
      have hinv := h.inv.reversed hadj hj h.onstack hon ⟨.single hback, hreach j hon⟩ hholds hmark
        hstack
      exact ⟨_, F', h.reversed hadj hstack hinv, hstep.reversed hstack⟩
    next hon =>
      split
      next hmark =>
        have hF : j ∈ F' := ((h.inv.mark j).1 hmark).resolve_left hon
        exact ⟨D', F', h.skip (h.inv.settled j hF i (hadj.symm hj)).symm fun _ => hF, hstep⟩
      next hmark =>
        have hnot : j ∉ F' := fun hF => hmark ((h.inv.mark j).2 (.inr hF))
        have hr' : Reaching N D₀ s j := fun u hu => (hreach u hu).tail (harc hne hnot)
        have hlt := lt_of_le_of_lt
          (unmarked_le fun v hv => hinv₀.mark_mono h.inv hstep hv) hd
        refine (hcall h.inv hmark hr' hlt).imp ?_
        rintro s' ⟨D'', F'', hinv, hstep', hmem⟩
        exact ⟨D'', F'', h.visited hadj hinv hstep' hmem, hstep.trans_call hstep'⟩

/-- A call leaves its node, and fails on no graph. -/
theorem dfsCycle_spec (hadj : Adjacency base N) {d : ℕ} (h : Inv base N D₀ s D F)
    (hi : ¬s.mark i) (hr : Reaching N D₀ s i) (hd : s.unmarked < d) :
    Meets (dfsCycle .MODE_HIER d s i) (fun s' => ∃ D' F', Inv base N D₀ s' D' F' ∧
      Step (Newly F F') s D F s' D' F' ∧ i ∈ F') fun _ => False := by
  induction d generalizing s D F i with
  | zero => exact absurd hd (not_lt_zero _)
  | succ d ih =>
    have hinv0 := h.enter hi
    have hnot : i ∉ F := fun hF => hi ((h.mark i).2 (.inr hF))
    have hr0 : Reaching N D₀ (s.enter i) i := by
      intro u hu
      obtain rfl | hne := eq_or_ne u i
      · exact .refl
      · change update s.onstack i true u at hu
        rw [update_of_ne hne] at hu
        exact hr u hu
    have hlt := lt_of_lt_of_le (unmarked_enter hi) (le_of_lt_succ hd)
    have hlen : (s.graph i).nedges - 1 = (N i).length := by
      rw [vtx_data.nedges, h.holds.edges hadj]
      rfl
    rw [dfsCycle, hlen, range'_eq_map_idxOf (hadj.nodup_tail i), foldlM_map]
    refine (Meets.foldlM (fun rest s' => ∃ D' F', AtLoop base N D₀ i rest s' D' F' ∧
      Step (fun v => v = i ∨ Newly F F' v) (s.enter i) D F s' D' F') ?_ (s.enter i)
      ⟨D, F, ?_, Step.refl _ _ _ _⟩).bind ?_
    · rintro j rest s' ⟨D', F', hloop, hstep⟩
      exact cycleEdge_spec hadj (fun hinv hj hr hd => ih hinv hj hr hd) hinv0 hr0 hlt hloop hstep
    · have hon : (s.enter i).onstack i := by
        change update s.onstack i true i
        rw [update_self]
      refine ⟨hinv0, hon, List.Subset.refl _, hadj.nodup_tail i,
        fun j hj => .inl hj, fun j hj hF => (h.fresh i hi j hj hF).1⟩
    · rintro s' ⟨D', F', hloop, hstep⟩
      have hdone := fun j hj => (hloop.done j hj).resolve_left not_mem_nil
      exact ⟨D', i :: F', hloop.inv.leave hloop.onstack hdone,
        hstep.leave (h.not_onstack hi) hnot, mem_cons_self⟩

/-! ## All nodes -/

/-- What the search makes of the directions. -/
structure Directed (N : Fin n → List (Fin n)) (D₀ D : Fin n → Fin n → ℤ) : Prop where
  opposite : ∀ i, ∀ j ∈ N i, Opposite D i j
  acyclic : Acyclic (Leaves N D)
  kept : ∀ i, ∀ j ∈ N i, ¬Mutual N D₀ i j → D i j = D₀ i j

/-- The search directs all edges, without a cycle. -/
theorem acyclic_spec (hadj : Adjacency base N) {graph : Fin n → vtx_data n K}
    (hgraph : ∀ i, graph i = { base i with edists := some (0 :: (N i).map (D₀ i)) })
    (hD₀ : ∀ i, ∀ j ∈ N i, D₀ i j = 1 → D₀ j i = -1) :
    ∃ graph' D, acyclic .MODE_HIER graph = .ok graph' ∧
      (∀ i, graph' i = { base i with edists := some (0 :: (N i).map (D i)) }) ∧
      Directed N D₀ D := by
  have hinv : Inv base N D₀ ⟨graph, fun _ => false, fun _ => false⟩ D₀ [] :=
    ⟨hgraph, nodup_nil, fun v => iff_of_false Bool.false_ne_true
      fun h => h.elim Bool.false_ne_true not_mem_nil, nofun, hD₀, nofun, trivial,
      fun _ _ _ _ _ => ⟨rfl, rfl⟩, fun _ _ _ _ => rfl⟩
  have hloop : Meets ((List.finRange n).foldlM
      (fun s i => if s.mark i then .ok s else dfsCycle .MODE_HIER (n + 1) s i)
      ⟨graph, fun _ => false, fun _ => false⟩)
      (fun s => ∃ D F, Inv base N D₀ s D F ∧ (∀ v, ¬s.onstack v) ∧ ∀ v, v ∈ [] ∨ v ∈ F)
      fun _ => False := by
    refine Meets.foldlM (fun rest s => ∃ D F, Inv base N D₀ s D F ∧ (∀ v, ¬s.onstack v) ∧
      ∀ v, v ∈ rest ∨ v ∈ F) ?_ _
      ⟨D₀, [], hinv, fun _ => Bool.false_ne_true, fun v => .inl (mem_finRange v)⟩
    rintro i rest s ⟨D, F, hs, hon, hall⟩
    split
    next hmark =>
      have hF : i ∈ F := ((hs.mark i).1 hmark).resolve_left (hon i)
      exact ⟨D, F, hs, hon, fun v => (hall v).elim
        (fun hv => (mem_cons.1 hv).elim (fun heq => .inr (heq ▸ hF)) .inl) .inr⟩
    next hmark =>
      have hcard : s.unmarked < n + 1 := by
        have hle := Fintype.card_subtype_le fun v => ¬s.mark v
        rw [Fintype.card_fin] at hle
        exact lt_succ_of_le hle
      refine (dfsCycle_spec hadj hs hmark (fun u hu => absurd hu (hon u)) hcard).imp ?_
      rintro s' ⟨D', F', hs', hstep, hF⟩
      exact ⟨D', F', hs', hstep.onstack ▸ hon, fun v => (hall v).elim (fun hv =>
        (mem_cons.1 hv).elim (fun heq => .inr (heq ▸ hF)) .inl)
        fun hv => .inr (hstep.left hv)⟩
  obtain ⟨s, hrun, D, F, hs, -, hall⟩ := hloop.exists_ok
  rw [acyclic, hrun]
  exact ⟨s.graph, D, rfl, hs.holds, fun i => hs.settled i ((hall i).resolve_left
    not_mem_nil), hs.finishing.acyclic hs.nodup fun v => (hall v).resolve_left
    not_mem_nil, hs.kept⟩

end Graphviz.Hier

/-!
## The sparse graph in the mode `hier`

The arrays are symmetric, with the same length and weight at both ends of an edge, and the
directions make a graph without cycles. But the search does not leave out the edges without a
direction: such an edge looks like one that goes both ways, so that it gets a direction too.
-/

namespace Graphviz.Hier

open Function List Outcome RelGraph Relation Spring

variable {n : ℕ} {K : Type} {g : graph_t n K} {i j : Fin n}

/-- Two different nodes with an edge between them. -/
def Adjacent (g : graph_t n K) (i j : Fin n) : Prop :=
  i ≠ j ∧ between g i j ≠ []

/-- What an array has at the place of a neighbour. -/
def vtx_data.get {α : Type} (v : vtx_data n K) (a : vtx_data n K → Option (List α)) (j : Fin n) :
    Option α :=
  (a v).bind (·[v.edges.idxOf j]?)

/-- A way that goes along an edge, or back along one that is given without direction. -/
def Way (g : graph_t n K) (i j : Fin n) : Prop :=
  Adjacent g i j ∧ ((∃ ep ∈ g.out i, ep.aghead = j) ∨
    ∃ ep ∈ g.out j, ep.aghead = i ∧ ep.dir.any (startswith · (lit "none")))

theorem between_perm (g : graph_t n K) (i j : Fin n) : (between g i j).Perm (between g j i) :=
  perm_append_comm

theorem Adjacent.symm (h : Adjacent g i j) : Adjacent g j i :=
  ⟨h.1.symm, fun hnil => h.2 (perm_nil.1 (hnil ▸ between_perm g i j))⟩

/-- What is at the place of a neighbour. -/
theorem get_eq {α : Type} {v : vtx_data n K} {a : vtx_data n K → Option (List α)}
    {N : List (Fin n)} {x : α} {f : Fin n → α} (hv : v.edges = i :: N) (hne : i ≠ j) (hj : j ∈ N)
    (ha : a v = some (x :: N.map f)) : v.get a j = some (f j) := by
  rw [vtx_data.get, ha, hv, idxOf_cons_ne _ hne]
  change (x :: N.map f)[N.idxOf j + 1]? = _
  rw [getElem?_cons_succ, getElem?_map, getElem?_idxOf hj]
  rfl

/-! ## The directions of the edges -/

/-- The direction that a node puts in for the edges to another one: that of the first. -/
def FirstDirection (g : graph_t n K) (i j : Fin n) (x : ℤ) : Prop :=
  ∃ ep, (between g i j).head? = some ep ∧ x = edistOf i ep

/-- An edge between two nodes leads one of the ways. -/
theorem mem_between {ep : edge_t n K} :
    ep ∈ between g i j ↔ ep ∈ g.out i ∧ ep.aghead = j ∨ ep ∈ g.out j ∧ ep.aghead = i := by
  rw [between, mem_append, mem_filter, mem_filter, decide_eq_true_iff,
    decide_eq_true_iff]

theorem FirstDirection.opposite {x y : ℤ} (hne : i ≠ j) (h : FirstDirection g i j x)
    (h' : FirstDirection g j i y) (hx : x = 1) : y = -1 := by
  obtain ⟨ep, hep, rfl⟩ := h
  obtain ⟨ep', hep', rfl⟩ := h'
  have hdir : ¬ep.dir.any (startswith · (lit "none")) := fun hnone => by
    rw [edistOf, if_pos hnone] at hx
    exact absurd hx (by decide)
  have hhead : i = ep.aghead := by
    by_contra hnot
    rw [edistOf, if_neg hdir, if_neg hnot] at hx
    exact absurd hx (by decide)
  -- the edges from `i` would come first
  have hnil : (g.out i).filter (·.aghead = j) = [] := by
    rcases hout : (g.out i).filter (·.aghead = j) with _ | ⟨e, es⟩
    · exact hout
    · rw [between, hout] at hep
      have he : e.aghead = j :=
        of_decide_eq_true (mem_filter.1 (hout ▸ mem_cons_self : e ∈ _)).2
      obtain rfl := Option.some.inj hep
      exact absurd (hhead.trans he) hne
  rw [between, hnil, nil_append] at hep
  rw [between, hnil, append_nil] at hep'
  obtain rfl := Option.some.inj (hep.symm.trans hep')
  rw [edistOf, if_neg hdir, if_neg fun heq => hne (hhead.trans heq.symm)]

/-- Where a node puts in no in-edge there is a way. -/
theorem FirstDirection.way {x : ℤ} (hne : i ≠ j) (h : FirstDirection g i j x) (hx : x ≠ 1) :
    Way g i j := by
  obtain ⟨ep, hep, rfl⟩ := h
  have hmem : ep ∈ between g i j := mem_of_mem_head? hep
  refine ⟨⟨hne, ne_nil_of_mem hmem⟩, ?_⟩
  obtain ⟨hout, hhead⟩ | ⟨hout, hhead⟩ := mem_between.1 hmem
  · exact .inl ⟨ep, hout, hhead⟩
  · refine .inr ⟨ep, hout, hhead, ?_⟩
    by_contra hdir
    rw [edistOf, if_neg hdir, if_pos hhead.symm] at hx
    exact hx rfl

/-- Where there is no way back, the edges leave the node. -/
theorem FirstDirection.tail {x y : ℤ} (hne : i ≠ j) (h : FirstDirection g i j x)
    (h' : FirstDirection g j i y) (hway : ¬Way g j i) : x = -1 ∧ y = 1 := by
  have hy : y = 1 := not_not.1 fun hy => hway (h'.way hne.symm hy)
  exact ⟨h'.opposite hne.symm h hy, hy⟩

/-! ## The arrays -/

theorem arraysOf_hier (g : graph_t n K) (model : Model) :
    (arraysOf g .MODE_HIER model).haveDir = true :=
  rfl

variable [AddCommMonoid K] [One K] [LinearOrder K] {c : Arrays}
  {graph : Fin n → vtx_data n K} {model : Model}

/-- The arrays of a graph: each node comes first in its own and is not in it again, the others are
its neighbours, with the largest length and the sum of the weights of the edges between them. -/
structure Sparse (c : Arrays) (g : graph_t n K) (graph : Fin n → vtx_data n K) : Prop where
  head : ∀ i, (graph i).edges.head? = some i
  nodup : ∀ i, (graph i).edges.Nodup
  adjacent : ∀ i j, j ∈ (graph i).edges.tail ↔ Adjacent g i j
  symm : ∀ i j, j ∈ (graph i).edges.tail → i ∈ (graph j).edges.tail
  length : ∀ i j, Adjacent g i j → ∃ x,
    IsGreatest {y | ∃ ep ∈ between g i j, lengthOf c ep = y} x ∧
      (graph i).get (·.ewgts) j = some x ∧ (graph j).get (·.ewgts) i = some x
  weight : if c.haveWt then
      ∀ i j, Adjacent g i j → ∃ w, w = ((between g i j).map (·.factor)).sum ∧
        (graph i).get (·.eweights) j = some w ∧ (graph j).get (·.eweights) i = some w
    else ∀ i, (graph i).eweights = none

/-- The direction at a node of the edge to another one. -/
def direction (graph : Fin n → vtx_data n K) (i j : Fin n) : Option ℤ :=
  (graph i).get (·.edists) j

/-- The directions of the edges: between two nodes they are opposite, but none for edges without
direction; an edge is at its tail the one that leaves, unless it is on a cycle or joins the same
nodes as another one the other way; and there are no cycles. -/
structure Directions (g : graph_t n K) (graph : Fin n → vtx_data n K) : Prop where
  undirected : ∀ i j, Adjacent g i j → (∀ ep ∈ between g i j, ep.dir = some (lit "none")) →
    direction graph i j = some 0 ∧ direction graph j i = some 0
  opposite : ∀ i j, Adjacent g i j → (∃ ep ∈ between g i j, ep.dir ≠ some (lit "none")) →
    direction graph i j = some (-1) ∧ direction graph j i = some 1 ∨
      direction graph i j = some 1 ∧ direction graph j i = some (-1)
  tail : ∀ i j, Adjacent g i j → ¬ReflTransGen (Way g) j i →
    direction graph i j = some (-1) ∧ direction graph j i = some 1
  acyclic : Acyclic fun i j => j ∈ (graph i).edges.tail ∧ direction graph i j = some (-1)

/-- The arrays before the search, with directions. -/
structure Rows (c : Arrays) (g : graph_t n K) (N : Fin n → List (Fin n)) (L W : Fin n → Fin n → K)
    (D : Fin n → Fin n → ℤ) : Prop where
  row : ∀ i, Neighbours c g i (N i) (L i) (W i) (D i)
  haveDir : c.haveDir = true

variable {N : Fin n → List (Fin n)} {L W : Fin n → Fin n → K} {D₀ D : Fin n → Fin n → ℤ}

theorem Rows.adjacency (h : Rows c g N L W D₀) :
    Adjacency (fun i => .of c i (N i) (L i) (W i) (D₀ i)) N where
  edges _ := rfl
  nodup i := (h.row i).nodup
  symm {i j} hj := ((h.row j).mem i).2 (Adjacent.symm (((h.row i).mem j).1 hj))

theorem Rows.of_eq (h : Rows c g N L W D₀) (i : Fin n) (D : Fin n → ℤ) :
    ({ vtx_data.of c i (N i) (L i) (W i) (D₀ i) with edists := some (0 :: (N i).map D) } :
      vtx_data n K) = .of c i (N i) (L i) (W i) D := by
  rw [vtx_data.of, vtx_data.of, if_pos h.haveDir, if_pos h.haveDir]

/-- The arrays of the graph are as the loops over the edges leave them. -/
theorem Rows.sparse (h : Rows c g N L W D₀)
    (hgraph : ∀ i, graph i = .of c i (N i) (L i) (W i) (D i)) : Sparse c g graph := by
  have hedges : ∀ i, (graph i).edges = i :: N i := fun i => by rw [hgraph i]; rfl
  have hadj : ∀ i j, j ∈ (graph i).edges.tail ↔ Adjacent g i j := fun i j => by
    rw [hedges i]
    exact (h.row i).mem j
  have hmem : ∀ i j, Adjacent g i j → j ∈ N i := fun i j => ((h.row i).mem j).2
  refine ⟨fun i => by rw [hedges i]; rfl, fun i => (hedges i).symm ▸ (h.row i).nodup, hadj,
    fun i j hj => (hadj j i).2 (Adjacent.symm ((hadj i j).1 hj)), fun i j hij => ?_, ?_⟩
  · have hlen : ∀ u v, Adjacent g u v → (graph u).get (·.ewgts) v = some (L u v) := fun u v huv =>
      get_eq (hedges u) huv.1 (hmem u v huv) (by
        rw [hgraph u]
        exact if_pos (.inr h.haveDir))
    have hgreatest := (h.row i).len j (hmem i j hij)
    have hset : {y | ∃ ep ∈ between g i j, lengthOf c ep = y} =
        {y | ∃ ep ∈ between g j i, lengthOf c ep = y} := by
      ext y
      exact exists_congr fun ep => and_congr_left fun _ => (between_perm g i j).mem_iff
    have hsame : L j i = L i j :=
      ((h.row j).len i (hmem j i hij.symm)).unique (hset ▸ hgreatest)
    exact ⟨L i j, hgreatest, hlen i j hij, hsame ▸ hlen j i hij.symm⟩
  · split
    next hwt =>
      intro i j hij
      have hw : ∀ u v, Adjacent g u v → (graph u).get (·.eweights) v = some (W u v) :=
        fun u v huv => get_eq (hedges u) huv.1 (hmem u v huv) (by
          rw [hgraph u]
          exact if_pos hwt)
      have hsame : W j i = W i j := by
        rw [(h.row i).wt j (hmem i j hij), (h.row j).wt i (hmem j i hij.symm)]
        exact (((between_perm g j i).map _).sum_eq)
      exact ⟨W i j, (h.row i).wt j (hmem i j hij), hw i j hij, hsame ▸ hw j i hij.symm⟩
    next hwt =>
      intro i
      rw [hgraph i]
      exact if_neg hwt

/-- The directions are those that the search has left. -/
theorem Rows.direction_eq (h : Rows c g N L W D₀)
    (hgraph : ∀ i, graph i = .of c i (N i) (L i) (W i) (D i)) (hij : Adjacent g i j) :
    direction graph i j = some (D i j) := by
  refine get_eq (by rw [hgraph i]; rfl) hij.1 (((h.row i).mem j).2 hij) (x := 0) ?_
  rw [hgraph i]
  exact if_pos h.haveDir

/-- In the mode `hier` the graph is made, and the search directs each of its edges. -/
theorem makeGraphData_hier (g : graph_t n K) (model : Model) :
    ∃ d N L W D₀ D, makeGraphData g .MODE_HIER model = .ok d ∧
      Rows (arraysOf g .MODE_HIER model) g N L W D₀ ∧
      (∀ i, d.graph i = .of (arraysOf g .MODE_HIER model) i (N i) (L i) (W i) (D i)) ∧
      Directed N D₀ D := by
  choose N L W D₀ hrow hgraph using sparseGraph_spec (arraysOf g .MODE_HIER model) g
  have h : Rows (arraysOf g .MODE_HIER model) g N L W D₀ := ⟨hrow, arraysOf_hier g model⟩
  have hfirst : ∀ i, ∀ j ∈ N i, FirstDirection g i j (D₀ i j) := fun i j hj => (hrow i).dir j hj
  obtain ⟨graph, D, hrun, hgraph', hdir⟩ := acyclic_spec h.adjacency
    (fun i => (hgraph i).trans (h.of_eq i (D₀ i)).symm) fun i j hj =>
      (hfirst i j hj).opposite (h.adjacency.ne hj) (hfirst j i (h.adjacency.symm hj))
  refine ⟨⟨graph, (sparseGraph (arraysOf g .MODE_HIER model) g).nedges / 2⟩, N, L, W, D₀, D, ?_, h,
    fun i => (hgraph' i).trans (h.of_eq i (D i)), hdir⟩
  rw [makeGraphData, if_pos (arraysOf_hier g model), hrun]
  rfl

/-- The directions are right when each two neighbours have an edge with direction between them. -/
theorem Rows.directions (h : Rows c g N L W D₀) (hdir : Directed N D₀ D)
    (hgraph : ∀ i, graph i = .of c i (N i) (L i) (W i) (D i))
    (hall : ∀ i j, Adjacent g i j → ∃ ep ∈ between g i j, ep.dir ≠ some (lit "none")) :
    Directions g graph := by
  have hmem : ∀ i j, Adjacent g i j → j ∈ N i := fun i j => ((h.row i).mem j).2
  have hdirection : ∀ i j, Adjacent g i j → direction graph i j = some (D i j) := fun i j =>
    h.direction_eq hgraph
  refine ⟨fun i j hij hnone => ?_, fun i j hij _ => ?_, fun i j hij hway => ?_, ?_⟩
  · obtain ⟨ep, hep, hne⟩ := hall i j hij
    exact absurd (hnone ep hep) hne
  · rw [hdirection i j hij, hdirection j i hij.symm, Option.some.injEq, Option.some.injEq,
      Option.some.injEq, Option.some.injEq]
    exact Or.symm (hdir.opposite i j (hmem i j hij))
  · have harc : ∀ u v, Arc N D₀ u v → Way g u v := fun u v huv =>
      FirstDirection.way (h.adjacency.ne huv.1) ((h.row u).dir v huv.1) huv.2
    have hback : ¬ReflTransGen (Arc N D₀) j i := fun hr => hway (ReflTransGen.mono harc j i hr)
    obtain ⟨htail, hhead⟩ := FirstDirection.tail hij.1 ((h.row i).dir j (hmem i j hij))
      ((h.row j).dir i (hmem j i hij.symm)) fun hw => hway (.single hw)
    rw [hdirection i j hij, hdirection j i hij.symm,
      hdir.kept i j (hmem i j hij) fun hm => hback hm.2,
      hdir.kept j i (hmem j i hij.symm) fun hm => hback hm.1, htail, hhead]
    exact ⟨rfl, rfl⟩
  · refine hdir.acyclic.mono fun i j ⟨hj, heq⟩ => ?_
    have hij : Adjacent g i j := ((h.row i).mem j).1 (by rwa [hgraph i] at hj)
    rw [hdirection i j hij] at heq
    exact ⟨hmem i j hij, Option.some.inj heq⟩

/-- The sparse graph is as it should be exactly when no two nodes have only edges without direction
between them. -/
theorem makeGraphData_hier_iff (g : graph_t n K) (model : Model) :
    ∃ d, makeGraphData g .MODE_HIER model = .ok d ∧
      (Sparse (arraysOf g .MODE_HIER model) g d.graph ∧ Directions g d.graph ↔
        ∀ i j, Adjacent g i j → ∃ ep ∈ between g i j, ep.dir ≠ some (lit "none")) := by
  obtain ⟨d, N, L, W, D₀, D, hrun, h, hgraph, hdir⟩ := makeGraphData_hier g model
  refine ⟨d, hrun, fun ⟨_, hspec⟩ i j hij => ?_, fun hall =>
    ⟨h.sparse hgraph, h.directions hdir hgraph hall⟩⟩
  by_contra hnot
  have hzero := (hspec.undirected i j hij fun ep hep =>
    not_not.1 fun hne => hnot ⟨ep, hep, hne⟩).1
  rw [h.direction_eq hgraph hij, Option.some.injEq] at hzero
  obtain ⟨hone, -⟩ | ⟨hone, -⟩ := hdir.opposite i j (((h.row i).mem j).2 hij)
  · exact absurd (hone.symm.trans hzero) (by decide)
  · exact absurd (hone.symm.trans hzero) (by decide)

/-! ## An edge without direction -/

attribute [local instance] Instances.neZero_two

/-- Two nodes with an edge between them that has `dir=none`. -/
def undirectedPair : graph_t 2 ℕ where
  out u := if u = 0 then [⟨0, 1, 1, 1, some (lit "none")⟩] else []
  inn v := if v = 1 then [⟨0, 1, 1, 1, some (lit "none")⟩] else []
  hasLen := false
  hasWeight := false
  tail := by decide
  head := by decide
  parallel := by decide

/-- The edge leaves the first node in the sparse graph. -/
theorem makeGraphData_undirectedPair :
    ∃ d, makeGraphData undirectedPair .MODE_HIER .MODEL_SHORTPATH = .ok d ∧
      ¬Directions undirectedPair d.graph := by
  refine ⟨_, rfl, fun hspec => ?_⟩
  have hzero := (hspec.undirected 0 1 ⟨by decide, by decide⟩ (by decide)).1
  exact absurd hzero (by decide)

end Graphviz.Hier
