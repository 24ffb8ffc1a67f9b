import Graphviz.Circogen.Skeleton
import Graphviz.Library.Instances
import Graphviz.Library.Pairs

/-!
# Edge crossings on a circle (`circogen/blockpath.c`, `edgelist.c`, `nodelist.c`)

`count_all_crossings` goes once around the circle and keeps the edges whose first end it has met in
a set. `reduce` moves one node after another next to its neighbours as long as fewer crossings are
counted. The set is ordered by addresses, which is left out since only its members are counted; the
`int` counters do not overflow.
-/

namespace Graphviz.Circogen

open Function Nat

variable {n : ℕ}

/-- An edge as it is found at one of its ends: an `AGOUTEDGE` at the tail, or an `AGINEDGE`. -/
structure half_t (n : ℕ) where
  edge : edge_t n
  isOut : Bool
  deriving DecidableEq

/-- The halves that `agfstedge` and `agnxtedge` find at a node. -/
def halvesOf (edges : List (edge_t n)) (u : Fin n) : List (half_t n) :=
  (outEdges edges u).map (⟨·, true⟩) ++
    ((inEdges edges u).filter fun e => e.agtail ≠ u).map (⟨·, false⟩)

/-- `add_edge`: the list is a set of halves. -/
def add_edge (list : List (half_t n)) (e : half_t n) : List (half_t n) :=
  if e ∈ list then list else e :: list

/-- `remove_edge`. -/
def remove_edge (list : List (half_t n)) (e : half_t n) : List (half_t n) :=
  list.erase e

/-- The state of `count_all_crossings`: `EDGEORDER` is a field that the two halves of an edge
share. -/
structure count_t (n : ℕ) where
  openEdgeList : List (half_t n)
  EDGEORDER : edge_t n → ℕ
  crossings : ℕ

/-- The first loop over the edges of a node `u`, at the edge `e`. -/
def closeEdge (u : Fin n) (s : count_t n) (e : half_t n) : count_t n :=
  if 0 < s.EDGEORDER e.edge then
    { s with
      crossings := s.crossings + s.openEdgeList.countP fun ep =>
        s.EDGEORDER ep.edge > s.EDGEORDER e.edge ∧ ep.edge.aghead ≠ u ∧ ep.edge.agtail ≠ u
      openEdgeList := remove_edge s.openEdgeList e }
  else s

/-- The second loop over the edges of a node, at the edge `e`. -/
def openEdge (order : ℕ) (s : count_t n) (e : half_t n) : count_t n :=
  if s.EDGEORDER e.edge = 0 then
    { s with
      EDGEORDER := update s.EDGEORDER e.edge order
      openEdgeList := add_edge s.openEdgeList e }
  else s

/-- What `count_all_crossings` does at a node of the list, with `order`. -/
def countNode (edges : List (edge_t n)) (s : count_t n × ℕ) (u : Fin n) : count_t n × ℕ :=
  let closed := (halvesOf edges u).foldl (closeEdge u) s.1
  ((halvesOf edges u).foldl (openEdge s.2) closed, s.2 + 1)

/-- `count_all_crossings`. -/
def count_all_crossings (edges : List (edge_t n)) (list : List (Fin n)) : ℕ :=
  (list.foldl (countNode edges) (⟨[], fun _ => 0, 0⟩, 1)).1.crossings

/-- `insertNodelist`. -/
def insertNodelist (list : List (Fin n)) (cn neighbor : Fin n) (pos : ℕ) : List (Fin n) :=
  let list := list.erase cn
  match list.idxOf? neighbor with
  | some i => list.insertIdx (if pos = 0 then i else i + 1) cn
  | none => list

/-- The moves that `reduce` tries: a node, one of its neighbours, and the side of it. -/
def moves (edges : List (edge_t n)) : List (Fin n × Fin n × ℕ) :=
  (List.finRange n).flatMap fun curnode =>
    (edgesOf edges curnode).flatMap fun e =>
      let neighbor := if e.agtail = curnode then e.aghead else e.agtail
      [(curnode, neighbor, 0), (curnode, neighbor, 1)]

/-- The loops of `reduce` over the moves that are left. -/
def tryMoves (edges : List (edge_t n)) :
    List (Fin n × Fin n × ℕ) → List (Fin n) → ℕ → List (Fin n) × ℕ
  | [], list, crossings => (list, crossings)
  | (curnode, neighbor, j) :: ms, list, crossings =>
    let moved := insertNodelist list curnode neighbor j
    let newCrossings := count_all_crossings edges moved
    if newCrossings < crossings then
      if newCrossings = 0 then (moved, 0) else tryMoves edges ms moved newCrossings
    else tryMoves edges ms list crossings

/-- `reduce`, with what it leaves in `cnt`. -/
def reduce (edges : List (edge_t n)) (list : List (Fin n)) (cnt : ℕ) : List (Fin n) × ℕ :=
  tryMoves edges (moves edges) list cnt

/-- `CROSS_ITER`. -/
def CROSS_ITER : ℕ := 10

/-- The loop of `reduce_edge_crossings`. -/
def reduceLoop (edges : List (edge_t n)) : ℕ → List (Fin n) → ℕ → List (Fin n)
  | 0, list, _ => list
  | i + 1, list, origCrossings =>
    let (list, crossings) := reduce edges list origCrossings
    if origCrossings = crossings ∨ crossings = 0 then list else reduceLoop edges i list crossings

/-- `reduce_edge_crossings`. -/
def reduce_edge_crossings (edges : List (edge_t n)) (list : List (Fin n)) : List (Fin n) :=
  let crossings := count_all_crossings edges list
  if crossings = 0 then list else reduceLoop edges CROSS_ITER list crossings

/-! ## What is to be counted -/

/-- The place of the first end of an edge in the list. -/
def lo (list : List (Fin n)) (e : edge_t n) : ℕ := min (list.idxOf e.agtail) (list.idxOf e.aghead)

/-- The place of the second end of an edge in the list. -/
def hi (list : List (Fin n)) (e : edge_t n) : ℕ := max (list.idxOf e.agtail) (list.idxOf e.aghead)

/-- The second edge starts between the ends of the first and ends after it. -/
def Crosses (list : List (Fin n)) (e f : edge_t n) : Prop :=
  lo list e < lo list f ∧ lo list f < hi list e ∧ hi list e < hi list f

instance (list : List (Fin n)) (e f : edge_t n) : Decidable (Crosses list e f) :=
  inferInstanceAs (Decidable (_ ∧ _ ∧ _))

/-- The ends of the edges are different and alternate around the circle. -/
def Alternate (list : List (Fin n)) (e f : edge_t n) : Prop :=
  Crosses list e f ∨ Crosses list f e

instance (list : List (Fin n)) (e f : edge_t n) : Decidable (Alternate list e f) :=
  inferInstanceAs (Decidable (_ ∨ _))

theorem alternate_comm {list : List (Fin n)} {e f : edge_t n} :
    Alternate list e f ↔ Alternate list f e := Or.comm

/-- The number of unordered pairs of edges that alternate. -/
def crossingNumber (edges : List (edge_t n)) (list : List (Fin n)) : ℕ :=
  Pairs.sum edges.toFinset (fun e f => if Alternate list e f then 1 else 0)
    fun _ _ => if_congr alternate_comm rfl rfl

/-- The second edge lies between the ends of the first. -/
def Nested (list : List (Fin n)) (e f : edge_t n) : Prop :=
  lo list e < lo list f ∧ hi list f < hi list e

instance (list : List (Fin n)) (e f : edge_t n) : Decidable (Nested list e f) :=
  inferInstanceAs (Decidable (_ ∧ _))

/-- The edges have no common end. -/
def Apart (e f : edge_t n) : Prop :=
  e.agtail ≠ f.agtail ∧ e.agtail ≠ f.aghead ∧ e.aghead ≠ f.agtail ∧ e.aghead ≠ f.aghead

/-- What is to hold of a list: the crossings are counted, `reduce_edge_crossings` leaves the nodes
and no more crossings, and `reduce` finds the crossings of what it returns. -/
structure Counted (edges : List (edge_t n)) (list : List (Fin n)) : Prop where
  count : count_all_crossings edges list = crossingNumber edges list
  perm : (reduce_edge_crossings edges list).Perm list
  le : crossingNumber edges (reduce_edge_crossings edges list) ≤ crossingNumber edges list
  reduced : (reduce edges list (count_all_crossings edges list)).2 =
    crossingNumber edges (reduce edges list (count_all_crossings edges list)).1

end Graphviz.Circogen

/-!
## What `count_all_crossings` counts

The half of an edge that is met at its second end is not the one that was put into the set at its
first end, so that no edge is ever taken out again. At the second end of an edge all edges count
that start after its first end and have not their ends there: those that cross it, and also those
that lie between its ends.
-/

namespace Graphviz.Circogen

open Function List Nat

variable {n : ℕ} {edges : List (edge_t n)} {list : List (Fin n)} {e f : edge_t n} {u v : Fin n}
  {k : ℕ}

/-! ## Places -/

/-- The half of an edge at its first end. -/
def openHalf (list : List (Fin n)) (e : edge_t n) : half_t n :=
  ⟨e, list.idxOf e.agtail < list.idxOf e.aghead⟩

/-- What an edge adds to the count at its second end. -/
def cost (edges : List (edge_t n)) (list : List (Fin n)) (e : edge_t n) : ℕ :=
  edges.countP fun f => lo list e < lo list f ∧ lo list f < hi list e ∧ hi list f ≠ hi list e

/-- The list has every node once. -/
def Listing (list : List (Fin n)) : Prop := list.Perm (finRange n)

theorem Listing.mem (h : Listing list) (u : Fin n) : u ∈ list :=
  h.mem_iff.2 (mem_finRange u)

theorem Listing.nodup (h : Listing list) : list.Nodup := h.nodup_iff.2 (nodup_finRange n)

theorem Listing.idxOf_inj (h : Listing list) : list.idxOf u = list.idxOf v ↔ u = v :=
  List.idxOf_inj (h.mem u)

theorem lo_le_hi : lo list e ≤ hi list e := min_le_max

theorem lo_lt_hi (h : Listing list) (hl : e.agtail ≠ e.aghead) : lo list e < hi list e :=
  min_lt_max.2 fun heq => hl (h.idxOf_inj.1 heq)

theorem hi_lt (h : Listing list) : hi list e < list.length :=
  max_lt (idxOf_lt_length_of_mem (h.mem _)) (idxOf_lt_length_of_mem (h.mem _))

/-- A node is an end of an edge if it is in one of its places. -/
theorem end_iff (h : Listing list) :
    e.agtail = u ∨ e.aghead = u ↔ lo list e = list.idxOf u ∨ hi list e = list.idxOf u := by
  rw [lo, hi, ← h.idxOf_inj, ← h.idxOf_inj]
  obtain hle | hle := le_total (list.idxOf e.agtail) (list.idxOf e.aghead)
  · rw [min_eq_left hle, max_eq_right hle]
  · rw [min_eq_right hle, max_eq_left hle, or_comm]

/-! ## Halves -/

theorem mem_halvesOf {h : half_t n} : h ∈ halvesOf edges u ↔ h.edge ∈ edges ∧
    (h.isOut = true ∧ h.edge.agtail = u ∨
      h.isOut = false ∧ h.edge.aghead = u ∧ h.edge.agtail ≠ u) := by
  obtain ⟨e, isOut⟩ := h
  rw [halvesOf, mem_append, mem_map, mem_map]
  constructor
  · rintro (⟨e, he, heq⟩ | ⟨e, he, heq⟩) <;> cases heq
    · obtain ⟨hmem, ht⟩ := mem_outEdges.1 he
      exact ⟨hmem, .inl ⟨rfl, ht⟩⟩
    · obtain ⟨hin, hne⟩ := mem_filter.1 he
      obtain ⟨hmem, hh⟩ := mem_inEdges.1 hin
      exact ⟨hmem, .inr ⟨rfl, hh, of_decide_eq_true hne⟩⟩
  · rintro ⟨hmem, ⟨rfl, ht⟩ | ⟨rfl, hh, hne⟩⟩
    · exact .inl ⟨e, mem_outEdges.2 ⟨hmem, ht⟩, rfl⟩
    · exact .inr ⟨e, mem_filter.2 ⟨mem_inEdges.2 ⟨hmem, hh⟩, decide_eq_true hne⟩, rfl⟩

theorem map_edge_halvesOf : (halvesOf edges u).map half_t.edge = edgesOf edges u := by
  rw [halvesOf, edgesOf, map_append, map_map, map_map]
  exact congrArg₂ _ (map_id _) (map_id _)

/-- An edge is met by the same half as at its first end only there. -/
theorem eq_openHalf_iff (hlist : Listing list) {h : half_t n} (hmem : h ∈ halvesOf edges u)
    (hloop : h.edge.agtail ≠ h.edge.aghead) :
    h = openHalf list h.edge ↔ lo list h.edge = list.idxOf u := by
  obtain ⟨e, isOut⟩ := h
  have hne : list.idxOf e.agtail ≠ list.idxOf e.aghead := fun heq => hloop (hlist.idxOf_inj.1 heq)
  have hhalf : (⟨e, isOut⟩ : half_t n) = openHalf list e ↔
      isOut = decide (list.idxOf e.agtail < list.idxOf e.aghead) :=
    ⟨fun h => congrArg half_t.isOut h, fun h => congrArg (half_t.mk e) h⟩
  rw [hhalf]
  obtain ⟨-, ⟨rfl, rfl⟩ | ⟨rfl, rfl, -⟩⟩ := mem_halvesOf.1 hmem
  · rw [eq_comm, decide_eq_true_iff, lo, min_eq_left_iff]
    exact ⟨le_of_lt, fun hle => lt_of_le_of_ne hle hne⟩
  · rw [eq_comm, decide_eq_false_iff_not, lo, min_eq_right_iff, not_lt]

theorem nodup_halvesOf (hs : Simple edges) : ((halvesOf edges u).map half_t.edge).Nodup := by
  rw [map_edge_halvesOf]
  exact nodup_edgesOf hs.nodup

theorem filter_lt_succ_perm {α : Type} (g : α → ℕ) (k : ℕ) (l : List α) :
    (l.filter fun a => g a < k + 1).Perm
      ((l.filter fun a => g a < k) ++ l.filter fun a => g a = k) := by
  induction l with
  | nil => exact .refl _
  | cons a l ih =>
    obtain hlt | heq | hgt := lt_trichotomy (g a) k
    · rw [filter_cons_of_pos (by simpa using lt_succ_of_lt hlt),
        filter_cons_of_pos (by simpa using hlt),
        filter_cons_of_neg (by simpa using hlt.ne)]
      exact ih.cons a
    · rw [filter_cons_of_pos (by simpa using lt_succ_of_le heq.le),
        filter_cons_of_neg (by simpa using heq.ge),
        filter_cons_of_pos (by simpa using heq)]
      exact (ih.cons a).trans perm_middle.symm
    · have hge : ¬ g a < k + 1 := not_lt.2 hgt
      rw [filter_cons_of_neg (by simpa using hge),
        filter_cons_of_neg (by simpa using hgt.le),
        filter_cons_of_neg (by simpa using hgt.ne')]
      exact ih

/-! ## A node of the list -/

/-- What has been counted before the place `k` of the list. -/
structure CountInv (edges : List (edge_t n)) (list : List (Fin n)) (k : ℕ)
    (s : count_t n) : Prop where
  edgeorder : ∀ e ∈ edges, s.EDGEORDER e = if lo list e < k then lo list e + 1 else 0
  opened : s.openEdgeList.Perm ((edges.filter fun e => lo list e < k).map (openHalf list))
  crossings : s.crossings = ((edges.filter fun e => hi list e < k).map (cost edges list)).sum

/-- What the first loop adds for a half. -/
def closeCost (edges : List (edge_t n)) (list : List (Fin n)) (k : ℕ) (h : half_t n) : ℕ :=
  if lo list h.edge < k then cost edges list h.edge else 0

theorem closeEdge_eq (hlist : Listing list) (hs : Simple edges) (hk : list.idxOf u = k)
    {s : count_t n}
    (hord : ∀ e ∈ edges, s.EDGEORDER e = if lo list e < k then lo list e + 1 else 0)
    (hopen : s.openEdgeList.Perm ((edges.filter fun e => lo list e < k).map (openHalf list)))
    {h : half_t n} (hmem : h ∈ halvesOf edges u) :
    closeEdge u s h = { s with crossings := s.crossings + closeCost edges list k h } := by
  have hedge := (mem_halvesOf.1 hmem).1
  rw [closeEdge, closeCost, hord _ hedge]
  by_cases hlt : lo list h.edge < k
  · rw [if_pos hlt, if_pos hlt, if_pos (succ_pos _)]
    have hhi : hi list h.edge = k := by
      have hend : h.edge.agtail = u ∨ h.edge.aghead = u := by
        obtain ⟨-, ⟨-, ht⟩ | ⟨-, hh, -⟩⟩ := mem_halvesOf.1 hmem
        · exact .inl ht
        · exact .inr hh
      rw [end_iff hlist, hk] at hend
      exact hend.resolve_left hlt.ne
    have hnot : h ∉ s.openEdgeList := fun hin => by
      obtain ⟨e, -, rfl⟩ := mem_map.1 (hopen.mem_iff.1 hin)
      have heq := (eq_openHalf_iff hlist hmem (hs.loopless _ hedge)).1 rfl
      rw [hk] at heq
      exact hlt.ne heq
    have hcount : (s.openEdgeList.countP fun ep => s.EDGEORDER ep.edge > lo list h.edge + 1 ∧
        ep.edge.aghead ≠ u ∧ ep.edge.agtail ≠ u) = cost edges list h.edge := by
      rw [hopen.countP_eq, countP_map, countP_filter, cost]
      refine countP_congr fun f hf => ?_
      have hapart : f.aghead ≠ u ∧ f.agtail ≠ u ↔ lo list f ≠ k ∧ hi list f ≠ k := by
        rw [and_comm, ne_eq, ne_eq, ← not_or, end_iff hlist, hk, not_or]
      simp only [Function.comp_apply, openHalf, Bool.and_eq_true, decide_eq_true_eq, hord f hf, hhi,
        hapart]
      split <;> omega
    rw [hcount, remove_edge, erase_of_not_mem hnot]
  · rw [if_neg hlt, if_neg hlt, if_neg (lt_irrefl 0)]
    rfl

theorem closeEdges_eq (hlist : Listing list) (hs : Simple edges) (hk : list.idxOf u = k)
    {s : count_t n}
    (hord : ∀ e ∈ edges, s.EDGEORDER e = if lo list e < k then lo list e + 1 else 0)
    (hopen : s.openEdgeList.Perm ((edges.filter fun e => lo list e < k).map (openHalf list)))
    {hs' : List (half_t n)} (hmem : ∀ h ∈ hs', h ∈ halvesOf edges u) :
    hs'.foldl (closeEdge u) s =
      { s with crossings := s.crossings + (hs'.map (closeCost edges list k)).sum } := by
  induction hs' generalizing s with
  | nil => rfl
  | cons h hs' ih =>
    have hrest := ih (s := { s with crossings := s.crossings + closeCost edges list k h })
      hord hopen fun h' hh' => hmem h' (mem_cons_of_mem _ hh')
    rw [foldl_cons, closeEdge_eq hlist hs hk hord hopen (hmem h mem_cons_self), hrest,
      map_cons, sum_cons, add_assoc]

theorem sum_map_ite {α : Type} (p : α → Prop) [DecidablePred p] (c : α → ℕ) (l : List α) :
    (l.map fun a => if p a then c a else 0).sum = ((l.filter fun a => p a).map c).sum := by
  induction l with
  | nil => rfl
  | cons a l ih =>
    by_cases ha : p a
    · rw [map_cons, sum_cons, if_pos ha, filter_cons_of_pos (by simpa using ha),
        map_cons, sum_cons, ih]
    · rw [map_cons, sum_cons, if_neg ha, zero_add, ih,
        filter_cons_of_neg (by simpa using ha)]

/-- The first loop adds what the edges cost that have their second ends at the node. -/
theorem sum_closeCost (hlist : Listing list) (hs : Simple edges) (hk : list.idxOf u = k) :
    ((halvesOf edges u).map (closeCost edges list k)).sum =
      ((edges.filter fun e => hi list e = k).map (cost edges list)).sum := by
  have hperm : (((halvesOf edges u).map half_t.edge).filter fun e => lo list e < k).Perm
      (edges.filter fun e => hi list e = k) := by
    refine (perm_ext_iff_of_nodup ((nodup_halvesOf hs).filter _) (hs.nodup.filter _)).2
      fun e => ?_
    rw [map_edge_halvesOf, mem_filter, mem_filter, mem_edgesOf, end_iff hlist, hk,
      decide_eq_true_iff, decide_eq_true_iff]
    have hlt : e ∈ edges → lo list e < hi list e := fun he => lo_lt_hi hlist (hs.loopless e he)
    constructor
    · rintro ⟨⟨he, h | h⟩, hlo⟩
      · exact absurd h hlo.ne
      · exact ⟨he, h⟩
    · rintro ⟨he, h⟩
      exact ⟨⟨he, .inr h⟩, h ▸ hlt he⟩
  rw [← (hperm.map _).sum_eq, ← sum_map_ite, map_map]
  rfl

/-- The second loop opens the edges that have their first ends at the node. -/
theorem openEdges {hs : List (half_t n)} {s : count_t n} (hnodup : (hs.map half_t.edge).Nodup)
    (hnew : ∀ h ∈ hs, s.EDGEORDER h.edge = 0 → h ∉ s.openEdgeList) :
    (∀ e, (hs.foldl (openEdge k) s).EDGEORDER e =
        if s.EDGEORDER e = 0 ∧ e ∈ hs.map half_t.edge then k else s.EDGEORDER e) ∧
      (hs.foldl (openEdge k) s).openEdgeList.Perm
        (s.openEdgeList ++ hs.filter fun h => s.EDGEORDER h.edge = 0) ∧
      (hs.foldl (openEdge k) s).crossings = s.crossings := by
  induction hs generalizing s with
  | nil =>
    refine ⟨fun e => ?_, ?_, rfl⟩
    · rw [map_nil, if_neg fun h => not_mem_nil h.2, foldl_nil]
    · rw [filter_nil, append_nil]
      exact .refl _
  | cons h hs ih =>
    rw [map_cons, nodup_cons] at hnodup
    obtain ⟨hh, hnodup⟩ := hnodup
    rw [foldl_cons]
    have hne : ∀ h' ∈ hs, h'.edge ≠ h.edge := fun h' hh' heq =>
      hh (heq ▸ mem_map_of_mem hh')
    by_cases hzero : s.EDGEORDER h.edge = 0
    · have hadd : openEdge k s h = { s with
          EDGEORDER := update s.EDGEORDER h.edge k, openEdgeList := h :: s.openEdgeList } := by
        rw [openEdge, if_pos hzero, add_edge, if_neg (hnew h mem_cons_self hzero)]
      rw [hadd]
      have hrest : ∀ h' ∈ hs, update s.EDGEORDER h.edge k h'.edge = s.EDGEORDER h'.edge :=
        fun h' hh' => update_of_ne (hne h' hh') _ _
      obtain ⟨hord, hperm, hcross⟩ := @ih { s with
          EDGEORDER := update s.EDGEORDER h.edge k, openEdgeList := h :: s.openEdgeList }
        hnodup fun h' hh' hz => by
          refine fun hin => (mem_cons.1 hin).elim (fun heq => hne h' hh' (heq ▸ rfl)) ?_
          exact hnew h' (mem_cons_of_mem _ hh') ((hrest h' hh').symm.trans hz)
      dsimp only at hord hperm
      refine ⟨fun e => ?_, ?_, hcross⟩
      · refine (hord e).trans ?_
        rw [map_cons]
        by_cases he : e = h.edge
        · subst he
          refine (if_neg fun hk => hh hk.2).trans ((update_self ..).trans ?_)
          exact (if_pos ⟨hzero, mem_cons_self⟩).symm
        · have hupd : update s.EDGEORDER h.edge k e = s.EDGEORDER e := update_of_ne he _ _
          refine if_congr ?_ rfl hupd
          rw [hupd, mem_cons, or_iff_right he]
      · have hfilter : (hs.filter fun h' => update s.EDGEORDER h.edge k h'.edge = 0) =
            hs.filter fun h' => s.EDGEORDER h'.edge = 0 :=
          filter_congr fun h' hh' => by rw [hrest h' hh']
        rw [hfilter] at hperm
        rw [filter_cons_of_pos (by simpa using hzero)]
        exact hperm.trans perm_middle.symm
    · have hskip : openEdge k s h = s := by rw [openEdge, if_neg hzero]
      rw [hskip]
      obtain ⟨hord, hperm, hcross⟩ := ih hnodup fun h' hh' => hnew h' (mem_cons_of_mem _ hh')
      refine ⟨fun e => ?_, ?_, hcross⟩
      · rw [hord, map_cons]
        refine if_congr (and_congr_right fun hz => ?_) rfl rfl
        have hne : e ≠ h.edge := fun he => hzero ((congrArg s.EDGEORDER he).symm.trans hz)
        exact (mem_cons.trans (or_iff_right hne)).symm
      · rwa [filter_cons_of_neg (by simpa using hzero)]

/-- The edges that the second loop opens at a node have their first ends there. -/
theorem opened_perm (hlist : Listing list) (hs : Simple edges) (hk : list.idxOf u = k)
    {s : count_t n} (h : CountInv edges list k s) :
    ((halvesOf edges u).filter fun h => s.EDGEORDER h.edge = 0).Perm
      ((edges.filter fun e => lo list e = k).map (openHalf list)) := by
  have hnodup : (halvesOf edges u).Nodup := (nodup_halvesOf hs).of_map _
  have hinj : Injective (openHalf list) := fun e f hef => congrArg half_t.edge hef
  refine (perm_ext_iff_of_nodup (hnodup.filter _) ((hs.nodup.filter _).map hinj)).2 fun x => ?_
  have hend : ∀ {x : half_t n}, x ∈ halvesOf edges u →
      lo list x.edge = k ∨ hi list x.edge = k := fun {x} hx => by
    have hend : x.edge.agtail = u ∨ x.edge.aghead = u := by
      obtain ⟨-, ⟨-, ht⟩ | ⟨-, hh, -⟩⟩ := mem_halvesOf.1 hx
      · exact .inl ht
      · exact .inr hh
    rwa [end_iff hlist, hk] at hend
  rw [mem_filter, mem_map, decide_eq_true_iff]
  constructor
  · rintro ⟨hx, hzero⟩
    have hmem := (mem_halvesOf.1 hx).1
    rw [h.edgeorder _ hmem] at hzero
    have hlo : lo list x.edge = k := by
      have hle : lo list x.edge ≤ hi list x.edge := lo_le_hi
      have hge : ¬ lo list x.edge < k := fun hlt => by
        rw [if_pos hlt] at hzero
        exact succ_ne_zero _ hzero
      have := hend hx
      omega
    refine ⟨x.edge, mem_filter.2 ⟨hmem, decide_eq_true hlo⟩, ?_⟩
    exact ((eq_openHalf_iff hlist hx (hs.loopless _ hmem)).2 (hlo.trans hk.symm)).symm
  · rintro ⟨e, he, rfl⟩
    obtain ⟨hmem, hlo⟩ := mem_filter.1 he
    have hlo := of_decide_eq_true hlo
    have hx : openHalf list e ∈ halvesOf edges u := by
      refine mem_halvesOf.2 ⟨hmem, ?_⟩
      rw [lo, ← hk] at hlo
      obtain hlt | hge := lt_or_ge (list.idxOf e.agtail) (list.idxOf e.aghead)
      · rw [min_eq_left hlt.le] at hlo
        exact .inl ⟨decide_eq_true hlt, hlist.idxOf_inj.1 hlo⟩
      · rw [min_eq_right hge] at hlo
        have hh := hlist.idxOf_inj.1 hlo
        exact .inr ⟨decide_eq_false hge.not_gt, hh, hh ▸ hs.loopless e hmem⟩
    refine ⟨hx, ?_⟩
    show s.EDGEORDER e = 0
    rw [h.edgeorder e hmem, if_neg hlo.ge.not_gt]

/-- A node of the list. -/
theorem CountInv.node (hlist : Listing list) (hs : Simple edges) (hk : list.idxOf u = k)
    {s : count_t n} (h : CountInv edges list k s) :
    CountInv edges list (k + 1) (countNode edges (s, k + 1) u).1 := by
  have hclose := closeEdges_eq hlist hs hk h.edgeorder h.opened fun x hx => hx
  rw [sum_closeCost hlist hs hk] at hclose
  have hopened := opened_perm hlist hs hk h
  rw [countNode, hclose]
  obtain ⟨hord, hperm, hcross⟩ := @openEdges n (k + 1) (halvesOf edges u)
    { s with crossings := s.crossings +
        ((edges.filter fun e => hi list e = k).map (cost edges list)).sum }
    (nodup_halvesOf hs) fun x hx hzero hin => by
      obtain ⟨e, he, rfl⟩ := mem_map.1 (h.opened.mem_iff.1 hin)
      obtain ⟨hmem, hlt⟩ := mem_filter.1 he
      have hzero : s.EDGEORDER e = 0 := hzero
      rw [h.edgeorder e hmem, if_pos (of_decide_eq_true hlt)] at hzero
      exact succ_ne_zero _ hzero
  refine ⟨fun e he => (hord e).trans ?_, hperm.trans ?_, hcross.trans ?_⟩
  · dsimp only
    have hmem : e ∈ edgesOf edges u ↔ lo list e = k ∨ hi list e = k := by
      rw [mem_edgesOf, and_iff_right he, end_iff hlist, hk]
    have hle : lo list e ≤ hi list e := lo_le_hi
    rw [h.edgeorder e he, map_edge_halvesOf]
    simp only [hmem]
    by_cases hlt : lo list e < k
    · rw [if_pos hlt, if_neg fun h => succ_ne_zero _ h.1, if_pos (lt_succ_of_lt hlt)]
    · rw [if_neg hlt]
      by_cases heq : lo list e = k
      · rw [if_pos ⟨rfl, .inl heq⟩, if_pos (heq ▸ lt_succ_self _), heq]
      · rw [if_neg (by omega), if_neg (by omega)]
  · exact (h.opened.append hopened).trans
      (map_append ▸ ((filter_lt_succ_perm (lo list) k edges).symm.map _))
  · dsimp only
    rw [h.crossings, ← sum_append, ← map_append]
    exact ((filter_lt_succ_perm (hi list) k edges).symm.map _).sum_eq

/-! ## The whole list -/

theorem CountInv.nodes (hlist : Listing list) (hs : Simple edges) {done rest : List (Fin n)}
    (heq : list = done ++ rest) {s : count_t n} (h : CountInv edges list done.length s) :
    CountInv edges list list.length (rest.foldl (countNode edges) (s, done.length + 1)).1 := by
  induction rest generalizing done s with
  | nil =>
    have hlen : done.length = list.length := by rw [heq, append_nil]
    rwa [foldl_nil, ← hlen]
  | cons u rest ih =>
    have hk : list.idxOf u = done.length := by
      have hnodup := hlist.nodup
      rw [heq, nodup_append] at hnodup
      have hu : u ∉ done := fun hu => hnodup.2.2 u hu u mem_cons_self rfl
      rw [heq, idxOf_append_of_notMem hu, idxOf_cons_self, add_zero]
    have hnext := h.node hlist hs hk
    have hlen : (done ++ [u]).length = done.length + 1 := length_append
    rw [← hlen] at hnext
    have hrest := ih (by rw [heq, append_cons]) hnext
    rw [hlen] at hrest
    rw [foldl_cons]
    exact hrest

theorem countP_eq_sum {α : Type} (p : α → Prop) [DecidablePred p] (l : List α) :
    (l.countP fun a => p a) = (l.map fun a => if p a then 1 else 0).sum := by
  rw [sum_map_ite, map_const', sum_replicate, smul_eq_mul, mul_one,
    countP_eq_length_filter]

/-- Of two edges that alternate the one that starts first crosses the other. -/
theorem crossingNumber_eq (hs : Simple edges) :
    crossingNumber edges list = (edges.map fun e => edges.countP (Crosses list e ·)).sum := by
  have hsym : ∀ e ∈ edges, ∀ f ∈ edges, (if Alternate list e f then 1 else 0) =
      (if Crosses list e f then 1 else 0) + if Crosses list f e then 1 else 0 := by
    intro e _ f _
    have hone : ¬ (Crosses list e f ∧ Crosses list f e) := fun h => h.1.1.asymm h.2.1
    by_cases hef : Crosses list e f
    · rw [if_pos (.inl hef), if_pos hef, if_neg fun hfe => hone ⟨hef, hfe⟩]
    · rw [if_neg hef, zero_add]
      exact if_congr (or_iff_right hef) rfl rfl
  have hself : (edges.map fun e => if Crosses list e e then 1 else 0).sum = 0 :=
    sum_eq_zero fun x hx => by
      obtain ⟨e, -, rfl⟩ := mem_map.1 hx
      exact if_neg fun h => h.1.ne rfl
  rw [crossingNumber, Pairs.sum_toFinset _ hs.nodup, Pairs.listSum_congr hsym]
  simp only [countP_eq_sum]
  rw [Pairs.sum_sum_map, hself, add_zero]

theorem cost_eq (hlist : Listing list) (hs : Simple edges) :
    cost edges list e = edges.countP (Crosses list e ·) + edges.countP (Nested list e ·) := by
  rw [cost, countP_eq_sum, countP_eq_sum, countP_eq_sum, ← sum_map_add]
  refine congrArg List.sum (map_congr_left fun f hf => ?_)
  have hlt := lo_lt_hi hlist (hs.loopless f hf)
  by_cases hc : Crosses list e f
  · rw [if_pos ⟨hc.1, hc.2.1, hc.2.2.ne'⟩, if_pos hc, if_neg fun hn => hn.2.asymm hc.2.2]
  · rw [if_neg hc, zero_add]
    refine if_congr ⟨fun h => ?_, fun hn => ⟨hn.1, hlt.trans hn.2, hn.2.ne⟩⟩ rfl rfl
    exact ⟨h.1, lt_of_le_of_ne (not_lt.1 fun h' => hc ⟨h.1, h.2.1, h'⟩) h.2.2⟩

/-- The crossings are counted, and the pairs of edges of which one lies under the other. -/
theorem count_all_crossings_eq (hlist : Listing list) (hs : Simple edges) :
    count_all_crossings edges list =
      crossingNumber edges list + (edges.map fun e => edges.countP (Nested list e ·)).sum := by
  have hstart : CountInv edges list ([] : List (Fin n)).length ⟨[], fun _ => 0, 0⟩ := by
    have hnone : ∀ g : edge_t n → ℕ, (edges.filter fun e => g e < 0) = [] := fun g =>
      filter_eq_nil_iff.2 fun e _ h => Nat.not_lt_zero _ (of_decide_eq_true h)
    refine ⟨fun e _ => rfl, ?_, ?_⟩
    · rw [length_nil, hnone, map_nil]
    · rw [length_nil, hnone, map_nil, sum_nil]
  have hcount := (hstart.nodes hlist hs (nil_append list).symm).crossings
  have hall : (edges.filter fun e => hi list e < list.length) = edges :=
    List.filter_eq_self.2 fun e _ => decide_eq_true (hi_lt hlist)
  rw [hall, map_congr_left fun e _ => cost_eq hlist hs, sum_map_add,
    ← crossingNumber_eq hs] at hcount
  exact hcount

/-- The count is right when no edge lies under another. -/
theorem count_eq_iff (hlist : Listing list) (hs : Simple edges) :
    count_all_crossings edges list = crossingNumber edges list ↔
      ∀ e ∈ edges, ∀ f ∈ edges, ¬ Nested list e f := by
  rw [count_all_crossings_eq hlist hs, add_eq_left, sum_eq_zero_iff]
  constructor
  · intro h e he f hf hnest
    have hzero := h _ (mem_map_of_mem he)
    rw [countP_eq_zero] at hzero
    exact hzero f hf (decide_eq_true hnest)
  · intro h x hx
    obtain ⟨e, he, rfl⟩ := mem_map.1 hx
    exact countP_eq_zero.2 fun f hf hnest => h e he f hf (of_decide_eq_true hnest)

/-! ## Moving nodes -/

theorem insertNodelist_perm {cn neighbor : Fin n} (hlist : Listing list) (hne : neighbor ≠ cn)
    (j : ℕ) : (insertNodelist list cn neighbor j).Perm list := by
  have hmem : neighbor ∈ list.erase cn := (mem_erase_of_ne hne).2 (hlist.mem neighbor)
  rw [insertNodelist]
  cases hi : (list.erase cn).idxOf? neighbor with
  | none => exact absurd hmem (idxOf?_eq_none_iff.1 hi)
  | some i =>
    obtain ⟨hlt, -⟩ := idxOf?_eq_some_iff.1 hi
    have hle : (if j = 0 then i else i + 1) ≤ (list.erase cn).length := by
      split
      · exact hlt.le
      · exact hlt
    exact (perm_insertIdx cn _ hle).trans (perm_cons_erase (hlist.mem cn)).symm

/-- A node and a neighbour of it. -/
theorem mem_moves (hs : Simple edges) {m : Fin n × Fin n × ℕ} (hm : m ∈ moves edges) :
    m.2.1 ≠ m.1 := by
  obtain ⟨u, -, hm⟩ := mem_flatMap.1 hm
  obtain ⟨e, he, hm⟩ := mem_flatMap.1 hm
  have hloop := hs.loopless e (mem_edgesOf.1 he).1
  have hne : (if e.agtail = u then e.aghead else e.agtail) ≠ u := by
    split
    next ht => exact ht ▸ hloop.symm
    next ht => exact ht
  obtain rfl | rfl := mem_pair.1 hm
  · exact hne
  · exact hne

theorem tryMoves_spec {ms : List (Fin n × Fin n × ℕ)} {cnt : ℕ}
    (hms : ∀ m ∈ ms, m.2.1 ≠ m.1) (hlist : Listing list)
    (hcnt : count_all_crossings edges list = cnt) :
    (tryMoves edges ms list cnt).1.Perm list ∧
      count_all_crossings edges (tryMoves edges ms list cnt).1 = (tryMoves edges ms list cnt).2 ∧
      (tryMoves edges ms list cnt).2 ≤ cnt := by
  induction ms generalizing list cnt with
  | nil => exact ⟨.refl _, hcnt, le_rfl⟩
  | cons m ms ih =>
    obtain ⟨curnode, neighbor, j⟩ := m
    have hperm := insertNodelist_perm hlist (hms _ mem_cons_self) j
    have hrest : ∀ m ∈ ms, m.2.1 ≠ m.1 := fun m hm => hms m (mem_cons_of_mem _ hm)
    rw [tryMoves]
    by_cases hlt : count_all_crossings edges (insertNodelist list curnode neighbor j) < cnt
    · rw [if_pos hlt]
      by_cases hzero : count_all_crossings edges (insertNodelist list curnode neighbor j) = 0
      · rw [if_pos hzero]
        exact ⟨hperm, hzero, Nat.zero_le _⟩
      · rw [if_neg hzero]
        obtain ⟨h1, h2, h3⟩ := ih hrest (hperm.trans hlist) rfl
        exact ⟨h1.trans hperm, h2, h3.trans hlt.le⟩
    · rw [if_neg hlt]
      exact ih hrest hlist hcnt

theorem reduce_spec (hs : Simple edges) {cnt : ℕ} (hlist : Listing list)
    (hcnt : count_all_crossings edges list = cnt) :
    (reduce edges list cnt).1.Perm list ∧
      count_all_crossings edges (reduce edges list cnt).1 = (reduce edges list cnt).2 ∧
      (reduce edges list cnt).2 ≤ cnt :=
  tryMoves_spec (fun _ => mem_moves hs) hlist hcnt

theorem reduceLoop_spec (hs : Simple edges) {i cnt : ℕ} (hlist : Listing list)
    (hcnt : count_all_crossings edges list = cnt) :
    (reduceLoop edges i list cnt).Perm list ∧
      count_all_crossings edges (reduceLoop edges i list cnt) ≤ cnt := by
  induction i generalizing list cnt with
  | zero => exact ⟨.refl _, hcnt.le⟩
  | succ i ih =>
    obtain ⟨hperm, hcount, hle⟩ := reduce_spec hs hlist hcnt
    rw [reduceLoop]
    generalize reduce edges list cnt = r at *
    obtain ⟨moved, crossings⟩ := r
    dsimp only at *
    split
    · exact ⟨hperm, hcount.le.trans hle⟩
    · obtain ⟨h1, h2⟩ := ih (hperm.trans hlist) hcount
      exact ⟨h1.trans hperm, h2.trans hle⟩

/-- `reduce_edge_crossings` leaves the nodes of the list, and what is counted does not grow. -/
theorem reduce_edge_crossings_spec (hs : Simple edges) (hlist : Listing list) :
    (reduce_edge_crossings edges list).Perm list ∧
      count_all_crossings edges (reduce_edge_crossings edges list) ≤
        count_all_crossings edges list := by
  rw [reduce_edge_crossings]
  split
  · exact ⟨.refl _, le_rfl⟩
  · exact reduceLoop_spec hs hlist rfl

/-! ## When the count is right -/

theorem apart_of (h₁ : list.idxOf e.agtail ≠ list.idxOf f.agtail)
    (h₂ : list.idxOf e.agtail ≠ list.idxOf f.aghead)
    (h₃ : list.idxOf e.aghead ≠ list.idxOf f.agtail)
    (h₄ : list.idxOf e.aghead ≠ list.idxOf f.aghead) : Apart e f :=
  ⟨fun h => h₁ (congrArg (list.idxOf ·) h), fun h => h₂ (congrArg (list.idxOf ·) h),
    fun h => h₃ (congrArg (list.idxOf ·) h), fun h => h₄ (congrArg (list.idxOf ·) h)⟩

theorem Nested.apart (h : Nested list e f) : Apart e f := by
  simp only [Nested, lo, hi] at h
  apply @apart_of n list <;> omega

/-- Edges without a common end can be listed so that one lies under the other. -/
theorem Apart.exists_nested (hef : Apart e f) (he : e.agtail ≠ e.aghead)
    (hf : f.agtail ≠ f.aghead) : ∃ list, Listing list ∧ Nested list e f := by
  obtain ⟨h1, h2, h3, h4⟩ := hef
  have hfirst : [e.agtail, f.agtail, f.aghead, e.aghead].Nodup := by
    simp [*, h3.symm, h4.symm]
  refine ⟨[e.agtail, f.agtail, f.aghead, e.aghead] ++
    (finRange n).filter fun v => v ∉ [e.agtail, f.agtail, f.aghead, e.aghead], ?_, ?_⟩
  · have hnodup := (nodup_finRange n).filter
      fun v => decide (v ∉ [e.agtail, f.agtail, f.aghead, e.aghead])
    refine (perm_ext_iff_of_nodup (hfirst.append hnodup fun v hv hv' => ?_)
      (nodup_finRange n)).2 fun v => ?_
    · exact of_decide_eq_true (mem_filter.1 hv').2 hv
    · rw [mem_append, mem_filter, decide_eq_true_iff]
      exact ⟨fun _ => mem_finRange v, fun hv => (em _).imp_right fun hnot => ⟨hv, hnot⟩⟩
  · simp only [Nested, lo, hi, cons_append, idxOf_cons_self, idxOf_cons_ne _ h1,
      idxOf_cons_ne _ h2, idxOf_cons_ne _ he, idxOf_cons_ne _ hf,
      idxOf_cons_ne _ h3.symm, idxOf_cons_ne _ h4.symm]
    omega

/-- The count, and with it the crossing reduction, is right for all lists of the nodes of a block
if and only if any two of its edges have a common end. For a single list the count is right if no
edge lies under another. -/
theorem count_all_crossings_iff (edges : List (edge_t n)) (hs : Simple edges) :
    (∀ list, Listing list → (count_all_crossings edges list = crossingNumber edges list ↔
      ∀ e ∈ edges, ∀ f ∈ edges, ¬ Nested list e f)) ∧
    ((∀ list, Listing list → Counted edges list) ↔ ∀ e ∈ edges, ∀ f ∈ edges, ¬ Apart e f) := by
  refine ⟨fun list hlist => count_eq_iff hlist hs, fun h e he f hf hef => ?_,
    fun h list hlist => ?_⟩
  · obtain ⟨list, hlist, hnest⟩ := hef.exists_nested (hs.loopless e he) (hs.loopless f hf)
    exact (count_eq_iff hlist hs).1 (h list hlist).count e he f hf hnest
  · have hcount : ∀ {l : List (Fin n)}, Listing l →
        count_all_crossings edges l = crossingNumber edges l := fun hl =>
      (count_eq_iff hl hs).2 fun e he f hf hnest => h e he f hf hnest.apart
    obtain ⟨hperm, hle⟩ := reduce_edge_crossings_spec hs hlist
    obtain ⟨hperm', hred, -⟩ := reduce_spec hs hlist rfl
    refine ⟨hcount hlist, hperm, ?_, ?_⟩
    · rwa [hcount (hperm.trans hlist), hcount hlist] at hle
    · rw [← hred, hcount (hperm'.trans hlist)]

attribute [local instance] Instances.neZero_four

/-- A cycle of four nodes. -/
def square : List (edge_t 4) := [⟨0, 1, 1⟩, ⟨1, 2, 2⟩, ⟨2, 3, 3⟩, ⟨3, 0, 4⟩]

theorem count_all_crossings_square :
    (∀ list, Listing list → (count_all_crossings square list = crossingNumber square list ↔
      ∀ e ∈ square, ∀ f ∈ square, ¬ Nested list e f)) ∧
    ((∀ list, Listing list → Counted square list) ↔ ∀ e ∈ square, ∀ f ∈ square, ¬ Apart e f) :=
  count_all_crossings_iff square ⟨by decide, by decide, by decide⟩

/-- In its own order the cycle has no crossing, and one is counted. -/
theorem not_counted_square : ¬ ∀ (n : ℕ) (edges : List (edge_t n)) (list : List (Fin n)),
    Simple edges → Listing list → Counted edges list := by
  intro h
  have hcount := (h 4 square [0, 1, 2, 3] ⟨by decide, by decide, by decide⟩ (.refl _)).count
  exact absurd hcount (by decide +kernel)

end Graphviz.Circogen
