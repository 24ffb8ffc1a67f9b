import Mathlib.Data.Fintype.Card
import Mathlib.Data.Rat.Floor
import Graphviz.Library.IndexedHeap
import Graphviz.Library.ShortestPath
import Graphviz.Util.Fault

/-!
# The heap of Dijkstra's algorithm (`neatogen/dijkstra.c`)

A heap of vertices by the smallest distance, with the place of each vertex in `index`. Its positions
begin at `0`, and the children of `i` are `2 * i` and `2 * i + 1`: of those of `0` only `1` is
another position. `heapify_f`, `initHeap_f`, `extractMax_f` and `increaseKey_f` are the same
functions on distances of another type.
-/

namespace Graphviz.Dijkstra

open IndexedHeap Function OrderDual Outcome

variable {n : ℕ} {K : Type} [LinearOrder K]

/-- `heap`. Position `i` of `data` is read for `i < heapSize` only. -/
structure heap (n : ℕ) where
  data : ℕ → Fin n
  heapSize : ℕ
  index : Fin n → ℕ

/-- `left`. -/
def left (i : ℕ) : ℕ := 2 * i

/-- `right`. -/
def right (i : ℕ) : ℕ := 2 * i + 1

/-- `parent`. -/
def parent (i : ℕ) : ℕ := i / 2

/-- `insideHeap`. -/
def insideHeap (h : heap n) (i : ℕ) : Prop := i < h.heapSize

instance (h : heap n) (i : ℕ) : Decidable (insideHeap h i) := Nat.decLt _ _

/-- `greaterPriority`. -/
def greaterPriority (h : heap n) (i j : ℕ) (dist : Fin n → K) : Prop :=
  dist (h.data i) < dist (h.data j)

instance (h : heap n) (i j : ℕ) (dist : Fin n → K) : Decidable (greaterPriority h i j dist) :=
  inferInstanceAs (Decidable (_ < _))

/-- `data[i] = v; index[v] = i`. -/
def heap.place (h : heap n) (i : ℕ) (v : Fin n) : heap n :=
  { h with data := update h.data i v, index := update h.index v i }

@[simp] theorem place_heapSize (h : heap n) (i : ℕ) (v : Fin n) :
    (h.place i v).heapSize = h.heapSize := rfl

/-- `assign`. -/
def assign (h : heap n) (i j : ℕ) : heap n :=
  h.place i (h.data j)

/-- `exchange`. -/
def exchange (h : heap n) (i j : ℕ) : heap n :=
  { h with
    data := update (update h.data i (h.data j)) j (h.data i)
    index := update (update h.index (h.data j) i) (h.data i) j }

/-- The place that `heapify` finds for the entry at `i`. -/
def largest (h : heap n) (i : ℕ) (dist : Fin n → K) : ℕ :=
  let largest := if insideHeap h (left i) ∧ greaterPriority h (left i) i dist then left i else i
  if insideHeap h (right i) ∧ greaterPriority h (right i) largest dist then right i else largest

/-- The loop of `heapify`. -/
def heapifyLoop (dist : Fin n → K) : ℕ → heap n → ℕ → Except Fault (heap n)
  | 0, _, _ => .error .fuel
  | fuel + 1, h, i =>
    if largest h i dist = i then .ok h
    else heapifyLoop dist fuel (exchange h (largest h i dist) i) (largest h i dist)

/-- `heapify`. -/
def heapify (h : heap n) (i : ℕ) (dist : Fin n → K) : Except Fault (heap n) :=
  heapifyLoop dist (h.heapSize + 1) h i

/-- The loop of `initHeap` that fills the heap. -/
def fillHeap (startVertex : Fin n) (h : heap n) : heap n :=
  ((List.finRange n).foldl (fun s i =>
    if i ≠ startVertex then (s.1 + 1, s.2.place s.1 i) else s) (0, h)).2

/-- The loop of `initHeap` that makes it one, for `j` down to `0`. -/
def heapifyAll (dist : Fin n → K) : ℕ → heap n → Except Fault (heap n)
  | 0, h => heapify h 0 dist
  | j + 1, h => heapify h (j + 1) dist >>= heapifyAll dist j

/-- `initHeap`, with the memory that `gv_calloc` returns. -/
def initHeap (startVertex : Fin n) (dist : Fin n → K) : Except Fault (heap n) :=
  heapifyAll dist ((n - 1) / 2) (fillHeap startVertex
    { data := fun _ => ⟨0, startVertex.pos⟩, heapSize := n - 1, index := fun _ => 0 })

/-- `extractMax`. -/
def extractMax (h : heap n) (dist : Fin n → K) : Except Fault (Option (Fin n × heap n)) :=
  if h.heapSize = 0 then .ok none
  else do
    let max := h.data 0
    let h := h.place 0 (h.data (h.heapSize - 1))
    let h ← heapify { h with heapSize := h.heapSize - 1 } 0 dist
    .ok (some (max, h))

/-- The loop of `increaseKey`, and its assignments at the end. -/
def increaseKeyLoop (increasedVertex : Fin n) (newDist : K) (dist : Fin n → K) :
    ℕ → heap n → ℕ → Except Fault (heap n)
  | 0, _, _ => .error .fuel
  | fuel + 1, h, i =>
    if 0 < i ∧ dist (h.data (parent i)) > newDist then
      increaseKeyLoop increasedVertex newDist dist fuel (assign h i (parent i)) (parent i)
    else .ok (h.place i increasedVertex)

/-- `increaseKey`. -/
def increaseKey (h : heap n) (increasedVertex : Fin n) (newDist : K) (dist : Fin n → K) :
    Except Fault (heap n × (Fin n → K)) :=
  if dist increasedVertex ≤ newDist then .ok (h, dist)
  else do
    let placeInHeap := h.index increasedVertex
    let dist := update dist increasedVertex newDist
    let h ← increaseKeyLoop increasedVertex newDist dist (placeInHeap + 1) h placeInHeap
    .ok (h, dist)

/-! ## The heap -/

/-- The positions from `0` on, each with its half as its parent. -/
def heapShape : Shape where
  root := 0
  par i := i / 2
  root_le i _ := Nat.zero_le _
  par_lt i h := by omega

/-- The vertices are in order from position `b` on, by the smallest distance. -/
abbrev InOrder (dist : Fin n → K) (h : heap n) (b : ℕ) : Prop :=
  OrderedFrom heapShape (toDual ∘ dist) h.data h.heapSize b

/-- The heap holds these vertices, with an exact index. -/
structure Holds (h : heap n) (Q : Fin n → Prop) : Prop where
  exact : Exact heapShape h.data h.index h.heapSize
  mem : ∀ v, IndexedHeap.Mem heapShape h.data h.heapSize v ↔ Q v

variable {dist : Fin n → K} {h : heap n} {Q : Fin n → Prop} {i b fuel : ℕ} {v : Fin n}

/-- The index and the array are inverse to each other. -/
theorem Holds.inverse (h' : Holds h Q) :
    (∀ i < h.heapSize, Q (h.data i) ∧ h.index (h.data i) = i) ∧
      ∀ v, Q v → h.index v < h.heapSize ∧ h.data (h.index v) = v := by
  refine ⟨fun i hi => ⟨(h'.mem _).1 ⟨i, ⟨Nat.zero_le i, hi⟩, rfl⟩, h'.exact i (Nat.zero_le i) hi⟩,
    fun v hv => ?_⟩
  obtain ⟨i, ⟨-, hi⟩, rfl⟩ := (h'.mem v).2 hv
  rw [h'.exact i (Nat.zero_le i) hi]
  exact ⟨hi, rfl⟩

theorem exchange_data {j : ℕ} : (exchange h i j).data = swap h.data i j := by
  have hupdate : update (update h.data i (h.data j)) j (h.data i) =
      swap (update h.data i (h.data i)) i j := update_swap
  rwa [update_eq_self] at hupdate

theorem Holds.exchange {j : ℕ} (h' : Holds h Q) (hi : i < h.heapSize) (hj : j < h.heapSize) :
    Holds (exchange h i j) Q := by
  have hi' : heapShape.root ≤ i ∧ i < h.heapSize := ⟨Nat.zero_le i, hi⟩
  have hj' : heapShape.root ≤ j ∧ j < h.heapSize := ⟨Nat.zero_le j, hj⟩
  refine ⟨?_, fun v => ?_⟩
  · rw [exchange_data]
    exact h'.exact.swap hi' hj'
  · rw [exchange_data, ← h'.mem v]
    exact mem_swap hi' hj'

/-- The entry is the smallest among itself and its children. -/
theorem largest_spec (hi : i < h.heapSize) : (largest h i dist = i ∨
      i < largest h i dist ∧ heapShape.par (largest h i dist) = i ∧
        dist (h.data (largest h i dist)) < dist (h.data i)) ∧ largest h i dist < h.heapSize ∧
    ∀ j, 0 < j → j < h.heapSize → heapShape.par j = i →
      dist (h.data (largest h i dist)) ≤ dist (h.data j) := by
  have hself : ¬greaterPriority h i i dist := lt_irrefl _
  have hpar : ∀ j, 0 < j → heapShape.par j = i → j = left i ∧ i < left i ∨ j = right i := by
    intro j hj (hji : j / 2 = i)
    rw [left, right]
    omega
  have hright : i < right i ∧ heapShape.par (right i) = i := by
    refine ⟨?_, show (2 * i + 1) / 2 = i by omega⟩
    rw [right]
    omega
  have hleft : heapShape.par (left i) = i := show 2 * i / 2 = i by omega
  have hchild : ∀ m, (m = i ∨ i < m ∧ heapShape.par m = i ∧ dist (h.data m) < dist (h.data i)) →
      m < h.heapSize →
      (∀ j, 0 < j → j < h.heapSize → j = left i ∧ i < left i → dist (h.data m) ≤ dist (h.data j)) →
      ∀ m', m' = (if insideHeap h (right i) ∧ greaterPriority h (right i) m dist then right i else m) →
      (m' = i ∨ i < m' ∧ heapShape.par m' = i ∧ dist (h.data m') < dist (h.data i)) ∧
        m' < h.heapSize ∧ ∀ j, 0 < j → j < h.heapSize → heapShape.par j = i →
          dist (h.data m') ≤ dist (h.data j) := by
    rintro m hm hlt hmin m' rfl
    split
    next hr =>
      have hless : dist (h.data (right i)) < dist (h.data i) := by
        obtain rfl | ⟨-, -, hm⟩ := hm
        · exact hr.2
        · exact lt_trans hr.2 hm
      refine ⟨.inr ⟨hright.1, hright.2, hless⟩, hr.1, fun j hj hj' hji => ?_⟩
      obtain hl | rfl := hpar j hj hji
      · exact (le_of_lt hr.2).trans (hmin j hj hj' hl)
      · exact le_rfl
    next hr =>
      refine ⟨hm, hlt, fun j hj hj' hji => ?_⟩
      obtain hl | rfl := hpar j hj hji
      · exact hmin j hj hj' hl
      · exact not_lt.1 fun hgt => hr ⟨hj', hgt⟩
  rw [largest]
  refine hchild _ ?_ ?_ ?_ _ rfl
  · split
    next hl =>
      have hne : left i ≠ i := by
        intro heq
        rw [heq] at hl
        exact hself hl.2
      have hlt : i < left i := by
        rw [left] at hne ⊢
        omega
      exact .inr ⟨hlt, hleft, hl.2⟩
    next => exact .inl rfl
  · split
    next hl => exact hl.1
    next => exact hi
  · rintro j hj hj' ⟨rfl, -⟩
    split
    next => exact le_rfl
    next hl => exact not_lt.1 fun hgt => hl ⟨hj', hgt⟩

/-- What `heapify` makes of a heap: the same vertices, in order from a position on. -/
structure Heapified (dist : Fin n → K) (h : heap n) (Q : Fin n → Prop) (b : ℕ) (h' : heap n) :
    Prop where
  heapSize : h'.heapSize = h.heapSize
  order : InOrder dist h' b
  holds : Holds h' Q

theorem heapifyLoop_spec (h' : Holds h Q) (hi : i < h.heapSize) (hb : b ≤ i)
    (hdown : DownOrder heapShape (toDual ∘ dist) h.data h.heapSize b i)
    (hfuel : h.heapSize < fuel + i) :
    ∃ h₁, heapifyLoop dist fuel h i = .ok h₁ ∧ Heapified dist h Q b h₁ := by
  induction fuel generalizing h i with
  | zero => omega
  | succ fuel ih =>
    rw [heapifyLoop]
    obtain ⟨hplace, hlt, hmin⟩ := @largest_spec n K _ dist h i hi
    split
    next heq =>
      rw [heq] at hmin
      exact ⟨h, rfl, rfl, hdown.finish fun j hj hj' hji => hmin j hj hj' hji, h'⟩
    next hne =>
      obtain ⟨hgt, hpar, hless⟩ := hplace.resolve_left hne
      generalize largest h i dist = j at *
      have hmove := hdown.move hb (show 0 < j by omega) hlt hpar
        (fun k hk hk' hki => hmin k hk hk' hki) hless
      have hdata : (exchange h j i).data = swap h.data i j := by
        rw [exchange_data, IndexedHeap.swap, IndexedHeap.swap, Equiv.swap_comm]
      obtain ⟨h₁, hok, hsize, hord, hholds⟩ := ih (h'.exchange hlt hi) hlt (hb.trans hgt.le)
        (hdata ▸ hmove) (show h.heapSize < fuel + j by omega)
      exact ⟨h₁, hok, hsize, hord, hholds⟩

theorem heapify_spec (h' : Holds h Q) (hi : i < h.heapSize) (hb : b ≤ i)
    (hdown : DownOrder heapShape (toDual ∘ dist) h.data h.heapSize b i) :
    ∃ h₁, heapify h i dist = .ok h₁ ∧ Heapified dist h Q b h₁ :=
  heapifyLoop_spec h' hi hb hdown (by omega)

/-- At a position after the last one nothing is done. -/
theorem heapify_outside (hi : h.heapSize ≤ i) : heapify h i dist = .ok h := by
  have hlargest : largest h i dist = i := by
    have hl : ¬insideHeap h (left i) := by
      rw [insideHeap, left]
      omega
    have hr : ¬insideHeap h (right i) := by
      rw [insideHeap, right]
      omega
    rw [largest]
    simp only [hl, hr, false_and, if_false]
  rw [heapify, heapifyLoop, if_pos hlargest]

/-! ## The operations -/

theorem Holds.push (h' : Holds { h with heapSize := i } Q) (hv : ¬Q v) :
    Holds { h.place i v with heapSize := i + 1 } fun w => w = v ∨ Q w := by
  refine ⟨?_, fun w => ?_⟩
  · have hpush := h'.exact.push (x := v) fun j hj hj' heq =>
      hv ((h'.mem v).1 ⟨j, ⟨hj, hj'⟩, heq⟩)
    have hfinish := hpush.finish (Nat.zero_le i) (Nat.lt_succ_self i)
    rwa [update_self] at hfinish
  · rw [← h'.mem w]
    exact mem_push (Nat.zero_le i)

/-- The vertices of a list but for the source are put after those that are there. -/
theorem fill_spec (startVertex : Fin n) (l : List (Fin n)) (hl : l.Nodup) (s : ℕ × heap n)
    (hs : Holds { s.2 with heapSize := s.1 } Q) (hQ : ∀ v ∈ l, ¬Q v) :
    let s' := l.foldl (fun s i =>
      if i ≠ startVertex then (s.1 + 1, s.2.place s.1 i) else s) s
    s'.1 = s.1 + (l.filter (· ≠ startVertex)).length ∧ s'.2.heapSize = s.2.heapSize ∧
      Holds { s'.2 with heapSize := s'.1 } fun v => Q v ∨ v ∈ l ∧ v ≠ startVertex := by
  induction l generalizing s Q with
  | nil =>
    refine ⟨rfl, rfl, hs.exact, fun v => (hs.mem v).trans (or_iff_left ?_).symm⟩
    exact fun h => List.not_mem_nil h.1
  | cons i l ih =>
    obtain ⟨hi, hl⟩ := List.nodup_cons.1 hl
    simp only [List.foldl_cons]
    obtain rfl | hne := eq_or_ne i startVertex
    · rw [if_neg (not_not.2 rfl)]
      obtain ⟨hcount, hsize, hexact, hmem⟩ :=
        ih hl s hs fun v hv => hQ v (List.mem_cons_of_mem i hv)
      refine ⟨?_, hsize, hexact, fun v => (hmem v).trans (or_congr_right ?_)⟩
      · rw [hcount, List.filter_cons_of_neg (by simp)]
      · exact and_congr_left fun hv => by rw [List.mem_cons, or_iff_right hv]
    · rw [if_pos hne]
      obtain ⟨hcount, hsize, hexact, hmem⟩ := ih hl (s.1 + 1, s.2.place s.1 i)
        (hs.push (hQ i List.mem_cons_self)) fun v hv => by
          rintro (rfl | hv')
          · exact hi hv
          · exact hQ v (List.mem_cons_of_mem i hv) hv'
      refine ⟨?_, hsize, hexact, fun v => (hmem v).trans ?_⟩
      · rw [hcount, List.filter_cons_of_pos (by simp [hne]), List.length_cons]
        omega
      · rw [List.mem_cons]
        constructor
        · rintro ((rfl | hv) | ⟨hv, hv'⟩)
          · exact .inr ⟨.inl rfl, hne⟩
          · exact .inl hv
          · exact .inr ⟨.inr hv, hv'⟩
        · rintro (hv | ⟨rfl | hv, hv'⟩)
          · exact .inl (.inr hv)
          · exact .inl (.inl rfl)
          · exact .inr ⟨hv, hv'⟩

theorem length_filter_ne (startVertex : Fin n) :
    ((List.finRange n).filter (· ≠ startVertex)).length = n - 1 := by
  have herase := (List.nodup_finRange n).erase_eq_filter startVertex
  rw [List.filter_congr (q := fun v => v != startVertex) fun v _ => by
    simp [bne, beq_eq_decide]]
  rw [← herase, List.length_erase_of_mem (List.mem_finRange _), List.length_finRange]

/-- All vertices but the source are in the heap. -/
theorem fillHeap_spec (startVertex : Fin n) (h : heap n) (hsize : h.heapSize = n - 1) :
    (fillHeap startVertex h).heapSize = n - 1 ∧
      Holds (fillHeap startVertex h) fun v => v ≠ startVertex := by
  have hempty : Holds { h with heapSize := 0 } fun _ => False := by
    refine ⟨fun i _ (hi : i < 0) => absurd hi (Nat.not_lt_zero i), fun v => iff_of_false ?_ id⟩
    rintro ⟨i, ⟨-, hi⟩, -⟩
    exact Nat.not_lt_zero i hi
  obtain ⟨hcount, hsize', hexact, hmem⟩ := fill_spec startVertex (List.finRange n)
    (List.nodup_finRange n) (0, h) hempty fun _ _ => id
  have hlast : (fillHeap startVertex h).heapSize = n - 1 := hsize'.trans hsize
  rw [Nat.zero_add, length_filter_ne] at hcount
  refine ⟨hlast, ?_, fun v => ?_⟩
  · rw [hlast, ← hcount]
    exact hexact
  · rw [hlast, ← hcount]
    refine (hmem v).trans ?_
    rw [false_or, and_iff_right (List.mem_finRange v)]

/-- A position is put in order with those after it. -/
theorem heapify_step {j : ℕ} (h' : Holds h Q) (hord : InOrder dist h (j + 1)) :
    ∃ h₁, heapify h j dist = .ok h₁ ∧ Heapified dist h Q j h₁ := by
  obtain hlt | hge := Nat.lt_or_ge j h.heapSize
  · exact heapify_spec h' hlt le_rfl hord.down
  · refine ⟨h, heapify_outside hge, rfl, fun i hi hi' hpar => ?_, h'⟩
    have hlt := heapShape.par_lt i hi
    omega

/-- The positions become a heap from the last one on. -/
theorem heapifyAll_spec (h' : Holds h Q) (j : ℕ) (hord : InOrder dist h (j + 1)) :
    ∃ h₁, heapifyAll dist j h = .ok h₁ ∧ Heapified dist h Q 0 h₁ := by
  induction j generalizing h with
  | zero => exact heapify_step h' hord
  | succ j ih =>
    obtain ⟨h₁, hok, hsize, hord1, hholds⟩ := heapify_step h' hord
    obtain ⟨h2, hok2, hsize2, hord2, hholds2⟩ := ih hholds hord1
    rw [heapifyAll, hok]
    exact ⟨h2, hok2, hsize2.trans hsize, hord2, hholds2⟩

theorem InOrder.ordered (h' : InOrder dist h 0) :
    Ordered heapShape (toDual ∘ dist) h.data h.heapSize :=
  OrderedFrom.ordered h'

theorem initHeap_spec (startVertex : Fin n) (dist : Fin n → K) :
    ∃ h, initHeap startVertex dist = .ok h ∧ InOrder dist h 0 ∧
      Holds h fun v => v ≠ startVertex := by
  obtain ⟨hsize, hholds⟩ := fillHeap_spec startVertex
    { data := fun _ => ⟨0, startVertex.pos⟩, heapSize := n - 1, index := fun _ => 0 } rfl
  obtain ⟨h, hok, -, hord, hholds'⟩ := @heapifyAll_spec n K _ dist _ _ hholds ((n - 1) / 2)
    fun i _ hi (hpar : (n - 1) / 2 + 1 ≤ i / 2) => by omega
  exact ⟨h, hok, hord, hholds'⟩

/-- The nearest vertex leaves the heap. -/
theorem extractMax_spec (hord : InOrder dist h 0) (h' : Holds h Q) :
    extractMax h dist = .ok none ∧ (∀ v, ¬Q v) ∨
    ∃ x h₁, extractMax h dist = .ok (some (x, h₁)) ∧ Q x ∧ (∀ v, Q v → dist x ≤ dist v) ∧
      InOrder dist h₁ 0 ∧ Holds h₁ fun v => Q v ∧ v ≠ x := by
  obtain hzero | hpos := Nat.eq_zero_or_pos h.heapSize
  · refine .inl ⟨if_pos hzero, fun v hv => ?_⟩
    obtain ⟨i, ⟨-, hi⟩, -⟩ := (h'.mem v).2 hv
    omega
  obtain ⟨size, hsize⟩ : ∃ size, h.heapSize = size + 1 := ⟨h.heapSize - 1, by omega⟩
  have hroot : heapShape.root ≤ size := Nat.zero_le size
  have hordered := hord.ordered
  have hexact := h'.exact
  have hmem := h'.mem
  rw [hsize] at hordered hexact hmem
  have hfirst : Q (h.data 0) := (hmem _).1 ⟨0, ⟨le_rfl, Nat.succ_pos size⟩, rfl⟩
  have hmin : ∀ v, Q v → dist (h.data 0) ≤ dist v := by
    intro v hv
    obtain ⟨i, ⟨hi, hi'⟩, rfl⟩ := (hmem v).2 hv
    exact hordered.le_root hi hi'
  have hQ : ∀ v, IndexedHeap.Mem heapShape (update h.data 0 (h.data size)) size v ↔
      Q v ∧ v ≠ h.data 0 := fun v => by
    rw [← hmem v]
    exact mem_pop hexact.injOn hroot
  refine .inr ⟨h.data 0, ?_⟩
  rw [extractMax, if_neg hpos.ne']
  simp only [place_heapSize, hsize, Nat.add_sub_cancel]
  obtain rfl | hpos' := Nat.eq_zero_or_pos size
  · refine ⟨{ h.place 0 (h.data 0) with heapSize := 0 }, ?_, hfirst, hmin, ?_, ?_, hQ⟩
    · have hnone : heapify { h.place 0 (h.data 0) with heapSize := 0 } 0 dist = .ok _ :=
        heapify_outside le_rfl
      simp only [hnone, ok_bind]
    · exact fun i _ (hi : i < 0) => absurd hi (Nat.not_lt_zero i)
    · exact fun i _ (hi : i < 0) => absurd hi (Nat.not_lt_zero i)
  · have hfinish := (hexact.pop hroot).finish (le_refl 0) hpos'
    rw [show heapShape.root = 0 from rfl, update_self] at hfinish
    obtain ⟨h₁, hok, -, hord1, hholds⟩ := @heapify_spec n K _ dist
      { h.place 0 (h.data size) with heapSize := size } _ 0 0 ⟨hfinish, hQ⟩ hpos' le_rfl
      (hordered.pop _)
    refine ⟨h₁, ?_, hfirst, hmin, hord1, hholds⟩
    simp only [hok, ok_bind]

theorem increaseKeyLoop_spec {newDist : K} (hv : dist v = newDist)
    (hup : UpOrder heapShape (toDual ∘ dist) (update h.data i v) h.heapSize i)
    (hex : ExactBut heapShape (update h.data i v) h.index h.heapSize i) (hi : i < h.heapSize)
    (hfuel : i < fuel) :
    ∃ h₁, increaseKeyLoop v newDist dist fuel h i = .ok h₁ ∧ h₁.heapSize = h.heapSize ∧
      InOrder dist h₁ 0 ∧ Exact heapShape h₁.data h₁.index h.heapSize ∧
      ∀ w, IndexedHeap.Mem heapShape h₁.data h.heapSize w ↔
        IndexedHeap.Mem heapShape (update h.data i v) h.heapSize w := by
  induction fuel generalizing h i with
  | zero => exact absurd hfuel (Nat.not_lt_zero _)
  | succ fuel ih =>
    rw [increaseKeyLoop]
    split
    next hgt =>
      have hlt : parent i < i := heapShape.par_lt i hgt.1
      have hj : parent i < h.heapSize := hlt.trans hi
      have hmove := hup.move hgt.1 hi
        (show dist (update h.data i v i) < dist (update h.data i v (parent i)) by
          rw [update_self, update_of_ne hlt.ne, hv]
          exact hgt.2)
      have hmove' := hex.move (Nat.zero_le i) hi (Nat.zero_le (parent i)) hj
      rw [update_of_ne hlt.ne] at hmove'
      have heq : update (assign h i (parent i)).data (parent i) v =
          IndexedHeap.swap (update h.data i v) i (parent i) := update_swap
      obtain ⟨h₁, hok, hsize, hord, hexact, hmem⟩ := ih (h := assign h i (parent i)) (i := parent i)
        (by rw [heq]; exact hmove) (by rw [heq]; exact hmove') hj (by omega)
      refine ⟨h₁, hok, hsize, hord, hexact, fun w => (hmem w).trans ?_⟩
      rw [heq]
      exact mem_swap ⟨Nat.zero_le i, hi⟩ ⟨Nat.zero_le _, hj⟩
    next hstop =>
      have hord := hup.finish fun hpos => ?_
      · have hfinish := hex.finish (Nat.zero_le i) hi
        rw [update_self] at hfinish
        exact ⟨_, rfl, rfl, hord.from, hfinish, fun w => Iff.rfl⟩
      · have hlt : heapShape.par i < i := heapShape.par_lt i hpos
        change dist (update h.data i v (heapShape.par i)) ≤ dist (update h.data i v i)
        rw [update_self, update_of_ne hlt.ne, hv]
        exact not_lt.1 fun hgt => hstop ⟨hpos, hgt⟩

/-- A vertex of the heap comes nearer. -/
theorem increaseKey_spec {newDist : K} (hord : InOrder dist h 0) (h' : Holds h Q)
    (hv : Q v ∨ dist v ≤ newDist) :
    ∃ h₁, increaseKey h v newDist dist = .ok (h₁, update dist v (min (dist v) newDist)) ∧
      InOrder (update dist v (min (dist v) newDist)) h₁ 0 ∧ Holds h₁ Q := by
  rw [increaseKey]
  split
  next hle =>
    rw [min_eq_left hle, update_eq_self]
    exact ⟨h, rfl, hord, h'⟩
  next hgt =>
    have hless := not_le.1 hgt
    rw [min_eq_right hless.le]
    obtain ⟨i, ⟨-, hi⟩, rfl⟩ := (h'.mem v).2 (hv.resolve_right hgt)
    have hidx := h'.exact i (Nat.zero_le i) hi
    have hself : update h.data i (h.data i) = h.data := update_eq_self i h.data
    have hup : UpOrder heapShape (toDual ∘ update dist (h.data i) newDist) h.data h.heapSize i := by
      refine hord.ordered.raise ?_ fun j hj hj' hne => ?_
      · change update dist (h.data i) newDist (h.data i) ≤ dist (h.data i)
        rw [update_self]
        exact hless.le
      · refine congrArg toDual (update_of_ne (fun heq => hne ?_) _ _)
        exact h'.exact.injOn ⟨hj, hj'⟩ ⟨Nat.zero_le i, hi⟩ heq
    obtain ⟨h₁, hok, hsize, hord1, hexact, hmem⟩ := @increaseKeyLoop_spec n K _
      (update dist (h.data i) newDist) h i _ _ newDist (update_self _ _ _) (hself.symm ▸ hup)
      (hself.symm ▸ h'.exact.but) hi (Nat.lt_succ_self i)
    refine ⟨h₁, ?_, hord1, ?_, fun w => ?_⟩
    · simp only [hidx, hok, ok_bind]
    · rw [hsize]
      exact hexact
    · rw [hsize, ← h'.mem w]
      rw [hself] at hmem
      exact hmem w

end Graphviz.Dijkstra

/-!
## Dijkstra's algorithm (`neatogen/dijkstra.c`)

`ngdijkstra`, `dijkstra_f` and `dijkstra_sgd` are one search with different numbers and with a
different use of the vertices that it finds. A step of the search is a vertex that leaves the heap
or an edge of such a vertex, so that what holds throughout is an invariant of its runs.
-/

namespace Graphviz.Dijkstra

open Function Outcome

/-- What the variants differ in: the distance of a vertex that is not found, the numbers that the
type of the distances has, and what is done with a vertex and its distance when it is found. -/
structure Variant (n : ℕ) (K A : Type) where
  maxDist : K
  fits : K → Bool
  visit : Fin n → K → A → A

variable {n : ℕ} {K A : Type} [Zero K] [Add K] [LinearOrder K]

/-- A number of the type of the distances; there is no behaviour for one that it does not have. -/
def Variant.num (V : Variant n K A) (x : K) : Except Fault K :=
  if V.fits x then .ok x else .error .abort

/-- Where the search is: at the condition of its loop, at the edges of a vertex that are left, with
its distance, or at its end. -/
inductive Pc (n : ℕ) (K : Type) where
  | loop
  | scan (closest : Fin n) (d : K) (es : List (Fin n × K))
  | ret

/-- A state of the search. -/
structure Run (n : ℕ) (K A : Type) where
  pc : Pc n K
  heap : heap n
  dist : Fin n → K
  acc : A

/-- The loop that gives the neighbours of the source the lengths of their edges. -/
def seed (V : Variant n K A) : List (Fin n × K) → (Fin n → K) → Except Fault (Fin n → K)
  | [], dist => .ok dist
  | (target, w) :: es, dist => do
    let w ← V.num w
    seed V es (update dist target w)

/-- The search before its loop. -/
def start (V : Variant n K A) (adj : Fin n → List (Fin n × K)) (source : Fin n) (acc : A) :
    Except Fault (Run n K A) := do
  let dist ← seed V (adj source) (update (fun _ => V.maxDist) source 0)
  let heap ← initHeap source dist
  .ok ⟨.loop, heap, dist, acc⟩

/-- A step of the search. -/
def step (V : Variant n K A) (adj : Fin n → List (Fin n × K)) (r : Run n K A) :
    Except Fault (Run n K A) :=
  match r.pc with
  | .loop => do
    match ← extractMax r.heap r.dist with
    | none => .ok { r with pc := .ret }
    | some (closest, heap) =>
      let d := r.dist closest
      if d = V.maxDist then .ok { r with pc := .ret, heap := heap }
      else
        .ok { r with
          pc := .scan closest d (adj closest), heap := heap, acc := V.visit closest d r.acc }
  | .scan _ _ [] => .ok { r with pc := .loop }
  | .scan closest d ((target, w) :: es) => do
    let w ← V.num w
    let newDist ← V.num (d + w)
    let (heap, dist) ← increaseKey r.heap target newDist r.dist
    .ok { r with pc := .scan closest d es, heap := heap, dist := dist }
  | .ret => .ok r

/-- The search after its first steps. -/
def search (V : Variant n K A) (adj : Fin n → List (Fin n × K)) (source : Fin n) (acc : A) :
    ℕ → Except Fault (Run n K A)
  | 0 => start V adj source acc
  | k + 1 => search V adj source acc k >>= step V adj

/-! ## The variants -/

/-- `vtx_data`: the neighbours of each vertex and the lengths of the edges to them, from the second
entries of `edges` and `ewgts` on (the first is for the vertex itself). There are no loops. -/
structure vtx_data (n : ℕ) (F : Type) [Zero F] [LE F] where
  edges : Fin n → List (Fin n × F)
  nonneg : ∀ u, ∀ e ∈ edges u, 0 ≤ e.2
  loopless : ∀ u, ∀ e ∈ edges u, e.1 ≠ u

/-- The arrays of `graph_sgd`, with `targets` and `weights` entry by entry: those of vertex `i` are
at the positions from `sources i` up to `sources (i + 1)`. -/
structure Adjacency (n : ℕ) (F : Type) where
  sources : ℕ → ℕ
  arcs : List (Fin n × F)

/-- The edges of a vertex. -/
def Adjacency.edges {F : Type} (g : Adjacency n F) (i : Fin n) : List (Fin n × F) :=
  (g.arcs.drop (g.sources i)).take (g.sources (i + 1) - g.sources i)

/-- `graph_sgd`. There are no loops. -/
structure graph_sgd (n : ℕ) (F : Type) [Zero F] [LE F] extends Adjacency n F where
  pinneds : Fin n → Bool
  nonneg : ∀ u, ∀ e ∈ toAdjacency.edges u, 0 ≤ e.2
  loopless : ∀ u, ∀ e ∈ toAdjacency.edges u, e.1 ≠ u

/-- `term_sgd`. -/
structure term_sgd (n : ℕ) (F : Type) where
  i : Fin n
  j : Fin n
  d : F
  w : F

/-- `MAX_DIST`, which is `INT_MAX`. -/
def MAX_DIST : ℤ := 2 ^ 31 - 1

/-- The numbers of `DistType`, which is `int`. -/
def fitsInt (x : ℤ) : Bool := -2 ^ 31 ≤ x ∧ x < 2 ^ 31

/-- The edges with their lengths as `DistType`. -/
def cut (es : List (Fin n × ℚ)) : List (Fin n × ℤ) :=
  es.map fun e => (e.1, ⌊e.2⌋)

/-- The search of `ngdijkstra`, which keeps `prevClosestDist`. -/
def intVariant : Variant n ℤ ℤ where
  maxDist := MAX_DIST
  fits := fitsInt
  visit _ d _ := d

/-- `ngdijkstra` after its first steps, up to its last loop. -/
def ngdijkstra (vertex : Fin n) (graph : vtx_data n ℚ) : ℕ → Except Fault (Run n ℤ ℤ) :=
  search intVariant (fun u => cut (graph.edges u)) vertex MAX_DIST

/-- The body of the last loop of `ngdijkstra`, for vertex `i`. -/
def setUnconnected (prevClosestDist : ℤ) (dist : Fin n → ℤ) (i : Fin n) :
    Except Fault (Fin n → ℤ) :=
  if dist i = MAX_DIST then do
    let d ← intVariant.num (n := n) (prevClosestDist + 10)
    .ok (update dist i d)
  else .ok dist

/-- The last loop of `ngdijkstra`. -/
def disconnected (r : Run n ℤ ℤ) : Except Fault (Fin n → ℤ) :=
  (List.finRange n).foldlM (setUnconnected r.acc) r.dist

variable {F : Type} [Zero F] [Add F] [LinearOrder F]

/-- The search of `dijkstra_f`. -/
def floatVariant (FLT_MAX : F) : Variant n F Unit where
  maxDist := FLT_MAX
  fits _ := true
  visit _ _ _ := ()

/-- `dijkstra_f` after its first steps. -/
def dijkstra_f (FLT_MAX : F) (vertex : Fin n) (graph : vtx_data n F) :
    ℕ → Except Fault (Run n F Unit) :=
  search (floatVariant FLT_MAX) graph.edges vertex ()

/-- The search of `dijkstra_sgd`, which writes the terms. -/
def sgdVariant [One F] [Mul F] [Div F] (FLT_MAX : F) (pinneds : Fin n → Bool) (source : Fin n) :
    Variant n F (List (term_sgd n F)) where
  maxDist := FLT_MAX
  fits _ := true
  visit closest d terms :=
    -- if the target is fixed then always create a term as shortest paths are not calculated from
    -- there
    -- if not fixed then only create a term if the target index is lower
    if pinneds closest ∨ closest < source then terms ++ [⟨source, closest, d, 1 / (d * d)⟩]
    else terms

/-- `dijkstra_sgd` after its first steps. -/
def dijkstra_sgd [One F] [Mul F] [Div F] (FLT_MAX : F) (graph : graph_sgd n F) (source : Fin n) :
    ℕ → Except Fault (Run n F (List (term_sgd n F))) :=
  search (sgdVariant FLT_MAX graph.pinneds source) graph.edges source []

end Graphviz.Dijkstra
