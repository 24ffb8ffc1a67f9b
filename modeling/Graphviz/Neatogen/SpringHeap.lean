import Graphviz.Library.IndexedHeap
import Graphviz.Util.Fault

/-!
# The heap of the spring model (`neatogen/stuff.c`)

A heap of nodes by the smallest distance. Each node has its place in `ND_heapindex`, which is `-1`
for the nodes that are not in the heap.
-/

namespace Graphviz.Spring

open Function IndexedHeap Nat OrderDual Outcome

/-- `Heap`, `Heapsize` and the places of the nodes. Position `i` of `Heap` is read for
`i < Heapsize` only. -/
structure NodeHeap (V : Type) where
  Heap : ℕ → V
  Heapsize : ℕ
  ND_heapindex : V → ℤ

variable {V K : Type} [DecidableEq V] [LinearOrder K]

/-- `Heap[i] = v; ND_heapindex(v) = i`. -/
def NodeHeap.place (h : NodeHeap V) (i : ℕ) (v : V) : NodeHeap V :=
  { h with Heap := update h.Heap i v, ND_heapindex := update h.ND_heapindex v i }

/-- The loop of `heapup`. -/
def heapupLoop (ND_dist : V → K) (v : V) : ℕ → ℕ → NodeHeap V → Except Fault (NodeHeap V)
  | 0, _, _ => .error .fuel
  | fuel + 1, i, h =>
    if 0 < i then
      let par := (i - 1) / 2
      let u := h.Heap par
      if ND_dist u ≤ ND_dist v then .ok h
      else heapupLoop ND_dist v fuel par ((h.place par v).place i u)
    else .ok h

/-- `heapup`. -/
def heapup (ND_dist : V → K) (h : NodeHeap V) (v : V) : Except Fault (NodeHeap V) :=
  heapupLoop ND_dist v (h.Heapsize + 1) (h.ND_heapindex v).toNat h

/-- The loop of `heapdown`. -/
def heapdownLoop (ND_dist : V → K) (v : V) : ℕ → ℕ → NodeHeap V → Except Fault (NodeHeap V)
  | 0, _, _ => .error .fuel
  | fuel + 1, i, h =>
    let left := 2 * i + 1
    if left < h.Heapsize then
      let right := left + 1
      let c := if right < h.Heapsize ∧ ND_dist (h.Heap right) < ND_dist (h.Heap left) then right
        else left
      let u := h.Heap c
      if ND_dist v ≤ ND_dist u then .ok h
      else heapdownLoop ND_dist v fuel c ((h.place c v).place i u)
    else .ok h

/-- `heapdown`. -/
def heapdown (ND_dist : V → K) (h : NodeHeap V) (v : V) : Except Fault (NodeHeap V) :=
  heapdownLoop ND_dist v (h.Heapsize + 1) (h.ND_heapindex v).toNat h

/-- `neato_enqueue`. -/
def neato_enqueue (ND_dist : V → K) (h : NodeHeap V) (v : V) : Except Fault (NodeHeap V) := do
  assert (h.ND_heapindex v < 0)
  let i := h.Heapsize
  let h := { h.place i v with Heapsize := i + 1 }
  if 0 < i then heapup ND_dist h v else .ok h

/-- The last node takes the place of the first one. -/
def NodeHeap.pop (h : NodeHeap V) : NodeHeap V :=
  { h.place 0 (h.Heap (h.Heapsize - 1)) with Heapsize := h.Heapsize - 1 }

/-- The last node, in the place of the first one, moves down to its own. -/
def NodeHeap.refill (ND_dist : V → K) (h : NodeHeap V) : Except Fault (NodeHeap V) :=
  let i := h.Heapsize - 1
  if 1 < i then heapdown ND_dist h.pop (h.Heap i) else .ok h.pop

/-- `neato_dequeue`. -/
def neato_dequeue (ND_dist : V → K) (h : NodeHeap V) : Except Fault (Option V × NodeHeap V) :=
  if h.Heapsize = 0 then .ok (none, h)
  else do
    let rv := h.Heap 0
    let h ← h.refill ND_dist
    .ok (some rv, { h with ND_heapindex := update h.ND_heapindex rv (-1) })

/-! ## Moves -/

/-- The positions from `0` on, with two children each. -/
def heapShape : Shape where
  root := 0
  par i := (i - 1) / 2
  root_le i _ := Nat.zero_le _
  par_lt i h := by omega

/-- The nodes in the heap. -/
abbrev NodeHeap.Mem (h : NodeHeap V) (v : V) : Prop :=
  IndexedHeap.Mem heapShape h.Heap h.Heapsize v

/-- The nodes of the heap are at their places. -/
structure NodeHeap.Exact (h : NodeHeap V) : Prop where
  exact : IndexedHeap.Exact heapShape h.Heap (Int.toNat ∘ h.ND_heapindex) h.Heapsize
  nonneg : ∀ v, h.Mem v → 0 ≤ h.ND_heapindex v

/-- The nearest nodes come first. -/
abbrev NodeHeap.Ordered (ND_dist : V → K) (h : NodeHeap V) : Prop :=
  IndexedHeap.Ordered heapShape (toDual ∘ ND_dist) h.Heap h.Heapsize

/-- What the moves of a node change: the places of nodes of the heap alone. -/
structure Moved (h h' : NodeHeap V) : Prop where
  size : h'.Heapsize = h.Heapsize
  mem : ∀ v, h'.Mem v ↔ h.Mem v
  exact : h'.Exact
  frame : ∀ v, ¬h.Mem v → h'.ND_heapindex v = h.ND_heapindex v

variable {ND_dist ND_dist' : V → K} {h h' h'' : NodeHeap V} {i j fuel : ℕ} {u v : V}

omit [DecidableEq V] in
theorem Moved.refl (h' : h.Exact) : Moved h h :=
  ⟨rfl, fun _ => Iff.rfl, h', fun _ _ => rfl⟩

omit [DecidableEq V] in
theorem Moved.trans (hm : Moved h h') (hm' : Moved h' h'') : Moved h h'' :=
  ⟨hm'.size.trans hm.size, fun v => (hm'.mem v).trans (hm.mem v), hm'.exact,
    fun v hv => (hm'.frame v (mt (hm.mem v).1 hv)).trans (hm.frame v hv)⟩

/-- The places as natural numbers. -/
theorem toNat_update (f : V → ℤ) (v : V) (k : ℕ) :
    Int.toNat ∘ update f v (k : ℤ) = update (Int.toNat ∘ f) v k :=
  comp_update Int.toNat f v k

/-- Two nodes change their places. -/
def NodeHeap.exchange (h : NodeHeap V) (i j : ℕ) : NodeHeap V :=
  (h.place j (h.Heap i)).place i (h.Heap j)

theorem exchange_Heap (hij : i ≠ j) : (h.exchange i j).Heap = swap h.Heap i j := by
  funext k
  change update (update h.Heap j (h.Heap i)) i (h.Heap j) k = _
  obtain rfl | hi := eq_or_ne k i
  · rw [update_self, swap_left]
  obtain rfl | hj := eq_or_ne k j
  · rw [update_of_ne hi, update_self, swap_right]
  · rw [update_of_ne hi, update_of_ne hj, swap_other hi hj]

theorem exchange_moved (hex : h.Exact) (hi : i < h.Heapsize) (hj : j < h.Heapsize) (hij : i ≠ j) :
    Moved h (h.exchange i j) := by
  have hi' : heapShape.root ≤ i ∧ i < h.Heapsize := ⟨zero_le i, hi⟩
  have hj' : heapShape.root ≤ j ∧ j < h.Heapsize := ⟨zero_le j, hj⟩
  have hmem : ∀ v, (h.exchange i j).Mem v ↔ h.Mem v := fun v => by
    rw [NodeHeap.Mem, exchange_Heap hij]
    exact mem_swap hi' hj'
  have hidx : ∀ v, (h.exchange i j).ND_heapindex v =
      if v = h.Heap j then (i : ℤ) else if v = h.Heap i then (j : ℤ) else h.ND_heapindex v :=
    fun v => by
      change update (update h.ND_heapindex (h.Heap i) (j : ℤ)) (h.Heap j) (i : ℤ) v = _
      rw [update_apply, update_apply]
  refine ⟨rfl, hmem, ⟨?_, fun v hv => ?_⟩, fun v hv => ?_⟩
  · have hswap := hex.exact.swap hj' hi'
    rw [exchange_Heap hij]
    change IndexedHeap.Exact _ _ (Int.toNat ∘ update (update _ _ _) _ _) _
    rw [toNat_update, toNat_update]
    rwa [IndexedHeap.swap, Equiv.swap_comm] at hswap
  · rw [hidx]
    split
    · exact Int.natCast_nonneg i
    · split
      · exact Int.natCast_nonneg j
      · exact hex.nonneg v ((hmem v).1 hv)
  · rw [hidx, if_neg, if_neg]
    · exact fun heq => hv ⟨i, hi', heq.symm⟩
    · exact fun heq => hv ⟨j, hj', heq.symm⟩

/-- A node moves up to its place. -/
theorem heapupLoop_spec (fuel : ℕ) (hex : h.Exact) (hi : i < h.Heapsize) (hv : h.Heap i = v)
    (hup : UpOrder heapShape (toDual ∘ ND_dist) h.Heap h.Heapsize i) (hfuel : i < fuel) :
    ∃ h', heapupLoop ND_dist v fuel i h = .ok h' ∧ Moved h h' ∧ h'.Ordered ND_dist := by
  induction fuel generalizing h i with
  | zero => exact absurd hfuel (not_lt_zero i)
  | succ fuel ih =>
    rw [heapupLoop]
    split
    next hpos =>
      have hlt : (i - 1) / 2 < i := heapShape.par_lt i hpos
      dsimp only
      split
      next hle =>
        exact ⟨h, rfl, .refl hex, hup.finish fun _ => by
          change ND_dist (h.Heap ((i - 1) / 2)) ≤ ND_dist (h.Heap i)
          rwa [hv]⟩
      next hgt =>
        have hmove := hup.move hpos hi
          (show ND_dist (h.Heap i) < ND_dist (h.Heap ((i - 1) / 2)) by rw [hv]; exact not_le.1 hgt)
        change UpOrder _ _ (swap h.Heap i ((i - 1) / 2)) _ ((i - 1) / 2) at hmove
        rw [← exchange_Heap hlt.ne'] at hmove
        have hmoved := exchange_moved hex hi (hlt.trans hi) hlt.ne'
        obtain ⟨h', hrun, hm, hord⟩ := ih hmoved.exact (hlt.trans hi)
          (by rw [exchange_Heap hlt.ne', swap_right, hv]) hmove (by omega)
        refine ⟨h', ?_, hmoved.trans hm, hord⟩
        rw [NodeHeap.exchange, hv] at hrun
        exact hrun
    next hzero =>
      exact ⟨h, rfl, .refl hex, hup.finish fun hpos => absurd hpos hzero⟩

/-- A node moves down to its place. -/
theorem heapdownLoop_spec (fuel : ℕ) (hex : h.Exact) (hi : i < h.Heapsize) (hv : h.Heap i = v)
    (hdown : DownOrder heapShape (toDual ∘ ND_dist) h.Heap h.Heapsize 0 i)
    (hfuel : h.Heapsize ≤ fuel + i) (hpos : 0 < fuel) :
    ∃ h', heapdownLoop ND_dist v fuel i h = .ok h' ∧ Moved h h' ∧ h'.Ordered ND_dist := by
  induction fuel generalizing h i with
  | zero => exact absurd hpos (not_lt_zero 0)
  | succ fuel ih =>
    rw [heapdownLoop]
    have hchild : ∀ k, heapShape.root < k → heapShape.par k = i →
        k = 2 * i + 1 ∨ k = 2 * i + 2 := by
      intro k (hk : 0 < k) (hpar : (k - 1) / 2 = i)
      omega
    split
    next hleft =>
      -- the child that is nearer
      obtain ⟨c, hc, hcpar, hclt, hcmin⟩ : ∃ c, (if 2 * i + 1 + 1 < h.Heapsize ∧
          ND_dist (h.Heap (2 * i + 1 + 1)) < ND_dist (h.Heap (2 * i + 1)) then 2 * i + 1 + 1
          else 2 * i + 1) = c ∧ heapShape.par c = i ∧ c < h.Heapsize ∧
          ∀ k, heapShape.root < k → k < h.Heapsize → heapShape.par k = i →
            ND_dist (h.Heap c) ≤ ND_dist (h.Heap k) := by
        split
        next hright =>
          refine ⟨_, rfl, show (2 * i + 1 + 1 - 1) / 2 = i by omega, hright.1,
            fun k hk hk' hpar => ?_⟩
          obtain rfl | rfl := hchild k hk hpar
          · exact hright.2.le
          · exact le_rfl
        next hright =>
          refine ⟨_, rfl, show (2 * i + 1 - 1) / 2 = i by omega, hleft, fun k hk hk' hpar => ?_⟩
          obtain rfl | rfl := hchild k hk hpar
          · exact le_rfl
          · exact not_lt.1 fun hlt => hright ⟨hk', hlt⟩
      simp only [hc]
      have hlt : i < c := by
        have h2 : (c - 1) / 2 = i := hcpar
        have h0 : c ≠ 0 := fun h0 => by
          rw [h0] at hc
          split at hc <;> omega
        omega
      split
      next hle =>
        refine ⟨h, rfl, .refl hex, OrderedFrom.ordered (hdown.finish fun k hk hk' hpar => ?_)⟩
        change ND_dist (h.Heap i) ≤ ND_dist (h.Heap k)
        rw [hv]
        exact hle.trans (hcmin k hk hk' hpar)
      next hgt =>
        have hmove := hdown.move (zero_le i) (show 0 < c by omega) hclt hcpar hcmin
          (show ND_dist (h.Heap c) < ND_dist (h.Heap i) by rw [hv]; exact not_le.1 hgt)
        rw [← exchange_Heap hlt.ne] at hmove
        have hmoved := exchange_moved hex hi hclt hlt.ne
        obtain ⟨h', hrun, hm, hord⟩ := ih hmoved.exact hclt
          (by rw [exchange_Heap hlt.ne, swap_right, hv]) hmove
          (by change h.Heapsize ≤ fuel + c; omega) (by omega)
        refine ⟨h', ?_, hmoved.trans hm, hord⟩
        rw [NodeHeap.exchange, hv] at hrun
        exact hrun
    next hleft =>
      refine ⟨h, rfl, .refl hex, OrderedFrom.ordered (hdown.finish fun k hk hk' hpar => ?_)⟩
      rcases hchild k hk hpar with rfl | rfl <;> omega

/-! ## Entering and leaving -/

/-- A heap between two operations: it is in order, and the nodes that are not in it have the place
`-1`. -/
structure NodeHeap.Ready (ND_dist : V → K) (h : NodeHeap V) : Prop where
  exact : h.Exact
  ordered : h.Ordered ND_dist
  out : ∀ v, ¬h.Mem v → h.ND_heapindex v = -1

omit [DecidableEq V] [LinearOrder K] in
/-- A node of the heap has its place in it. -/
theorem NodeHeap.Exact.place (hex : h.Exact) (hv : h.Mem v) :
    (h.ND_heapindex v).toNat < h.Heapsize ∧ h.Heap (h.ND_heapindex v).toNat = v := by
  obtain ⟨i, ⟨hroot, hlt⟩, rfl⟩ := hv
  have hi : (h.ND_heapindex (h.Heap i)).toNat = i := hex.exact i hroot hlt
  rw [hi]
  exact ⟨hlt, rfl⟩

omit [DecidableEq V] in
theorem NodeHeap.Ready.mem_iff (hr : h.Ready ND_dist) : 0 ≤ h.ND_heapindex v ↔ h.Mem v := by
  constructor
  · intro hv
    by_contra hmem
    rw [hr.out v hmem] at hv
    exact absurd hv (by decide)
  · exact hr.exact.nonneg v

omit [DecidableEq V] in
theorem Moved.ready (hm : Moved h h') (hord : h'.Ordered ND_dist)
    (hout : ∀ v, ¬h.Mem v → h.ND_heapindex v = -1) : h'.Ready ND_dist := by
  refine ⟨hm.exact, hord, fun v hv => ?_⟩
  rw [hm.mem] at hv
  rw [hm.frame v hv, hout v hv]

omit [DecidableEq V] in
/-- The distances of the nodes of the heap alone matter. -/
theorem NodeHeap.Ready.congr (hr : h.Ready ND_dist) (heq : ∀ v, h.Mem v → ND_dist' v = ND_dist v) :
    h.Ready ND_dist' := by
  refine ⟨hr.exact, fun i hroot hlt => ?_, hr.out⟩
  have hpar := (heapShape.par_lt i hroot).trans hlt
  change ND_dist' (h.Heap (heapShape.par i)) ≤ ND_dist' (h.Heap i)
  rw [heq _ ⟨i, ⟨hroot.le, hlt⟩, rfl⟩, heq _ ⟨_, ⟨zero_le _, hpar⟩, rfl⟩]
  exact hr.ordered i hroot hlt

/-- A node of the heap has come nearer. -/
theorem heapup_spec (hr : h.Ready ND_dist) (hv : h.Mem v) (hle : ND_dist' v ≤ ND_dist v)
    (hother : ∀ u, u ≠ v → ND_dist' u = ND_dist u) :
    ∃ h', heapup ND_dist' h v = .ok h' ∧ h'.Ready ND_dist' ∧ ∀ u, h'.Mem u ↔ h.Mem u := by
  obtain ⟨hlt, hat⟩ := hr.exact.place hv
  have hup : UpOrder heapShape (toDual ∘ ND_dist') h.Heap h.Heapsize (h.ND_heapindex v).toNat := by
    refine Ordered.raise hr.ordered ?_ fun i hroot hi hne => ?_
    · rw [hat]
      exact hle
    · refine congrArg toDual (hother _ fun heq => hne ?_)
      rw [← heq]
      exact (hr.exact.exact i hroot hi).symm
  obtain ⟨h', hrun, hm, hord⟩ := heapupLoop_spec _ hr.exact hlt hat hup
    (hlt.trans (lt_succ_self _))
  exact ⟨h', hrun, hm.ready hord hr.out, hm.mem⟩

/-- A node enters the heap. -/
theorem neato_enqueue_spec (hr : h.Ready ND_dist) (hv : ¬h.Mem v) :
    ∃ h', neato_enqueue ND_dist h v = .ok h' ∧ h'.Ready ND_dist ∧
      ∀ u, h'.Mem u ↔ u = v ∨ h.Mem u := by
  let h1 : NodeHeap V := { h.place h.Heapsize v with Heapsize := h.Heapsize + 1 }
  have hmem : ∀ u, h1.Mem u ↔ u = v ∨ h.Mem u := fun u => mem_push (zero_le _)
  have hlast : h1.Heap h.Heapsize = v := update_self _ _ _
  have hidx : h1.ND_heapindex v = (h.Heapsize : ℤ) := update_self _ _ _
  have hidx' : ∀ u, u ≠ v → h1.ND_heapindex u = h.ND_heapindex u :=
    fun u hu => update_of_ne hu _ _
  have hex : h1.Exact := by
    refine ⟨?_, fun u hu => ?_⟩
    · have hpush := (hr.exact.exact.push fun i hroot hlt heq => hv ⟨i, ⟨hroot, hlt⟩, heq⟩).finish
        (zero_le _) (lt_succ_self _)
      rw [update_self] at hpush
      change IndexedHeap.Exact _ _ (Int.toNat ∘ update _ _ _) _
      rwa [toNat_update]
    · obtain rfl | hne := eq_or_ne u v
      · rw [hidx]
        exact Int.natCast_nonneg _
      · rw [hidx' u hne]
        exact hr.exact.nonneg u (((hmem u).1 hu).resolve_left hne)
  have hout : ∀ u, ¬h1.Mem u → h1.ND_heapindex u = -1 := by
    intro u hu
    rw [hmem, not_or] at hu
    rw [hidx' u hu.1, hr.out u hu.2]
  have hup : UpOrder heapShape (toDual ∘ ND_dist) h1.Heap h1.Heapsize h.Heapsize :=
    Ordered.push hr.ordered v
  have hassert : assert (h.ND_heapindex v < 0) = .ok () := by
    rw [hr.out v hv]
    rfl
  rw [neato_enqueue, hassert]
  change ∃ h', (if 0 < h.Heapsize then heapup ND_dist h1 v else .ok h1) = .ok h' ∧ _
  split
  next hpos =>
    obtain ⟨h', hrun, hm, hord⟩ := heapupLoop_spec (h1.Heapsize + 1) hex
      (lt_succ_self h.Heapsize) hlast hup (by change h.Heapsize < h.Heapsize + 1 + 1; omega)
    refine ⟨h', ?_, hm.ready hord hout, fun u => (hm.mem u).trans (hmem u)⟩
    rw [heapup, hidx]
    exact hrun
  next hzero =>
    exact ⟨h1, rfl, ⟨hex, hup.finish fun hpos => absurd hpos hzero, hout⟩, hmem⟩

omit [DecidableEq V] in
theorem NodeHeap.Ready.nearest_first (hr : h.Ready ND_dist) (hv : h.Mem v) :
    ND_dist (h.Heap 0) ≤ ND_dist v := by
  obtain ⟨i, ⟨hroot, hlt⟩, rfl⟩ := hv
  exact Ordered.le_root hr.ordered hroot hlt

theorem pop_Heap {m : ℕ} (hm : h.Heapsize = m + 1) : h.pop.Heap = update h.Heap 0 (h.Heap m) := by
  change update h.Heap 0 (h.Heap (h.Heapsize - 1)) = _
  rw [hm, Nat.add_sub_cancel]

theorem pop_ND_heapindex {m : ℕ} (hm : h.Heapsize = m + 1) :
    h.pop.ND_heapindex = update h.ND_heapindex (h.Heap m) ((0 : ℕ) : ℤ) := by
  change update h.ND_heapindex (h.Heap (h.Heapsize - 1)) _ = _
  rw [hm, Nat.add_sub_cancel]

theorem pop_Heapsize {m : ℕ} (hm : h.Heapsize = m + 1) : h.pop.Heapsize = m := by
  change h.Heapsize - 1 = m
  rw [hm, Nat.add_sub_cancel]

/-- The last node takes the place of the first one, which is no longer in the heap. -/
theorem pop_spec {m : ℕ} (hr : h.Ready ND_dist) (hm : h.Heapsize = m + 1) :
    (∀ u, h.pop.Mem u ↔ h.Mem u ∧ u ≠ h.Heap 0) ∧ h.pop.Exact ∧
      DownOrder heapShape (toDual ∘ ND_dist) h.pop.Heap m 0 0 ∧
      ∀ u, ¬h.Mem u → h.pop.ND_heapindex u = -1 := by
  have hexact : IndexedHeap.Exact heapShape h.Heap (Int.toNat ∘ h.ND_heapindex) (m + 1) :=
    hm ▸ hr.exact.exact
  have hmem : ∀ u, h.pop.Mem u ↔ h.Mem u ∧ u ≠ h.Heap 0 := fun u => by
    rw [NodeHeap.Mem, NodeHeap.Mem, pop_Heap hm, pop_Heapsize hm, hm]
    exact mem_pop hexact.injOn (zero_le _)
  refine ⟨hmem, ⟨?_, fun u hu => ?_⟩, ?_, fun u hu => ?_⟩
  · rw [pop_Heap hm, pop_ND_heapindex hm, pop_Heapsize hm, toNat_update]
    obtain rfl | hpos := Nat.eq_zero_or_pos m
    · intro i _ hlt
      exact absurd hlt (not_lt_zero i)
    · have hpop := (hexact.pop (zero_le m)).finish (zero_le 0) hpos
      change IndexedHeap.Exact heapShape (update h.Heap 0 (h.Heap m))
        (update _ (update h.Heap 0 (h.Heap m) 0) 0) m at hpop
      rwa [update_self] at hpop
  · rw [pop_ND_heapindex hm]
    obtain rfl | hne := eq_or_ne u (h.Heap m)
    · rw [update_self]
      exact le_rfl
    · rw [update_of_ne hne]
      exact hr.exact.nonneg u ((hmem u).1 hu).1
  · have hord : IndexedHeap.Ordered heapShape (toDual ∘ ND_dist) h.Heap (m + 1) := hm ▸ hr.ordered
    rw [pop_Heap hm]
    exact hord.pop _
  · rw [pop_ND_heapindex hm, update_of_ne, hr.out u hu]
    exact fun heq => hu ⟨m, ⟨zero_le _, by omega⟩, heq.symm⟩

theorem refill_spec {m : ℕ} (hr : h.Ready ND_dist) (hm : h.Heapsize = m + 1) :
    ∃ h', h.refill ND_dist = .ok h' ∧ Moved h.pop h' ∧ h'.Ordered ND_dist := by
  obtain ⟨-, hex, hdown, -⟩ := pop_spec hr hm
  rw [NodeHeap.refill, hm]
  simp only [Nat.add_sub_cancel]
  split
  next hlt =>
    rw [← pop_Heapsize hm] at hdown
    have hsize := pop_Heapsize hm
    obtain ⟨h', hrun, hmoved, hord⟩ := heapdownLoop_spec (h.pop.Heapsize + 1) hex
      (show 0 < h.pop.Heapsize by omega) (by rw [pop_Heap hm, update_self]) hdown
      (le_add_right _ _) (succ_pos _)
    refine ⟨h', ?_, hmoved, hord⟩
    rw [heapdown, pop_ND_heapindex hm, update_self]
    exact hrun
  next hle =>
    refine ⟨h.pop, rfl, .refl hex, fun i (hroot : 0 < i) hlt => ?_⟩
    rw [pop_Heapsize hm] at hlt
    omega

theorem neato_dequeue_none (hzero : h.Heapsize = 0) :
    neato_dequeue ND_dist h = .ok (none, h) ∧ ∀ v, ¬h.Mem v := by
  refine ⟨if_pos hzero, ?_⟩
  rintro v ⟨i, ⟨-, hlt⟩, -⟩
  omega

/-- The nearest node leaves the heap. -/
theorem neato_dequeue_some (hr : h.Ready ND_dist) (hpos : h.Heapsize ≠ 0) :
    ∃ v h', neato_dequeue ND_dist h = .ok (some v, h') ∧ h.Mem v ∧
      (∀ u, h.Mem u → ND_dist v ≤ ND_dist u) ∧ h'.Ready ND_dist ∧
      ∀ u, h'.Mem u ↔ h.Mem u ∧ u ≠ v := by
  obtain ⟨m, hm⟩ := exists_eq_succ_of_ne_zero hpos
  obtain ⟨hmem, -, -, hout⟩ := pop_spec hr hm
  obtain ⟨h', hrun, hmoved, hord⟩ := refill_spec hr hm
  have hmem' : ∀ u, h'.Mem u ↔ h.Mem u ∧ u ≠ h.Heap 0 := fun u => (hmoved.mem u).trans (hmem u)
  have hother : ∀ u, h'.Mem u → update h'.ND_heapindex (h.Heap 0) (-1) u = h'.ND_heapindex u :=
    fun u hu => update_of_ne ((hmem' u).1 hu).2 _ _
  refine ⟨h.Heap 0, { h' with ND_heapindex := update h'.ND_heapindex (h.Heap 0) (-1) }, ?_,
    ⟨0, ⟨le_rfl, Nat.pos_of_ne_zero hpos⟩, rfl⟩, fun u => hr.nearest_first,
    ⟨⟨?_, ?_⟩, hord, ?_⟩, hmem'⟩
  · rw [neato_dequeue, if_neg hpos, hrun]
    rfl
  · intro i hroot hlt
    change (update h'.ND_heapindex (h.Heap 0) (-1) (h'.Heap i)).toNat = i
    rw [hother _ ⟨i, ⟨hroot, hlt⟩, rfl⟩]
    exact hmoved.exact.exact i hroot hlt
  · intro u hu
    change 0 ≤ update h'.ND_heapindex (h.Heap 0) (-1) u
    rw [hother u hu]
    exact hmoved.exact.nonneg u hu
  · intro u hu
    change update h'.ND_heapindex (h.Heap 0) (-1) u = -1
    obtain rfl | hne := eq_or_ne u (h.Heap 0)
    · rw [update_self]
    · have hu' : ¬h.Mem u := fun hin => hu ((hmem' u).2 ⟨hin, hne⟩)
      rw [update_of_ne hne, hmoved.frame u fun hin => hu' ((hmem u).1 hin).1, hout u hu']

end Graphviz.Spring
