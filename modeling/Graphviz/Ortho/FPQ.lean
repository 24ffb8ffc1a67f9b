import Graphviz.Library.IndexedHeap
import Graphviz.Util.Fault
import Mathlib.Algebra.Order.Ring.Int
import Mathlib.Data.Fintype.Card

/-!
# The priority queue of the router (`ortho/fPQ.c`)

A heap of nodes by the largest `N_VAL`, with the place of each of its nodes in `N_IDX`. Position `0`
holds a guard with the value `0`, at which the way up ends as long as no value is positive.
-/

namespace Graphviz.Ortho

open Function IndexedHeap Nat

variable {n m : ℕ}

/-- The nodes of a search graph as far as the search changes them, and the queue `pq_t`. Position
`0` of `pq` stands for the guard, and no position after `cnt` is read. -/
structure Mem (n m : ℕ) where
  n_val : Fin n → ℤ
  n_idx : Fin n → ℕ
  n_dad : Fin n → Option (Fin n)
  n_edge : Fin n → Option (Fin m)
  pq : ℕ → Fin n
  cnt : ℕ
  size : ℕ

/-- `N_VAL` of the node at a position. -/
def Mem.valAt (s : Mem n m) (i : ℕ) : ℤ :=
  if i = 0 then 0 else s.n_val (s.pq i)

/-- The node is put at the position. -/
def Mem.place (s : Mem n m) (k : ℕ) (x : Fin n) : Mem n m :=
  { s with pq := update s.pq k x, n_idx := update s.n_idx x k }

/-- `PQinit`. -/
def PQinit (s : Mem n m) : Mem n m :=
  { s with cnt := 0 }

/-- `PQcheck`. -/
def PQcheck (s : Mem n m) : Except Fault Unit :=
  assert (∀ i < s.cnt, s.n_idx (s.pq (i + 1)) = i + 1)

/-- The loop of `PQupheap`, which does not end when it comes to the guard with a positive value. -/
def upheapLoop (x : Fin n) (v : ℤ) : ℕ → ℕ → Mem n m → Except Fault (Mem n m)
  | 0, _, _ => .error .fuel
  | fuel + 1, k, s =>
    if s.valAt (k / 2) < v then
      if k / 2 = 0 then .error .fuel
      else upheapLoop x v fuel (k / 2) (s.place k (s.pq (k / 2)))
    else .ok (s.place k x)

/-- `PQupheap`. -/
def PQupheap (s : Mem n m) (k : ℕ) : Except Fault (Mem n m) :=
  upheapLoop (s.pq k) (s.n_val (s.pq k)) (k + 1) k s

/-- `PQ_insert`: what it returns, and the memory. -/
def PQ_insert (s : Mem n m) (np : Fin n) : Except Fault (ℕ × Mem n m) :=
  if s.cnt = s.size then .ok (1, s)
  else do
    let s ← PQupheap { s with cnt := s.cnt + 1, pq := update s.pq (s.cnt + 1) np } (s.cnt + 1)
    PQcheck s
    .ok (0, s)

/-- The child that `PQdownheap` compares with. -/
def Mem.child (s : Mem n m) (k : ℕ) : ℕ :=
  if k + k < s.cnt ∧ s.n_val (s.pq (k + k)) < s.n_val (s.pq (k + k + 1)) then k + k + 1 else k + k

/-- The loop of `PQdownheap`. -/
def downheapLoop (x : Fin n) (v : ℤ) (lim : ℕ) : ℕ → ℕ → Mem n m → Except Fault (Mem n m)
  | 0, _, _ => .error .fuel
  | fuel + 1, k, s =>
    if k ≤ lim then
      if v ≥ s.n_val (s.pq (s.child k)) then .ok (s.place k x)
      else downheapLoop x v lim fuel (s.child k) (s.place k (s.pq (s.child k)))
    else .ok (s.place k x)

/-- `PQdownheap`. -/
def PQdownheap (s : Mem n m) (k : ℕ) : Except Fault (Mem n m) :=
  downheapLoop (s.pq k) (s.n_val (s.pq k)) (s.cnt / 2) (s.cnt + 1) k s

/-- `PQremove`. -/
def PQremove (s : Mem n m) : Except Fault (Option (Fin n) × Mem n m) :=
  if s.cnt = 0 then .ok (none, s)
  else do
    let x := s.pq 1
    let s := { s with pq := update s.pq 1 (s.pq s.cnt), cnt := s.cnt - 1 }
    let s ← (if s.cnt = 0 then .ok s else PQdownheap s 1)
    PQcheck s
    .ok (some x, s)

/-- `PQupdate`. -/
def PQupdate (s : Mem n m) (x : Fin n) (d : ℤ) : Except Fault (Mem n m) := do
  let s ← PQupheap { s with n_val := update s.n_val x d } (s.n_idx x)
  PQcheck s
  .ok s

/-! ## The heap -/

/-- The positions from `1` on, each with its half as its parent. -/
def pqShape : Shape where
  root := 1
  par i := i / 2
  root_le i h := by omega
  par_lt i h := by omega

/-- The queue holds these nodes: a heap with an exact index. -/
structure Queue (s : Mem n m) (Q : Fin n → Prop) : Prop where
  ordered : Ordered pqShape s.n_val s.pq (s.cnt + 1)
  exact : Exact pqShape s.pq s.n_idx (s.cnt + 1)
  mem : ∀ v, IndexedHeap.Mem pqShape s.pq (s.cnt + 1) v ↔ Q v

/-- What the queue does not change. -/
structure SameNodes (s s' : Mem n m) : Prop where
  n_val : s'.n_val = s.n_val
  n_dad : s'.n_dad = s.n_dad
  n_edge : s'.n_edge = s.n_edge
  size : s'.size = s.size

variable {s s' : Mem n m} {Q : Fin n → Prop} {x : Fin n} {k fuel : ℕ}

/-- What a way up or down makes of an array with the node in its first place. -/
structure Sifted (s : Mem n m) (a : ℕ → Fin n) (s' : Mem n m) : Prop where
  same : SameNodes s s'
  cnt : s'.cnt = s.cnt
  ordered : Ordered pqShape s.n_val s'.pq (s.cnt + 1)
  exact : Exact pqShape s'.pq s'.n_idx (s.cnt + 1)
  mem : ∀ v, IndexedHeap.Mem pqShape s'.pq (s.cnt + 1) v ↔ IndexedHeap.Mem pqShape a (s.cnt + 1) v

/-- The node has come to its place. -/
theorem Sifted.place (hord : Ordered pqShape s.n_val (update s.pq k x) (s.cnt + 1))
    (hex : ExactBut pqShape (update s.pq k x) s.n_idx (s.cnt + 1) k) (hk : 1 ≤ k ∧ k < s.cnt + 1) :
    Sifted s (update s.pq k x) (s.place k x) := by
  refine ⟨⟨rfl, rfl, rfl, rfl⟩, rfl, hord, ?_, fun v => Iff.rfl⟩
  have hfinish := hex.finish hk.1 hk.2
  rwa [update_self] at hfinish

/-- One move, and what comes of the rest. -/
theorem Sifted.move {j : ℕ} (hk : 1 ≤ k ∧ k < s.cnt + 1) (hj : 1 ≤ j ∧ j < s.cnt + 1)
    (h : Sifted (s.place k (s.pq j)) (swap (update s.pq k x) k j) s') :
    Sifted s (update s.pq k x) s' :=
  ⟨⟨h.same.n_val, h.same.n_dad, h.same.n_edge, h.same.size⟩, h.cnt, h.ordered, h.exact,
    fun v => (h.mem v).trans (@mem_swap _ pqShape _ _ _ _ _ hk hj)⟩

/-- The place of the node that moves and the index after a move. -/
theorem exactBut_place {j : ℕ} (hk : 1 ≤ k ∧ k < s.cnt + 1) (hj : 1 ≤ j ∧ j < s.cnt + 1)
    (hjk : j ≠ k) (hex : ExactBut pqShape (update s.pq k x) s.n_idx (s.cnt + 1) k) :
    ExactBut pqShape (swap (update s.pq k x) k j) (update s.n_idx (s.pq j) k) (s.cnt + 1) j := by
  have hmove := hex.move hk.1 hk.2 hj.1 hj.2
  rwa [update_of_ne hjk] at hmove

theorem upheapLoop_spec {v : ℤ} (hx : s.n_val x = v) (hv : v ≤ 0)
    (hup : UpOrder pqShape s.n_val (update s.pq k x) (s.cnt + 1) k)
    (hex : ExactBut pqShape (update s.pq k x) s.n_idx (s.cnt + 1) k)
    (hk : 1 ≤ k ∧ k < s.cnt + 1) (hfuel : k < fuel) :
    ∃ s', upheapLoop x v fuel k s = .ok s' ∧ Sifted s (update s.pq k x) s' := by
  induction fuel generalizing s k with
  | zero => exact absurd hfuel (Nat.not_lt_zero _)
  | succ fuel ih =>
    rw [upheapLoop, Mem.valAt]
    obtain hone | htwo := Nat.lt_or_ge k 2
    · rw [if_pos (show k / 2 = 0 by omega), if_neg (not_lt.2 hv)]
      exact ⟨_, rfl, .place (hup.finish fun hroot : 1 < k => by omega) hex hk⟩
    have hhalf : k / 2 ≠ k := by omega
    have hj : 1 ≤ k / 2 ∧ k / 2 < s.cnt + 1 := by omega
    rw [if_neg (show ¬k / 2 = 0 by omega)]
    split
    next hlt =>
      rw [if_neg (show ¬k / 2 = 0 by omega)]
      have hmove := hup.move (show 1 < k by omega) hk.2
        (show s.n_val (update s.pq k x (k / 2)) < s.n_val (update s.pq k x k) by
          rwa [update_of_ne hhalf, update_self, hx])
      have heq : update (s.place k (s.pq (k / 2))).pq (k / 2) x =
          swap (update s.pq k x) k (k / 2) := update_swap
      obtain ⟨s', hs', hsifted⟩ := ih (s := s.place k (s.pq (k / 2))) (k := k / 2) hx
        (by rw [heq]; exact hmove) (by rw [heq]; exact exactBut_place hk hj hhalf hex) hj (by omega)
      exact ⟨s', hs', .move hk hj (heq ▸ hsifted)⟩
    next hge =>
      refine ⟨_, rfl, .place (hup.finish fun _ => ?_) hex hk⟩
      change s.n_val (update s.pq k x k) ≤ s.n_val (update s.pq k x (k / 2))
      rw [update_of_ne hhalf, update_self, hx]
      exact not_lt.1 hge

/-- The child is one of the two, with the larger value. -/
theorem child_spec (hk : k + k < s.cnt + 1) : pqShape.par (s.child k) = k ∧
    s.child k < s.cnt + 1 ∧ ∀ i < s.cnt + 1, 1 < i → pqShape.par i = k →
      s.n_val (s.pq i) ≤ s.n_val (s.pq (s.child k)) := by
  have hpar : ∀ i, 1 < i → pqShape.par i = k → i = k + k ∨ i = k + k + 1 := by
    intro i _ hi
    change i / 2 = k at hi
    omega
  rw [Mem.child]
  split
  next h =>
    refine ⟨show (k + k + 1) / 2 = k by omega, by omega, fun i _ hi1 hi => ?_⟩
    obtain rfl | rfl := hpar i hi1 hi
    · exact h.2.le
    · exact le_rfl
  next h =>
    refine ⟨show (k + k) / 2 = k by omega, hk, fun i hi hi1 hpi => ?_⟩
    obtain rfl | rfl := hpar i hi1 hpi
    · exact le_rfl
    · exact not_lt.1 fun hlt => h ⟨by omega, hlt⟩

theorem downheapLoop_spec {v : ℤ} (hx : s.n_val x = v)
    (hdown : DownOrder pqShape s.n_val (update s.pq k x) (s.cnt + 1) 1 k)
    (hex : ExactBut pqShape (update s.pq k x) s.n_idx (s.cnt + 1) k)
    (hk : 1 ≤ k ∧ k < s.cnt + 1) (hfuel : s.cnt + 1 < fuel + k) :
    ∃ s', downheapLoop x v (s.cnt / 2) fuel k s = .ok s' ∧ Sifted s (update s.pq k x) s' := by
  induction fuel generalizing s k with
  | zero => omega
  | succ fuel ih =>
    rw [downheapLoop]
    split
    next hlim =>
      obtain ⟨hpar, hlt, hmax⟩ := child_spec (s := s) (k := k) (by omega)
      have hgt : k < s.child k := by
        have h : s.child k / 2 = k := hpar
        omega
      have hother : ∀ i, 1 < i → pqShape.par i = k → update s.pq k x i = s.pq i := by
        intro i hi hpi
        have h : i / 2 = k := hpi
        exact update_of_ne (by omega) _ _
      generalize s.child k = j at *
      have hj : 1 ≤ j ∧ j < s.cnt + 1 := ⟨by omega, hlt⟩
      split
      next hge =>
        refine ⟨_, rfl, .place (hdown.finish fun i hi1 hi hpi => ?_).ordered hex hk⟩
        rw [hother i hi1 hpi, update_self, hx]
        exact (hmax i hi hi1 hpi).trans hge
      next hlt' =>
        have hmove := hdown.move hk.1 (show 1 < j by omega) hlt hpar
          (fun i hi1 hi hpi => by
            rw [hother i hi1 hpi, hother j (by omega) hpar]
            exact hmax i hi hi1 hpi)
          (show s.n_val (update s.pq k x k) < s.n_val (update s.pq k x j) by
            rw [update_self, hother j (by omega) hpar, hx]
            exact not_le.1 hlt')
        have heq : update (s.place k (s.pq j)).pq j x = swap (update s.pq k x) k j := update_swap
        obtain ⟨s', hs', hsifted⟩ := ih (s := s.place k (s.pq j)) (k := j) hx
          (by rw [heq]; exact hmove) (by rw [heq]; exact exactBut_place hk hj hgt.ne' hex) hj
          (show s.cnt + 1 < fuel + j by omega)
        exact ⟨s', hs', .move hk hj (heq ▸ hsifted)⟩
    next hlim =>
      refine ⟨_, rfl, .place (hdown.finish fun i hi1 hi hpi => ?_).ordered hex hk⟩
      have h : i / 2 = k := hpi
      omega

/-! ## The operations -/

/-- The check of an exact index is passed. -/
theorem PQcheck_eq_ok (h : Exact pqShape s.pq s.n_idx (s.cnt + 1)) : PQcheck s = .ok () := by
  refine if_pos fun i hi => h (i + 1) ?_ (succ_lt_succ hi)
  exact succ_le_succ (Nat.zero_le i)

theorem Sifted.queue {a : ℕ → Fin n} (h : Sifted s a s')
    (hmem : ∀ v, IndexedHeap.Mem pqShape a (s.cnt + 1) v ↔ Q v) : Queue s' Q := by
  refine ⟨?_, ?_, fun v => ?_⟩
  · rw [h.same.n_val, h.cnt]
    exact h.ordered
  · rw [h.cnt]
    exact h.exact
  · rw [h.cnt]
    exact (h.mem v).trans (hmem v)

theorem Sifted.check {a : ℕ → Fin n} (h : Sifted s a s') : PQcheck s' = .ok () :=
  PQcheck_eq_ok (h.cnt ▸ h.exact)

theorem queue_init (s : Mem n m) : Queue (PQinit s) fun _ => False := by
  refine ⟨fun i (h0 : 1 < i) (h1 : i < 0 + 1) => by omega, fun i (h0 : 1 ≤ i) (h1 : i < 0 + 1) =>
    by omega, fun v => iff_of_false ?_ id⟩
  rintro ⟨i, ⟨h0, h1⟩, -⟩
  change 1 ≤ i at h0
  change i < 0 + 1 at h1
  omega

/-- The queue depends on the values of its own nodes only. -/
theorem Queue.congr (h : Queue s Q) (hpq : s'.pq = s.pq) (hidx : s'.n_idx = s.n_idx)
    (hcnt : s'.cnt = s.cnt) (hval : ∀ v, Q v → s'.n_val v = s.n_val v) : Queue s' Q := by
  refine ⟨fun i hroot hlt => ?_, ?_, ?_⟩
  · rw [hcnt] at hlt
    have hmem : ∀ j, 1 ≤ j → j < s.cnt + 1 → s'.n_val (s'.pq j) = s.n_val (s.pq j) := by
      intro j h0 h1
      rw [hpq]
      exact hval _ ((h.mem _).1 ⟨j, ⟨h0, h1⟩, rfl⟩)
    have hlt' := (pqShape.par_lt i hroot).trans hlt
    rw [hmem i hroot.le hlt, hmem _ (pqShape.root_le i hroot) hlt']
    exact h.ordered i hroot hlt
  · rw [hpq, hidx, hcnt]
    exact h.exact
  · rw [hpq, hcnt]
    exact h.mem

theorem Queue.iff {Q' : Fin n → Prop} (h : Queue s Q) (hQ : ∀ v, Q v ↔ Q' v) : Queue s Q' :=
  ⟨h.ordered, h.exact, fun v => (h.mem v).trans (hQ v)⟩

/-- No node is in the queue twice. -/
theorem Queue.injective (h : Queue s Q) : Injective fun i : Fin s.cnt => s.pq (i + 1) := by
  intro i j heq
  have hplace : (i : ℕ) + 1 = j + 1 := h.exact.injOn
    ⟨show 1 ≤ (i : ℕ) + 1 by omega, succ_lt_succ i.isLt⟩
    ⟨show 1 ≤ (j : ℕ) + 1 by omega, succ_lt_succ j.isLt⟩ heq
  exact Fin.ext (by omega)

theorem Queue.cnt_le (h : Queue s Q) : s.cnt ≤ n := by
  have hcard := Fintype.card_le_of_injective _ h.injective
  rwa [Fintype.card_fin, Fintype.card_fin] at hcard

/-- There is room for a node that is not in the queue. -/
theorem Queue.cnt_lt (h : Queue s Q) (hx : ¬Q x) : s.cnt < n := by
  have hcard := Fintype.card_lt_of_injective_of_notMem _ h.injective (b := x) fun ⟨i, heq⟩ =>
    hx ((h.mem x).1 ⟨i + 1, ⟨show 1 ≤ (i : ℕ) + 1 by omega, succ_lt_succ i.isLt⟩, heq⟩)
  rwa [Fintype.card_fin, Fintype.card_fin] at hcard

theorem PQ_insert_spec (hq : Queue s Q) (hx : ¬Q x) (hv : s.n_val x ≤ 0) (hsize : s.cnt < s.size) :
    ∃ s', PQ_insert s x = .ok (0, s') ∧ SameNodes s s' ∧ s'.cnt = s.cnt + 1 ∧
      Queue s' fun v => v = x ∨ Q v := by
  have hne : ∀ i, 1 ≤ i → i < s.cnt + 1 → s.pq i ≠ x := fun i h0 h1 heq =>
    hx ((hq.mem x).1 ⟨i, ⟨h0, h1⟩, heq⟩)
  have hself : update (update s.pq (s.cnt + 1) x) (s.cnt + 1) x = update s.pq (s.cnt + 1) x :=
    update_idem _ _ _
  obtain ⟨s', hs', hsifted⟩ := @upheapLoop_spec n m
    { s with cnt := s.cnt + 1, pq := update s.pq (s.cnt + 1) x } x (s.cnt + 1) (s.cnt + 1 + 1) _ rfl
    hv (hself.symm ▸ hq.ordered.push x) (hself.symm ▸ hq.exact.push hne)
    ⟨by omega, lt_succ_self _⟩ (lt_succ_self _)
  obtain ⟨hval, hdad, hedge, hsz⟩ := hsifted.same
  refine ⟨s', ?_, ⟨hval, hdad, hedge, hsz⟩, hsifted.cnt, hsifted.queue fun v => ?_⟩
  · have hup : PQupheap { s with cnt := s.cnt + 1, pq := update s.pq (s.cnt + 1) x } (s.cnt + 1) =
        .ok s' := by
      rw [PQupheap]
      simp only [update_self]
      exact hs'
    rw [PQ_insert, if_neg hsize.ne, hup]
    simp only [Outcome.ok_bind, hsifted.check]
  · rw [hself, ← hq.mem v]
    exact mem_push (show 1 ≤ s.cnt + 1 by omega)

theorem PQremove_spec (hq : Queue s Q) :
    PQremove s = .ok (none, s) ∧ (∀ v, ¬Q v) ∨
    ∃ x s', PQremove s = .ok (some x, s') ∧ SameNodes s s' ∧ Q x ∧
      (∀ v, Q v → s.n_val v ≤ s.n_val x) ∧ Queue s' fun v => Q v ∧ v ≠ x := by
  obtain hzero | hpos := Nat.eq_zero_or_pos s.cnt
  · refine Or.inl ⟨if_pos hzero, fun v hv => ?_⟩
    obtain ⟨i, ⟨h0, h1⟩, -⟩ := (hq.mem v).2 hv
    change 1 ≤ i at h0
    omega
  obtain ⟨cnt, hcnt⟩ : ∃ cnt, s.cnt = cnt + 1 := ⟨s.cnt - 1, by omega⟩
  have hroot : pqShape.root ≤ cnt + 1 := show 1 ≤ cnt + 1 by omega
  have hord := hq.ordered
  have hexact := hq.exact
  have hmem := hq.mem
  rw [hcnt] at hord hexact hmem
  have hQ : ∀ v, IndexedHeap.Mem pqShape (update s.pq 1 (s.pq (cnt + 1))) (cnt + 1) v ↔
      Q v ∧ v ≠ s.pq 1 := fun v => by
    rw [← hmem v]
    exact mem_pop hexact.injOn hroot
  have hfirst : Q (s.pq 1) := (hmem _).1 ⟨1, ⟨le_rfl, show 1 < cnt + 1 + 1 by omega⟩, rfl⟩
  have hmax : ∀ v, Q v → s.n_val v ≤ s.n_val (s.pq 1) := by
    intro v hv
    obtain ⟨i, ⟨h0, h1⟩, rfl⟩ := (hmem v).2 hv
    exact hord.le_root h0 h1
  refine Or.inr ⟨s.pq 1, ?_⟩
  rw [PQremove, if_neg hpos.ne', hcnt]
  simp only [Nat.add_sub_cancel]
  obtain rfl | hpos' := Nat.eq_zero_or_pos cnt
  · refine ⟨{ s with pq := update s.pq 1 (s.pq 1), cnt := 0 }, ?_, ⟨rfl, rfl, rfl, rfl⟩, hfirst,
      hmax, (queue_init { s with pq := update s.pq 1 (s.pq 1) }).ordered,
      (queue_init { s with pq := update s.pq 1 (s.pq 1) }).exact, hQ⟩
    rw [if_pos rfl]
    have hcheck : PQcheck { s with pq := update s.pq 1 (s.pq 1), cnt := 0 } = .ok () :=
      PQcheck_eq_ok (queue_init { s with pq := update s.pq 1 (s.pq 1) }).exact
    simp only [Outcome.ok_bind, hcheck]
  · have hself : update (update s.pq 1 (s.pq (cnt + 1))) 1 (s.pq (cnt + 1)) =
        update s.pq 1 (s.pq (cnt + 1)) := update_idem _ _ _
    obtain ⟨s', hs', hsifted⟩ := @downheapLoop_spec n m
      { s with pq := update s.pq 1 (s.pq (cnt + 1)), cnt := cnt } (s.pq (cnt + 1)) 1 (cnt + 1) _ rfl
      (hself.symm ▸ hord.pop _) (hself.symm ▸ hexact.pop hroot)
      ⟨le_rfl, show 1 < cnt + 1 by omega⟩ (show cnt + 1 < cnt + 1 + 1 by omega)
    obtain ⟨hval, hdad, hedge, hsz⟩ := hsifted.same
    refine ⟨s', ?_, ⟨hval, hdad, hedge, hsz⟩, hfirst, hmax, hsifted.queue fun v => ?_⟩
    · have hdown : PQdownheap { s with pq := update s.pq 1 (s.pq (cnt + 1)), cnt := cnt } 1 =
          .ok s' := by
        rw [PQdownheap]
        simp only [update_self]
        exact hs'
      rw [if_neg hpos'.ne', hdown]
      simp only [Outcome.ok_bind, hsifted.check]
    · rw [hself]
      exact hQ v

theorem PQupdate_spec {d : ℤ} (hq : Queue s Q) (hx : Q x) (hd : s.n_val x ≤ d) (hd₀ : d ≤ 0) :
    ∃ s', PQupdate s x d = .ok s' ∧ SameNodes { s with n_val := update s.n_val x d } s' ∧
      Queue s' Q := by
  obtain ⟨i, ⟨h₀, h₁⟩, rfl⟩ := (hq.mem x).2 hx
  have hidx := hq.exact i h₀ h₁
  have hself : update s.pq i (s.pq i) = s.pq := update_eq_self i s.pq
  have hup : UpOrder pqShape (update s.n_val (s.pq i) d) s.pq (s.cnt + 1) i := by
    refine hq.ordered.raise ?_ fun j hj₀ hj₁ hne => ?_
    · rw [update_self]
      exact hd
    · exact update_of_ne (fun heq => hne (hq.exact.injOn ⟨hj₀, hj₁⟩ ⟨h₀, h₁⟩ heq)) _ _
  obtain ⟨s', hs', hsifted⟩ := @upheapLoop_spec n m { s with n_val := update s.n_val (s.pq i) d }
    (s.pq i) i (i + 1) d (update_self _ _ _) hd₀ (hself.symm ▸ hup) (hself.symm ▸ hq.exact.but)
    ⟨h₀, h₁⟩ (lt_succ_self _)
  refine ⟨s', ?_, hsifted.same, hsifted.queue fun v => ?_⟩
  · have hup : PQupheap { s with n_val := update s.n_val (s.pq i) d } i = .ok s' := by
      rw [PQupheap]
      simp only [update_self]
      exact hs'
    rw [PQupdate, hidx, hup]
    simp only [Outcome.ok_bind, hsifted.check]
  · rw [hself]
    exact hq.mem v

end Graphviz.Ortho
