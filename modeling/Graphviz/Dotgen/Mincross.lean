import Graphviz.Dotgen.FastGraph
import Graphviz.Library.Pairs

/-!
# The crossing number of two ranks (`dotgen/mincross.c`)

`rcross` goes through the edges of the upper rank from left to right, with a count for each position
of the lower rank of the penalties of the edges that end there, and adds what the ports of a node
do to the edges that share it. The crossing number is a sum over pairs of edges. Port positions are
doubles, whose differences have exact signs; they are rationals here.
-/

namespace Graphviz

open Function List Outcome

variable {n : ℕ}

/-- What the crossing number depends on: the fast graph with its ports, and the order of the
nodes of each rank. -/
structure Mincross (n : ℕ) extends FastGraph n where
  order : Fin n → ℕ
  rank : ℕ → List (Fin n)
  hasPort : Fin n → Bool
  tailPort : ℕ → ℚ
  headPort : ℕ → ℚ

namespace Mincross

variable (m : Mincross n)

/-- `aghead`. -/
abbrev aghead (e : ℕ) : Fin n := (m.edge e).head

/-- `agtail`. -/
abbrev agtail (e : ℕ) : Fin n := (m.edge e).tail

/-- `ED_xpenalty`. -/
abbrev xpenalty (e : ℕ) : ℤ := (m.edge e).xpenalty

/-- The test of `local_cross` for two edges that share their tail, or their head. -/
def opposed (isOut : Bool) (e f : ℕ) : Prop :=
  if isOut then
    (((m.order (m.aghead f) : ℤ) - m.order (m.aghead e) : ℤ) : ℚ) *
      (m.tailPort f - m.tailPort e) < 0
  else
    (((m.order (m.agtail f) : ℤ) - m.order (m.agtail e) : ℤ) : ℚ) *
      (m.headPort f - m.headPort e) < 0

instance (isOut : Bool) (e f : ℕ) : Decidable (m.opposed isOut e f) := by
  unfold opposed; infer_instance

/-- The loops of `local_cross`, with the crossings so far. -/
def localCrossLoop (isOut : Bool) : ℤ → List ℕ → ℤ
  | cross, [] => cross
  | cross, e :: l =>
    localCrossLoop isOut (l.foldl (fun cross f =>
      if m.opposed isOut e f then cross + m.xpenalty e * m.xpenalty f else cross) cross) l

/-- `local_cross`. -/
def localCross (l : List ℕ) (isOut : Bool) : ℤ := m.localCrossLoop isOut 0 l

/-- The variables of `rcross`, with `Count` as long as the lower rank and one. -/
structure Rcross where
  cross : ℤ
  max : ℕ
  Count : ℕ → ℤ

/-- The crossings of an edge with those before. -/
def rcrossEdge (size : ℕ) (s : Rcross) (e : ℕ) : Except Fault Rcross :=
  let inv := m.order (m.aghead e)
  (List.range' (inv + 1) (s.max - inv)).foldlM (fun s k =>
    if k < size then .ok { s with cross := s.cross + s.Count k * m.xpenalty e }
    else .error .segfault) s

/-- An edge is counted. -/
def rcrossCount (size : ℕ) (s : Rcross) (e : ℕ) : Except Fault Rcross :=
  let inv := m.order (m.aghead e)
  if inv < size then
    .ok { s with
      max := if inv > s.max then inv else s.max
      Count := update s.Count inv (s.Count inv + m.xpenalty e) }
  else .error .segfault

/-- The body of the first loop of `rcross`. -/
def rcrossNode (size : ℕ) (s : Rcross) (v : Fin n) : Except Fault Rcross := do
  let s ← if s.max > 0 then (m.out v).foldlM (m.rcrossEdge size) s else .ok s
  (m.out v).foldlM (m.rcrossCount size) s

/-- `rcross` of the root. -/
def rcross (r : ℕ) : Except Fault ℤ := do
  let s ← (m.rank r).foldlM (m.rcrossNode ((m.rank (r + 1)).length + 1)) ⟨0, 0, fun _ => 0⟩
  let cross := (m.rank r).foldl (fun cross v =>
    if m.hasPort v then cross + m.localCross (m.out v) true else cross) s.cross
  .ok ((m.rank (r + 1)).foldl (fun cross v =>
    if m.hasPort v then cross + m.localCross (m.inn v) false else cross) cross)

/-! ## The crossing number -/

/-- The edges that leave a rank. -/
def edges (r : ℕ) : Finset ℕ := ((m.rank r).flatMap m.out).toFinset

/-- Two edges cross: their tails are in one order, their heads in the other. -/
def Crosses (e f : ℕ) : Prop :=
  (m.order (m.agtail e) < m.order (m.agtail f) ∧ m.order (m.aghead f) < m.order (m.aghead e)) ∨
  (m.order (m.agtail f) < m.order (m.agtail e) ∧ m.order (m.aghead e) < m.order (m.aghead f))

instance (e f : ℕ) : Decidable (m.Crosses e f) := by unfold Crosses; infer_instance

/-- Two edges share a node that has ports, their tail or their head, and the order of their ports
there opposes that of their other ends. -/
def PortCrossesAt (shared : ℕ → Fin n) (isOut : Bool) (e f : ℕ) : Prop :=
  shared e = shared f ∧ m.hasPort (shared e) ∧ m.opposed isOut e f

instance (shared : ℕ → Fin n) (isOut : Bool) (e f : ℕ) :
    Decidable (m.PortCrossesAt shared isOut e f) := by unfold PortCrossesAt; infer_instance

/-- The ports at the tail or at the head of two edges cross them. -/
def PortCrosses (e f : ℕ) : Prop :=
  m.PortCrossesAt m.agtail true e f ∨ m.PortCrossesAt m.aghead false e f

instance (e f : ℕ) : Decidable (m.PortCrosses e f) := by unfold PortCrosses; infer_instance

/-- What a pair of edges counts for, when it has a property. -/
def penalty (P : ℕ → ℕ → Prop) [DecidableRel P] (e f : ℕ) : ℤ :=
  if P e f then m.xpenalty e * m.xpenalty f else 0

variable {m}

theorem penalty_comm {P : ℕ → ℕ → Prop} [DecidableRel P] (hP : ∀ e f, P e f ↔ P f e) (e f : ℕ) :
    m.penalty P e f = m.penalty P f e := by
  simp only [penalty, hP e f, mul_comm]

theorem crosses_comm (e f : ℕ) : m.Crosses e f ↔ m.Crosses f e := or_comm

theorem opposed_comm {isOut : Bool} (e f : ℕ) : m.opposed isOut e f ↔ m.opposed isOut f e := by
  have hneg : ∀ (a b : ℤ) (x y : ℚ), ((b - a : ℤ) : ℚ) * (y - x) < 0 ↔
      ((a - b : ℤ) : ℚ) * (x - y) < 0 := fun a b x y => by
    rw [← neg_sub a b, ← neg_sub x y, Int.cast_neg, neg_mul_neg]
  cases isOut with
  | true => exact hneg _ _ _ _
  | false => exact hneg _ _ _ _

theorem portCrossesAt_comm {shared : ℕ → Fin n} {isOut : Bool} (e f : ℕ) :
    m.PortCrossesAt shared isOut e f ↔ m.PortCrossesAt shared isOut f e := by
  rw [PortCrossesAt, PortCrossesAt, opposed_comm e f]
  exact ⟨fun ⟨heq, hp⟩ => ⟨heq.symm, heq ▸ hp⟩, fun ⟨heq, hp⟩ => ⟨heq.symm, heq ▸ hp⟩⟩

theorem portCrosses_comm (e f : ℕ) : m.PortCrosses e f ↔ m.PortCrosses f e :=
  or_congr (portCrossesAt_comm e f) (portCrossesAt_comm e f)

/-- The crossing number of a rank and the next: the crossings of pairs of edges between them, and
those of the ports. -/
def crossings (m : Mincross n) (r : ℕ) : ℤ :=
  Pairs.sum (m.edges r) (m.penalty m.Crosses) (penalty_comm crosses_comm) +
    Pairs.sum (m.edges r) (m.penalty m.PortCrosses) (penalty_comm portCrosses_comm)

/-- Two ranks in order: each node's `ND_order` is its place, and the edges from one to the other
are those of the lists at both of their ends. -/
structure Ordered (m : Mincross n) (r : ℕ) : Prop where
  top : (m.rank r).map m.order = List.range (m.rank r).length
  bot : (m.rank (r + 1)).map m.order = List.range (m.rank (r + 1)).length
  out : ∀ v ∈ m.rank r, ∀ e ∈ m.out v, m.agtail e = v ∧ m.aghead e ∈ m.rank (r + 1)
  inn : ∀ w ∈ m.rank (r + 1), ∀ e ∈ m.inn w, m.aghead e = w ∧ m.agtail e ∈ m.rank r
  both : ∀ e, m.agtail e ∈ m.rank r → m.aghead e ∈ m.rank (r + 1) →
    (e ∈ m.out (m.agtail e) ↔ e ∈ m.inn (m.aghead e))
  out_nodup : ∀ v ∈ m.rank r, (m.out v).Nodup
  inn_nodup : ∀ w ∈ m.rank (r + 1), (m.inn w).Nodup

variable {P : List ℕ} {s : Rcross} {r size : ℕ} {v : Fin n} {A B : List (Fin n)}

/-! ## Ports -/

theorem localCross_eq (l : List ℕ) (isOut : Bool) :
    m.localCross l isOut = Pairs.listSum (m.penalty (m.opposed isOut)) l := by
  have hloop : ∀ cross, m.localCrossLoop isOut cross l =
      cross + Pairs.listSum (m.penalty (m.opposed isOut)) l := by
    induction l with
    | nil => exact fun cross => (add_zero cross).symm
    | cons e l ih =>
      intro cross
      rw [localCrossLoop, ih, Pairs.foldl_add_ite, Pairs.listSum, add_assoc]
      rfl
  rw [localCross, hloop, zero_add]

/-! ## The count -/

/-- The edges that have been counted. -/
structure Counted (m : Mincross n) (size : ℕ) (s : Rcross) (P : List ℕ) : Prop where
  count : ∀ k, s.Count k =
    (P.map fun e => if m.order (m.aghead e) = k then m.xpenalty e else 0).sum
  le_max : ∀ e ∈ P, m.order (m.aghead e) ≤ s.max
  lt : s.max < size

/-- The penalties of the counted edges that an edge crosses, when their tails are before its. -/
def before (m : Mincross n) (P : List ℕ) (e : ℕ) : ℤ :=
  (P.map fun a => if m.order (m.aghead e) < m.order (m.aghead a) then m.xpenalty a else 0).sum

theorem rcrossEdge_spec (h : m.Counted size s P) (e : ℕ) :
    m.rcrossEdge size s e = .ok { s with cross := s.cross + m.before P e * m.xpenalty e } := by
  have hloop : ∀ (ks : List ℕ) (cross : ℤ), (∀ k ∈ ks, k < size) →
      ks.foldlM (fun (s : Rcross) k =>
        if k < size then Except.ok { s with cross := s.cross + s.Count k * m.xpenalty e }
        else .error Fault.segfault) { s with cross } =
        .ok { s with cross := cross + (ks.map s.Count).sum * m.xpenalty e } := by
    intro ks
    induction ks with
    | nil => intro cross _; simp; rfl
    | cons k ks ih =>
      intro cross hks
      rw [foldlM_cons, if_pos (hks k mem_cons_self), ok_bind,
        ih _ fun j hj => hks j (mem_cons_of_mem k hj), map_cons, sum_cons, add_mul,
        add_assoc]
  have hsum : ((List.range' (m.order (m.aghead e) + 1)
      (s.max - m.order (m.aghead e))).map s.Count).sum = m.before P e := by
    rw [map_congr_left fun k _ => h.count k, Pairs.sum_count nodup_range', before]
    refine congrArg List.sum (map_congr_left fun a ha => ?_)
    have hle := h.le_max a ha
    refine if_congr ?_ rfl rfl
    rw [mem_range'_1]
    omega
  rw [← hsum]
  refine hloop _ s.cross fun k hk => ?_
  have hlt := h.lt
  rw [mem_range'_1] at hk
  omega

theorem rcrossCount_spec (h : m.Counted size s P) {e : ℕ} (he : m.order (m.aghead e) < size) :
    Meets (m.rcrossCount size s e)
      (fun s' => s'.cross = s.cross ∧ m.Counted size s' (P ++ [e])) fun _ => False := by
  rw [rcrossCount, if_pos he]
  refine ⟨rfl, fun k => ?_, fun a ha => ?_, ?_⟩
  · rw [map_append, sum_append, ← h.count k]
    by_cases hk : m.order (m.aghead e) = k
    · simp [hk]
    · simp [hk, Ne.symm hk]
  · have hmax : (if m.order (m.aghead e) > s.max then m.order (m.aghead e) else s.max) =
        max s.max (m.order (m.aghead e)) := by
      split <;> omega
    rw [hmax]
    obtain ha | ha := mem_append.1 ha
    · exact (h.le_max a ha).trans (le_max_left _ _)
    · rw [mem_singleton.1 ha]
      exact le_max_right _ _
  · dsimp only
    split
    · exact he
    · exact h.lt

/-- One node of the upper rank. -/
theorem rcrossNode_spec (h : m.Counted size s P) (hv : ∀ e ∈ m.out v, m.order (m.aghead e) < size) :
    Meets (m.rcrossNode size s v)
      (fun s' => s'.cross = s.cross + ((m.out v).map fun e => m.before P e * m.xpenalty e).sum ∧
        m.Counted size s' (P ++ m.out v)) fun _ => False := by
  have hcount : ∀ (l : List ℕ) (s : Rcross) (P : List ℕ), m.Counted size s P →
      (∀ e ∈ l, m.order (m.aghead e) < size) → Meets (l.foldlM (m.rcrossCount size) s)
        (fun s' => s'.cross = s.cross ∧ m.Counted size s' (P ++ l)) fun _ => False := by
    intro l
    induction l with
    | nil => exact fun s P hs _ => ⟨rfl, by rwa [append_nil]⟩
    | cons e l ih =>
      intro s P hs hl
      rw [foldlM_cons]
      refine (rcrossCount_spec hs (hl e mem_cons_self)).bind fun s' ⟨hs', hcount⟩ => ?_
      refine (ih s' _ hcount fun a ha => hl a (mem_cons_of_mem e ha)).imp fun s'' hs'' => ?_
      rw [append_assoc, singleton_append] at hs''
      exact ⟨hs''.1.trans hs', hs''.2⟩
  rw [rcrossNode]
  by_cases hmax : s.max > 0
  · have hcross : ∀ (l : List ℕ) (s : Rcross), m.Counted size s P →
        Meets (l.foldlM (m.rcrossEdge size) s)
          (fun s' => s'.cross = s.cross + (l.map fun e => m.before P e * m.xpenalty e).sum ∧
            m.Counted size s' P) fun _ => False := by
      intro l
      induction l with
      | nil => exact fun s hs => ⟨by simp, hs⟩
      | cons e l ih =>
        intro s hs
        have hnext : m.Counted size
            { s with cross := s.cross + m.before P e * m.xpenalty e } P :=
          ⟨hs.count, hs.le_max, hs.lt⟩
        rw [foldlM_cons, rcrossEdge_spec hs, ok_bind]
        refine (ih _ hnext).imp fun s' hs' => ⟨?_, hs'.2⟩
        rw [hs'.1, map_cons, sum_cons, add_assoc]
    rw [if_pos hmax]
    refine (hcross _ s h).bind fun s1 ⟨hs1, h1⟩ => ?_
    exact (hcount _ s1 P h1 hv).imp fun s' hs' => ⟨hs'.1.trans hs1, hs'.2⟩
  · have hzero : ∀ e, m.before P e = 0 := fun e => by
      refine sum_eq_zero fun x hx => ?_
      obtain ⟨a, ha, rfl⟩ := mem_map.1 hx
      have hle := h.le_max a ha
      exact if_neg (by omega)
    rw [if_neg hmax]
    exact (hcount _ s P h hv).imp fun s' hs' => ⟨by simp [hs'.1, hzero], hs'.2⟩

namespace Ordered

/-- A node's place is before those of the nodes after it. -/
theorem order_lt (h : m.Ordered r) (hr : m.rank r = A ++ v :: B) {x : Fin n} (hx : x ∈ A) :
    m.order x < m.order v := by
  have hsorted : (m.rank r).Pairwise fun x y => m.order x < m.order y := by
    rw [← pairwise_map, h.top]
    exact pairwise_lt_range
  rw [hr] at hsorted
  exact (pairwise_append.1 hsorted).2.2 x hx v mem_cons_self

theorem top_nodup (h : m.Ordered r) : (m.rank r).Nodup :=
  List.Nodup.of_map m.order (by rw [h.top]; exact nodup_range)

theorem bot_nodup (h : m.Ordered r) : (m.rank (r + 1)).Nodup :=
  List.Nodup.of_map m.order (by rw [h.bot]; exact nodup_range)

/-- The places of the lower rank are within `Count`. -/
theorem head_lt (h : m.Ordered r) (hv : v ∈ m.rank r) {e : ℕ} (he : e ∈ m.out v) :
    m.order (m.aghead e) < (m.rank (r + 1)).length + 1 := by
  have hmem := mem_map_of_mem (f := m.order) (h.out v hv e he).2
  rw [h.bot, mem_range] at hmem
  omega

/-- The crossings of the edges of one more node. -/
theorem listSum_crosses (h : m.Ordered r) (hr : m.rank r = A ++ v :: B) :
    Pairs.listSum (m.penalty m.Crosses) (A.flatMap m.out ++ m.out v) =
      Pairs.listSum (m.penalty m.Crosses) (A.flatMap m.out) +
        ((m.out v).map fun e => m.before (A.flatMap m.out) e * m.xpenalty e).sum := by
  have htail : ∀ e ∈ m.out v, m.agtail e = v := fun e he =>
    (h.out v (by rw [hr]; simp) e he).1
  have hself : Pairs.listSum (m.penalty m.Crosses) (m.out v) = 0 :=
    Pairs.listSum_eq_zero fun e he f hf => by
      have hne : ¬ m.Crosses e f := by
        rw [Crosses, htail e he, htail f hf]
        omega
      exact if_neg hne
  have hcross : ∀ a ∈ A.flatMap m.out, ∀ e ∈ m.out v, m.penalty m.Crosses a e =
      (if m.order (m.aghead e) < m.order (m.aghead a) then m.xpenalty a else 0) *
        m.xpenalty e := by
    intro a ha e he
    obtain ⟨x, hx, ha⟩ := mem_flatMap.1 ha
    have hlt := h.order_lt hr hx
    rw [penalty, ite_mul, zero_mul]
    refine if_congr ?_ rfl rfl
    rw [Crosses, htail e he, (h.out x (by rw [hr]; simp [hx]) a ha).1]
    omega
  rw [Pairs.listSum_append, hself, add_zero, Pairs.sum_map_comm]
  congr 2
  refine map_congr_left fun e he => ?_
  rw [map_congr_left fun a ha => hcross a ha e he, before, sum_map_mul_right]

/-- The edges by the nodes they leave, and by the nodes they enter. -/
theorem edges_eq_inn (h : m.Ordered r) : m.edges r = ((m.rank (r + 1)).flatMap m.inn).toFinset := by
  ext e
  simp only [edges, mem_toFinset, mem_flatMap]
  constructor
  · rintro ⟨v, hv, he⟩
    obtain ⟨rfl, hw⟩ := h.out v hv e he
    exact ⟨_, hw, (h.both e hv hw).1 he⟩
  · rintro ⟨w, hw, he⟩
    obtain ⟨rfl, hv⟩ := h.inn w hw e he
    exact ⟨_, hv, (h.both e hv hw).2 he⟩

theorem out_edges_nodup (h : m.Ordered r) : ((m.rank r).flatMap m.out).Nodup := by
  refine nodup_flatMap.2 ⟨h.out_nodup, h.top_nodup.imp_of_mem fun hx hy hxy e hex hey => ?_⟩
  exact hxy ((h.out _ hx e hex).1.symm.trans (h.out _ hy e hey).1)

theorem inn_edges_nodup (h : m.Ordered r) : ((m.rank (r + 1)).flatMap m.inn).Nodup := by
  refine nodup_flatMap.2 ⟨h.inn_nodup, h.bot_nodup.imp_of_mem fun hx hy hxy e hex hey => ?_⟩
  exact hxy ((h.inn _ hx e hex).1.symm.trans (h.inn _ hy e hey).1)

/-- The first loop of `rcross`. -/
theorem count_spec (h : m.Ordered r) :
    Meets ((m.rank r).foldlM (m.rcrossNode ((m.rank (r + 1)).length + 1)) ⟨0, 0, fun _ => 0⟩)
      (fun s => s.cross =
        Pairs.sum (m.edges r) (m.penalty m.Crosses) (penalty_comm crosses_comm))
      fun _ => False := by
  refine (Meets.foldlM (fun rest s => ∃ A, m.rank r = A ++ rest ∧
    m.Counted ((m.rank (r + 1)).length + 1) s (A.flatMap m.out) ∧
    s.cross = Pairs.listSum (m.penalty m.Crosses) (A.flatMap m.out)) ?_ _ ?_).imp ?_
  · rintro v B s ⟨A, hr, hcount, hcross⟩
    have hv : v ∈ m.rank r := by rw [hr]; simp
    refine (rcrossNode_spec hcount fun e he => h.head_lt hv he).imp fun s' ⟨hs', hcount'⟩ => ?_
    refine ⟨A ++ [v], by rw [hr]; simp, ?_, ?_⟩
    · rwa [flatMap_append, flatMap_singleton]
    · rw [hs', hcross, flatMap_append, flatMap_singleton, h.listSum_crosses hr]
  · exact ⟨[], rfl, ⟨fun k => rfl, by simp, Nat.succ_pos _⟩, rfl⟩
  · rintro s ⟨A, hr, -, hcross⟩
    rw [append_nil] at hr
    rw [hcross, ← hr, edges, Pairs.sum_toFinset _ h.out_edges_nodup]

end Ordered

/-- The ports of the nodes of a rank, in one of the directions of their edges. -/
theorem ports_eq {K : List (Fin n)} {l : Fin n → List ℕ} {isOut : Bool} (shared : ℕ → Fin n)
    (hK : K.Nodup) (hl : ∀ v ∈ K, ∀ e ∈ l v, shared e = v) (c : ℤ) :
    K.foldl (fun cross v => if m.hasPort v then cross + m.localCross (l v) isOut else cross) c =
      c + Pairs.listSum (m.penalty (m.PortCrossesAt shared isOut)) (K.flatMap l) := by
  rw [Pairs.foldl_add_ite, Pairs.listSum_flatMap hK]
  · congr 2
    refine map_congr_left fun v hv => ?_
    rw [localCross_eq]
    by_cases hp : m.hasPort v = true
    · rw [if_pos hp]
      refine Pairs.listSum_congr fun e he f hf => if_congr ?_ rfl rfl
      simp only [PortCrossesAt, hl v hv e he, hl v hv f hf, hp, true_and]
    · rw [if_neg hp]
      refine (Pairs.listSum_eq_zero fun e he f hf => if_neg fun hne => hp ?_).symm
      rw [← hl v hv e he]
      exact hne.2.1
  · intro v hv w hw hvw e he f hf
    refine if_neg fun hne => hvw ?_
    rw [← hl v hv e he, ← hl w hw f hf]
    exact hne.1

/-- Edges with the same ends are not opposed. -/
theorem penalty_portCrosses (e f : ℕ) :
    m.penalty m.PortCrosses e f =
      m.penalty (m.PortCrossesAt m.agtail true) e f +
        m.penalty (m.PortCrossesAt m.aghead false) e f := by
  have hdisj : ¬ (m.PortCrossesAt m.agtail true e f ∧ m.PortCrossesAt m.aghead false e f) := by
    rintro ⟨⟨-, -, hop⟩, heq, -⟩
    rw [opposed, if_pos rfl, heq, sub_self, Int.cast_zero, zero_mul] at hop
    exact lt_irrefl _ hop
  by_cases ht : m.PortCrossesAt m.agtail true e f
  · have hp : m.PortCrosses e f := Or.inl ht
    rw [penalty, penalty, penalty, if_pos hp, if_pos ht, if_neg fun hh => hdisj ⟨ht, hh⟩, add_zero]
  · rw [penalty, penalty, penalty, if_neg ht, zero_add]
    exact if_congr (or_iff_right ht) rfl rfl

/-- Two nodes above two, `0 → 3` twice with different ports at `3`, `0 → 2` and `1 → 2`. -/
def twoRanks : Mincross 4 where
  edge e :=
    match e with
    | 0 => ⟨0, 3, 1, 2, 1, 1, none, none⟩
    | 1 => ⟨0, 2, 1, 1, 1, 1, none, none⟩
    | 2 => ⟨1, 2, 1, 3, 1, 1, none, none⟩
    | 3 => ⟨0, 3, 1, 1, 1, 1, none, none⟩
    | _ => ⟨0, 0, 1, 1, 1, 1, none, none⟩
  next := 4
  out v := if v = 0 then [0, 1, 3] else if v = 1 then [2] else []
  inn v := if v = 2 then [1, 2] else if v = 3 then [0, 3] else []
  order v := if v = 1 ∨ v = 3 then 1 else 0
  rank r := if r = 0 then [0, 1] else if r = 1 then [2, 3] else []
  hasPort v := v = 0
  tailPort e := if e = 1 then 5 else 0
  headPort _ := 0

/-- The edges `0 → 3` cross `1 → 2`, and `0 → 2` by their ports at `0`. -/
example : twoRanks.rcross 0 = .ok 12 := by decide +kernel

end Mincross

end Graphviz
