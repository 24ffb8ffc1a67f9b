import Graphviz.Dotgen.FastGraph

/-!
# The initial ranking (`init_rank` of `common/ns.c`)

`init_graph` counts the in edges of every node of a component; `init_rank` takes the nodes without
unprocessed in edges off a queue, in topological order. On an acyclic component it processes every
node.
-/

namespace Graphviz

open FastGraph Function List Outcome RelGraph

variable {n : ℕ}

/-- The state of `init_rank`: `ND_rank`, `ND_priority`, the queue, first node first, and the
number of nodes processed. -/
structure RankQueue (n : ℕ) where
  rank : Fin n → ℤ
  priority : Fin n → ℤ
  queue : List (Fin n)
  ctr : ℕ

/-- `init_graph`: the priority of a node is the number of its in edges. -/
def initPriority (fg : FastGraph n) (nlist : List (Fin n)) (priority : Fin n → ℤ) : Fin n → ℤ :=
  nlist.foldl (fun p v => update p v (fg.inn v).length) priority

/-- The rank of a node that is taken off the queue. -/
def rankOf (fg : FastGraph n) (rank : Fin n → ℤ) (v : Fin n) : Fin n → ℤ :=
  (fg.inn v).foldl
    (fun r e => update r v (max (r v) (r (fg.edge e).tail + (fg.edge e).minlen)))
    (update rank v 0)

/-- One out edge of a node that is taken off the queue. -/
def releaseHead (fg : FastGraph n) (s : RankQueue n) (e : ℕ) : RankQueue n :=
  let w := (fg.edge e).head
  let s := { s with priority := update s.priority w (s.priority w - 1) }
  if s.priority w ≤ 0 then { s with queue := s.queue ++ [w] } else s

/-- The loop of `init_rank`. -/
def initRankLoop (fg : FastGraph n) : ℕ → RankQueue n → Except Fault (RankQueue n)
  | 0, _ => .error .fuel
  | k + 1, s =>
    match s.queue with
    | [] => .ok s
    | v :: queue =>
      initRankLoop fg k ((fg.out v).foldl (releaseHead fg)
        { s with queue := queue, ctr := s.ctr + 1, rank := rankOf fg s.rank v })

/-- `init_rank` on a component, after `init_graph`. When the count differs from the number of
nodes, the source reports `trouble in init_rank`. -/
def initRank (fg : FastGraph n) (nlist : List (Fin n)) (rank priority : Fin n → ℤ) :
    Except Fault (RankQueue n) :=
  let priority := initPriority fg nlist priority
  initRankLoop fg (n + 1) ⟨rank, priority, nlist.filter fun v => priority v = 0, 0⟩

/-! ## The invariant of the queue -/

variable {fg : FastGraph n} {nlist P : List (Fin n)} {s : RankQueue n} {u v w : Fin n}

/-- The in edges of `w` from nodes that are not in `P`. -/
def waiting (fg : FastGraph n) (P : List (Fin n)) (w : Fin n) : ℕ :=
  (fg.inn w).countP fun e => (fg.edge e).tail ∉ P

/-- The priorities `init_graph` sets. -/
theorem initPriority_apply {priority : Fin n → ℤ} :
    initPriority fg nlist priority v = if v ∈ nlist then ((fg.inn v).length : ℤ) else priority v := by
  unfold initPriority
  induction nlist generalizing priority with
  | nil => simp
  | cons x nlist ih =>
    rw [foldl_cons, ih]
    by_cases hvx : v = x
    · subst hvx; simp
    · simp [hvx]

/-- A node without waiting in edges has all its predecessors in `P`. -/
theorem waiting_eq_zero (hwf : fg.Wf) : waiting fg P w = 0 ↔ ∀ u, fg.Adj u w → u ∈ P := by
  rw [waiting, countP_eq_zero]
  constructor
  · intro h u hu
    obtain ⟨e, he, rfl⟩ := hwf.adj_iff_inn.1 hu
    simpa using h e he
  · intro h e he
    simpa using h _ (hwf.adj_iff_inn.2 ⟨e, he, rfl⟩)

/-- One more processed node releases exactly its successors. -/
theorem waiting_snoc (hwf : fg.Wf) (hv : v ∉ P) :
    waiting fg P w = waiting fg (P ++ [v]) w + if fg.Adj v w then 1 else 0 := by
  have hcount : ((fg.inn w).map fun e => (fg.edge e).tail).count v = if fg.Adj v w then 1 else 0 := by
    by_cases hadj : fg.Adj v w
    · obtain ⟨e, he, hev⟩ := hwf.adj_iff_inn.1 hadj
      rw [if_pos hadj]
      exact count_eq_one_of_mem (hwf.tails w) (mem_map.2 ⟨e, he, hev⟩)
    · rw [if_neg hadj]
      refine count_eq_zero_of_not_mem fun hmem => hadj ?_
      obtain ⟨e, he, hev⟩ := mem_map.1 hmem
      exact hwf.adj_iff_inn.2 ⟨e, he, hev⟩
  rw [← hcount, List.count, countP_map]
  simp only [waiting]
  induction fg.inn w with
  | nil => rfl
  | cons e l ih =>
    rw [countP_cons, countP_cons, countP_cons, ih]
    by_cases hev : (fg.edge e).tail = v
    · simp [hev, hv]
      omega
    · simp [hev]
      omega

/-- The invariant of `init_rank` after the nodes `P` have been processed, when the out edges
`rest` of the last of them remain. -/
structure QueueInv (fg : FastGraph n) (nlist P : List (Fin n)) (rest : List ℕ) (s : RankQueue n) :
    Prop where
  ctr : s.ctr = P.length
  nodup : (P ++ s.queue).Nodup
  sub : ∀ {v}, v ∈ P ∨ v ∈ s.queue → v ∈ nlist
  priority : ∀ {v}, v ∈ nlist →
    s.priority v = waiting fg P v + if v ∈ rest.map fun e => (fg.edge e).head then 1 else 0
  zero : ∀ {v}, v ∈ nlist → (v ∈ P ∨ v ∈ s.queue ↔ s.priority v = 0)

/-- One out edge keeps the invariant. -/
theorem QueueInv.release {e : ℕ} {rest : List ℕ} (h : QueueInv fg nlist P (e :: rest) s)
    (hmem : (fg.edge e).head ∈ nlist) (hnd : ((e :: rest).map fun e => (fg.edge e).head).Nodup) :
    QueueInv fg nlist P rest (releaseHead fg s e) := by
  rw [map_cons, nodup_cons] at hnd
  have hpw : s.priority (fg.edge e).head = waiting fg P (fg.edge e).head + 1 := by
    rw [h.priority hmem]
    simp
  -- the head has not been queued before
  have hnew : (fg.edge e).head ∉ P ++ s.queue := by
    intro hin
    have := (h.zero hmem).1 (mem_append.1 hin)
    omega
  have hprio : ∀ {v}, v ∈ nlist →
      update s.priority (fg.edge e).head (s.priority (fg.edge e).head - 1) v =
        waiting fg P v + if v ∈ rest.map fun e => (fg.edge e).head then 1 else 0 := by
    intro v hv
    by_cases hvw : v = (fg.edge e).head
    · subst hvw
      rw [update_self, hpw, if_neg hnd.1]
      omega
    · rw [update_of_ne hvw, h.priority hv]
      simp [hvw]
  have hzero : ∀ {v}, v ≠ (fg.edge e).head →
      update s.priority (fg.edge e).head (s.priority (fg.edge e).head - 1) v = s.priority v :=
    fun hv => update_of_ne hv ..
  unfold releaseHead
  simp only [update_self]
  split
  next hle =>
    refine ⟨h.ctr, ?_, fun {v} hv => ?_, hprio, fun {v} hv => ?_⟩
    · rw [← append_assoc]
      exact h.nodup.append (nodup_singleton _) (disjoint_singleton.2 hnew)
    · obtain hv | hv := hv
      · exact h.sub (.inl hv)
      · obtain hv | hv := mem_append.1 hv
        · exact h.sub (.inr hv)
        · rw [mem_singleton.1 hv]; exact hmem
    · by_cases hvw : v = (fg.edge e).head
      · subst hvw
        simp only [update_self, mem_append, mem_singleton, or_true, true_iff]
        omega
      · simp only [hzero hvw, mem_append, mem_singleton, hvw, or_false]
        exact h.zero hv
  next hgt =>
    refine ⟨h.ctr, h.nodup, h.sub, hprio, fun {v} hv => ?_⟩
    by_cases hvw : v = (fg.edge e).head
    · subst hvw
      simp only [update_self]
      refine ⟨fun hin => absurd (mem_append.2 hin) hnew, fun h0 => ?_⟩
      omega
    · simp only [hzero hvw]
      exact h.zero hv

/-- The out edges of a node keep the invariant. -/
theorem QueueInv.releases {rest : List ℕ} (h : QueueInv fg nlist P rest s)
    (hmem : ∀ e ∈ rest, (fg.edge e).head ∈ nlist)
    (hnd : (rest.map fun e => (fg.edge e).head).Nodup) :
    QueueInv fg nlist P [] (rest.foldl (releaseHead fg) s) := by
  induction rest generalizing s with
  | nil => exact h
  | cons e rest ih =>
    rw [foldl_cons]
    exact ih (h.release (hmem e mem_cons_self) hnd)
      (fun e' he' => hmem e' (mem_cons_of_mem _ he')) (nodup_cons.1 hnd).2

/-- Processing a node keeps the invariant. -/
theorem QueueInv.process (hwf : fg.Wf) (hc : ∀ {u w}, fg.Adj u w → (u ∈ nlist ↔ w ∈ nlist))
    (h : QueueInv fg nlist P [] s) {queue : List (Fin n)} (hq : s.queue = v :: queue) :
    QueueInv fg nlist (P ++ [v]) [] ((fg.out v).foldl (releaseHead fg)
      { s with queue := queue, ctr := s.ctr + 1, rank := rankOf fg s.rank v }) := by
  have hv : v ∈ nlist := h.sub (.inr (by rw [hq]; exact mem_cons_self))
  have hnd := h.nodup
  rw [hq] at hnd
  have hvP : v ∉ P := fun hin => (nodup_append.1 hnd).2.2 v hin v mem_cons_self rfl
  refine QueueInv.releases ⟨?_, ?_, fun {w} hw => ?_, fun {w} hw => ?_, fun {w} hw => ?_⟩
    (fun e he => (hc ⟨e, he, rfl⟩).1 hv) (hwf.heads v)
  · simp [h.ctr]
  · rw [append_assoc]; exact hnd
  · refine h.sub ?_
    rw [hq]
    obtain hw | hw := hw
    · obtain hw | hw := mem_append.1 hw
      · exact .inl hw
      · exact .inr (mem_cons.2 (.inl (mem_singleton.1 hw)))
    · exact .inr (mem_cons_of_mem _ hw)
  · have hmap : (w ∈ (fg.out v).map fun e => (fg.edge e).head) ↔ fg.Adj v w := by
      simp [Adj]
    have := h.priority hw
    rw [waiting_snoc hwf hvP] at this
    simp only [map_nil, not_mem_nil, if_false] at this
    simp only [hmap]
    rw [this]
    split <;> simp
  · simp only [← h.zero hw, hq, mem_append, mem_cons, not_mem_nil, or_false, or_assoc]

/-- The loop of `init_rank` processes every node of an acyclic component. -/
theorem initRankLoop_spec (hwf : fg.Wf) (hc : ∀ {u w}, fg.Adj u w → (u ∈ nlist ↔ w ∈ nlist))
    (hnd : nlist.Nodup) (hac : Acyclic fg.Adj) {k : ℕ} (h : QueueInv fg nlist P [] s)
    (hk : n - P.length < k) :
    Meets (initRankLoop fg k s) (fun s' => s'.ctr = nlist.length) fun _ => False := by
  induction k generalizing P s with
  | zero => omega
  | succ k ih =>
    unfold initRankLoop
    cases hq : s.queue with
    | nil =>
      -- by induction along the edges, every node has been processed
      have hall : ∀ v, v ∈ nlist → v ∈ P := by
        intro v
        induction v using hac.wellFounded.induction with
        | _ v ihv =>
          intro hv
          have hw : waiting fg P v = 0 :=
            (waiting_eq_zero hwf).2 fun u hu => ihv u hu ((hc hu).2 hv)
          have h0 := h.priority hv
          rw [hw] at h0
          have hin := (h.zero hv).2 (by simpa using h0)
          rw [hq] at hin
          exact hin.resolve_right not_mem_nil
      have hndP : P.Nodup := (nodup_append.1 h.nodup).1
      have hperm : P.Perm nlist :=
        (perm_ext_iff_of_nodup hndP hnd).2 fun v => ⟨fun hv => h.sub (.inl hv), hall v⟩
      exact h.ctr.trans hperm.length_eq
    | cons v queue =>
      have hlen : (P ++ s.queue).length ≤ n := by
        simpa using h.nodup.length_le_card
      rw [length_append, hq, length_cons] at hlen
      refine ih (h.process hwf hc hq) ?_
      rw [length_append, length_singleton]
      omega

/-- `init_rank` processes every node of an acyclic component. -/
theorem initRank_spec (hwf : fg.Wf) (hc : ∀ {u w}, fg.Adj u w → (u ∈ nlist ↔ w ∈ nlist))
    (hnd : nlist.Nodup) (hac : Acyclic fg.Adj) (rank priority : Fin n → ℤ) :
    Meets (initRank fg nlist rank priority) (fun s => s.ctr = nlist.length) fun _ => False := by
  have hlen : ∀ v, waiting fg [] v = (fg.inn v).length := fun v => by
    simp [waiting]
  refine initRankLoop_spec (P := []) hwf hc hnd hac ⟨rfl, ?_, fun {v} hv => ?_, fun {v} hv => ?_,
    fun {v} hv => ?_⟩ (by simp)
  · exact hnd.filter _
  · exact mem_of_mem_filter (hv.resolve_left not_mem_nil)
  · simp [initPriority_apply, hv, hlen]
  · simp [mem_filter, hv]

end Graphviz
