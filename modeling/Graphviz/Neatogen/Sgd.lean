import Graphviz.Neatogen.Distances
import Graphviz.Pack.Pccomps

/-!
# The terms of the stress (`sgd` in `neatogen/sgd.c`)

The terms of all nodes that are not fixed, and the number that is computed for them beforehand. It
is the number of the pairs with a node that is not fixed, each counted once, so that it is right
exactly when the searches find what these pairs have.
-/

namespace Graphviz.Dijkstra

open Function List Outcome ShortestPath

variable {n : ℕ}

/-- The body of the loop of `sgd` that counts: `n_fixed` and `n_terms`. -/
def countNode (isFixed : Fin n → Bool) (s : ℕ × ℕ) (i : Fin n) : ℕ × ℕ :=
  if isFixed i then s else (s.1 + 1, s.2 + (n - (s.1 + 1)))

/-- `n_terms`. -/
def n_terms (isFixed : Fin n → Bool) : ℕ :=
  ((finRange n).foldl (countNode isFixed) (0, 0)).2

variable {F : Type} [AddZeroClass F] [LinearOrder F] [One F] [Mul F] [Div F]

/-- The body of the loop of `sgd` that makes the terms, with this many steps for a search. -/
def sgdNode (FLT_MAX : F) (graph : graph_sgd n F) (fuel : ℕ) (terms : List (term_sgd n F))
    (i : Fin n) : Except Fault (List (term_sgd n F)) :=
  if graph.pinneds i then .ok terms
  else do
    let r ← dijkstra_sgd FLT_MAX graph i fuel
    match r.pc with
    | .ret => .ok (terms ++ r.acc)
    | _ => .error .fuel

/-- The part of `sgd` up to the assert on the number of the terms. -/
def sgd (FLT_MAX : F) (graph : graph_sgd n F) (fuel : ℕ) : Except Fault (List (term_sgd n F)) := do
  let terms ← (finRange n).foldlM (sgdNode FLT_MAX graph fuel) []
  assert (terms.length = n_terms graph.pinneds)
  .ok terms

/-! ## The number of the terms -/

/-- The pairs that get terms: a node that is not fixed, with one that is or that is before it. -/
def termPairs (isFixed : Fin n → Bool) : Finset (Fin n × Fin n) :=
  Finset.univ.filter fun p => ¬isFixed p.1 ∧ (isFixed p.2 ∨ p.2 < p.1)

theorem foldl_countNode (isFixed : Fin n → Bool) (l : List (Fin n)) (a t : ℕ) :
    (l.foldl (countNode isFixed) (a, t)).2 =
      t + ∑ k ∈ Finset.range (l.countP fun i => !isFixed i), (n - (a + k + 1)) := by
  induction l generalizing a t with
  | nil => rfl
  | cons i l ih =>
    rw [foldl_cons, countNode, countP_cons]
    split
    next hi => simp [ih, hi]
    next hi =>
      have hi : isFixed i = false := by simpa using hi
      rw [ih, hi]
      simp only [Bool.not_false, if_true]
      rw [Finset.sum_range_succ', Nat.add_assoc, Nat.add_comm (n - (a + 1))]
      congr 2
      refine Finset.sum_congr rfl fun k _ => ?_
      congr 1
      omega

/-- The number of members before one takes every value once. -/
theorem sum_rank (S : Finset (Fin n)) (f : ℕ → ℕ) :
    ∑ i ∈ S, f (S.filter (· < i)).card = ∑ k ∈ Finset.range S.card, f k := by
  induction S using Finset.induction_on_max with
  | empty => rfl
  | insert a S ha ih =>
    have hnot : a ∉ S := fun h => lt_irrefl _ (ha a h)
    rw [Finset.sum_insert hnot, Finset.card_insert_of_notMem hnot, Finset.sum_range_succ, ← ih,
      add_comm]
    congr 1
    · refine Finset.sum_congr rfl fun i hi => ?_
      rw [Finset.filter_insert, if_neg (ha i hi).not_gt]
    · rw [Finset.filter_insert, if_neg (lt_irrefl a), Finset.filter_true_of_mem ha]

/-- The nodes that are not fixed. -/
def freeNodes (isFixed : Fin n → Bool) : Finset (Fin n) :=
  Finset.univ.filter fun i => ¬isFixed i

theorem countP_free (isFixed : Fin n → Bool) :
    (finRange n).countP (fun i => !isFixed i) = (freeNodes isFixed).card := by
  have hnodup := (nodup_finRange n).filter fun i => !isFixed i
  rw [countP_eq_length_filter, ← toFinset_card_of_nodup hnodup, freeNodes]
  congr 1
  ext i
  simp

theorem card_fixed_or_before (isFixed : Fin n → Bool) (i : Fin n) :
    (Finset.univ.filter fun v => isFixed v ∨ v < i).card =
      n - (freeNodes isFixed).card + ((freeNodes isFixed).filter (· < i)).card := by
  have hsplit : (Finset.univ.filter fun v => isFixed v ∨ v < i) =
      (Finset.univ.filter fun v => isFixed v) ∪ (freeNodes isFixed).filter (· < i) := by
    ext v
    simp only [freeNodes, Finset.mem_filter, Finset.mem_union, Finset.mem_univ, true_and]
    obtain hv | hv := Decidable.em (isFixed v)
    · exact iff_of_true (.inl hv) (.inl hv)
    · rw [or_iff_right hv, or_iff_right hv, and_iff_right hv]
  have hdisj : Disjoint (Finset.univ.filter fun v => (isFixed v : Prop))
      ((freeNodes isFixed).filter (· < i)) := by
    rw [Finset.disjoint_left]
    intro v hv hv'
    exact (Finset.mem_filter.1 (Finset.mem_filter.1 hv').1).2 (Finset.mem_filter.1 hv).2
  have hcard := Finset.card_filter_add_card_filter_not (s := Finset.univ)
    fun v : Fin n => (isFixed v : Prop)
  rw [Finset.card_univ, Fintype.card_fin] at hcard
  rw [hsplit, Finset.card_union_of_disjoint hdisj, freeNodes]
  omega

/-- The number that is computed is that of the pairs. -/
theorem n_terms_eq (isFixed : Fin n → Bool) : n_terms isFixed = (termPairs isFixed).card := by
  have hle : (freeNodes isFixed).card ≤ n := (Finset.card_le_univ _).trans_eq (Fintype.card_fin n)
  have hpairs : (termPairs isFixed).card = ∑ i ∈ freeNodes isFixed,
      (Finset.univ.filter fun v => isFixed v ∨ v < i).card := by
    rw [termPairs, freeNodes, Finset.card_filter, Fintype.sum_prod_type, Finset.sum_filter]
    refine Finset.sum_congr rfl fun i _ => ?_
    rw [Finset.card_filter]
    split
    next hi => simp [hi]
    next hi => simp [hi]
  rw [n_terms, foldl_countNode, countP_free, Nat.zero_add, hpairs]
  simp only [card_fixed_or_before]
  rw [sum_rank (freeNodes isFixed) fun k => n - (freeNodes isFixed).card + k,
    ← Finset.sum_range_reflect]
  refine Finset.sum_congr rfl fun k hk => ?_
  have hlt := Finset.mem_range.1 hk
  omega

/-! ## The terms of a node -/

variable {FLT_MAX : F} {graph : graph_sgd n F} {source i j v : Fin n} {dist : Fin n → F}
  {order : List (Fin n)} {fuel : ℕ} {terms terms' ts : List (term_sgd n F)}

/-- The ends of a term. -/
def term_sgd.ends {F : Type} (t : term_sgd n F) : Fin n × Fin n :=
  (t.i, t.j)

/-- The node is found from the other one: there is a way below `FLT_MAX` over the edges that the
search keeps. -/
def Near (FLT_MAX : F) (graph : graph_sgd n F) (i j : Fin n) : Prop :=
  ∃ x < FLT_MAX, Walk (kept graph.edges i) i j x

omit [AddZeroClass F] [LinearOrder F] in
theorem ends_visits (pinneds : Fin n → Bool) (source : Fin n) (dist : Fin n → F)
    (order : List (Fin n)) (terms : List (term_sgd n F)) :
    (visits (sgdVariant FLT_MAX pinneds source) dist order terms).map term_sgd.ends =
      terms.map term_sgd.ends ++
        (order.filter fun v => pinneds v ∨ v < source).map fun v => (source, v) := by
  induction order generalizing terms with
  | nil => exact (append_nil _).symm
  | cons v order ih =>
    rw [visits, foldl_cons]
    refine (ih _).trans ?_
    change ((if pinneds v ∨ v < source then
      terms ++ [⟨source, v, dist v, 1 / (dist v * dist v)⟩] else terms).map _) ++ _ = _
    rw [filter_cons]
    split
    next hv =>
      rw [if_pos (decide_eq_true hv), map_append, map_cons, append_assoc]
      rfl
    next hv => rw [if_neg (by simpa using hv)]

omit [One F] [Mul F] [Div F] in
/-- A node is found when there is a way below `FLT_MAX`. -/
theorem near_iff {A : Type} {V : Variant n F A}
    (hf : Found V graph.edges source dist order) : Near V.maxDist graph source v ↔
      dist v < V.maxDist := by
  constructor
  · rintro ⟨x, hx, hwalk⟩
    exact (hf.nearest v x hwalk).trans_lt hx
  · exact fun hlt => ⟨_, hlt, (hf.found v).resolve_left hlt.ne⟩

variable [AddLeftMono F] [AddRightMono F]

/-- The pairs that a search gives terms. -/
structure NodeTerms (FLT_MAX : F) (graph : graph_sgd n F) (i : Fin n) (ts : List (term_sgd n F)) :
    Prop where
  nodup : (ts.map term_sgd.ends).Nodup
  mem : ∀ p, p ∈ ts.map term_sgd.ends ↔ p.1 = i ∧ p.2 ≠ i ∧
    (graph.pinneds p.2 ∨ p.2 < i) ∧ Near FLT_MAX graph i p.2

theorem dijkstra_sgd_terms {r : Run n F (List (term_sgd n F))} (hmax : 0 < FLT_MAX)
    (hfinite : ∀ u, ∀ e ∈ graph.edges u, e.2 ≤ FLT_MAX)
    (hok : dijkstra_sgd FLT_MAX graph i fuel = .ok r) (hret : r.pc = .ret) :
    NodeTerms FLT_MAX graph i r.acc := by
  obtain ⟨order, hf, hacc⟩ := search_found (lengths_sgd graph hmax hfinite) hok hret
  have hnear : ∀ v, Near FLT_MAX graph i v ↔ r.dist v < FLT_MAX := fun v => near_iff hf
  have hmap := @ends_visits n F _ _ _ FLT_MAX graph.pinneds i r.dist order []
  rw [← hacc] at hmap
  constructor
  · rw [hmap]
    exact ((hf.nodup.filter _).map fun u v huv => (Prod.ext_iff.1 huv).2)
  · intro p
    rw [hmap, map_nil, nil_append, mem_map]
    constructor
    · rintro ⟨v, hv, rfl⟩
      obtain ⟨hv, hcounted⟩ := mem_filter.1 hv
      obtain ⟨hne, hlt⟩ := (hf.mem_order v).1 hv
      exact ⟨rfl, hne, of_decide_eq_true hcounted, (hnear v).2 hlt⟩
    · rintro ⟨hfst, hne, hcounted, hlt⟩
      refine ⟨p.2, mem_filter.2 ⟨(hf.mem_order _).2 ⟨hne, (hnear _).1 hlt⟩,
        decide_eq_true hcounted⟩, Prod.ext hfst.symm rfl⟩

/-- The pairs that the nodes of a list get terms for. -/
structure ListTerms (FLT_MAX : F) (graph : graph_sgd n F) (l : List (Fin n))
    (ts : List (term_sgd n F)) : Prop where
  nodup : (ts.map term_sgd.ends).Nodup
  mem : ∀ p, p ∈ ts.map term_sgd.ends ↔ p.1 ∈ l ∧ ¬graph.pinneds p.1 ∧ p.2 ≠ p.1 ∧
    (graph.pinneds p.2 ∨ p.2 < p.1) ∧ Near FLT_MAX graph p.1 p.2

theorem sgdNodes_terms {l : List (Fin n)} (hl : l.Nodup) (hmax : 0 < FLT_MAX)
    (hfinite : ∀ u, ∀ e ∈ graph.edges u, e.2 ≤ FLT_MAX)
    (hok : l.foldlM (sgdNode FLT_MAX graph fuel) terms = .ok terms') :
    ∃ ts, terms' = terms ++ ts ∧ ListTerms FLT_MAX graph l ts := by
  induction l generalizing terms with
  | nil =>
    obtain rfl := Except.ok.inj hok
    exact ⟨[], (append_nil _).symm, nodup_nil, fun p =>
      iff_of_false not_mem_nil fun h => not_mem_nil h.1⟩
  | cons i l ih =>
    obtain ⟨hi, hl⟩ := nodup_cons.1 hl
    rw [foldlM_cons, sgdNode] at hok
    split at hok
    next hpin =>
      obtain ⟨ts, rfl, hnodup, hmem⟩ := ih hl hok
      refine ⟨ts, rfl, hnodup, fun p => (hmem p).trans (and_congr_left fun hp => ?_)⟩
      rw [mem_cons, or_iff_right fun heq : p.1 = i => hp.1 (heq ▸ hpin)]
    next hfree =>
      obtain ⟨terms1, h1, hok⟩ := bind_eq_ok.1 hok
      obtain ⟨r, hr, h1⟩ := bind_eq_ok.1 h1
      split at h1
      next hret =>
        obtain rfl := Except.ok.inj h1
        obtain ⟨hnodup, hmem⟩ := dijkstra_sgd_terms hmax hfinite hr hret
        obtain ⟨ts, rfl, hnodup', hmem'⟩ := ih hl hok
        refine ⟨r.acc ++ ts, append_assoc _ _ _, ?_, fun p => ?_⟩
        · rw [map_append]
          refine nodup_append.2 ⟨hnodup, hnodup', fun p hp q hq heq => ?_⟩
          subst heq
          exact hi (((hmem p).1 hp).1 ▸ ((hmem' p).1 hq).1)
        · rw [map_append, mem_append, hmem, hmem', mem_cons]
          constructor
          · rintro (⟨rfl, hp⟩ | ⟨hp, hp'⟩)
            · exact ⟨.inl rfl, hfree, hp⟩
            · exact ⟨.inr hp, hp'⟩
          · rintro ⟨rfl | hp, hp', hp''⟩
            · exact .inl ⟨rfl, hp''⟩
            · exact .inr ⟨hp, hp', hp''⟩
      next => exact absurd h1 (by simp)

/-- Enough steps for the search of every node. -/
noncomputable def enough (graph : graph_sgd n F) : ℕ :=
  ∑ i, (workLeft (degree graph.edges) (Settled i []) + 1)

theorem dijkstra_sgd_ends (hmax : 0 < FLT_MAX)
    (hfinite : ∀ u, ∀ e ∈ graph.edges u, e.2 ≤ FLT_MAX) (i : Fin n) :
    ∃ r, dijkstra_sgd FLT_MAX graph i (enough graph) = .ok r ∧ r.pc = .ret := by
  have hle : workLeft (degree graph.edges) (Settled i []) + 1 ≤ enough graph :=
    Finset.single_le_sum (f := fun i => workLeft (degree graph.edges) (Settled i []) + 1)
      (fun _ _ => Nat.zero_le _) (Finset.mem_univ i)
  have hl : Lengths (sgdVariant FLT_MAX graph.pinneds i) graph.edges i :=
    lengths_sgd graph hmax hfinite
  rcases search_inv hl [] (enough graph) with
    ⟨r, work, hok, hinv, hwork⟩ | ⟨-, hnot⟩
  · obtain rfl : work = 0 := by omega
    exact ⟨r, hok, hinv.ret_of_zero⟩
  · exact absurd (fun u d _ _ e _ => ⟨rfl, rfl⟩) hnot

theorem sgdNodes_ok (hmax : 0 < FLT_MAX) (hfinite : ∀ u, ∀ e ∈ graph.edges u, e.2 ≤ FLT_MAX)
    (l : List (Fin n)) (terms : List (term_sgd n F)) :
    ∃ terms', l.foldlM (sgdNode FLT_MAX graph (enough graph)) terms = .ok terms' := by
  induction l generalizing terms with
  | nil => exact ⟨terms, rfl⟩
  | cons i l ih =>
    rw [foldlM_cons, sgdNode]
    split
    next => exact ih terms
    next =>
      obtain ⟨r, hr, hret⟩ := dijkstra_sgd_ends hmax hfinite i
      obtain ⟨terms', hok⟩ := ih (terms ++ r.acc)
      refine ⟨terms', ?_⟩
      rw [hr, ok_bind, hret]
      exact hok

/-! ## All terms -/

/-- Every pair with a node that is not fixed has one term. -/
def Covers {F : Type} (isFixed : Fin n → Bool) (terms : List (term_sgd n F)) : Prop :=
  ∀ i j, i ≠ j → ¬isFixed i ∨ ¬isFixed j →
    terms.countP (fun t => t.ends = (i, j) ∨ t.ends = (j, i)) = 1

/-- The assert on the number of the terms is passed, and the terms cover the pairs. -/
def TermsExact (FLT_MAX : F) (graph : graph_sgd n F) : Prop :=
  ∃ fuel terms, sgd FLT_MAX graph fuel = .ok terms ∧ Covers graph.pinneds terms

omit [AddZeroClass F] [LinearOrder F] [One F] [Mul F] [Div F] [AddLeftMono F] [AddRightMono F] in
/-- Of two pairs a list without repetitions has one. -/
theorem countP_eq_one {p q : Fin n × Fin n} (hnodup : (terms.map term_sgd.ends).Nodup)
    (hp : p ∈ terms.map term_sgd.ends) (hq : q ∉ terms.map term_sgd.ends) :
    terms.countP (fun t => t.ends = p ∨ t.ends = q) = 1 := by
  have hmap : terms.countP (fun t => t.ends = p ∨ t.ends = q) =
      (terms.map term_sgd.ends).countP fun e => e = p ∨ e = q := by
    rw [countP_map]
    rfl
  have hset : ((terms.map term_sgd.ends).filter fun e => e = p ∨ e = q).toFinset = {p} := by
    ext e
    rw [mem_toFinset, mem_filter, Finset.mem_singleton]
    constructor
    · rintro ⟨he, heq⟩
      exact (of_decide_eq_true heq).resolve_right fun heq => hq (heq ▸ he)
    · rintro rfl
      exact ⟨hp, decide_eq_true (.inl rfl)⟩
  rw [hmap, countP_eq_length_filter, ← toFinset_card_of_nodup (hnodup.filter _), hset,
    Finset.card_singleton]

omit [One F] [Mul F] [Div F] [AddLeftMono F] [AddRightMono F] in
theorem ListTerms.mem_iff (h : ListTerms FLT_MAX graph (finRange n) terms)
    (p : Fin n × Fin n) : p ∈ terms.map term_sgd.ends ↔
      p ∈ termPairs graph.pinneds ∧ Near FLT_MAX graph p.1 p.2 := by
  rw [h.mem, termPairs, Finset.mem_filter, and_iff_right (mem_finRange _),
    and_iff_right (Finset.mem_univ _)]
  constructor
  · exact fun ⟨hfree, _, hcounted, hnear⟩ => ⟨⟨hfree, hcounted⟩, hnear⟩
  · rintro ⟨⟨hfree, hcounted⟩, hnear⟩
    refine ⟨hfree, ?_, hcounted, hnear⟩
    obtain hpin | hlt := hcounted
    · exact fun heq => hfree (heq ▸ hpin)
    · exact hlt.ne

omit [One F] [Mul F] [Div F] [AddLeftMono F] [AddRightMono F] in
/-- There are as many terms as were computed when every pair is near. -/
theorem ListTerms.length_eq_iff (h : ListTerms FLT_MAX graph (finRange n) terms) :
    terms.length = n_terms graph.pinneds ↔
      ∀ p ∈ termPairs graph.pinneds, Near FLT_MAX graph p.1 p.2 := by
  classical
  have hset : (terms.map term_sgd.ends).toFinset =
      (termPairs graph.pinneds).filter fun p => Near FLT_MAX graph p.1 p.2 := by
    ext p
    rw [mem_toFinset, Finset.mem_filter]
    exact h.mem_iff p
  have hlen : terms.length = (terms.map term_sgd.ends).toFinset.card := by
    rw [toFinset_card_of_nodup h.nodup, length_map]
  rw [hlen, hset, n_terms_eq]
  exact Finset.card_filter_eq_iff

omit [One F] [Mul F] [Div F] [AddLeftMono F] [AddRightMono F] in
theorem ListTerms.covers (h : ListTerms FLT_MAX graph (finRange n) terms)
    (hall : ∀ p ∈ termPairs graph.pinneds, Near FLT_MAX graph p.1 p.2) :
    Covers graph.pinneds terms := by
  have hmem : ∀ p, p ∈ terms.map term_sgd.ends ↔
      ¬graph.pinneds p.1 ∧ (graph.pinneds p.2 ∨ p.2 < p.1) := fun p => by
    rw [h.mem_iff p, and_iff_left_of_imp (hall p), termPairs, Finset.mem_filter,
      and_iff_right (Finset.mem_univ _)]
  have hone : ∀ i j, ¬graph.pinneds i → graph.pinneds j ∨ j < i →
      terms.countP (fun t => t.ends = (i, j) ∨ t.ends = (j, i)) = 1 := by
    intro i j hi hj
    refine countP_eq_one h.nodup ((hmem _).2 ⟨hi, hj⟩) fun hji => ?_
    obtain ⟨hj', hi'⟩ := (hmem _).1 hji
    exact lt_asymm (hj.resolve_left hj') (hi'.resolve_left hi)
  have hswap : ∀ i j, terms.countP (fun t => t.ends = (i, j) ∨ t.ends = (j, i)) =
      terms.countP fun t => t.ends = (j, i) ∨ t.ends = (i, j) := fun i j =>
    countP_congr fun t _ => by simp only [decide_eq_true_eq, or_comm]
  intro i j hne hfree
  obtain hi | hi := Decidable.em (graph.pinneds i)
  · rw [hswap]
    exact hone j i (hfree.resolve_left (not_not.2 hi)) (.inl hi)
  obtain hj | hj := Decidable.em (graph.pinneds j)
  · exact hone i j hi (.inl hj)
  obtain hlt | hlt := lt_or_gt_of_ne hne
  · rw [hswap]
    exact hone j i hj (.inr hlt)
  · exact hone i j hi (.inr hlt)

/-- When the assert is passed, every pair is near. -/
theorem TermsExact.near (h : TermsExact FLT_MAX graph) (hmax : 0 < FLT_MAX)
    (hfinite : ∀ u, ∀ e ∈ graph.edges u, e.2 ≤ FLT_MAX) :
    ∀ p ∈ termPairs graph.pinneds, Near FLT_MAX graph p.1 p.2 := by
  obtain ⟨fuel, terms, hok, -⟩ := h
  rw [sgd] at hok
  obtain ⟨terms', hterms, hok⟩ := bind_eq_ok.1 hok
  obtain ⟨_, hassert, hok⟩ := bind_eq_ok.1 hok
  obtain ⟨ts, rfl, hlist⟩ := sgdNodes_terms (nodup_finRange n) hmax hfinite hterms
  exact hlist.length_eq_iff.1 (assert_eq_ok hassert)

theorem mem_termPairs {isFixed : Fin n → Bool} : (i, j) ∈ termPairs isFixed ↔
    ¬isFixed i ∧ (isFixed j ∨ j < i) := by
  rw [termPairs, Finset.mem_filter, and_iff_right (Finset.mem_univ _)]

section Layout

open Ccomps

/-- The other ends of the edges at a node. -/
def graph_t.others {F : Type} (G : graph_t n F) (v : Fin n) : List (Fin n) :=
  (G.edges v).map (target v)

/-- The nodes of the graphs that `neato_layout` passes on: the components when there are several, and
else all nodes. -/
def layoutNodes {F : Type} (G : graph_t n F) : Except Fault (List (List (Fin n))) := do
  let (cc, _) ← pccomps G.others G.isFixed
  .ok (if cc.length > 1 then cc else [finRange n])

variable {G : graph_t n F}

omit [One F] [Mul F] [Div F] [AddLeftMono F] [AddRightMono F] in
/-- The search reaches what is connected to the node. -/
theorem walk_iff_connected (hgraph : extract_adjacency G = .ok graph) :
    (∃ x, Walk (kept graph.edges i) i j x) ↔ Connected G.others i j := by
  have hedges := (extract_adjacency_spec hgraph).1
  constructor
  · rintro ⟨x, hwalk⟩
    induction hwalk with
    | nil => exact .refl
    | @snoc u v x c _ hc ih =>
      have hmem : (v, c) ∈ G.arcs u := hedges u ▸ edge_of_kept hc
      obtain ⟨ep, hep, harc⟩ := mem_filterMap.1 hmem
      refine ih.tail (mem_map.2 ⟨ep, hep, ?_⟩)
      rw [arc] at harc
      split at harc
      next => exact absurd harc (Option.some_ne_none _).symm
      next => exact congrArg Prod.fst (Option.some.inj harc)
  · intro h
    induction h with
    | refl => exact ⟨0, .nil⟩
    | @tail u v _ huv ih =>
      obtain ⟨x, hwalk⟩ := ih
      obtain ⟨ep, hep, rfl⟩ := mem_map.1 huv
      obtain hloop | hloop := eq_or_ne ep.tail ep.head
      · have hsame : target u ep = u := by
          obtain htail | hhead := G.ends u ep hep
          · rw [target, if_pos htail, ← hloop, htail]
          · rw [target, if_pos (hloop.trans hhead), hhead]
        exact ⟨x, hsame.symm ▸ hwalk⟩
      · have hmem : (target u ep, ep.dist) ∈ graph.edges u := by
          rw [hedges]
          exact mem_filterMap.2 ⟨ep, hep, by rw [arc, if_neg hloop]⟩
        obtain rfl | hne := eq_or_ne u i
        · obtain ⟨w, hw⟩ := lastTo_of_mem hmem
          exact ⟨_, hwalk.snoc (kept_source.2 hw)⟩
        · exact ⟨_, hwalk.snoc ((kept_of_ne hne).2 hmem)⟩

end Layout

attribute [local instance] Instances.neZero_four

/-- Two edges, each from a pinned node to one that is not. -/
def twoPinned : graph_t 4 ℚ where
  edges v := if v < 2 then [⟨0, 1, 1⟩] else [⟨2, 3, 1⟩]
  isFixed v := v = 0 ∨ v = 2
  ends := by decide
  both := by decide

theorem twoPinned_connected {v : Fin 4} (h : Ccomps.Connected twoPinned.others 1 v) : v < 2 := by
  induction h with
  | refl => decide
  | @tail u w _ huw ih =>
    have hnext : ∀ u : Fin 4, u < 2 → ∀ w ∈ twoPinned.others u, w < 2 := by decide
    exact hnext u ih w huw

end Graphviz.Dijkstra
