import Graphviz.Dotgen.LabelOrderFix

/-!
# The order of the labels of all ranks

`checkLabelOrder` leaves the labels of each rank in a consistent order, and nothing else moves, just
when they are in order before: to fix a rank, it has to pass an assertion that fails. Where
assertions are not compiled, it does so just when no component of labels has all of its edges going
back.
-/

namespace Graphviz

open Function List Nat Outcome Relation

namespace LabelOrder

variable {ν : Type}

/-- The lower end of the interval of a label. -/
def LabelRanks.lo (g : LabelRanks ν) (u : ν) : ℕ :=
  match interval g u with
  | .ok p => p.1
  | .error _ => 0

/-- The upper end of the interval of a label. -/
def LabelRanks.hi (g : LabelRanks ν) (u : ν) : ℕ :=
  match interval g u with
  | .ok p => p.2
  | .error _ => 0

/-- A vertex of the rank stands for a label. -/
def LabelRanks.IsLabel (g : LabelRanks ν) (r : ℤ) (u : ν) : Prop :=
  u ∈ g.rank r ∧ g.alg u = true

/-- The graph as the function gets it: `ND_order` is the position in the rank, a vertex is in one
rank, and a label has edges to the two ends of its flat edge, different vertices that stand for no
label. -/
structure LabelRanks.Consistent (g : LabelRanks ν) : Prop where
  ranked : ∀ r, Ranked g.order (g.rank r)
  disjoint : ∀ r r' u, u ∈ g.rank r → u ∈ g.rank r' → r = r'
  ends : ∀ r u, g.IsLabel r u → ∃ a b rest, g.out u = a :: b :: rest ∧ g.alg a = false ∧
    g.alg b = false ∧ g.order a ≠ g.order b

/-- What `checkLabelOrder` is for: each rank is a permutation with the positions of its nodes, only
labels move, and a label whose interval ends before that of another begins comes before it. -/
structure LabelRanks.Ordered (g g' : LabelRanks ν) : Prop where
  perm : ∀ r ∈ g.ranks, (g'.rank r).Perm (g.rank r)
  ranked : ∀ r ∈ g.ranks, Ranked g'.order (g'.rank r)
  moved : ∀ u, g.alg u = false → g'.order u = g.order u
  sorted : ∀ r ∈ g.ranks, ∀ u w, g.IsLabel r u → g.IsLabel r w → g.hi u ≤ g.lo w →
    g'.order u < g'.order w

/-- The labels are in order. -/
def LabelRanks.InOrder (g : LabelRanks ν) : Prop :=
  ∀ r ∈ g.ranks, ∀ u w, g.IsLabel r u → g.IsLabel r w → g.hi u ≤ g.lo w → g.order u < g.order w

/-- Two labels are linked by labels whose intervals do not overlap. -/
def LabelRanks.Linked (g : LabelRanks ν) (r : ℤ) : ν → ν → Prop :=
  ReflTransGen fun a b => g.IsLabel r a ∧ g.IsLabel r b ∧ (g.hi a ≤ g.lo b ∨ g.hi b ≤ g.lo a)

/-- A label is linked with labels that are in order. -/
def LabelRanks.Forward (g : LabelRanks ν) (r : ℤ) (u : ν) : Prop :=
  ∃ c d, g.IsLabel r c ∧ g.IsLabel r d ∧ g.Linked r u c ∧ g.hi c ≤ g.lo d ∧ g.order c < g.order d

/-- Labels that are not in order are linked with some that are. -/
def LabelRanks.Fixable (g : LabelRanks ν) : Prop :=
  ∀ r ∈ g.ranks, ∀ u w, g.IsLabel r u → g.IsLabel r w → g.hi u ≤ g.lo w →
    g.order w < g.order u → g.Forward r u

variable {g g₀ : LabelRanks ν} {r : ℤ} {u w : ν} {todo : List ℤ} {NDEBUG : Bool}

/-! ## The nodes of a rank -/

/-- The interval depends on the positions of vertices that stand for no label. -/
theorem interval_eq (h : g₀.Consistent) (hu : g₀.IsLabel r u) (hout : g.out = g₀.out)
    (hmoved : ∀ u, g₀.alg u = false → g.order u = g₀.order u) :
    interval g u = .ok (g₀.lo u, g₀.hi u) ∧ g₀.lo u < g₀.hi u := by
  obtain ⟨a, b, rest, hab, ha, hb, hne⟩ := h.ends r u hu
  have hsame : interval g u = interval g₀ u := by
    rw [interval, interval, hout, hab]
    dsimp only
    rw [hmoved a ha, hmoved b hb]
  rw [hsame, LabelRanks.lo, LabelRanks.hi]
  rw [interval, hab]
  dsimp only
  split
  next hlt => exact ⟨rfl, hlt⟩
  next hlt => exact ⟨rfl, by dsimp only; omega⟩

/-- The node of a label. -/
def labelNode (g₀ : LabelRanks ν) (p : ν × ℕ) : LabelNode ν :=
  ⟨p.2, g₀.lo p.1, g₀.hi p.1, p.1⟩

/-- The loop over a rank makes the nodes of its labels. -/
theorem addNode_fold {l : List (ν × ℕ)} (h : g₀.Consistent) (halg : g.alg = g₀.alg)
    (hout : g.out = g₀.out) (hmoved : ∀ u, g₀.alg u = false → g.order u = g₀.order u)
    (hl : ∀ p ∈ l, p.1 ∈ g₀.rank r) (nodes : List (LabelNode ν)) :
    l.foldlM (addNode g) nodes =
      .ok (nodes ++ (l.filter fun p => g₀.alg p.1).map (labelNode g₀)) := by
  induction l generalizing nodes with
  | nil => rw [filter_nil, map_nil, append_nil]; rfl
  | cons p l ih =>
    have hrest : ∀ q ∈ l, q.1 ∈ g₀.rank r := fun q hq => hl q (mem_cons_of_mem p hq)
    rw [foldlM_cons, addNode, halg]
    cases hp : g₀.alg p.1 with
    | true =>
      obtain ⟨hinterval, -⟩ := interval_eq h ⟨hl p mem_cons_self, hp⟩ hout hmoved
      rw [if_pos rfl, hinterval, ok_bind, pure_bind, ih hrest, filter_cons, if_pos hp,
        map_cons, append_assoc]
      rfl
    | false =>
      rw [if_neg (by decide), pure_bind, ih hrest, filter_cons, if_neg (by rw [hp]; decide)]

/-- The nodes of the labels of a rank. -/
def rankNodes (g₀ : LabelRanks ν) (v : List ν) : List (LabelNode ν) :=
  (v.zipIdx.filter fun p => g₀.alg p.1).map (labelNode g₀)

theorem mem_rankNodes {v : List ν} {a : LabelNode ν} (hv : Ranked g.order v) :
    a ∈ rankNodes g₀ v ↔ a.np ∈ v ∧ g₀.alg a.np = true ∧ a = labelNode g₀ (a.np, g.order a.np) := by
  rw [rankNodes, mem_map]
  constructor
  · rintro ⟨⟨u, i⟩, hp, rfl⟩
    obtain ⟨hmem, halg⟩ := mem_filter.1 hp
    rw [mem_zipIdx_iff_getElem?] at hmem
    refine ⟨mem_of_getElem? hmem, halg, ?_⟩
    change labelNode g₀ (u, i) = labelNode g₀ (u, g.order u)
    rw [hv i u hmem]
  · rintro ⟨hmem, halg, ha⟩
    refine ⟨(a.np, g.order a.np), mem_filter.2 ⟨?_, halg⟩, ha.symm⟩
    rw [mem_zipIdx_iff_getElem?]
    exact hv.get hmem

theorem labels_rankNodes {v : List ν} (h : g₀.Consistent) (hv : Ranked g.order v)
    (hsub : v ⊆ g₀.rank r) : Labels (rankNodes g₀ v) g.order v where
  names := by
    refine pairwise_map.2 (List.Pairwise.filter _ (pairwise_map.1 ?_ :
      v.zipIdx.Pairwise fun p q => p.2 < q.2))
    rw [zipIdx_map_snd]
    exact pairwise_lt_range'
  lt a ha := by
    obtain ⟨hmem, halg, heq⟩ := (mem_rankNodes hv).1 ha
    rw [heq]
    exact (interval_eq h ⟨hsub hmem, halg⟩ rfl fun _ _ => rfl).2
  order_np a ha := by
    obtain ⟨-, -, heq⟩ := (mem_rankNodes hv).1 ha
    conv_rhs => rw [heq]
    rfl
  mem a ha := ((mem_rankNodes hv).1 ha).1
  ranked := hv

/-! ## The ranks -/

/-- Two labels that are to be in order, in a rank that was looked at: they are, or they did not
move, which depends on whether they are linked with labels that were in order. -/
def Settled (g : LabelRanks ν) (r : ℤ) (order : ν → ℕ) : Prop :=
  ∀ u w, g.IsLabel r u → g.IsLabel r w → g.hi u ≤ g.lo w →
    (g.Forward r u ∧ order u < order w) ∨
      (¬ g.Forward r u ∧ order u = g.order u ∧ order w = g.order w)

/-- What the loop over the ranks keeps. -/
structure RunInv (NDEBUG : Bool) (g₀ : LabelRanks ν) (todo : List ℤ) (g : LabelRanks ν) : Prop where
  alg : g.alg = g₀.alg
  out : g.out = g₀.out
  perm : ∀ r, (g.rank r).Perm (g₀.rank r)
  ranked : ∀ r, Ranked g.order (g.rank r)
  moved : ∀ u, g₀.alg u = false → g.order u = g₀.order u
  rest : ∀ r ∈ todo, g.rank r = g₀.rank r ∧ ∀ u ∈ g₀.rank r, g.order u = g₀.order u
  settled : ∀ r ∈ g₀.ranks, r ∈ todo ∨ Settled g₀ r g.order
  debug : NDEBUG = false → g = g₀

/-- What is done to a rank. -/
structure RankFixed (NDEBUG : Bool) (g₀ : LabelRanks ν) (r : ℤ) (g : LabelRanks ν) (order : ν → ℕ)
    (v : List ν) : Prop where
  perm : v.Perm (g.rank r)
  ranked : Ranked order v
  moved : ∀ u, ¬ g₀.IsLabel r u → order u = g.order u
  settled : Settled g₀ r order
  debug : NDEBUG = false → order = g.order ∧ v = g.rank r

/-- The other ranks keep what the loop keeps. -/
theorem RunInv.next (h : RunInv NDEBUG g₀ (r :: todo) g) (hg : g₀.Consistent) (hr : r ∉ todo)
    (order : ν → ℕ) (v : List ν) (hfixed : RankFixed NDEBUG g₀ r g order v) :
    RunInv NDEBUG g₀ todo { g with order := order, rank := update g.rank r v } where
  alg := h.alg
  out := h.out
  perm r' := by
    dsimp only
    by_cases heq : r' = r
    · rw [heq, update_self]
      exact hfixed.perm.trans (h.perm r)
    · rw [update_of_ne heq]
      exact h.perm r'
  ranked r' := by
    dsimp only
    by_cases heq : r' = r
    · rw [heq, update_self]
      exact hfixed.ranked
    · rw [update_of_ne heq]
      intro i u hiu
      rw [hfixed.moved u fun hlabel => heq ?_]
      · exact h.ranked r' i u hiu
      · exact hg.disjoint r' r u ((h.perm r').subset (mem_of_getElem? hiu)) hlabel.1
  moved u hu := by
    dsimp only
    rw [hfixed.moved u fun hlabel => ?_, h.moved u hu]
    rw [hlabel.2] at hu
    exact absurd hu (by decide)
  rest r' hr' := by
    have hne : r' ≠ r := fun heq => hr (heq ▸ hr')
    obtain ⟨hrank, horder⟩ := h.rest r' (mem_cons_of_mem r hr')
    dsimp only
    rw [update_of_ne hne]
    refine ⟨hrank, fun u hu => ?_⟩
    rw [hfixed.moved u fun hlabel => hne (hg.disjoint r' r u hu hlabel.1), horder u hu]
  settled r' hr' := by
    dsimp only
    by_cases heq : r' = r
    · rw [heq]
      exact .inr hfixed.settled
    refine (h.settled r' hr').imp (fun hmem => (mem_cons.1 hmem).resolve_left heq)
      fun hsettled u w hu hw hle => ?_
    have hsame : ∀ u, g₀.IsLabel r' u → order u = g.order u := fun u hu =>
      hfixed.moved u fun hlabel => heq (hg.disjoint r' r u hu.1 hlabel.1)
    rw [hsame u hu, hsame w hw]
    exact hsettled u w hu hw hle
  debug hno := by
    obtain ⟨horder, hv⟩ := hfixed.debug hno
    rw [horder, hv, update_eq_self]
    exact h.debug hno

theorem nodup_ranks (g : LabelRanks ν) : g.ranks.Nodup :=
  nodup_range.map fun i j hij => by
    have : g.minrank + (i : ℤ) = g.minrank + (j : ℤ) := hij
    omega

variable [DecidableEq ν]

/-- The body of the loop. -/
theorem checkRank_spec (h : RunInv NDEBUG g₀ (r :: todo) g) (hg : g₀.Consistent) (hr : r ∉ todo)
    (hranks : r ∈ g₀.ranks) : Meets (checkRank NDEBUG g r) (RunInv NDEBUG g₀ todo)
      (fun f => f = .assertion ∧ NDEBUG = false ∧ ¬ g₀.InOrder) := by
  obtain ⟨hrank, horder⟩ := h.rest r mem_cons_self
  have hsub : g.rank r ⊆ g₀.rank r := hrank ▸ List.Subset.refl _
  have hnodes : (g.rank r).zipIdx.foldlM (addNode g) [] = .ok (rankNodes g₀ (g.rank r)) :=
    addNode_fold hg h.alg h.out h.moved (fun p hp => hsub (fst_mem_of_mem_zipIdx hp)) []
  have hlabels := labels_rankNodes hg (h.ranked r) hsub
  -- the labels of the rank and their nodes
  have hnode : ∀ u, g₀.IsLabel r u → ∃ a ∈ rankNodes g₀ (g.rank r), a.np = u ∧ a.lo = g₀.lo u ∧
      a.hi = g₀.hi u := by
    intro u hu
    exact ⟨labelNode g₀ (u, g.order u), (mem_rankNodes (h.ranked r)).2 ⟨hrank ▸ hu.1, hu.2, rfl⟩, rfl,
      rfl, rfl⟩
  have hlabel : ∀ a ∈ rankNodes g₀ (g.rank r), g₀.IsLabel r a.np ∧ a.lo = g₀.lo a.np ∧
      a.hi = g₀.hi a.np := by
    intro a ha
    obtain ⟨hmem, halg, heq⟩ := (mem_rankNodes (h.ranked r)).1 ha
    exact ⟨⟨hsub hmem, halg⟩, congrArg LabelNode.lo heq, congrArg LabelNode.hi heq⟩
  rw [checkRank, hnodes, ok_bind]
  split
  next hone =>
    refine ((fixLabelOrder_spec hlabels NDEBUG).mono (fun _ => id) fun f hf => ?_).bind
      fun p hp => ?_
    · obtain ⟨hf, hno, a, ha, b, hb, hle, hlt⟩ := hf
      obtain ⟨hlabela, -, hhi⟩ := hlabel a ha
      obtain ⟨hlabelb, hlo, -⟩ := hlabel b hb
      refine ⟨hf, hno, fun hin => ?_⟩
      have := hin r hranks a.np b.np hlabela hlabelb (by rw [← hhi, ← hlo]; exact hle)
      rw [← horder _ hlabela.1, ← horder _ hlabelb.1] at this
      exact absurd this (lt_asymm hlt)
    obtain ⟨order, v⟩ := p
    obtain ⟨hranked, hperm, hmoved, hdebug, hsorted⟩ := hp
    refine h.next hg hr order v ⟨hperm, hranked, fun u hu => hmoved u fun hmem => hu ?_, ?_,
      fun hno => Prod.mk.inj (hdebug hno)⟩
    · obtain ⟨a, ha, rfl⟩ := mem_map.1 hmem
      exact (hlabel a ha).1
    · intro u w hu hw hle
      obtain ⟨a, ha, rfl, hlo, hhi⟩ := hnode u hu
      obtain ⟨b, hb, rfl, hlo', hhi'⟩ := hnode w hw
      have hlinked : ∀ c, g₀.Linked r a.np c → ∃ c' ∈ rankNodes g₀ (g.rank r), c'.np = c ∧
          LinkedNodes (rankNodes g₀ (g.rank r)) a c' := by
        intro c hac
        induction hac with
        | refl => exact ⟨a, ha, rfl, .refl⟩
        | @tail p q _ hpq ih =>
          obtain ⟨p', hp', rfl, hap⟩ := ih
          obtain ⟨q', hq', rfl, hq1, hq2⟩ := hnode q hpq.2.1
          obtain ⟨-, hp1, hp2⟩ := hlabel p' hp'
          refine ⟨q', hq', rfl, hap.tail ⟨hp', hq', ?_⟩⟩
          rw [hp1, hp2, hq1, hq2]
          exact hpq.2.2
      have hforward : Forward (rankNodes g₀ (g.rank r)) g.order a ↔ g₀.Forward r a.np := by
        constructor
        · rintro ⟨c, hc, d, hd, hac, hcd, hlt⟩
          obtain ⟨hc', -, hc2⟩ := hlabel c hc
          obtain ⟨hd', hd1, -⟩ := hlabel d hd
          refine ⟨c.np, d.np, hc', hd', hac.lift LabelNode.np ?_, by rw [← hc2, ← hd1]; exact hcd, ?_⟩
          · rintro p q ⟨hp, hq, hpq⟩
            obtain ⟨hp', hp1, hp2⟩ := hlabel p hp
            obtain ⟨hq', hq1, hq2⟩ := hlabel q hq
            rw [hp1, hp2, hq1, hq2] at hpq
            exact ⟨hp', hq', hpq⟩
          · rw [← horder _ hc'.1, ← horder _ hd'.1]
            exact hlt
        · rintro ⟨c, d, hc, hd, hac, hcd, hlt⟩
          obtain ⟨c', hc', rfl, hac'⟩ := hlinked c hac
          obtain ⟨d', hd', rfl, hd1, -⟩ := hnode d hd
          refine ⟨c', hc', d', hd', hac', by rw [(hlabel c' hc').2.2, hd1]; exact hcd, ?_⟩
          rw [horder _ hc.1, horder _ hd.1]
          exact hlt
      rw [← hforward, ← horder _ hu.1, ← horder _ hw.1]
      exact hsorted a ha b hb (by rw [hhi, hlo']; exact hle)
  next hone =>
    have hsame := h.next hg hr g.order (g.rank r) ⟨.refl _, h.ranked r, fun _ _ => rfl,
      fun u w hu hw hle => ?_, fun _ => ⟨rfl, rfl⟩⟩
    · rwa [update_eq_self] at hsame
    · -- two labels in order are two nodes
      obtain ⟨a, ha, rfl, hlo, hhi⟩ := hnode u hu
      obtain ⟨b, hb, rfl, hlo', hhi'⟩ := hnode w hw
      have hlt := hlabels.lt a ha
      match hlist : rankNodes g₀ (g.rank r) with
      | [] => exact absurd (hlist ▸ ha) not_mem_nil
      | [c] =>
        rw [hlist, mem_singleton] at ha hb
        subst ha hb
        omega
      | c :: d :: rest =>
        rw [hlist] at hone
        exact absurd (succ_lt_succ (succ_pos _)) hone

/-- The loop over the ranks. -/
theorem checkLabelOrder_spec (hg : g₀.Consistent) (NDEBUG : Bool) :
    Meets (checkLabelOrder NDEBUG g₀) (RunInv NDEBUG g₀ [])
      (fun f => f = .assertion ∧ NDEBUG = false ∧ ¬ g₀.InOrder) := by
  have hstart : RunInv NDEBUG g₀ g₀.ranks g₀ :=
    ⟨rfl, rfl, fun _ => .refl _, hg.ranked, fun _ _ => rfl, fun _ _ => ⟨rfl, fun _ _ => rfl⟩,
      fun _ hr => .inl hr, fun _ => rfl⟩
  refine (Meets.foldlM (fun todo g => todo.Nodup ∧ todo ⊆ g₀.ranks ∧ RunInv NDEBUG g₀ todo g) ?_ g₀
    ⟨nodup_ranks g₀, List.Subset.refl _, hstart⟩).imp fun g h => h.2.2
  rintro r todo g ⟨hnodup, hsub, h⟩
  obtain ⟨hr, hnodup⟩ := nodup_cons.1 hnodup
  refine (checkRank_spec h hg hr (hsub mem_cons_self)).imp fun g' h' =>
    ⟨hnodup, fun r' hr' => ?_, h'⟩
  exact hsub (mem_cons_of_mem r hr')

/-- When assertions are compiled, the ranks are brought in order just when they are in order. -/
theorem ordered_iff_inOrder (hg : g₀.Consistent) :
    (∃ g, checkLabelOrder false g₀ = .ok g ∧ g₀.Ordered g) ↔ g₀.InOrder := by
  have hspec := checkLabelOrder_spec hg false
  constructor
  · rintro ⟨g, hok, hordered⟩ r hr u w hu hw hle
    rw [(hspec.of_ok hok).debug rfl] at hordered
    exact hordered.sorted r hr u w hu hw hle
  · intro hin
    obtain ⟨g, hok, hinv⟩ := (hspec.mono (fun _ => id) fun f hf => hf.2.2 hin).exists_ok
    obtain rfl := hinv.debug rfl
    exact ⟨g, hok, fun r _ => hinv.perm r, fun r _ => hinv.ranked r, hinv.moved, hin⟩

/-- When they are not compiled, it is done just when the labels that are not in order are linked
with some that are. -/
theorem ordered_iff_fixable (hg : g₀.Consistent) :
    (∃ g, checkLabelOrder true g₀ = .ok g ∧ g₀.Ordered g) ↔ g₀.Fixable := by
  obtain ⟨g, hok, hinv⟩ := ((checkLabelOrder_spec hg true).mono (fun _ => id)
    fun f hf => absurd hf.2.1 (by decide)).exists_ok
  have hsettled : ∀ r ∈ g₀.ranks, Settled g₀ r g.order := fun r hr =>
    (hinv.settled r hr).resolve_left not_mem_nil
  constructor
  · rintro ⟨g', hok', hordered⟩ r hr u w hu hw hle hlt
    obtain rfl := Except.ok.inj (hok.symm.trans hok')
    obtain ⟨hforward, -⟩ | ⟨-, hu', hw'⟩ := hsettled r hr u w hu hw hle
    · exact hforward
    · have := hordered.sorted r hr u w hu hw hle
      omega
  · intro hfix
    refine ⟨g, hok, fun r _ => hinv.perm r, fun r _ => hinv.ranked r, hinv.moved,
      fun r hr u w hu hw hle => ?_⟩
    obtain ⟨-, hlt⟩ | ⟨hno, -, -⟩ := hsettled r hr u w hu hw hle
    · exact hlt
    · refine absurd ?_ hno
      obtain hlt | hge := lt_or_ge (g₀.order u) (g₀.order w)
      · exact ⟨u, w, hu, hw, .refl, hle, hlt⟩
      · refine hfix r hr u w hu hw hle (lt_of_le_of_ne hge fun heq => ?_)
        rw [(hg.ranked r).inj hw.1 hu.1 heq] at hle
        exact absurd (interval_eq hg hu rfl fun _ _ => rfl).2 (not_lt.2 hle)

/-- `checkLabelOrder` puts the labels in a consistent order just when they are in one: what sorts a
component fails the assertion that nothing is left to list. Where assertions are not compiled, it
puts them in order just when those that are not are linked with some that are. -/
theorem checkLabelOrder_iff (hg : g₀.Consistent) :
    ((∃ g, checkLabelOrder false g₀ = .ok g ∧ g₀.Ordered g) ↔ g₀.InOrder) ∧
    ((∃ g, checkLabelOrder true g₀ = .ok g ∧ g₀.Ordered g) ↔ g₀.Fixable) :=
  ⟨ordered_iff_inOrder hg, ordered_iff_fixable hg⟩

/-- Labels of three edges that lie side by side, in a rank with some of them. -/
def sideBySide (v : List (Fin 9)) : LabelRanks (Fin 9) where
  alg u := u < 3
  out u := if u = 0 then [3, 4] else if u = 1 then [5, 6] else if u = 2 then [7, 8] else []
  minrank := 0
  maxrank := 1
  rank r := if r = 0 then v else if r = 1 then [3, 4, 5, 6, 7, 8] else []
  order u := if u < 3 then v.idxOf u else u - 3

variable {v : List (Fin 9)}

theorem mem_sideBySide {u : Fin 9} : u ∈ (sideBySide v).rank r ↔ (r = 0 ∧ u ∈ v) ∨ (r = 1 ∧ 3 ≤ u) := by
  have hall : ∀ u : Fin 9, u ∈ [3, 4, 5, 6, 7, 8] ↔ 3 ≤ u := by decide
  change u ∈ (if r = 0 then v else if r = 1 then [3, 4, 5, 6, 7, 8] else []) ↔ _
  split
  next h =>
    subst h
    exact ⟨fun hu => .inl ⟨rfl, hu⟩, fun h => h.elim And.right fun h => absurd h.1 (by decide)⟩
  next h =>
    split
    next h' =>
      rw [hall]
      exact ⟨fun hu => .inr ⟨h', hu⟩, fun hor => hor.elim (fun h0 => absurd h0.1 h) And.right⟩
    next h' =>
      exact ⟨fun hu => absurd hu not_mem_nil, fun hor => hor.elim (fun h0 => absurd h0.1 h)
        fun h1 => absurd h1.1 h'⟩

theorem sideBySide_consistent (hv : v.Nodup) (hlt : ∀ u ∈ v, u < 3) :
    (sideBySide v).Consistent where
  ranked r i u hiu := by
    obtain ⟨rfl, hu⟩ | ⟨rfl, hu⟩ := mem_sideBySide.1 (mem_of_getElem? hiu)
    · obtain ⟨hi, rfl⟩ := List.getElem?_eq_some_iff.1 (show v[i]? = some u from hiu)
      exact (if_pos (hlt _ hu)).trans (hv.idxOf_getElem i hi)
    · obtain ⟨hi, rfl⟩ := List.getElem?_eq_some_iff.1
        (show [(3 : Fin 9), 4, 5, 6, 7, 8][i]? = some u from hiu)
      refine (if_neg (Fin.not_lt.2 hu)).trans ?_
      have hall : ∀ i : Fin 6, ([(3 : Fin 9), 4, 5, 6, 7, 8].get i : ℕ) - 3 = i := by decide
      exact hall ⟨i, hi⟩
  disjoint r r' u hr hr' := by
    rcases mem_sideBySide.1 hr with ⟨rfl, hu⟩ | ⟨rfl, hu⟩ <;>
      obtain ⟨rfl, hu'⟩ | ⟨rfl, hu'⟩ := mem_sideBySide.1 hr'
    · rfl
    · exact absurd (hlt u hu) (Fin.not_lt.2 hu')
    · exact absurd (hlt u hu') (Fin.not_lt.2 hu)
    · rfl
  ends r u hu := by
    have hsmall : u = 0 ∨ u = 1 ∨ u = 2 := by
      have hall : ∀ u : Fin 9, u < 3 → u = 0 ∨ u = 1 ∨ u = 2 := by decide
      exact hall u (of_decide_eq_true hu.2)
    obtain rfl | rfl | rfl := hsmall
    · exact ⟨3, 4, [], rfl, rfl, rfl, zero_ne_one⟩
    · exact ⟨5, 6, [], rfl, rfl, rfl, (by decide : (2 : ℕ) ≠ 3)⟩
    · exact ⟨7, 8, [], rfl, rfl, rfl, (by decide : (4 : ℕ) ≠ 5)⟩

/-- The first two of three labels are not in order, and both are in order with the third. -/
theorem checkLabelOrder_iff_three : (sideBySide [1, 0, 2]).Consistent ∧
    ∃ g, checkLabelOrder true (sideBySide [1, 0, 2]) = .ok g ∧ (sideBySide [1, 0, 2]).Ordered g := by
  have hg := sideBySide_consistent (v := [1, 0, 2]) (by decide) (by decide)
  refine ⟨hg, (checkLabelOrder_iff hg).2.2 fun r hr u w hu hw hle hlt => ?_⟩
  have hall : ∀ u w : Fin 9, u < 3 → w < 3 → (sideBySide [1, 0, 2]).hi u ≤ (sideBySide [1, 0, 2]).lo w →
      (sideBySide [1, 0, 2]).order w < (sideBySide [1, 0, 2]).order u → u = 0 := by decide
  obtain rfl := hall u w (of_decide_eq_true hu.2) (of_decide_eq_true hw.2) hle hlt
  obtain ⟨rfl, -⟩ | ⟨-, hno⟩ := mem_sideBySide.1 hu.1
  · exact ⟨0, 2, hu, ⟨by decide, rfl⟩, .refl, by decide, by decide⟩
  · exact absurd hno (by decide)

/-- Two labels that are not in order are left as they are. -/
theorem checkLabelOrder_two : (sideBySide [1, 0]).Consistent ∧
    (¬ ∃ g, checkLabelOrder false (sideBySide [1, 0]) = .ok g ∧ (sideBySide [1, 0]).Ordered g) ∧
    ¬ ∃ g, checkLabelOrder true (sideBySide [1, 0]) = .ok g ∧ (sideBySide [1, 0]).Ordered g := by
  have hg := sideBySide_consistent (v := [1, 0]) (by decide) (by decide)
  refine ⟨hg, fun h => ?_, fun h => ?_⟩
  · have := (ordered_iff_inOrder hg).1 h 0 (by decide) 0 1 ⟨by decide, rfl⟩ ⟨by decide, rfl⟩ (by decide)
    exact absurd this (by decide)
  · obtain ⟨c, d, hc, hd, -, hle, hlt⟩ := (ordered_iff_fixable hg).1 h 0 (by decide) 0 1
      ⟨by decide, rfl⟩ ⟨by decide, rfl⟩ (by decide) (by decide)
    have hall : ∀ c d : Fin 9, c ∈ [(1 : Fin 9), 0] → d ∈ [(1 : Fin 9), 0] →
        (sideBySide [1, 0]).hi c ≤ (sideBySide [1, 0]).lo d →
        ¬ (sideBySide [1, 0]).order c < (sideBySide [1, 0]).order d := by decide
    exact hall c d hc.1 hd.1 hle hlt

end LabelOrder

end Graphviz
