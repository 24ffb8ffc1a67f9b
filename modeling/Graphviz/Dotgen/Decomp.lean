import Graphviz.Common.UF
import Graphviz.Dotgen.Acyclic

/-!
# Connected components of the fast graph (`dotgen/decomp.c`)

`decompose` searches the fast graph along edges in both directions, with a stack on which a node
can stand several times and marks that tell the processed nodes (`Cmark`) from those on the stack
(`Cmark + 1`). In the ranking phase the flat edge lists are empty and `pass` is `0`. Its result
is a partition of the leaders into sets closed under the edges.
-/

namespace Graphviz

open FastGraph Function List Nat Outcome RelGraph UnionFind

variable {n : ℕ}

/-- The rank constraints of a subgraph, `ND_ranktype` of its nodes. -/
inductive RankKind where
  | same | min | source | max | sink
  deriving DecidableEq, Repr

/-- The state of the ranking phase. -/
structure DotGraph (n : ℕ) extends Search n where
  uf : UF n
  ranktype : Fin n → Option RankKind
  minset : Option (Fin n)
  maxset : Option (Fin n)
  cmark : ℕ
  comp : List (List (Fin n))

/-- The state of `search_component`: the stack, top first, and the component so far. -/
structure CompSearch (n : ℕ) where
  uf : UF n
  mark : Fin n → ℕ
  stk : List (Fin n)
  comp : List (Fin n)

/-- `push`. -/
def CompSearch.push (s : CompSearch n) (cmark : ℕ) (v : Fin n) : CompSearch n :=
  { s with mark := update s.mark v (cmark + 1), stk := v :: s.stk }

/-- `add_to_component`. -/
def CompSearch.addToComponent (s : CompSearch n) (cmark : ℕ) (v : Fin n) : CompSearch n :=
  { s with mark := update s.mark v cmark, comp := s.comp ++ [v] }

/-- The inner loop of `search_component`, for one edge at `v`. -/
def pushOther (fg : FastGraph n) (cmark : ℕ) (v : Fin n) (s : CompSearch n) (e : ℕ) :
    Except Fault (CompSearch n) :=
  let other := if (fg.edge e).head = v then (fg.edge e).tail else (fg.edge e).head
  if s.mark other ≠ cmark then do
    let (uf, r) ← s.uf.find other
    let s := { s with uf := uf }
    .ok (if other = r then s.push cmark other else s)
  else .ok s

/-- The loop of `search_component`. -/
def searchComponent (fg : FastGraph n) (cmark : ℕ) :
    ℕ → CompSearch n → Except Fault (CompSearch n)
  | 0, _ => .error .fuel
  | k + 1, s =>
    match s.stk with
    | [] => .ok s
    | v :: stk =>
      let s := { s with stk := stk }
      if s.mark v = cmark then searchComponent fg cmark k s
      else do
        let s ← ((fg.inn v).reverse ++ (fg.out v).reverse).foldlM (pushOther fg cmark v)
          (s.addToComponent cmark v)
        searchComponent fg cmark k s

/-- The body of the loop of `decompose`. -/
def decomposeNode (g : DotGraph n) (v : Fin n) : Except Fault (DotGraph n) := do
  let (uf, r) ← g.uf.find v
  let g := { g with uf := uf }
  if v ≠ r then .ok g
  else if g.mark v ≠ g.cmark then do
    let s ← searchComponent g.fg g.cmark (2 * n * n + 2)
      (CompSearch.push ⟨g.uf, g.mark, [], []⟩ g.cmark v)
    .ok { g with uf := s.uf, mark := s.mark, comp := g.comp ++ [s.comp] }
  else .ok g

/-- `decompose` with `pass` `0`. -/
def decompose (g : DotGraph n) : Except Fault (DotGraph n) :=
  (List.finRange n).foldlM decomposeNode { g with cmark := g.cmark + 1, comp := [] }

/-! ## The search of one component -/

variable {f : Fin n → Fin n} {fg : FastGraph n} {cm : ℕ} {mark₀ : Fin n → ℕ}

/-- Edges join leaders. -/
def Leads (f : Fin n → Fin n) (fg : FastGraph n) : Prop :=
  ∀ {u w}, fg.Adj u w → f u = u ∧ f w = w

/-- Two nodes are neighbours when an edge leads from one to the other. -/
def Joined (fg : FastGraph n) (u w : Fin n) : Prop :=
  fg.Adj u w ∨ fg.Adj w u

/-- The invariant of `search_component`, started with the marks `mark₀`: the component so far is
what has been processed since, the neighbours of a processed node that are not processed are on
the stack, and only nodes on the stack have the mark of the stack. -/
structure SearchInv (f : Fin n → Fin n) (fg : FastGraph n) (cm : ℕ) (mark₀ : Fin n → ℕ)
    (s : CompSearch n) : Prop where
  rep : Represents s.uf.parent f
  stk_mark : ∀ {u}, u ∈ s.stk → f u = u
  mark_stk : ∀ {u}, s.mark u = cm + 1 → u ∈ s.stk
  mark_le : ∀ u, s.mark u ≤ cm + 1
  mem_comp : ∀ {u}, u ∈ s.comp ↔ s.mark u = cm ∧ mark₀ u ≠ cm
  old : ∀ {u}, mark₀ u = cm → s.mark u = cm
  comp_nodup : s.comp.Nodup
  comp_leader : ∀ {u}, u ∈ s.comp → f u = u

/-- The nodes not yet processed. -/
def unprocessed (cm : ℕ) (s : CompSearch n) : ℕ :=
  (Finset.univ.filter fun u => s.mark u ≠ cm).card

variable {s s' : CompSearch n} {v w : Fin n}

/-- Pushing an unprocessed leader keeps the invariant. -/
theorem SearchInv.push (h : SearchInv f fg cm mark₀ s) (hv : f v = v) (hm : s.mark v ≠ cm) :
    SearchInv f fg cm mark₀ (s.push cm v) := by
  have hmark : ∀ {u}, (s.push cm v).mark u = cm ↔ s.mark u = cm := by
    intro u
    by_cases huv : u = v
    · subst huv; simp [CompSearch.push, hm]
    · simp [CompSearch.push, huv]
  refine ⟨h.rep, fun {u} hu => ?_, fun {u} hu => ?_, fun u => ?_, fun {u} => ?_, fun hu => ?_,
    h.comp_nodup, h.comp_leader⟩
  · obtain rfl | hu := mem_cons.1 hu
    · exact hv
    · exact h.stk_mark hu
  · by_cases huv : u = v
    · subst huv; exact mem_cons_self
    · simp only [CompSearch.push, update_of_ne huv] at hu
      exact mem_cons_of_mem _ (h.mark_stk hu)
  · by_cases huv : u = v
    · subst huv; simp [CompSearch.push]
    · simp only [CompSearch.push, update_of_ne huv]; exact h.mark_le u
  · rw [hmark]; exact h.mem_comp
  · rw [hmark]; exact h.old hu

/-- What the inner loops do beside keeping the invariant: the processed nodes stay the same, the
stack grows by at most the number of edges, and every neighbour seen is processed or on it. -/
structure Pushed (cm : ℕ) (s s' : CompSearch n) (k : ℕ) : Prop where
  mark : ∀ {u}, s'.mark u = cm ↔ s.mark u = cm
  stk : ∀ {u}, u ∈ s.stk → u ∈ s'.stk
  length : s'.stk.length ≤ s.stk.length + k

/-- One edge of the inner loops of `search_component`. -/
theorem pushOther_spec (h : SearchInv f fg cm mark₀ s) (hl : Leads f fg) {e : ℕ}
    (he : e ∈ fg.inn v ∨ e ∈ fg.out v) (hwf : fg.Wf) :
    Meets (pushOther fg cm v s e)
      (fun s' => SearchInv f fg cm mark₀ s' ∧ Pushed cm s s' 1 ∧
        ((fg.edge e).tail = v → s'.mark (fg.edge e).head = cm ∨ (fg.edge e).head ∈ s'.stk) ∧
        ((fg.edge e).head = v → s'.mark (fg.edge e).tail = cm ∨ (fg.edge e).tail ∈ s'.stk))
      fun _ => False := by
  have hadj : fg.Adj (fg.edge e).tail (fg.edge e).head := by
    have hlist : fg.Listed e := he.elim hwf.listed_inn hwf.listed
    exact ⟨e, hlist, rfl⟩
  have hne : (fg.edge e).tail ≠ (fg.edge e).head := hwf.adj_ne hadj
  obtain ⟨other, ho⟩ : ∃ w, w = if (fg.edge e).head = v then (fg.edge e).tail else (fg.edge e).head :=
    ⟨_, rfl⟩
  have hleader : f other = other := by
    rw [ho]; split
    · exact (hl hadj).1
    · exact (hl hadj).2
  -- the neighbour is the one end of the edge that is not `v`
  have hends : ∀ {P : Fin n → Prop}, P other →
      ((fg.edge e).tail = v → P (fg.edge e).head) ∧ ((fg.edge e).head = v → P (fg.edge e).tail) := by
    intro P hP
    rw [ho] at hP
    constructor
    · rintro rfl; rwa [if_neg hne.symm] at hP
    · intro hh; rwa [if_pos hh] at hP
  unfold pushOther
  simp only [← ho]
  split
  next hm =>
    refine (UF.find_spec h.rep other).bind fun ⟨uf, r⟩ ⟨hrep, hr⟩ => ?_
    simp only at hrep hr ⊢
    rw [hleader] at hr
    subst hr
    rw [if_pos rfl]
    have h1 : SearchInv f fg cm mark₀ { s with uf := uf } :=
      ⟨hrep, h.stk_mark, h.mark_stk, h.mark_le, h.mem_comp, h.old, h.comp_nodup, h.comp_leader⟩
    refine ⟨h1.push hleader hm, ⟨fun {u} => ?_, fun hu => mem_cons_of_mem _ hu, le_rfl⟩,
      hends (P := fun w => (CompSearch.push { s with uf := uf } cm r).mark w = cm ∨
        w ∈ (CompSearch.push { s with uf := uf } cm r).stk) (.inr mem_cons_self)⟩
    by_cases hur : u = r
    · subst hur; simp [CompSearch.push, hm]
    · simp [CompSearch.push, hur]
  next hm =>
    exact ⟨h, ⟨Iff.rfl, id, le_succ _⟩,
      hends (P := fun w => s.mark w = cm ∨ w ∈ s.stk) (.inl (by simpa using hm))⟩

/-- The inner loops of `search_component`. -/
theorem pushOthers_spec (h : SearchInv f fg cm mark₀ s) (hl : Leads f fg) (hwf : fg.Wf) :
    Meets (((fg.inn v).reverse ++ (fg.out v).reverse).foldlM (pushOther fg cm v) s)
      (fun s' => SearchInv f fg cm mark₀ s' ∧
        Pushed cm s s' ((fg.inn v).length + (fg.out v).length) ∧
        ∀ w, Joined fg v w → s'.mark w = cm ∨ w ∈ s'.stk) fun _ => False := by
  let L := (fg.inn v).reverse ++ (fg.out v).reverse
  let I : List ℕ → CompSearch n → Prop := fun rest s' =>
    SearchInv f fg cm mark₀ s' ∧ Pushed cm s s' (L.length - rest.length) ∧ rest.length ≤ L.length ∧
    (∀ e ∈ rest, e ∈ fg.inn v ∨ e ∈ fg.out v) ∧
    ∀ e ∈ L, e ∈ rest ∨
      ((fg.edge e).tail = v → s'.mark (fg.edge e).head = cm ∨ (fg.edge e).head ∈ s'.stk) ∧
      ((fg.edge e).head = v → s'.mark (fg.edge e).tail = cm ∨ (fg.edge e).tail ∈ s'.stk)
  have hstart : I L s := by
    refine ⟨h, ⟨Iff.rfl, id, by omega⟩, le_rfl, fun e he => ?_, fun _ => .inl⟩
    obtain he | he := mem_append.1 he
    · exact .inl (mem_reverse.1 he)
    · exact .inr (mem_reverse.1 he)
  refine (Meets.foldlM I ?_ s hstart).imp ?_
  · rintro e rest s1 ⟨h₁, hp, hlen, hrest, hseen⟩
    rw [length_cons] at hp hlen
    refine (pushOther_spec h₁ hl (hrest e mem_cons_self) hwf).imp
      fun s2 ⟨h₂, hp2, hsee⟩ => ?_
    have hkeep : ∀ {u}, s1.mark u = cm ∨ u ∈ s1.stk → s2.mark u = cm ∨ u ∈ s2.stk :=
      fun hu => hu.imp hp2.mark.2 hp2.stk
    refine ⟨h₂, ⟨hp2.mark.trans hp.mark, fun hu => hp2.stk (hp.stk hu), ?_⟩, by omega,
      fun e' he' => hrest e' (mem_cons_of_mem _ he'), fun e' he' => ?_⟩
    · have h1 := hp.length
      have h2 := hp2.length
      omega
    · obtain hmem | ⟨hs1, hs2⟩ := hseen e' he'
      · obtain rfl | hmem := mem_cons.1 hmem
        · exact .inr hsee
        · exact .inl hmem
      · exact .inr ⟨fun ht => hkeep (hs1 ht), fun hh => hkeep (hs2 hh)⟩
  · rintro s1 ⟨h₁, hp, -, -, hseen⟩
    refine ⟨h₁, ⟨hp.mark, hp.stk, ?_⟩, fun w hw => ?_⟩
    · have := hp.length
      simp only [L, length_append, length_reverse, length_nil] at this
      omega
    · obtain hw | hw := hw
      · obtain ⟨e, he, rfl⟩ := hw
        have hmem : e ∈ L := mem_append_right _ (mem_reverse.2 he)
        exact ((hseen e hmem).resolve_left not_mem_nil).1 (hwf.out_tail he)
      · obtain ⟨e, he, rfl⟩ := hwf.adj_iff_inn.1 hw
        have hmem : e ∈ L := mem_append_left _ (mem_reverse.2 he)
        exact ((hseen e hmem).resolve_left not_mem_nil).2 (hwf.inn_head he)

/-- The neighbours of processed nodes are processed or on the stack. -/
def Bordered (fg : FastGraph n) (cm : ℕ) (s : CompSearch n) : Prop :=
  ∀ {u w}, s.mark u = cm → Joined fg u w → s.mark w = cm ∨ w ∈ s.stk

/-- `search_component` empties the stack: what was on it is processed, and so are all neighbours
of processed nodes. -/
theorem searchComponent_spec {k : ℕ} (h : SearchInv f fg cm mark₀ s) (hb : Bordered fg cm s)
    (hl : Leads f fg) (hwf : fg.Wf) (hk : s.stk.length + 2 * n * unprocessed cm s < k) :
    Meets (searchComponent fg cm k s)
      (fun s' => SearchInv f fg cm mark₀ s' ∧ s'.stk = [] ∧ Bordered fg cm s' ∧
        (∀ u ∈ s.stk, s'.mark u = cm) ∧ ∀ u, s.mark u = cm → s'.mark u = cm)
      fun _ => False := by
  induction k generalizing s with
  | zero => omega
  | succ k ih =>
    unfold searchComponent
    cases hstk : s.stk with
    | nil => exact ⟨h, hstk, hb, by simp, fun _ => id⟩
    | cons v stk =>
      rw [hstk, length_cons] at hk
      simp only
      split
      next hm =>
        -- the node was pushed again before it was processed
        have h₁ : SearchInv f fg cm mark₀ { s with stk := stk } := by
          refine ⟨h.rep, fun hu => h.stk_mark (by rw [hstk]; exact mem_cons_of_mem _ hu),
            fun {u} hu => ?_, h.mark_le, h.mem_comp, h.old, h.comp_nodup, h.comp_leader⟩
          have := h.mark_stk hu
          rw [hstk] at this
          obtain rfl | hmem := mem_cons.1 this
          · simp only at hu; omega
          · exact hmem
        have hb1 : Bordered fg cm { s with stk := stk } := by
          intro u w hu huw
          obtain hw | hw := hb hu huw
          · exact .inl hw
          · rw [hstk] at hw
            obtain rfl | hw := mem_cons.1 hw
            · exact .inl hm
            · exact .inr hw
        refine (ih h₁ hb1 ?_).imp fun s' h' =>
          ⟨h'.1, h'.2.1, h'.2.2.1, fun u hu => ?_, h'.2.2.2.2⟩
        · show stk.length + 2 * n * unprocessed cm s < k
          omega
        · obtain rfl | hu := mem_cons.1 hu
          · exact h'.2.2.2.2 _ hm
          · exact h'.2.2.2.1 u hu
      next hm =>
        have hfv : f v = v := h.stk_mark (by rw [hstk]; exact mem_cons_self)
        have hmark : ∀ {u}, (CompSearch.addToComponent { s with stk := stk } cm v).mark u = cm ↔
            s.mark u = cm ∨ u = v := by
          intro u
          by_cases huv : u = v
          · subst huv; simp [CompSearch.addToComponent]
          · simp [CompSearch.addToComponent, huv]
        have hold : mark₀ v ≠ cm := fun h0 => hm (h.old h0)
        have hvc : v ∉ s.comp := fun hmem => hm (h.mem_comp.1 hmem).1
        have h₁ : SearchInv f fg cm mark₀ (CompSearch.addToComponent { s with stk := stk } cm v) := by
          refine ⟨h.rep, fun hu => h.stk_mark (by rw [hstk]; exact mem_cons_of_mem _ hu),
            fun {u} hu => ?_, fun u => ?_, fun {u} => ?_, fun hu => hmark.2 (.inl (h.old hu)), ?_,
            fun {u} hu => ?_⟩
          · by_cases huv : u = v
            · subst huv
              simp [CompSearch.addToComponent] at hu
            · simp only [CompSearch.addToComponent, update_of_ne huv] at hu
              have := h.mark_stk hu
              rw [hstk] at this
              exact (mem_cons.1 this).resolve_left huv
          · by_cases huv : u = v
            · subst huv; simp [CompSearch.addToComponent]
            · simp only [CompSearch.addToComponent, update_of_ne huv]; exact h.mark_le u
          · rw [hmark]
            simp only [CompSearch.addToComponent, mem_append, mem_singleton, h.mem_comp]
            constructor
            · rintro (⟨h1, h2⟩ | rfl)
              · exact ⟨.inl h1, h2⟩
              · exact ⟨.inr rfl, hold⟩
            · rintro ⟨h1 | h1, h2⟩
              · exact .inl ⟨h1, h2⟩
              · exact .inr h1
          · exact List.Nodup.append h.comp_nodup (nodup_singleton v)
              (disjoint_singleton.2 hvc)
          · obtain hu | hu := mem_append.1 hu
            · exact h.comp_leader hu
            · rw [mem_singleton.1 hu]; exact hfv
        have hfew : unprocessed cm (CompSearch.addToComponent { s with stk := stk } cm v) <
            unprocessed cm s := by
          refine Finset.card_lt_card (Finset.ssubset_iff_subset_ne.2 ⟨fun u hu => ?_, fun heq => ?_⟩)
          · simp only [Finset.mem_filter, Finset.mem_univ, true_and] at hu ⊢
            exact fun hu' => hu (hmark.2 (.inl hu'))
          · have hmem : v ∈ Finset.univ.filter fun u => s.mark u ≠ cm := by simp [hm]
            rw [← heq] at hmem
            simp only [Finset.mem_filter, Finset.mem_univ, true_and] at hmem
            exact hmem (hmark.2 (.inr rfl))
        refine (pushOthers_spec (v := v) h₁ hl hwf).bind fun s2 h₂ => ?_
        obtain ⟨h₂, hp, hnear⟩ := h₂
        have hsame : unprocessed cm s2 =
            unprocessed cm (CompSearch.addToComponent { s with stk := stk } cm v) := by
          unfold unprocessed
          congr 1
          ext u
          simp only [Finset.mem_filter, Finset.mem_univ, true_and, ne_eq, hp.mark]
        have hb2 : Bordered fg cm s2 := by
          intro u w hu huw
          obtain hu | rfl := hmark.1 (hp.mark.1 hu)
          · obtain hw | hw := hb hu huw
            · exact .inl (hp.mark.2 (hmark.2 (.inl hw)))
            · rw [hstk] at hw
              obtain rfl | hw := mem_cons.1 hw
              · exact .inl (hp.mark.2 (hmark.2 (.inr rfl)))
              · exact .inr (hp.stk hw)
          · exact hnear w huw
        refine (ih h₂ hb2 ?_).imp fun s' h' =>
          ⟨h'.1, h'.2.1, h'.2.2.1, fun u hu => ?_, fun u hu => h'.2.2.2.2 u (hp.mark.2 (hmark.2 (.inl hu)))⟩
        · have hlen := hp.length
          have hin := hwf.inn_length v
          have hout := hwf.out_length v
          have hstk' : (CompSearch.addToComponent { s with stk := stk } cm v).stk = stk := rfl
          rw [hstk'] at hlen
          rw [hsame]
          have hmul : 2 * n * (unprocessed cm
              (CompSearch.addToComponent { s with stk := stk } cm v) + 1) ≤
              2 * n * unprocessed cm s := mul_le_mul_left _ hfew
          rw [Nat.mul_add, Nat.mul_one] at hmul
          omega
        · obtain rfl | hu := mem_cons.1 hu
          · exact h'.2.2.2.2 _ (hp.mark.2 (hmark.2 (.inr rfl)))
          · exact h'.2.2.2.1 u (hp.stk hu)

/-! ## The components -/

/-- What `decompose` computes: the leaders in disjoint sets closed under the edges. -/
structure Components (f : Fin n → Fin n) (fg : FastGraph n) (comp : List (List (Fin n))) :
    Prop where
  cover : ∀ {v}, f v = v → ∃ c ∈ comp, v ∈ c
  leader : ∀ {c v}, c ∈ comp → v ∈ c → f v = v
  closed : ∀ {c}, c ∈ comp → ∀ {u w}, Joined fg u w → (u ∈ c ↔ w ∈ c)
  nodup : comp.flatten.Nodup

/-- The invariant of the loop of `decompose` over the nodes, of which `rest` remain. -/
structure DecompInv (f : Fin n → Fin n) (g₀ : DotGraph n) (rest : List (Fin n))
    (g : DotGraph n) : Prop where
  frame : g = { g₀ with uf := g.uf, mark := g.mark, comp := g.comp }
  rep : Represents g.uf.parent f
  mark_le : ∀ v, g.mark v ≤ g.cmark
  mem_comp : ∀ {v}, v ∈ g.comp.flatten ↔ g.mark v = g.cmark
  joined : ∀ {u w}, g.mark u = g.cmark → Joined g.fg u w → g.mark w = g.cmark
  cover : ∀ {v}, f v = v → v ∈ rest ∨ g.mark v = g.cmark
  leader : ∀ {c v}, c ∈ g.comp → v ∈ c → f v = v
  closed : ∀ {c}, c ∈ g.comp → ∀ {u w}, Joined g.fg u w → (u ∈ c ↔ w ∈ c)
  nodup : g.comp.flatten.Nodup

/-- The joining of nodes is symmetric. -/
theorem Joined.symm {u w : Fin n} (h : Joined fg u w) : Joined fg w u :=
  Or.symm h

/-- The body of the loop of `decompose` keeps its invariant. -/
theorem decomposeNode_spec {g₀ g : DotGraph n} {rest : List (Fin n)}
    (h : DecompInv f g₀ (v :: rest) g) (hl : Leads f g.fg) (hwf : g.fg.Wf) :
    Meets (decomposeNode g v) (DecompInv f g₀ rest) fun _ => False := by
  unfold decomposeNode
  refine (UF.find_spec h.rep v).bind fun ⟨uf, r⟩ ⟨hrep, hr⟩ => ?_
  simp only at hrep hr ⊢
  subst hr
  -- nothing but the parents has changed, and `v` is dealt with
  have hskip : (f v = v → g.mark v = g.cmark) → DecompInv f g₀ rest { g with uf := uf } := by
    intro hv
    refine ⟨?_, hrep, h.mark_le, h.mem_comp, h.joined, fun {u} hu => ?_, h.leader, h.closed,
      h.nodup⟩
    · rw [h.frame]
    · obtain hmem | hm := h.cover hu
      · obtain rfl | hmem := mem_cons.1 hmem
        · exact .inr (hv hu)
        · exact .inl hmem
      · exact .inr hm
  split
  next hne => exact hskip fun hv => absurd hv.symm hne
  next heq =>
    have hfv : f v = v := by simpa using (not_not.1 heq).symm
    split
    next hm =>
      let s0 : CompSearch n := ⟨uf, g.mark, [], []⟩
      have hinv0 : SearchInv f g.fg g.cmark g.mark s0 := by
        refine ⟨hrep, fun hu => absurd hu not_mem_nil, fun {u} hu => ?_,
          fun u => (h.mark_le u).trans (le_succ _), fun {u} => ?_, id, nodup_nil,
          fun hu => absurd hu not_mem_nil⟩
        · have := h.mark_le u
          have hu : g.mark u = g.cmark + 1 := hu
          omega
        · exact ⟨fun hu => absurd hu not_mem_nil, fun ⟨h1, h2⟩ => absurd h1 h2⟩
      have hinv := hinv0.push hfv hm
      have hb : Bordered g.fg g.cmark (s0.push g.cmark v) := by
        intro u w hu huw
        have hu0 : g.mark u = g.cmark := by
          by_cases huv : u = v
          · subst huv; simp [CompSearch.push] at hu
          · simpa [CompSearch.push, huv, s0] using hu
        have hw0 := h.joined hu0 huw
        by_cases hwv : w = v
        · subst hwv; exact absurd hw0 hm
        · exact .inl (by simpa [CompSearch.push, hwv, s0] using hw0)
      have hk : (s0.push g.cmark v).stk.length + 2 * n * unprocessed g.cmark (s0.push g.cmark v) <
          2 * n * n + 2 := by
        have hcard : unprocessed g.cmark (s0.push g.cmark v) ≤ n :=
          (Finset.card_le_univ _).trans_eq (Fintype.card_fin n)
        have hmul := mul_le_mul_left (2 * n) hcard
        simp only [CompSearch.push, s0, length_cons, length_nil]
        simp only [CompSearch.push, s0] at hmul
        omega
      refine (searchComponent_spec hinv hb hl hwf hk).bind
        fun s ⟨hs, hnil, hborder, hpop, _⟩ => ?_
      -- with the stack empty no mark of the stack is left
      have hle : ∀ u, s.mark u ≤ g.cmark := by
        intro u
        have hlt := hs.mark_le u
        by_contra hgt
        have hstk := hs.mark_stk (u := u) (by omega)
        rw [hnil] at hstk
        cases hstk
      have hv : s.mark v = g.cmark := hpop v mem_cons_self
      have hjoin : ∀ {u w}, s.mark u = g.cmark → Joined g.fg u w → s.mark w = g.cmark := by
        intro u w hu huw
        obtain hw | hw := hborder hu huw
        · exact hw
        · rw [hnil] at hw; cases hw
      refine ⟨by rw [h.frame], hs.rep, hle, fun {u} => ?_, hjoin, fun {u} hu => ?_,
        fun {c u} hc hu => ?_, fun {c} hc u w huw => ?_, ?_⟩
      · show u ∈ (g.comp ++ [s.comp]).flatten ↔ s.mark u = g.cmark
        rw [flatten_append, mem_append, h.mem_comp, flatten_cons, flatten_nil,
          append_nil, hs.mem_comp]
        constructor
        · rintro (hu | hu)
          · exact hs.old hu
          · exact hu.1
        · intro hu
          by_cases h0 : g.mark u = g.cmark
          · exact .inl h0
          · exact .inr ⟨hu, h0⟩
      · obtain hmem | hm' := h.cover hu
        · obtain rfl | hmem := mem_cons.1 hmem
          · exact .inr hv
          · exact .inl hmem
        · exact .inr (hs.old hm')
      · obtain hc | hc := mem_append.1 hc
        · exact h.leader hc hu
        · rw [mem_singleton.1 hc] at hu
          exact hs.comp_leader hu
      · obtain hc | hc := mem_append.1 hc
        · exact h.closed hc huw
        · rw [mem_singleton.1 hc, hs.mem_comp, hs.mem_comp]
          exact ⟨fun ⟨h1, h2⟩ => ⟨hjoin h1 huw, fun h0 => h2 (h.joined h0 huw.symm)⟩,
            fun ⟨h1, h2⟩ => ⟨hjoin h1 huw.symm, fun h0 => h2 (h.joined h0 huw)⟩⟩
      · show (g.comp ++ [s.comp]).flatten.Nodup
        rw [flatten_append, flatten_cons, flatten_nil, append_nil]
        refine List.Nodup.append h.nodup hs.comp_nodup fun u hu hu' => ?_
        exact (hs.mem_comp.1 hu').2 (h.mem_comp.1 hu)
    next hm => exact hskip fun _ => by simpa using hm

/-- `decompose` partitions the leaders into sets closed under the edges. -/
theorem decompose_partition {g : DotGraph n} (hrep : Represents g.uf.parent f) (hl : Leads f g.fg)
    (hwf : g.fg.Wf) (hmark : ∀ v, g.mark v < g.cmark + 1) :
    Meets (decompose g)
      (fun g' => (∃ uf mark comp, g' = { g with
          uf := uf, mark := mark, comp := comp, cmark := g.cmark + 1 }) ∧
        Represents g'.uf.parent f ∧ (∀ v, g'.mark v ≤ g.cmark + 1) ∧
        Components f g.fg g'.comp) fun _ => False := by
  let g₀ : DotGraph n := { g with cmark := g.cmark + 1, comp := [] }
  have hstart : DecompInv f g₀ (List.finRange n) g₀ := by
    refine ⟨rfl, hrep, fun v => (hmark v).le, fun {v} => ?_, fun {u w} hu => ?_,
      fun {v} _ => .inl (mem_finRange v), fun hc => absurd hc not_mem_nil,
      fun hc => absurd hc not_mem_nil, nodup_nil⟩
    · exact ⟨fun hv => absurd hv not_mem_nil, fun hv => absurd hv (hmark v).ne⟩
    · exact absurd hu (hmark u).ne
  refine (Meets.foldlM (DecompInv f g₀) (fun v rest g₁ h => ?_) g₀ hstart).imp fun g' h => ?_
  · have hfg : g₁.fg = g.fg := by rw [h.frame]
    exact decomposeNode_spec h (by rw [hfg]; exact hl) (by rw [hfg]; exact hwf)
  · have hfg : g'.fg = g.fg := by rw [h.frame]
    have hcm : g'.cmark = g.cmark + 1 := by rw [h.frame]
    refine ⟨⟨g'.uf, g'.mark, g'.comp, h.frame⟩, h.rep, fun v => hcm ▸ h.mark_le v, ?_, h.leader,
      fun hc u w huw => h.closed hc (by rw [hfg]; exact huw), h.nodup⟩
    intro v hv
    have hm := (h.cover hv).resolve_left not_mem_nil
    exact mem_flatten.1 (h.mem_comp.2 hm)

end Graphviz
