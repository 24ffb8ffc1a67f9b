import Graphviz.Common.UF
import Graphviz.Dotgen.FastGraph
import Graphviz.Library.Instances
import Graphviz.Library.Links

/-!
# The lists of the components (`dotgen/decomp.c`)

`decompose` as it is for a graph with flat edges and virtual nodes: the nodes of the fast graph are
`0, …, n - 1`, of which the graph itself has some, the marks and the counter are of `size_t`, and
the components are lists that `ND_next` and `ND_prev` link. The nodes of a graph that the search
comes to without that the graph has them are its virtual nodes.
-/

namespace Graphviz.Components

open Function Links List Nat Outcome UnionFind

variable {n : ℕ}

/-- The fast graph with its flat edges, the nodes that `agfstnode` and `agnxtnode` come to, and the
leader of a node's rank in its cluster. -/
structure Fgraph (n : ℕ) extends FastGraph n where
  flatOut : Fin n → List ℕ
  flatIn : Fin n → List ℕ
  nodes : List (Fin n)
  rankleader : Fin n → Option (Fin n)

/-- The fields of nodes and of the graph that `decompose` reads and writes. -/
structure State (n : ℕ) where
  uf : UF n
  mark : Fin n → UInt64
  next : Fin n → Option (Fin n)
  prev : Fin n → Option (Fin n)
  nlist : Option (Fin n)
  comp : List (Option (Fin n))
  lastNode : Option (Fin n)
  Cmark : UInt64
  stk : List (Fin n)

/-- `begin_component`. -/
def State.beginComponent (s : State n) : State n := { s with lastNode := none, nlist := none }

/-- `add_to_component`. -/
def State.addToComponent (s : State n) (v : Fin n) : State n :=
  let s := { s with mark := update s.mark v s.Cmark }
  let s :=
    match s.lastNode with
    | some last => { s with prev := update s.prev v (some last), next := update s.next last (some v) }
    | none => { s with prev := update s.prev v none, nlist := some v }
  { s with lastNode := some v, next := update s.next v none }

/-- `end_component`. -/
def State.endComponent (s : State n) : State n := { s with comp := s.comp ++ [s.nlist] }

/-- `push`. -/
def State.push (s : State n) (v : Fin n) : State n :=
  { s with mark := update s.mark v (s.Cmark + 1), stk := v :: s.stk }

/-- The other end of an edge. -/
def Fgraph.other (g : Fgraph n) (v : Fin n) (e : ℕ) : Fin n :=
  if (g.edge e).head = v then (g.edge e).tail else (g.edge e).head

/-- The edges of a node as `search_component` goes through them. -/
def Fgraph.edgesAt (g : Fgraph n) (v : Fin n) : List ℕ :=
  (g.flatIn v).reverse ++ (g.flatOut v).reverse ++ (g.inn v).reverse ++ (g.out v).reverse

/-- The inner loop of `search_component`. -/
def pushOther (g : Fgraph n) (v : Fin n) (s : State n) (e : ℕ) : Except Fault (State n) :=
  let other := g.other v e
  if s.mark other ≠ s.Cmark then do
    let (uf, r) ← s.uf.find other
    let s := { s with uf }
    .ok (if other = r then s.push other else s)
  else .ok s

/-- The loop of `search_component`. -/
def searchLoop (g : Fgraph n) : ℕ → State n → Except Fault (State n)
  | 0, _ => .error .fuel
  | fuel + 1, s =>
    match s.stk with
    | [] => .ok s
    | v :: stk =>
      let s := { s with stk }
      if s.mark v = s.Cmark then searchLoop g fuel s
      else do
        let s ← (g.edgesAt v).foldlM (pushOther g v) (s.addToComponent v)
        searchLoop g fuel s

/-- `search_component`. Each edge of a node pushes at most one node. -/
def searchComponent (g : Fgraph n) (s : State n) (v : Fin n) : Except Fault (State n) :=
  searchLoop g (∑ v, (g.edgesAt v).length + 2) (s.push v)

/-- The end of the body of the loop of `decompose`. -/
def component (g : Fgraph n) (s : State n) (v : Fin n) : Except Fault (State n) :=
  if s.mark v ≠ s.Cmark then do
    let s ← searchComponent g s.beginComponent v
    .ok s.endComponent
  else .ok s

/-- The body of the loop of `decompose`. -/
def decomposeNode (g : Fgraph n) (pass : ℕ) (s : State n) (v : Fin n) : Except Fault (State n) :=
  match if pass > 0 then g.rankleader v else none with
  | some v => component g s v
  | none => do
    let (uf, r) ← s.uf.find v
    let s := { s with uf }
    if v ≠ r then .ok s else component g s v

/-- `++Cmark`, which is not zero. -/
def counter (Cmark : UInt64) : UInt64 := if Cmark + 1 = 0 then 1 else Cmark + 1

/-- `decompose`. The stack is its own. -/
def decompose (g : Fgraph n) (pass : ℕ) (s : State n) : Except Fault (State n) :=
  g.nodes.foldlM (decomposeNode g pass) { s with Cmark := counter s.Cmark, comp := [], stk := [] }

/-! ## The components -/

/-- The lists of an edge's ends both have it, in the fast graph and among the flat edges. -/
structure Fgraph.Wf (g : Fgraph n) : Prop where
  out_tail : ∀ v, ∀ e ∈ g.out v, (g.edge e).tail = v
  inn_head : ∀ v, ∀ e ∈ g.inn v, (g.edge e).head = v
  out_inn : ∀ e, e ∈ g.out (g.edge e).tail ↔ e ∈ g.inn (g.edge e).head
  flatOut_tail : ∀ v, ∀ e ∈ g.flatOut v, (g.edge e).tail = v
  flatIn_head : ∀ v, ∀ e ∈ g.flatIn v, (g.edge e).head = v
  flatOut_flatIn : ∀ e, e ∈ g.flatOut (g.edge e).tail ↔ e ∈ g.flatIn (g.edge e).head

/-- A fast or flat edge joins two leaders. -/
def Fgraph.Joined (g : Fgraph n) (f : Fin n → Fin n) (u v : Fin n) : Prop :=
  f u = u ∧ f v = v ∧ ∃ e, (e ∈ g.out u ∨ e ∈ g.flatOut u) ∧ (g.edge e).head = v ∨
    (e ∈ g.out v ∨ e ∈ g.flatOut v) ∧ (g.edge e).head = u

/-- Leaders that edges connect. -/
def Fgraph.Connected (g : Fgraph n) (f : Fin n → Fin n) : Fin n → Fin n → Prop :=
  Relation.ReflTransGen (g.Joined f)

variable {g : Fgraph n} {f : Fin n → Fin n} {s s' : State n} {u v w v₀ : Fin n} {P D : List (Fin n)}

theorem Fgraph.joined_comm : g.Joined f u v ↔ g.Joined f v u := by
  have h : ∀ u v, g.Joined f u v → g.Joined f v u := fun u v ⟨hu, hv, e, he⟩ => ⟨hv, hu, e, he.symm⟩
  exact ⟨h u v, h v u⟩

theorem Fgraph.Connected.symm (h : g.Connected f u v) : g.Connected f v u := by
  induction h with
  | refl => exact .refl
  | tail _ huv ih => exact .head (Fgraph.joined_comm.1 huv) ih

/-- The edges at a leader lead to the leaders it is joined with, and to nodes that are none. -/
theorem Fgraph.Wf.joined_iff (hg : g.Wf) (hv : f v = v) :
    g.Joined f v w ↔ f w = w ∧ ∃ e ∈ g.edgesAt v, g.other v e = w := by
  simp only [Fgraph.edgesAt, mem_append, mem_reverse]
  constructor
  · rintro ⟨-, hw, e, ⟨he, rfl⟩ | ⟨he, rfl⟩⟩
    · refine ⟨hw, e, by tauto, ?_⟩
      have ht : (g.edge e).tail = v := he.elim (hg.out_tail v e) (hg.flatOut_tail v e)
      by_cases hh : (g.edge e).head = v
      · rw [Fgraph.other, if_pos hh, ht, hh]
      · rw [Fgraph.other, if_neg hh]
    · refine ⟨hw, e, ?_, ?_⟩
      · obtain he | he := he
        · rw [← hg.out_tail w e he, hg.out_inn] at he
          tauto
        · rw [← hg.flatOut_tail w e he, hg.flatOut_flatIn] at he
          tauto
      · rw [Fgraph.other, if_pos rfl]
        exact he.elim (hg.out_tail w e) (hg.flatOut_tail w e)
  · rintro ⟨hw, e, he, rfl⟩
    have hin : ∀ e, (g.edge e).head = v → (e ∈ g.inn v ∨ e ∈ g.flatIn v) →
        e ∈ g.out (g.other v e) ∨ e ∈ g.flatOut (g.other v e) := fun e hh he => by
      rw [Fgraph.other, if_pos hh, hg.out_inn, hg.flatOut_flatIn, hh]
      exact he
    refine ⟨hv, hw, e, ?_⟩
    rcases he with ((he | he) | he) | he
    · have hh := hg.flatIn_head v e he
      exact .inr ⟨hin e hh (.inr he), hh⟩
    · by_cases hh : (g.edge e).head = v
      · rw [Fgraph.other, if_pos hh, hg.flatOut_tail v e he]
        exact .inl ⟨.inr he, hh⟩
      · rw [Fgraph.other, if_neg hh]
        exact .inl ⟨.inr he, rfl⟩
    · have hh := hg.inn_head v e he
      exact .inr ⟨hin e hh (.inl he), hh⟩
    · by_cases hh : (g.edge e).head = v
      · rw [Fgraph.other, if_pos hh, hg.out_tail v e he]
        exact .inl ⟨.inl he, hh⟩
      · rw [Fgraph.other, if_neg hh]
        exact .inl ⟨.inl he, rfl⟩

/-! ## The search of one component -/

/-- The search from a leader. The nodes with the counter for their mark are those that were done
when it started, and the list so far; all of it and of the stack are connected with the leader. -/
structure Searching (g : Fgraph n) (f : Fin n → Fin n) (s₀ : State n) (v₀ : Fin n)
    (D : List (Fin n)) (s : State n) (P : List (Fin n)) : Prop where
  uf : Represents s.uf.parent f
  counter : s.Cmark = s₀.Cmark
  comp : s.comp = s₀.comp
  mark : ∀ x, s.mark x = s.Cmark ↔ x ∈ D ∨ x ∈ P
  stk : ∀ x ∈ s.stk, g.Connected f v₀ x
  list : ∀ x ∈ P, g.Connected f v₀ x
  nodup : P.Nodup
  links : Linked P s.prev s.next
  last : s.lastNode = P.getLast?
  nlist : s.nlist = P.head?
  fresh : ∀ x ∈ P, x ∉ D
  done : ∀ x ∈ D, s.prev x = s₀.prev x ∧ s.next x = s₀.next x

/-- The nodes that an edge of the list leads to are on it too, or done, or on the stack. -/
def Bordered (g : Fgraph n) (f : Fin n → Fin n) (s : State n) (v : Fin n) (es : List ℕ) : Prop :=
  ∀ e ∈ es, f (g.other v e) = g.other v e → s.mark (g.other v e) = s.Cmark ∨ g.other v e ∈ s.stk

variable {s₀ : State n} {fuel : ℕ}

/-- A connected leader that is not processed is pushed. -/
theorem Searching.push (h : Searching g f s₀ v₀ D s P) (hv : g.Connected f v₀ v)
    (hm : s.mark v ≠ s.Cmark) : Searching g f s₀ v₀ D (s.push v) P where
  uf := h.uf
  counter := h.counter
  comp := h.comp
  mark := fun x => by
    by_cases hx : x = v
    · subst hx
      have hne : (s.push x).mark x ≠ (s.push x).Cmark := by
        simp [State.push]
      rw [← h.mark x]
      exact iff_of_false hne hm
    · rw [← h.mark x]
      simp [State.push, hx]
  stk := fun x hx => by
    obtain rfl | hx := mem_cons.1 hx
    · exact hv
    · exact h.stk x hx
  list := h.list
  nodup := h.nodup
  links := h.links
  last := h.last
  nlist := h.nlist
  fresh := h.fresh
  done := h.done

/-- What the inner loops leave as it is, and how far the stack grows. -/
structure Pushed (s s' : State n) (k : ℕ) : Prop where
  mark : ∀ x, s'.mark x = s'.Cmark ↔ s.mark x = s.Cmark
  stk : ∀ x ∈ s.stk, x ∈ s'.stk
  length : s'.stk.length ≤ s.stk.length + k

theorem Bordered.pushed {es : List ℕ} {k : ℕ} (h : Bordered g f s v es) (hp : Pushed s s' k) :
    Bordered g f s' v es :=
  fun e he hl => (h e he hl).imp (hp.mark _).2 (hp.stk _)

/-- The inner loop for one edge. -/
theorem pushOther_spec (hg : g.Wf) (h : Searching g f s₀ v₀ D s P) (hv : v ∈ P) (hfv : f v = v)
    {e : ℕ} (he : e ∈ g.edgesAt v) :
    Meets (pushOther g v s e)
      (fun s' => Searching g f s₀ v₀ D s' P ∧ Pushed s s' 1 ∧ Bordered g f s' v [e])
      fun _ => False := by
  rw [pushOther]
  by_cases hm : s.mark (g.other v e) = s.Cmark
  · rw [if_neg (not_not.2 hm)]
    refine ⟨h, ⟨fun _ => Iff.rfl, fun _ hx => hx, le_succ _⟩, fun e' he' _ => ?_⟩
    rw [mem_singleton.1 he']
    exact .inl hm
  · rw [if_pos hm]
    refine (UF.find_spec h.uf (g.other v e)).bind fun ⟨uf, r⟩ ⟨huf, hr⟩ => ?_
    have h1 : Searching g f s₀ v₀ D { s with uf } P := { h with uf := huf }
    by_cases hl : g.other v e = r
    · have hleader : f (g.other v e) = g.other v e := by rw [← hr, hl]
      have hconn : g.Connected f v₀ (g.other v e) :=
        (h.list v hv).tail ((hg.joined_iff hfv).2 ⟨hleader, e, he, rfl⟩)
      have hpush := h1.push hconn hm
      dsimp only
      rw [if_pos hl]
      refine ⟨hpush, ⟨fun x => ?_, fun x hx => mem_cons_of_mem _ hx, le_rfl⟩,
        fun e' he' _ => ?_⟩
      · rw [hpush.mark, h.mark]
      · rw [mem_singleton.1 he']
        exact .inr mem_cons_self
    · dsimp only
      rw [if_neg hl]
      refine ⟨h1, ⟨fun _ => Iff.rfl, fun _ hx => hx, le_succ _⟩, fun e' he' hleader => ?_⟩
      rw [mem_singleton.1 he'] at hleader
      exact absurd (hleader.symm.trans hr.symm) hl

/-- The inner loops. -/
theorem pushOthers_spec (hg : g.Wf) (h : Searching g f s₀ v₀ D s P) (hv : v ∈ P) (hfv : f v = v) :
    Meets ((g.edgesAt v).foldlM (pushOther g v) s)
      (fun s' => Searching g f s₀ v₀ D s' P ∧ Pushed s s' (g.edgesAt v).length ∧
        Bordered g f s' v (g.edgesAt v)) fun _ => False := by
  have hloop : ∀ (es : List ℕ) (s : State n), (∀ e ∈ es, e ∈ g.edgesAt v) →
      Searching g f s₀ v₀ D s P → Meets (es.foldlM (pushOther g v) s)
        (fun s' => Searching g f s₀ v₀ D s' P ∧ Pushed s s' es.length ∧ Bordered g f s' v es)
        fun _ => False := by
    intro es
    induction es with
    | nil =>
      exact fun s _ h => ⟨h, ⟨fun _ => Iff.rfl, fun _ hx => hx, le_rfl⟩, fun e he => by cases he⟩
    | cons e es ih =>
      intro s hes h
      rw [foldlM_cons]
      refine (pushOther_spec hg h hv hfv (hes e mem_cons_self)).bind
        fun s1 ⟨h1, hp1, hb1⟩ => ?_
      refine (ih s1 (fun e' he' => hes e' (mem_cons_of_mem e he')) h1).imp
        fun s2 ⟨h2, hp2, hb2⟩ => ⟨h2, ⟨fun x => (hp2.mark x).trans (hp1.mark x),
          fun x hx => hp2.stk x (hp1.stk x hx), ?_⟩, fun e' he' => ?_⟩
      · have hlen1 := hp1.length
        have hlen2 := hp2.length
        rw [length_cons]
        omega
      · obtain rfl | he' := mem_cons.1 he'
        · exact hb1.pushed hp2 e' (mem_singleton_self e')
        · exact hb2 e' he'
  exact hloop _ s (fun _ he => he) h

/-- A node is put at the end of the list. -/
theorem Searching.addToComponent (h : Searching g f s₀ v₀ D s P) (hv : g.Connected f v₀ v)
    (hm : s.mark v ≠ s.Cmark) : Searching g f s₀ v₀ D (s.addToComponent v) (P ++ [v]) := by
  have hvD : v ∉ D := fun hvD => hm ((h.mark v).2 (.inl hvD))
  have hvP : v ∉ P := fun hvP => hm ((h.mark v).2 (.inr hvP))
  have hnodup : (P ++ [v]).Nodup :=
    h.nodup.append (nodup_singleton v) (disjoint_singleton.2 hvP)
  have hprev : ∀ w, (s.addToComponent v).prev w = if w = v then P.getLast? else s.prev w := by
    intro w
    rw [← h.last, State.addToComponent]
    cases s.lastNode with
    | none => simp [update_apply]
    | some last => simp [update_apply]
  have hnext : ∀ w, (s.addToComponent v).next w =
      if P.getLast? = some w then some v else if w = v then none else s.next w := by
    intro w
    have hlast : P.getLast? ≠ some v := fun hlast => hvP (mem_of_getLast? hlast)
    rw [← h.last] at hlast ⊢
    rw [State.addToComponent]
    cases hl : s.lastNode with
    | none => simp [update_apply]
    | some last =>
      have hlv : last ≠ v := fun hlv => hlast (by rw [hl, hlv])
      by_cases hw : w = v
      · subst hw
        simp [hlv]
      · simp [update_apply, hw, eq_comm]
  exact
    { uf := by rw [State.addToComponent]; cases s.lastNode <;> exact h.uf
      counter := by rw [← h.counter, State.addToComponent]; cases s.lastNode <;> rfl
      comp := by rw [← h.comp, State.addToComponent]; cases s.lastNode <;> rfl
      mark := fun x => by
        have hmark : (s.addToComponent v).mark = update s.mark v s.Cmark := by
          rw [State.addToComponent]; cases s.lastNode <;> rfl
        have hc : (s.addToComponent v).Cmark = s.Cmark := by
          rw [State.addToComponent]; cases s.lastNode <;> rfl
        rw [hmark, hc, mem_append, mem_singleton, ← or_assoc, ← h.mark x]
        by_cases hx : x = v
        · simp [hx]
        · simp [hx]
      stk := by rw [State.addToComponent]; cases s.lastNode <;> exact h.stk
      list := fun x hx => by
        obtain hx | hx := mem_append.1 hx
        · exact h.list x hx
        · rw [mem_singleton.1 hx]
          exact hv
      nodup := hnodup
      links := by
        refine Linked.insert (B := []) (by rw [append_nil]; exact h.links) hnodup
          (fun w => ?_) fun w => ?_
        · rw [hprev]; simp
        · rw [hnext]; simp
      last := by rw [State.addToComponent, getLast?_concat]
      nlist := by
        rw [State.addToComponent]
        cases hl : s.lastNode with
        | none =>
          have hP : P = [] := getLast?_eq_none_iff.1 (by rw [← h.last, hl])
          rw [hP]
          rfl
        | some last =>
          have hP : P ≠ [] := fun hP => by
            rw [h.last, hP] at hl
            cases hl
          rw [head?_append_of_ne_nil _ hP]
          exact h.nlist
      fresh := fun x hx => by
        obtain hx | hx := mem_append.1 hx
        · exact h.fresh x hx
        · rw [mem_singleton.1 hx]
          exact hvD
      done := fun x hx => by
        have hxv : x ≠ v := fun hxv => hvD (hxv ▸ hx)
        have hxP : P.getLast? ≠ some x := fun hxP => h.fresh x (mem_of_getLast? hxP) hx
        rw [hprev, hnext, if_neg hxv, if_neg hxP, if_neg hxv]
        exact h.done x hx }

attribute [local instance] Instances.lawfulBEq_fin

/-- What is left to do: the edges of the nodes that are neither done nor on the list, and the
stack. -/
def remaining (g : Fgraph n) (D P : List (Fin n)) (s : State n) : ℕ :=
  ∑ x with x ∉ D ∧ x ∉ P, (g.edgesAt x).length + s.stk.length

theorem sum_append_singleton (hD : v ∉ D) (hP : v ∉ P) (d : Fin n → ℕ) :
    (∑ x with x ∉ D ∧ x ∉ P, d x) = d v + ∑ x with x ∉ D ∧ x ∉ P ++ [v], d x := by
  have hset : (Finset.univ.filter fun x => x ∉ D ∧ x ∉ P) =
      insert v (Finset.univ.filter fun x => x ∉ D ∧ x ∉ P ++ [v]) := by
    ext x
    by_cases hx : x = v
    · simp [hx, hD, hP]
    · simp [hx]
  rw [hset, Finset.sum_insert (by simp)]

theorem addToComponent_stk : (s.addToComponent v).stk = s.stk := by
  rw [State.addToComponent]
  cases s.lastNode <;> rfl

/-- The search ends, with an empty stack and a list that is closed. -/
theorem searchLoop_spec (hg : g.Wf) (hf : ∀ x, g.Connected f v₀ x → f x = x ∧ x ∉ D)
    (h : Searching g f s₀ v₀ D s P) (hstart : v₀ ∈ P ∨ v₀ ∈ s.stk)
    (hb : ∀ x ∈ P, Bordered g f s x (g.edgesAt x)) (hfuel : remaining g D P s < fuel) :
    Meets (searchLoop g fuel s) (fun s' => ∃ P', Searching g f s₀ v₀ D s' P' ∧ s'.stk = [] ∧
      v₀ ∈ P' ∧ ∀ x ∈ P', Bordered g f s' x (g.edgesAt x)) fun _ => False := by
  induction fuel generalizing s P with
  | zero => exact absurd hfuel (not_lt_zero _)
  | succ fuel ih =>
    rw [searchLoop]
    cases hstk : s.stk with
    | nil =>
      rw [hstk] at hstart
      exact ⟨P, h, hstk, hstart.resolve_right not_mem_nil, hb⟩
    | cons v stk =>
      have hv : g.Connected f v₀ v := h.stk v (by rw [hstk]; exact mem_cons_self)
      obtain ⟨hfv, hvD⟩ := hf v hv
      have h1 : Searching g f s₀ v₀ D { s with stk } P :=
        { h with stk := fun x hx => h.stk x (by rw [hstk]; exact mem_cons_of_mem v hx) }
      rw [hstk, mem_cons] at hstart
      rw [remaining, hstk, length_cons] at hfuel
      dsimp only
      by_cases hm : s.mark v = s.Cmark
      · -- The node was pushed again before it was processed.
        have hvP : v ∈ P := ((h.mark v).1 hm).resolve_left hvD
        rw [if_pos hm]
        refine ih h1 ?_ (fun x hx e he hl => ?_) ?_
        · obtain hs | rfl | hs := hstart
          · exact .inl hs
          · exact .inl hvP
          · exact .inr hs
        · obtain hmark | hmem := hb x hx e he hl
          · exact .inl hmark
          · rw [hstk] at hmem
            obtain heq | hmem := mem_cons.1 hmem
            · rw [heq]
              exact .inl hm
            · exact .inr hmem
        · rw [remaining]
          dsimp only
          omega
      · have hvP : v ∉ P := fun hvP => hm ((h.mark v).2 (.inr hvP))
        have h2 := h1.addToComponent hv hm
        rw [if_neg hm]
        refine (pushOthers_spec hg h2 (by simp) hfv).bind fun s3 ⟨h3, hp3, hb3⟩ => ?_
        have hstk3 : ∀ x ∈ stk, x ∈ s3.stk := fun x hx =>
          hp3.stk x (by rw [addToComponent_stk]; exact hx)
        have hmark3 : ∀ x, s3.mark x = s3.Cmark ↔ s.mark x = s.Cmark ∨ x = v := fun x => by
          rw [h3.mark, h.mark, mem_append, mem_singleton, or_assoc]
        refine ih h3 ?_ (fun x hx => ?_) ?_
        · rw [mem_append, mem_singleton, or_assoc]
          exact hstart.imp_right (Or.imp_right (hstk3 v₀))
        · obtain hx | hx := mem_append.1 hx
          · intro e he hl
            obtain hmark | hmem := hb x hx e he hl
            · exact .inl ((hmark3 _).2 (.inl hmark))
            · rw [hstk] at hmem
              obtain heq | hmem := mem_cons.1 hmem
              · exact .inl ((hmark3 _).2 (.inr heq))
              · exact .inr (hstk3 _ hmem)
          · rw [mem_singleton.1 hx]
            exact hb3
        · have hlen := hp3.length
          rw [addToComponent_stk] at hlen
          rw [sum_append_singleton hvD hvP fun x => (g.edgesAt x).length] at hfuel
          rw [remaining]
          dsimp only at hlen
          omega

/-! ## The lists -/

/-- The lists of the components: each has the leaders that are connected with one of them. -/
structure Listed (g : Fgraph n) (f : Fin n → Fin n) (s : State n) (comps : List (List (Fin n))) :
    Prop where
  uf : Represents s.uf.parent f
  comp : s.comp = comps.map List.head?
  mark : ∀ x, s.mark x = s.Cmark ↔ x ∈ comps.flatten
  nodup : comps.flatten.Nodup
  links : ∀ L ∈ comps, Linked L s.prev s.next
  component : ∀ L ∈ comps, ∃ v₀ ∈ L, v₀ ∈ g.nodes ∧ f v₀ = v₀ ∧ ∀ x, x ∈ L ↔ g.Connected f v₀ x
  stk : s.stk = []

/-- What is connected with a leader is a leader. -/
theorem Fgraph.Connected.leader (h : g.Connected f u v) (hu : f u = u) : f v = v := by
  induction h with
  | refl => exact hu
  | tail _ hvw _ => exact hvw.2.1

variable {comps : List (List (Fin n))}

/-- The lists are closed under the edges. -/
theorem Listed.connected (h : Listed g f s comps) (hu : u ∈ comps.flatten)
    (hc : g.Connected f u v) : v ∈ comps.flatten := by
  obtain ⟨L, hL, hu⟩ := mem_flatten.1 hu
  obtain ⟨v0, -, -, -, hiff⟩ := h.component L hL
  exact mem_flatten.2 ⟨L, hL, (hiff v).2 (((hiff u).1 hu).trans hc)⟩

/-- The end of the body of the loop of `decompose`, for a leader. -/
theorem component_spec (hg : g.Wf) (h : Listed g f s comps) (hv : v ∈ g.nodes) (hfv : f v = v) :
    Meets (component g s v) (fun s' => ∃ comps', Listed g f s' (comps ++ comps') ∧
      s'.Cmark = s.Cmark ∧ v ∈ (comps ++ comps').flatten) fun _ => False := by
  rw [component]
  by_cases hm : s.mark v = s.Cmark
  · rw [if_neg (not_not.2 hm)]
    exact ⟨[], by rwa [append_nil], rfl, by rw [append_nil]; exact (h.mark v).1 hm⟩
  · rw [if_pos hm]
    have hvD : v ∉ comps.flatten := fun hvD => hm ((h.mark v).2 hvD)
    have hf : ∀ x, g.Connected f v x → f x = x ∧ x ∉ comps.flatten := fun x hx =>
      ⟨hx.leader hfv, fun hxD => hvD (h.connected hxD hx.symm)⟩
    have hstart : Searching g f s.beginComponent v comps.flatten s.beginComponent [] :=
      { uf := h.uf
        counter := rfl
        comp := rfl
        mark := fun x => by
          rw [mem_nil_iff, or_false]
          exact h.mark x
        stk := fun x hx => by
          have hnil : s.beginComponent.stk = [] := h.stk
          rw [hnil] at hx
          cases hx
        list := by simp
        nodup := nodup_nil
        links := Linked.nil
        last := rfl
        nlist := rfl
        fresh := by simp
        done := fun _ _ => ⟨rfl, rfl⟩ }
    have hpush := hstart.push .refl hm
    have hbudget : remaining g comps.flatten [] (s.beginComponent.push v) <
        ∑ v, (g.edgesAt v).length + 2 := by
      have hle : ∑ x with x ∉ comps.flatten ∧ x ∉ ([] : List (Fin n)), (g.edgesAt x).length ≤
          ∑ x, (g.edgesAt x).length :=
        Finset.sum_le_sum_of_subset (Finset.filter_subset _ _)
      have hlen : (s.beginComponent.push v).stk.length = 1 := by
        change (v :: s.stk).length = 1
        rw [h.stk]
        rfl
      rw [remaining, hlen]
      omega
    refine (searchLoop_spec hg hf hpush (.inr mem_cons_self) (by simp) hbudget).bind
      fun s1 ⟨P, h1, hnil, hvP, hb⟩ => ?_
    have hclosed : ∀ x, x ∈ P ↔ g.Connected f v x := by
      intro x
      refine ⟨h1.list x, fun hx => ?_⟩
      induction hx with
      | refl => exact hvP
      | tail hxy hyz ih =>
        obtain ⟨hz, e, he, rfl⟩ := (hg.joined_iff hyz.1).1 hyz
        obtain hmark | hmem := hb _ ih e he hz
        · exact ((h1.mark _).1 hmark).resolve_left (hf _ (hxy.tail hyz)).2
        · rw [hnil] at hmem
          cases hmem
    refine ⟨[P], ?_, h1.counter, by simp [hvP]⟩
    exact
      { uf := h1.uf
        comp := by
          change s1.comp ++ [s1.nlist] = _
          rw [h1.comp, h1.nlist, map_append]
          change s.comp ++ _ = _
          rw [h.comp]
          rfl
        mark := fun x => by
          rw [flatten_append, mem_append]
          change s1.mark x = s1.Cmark ↔ _
          rw [h1.mark x]
          simp
        nodup := by
          rw [flatten_append]
          refine h.nodup.append (by simpa using h1.nodup) fun x hx hxP => ?_
          exact h1.fresh x (by simpa using hxP) hx
        links := fun L hL => by
          obtain hL | hL := mem_append.1 hL
          · exact (h.links L hL).congr fun x hx =>
              h1.done x (mem_flatten.2 ⟨L, hL, hx⟩)
          · rw [mem_singleton.1 hL]
            exact h1.links
        component := fun L hL => by
          obtain hL | hL := mem_append.1 hL
          · exact h.component L hL
          · rw [mem_singleton.1 hL]
            exact ⟨v, hvP, hv, hfv, hclosed⟩
        stk := hnil }

/-- The condition for the counter: other phases leave no node with it as its mark. -/
def Fresh (s : State n) : Prop := ∀ x, s.mark x ≠ counter s.Cmark

/-! ## Marks -/

/-- A mark above the counter is that of a node on the stack. -/
def Marked (c : UInt64) (s : State n) : Prop := s.Cmark = c ∧ ∀ x, s.mark x ≤ c ∨ x ∈ s.stk

variable {c : UInt64}

theorem pushOther_marked (h : Marked c s) (v : Fin n) (e : ℕ) :
    Meets (pushOther g v s e) (Marked c) fun _ => True := by
  rw [pushOther]
  by_cases hm : s.mark (g.other v e) = s.Cmark
  · rw [if_neg (not_not.2 hm)]
    exact h
  · rw [if_pos hm]
    cases s.uf.find (g.other v e) with
    | error _ => trivial
    | ok x =>
      change Marked c (if g.other v e = x.2 then State.push { s with uf := x.1 } _ else _)
      by_cases hx : g.other v e = x.2
      · rw [if_pos hx]
        refine ⟨h.1, fun y => ?_⟩
        by_cases hy : y = g.other v e
        · exact .inr (mem_cons.2 (.inl hy))
        · refine (h.2 y).imp (fun hle => ?_) (mem_cons_of_mem _)
          simpa [State.push, hy] using hle
      · rw [if_neg hx]
        exact h

theorem searchLoop_marked (h : Marked c s) (fuel : ℕ) :
    Meets (searchLoop g fuel s) (fun s' => Marked c s' ∧ s'.stk = []) fun _ => True := by
  induction fuel generalizing s with
  | zero => trivial
  | succ fuel ih =>
    rw [searchLoop]
    cases hstk : s.stk with
    | nil => exact ⟨h, hstk⟩
    | cons v stk =>
      have hrest : ∀ x, x ≠ v → s.mark x ≤ c ∨ x ∈ stk := fun x hx => by
        have hle := h.2 x
        rw [hstk, mem_cons] at hle
        exact hle.imp_right fun hmem => hmem.resolve_left hx
      dsimp only
      by_cases hm : s.mark v = s.Cmark
      · rw [if_pos hm]
        refine ih ⟨h.1, fun x => ?_⟩
        by_cases hx : x = v
        · exact .inl (by rw [hx, hm, h.1]; exact UInt64.le_refl c)
        · exact hrest x hx
      · have hadd : Marked c (State.addToComponent { s with stk } v) := by
          have hmark : (State.addToComponent { s with stk } v).mark = update s.mark v s.Cmark := by
            rw [State.addToComponent]; cases s.lastNode <;> rfl
          have hc : (State.addToComponent { s with stk } v).Cmark = s.Cmark := by
            rw [State.addToComponent]; cases s.lastNode <;> rfl
          refine ⟨hc.trans h.1, fun x => ?_⟩
          rw [hmark, addToComponent_stk]
          by_cases hx : x = v
          · exact .inl (by rw [hx, update_self, h.1]; exact UInt64.le_refl c)
          · rw [update_of_ne hx]
            exact hrest x hx
        rw [if_neg hm]
        exact (Meets.foldlM (fun _ => Marked c) (fun e _ s1 h1 => pushOther_marked h1 v e) _
          hadd).bind fun s2 h2 => ih h2

theorem component_marked (h : Marked c s ∧ s.stk = []) (v : Fin n) :
    Meets (component g s v) (fun s' => Marked c s' ∧ s'.stk = []) fun _ => True := by
  rw [component]
  by_cases hm : s.mark v = s.Cmark
  · rw [if_neg (not_not.2 hm)]
    exact h
  · have hpush : Marked c (s.beginComponent.push v) := by
      refine ⟨h.1.1, fun x => ?_⟩
      by_cases hx : x = v
      · exact .inr (mem_cons.2 (.inl hx))
      · refine (h.1.2 x).imp (fun hle => ?_) (mem_cons_of_mem _)
        simpa [State.push, State.beginComponent, hx] using hle
    rw [if_pos hm]
    exact (searchLoop_marked hpush _).bind fun s1 h1 => h1

/-- After `decompose`, in either of its uses, no mark is above the counter. -/
theorem decompose_marked (g : Fgraph n) (pass : ℕ) (h : ∀ x, s.mark x ≤ counter s.Cmark) :
    Meets (decompose g pass s)
      (fun s' => s'.Cmark = counter s.Cmark ∧ ∀ x, s'.mark x ≤ s'.Cmark) fun _ => True := by
  have hstart : Marked (counter s.Cmark)
      { s with Cmark := counter s.Cmark, comp := [], stk := [] } := ⟨rfl, fun x => .inl (h x)⟩
  refine (Meets.foldlM (fun _ s' => Marked (counter s.Cmark) s' ∧ s'.stk = [])
    (fun v _ s1 h1 => ?_) _ ⟨hstart, rfl⟩).imp fun s' h' => ?_
  · rw [decomposeNode]
    cases if pass > 0 then g.rankleader v else none with
    | some v => exact component_marked h1 v
    | none =>
      dsimp only
      cases s1.uf.find v with
      | error _ => trivial
      | ok x =>
        change Meets (if v ≠ x.2 then .ok { s1 with uf := x.1 } else _) _ _
        by_cases hv : v = x.2
        · rw [if_neg (not_not.2 hv)]
          exact component_marked (s := { s1 with uf := x.1 }) h1 v
        · rw [if_pos hv]
          exact h1
  · refine ⟨h'.1.1, fun x => ?_⟩
    rw [h'.1.1]
    exact (h'.1.2 x).resolve_right (by rw [h'.2]; exact not_mem_nil)

/-- The states between calls: new nodes are not marked, the counter starts at zero and does not come
around, and after a first call the other phases of the layout leave marks that are `false` or
`true`. All else changes freely between calls, the fast graph included. -/
inductive Reached : State n → Prop
  | init {s : State n} : s.Cmark = 0 → (∀ x, s.mark x = 0) → Reached s
  | decompose {s s' : State n} (g : Fgraph n) (pass : ℕ) : Reached s → s.Cmark + 1 ≠ 0 →
      decompose g pass s = .ok s' → Reached s'
  | phase {s s' : State n} : Reached s → s.Cmark ≠ 0 → s'.Cmark = s.Cmark →
      (∀ x, s'.mark x = s.mark x ∨ s'.mark x = 0 ∨ s'.mark x = 1) → Reached s'

/-- A count that does not come around is more. -/
theorem lt_counter (hc : c + 1 ≠ 0) : c < counter c := by
  rw [counter, if_neg hc, UInt64.lt_iff_toNat_lt, UInt64.toNat_add]
  have hlt := c.toNat_lt
  have hne : c.toNat + 1 ≠ 2 ^ 64 := fun heq => hc <| by
    rw [← UInt64.toNat_inj, UInt64.toNat_add]
    change (c.toNat + 1) % 2 ^ 64 = 0
    rw [heq, mod_self]
  change c.toNat < (c.toNat + 1) % 2 ^ 64
  rw [mod_eq_of_lt (by omega)]
  exact lt_succ_self _

theorem Reached.mark_le (h : Reached s) : ∀ x, s.mark x ≤ s.Cmark := by
  induction h with
  | init hc hm =>
    intro x
    rw [hc, hm]
    exact UInt64.le_refl 0
  | @decompose s s' g pass _ hc hs' ih =>
    have hmarked := decompose_marked (s := s) g pass fun x =>
      UInt64.le_trans (ih x) (UInt64.le_of_lt (lt_counter hc))
    exact (hmarked.of_ok hs').2
  | phase _ hc hs' hm ih =>
    intro x
    rw [hs']
    obtain hx | hx | hx := hm x
    · rw [hx]
      exact ih x
    · rw [hx]
      exact UInt64.zero_le
    · rw [hx, UInt64.le_iff_toNat_le]
      have hne : (0 : UInt64).toNat ≠ _ := fun h0 => hc (UInt64.toNat_inj.1 h0).symm
      exact one_le_iff_ne_zero.2 hne.symm

/-- The marks that are left never collide with the next counter. -/
theorem Reached.fresh (h : Reached s) (hc : s.Cmark + 1 ≠ 0) : Fresh s := fun x hx =>
  UInt64.lt_irrefl _ (UInt64.lt_of_lt_of_le (lt_counter hc) (hx ▸ h.mark_le x))

/-- `decompose` for the nodes of the graph, from every state that a layout can be in. The lists it
makes have the leaders of the graph, and the virtual nodes that edges connect them with, each once;
two nodes are in the same list when fast or flat edges among leaders connect them; and `ND_next` and
`ND_prev` invert each other along each list. -/
theorem decompose_spec (g : Fgraph n) (f : Fin n → Fin n) (s : State n) (hg : g.Wf)
    (hf : Represents s.uf.parent f) (hs : Reached s) (hc : s.Cmark + 1 ≠ 0) :
    ∃ (s' : State n) (comps : List (List (Fin n))),
      decompose g 0 s = .ok s' ∧ s'.comp = comps.map List.head? ∧
      (∀ x, x ∈ comps.flatten ↔ (x ∈ g.nodes ∧ f x = x) ∨
        (x ∉ g.nodes ∧ ∃ v ∈ g.nodes, f v = v ∧ g.Connected f v x)) ∧
      comps.flatten.Nodup ∧
      (∀ x ∈ comps.flatten, ∀ y ∈ comps.flatten, (∃ L ∈ comps, x ∈ L ∧ y ∈ L) ↔ g.Connected f x y) ∧
      (∀ L ∈ comps, Linked L s'.prev s'.next ∧
        (∀ x ∈ L, ∀ y, s'.next x = some y → y ∈ L ∧ s'.prev y = some x) ∧
        ∀ y ∈ L, ∀ x, s'.prev y = some x → x ∈ L ∧ s'.next x = some y) ∧
      Represents s'.uf.parent f ∧ s'.Cmark = counter s.Cmark ∧
      ∀ x, s'.mark x = s'.Cmark ↔ x ∈ comps.flatten := by
  have hstart : Listed g f { s with Cmark := counter s.Cmark, comp := [], stk := [] } [] :=
    { uf := hf
      comp := rfl
      mark := fun x => iff_of_false (hs.fresh hc x) (by simp)
      nodup := nodup_nil
      links := by simp
      component := by simp
      stk := rfl }
  have hrun : Meets (decompose g 0 s) (fun s' => ∃ comps, Listed g f s' comps ∧
      s'.Cmark = counter s.Cmark ∧ ∀ v ∈ g.nodes, f v = v → v ∈ comps.flatten)
      fun _ => False := by
    refine (Meets.foldlM (fun rest s' => ∃ A comps, g.nodes = A ++ rest ∧ Listed g f s' comps ∧
      s'.Cmark = counter s.Cmark ∧ ∀ v ∈ A, f v = v → v ∈ comps.flatten) ?_ _
      ⟨[], [], rfl, hstart, rfl, by simp⟩).imp ?_
    · rintro v rest s1 ⟨A, comps, hA, h1, hc1, hall⟩
      have hv : v ∈ g.nodes := by rw [hA]; simp
      have hA' : g.nodes = (A ++ [v]) ++ rest := by rw [hA]; simp
      refine (UF.find_spec h1.uf v).bind fun ⟨uf, r⟩ ⟨huf, hr⟩ => ?_
      have h2 : Listed g f { s1 with uf } comps := { h1 with uf := huf }
      dsimp only
      by_cases hvr : v = r
      · have hfv : f v = v := by rw [← hr, hvr]
        rw [if_neg (not_not.2 hvr)]
        refine (component_spec hg h2 hv hfv).imp fun s3 ⟨comps', h3, hc3, hmem⟩ =>
          ⟨A ++ [v], comps ++ comps', hA', h3, hc3.trans hc1, fun u hu hfu => ?_⟩
        obtain hu | hu := mem_append.1 hu
        · rw [flatten_append]
          exact mem_append_left _ (hall u hu hfu)
        · rw [mem_singleton.1 hu]
          exact hmem
      · rw [if_pos hvr]
        refine ⟨A ++ [v], comps, hA', h2, hc1, fun u hu hfu => ?_⟩
        obtain hu | hu := mem_append.1 hu
        · exact hall u hu hfu
        · rw [mem_singleton.1 hu] at hfu
          exact absurd (hfu.symm.trans hr.symm) hvr
    · rintro s1 ⟨A, comps, hA, h1, hc1, hall⟩
      rw [append_nil] at hA
      exact ⟨comps, h1, hc1, by rwa [hA]⟩
  obtain ⟨s', hs', comps, h, hc', hall⟩ := hrun.exists_ok
  refine ⟨s', comps, hs', h.comp, fun x => ⟨fun hx => ?_, ?_⟩, h.nodup, fun x hx y hy => ⟨?_, ?_⟩,
    fun L hL => ⟨h.links L hL, fun x hx y => (h.links L hL).next_eq_some hx,
      fun y hy x => (h.links L hL).prev_eq_some hy⟩, h.uf, hc', h.mark⟩
  · obtain ⟨L, hL, hx⟩ := mem_flatten.1 hx
    obtain ⟨v, -, hv, hfv, hiff⟩ := h.component L hL
    have hconn := (hiff x).1 hx
    by_cases hxn : x ∈ g.nodes
    · exact .inl ⟨hxn, hconn.leader hfv⟩
    · exact .inr ⟨hxn, v, hv, hfv, hconn⟩
  · rintro (⟨hxn, hfx⟩ | ⟨-, v, hv, hfv, hconn⟩)
    · exact hall x hxn hfx
    · exact h.connected (hall v hv hfv) hconn
  · rintro ⟨L, hL, hx, hy⟩
    obtain ⟨v, -, -, -, hiff⟩ := h.component L hL
    exact ((hiff x).1 hx).symm.trans ((hiff y).1 hy)
  · intro hconn
    obtain ⟨L, hL, hx⟩ := mem_flatten.1 hx
    obtain ⟨v, -, -, -, hiff⟩ := h.component L hL
    exact ⟨L, hL, hx, (hiff y).2 (((hiff x).1 hx).trans hconn)⟩

/-- A leader with a virtual node, by a fast edge that leads to it, and a node that is no leader. -/
def oneVirtual : Fgraph 3 where
  edge _ := ⟨0, 2, 1, 1, 1, 1, none, none⟩
  next := 1
  out v := if v = 0 then [0] else []
  inn v := if v = 2 then [0] else []
  flatOut _ := []
  flatIn _ := []
  nodes := [0, 1]
  rankleader _ := none

/-- The state before a first call. -/
def oneVirtualState : State 3 where
  uf := ⟨Fin.val, fun v => if v = 1 then some 0 else none, fun _ => 1⟩
  mark _ := 0
  next _ := none
  prev _ := none
  nlist := none
  comp := []
  lastNode := none
  Cmark := 0
  stk := []

theorem decompose_spec_oneVirtual : ∃ s' comps, decompose oneVirtual 0 oneVirtualState = .ok s' ∧
    s'.comp = List.map List.head? comps := by
  have hg : oneVirtual.Wf :=
    { out_tail := by decide
      inn_head := by decide
      out_inn := fun e => by simp [oneVirtual]
      flatOut_tail := by decide
      flatIn_head := by decide
      flatOut_flatIn := fun e => by simp [oneVirtual] }
  have hf : Represents oneVirtualState.uf.parent fun v => if v = 1 then 0 else v := fun v => by
    dsimp only
    by_cases hv : v = 1
    · rw [if_pos hv]
      exact ⟨1, .step (b := 0) (by simp [oneVirtualState, hv]) (by simp [hv])
        (.root (.inl (by simp [oneVirtualState])))⟩
    · rw [if_neg hv]
      exact ⟨0, .root (.inl (by simp [oneVirtualState, hv]))⟩
  obtain ⟨s', comps, hs', hcomp, -⟩ := decompose_spec oneVirtual _ oneVirtualState hg hf
    (.init rfl fun _ => rfl) (by decide)
  exact ⟨s', comps, hs', hcomp⟩

end Graphviz.Components
