import Graphviz.Cgraph.Acyclic

/-!
# The result of `graphviz_acyclic`

The search from a node comes back to the stack it had, with the node finished, and leaves the loops
of the nodes on the stack where they were. So the loop over the nodes finishes them all, and then
every edge goes back in the order in which they were finished.
-/

namespace Graphviz.Acyclic

open Function List Nat Outcome Precedes Relation

variable {s s₀ : Store} {V₀ V : Views} {p : GPath} {k : ℕ} {st st' : State}
  {fin stack : List Agnode} {t n : Agnode} {c : Cdt} {E₀ E R : Set Agedge}
  {rev : Agedge → Agedge} {e f : Agedge}

/-! ## The search from a node -/

/-- The edge by which the search comes to a node from the top of the stack. -/
def Reached (E₀ : Set Agedge) (stack : List Agnode) (t : Agnode) : Prop :=
  ∀ u ∈ stack.head?, Arc E₀ u t

/-- What a part of the search returns: whether it has found a cycle, or the search before it had. -/
structure Found (E₀ : Set Agedge) (hasCycle : Bool) (E : Set Agedge) (hasCycle' : Bool)
    (E' : Set Agedge) : Prop where
  mono : hasCycle = true → hasCycle' = true
  cyclic : hasCycle' = true → hasCycle = true ∨ Cyclic E₀
  same : hasCycle' = false → E' = E

/-- The search has come back to the stack it had. -/
def Done (s₀ : Store) (V₀ : Views) (p : GPath) (k : ℕ) (st : State) (V : Views)
    (fin stack : List Agnode) (hasCycle : Bool) (now : List Agnode) (r : Bool × State) : Prop :=
  ∃ V' fs R' rev', Searching s₀ V₀ p k r.2 V' (fin ++ fs) stack R' rev' ∧
    Goes p st V r.2 V' (fin ++ fs ++ stack) stack ∧ now ⊆ fs ∧
    Found (V₀ p).edges hasCycle (V p).edges r.1 (V' p).edges

/-- A node goes on the stack. -/
theorem Searching.push (h : Searching s₀ V₀ p k st V fin stack R rev) (ht : t ∈ (V₀ p).nodes)
    (hnew : t ∉ fin ++ stack) (hreached : Reached (V₀ p).edges stack t) :
    Searching s₀ V₀ p k (st.setInfo t { mark := 1, onstack := true }) V fin (t :: stack) R rev where
  inv := h.inv
  keeps := h.keeps
  localNames := h.localNames
  imap := h.imap
  nodes := h.nodes
  nSeq := h.nSeq
  nodup := nodup_middle.2 (nodup_cons.2 ⟨hnew, h.nodup⟩)
  mem n hn := by
    obtain rfl | hn := mem_cons.1 (perm_middle.mem_iff.1 hn)
    · exact ht
    · exact h.mem n hn
  mark n hn := by
    rw [perm_middle.mem_iff, mem_cons]
    by_cases hnt : n = t
    · subst hnt
      simp [State.setInfo]
    · simp only [State.setInfo, update_of_ne hnt, hnt, false_or]
      exact h.mark n hn
  onstack n hn := by
    rw [mem_cons]
    by_cases hnt : n = t
    · subst hnt
      simp [State.setInfo]
    · simp only [State.setInfo, update_of_ne hnt, hnt, false_or]
      exact h.onstack n hn
  path := by
    cases stack with
    | nil => exact isChain_singleton t
    | cons u stack => exact isChain_cons_cons.2 ⟨hreached u rfl, h.path⟩
  closed e he htail hne := (h.closed e he htail hne).mono (List.Sublist.append_left
    (sublist_cons_self t stack) fin)
  new e he he₀ := (h.new e he he₀).mono (List.Sublist.append_left (sublist_cons_self t stack) fin)
  gone e he₀ he := (h.gone e he₀ he).mono (List.Sublist.append_left (sublist_cons_self t stack) fin)
  reversed := h.reversed
  num_rev := h.num_rev
  seqEdge := h.seqEdge

/-- The node on the top of the stack is finished: all its edges go back. -/
theorem Searching.pop (h : Searching s₀ V₀ p k st V fin (t :: stack) R rev)
    (hback : ∀ e ∈ (V p).edges, e.tail = t → e.tail ≠ e.head →
      Before (fin ++ t :: stack) e.head e.tail) :
    Searching s₀ V₀ p k (st.setInfo t { st.info t with onstack := false }) V (fin ++ [t]) stack R
      rev := by
  have happ : fin ++ [t] ++ stack = fin ++ t :: stack := by simp
  have htstack : t ∉ stack := (nodup_cons.1 (nodup_append'.1 h.nodup).2.1).1
  refine ⟨h.inv, h.keeps, h.localNames, h.imap, h.nodes, h.nSeq, ?_, ?_, fun n hn => ?_,
    fun n hn => ?_, h.path.tail, fun e he htail hne => ?_, ?_, ?_, h.reversed, h.num_rev,
    h.seqEdge⟩
  · rw [happ]; exact h.nodup
  · rw [happ]; exact h.mem
  · rw [happ, ← h.mark n hn]
    by_cases hnt : n = t
    · subst hnt
      simp [State.setInfo]
    · simp only [State.setInfo, update_of_ne hnt]
  · have hon := h.onstack n hn
    by_cases hnt : n = t
    · subst hnt
      simp [State.setInfo, htstack]
    · rw [mem_cons] at hon
      simp only [State.setInfo, update_of_ne hnt, hon, hnt, false_or]
  · rw [happ]
    obtain hfin | ht := mem_append.1 htail
    · exact h.closed e he hfin hne
    · exact hback e he (mem_singleton.1 ht) hne
  · rw [happ]; exact h.new
  · rw [happ]; exact h.gone

theorem Goes.refl (st : State) (V : Views) (order stack : List Agnode) :
    Goes p st V st V order stack := ⟨fun _ _ => .refl _, fun _ h h' => absurd h h'⟩

theorem Goes.trans {V' V'' : Views} {st'' : State} {order order' : List Agnode}
    (h : Goes p st V st' V' order stack) (h' : Goes p st' V' st'' V'' order' stack)
    (horder : order.Sublist order') : Goes p st V st'' V'' order' stack where
  out n hn := (h.out n hn).trans (h'.out n hn)
  added x hx hx' := by
    by_cases hxm : x ∈ (V' p).edges
    · exact (h.added x hxm hx').mono horder
    · exact h'.added x hx hxm

theorem Goes.tail {V' : Views} {order : List Agnode}
    (h : Goes p st V st' V' order (t :: stack)) : Goes p st V st' V' order stack :=
  ⟨fun n hn => h.out n (.tail _ hn), h.added⟩

/-- A path on the stack. -/
theorem transGen_of_path (hpath : (t :: stack).IsChain fun a b => Arc E₀ b a) (hn : n ∈ stack) :
    TransGen (Arc E₀) n t := by
  induction stack generalizing t with
  | nil => cases hn
  | cons u stack ih =>
    obtain ⟨hut, hpath⟩ := isChain_cons_cons.1 hpath
    obtain rfl | hn := mem_cons.1 hn
    · exact .single hut
    · exact (ih hpath hn).tail hut

section Search

variable (h₀ : s₀.Inv V₀) (hp : s₀.Live p) (hdir : s₀.desc.directed = true)
  (hnamed : Store.Named (V₀ p).edges)

include h₀ hp in
/-- There are as many edges as `agnedges` says. -/
theorem ncard_le_agnedges : (V₀ p).edges.Finite ∧ (V₀ p).edges.ncard ≤ agnedges (s₀.graphs p) := by
  classical
  set l := (s₀.graphs p).nSeq.flatMap (s₀.graphs p).outSeqOf with hl
  have hsub : (V₀ p).edges ⊆ (l.toFinset : Set Agedge) := fun e he => by
    have hn := (h₀.shows.ends p hp).tail e he
    rw [coe_toFinset]
    exact mem_flatMap.2 ⟨e.tail, (h₀.mem_nSeq hp).2 hn,
      ((h₀.isSet_outSeqOf hp hn).mem e).2 ⟨he, rfl⟩⟩
  refine ⟨l.toFinset.finite_toSet.subset hsub, ?_⟩
  calc (V₀ p).edges.ncard ≤ (l.toFinset : Set Agedge).ncard :=
        Set.ncard_le_ncard hsub l.toFinset.finite_toSet
    _ = l.toFinset.card := Set.ncard_coe_finset _
    _ ≤ l.length := l.toFinset_card_le
    _ = agnedges (s₀.graphs p) := by rw [hl, length_flatMap, agnedges]

include h₀ hp in
/-- A node has no more edges at any time than the graph has at first. -/
theorem Searching.length_out_le (h : Searching s₀ V₀ p k st V fin stack R rev)
    (hn : n ∈ (V₀ p).nodes) : ((st.store.graphs p).outSeqOf n).length ≤ agnedges (s₀.graphs p) := by
  classical
  obtain ⟨hfin, hle⟩ := ncard_le_agnedges h₀ hp
  obtain ⟨hE, hle'⟩ := h.reversed.ncard_le hfin
  have hset := h.inv.isSet_outSeqOf (h.keeps.live.2 hp) (h.nodes ▸ hn)
  rw [← toFinset_card_of_nodup hset.nodup, ← Set.ncard_coe_finset]
  refine (Set.ncard_le_ncard (fun e he => ?_) hE).trans (hle'.trans hle)
  rw [coe_toFinset] at he
  exact ((hset.mem e).1 he).1

include h₀ hp in
/-- There is room for a node that has not been visited. -/
theorem Searching.length_lt (h : Searching s₀ V₀ p k st V fin stack R rev) (hn : n ∈ (V₀ p).nodes)
    (hnew : n ∉ fin ++ stack) : (fin ++ stack).length < (s₀.graphs p).nSeq.length := by
  have hnodup : (n :: (fin ++ stack)).Nodup := nodup_cons.2 ⟨hnew, h.nodup⟩
  refine (hnodup.subperm fun m hm => ?_).length_le
  rw [h₀.mem_nSeq hp]
  obtain rfl | hm := mem_cons.1 hm
  · exact hn
  · exact h.mem m hm

/-- The loop has gone through the edges of the node on the top of the stack. -/
def LoopDone (s₀ : Store) (V₀ : Views) (p : GPath) (k : ℕ) (st : State) (V : Views)
    (fin : List Agnode) (t : Agnode) (stack : List Agnode) (hasCycle : Bool) (r : Bool × State) :
    Prop :=
  ∃ V' fs R' rev', Searching s₀ V₀ p k r.2 V' (fin ++ fs) (t :: stack) R' rev' ∧
    Goes p st V r.2 V' (fin ++ fs ++ t :: stack) stack ∧
    (∀ e ∈ (V' p).edges, e.tail = t → e.tail ≠ e.head →
      Before (fin ++ fs ++ t :: stack) e.head e.tail) ∧
    Found (V₀ p).edges hasCycle (V p).edges r.1 (V' p).edges

/-- The rest of the loop after a part that has visited nodes. -/
theorem LoopDone.after {V₁ : Views} {fs : List Agnode} {hasCycle hasCycle₁ : Bool}
    {r : Bool × State} (hgoes : Goes p st V st' V₁ (fin ++ fs ++ t :: stack) stack)
    (hfound : Found (V₀ p).edges hasCycle (V p).edges hasCycle₁ (V₁ p).edges)
    (h : LoopDone s₀ V₀ p k st' V₁ (fin ++ fs) t stack hasCycle₁ r) :
    LoopDone s₀ V₀ p k st V fin t stack hasCycle r := by
  obtain ⟨V', fs', R', rev', hsearch, hgoes', hback, hfound'⟩ := h
  rw [append_assoc fin] at hsearch hgoes' hback
  refine ⟨V', fs ++ fs', R', rev', hsearch, hgoes.trans hgoes' ?_, hback, ?_⟩
  · rw [← append_assoc fin]
    exact (sublist_append_left (fin ++ fs) fs').append (.refl _)
  · refine ⟨fun hc => hfound'.mono (hfound.mono hc), fun hc => ?_, fun hc => ?_⟩
    · obtain hc | hc := hfound'.cyclic hc
      · exact hfound.cyclic hc
      · exact .inr hc
    · have hc1 : hasCycle₁ = false := by
        cases hasCycle₁ with
        | false => rfl
        | true =>
          rw [hfound'.mono rfl] at hc
          cases hc
      rw [hfound'.same hc, hfound.same hc1]

theorem Found.or {E E' : Set Agedge} {hasCycle cycle : Bool}
    (h : Found E₀ hasCycle E cycle E') : Found E₀ hasCycle E (hasCycle || cycle) E' where
  mono hc := by rw [hc, Bool.true_or]
  cyclic hc := (Bool.or_eq_true_iff.1 hc).elim .inl h.cyclic
  same hc := h.same (Bool.or_eq_false_iff.1 hc).2

theorem Found.refl (E₀ : Set Agedge) (hasCycle : Bool) (E : Set Agedge) :
    Found E₀ hasCycle E hasCycle E := ⟨id, .inl, fun _ => rfl⟩

/-- What the visit of nodes takes off the fuel. -/
theorem budget_le {m a b l : ℕ} (hab : a < b) (hb : b ≤ m) :
    (m - b) * (l + 2) + l + 2 ≤ (m - a) * (l + 2) := by
  calc (m - b) * (l + 2) + l + 2 = (m - b + 1) * (l + 2) := by rw [succ_mul, add_assoc]
    _ ≤ (m - a) * (l + 2) := mul_le_mul_right _ (by omega)

/-- The fuel with which the search from a node returns. -/
def DfsSpec (c : Cdt) (s₀ : Store) (V₀ : Views) (p : GPath) (k fuel : ℕ) : Prop :=
  ∀ {st V fin stack R rev t} hasCycle, Searching s₀ V₀ p k st V fin stack R rev →
    t ∈ (V₀ p).nodes → t ∉ fin ++ stack → Reached (V₀ p).edges stack t →
    ((s₀.graphs p).nSeq.length - (fin ++ stack).length) * (agnedges (s₀.graphs p) + 2) ≤ fuel →
    Meets (dfs c p fuel t hasCycle st) (Done s₀ V₀ p k st V fin stack hasCycle [t])
      (Overflows s₀ (V₀ p).edges)

/-- The fuel with which the rest of the loop returns. -/
def LoopSpec (c : Cdt) (s₀ : Store) (V₀ : Views) (p : GPath) (k fuel : ℕ) : Prop :=
  ∀ {st V fin stack R rev t e done rest} hasCycle,
    Searching s₀ V₀ p k st V fin (t :: stack) R rev →
    Cursor st p t (fin ++ t :: stack) e done rest →
    ((s₀.graphs p).nSeq.length - (fin ++ t :: stack).length) * (agnedges (s₀.graphs p) + 2) +
      rest.length ≤ fuel →
    Meets (dfsFrom c p fuel t e hasCycle st) (LoopDone s₀ V₀ p k st V fin t stack hasCycle)
      (Overflows s₀ (V₀ p).edges)

/-- An edge that stays has been gone past. -/
theorem Cursor.next {order : List Agnode} {done rest : List Agedge} {e' : Option Agedge}
    (h : Cursor st p t order e' done (e :: rest))
    (hedge : e.tail ≠ e.head → Before order e.head e.tail) :
    Cursor st p t order rest.head? (done ++ [e]) rest := by
  refine ⟨by rw [h.out, append_cons], rfl, fun x hx => ?_⟩
  obtain hx | hx := mem_append.1 hx
  · exact h.back x hx
  · rw [mem_singleton.1 hx]
    exact hedge

/-- An edge that has gone leaves those before and after it. -/
theorem Cursor.wentBack {V' : Views} {R' : Set Agedge} {rev' : Agedge → Agedge}
    {done rest : List Agedge} {e' : Option Agedge}
    (h : Cursor st p t (fin ++ t :: stack) e' done (e :: rest)) (hnodup : (done ++ e :: rest).Nodup)
    (hwent : WentBack s₀ V₀ p k st V fin t stack e st' V' R' rev') :
    Cursor st' p t (fin ++ t :: stack) rest.head? done rest := by
  have hsub := hwent.out
  rw [h.out] at hsub
  have hnotMem : e ∉ (st'.store.graphs p).outSeqOf t := fun hmem => ((hwent.mem e).1 hmem).2 rfl
  obtain ⟨he, hnodup'⟩ := nodup_cons.1 (nodup_middle.1 hnodup)
  refine ⟨?_, rfl, h.back⟩
  refine (eq_of_sublist (sublist_of_notMem hsub hnotMem) hnodup' fun x hx => ?_).symm
  refine (hwent.mem x).2 ⟨?_, ?_⟩
  · rw [h.out, perm_middle.mem_iff]
    exact .tail e hx
  · rintro rfl
    exact he hx

include hp in
/-- After a visit of the head of an edge the loop is where it was: new edges before the next one are
edges back. -/
theorem Cursor.visited {V' : Views} {R' : Set Agedge} {rev' : Agedge → Agedge}
    {fs : List Agnode} {done rest : List Agedge} {e' : Option Agedge}
    (h : Searching s₀ V₀ p k st V fin (t :: stack) R rev)
    (hcur : Cursor st p t (fin ++ t :: stack) e' done (e :: rest))
    (hsearch : Searching s₀ V₀ p k st' V' (fin ++ fs) (t :: stack) R' rev')
    (hgoes : Goes p st V st' V' (fin ++ fs ++ t :: stack) (t :: stack)) (htail : e.tail = t)
    (hhead : e.head ∈ fs) :
    ∃ done' rest', Cursor st' p t (fin ++ fs ++ t :: stack) rest.head? done' rest' := by
  have ht : t ∈ (V₀ p).nodes := h.mem t (by simp)
  have hset := h.inv.isSet_outSeqOf (h.keeps.live.2 hp) (h.nodes ▸ ht)
  have hset' := hsearch.inv.isSet_outSeqOf (hsearch.keeps.live.2 hp) (hsearch.nodes ▸ ht)
  have hsub := hgoes.out t (.head _)
  rw [hcur.out, append_cons] at hsub
  obtain ⟨m1, m2, hm, hfirst, hleft⟩ := exists_split hsub hset'.nodup
  refine ⟨m1, m2, hm, hfirst.symm, fun x hx hne => ?_⟩
  obtain ⟨hxE', hxt⟩ := (hset'.mem x).1 (by rw [hm]; exact mem_append_left m2 hx)
  by_cases hxE : x ∈ (V p).edges
  · have hxout := (hset.mem x).2 ⟨hxE, hxt⟩
    rw [hcur.out, append_cons] at hxout
    obtain hxd | hxe := mem_append.1 (hleft x hx hxout)
    · exact (hcur.back x hxd hne).mono ((sublist_append_left fin fs).append (.refl _))
    · rw [mem_singleton.1 hxe, htail]
      exact before_append (mem_append_right fin hhead) (.head _)
  · exact hgoes.added x hxE' hxE

include hp in
/-- The loop ends after the last edge. -/
theorem Searching.loopDone {e : Option Agedge} {done : List Agedge}
    (h : Searching s₀ V₀ p k st V fin (t :: stack) R rev)
    (hcur : Cursor st p t (fin ++ t :: stack) e done []) (fuel : ℕ) (hasCycle : Bool) :
    Meets (dfsFrom c p fuel t e hasCycle st) (LoopDone s₀ V₀ p k st V fin t stack hasCycle)
      (Overflows s₀ (V₀ p).edges) := by
  have hrun : dfsFrom c p fuel t e hasCycle st = .ok (hasCycle, st) := by
    rw [hcur.head]
    cases fuel <;> rw [head?_nil, dfsFrom]
  have hfin : fin ++ [] = fin := append_nil fin
  rw [hrun]
  refine ⟨V, [], R, rev, hfin.symm ▸ h, .refl _ _ _ _, fun e he ht hne => ?_, .refl _ _ _⟩
  have ht' : t ∈ (V p).nodes := h.nodes ▸ h.mem t (by simp)
  have hout := ((h.inv.isSet_outSeqOf (h.keeps.live.2 hp) ht').mem e).2 ⟨he, ht⟩
  rw [hcur.out, append_nil] at hout
  rw [hfin]
  exact hcur.back e hout hne

/-- The rest of the loop after an edge. -/
theorem LoopDone.after_edge {V₁ : Views} {hasCycle hasCycle₁ : Bool} {r : Bool × State}
    (hgoes : Goes p st V st' V₁ (fin ++ t :: stack) stack)
    (hfound : Found (V₀ p).edges hasCycle (V p).edges hasCycle₁ (V₁ p).edges)
    (h : LoopDone s₀ V₀ p k st' V₁ fin t stack hasCycle₁ r) :
    LoopDone s₀ V₀ p k st V fin t stack hasCycle r := by
  rw [← append_nil fin] at hgoes h
  exact h.after hgoes hfound

include h₀ hp in
/-- The visit of a node has used up fuel. -/
theorem Searching.budget_lt {fs : List Agnode}
    (h : Searching s₀ V₀ p k st V (fin ++ fs) stack R rev) (hn : n ∈ fs) (l : ℕ) :
    ((s₀.graphs p).nSeq.length - (fin ++ fs ++ stack).length) * (l + 2) + l + 2 ≤
      ((s₀.graphs p).nSeq.length - (fin ++ stack).length) * (l + 2) := by
  have hpos := length_pos_of_mem hn
  refine budget_le ?_ ?_
  · simp only [length_append]
    omega
  · exact (h.nodup.subperm fun n hn => (h₀.mem_nSeq hp).2 (h.mem n hn)).length_le

include h₀ hp hdir hnamed in
/-- The loop goes on from an edge. -/
theorem LoopSpec.succ {fuel : ℕ} (hdfs : DfsSpec c s₀ V₀ p k fuel)
    (hloop : LoopSpec c s₀ V₀ p k fuel) : LoopSpec c s₀ V₀ p k (fuel + 1) := by
  obtain ⟨hE0, -⟩ := ncard_le_agnedges h₀ hp
  intro st V fin stack R rev t e done rest hasCycle h hcur hfuel
  cases rest with
  | nil => exact h.loopDone hp hcur _ _
  | cons e rest =>
    rw [length_cons] at hfuel
    have hlive := h.keeps.live.2 hp
    have ht : t ∈ (V₀ p).nodes := h.mem t (by simp)
    have hset := h.inv.isSet_outSeqOf hlive (h.nodes ▸ ht)
    obtain ⟨he, htail⟩ := (hset.mem e).1 (by rw [hcur.out]; simp)
    have hh : e.head ∈ (V₀ p).nodes := h.nodes ▸ (h.inv.shows.ends p hlive).head e he
    have hnodup : (done ++ e :: rest).Nodup := hcur.out ▸ hset.nodup
    have hnext : (st.store.graphs p).agnxtout e = rest.head? := by
      rw [Agraph.agnxtout, htail, hcur.out]
      exact nextOf_append hnodup
    rw [hcur.head, head?_cons, dfsFrom]
    dsimp only
    rw [hnext]
    split
    next heq => exact hloop hasCycle h (hcur.next fun hne => absurd heq hne) (by omega)
    next hne =>
      have harc : e ∈ (V₀ p).edges → Arc (V₀ p).edges t e.head := fun he0 =>
        ⟨fun heq => hne (htail.trans heq), e, he0, htail, rfl⟩
      split
      next hon =>
        have hhead : e.head ∈ stack := (mem_cons.1 ((h.onstack _ hh).1 hon)).resolve_left
          fun heq => hne (htail.trans heq.symm)
        have hcyclic : Cyclic (V₀ p).edges :=
          ⟨t, .head (harc (h.old he htail hhead)) (transGen_of_path h.path hhead)⟩
        refine (h.backEdge hp hE0 hdir hnamed he htail hhead).bind
          fun st' ⟨V', R', rev', hwent⟩ => ?_
        refine (hloop true hwent.searching (hcur.wentBack hnodup hwent) (by omega)).imp
          fun r hr => hr.after_edge hwent.goes ?_
        exact ⟨fun _ => rfl, fun _ => .inr hcyclic, nofun⟩
      next hoff =>
        split
        next hmark =>
          have hnew : e.head ∉ fin ++ t :: stack := (h.mark _ hh).1 hmark
          have hold : e ∈ (V₀ p).edges := by_contra fun he0 => hnew (h.new e he he0).mem_left
          refine (hdfs hasCycle h hh hnew ?_ (by omega)).bind
            fun r ⟨V', fs, R', rev', hsearch, hgoes, hfs, hfound⟩ => ?_
          · rintro u ⟨⟩
            exact harc hold
          · have hhfs : e.head ∈ fs := hfs (mem_singleton_self _)
            obtain ⟨done', rest', hcur'⟩ := hcur.visited hp h hsearch hgoes htail hhfs
            have hlen := hsearch.length_out_le h₀ hp ht
            have hbudget := hsearch.budget_lt h₀ hp hhfs (agnedges (s₀.graphs p))
            rw [hcur'.out, length_append] at hlen
            refine (hloop (hasCycle || r.1) hsearch hcur' (by omega)).imp
              fun r' hr' => hr'.after hgoes.tail ?_
            exact hfound.or
        next hmark =>
          refine hloop hasCycle h (hcur.next fun _ => ?_) (by omega)
          have hmem : e.head ∈ fin ++ t :: stack := by
            by_contra hnew
            exact hmark ((h.mark _ hh).2 hnew)
          rw [htail]
          refine before_append ((mem_append.1 hmem).resolve_right fun hmem => ?_) (.head _)
          exact hoff ((h.onstack _ hh).2 hmem)

include h₀ hp in
/-- The search from a node is the loop over its edges. -/
theorem DfsSpec.succ {fuel : ℕ} (hloop : LoopSpec c s₀ V₀ p k fuel) :
    DfsSpec c s₀ V₀ p k (fuel + 1) := by
  intro st V fin stack R rev t hasCycle h ht hnew hreached hfuel
  have hlt := h.length_lt h₀ hp ht hnew
  have hpush := h.push ht hnew hreached
  have hcur : Cursor (st.setInfo t { mark := 1, onstack := true }) p t (fin ++ t :: stack)
      ((st.store.graphs p).agfstout t) [] ((st.store.graphs p).outSeqOf t) :=
    ⟨rfl, rfl, nofun⟩
  have hbudget : ((s₀.graphs p).nSeq.length - (fin ++ t :: stack).length) *
      (agnedges (s₀.graphs p) + 2) + agnedges (s₀.graphs p) + 2 ≤ fuel + 1 := by
    refine le_trans (budget_le ?_ ?_) hfuel
    · simp
    · rw [perm_middle.length_eq]
      exact hlt
  have hlen : ((st.store.graphs p).outSeqOf t).length ≤ agnedges (s₀.graphs p) :=
    h.length_out_le h₀ hp ht
  rw [dfs]
  refine (hloop hasCycle hpush hcur (by omega)).bind
    fun r ⟨V', fs, R', rev', hsearch, hgoes, hback, hfound⟩ => ?_
  have happ : fin ++ (fs ++ [t]) ++ stack = fin ++ fs ++ t :: stack := by simp
  refine ⟨V', fs ++ [t], R', rev', ?_, ?_, by simp, hfound⟩
  · rw [← append_assoc]
    exact hsearch.pop hback
  · rw [happ]
    exact ⟨hgoes.out, hgoes.added⟩

include h₀ hp hdir hnamed in
/-- With enough fuel the search from a node returns, and so does the rest of its loop. -/
theorem search (c : Cdt) (k fuel : ℕ) : DfsSpec c s₀ V₀ p k fuel ∧ LoopSpec c s₀ V₀ p k fuel := by
  induction fuel with
  | succ fuel ih =>
    exact ⟨DfsSpec.succ h₀ hp ih.2, LoopSpec.succ h₀ hp hdir hnamed ih.1 ih.2⟩
  | zero =>
    constructor
    · intro st V fin stack R rev t hasCycle h ht hnew _ hfuel
      have hbudget := budget_le (l := agnedges (s₀.graphs p)) (lt_succ_self _)
        (h.length_lt h₀ hp ht hnew)
      omega
    · intro st V fin stack R rev t e done rest hasCycle h hcur hfuel
      cases rest with
      | nil => exact h.loopDone hp hcur _ _
      | cons e rest => rw [length_cons] at hfuel; omega

/-! ## The search of the graph -/

theorem Found.then {E E' : Set Agedge} {hasCycle cycle : Bool} (h : Found E₀ false E₀ hasCycle E)
    (h' : Found E₀ false E cycle E') : Found E₀ false E₀ (hasCycle || cycle) E' where
  mono := nofun
  cyclic hc := .inr <| (Bool.or_eq_true_iff.1 hc).elim
    (fun hc => (h.cyclic hc).resolve_left nofun) fun hc => (h'.cyclic hc).resolve_left nofun
  same hc := by
    obtain ⟨hc, hc'⟩ := Bool.or_eq_false_iff.1 hc
    rw [h'.same hc', h.same hc]

include h₀ hp hdir hnamed in
/-- The loop over the nodes finishes them all. -/
theorem acyclicFrom_spec (c : Cdt) {left : List Agnode} {j : ℕ} {has_cycle : Bool}
    (h : Searching s₀ V₀ p k st V fin [] R rev) {before : List Agnode}
    (hlist : (s₀.graphs p).nSeq = before ++ left) (hbefore : ∀ n ∈ before, n ∈ fin)
    (hfound : Found (V₀ p).edges false (V₀ p).edges has_cycle (V p).edges) (hj : left.length ≤ j) :
    Meets (acyclicFrom c p (fuel (s₀.graphs p)) j left.head? has_cycle st)
      (fun r => ∃ V' fin' R' rev', Searching s₀ V₀ p k r.2 V' fin' [] R' rev' ∧
        (∀ n ∈ (s₀.graphs p).nSeq, n ∈ fin') ∧
        Found (V₀ p).edges false (V₀ p).edges r.1 (V' p).edges) (Overflows s₀ (V₀ p).edges) := by
  induction left generalizing st V fin R rev before j has_cycle with
  | nil =>
    have hrun : acyclicFrom c p (fuel (s₀.graphs p)) j none has_cycle st = .ok (has_cycle, st) := by
      cases j <;> rfl
    rw [head?_nil, hrun]
    rw [append_nil] at hlist
    exact ⟨V, fin, R, rev, h, hlist ▸ hbefore, hfound⟩
  | cons n left ih =>
    obtain ⟨j, rfl⟩ : ∃ i, j = i + 1 := ⟨j - 1, by rw [length_cons] at hj; omega⟩
    have hn : n ∈ (V₀ p).nodes := (h₀.mem_nSeq hp).1 (by rw [hlist]; simp)
    have hnodup := (h₀.shows.rep p hp).nSeq.nodup
    have hlist' : (s₀.graphs p).nSeq = before ++ [n] ++ left := by rw [hlist, append_cons]
    have hnext : ∀ {st' : State}, (st'.store.graphs p).nSeq = (s₀.graphs p).nSeq →
        (st'.store.graphs p).agnxtnode n = left.head? := fun hsame => by
      rw [Agraph.agnxtnode, hsame, hlist]
      exact nextOf_append (hlist ▸ hnodup)
    have hj' : left.length ≤ j := by rw [length_cons] at hj; omega
    rw [head?_cons, acyclicFrom]
    split
    next hmark =>
      have hnew : n ∉ fin ++ [] := (h.mark n hn).1 hmark
      have hfuel : ((s₀.graphs p).nSeq.length - (fin ++ []).length) *
          (agnedges (s₀.graphs p) + 2) ≤ fuel (s₀.graphs p) :=
        mul_le_mul_right _ (sub_le _ _)
      refine ((search h₀ hp hdir hnamed c k _).1 false h hn hnew (fun u hu => by cases hu)
        hfuel).bind fun r ⟨V', fs, R', rev', hsearch, hgoes, hfs, hfound'⟩ => ?_
      dsimp only
      rw [hnext hsearch.nSeq]
      refine ih hsearch hlist' (fun m hm => ?_) (hfound.then hfound') hj'
      obtain hm | hm := mem_append.1 hm
      · exact mem_append_left fs (hbefore m hm)
      · exact mem_append_right fin (hfs hm)
    next hmark =>
      rw [hnext h.nSeq]
      refine ih h hlist' (fun m hm => ?_) hfound hj'
      obtain hm | hm := mem_append.1 hm
      · exact hbefore m hm
      · rw [mem_singleton.1 hm]
        by_contra hnew
        exact hmark ((h.mark n hn).2 (by rwa [append_nil]))

end Search

/-- The edges of a graph. -/
def edges (g : Agraph) : Set Agedge := {e | g.HasEdge e}

/-- What `graphviz_acyclic` makes of a graph. -/
structure MadeAcyclic (s : Store) (p : GPath) (num_rev : ℕ) (r : Bool × State) : Prop where
  nodes : (r.2.store.graphs p).nSeq = (s.graphs p).nSeq
  acyclic : ¬ Cyclic (edges (r.2.store.graphs p))
  result : r.1 = true ↔ Cyclic (edges (s.graphs p))
  reversed : ∃ R rev, Reversed s (edges (s.graphs p)) (edges (r.2.store.graphs p)) R rev ∧
    r.2.num_rev = num_rev + R.ncard
  adjacent : ∀ u v, Adjacent (edges (r.2.store.graphs p)) u v ↔ Adjacent (edges (s.graphs p)) u v

/-- The search begins with no node visited. -/
theorem Searching.init {info : Agnode → Option Agnodeinfo} (h : s.Inv V) (hp : s.Live p)
    (hlocal : s.LocalNames) (hinfo : ∀ n ∈ (s.graphs p).nSeq, info n = none) (num_rev : ℕ) :
    Searching s V p num_rev { store := s, info := aginit info, num_rev } V [] [] ∅ id where
  inv := h
  keeps := .refl s
  localNames := hlocal
  imap := .refl _
  nodes := rfl
  nSeq := rfl
  nodup := nodup_nil
  mem := nofun
  mark n hn := by simp [aginit, hinfo n ((h.mem_nSeq hp).2 hn)]
  onstack n hn := by simp [aginit, hinfo n ((h.mem_nSeq hp).2 hn)]
  path := isChain_nil
  closed := nofun
  new e he he₀ := absurd he he₀
  gone e he₀ he := absurd he₀ he
  reversed := .refl s _ id
  num_rev := by rw [Set.ncard_empty]; rfl
  seqEdge := le_add_right _ _

/-- The operations that make the nodes `a` and `b` and an edge between them, with a key. -/
def makeEdge : List StoreOp :=
  [.agnode [] (some [97]) true, .agnode [] (some [98]) true,
    .agedge [] nodeA nodeB (some [107]) true]

/-- The store that `makeEdge` leaves. -/
theorem run_makeEdge :
    ∃ s, Store.Run StoreOp.EndsIn (Store.agopen ⟨true, false, false⟩ none) makeEdge s ∧
      s.desc = ⟨true, false, false⟩ ∧ s.seqEdge = 1 ∧ (s.graphs []).nSeq = [nodeA, nodeB] :=
  ⟨_, .snoc [_, _] .first (.snoc [_] .first (.snoc [] .first .nil trivial trivial rfl)
    trivial trivial rfl) ⟨trivial, by decide, by decide⟩ (fun h => absurd rfl h) rfl, rfl, rfl, rfl⟩

/-- With an edge back there is a store with a cycle. -/
theorem run_makeCycle :
    ∃ s, Store.Run StoreOp.EndsIn (Store.agopen ⟨true, false, false⟩ none)
        (makeEdge ++ [.agedge [] nodeB nodeA none true]) s ∧ s.desc.directed = true := by
  obtain ⟨s, hs, hdesc, hseq, hnodes⟩ := run_makeEdge
  obtain ⟨V, hV⟩ := hs.inv
  have hdir : s.desc.directed = true := by rw [hdesc]
  have hstrict : s.desc.strict = false := by rw [hdesc]
  have hA : nodeA ∈ (s.graphs []).nSeq := by rw [hnodes]; decide
  have hB : nodeB ∈ (s.graphs []).nSeq := by rw [hnodes]; decide
  have hprobes : s.probes none true = false := by simp [Store.probes, Store.agmapnametoid, hstrict]
  have hmem : ∀ n, n ∈ (s.graphs []).nSeq → n ∈ (V []).nodes := fun n =>
    (hV.mem_nSeq (p := []) trivial).1
  obtain ⟨r, hr, f, -, -, -, hadded⟩ := ((hV.agedge_within (c := .first) (p := []) trivial hdir
    (hmem _ hB) (hmem _ hA) (by decide) (.inl rfl) (fun h => by rw [hprobes] at h; cases h)
    (fun h => by rw [hstrict] at h; cases h)).mono (fun _ => id) fun f hf => by
      rw [hseq] at hf
      exact absurd hf.2 (by decide)).exists_ok
  refine ⟨r.2, .snoc _ .first hs ⟨trivial, hB, hA⟩ (fun hold => absurd ?_ hold) ?_, ?_⟩
  · simp [Store.oldEdge, hprobes]
  · rw [Store.step, hr]
    rfl
  · rw [hadded.keeps.desc]
    exact hdir

end Graphviz.Acyclic
