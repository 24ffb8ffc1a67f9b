import Graphviz.Dotgen.FastGraph

/-!
# Breaking cycles (`dotgen/acyclic.c`)

`acyclic` visits every component depth first and reverses each edge that leads back to a node on
the stack of the search, while the search reads the very lists the reversals rewrite. A finished
node has only finished successors, and a reversal touches only nodes on the stack, so that from a
finished node every path ends. Sinks and sources of the graph stay sinks and sources.
-/

namespace Graphviz

open FastGraph Finset Function List Outcome RelGraph

variable {n : ℕ}

/-- What the search reads and writes: the fast graph, `ND_mark` and `ND_onstack`. -/
structure Search (n : ℕ) where
  fg : FastGraph n
  mark : Fin n → ℕ
  onstack : Fin n → Bool

/-- The loop of `dfs` at position `i` of the out list of `v`. -/
def dfsLoop (dfs : Fin n → Search n → Except Fault (Search n)) :
    ℕ → Fin n → ℕ → Search n → Except Fault (Search n)
  | 0, _, _, _ => .error .fuel
  | k + 1, v, i, s =>
    match (s.fg.out v)[i]? with
    | none => .ok s
    | some e =>
      let w := (s.fg.edge e).head
      if s.onstack w then do
        let fg ← s.fg.reverseEdge e
        -- `i--` and the `i++` of the loop
        dfsLoop dfs k v i { s with fg := fg }
      else do
        let s ← (if s.mark w = 0 then dfs w s else .ok s)
        dfsLoop dfs k v (i + 1) s

/-- `dfs`, to a depth of at most the first argument. -/
def dfs : ℕ → Fin n → Search n → Except Fault (Search n)
  | 0, _, _ => .error .fuel
  | d + 1, v, s =>
    if s.mark v ≠ 0 then .ok s
    else do
      let s ← dfsLoop (dfs d) (2 * n + 1) v 0
        { s with mark := update s.mark v 1, onstack := update s.onstack v true }
      .ok { s with onstack := update s.onstack v false }

/-- The body of the loop of `acyclic`, for one component. -/
def acyclicComp (s : Search n) (c : List (Fin n)) : Except Fault (Search n) :=
  c.foldlM (fun s v => dfs (n + 1) v s)
    { s with mark := c.foldl (fun m v => update m v 0) s.mark }

/-- `acyclic`. -/
def acyclic (comp : List (List (Fin n))) (s : Search n) : Except Fault (Search n) :=
  comp.foldlM acyclicComp s

/-! ## The invariant of the search -/

variable {C : Fin n → Prop} {s s' s'' : Search n} {v : Fin n}

/-- A node of the component that the search has left. -/
def Finished (C : Fin n → Prop) (s : Search n) (u : Fin n) : Prop :=
  C u ∧ s.mark u ≠ 0 ∧ s.onstack u = false

/-- The invariant of the search of the component `C`. -/
structure DfsInv (C : Fin n → Prop) (s : Search n) : Prop where
  wf : s.fg.Wf
  closed : ∀ {u w}, s.fg.Adj u w → (C u ↔ C w)
  stacked : ∀ {u}, s.onstack u = true → C u ∧ s.mark u ≠ 0
  fin_adj : ∀ {u w}, Finished C s u → s.fg.Adj u w → Finished C s w
  acc : ∀ {u}, Finished C s u → Acc (swap s.fg.Adj) u

/-- What the visit of `v`, or part of it, does to the state: marks stay, the lists of finished
nodes and of nodes elsewhere are as they were, the list of any other node on the stack only gains
edges to `v` and to finished nodes, and the graph changes by reversals that leave its sinks sinks
and its sources sources. -/
structure Frame (C : Fin n → Prop) (v : Fin n) (s s' : Search n) : Prop where
  onstack : s'.onstack = s.onstack
  mark : ∀ {u}, s.mark u ≠ 0 → s'.mark u ≠ 0
  mark_le : ∀ {k}, (∀ u, s.mark u ≤ k + 1) → ∀ u, s'.mark u ≤ k + 1
  outside : ∀ {u}, ¬ C u → s'.fg.out u = s.fg.out u
  done : ∀ {u}, Finished C s u → s'.fg.out u = s.fg.out u
  grow : ∀ {u}, s.onstack u = true → u ≠ v → ∃ ext, s'.fg.out u = s.fg.out u ++ ext ∧
    ∀ e ∈ ext, (s'.fg.edge e).head = v ∨ Finished C s' (s'.fg.edge e).head
  head : ∀ {e}, e < s.fg.next → (s'.fg.edge e).head = (s.fg.edge e).head
  next : s.fg.next ≤ s'.fg.next
  sym : ∀ {u w}, s'.fg.Adj u w ∨ s'.fg.Adj w u ↔ s.fg.Adj u w ∨ s.fg.Adj w u
  sink : ∀ {m}, Sink s.fg.Adj m → (s.onstack m = true → m = v) → Sink s'.fg.Adj m
  source : ∀ {m}, Source s.fg.Adj m → (m = v → ∀ u, s.onstack u = true → u = v) →
    Source s'.fg.Adj m

namespace Frame

/-- Nothing changes. -/
theorem rfl (C : Fin n → Prop) (v : Fin n) (s : Search n) : Frame C v s s :=
  ⟨.refl _, id, id, fun _ => .refl _, fun _ => .refl _, fun _ _ => ⟨[], by simp⟩, fun _ => .refl _,
    le_rfl, Iff.rfl, fun h _ => h, fun h _ => h⟩

/-- Finished nodes stay finished. -/
theorem finished (h : Frame C v s s') {u : Fin n} (hu : Finished C s u) : Finished C s' u :=
  ⟨hu.1, h.mark hu.2.1, by rw [h.onstack]; exact hu.2.2⟩

/-- One part of a visit after another. -/
theorem trans (h : Frame C v s s') (h' : Frame C v s' s'') (hwf : s'.fg.Wf) :
    Frame C v s s'' where
  onstack := h'.onstack.trans h.onstack
  mark hu := h'.mark (h.mark hu)
  mark_le hk := h'.mark_le (h.mark_le hk)
  outside hu := (h'.outside hu).trans (h.outside hu)
  done hu := (h'.done (h.finished hu)).trans (h.done hu)
  grow := by
    intro u hu huv
    obtain ⟨x, hx, hxh⟩ := h.grow hu huv
    obtain ⟨y, hy, hyh⟩ := h'.grow (by rw [h.onstack]; exact hu) huv
    refine ⟨x ++ y, by rw [hy, hx, append_assoc], fun e he => ?_⟩
    obtain he | he := mem_append.1 he
    · have hlt : e < s'.fg.next := hwf.fresh (v := u) (by rw [hx]; exact mem_append_right _ he)
      rw [h'.head hlt]
      exact (hxh e he).imp id h'.finished
    · exact hyh e he
  head he := (h'.head (he.trans_le h.next)).trans (h.head he)
  next := h.next.trans h'.next
  sym := h'.sym.trans h.sym
  sink hm hv := h'.sink (h.sink hm hv) (by rw [h.onstack]; exact hv)
  source hm hv := h'.source (h.source hm hv) (by rw [h.onstack]; exact hv)

/-- The visit of a successor, as a part of the visit of `v`. -/
theorem lift (h : Frame C v s s') {p : Fin n} (hadj : s.fg.Adj p v) (hv : s.onstack v = false)
    (hC : C v) (hmark : s'.mark v ≠ 0) : Frame C p s s' where
  onstack := h.onstack
  mark := h.mark
  mark_le := h.mark_le
  outside := h.outside
  done := h.done
  grow := by
    intro u hu _
    have huv : u ≠ v := by rintro rfl; rw [hu] at hv; cases hv
    obtain ⟨x, hx, hxh⟩ := h.grow hu huv
    refine ⟨x, hx, fun e he => .inr ?_⟩
    obtain heq | hfin := hxh e he
    · rw [heq]
      exact ⟨hC, hmark, by rw [h.onstack]; exact hv⟩
    · exact hfin
  head := h.head
  next := h.next
  sym := h.sym
  sink := by
    intro m hm hp
    refine h.sink hm fun hon => ?_
    rw [hp hon] at hm
    exact absurd hadj (hm v)
  source := by
    intro m hm _
    refine h.source hm fun hmv => ?_
    rw [hmv] at hm
    exact absurd hadj (hm p)

end Frame

/-- A set closed under the edges of a graph is closed after reversals. -/
theorem closed_of_sym {f f' : FastGraph n}
    (hsym : ∀ {u w}, f'.Adj u w ∨ f'.Adj w u ↔ f.Adj u w ∨ f.Adj w u)
    (hC : ∀ {u w}, f.Adj u w → (C u ↔ C w)) {u w : Fin n} (h : f'.Adj u w) : C u ↔ C w := by
  obtain h | h := hsym.1 (.inl h)
  · exact hC h
  · exact (hC h).symm

/-! ## One reversal -/

/-- Reversing an edge from `v` to a node on the stack keeps the invariant and is a part of the
visit of `v`. -/
theorem DfsInv.reverse (h : DfsInv C s) (hv : s.onstack v = true) {e : ℕ} (he : e ∈ s.fg.out v)
    (hw : s.onstack (s.fg.edge e).head = true) {g' : FastGraph n} (hwf : g'.Wf)
    (hr : Reversed s.fg e g') : DfsInv C { s with fg := g' } ∧ Frame C v s { s with fg := g' } := by
  obtain rfl := h.wf.out_tail he
  have hadj : s.fg.Adj (s.fg.edge e).tail (s.fg.edge e).head := ⟨e, he, rfl⟩
  have hne := h.wf.adj_ne hadj
  have hsym : ∀ {u w}, g'.Adj u w ∨ g'.Adj w u ↔ s.fg.Adj u w ∨ s.fg.Adj w u := by
    intro u w
    rw [hr.adj, hr.adj]
    constructor
    · rintro ((⟨h, _⟩ | ⟨rfl, rfl⟩) | (⟨h, _⟩ | ⟨rfl, rfl⟩))
      · exact .inl h
      · exact .inr hadj
      · exact .inr h
      · exact .inl hadj
    · intro h
      by_cases h1 : u = (s.fg.edge e).tail ∧ w = (s.fg.edge e).head
      · exact .inr (.inr ⟨h1.2, h1.1⟩)
      · by_cases h2 : w = (s.fg.edge e).tail ∧ u = (s.fg.edge e).head
        · exact .inl (.inr ⟨h2.2, h2.1⟩)
        · exact h.imp (fun h => .inl ⟨h, h1⟩) fun h => .inl ⟨h, h2⟩
  -- a node off the stack is neither end of the edge
  have hoff : ∀ {u}, Finished C s u → u ≠ (s.fg.edge e).tail ∧ u ≠ (s.fg.edge e).head := by
    intro u hu
    constructor
    · rintro rfl; rw [hu.2.2] at hv; cases hv
    · rintro rfl; rw [hu.2.2] at hw; cases hw
  have hold : ∀ {u w}, Finished C s u → g'.Adj u w → s.fg.Adj u w := by
    intro u w hu huw
    obtain huw | ⟨rfl, _⟩ := hr.adj.1 huw
    · exact huw.1
    · exact absurd rfl (hoff hu).2
  refine ⟨⟨hwf, fun huw => closed_of_sym hsym h.closed huw, h.stacked,
    fun hu huw => h.fin_adj hu (hold hu huw), fun hu => ?_⟩, ⟨rfl, id, id, ?_, ?_, ?_, hr.head, hr.next,
    hsym, ?_, ?_⟩⟩
  · exact Acc.congr_closed (S := Finished C s) (fun _ _ hx => h.fin_adj hx)
      (fun _ _ hx => hold hx) hu (h.acc hu)
  · intro u hu
    refine hr.out_other ?_ ?_
    · rintro rfl; exact hu (h.stacked hv).1
    · rintro rfl; exact hu (h.stacked hw).1
  · exact fun hu => hr.out_other (hoff hu).1 (hoff hu).2
  · intro u _ huv
    by_cases huw : u = (s.fg.edge e).head
    · subst huw
      obtain ⟨x, hx, hxh⟩ := hr.out_head
      exact ⟨x, hx, fun f hf => .inl (hxh f hf)⟩
    · exact ⟨[], by rw [append_nil]; exact hr.out_other huv huw, by simp⟩
  · intro m hm hon b hb
    obtain hb | ⟨rfl, _⟩ := hr.adj.1 hb
    · exact hm b hb.1
    · exact hne (hon hw).symm
  · intro m hm hon b hb
    obtain hb | ⟨_, rfl⟩ := hr.adj.1 hb
    · exact hm b hb.1
    · exact hne (hon rfl _ hw).symm

/-! ## The visit of a node -/

/-- The nodes without a mark. -/
def unmarked (s : Search n) : ℕ :=
  (univ.filter fun u => s.mark u = 0).card

/-- The successors of `v` on the stack. -/
def pending (s : Search n) (v : Fin n) : Finset (Fin n) :=
  univ.filter fun w => s.fg.Adj v w ∧ s.onstack w = true

theorem mem_pending {w : Fin n} : w ∈ pending s v ↔ s.fg.Adj v w ∧ s.onstack w = true := by
  simp [pending]

/-- A visit marks nodes and unmarks none. -/
theorem Frame.unmarked_le (h : Frame C v s s') : unmarked s' ≤ unmarked s := by
  refine card_le_card fun u hu => ?_
  simp only [Finset.mem_filter, mem_univ, true_and] at hu ⊢
  by_contra hne
  exact h.mark hne hu

/-- The loop of `dfs`: what a visit of a successor does, the visit of the rest of the list does. -/
theorem dfsLoop_spec {d : ℕ} {r : Fin n → Search n → Except Fault (Search n)}
    (hrec : ∀ {s w}, DfsInv C s → C w → unmarked s < d →
      Meets (r w s) (fun s' => DfsInv C s' ∧ Frame C w s s' ∧ s'.mark w ≠ 0) fun _ => False)
    {k : ℕ} {a b : List ℕ} (h : DfsInv C s) (hv : s.onstack v = true)
    (hout : s.fg.out v = a ++ b) (ha : ∀ e ∈ a, Finished C s (s.fg.edge e).head)
    (hk : n - a.length + (pending s v).card < k) (hd : unmarked s < d) :
    Meets (dfsLoop r k v a.length s)
      (fun s' => DfsInv C s' ∧ Frame C v s s' ∧ ∀ w, s'.fg.Adj v w → Finished C s' w)
      fun _ => False := by
  induction k generalizing s a b with
  | zero => omega
  | succ k ih =>
    unfold dfsLoop
    cases b with
    | nil =>
      rw [hout, append_nil, getElem?_eq_none le_rfl]
      refine ⟨h, .rfl C v s, ?_⟩
      rintro w ⟨e, he, rfl⟩
      rw [hout, append_nil] at he
      exact ha e he
    | cons e b =>
      have he : e ∈ s.fg.out v := by rw [hout]; simp
      have hadj : s.fg.Adj v (s.fg.edge e).head := ⟨e, he, rfl⟩
      have hlen : a.length < n := by
        have := h.wf.out_length v
        rw [hout] at this
        simp at this
        omega
      rw [hout, getElem?_append_right le_rfl, Nat.sub_self, getElem?_cons_zero]
      simp only
      split
      next hw =>
        refine (reverseEdge_spec h.wf (h.wf.listed he)).bind fun g' ⟨hwf, hr⟩ => ?_
        obtain ⟨h', hf⟩ := h.reverse hv he hw hwf hr
        have hnd : e ∉ a := by
          have := h.wf.out_nodup v
          rw [hout, nodup_append] at this
          exact fun hea => this.2.2 e hea e mem_cons_self rfl
        obtain ⟨b', _, hb'⟩ := zapinlist_append (b := b) hnd
        have hout' : g'.out v = a ++ b' := by
          have := hr.out_tail
          rw [h.wf.out_tail he, hout, hb'] at this
          exact this
        have hlt : ∀ f ∈ a, f < s.fg.next := fun f hf =>
          h.wf.fresh (v := v) (by rw [hout]; exact mem_append_left _ hf)
        have hpend : pending { s with fg := g' } v ⊂ pending s v := by
          refine Finset.ssubset_iff_subset_ne.2 ⟨fun w hw' => ?_, fun heq => ?_⟩
          · obtain ⟨hvw, hon⟩ := mem_pending.1 hw'
            obtain hvw | ⟨hvw, _⟩ := hr.adj.1 hvw
            · exact mem_pending.2 ⟨hvw.1, hon⟩
            · exact absurd hvw (h.wf.adj_ne hadj)
          · have hmem : (s.fg.edge e).head ∈ pending s v := mem_pending.2 ⟨hadj, hw⟩
            rw [← heq] at hmem
            obtain hvw | ⟨hvw, _⟩ := hr.adj.1 (mem_pending.1 hmem).1
            · exact hvw.2 ⟨(h.wf.out_tail he).symm, rfl⟩
            · exact h.wf.adj_ne hadj hvw
        have hcard := card_lt_card hpend
        refine (ih (a := a) (b := b') h' hv hout' (fun f hf' => ?_) (by omega) hd).imp
          fun s'' ⟨h'', hf', hfin⟩ => ⟨h'', hf.trans hf' h'.wf, hfin⟩
        show Finished C s (g'.edge f).head
        rw [hr.head (hlt f hf')]
        exact ha f hf'
      next hw =>
        have hwoff : s.onstack (s.fg.edge e).head = false := by simpa using hw
        have hCw : C (s.fg.edge e).head := (h.closed hadj).1 (h.stacked hv).1
        have hvisit : Meets (if s.mark (s.fg.edge e).head = 0 then r (s.fg.edge e).head s else .ok s)
            (fun s' => DfsInv C s' ∧ Frame C (s.fg.edge e).head s s' ∧
              s'.mark (s.fg.edge e).head ≠ 0) fun _ => False := by
          split
          next => exact hrec h hCw hd
          next hm => exact ⟨h, .rfl C _ s, hm⟩
        refine hvisit.bind fun s' ⟨h', hf, hm⟩ => ?_
        have hvw : v ≠ (s.fg.edge e).head := h.wf.adj_ne hadj
        obtain ⟨ext, hext, hexth⟩ := hf.grow hv hvw
        have hwfin : Finished C s' (s.fg.edge e).head :=
          ⟨hCw, hm, by rw [hf.onstack]; exact hwoff⟩
        have hold : ∀ f ∈ s.fg.out v, (s'.fg.edge f).head = (s.fg.edge f).head :=
          fun f hf' => hf.head (h.wf.fresh hf')
        have hout' : s'.fg.out v = (a ++ [e]) ++ (b ++ ext) := by
          rw [hext, hout]; simp
        have hpend : pending s' v ⊆ pending s v := by
          intro x hx
          obtain ⟨⟨f, hf', rfl⟩, hon⟩ := mem_pending.1 hx
          rw [hext] at hf'
          obtain hf' | hf' := mem_append.1 hf'
          · rw [hold f hf', hf.onstack] at hon
            rw [hold f hf']
            exact mem_pending.2 ⟨⟨f, hf', rfl⟩, hon⟩
          · obtain heq | hfin := hexth f hf'
            · rw [heq, hwfin.2.2] at hon; cases hon
            · rw [hfin.2.2] at hon; cases hon
        have hcard := card_le_card hpend
        have hlift : Frame C v s s' := hf.lift hadj hwoff hCw hm
        have hstep := ih (a := a ++ [e]) (b := b ++ ext) h' (by rw [hf.onstack]; exact hv) hout'
          (fun f hf' => ?_) (by rw [length_append, length_singleton]; omega)
          (hf.unmarked_le.trans_lt hd)
        · rw [length_append, length_singleton] at hstep
          exact hstep.imp fun s'' ⟨h'', hf', hfin⟩ => ⟨h'', hlift.trans hf' h'.wf, hfin⟩
        · obtain hf' | hf' := mem_append.1 hf'
          · rw [hold f (by rw [hout]; exact mem_append_left _ hf')]
            exact hf.finished (ha f hf')
          · rw [Finset.mem_singleton.1 hf', hold e he]
            exact hwfin

/-- `dfs` finishes its node. -/
theorem dfs_spec {d : ℕ} (h : DfsInv C s) (hv : C v) (hd : unmarked s < d) :
    Meets (dfs d v s) (fun s' => DfsInv C s' ∧ Frame C v s s' ∧ s'.mark v ≠ 0) fun _ => False := by
  induction d generalizing s v with
  | zero => omega
  | succ d ih =>
    unfold dfs
    split
    next hm => exact ⟨h, .rfl C v s, hm⟩
    next hm =>
      have hm0 : s.mark v = 0 := by simpa using hm
      have hoff : s.onstack v = false := by
        by_contra hon
        exact hm (h.stacked (by simpa using hon)).2
      -- while `v` is on the stack the finished nodes are those finished before
      have hfin : ∀ {u}, Finished C { s with
          mark := update s.mark v 1, onstack := update s.onstack v true } u ↔ Finished C s u := by
        intro u
        by_cases huv : u = v
        · subst huv; simp [Finished, hm0]
        · simp [Finished, huv]
      have h1 : DfsInv C { s with
          mark := update s.mark v 1, onstack := update s.onstack v true } := by
        refine ⟨h.wf, h.closed, @fun u hu => ?_, fun hu huw => hfin.2 (h.fin_adj (hfin.1 hu) huw),
          fun hu => h.acc (hfin.1 hu)⟩
        by_cases huv : u = v
        · subst huv; exact ⟨hv, by simp⟩
        · simp only [update_of_ne huv] at hu ⊢
          exact h.stacked hu
      have hlt : unmarked { s with
          mark := update s.mark v 1, onstack := update s.onstack v true } < unmarked s := by
        refine card_lt_card (Finset.ssubset_iff_subset_ne.2 ⟨fun u hu => ?_, fun heq => ?_⟩)
        · simp only [Finset.mem_filter, mem_univ, true_and] at hu ⊢
          by_cases huv : u = v
          · rw [huv]; exact hm0
          · rwa [update_of_ne huv] at hu
        · have hmem : v ∈ univ.filter fun u => s.mark u = 0 := by simp [hm0]
          rw [← heq] at hmem
          simp at hmem
      have hpc : (pending { s with
          mark := update s.mark v 1, onstack := update s.onstack v true } v).card ≤ n := by
        simpa using card_le_univ (pending { s with
          mark := update s.mark v 1, onstack := update s.onstack v true } v)
      have hloop := dfsLoop_spec (C := C) (v := v) (r := dfs d) (a := []) (b := s.fg.out v)
        (k := 2 * n + 1) (fun h hw hd => ih h hw hd) h1 (update_self ..) rfl
        (by simp) (by simp only [length_nil]; omega) (by omega)
      refine hloop.bind fun s' ⟨h', hf, hadj⟩ => ?_
      have hon : s'.onstack = update s.onstack v true := hf.onstack
      have honv : s'.onstack v = true := by rw [hon, update_self]
      have hfin' : ∀ {u}, Finished C { s' with onstack := update s'.onstack v false } u ↔
          Finished C s' u ∨ u = v := by
        intro u
        by_cases huv : u = v
        · subst huv
          simp only [Finished, update_self, and_true, or_true, iff_true]
          exact ⟨hv, (h'.stacked honv).2⟩
        · simp [Finished, huv]
      refine ⟨⟨h'.wf, h'.closed, @fun u hu => ?_, @fun u w hu huw => ?_, @fun u hu => ?_⟩, ?_,
        (h'.stacked honv).2⟩
      · by_cases huv : u = v
        · subst huv; simp at hu
        · simp only [update_of_ne huv] at hu
          exact h'.stacked hu
      · refine hfin'.2 (.inl ?_)
        obtain hu | rfl := hfin'.1 hu
        · exact h'.fin_adj hu huw
        · exact hadj w huw
      · obtain hu | rfl := hfin'.1 hu
        · exact h'.acc hu
        · exact Acc.intro _ fun w hw => h'.acc (hadj w hw)
      · have hback : update s'.onstack v false = s.onstack := by
          rw [hon]
          funext u
          by_cases huv : u = v
          · subst huv; simp [hoff]
          · simp [huv]
        refine ⟨hback, fun {u} hu => hf.mark ?_, fun {k} hk => hf.mark_le fun u => ?_, hf.outside,
          fun hu => hf.done (hfin.2 hu), ?_,
          hf.head, hf.next, hf.sym, ?_, ?_⟩
        · show update s.mark v 1 u ≠ 0
          by_cases huv : u = v
          · subst huv; simp
          · rw [update_of_ne huv]; exact hu
        · show update s.mark v 1 u ≤ k + 1
          by_cases huv : u = v
          · subst huv; simp
          · rw [update_of_ne huv]; exact hk u
        · intro u hu huv
          obtain ⟨x, hx, hxh⟩ := hf.grow (u := u) (by
            show update s.onstack v true u = true
            rw [update_of_ne huv]; exact hu) huv
          exact ⟨x, hx, fun e he => (hxh e he).imp id fun hfin => hfin'.2 (.inl hfin)⟩
        · intro m hm hon
          refine hf.sink hm fun hon' => ?_
          by_contra hmv
          simp only [update_of_ne hmv] at hon'
          exact hmv (hon hon')
        · intro m hm hon
          refine hf.source hm fun hmv u hu => ?_
          by_contra huv
          simp only [update_of_ne huv] at hu
          exact huv (hon hmv u hu)

/-! ## The components -/

/-- Reversals have been made: the nodes are joined as before, sinks and sources are kept, and
from every vertex from which the paths ended they end still. -/
structure Reoriented (s s' : Search n) : Prop where
  wf : s'.fg.Wf
  idle : ∀ u, s'.onstack u = false
  mark_le : ∀ {k}, (∀ u, s.mark u ≤ k + 1) → ∀ u, s'.mark u ≤ k + 1
  sym : ∀ {u w}, s'.fg.Adj u w ∨ s'.fg.Adj w u ↔ s.fg.Adj u w ∨ s.fg.Adj w u
  sink : ∀ {m}, Sink s.fg.Adj m → Sink s'.fg.Adj m
  source : ∀ {m}, Source s.fg.Adj m → Source s'.fg.Adj m
  acc : ∀ {u}, Acc (swap s.fg.Adj) u → Acc (swap s'.fg.Adj) u

/-- One round of reversals after another. -/
theorem Reoriented.trans (h : Reoriented s s') (h' : Reoriented s' s'') : Reoriented s s'' :=
  ⟨h'.wf, h'.idle, fun hk => h'.mark_le (h.mark_le hk), h'.sym.trans h.sym,
    fun hm => h'.sink (h.sink hm),
    fun hm => h'.source (h.source hm), fun hu => h'.acc (h.acc hu)⟩

/-- The marks of a component are cleared. -/
theorem foldl_update_zero {c : List (Fin n)} {m : Fin n → ℕ} {u : Fin n} :
    c.foldl (fun m v => update m v 0) m u = if u ∈ c then 0 else m u := by
  induction c generalizing m with
  | nil => simp
  | cons x c ih =>
    rw [foldl_cons, ih]
    by_cases hux : u = x
    · subst hux; simp
    · simp [hux]

/-- `acyclic` on one component: from its nodes all paths end. -/
theorem acyclicComp_spec (hwf : s.fg.Wf) (hidle : ∀ u, s.onstack u = false) {c : List (Fin n)}
    (hc : ∀ {u w}, s.fg.Adj u w → (u ∈ c ↔ w ∈ c)) :
    Meets (acyclicComp s c) (fun s' => Reoriented s s' ∧ ∀ u ∈ c, Acc (swap s'.fg.Adj) u)
      fun _ => False := by
  let I : List (Fin n) → Search n → Prop := fun rest s' =>
    DfsInv (· ∈ c) s' ∧ (∀ u, s'.onstack u = false) ∧
    (∀ {k}, (∀ u, s.mark u ≤ k + 1) → ∀ u, s'.mark u ≤ k + 1) ∧
    (∀ {u w}, s'.fg.Adj u w ∨ s'.fg.Adj w u ↔ s.fg.Adj u w ∨ s.fg.Adj w u) ∧
    (∀ {m}, Sink s.fg.Adj m → Sink s'.fg.Adj m) ∧
    (∀ {m}, Source s.fg.Adj m → Source s'.fg.Adj m) ∧
    (∀ {u w}, u ∉ c → (s'.fg.Adj u w ↔ s.fg.Adj u w)) ∧
    (∀ u ∈ rest, u ∈ c) ∧ ∀ u ∈ c, u ∈ rest ∨ s'.mark u ≠ 0
  have hstart : I c { s with mark := c.foldl (fun m v => update m v 0) s.mark } := by
    have hnone : ∀ {u}, ¬ Finished (· ∈ c)
        { s with mark := c.foldl (fun m v => update m v 0) s.mark } u := by
      rintro u ⟨hu, hm, _⟩
      exact hm (by simp only; rw [foldl_update_zero, if_pos hu])
    refine ⟨⟨hwf, hc, fun {u} hu => ?_, fun hu => absurd hu hnone, fun hu => absurd hu hnone⟩,
      hidle, fun {k} hk u => ?_, Iff.rfl, id, id, fun _ => Iff.rfl, fun _ => id, fun _ => .inl⟩
    · have := hidle u
      simp_all
    · simp only
      rw [foldl_update_zero]
      split
      · exact Nat.zero_le _
      · exact hk u
  refine (Meets.foldlM I ?_ _ hstart).imp ?_
  · rintro v rest s1 ⟨h, hoff, hle, hsym, hsink, hsource, hout, hrest, hmark⟩
    have hcard : unmarked s1 < n + 1 := by
      have := card_le_univ (univ.filter fun u => s1.mark u = 0)
      rw [Fintype.card_fin] at this
      exact Nat.lt_succ_of_le this
    refine (dfs_spec h (hrest v mem_cons_self) hcard).imp fun s2 h2 => ?_
    obtain ⟨h2, hf, hm⟩ := h2
    have hno : ∀ {u}, ¬ s1.onstack u = true := fun {u} hu => by rw [hoff u] at hu; cases hu
    refine ⟨h2, fun u => by rw [hf.onstack]; exact hoff u, fun hk => hf.mark_le (hle hk),
      hf.sym.trans hsym,
      fun hs => hf.sink (hsink hs) fun hu => absurd hu hno,
      fun hs => hf.source (hsource hs) fun _ _ hu => absurd hu hno, fun {u w} hu => ?_,
      fun u hu => hrest u (mem_cons_of_mem _ hu), fun u hu => ?_⟩
    · rw [← hout hu]
      simp only [Adj, hf.outside hu]
      exact exists_congr fun e => and_congr_right fun he => by rw [hf.head (h.wf.fresh he)]
    · obtain hmem | hmu := hmark u hu
      · obtain rfl | hmem := mem_cons.1 hmem
        · exact .inr hm
        · exact .inl hmem
      · exact .inr (hf.mark hmu)
  · rintro s1 ⟨h, hoff, hle, hsym, hsink, hsource, hout, -, hmark⟩
    have hacc : ∀ u ∈ c, Acc (swap s1.fg.Adj) u := fun u hu =>
      h.acc ⟨hu, (hmark u hu).resolve_left not_mem_nil, hoff u⟩
    refine ⟨⟨h.wf, hoff, hle, hsym, hsink, hsource, fun {u} hu => ?_⟩, hacc⟩
    by_cases huc : u ∈ c
    · exact hacc u huc
    · exact Acc.congr_closed (S := (· ∉ c)) (fun x y hx hxy hy => hx ((hc hxy).2 hy))
        (fun x y hx hxy => (hout hx).1 hxy) huc hu

/-- `acyclic`: from the nodes of every component all paths end. -/
theorem acyclic_spec (hwf : s.fg.Wf) (hidle : ∀ u, s.onstack u = false) {c : List (List (Fin n))}
    (hc : ∀ x ∈ c, ∀ {u w}, s.fg.Adj u w → (u ∈ x ↔ w ∈ x)) :
    Meets (acyclic c s) (fun s' => Reoriented s s' ∧ ∀ x ∈ c, ∀ u ∈ x, Acc (swap s'.fg.Adj) u)
      fun _ => False := by
  let I : List (List (Fin n)) → Search n → Prop := fun rest s' =>
    Reoriented s s' ∧ (∀ x ∈ rest, x ∈ c) ∧
    ∀ x ∈ c, x ∈ rest ∨ ∀ u ∈ x, Acc (swap s'.fg.Adj) u
  have hstart : I c s := ⟨⟨hwf, hidle, id, Iff.rfl, id, id, id⟩, fun _ => id, fun _ => .inl⟩
  refine (Meets.foldlM I ?_ s hstart).imp ?_
  · rintro x rest s1 ⟨h, hrest, hdone⟩
    refine (acyclicComp_spec h.wf h.idle fun huw => ?_).imp fun s2 ⟨h2, hacc⟩ => ?_
    · exact closed_of_sym (C := (· ∈ x)) h.sym (hc x (hrest x mem_cons_self)) huw
    · refine ⟨h.trans h2, fun c' hc' => hrest c' (mem_cons_of_mem _ hc'), fun c' hc' => ?_⟩
      obtain hmem | hacc' := hdone c' hc'
      · obtain rfl | hmem := mem_cons.1 hmem
        · exact .inr hacc
        · exact .inl hmem
      · exact .inr fun u hu => h2.acc (hacc' u hu)
  · rintro s1 ⟨h, -, hdone⟩
    exact ⟨h, fun c hc' => (hdone c hc').resolve_left not_mem_nil⟩

end Graphviz
