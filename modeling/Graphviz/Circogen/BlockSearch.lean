import Graphviz.Circogen.Blocktree
import Graphviz.Library.LowPoint

/-!
# The search of `createBlocktree` finds the blocks

The search keeps only the edges to new nodes on its stack. Otherwise it goes the way of the search
of the library: the blocks that it makes are what the edges to new nodes make of the blocks that
this finds, one after another.
-/

namespace Graphviz.Circogen

open Function List Nat Outcome

variable {n : ℕ} {edges : List (edge_t n)} {root u v x : Fin n} {e : half_t n} {s s' : circ_state n}
  {c c' : LowPoint.State (Fin n) (half_t n)} {P P' : Fin n → Option (Fin n)}
  {parent : Option (Fin n)} {d : ℕ}

/-- The end of an edge at which it is found. -/
def half_t.src (e : half_t n) : Fin n :=
  if e.isOut then e.edge.agtail else e.edge.aghead

/-- The other end of an edge. -/
def half_t.dst (e : half_t n) : Fin n :=
  if e.isOut then e.edge.aghead else e.edge.agtail

theorem src_of_mem (he : e ∈ halvesOf edges u) : e.src = u := by
  rw [half_t.src]
  obtain ⟨-, ⟨hout, htail⟩ | ⟨hout, hhead, -⟩⟩ := mem_halvesOf.1 he
  · rw [if_pos hout, htail]
  · rw [if_neg (Bool.eq_false_iff.1 hout), hhead]

theorem exists_reverse (he : e ∈ halvesOf edges u) : ∃ e' ∈ halvesOf edges e.dst, e'.dst = u := by
  obtain ⟨e, isOut⟩ := e
  obtain ⟨hmem, ⟨rfl, rfl⟩ | ⟨rfl, rfl, -⟩⟩ := mem_halvesOf.1 he
  · change ∃ e' ∈ halvesOf edges e.aghead, e'.dst = e.agtail
    obtain heq | hne := eq_or_ne e.agtail e.aghead
    · exact ⟨⟨e, true⟩, mem_halvesOf.2 ⟨hmem, .inl ⟨rfl, heq⟩⟩, heq.symm⟩
    · exact ⟨⟨e, false⟩, mem_halvesOf.2 ⟨hmem, .inr ⟨rfl, rfl, hne⟩⟩, rfl⟩
  · exact ⟨⟨e, true⟩, mem_halvesOf.2 ⟨hmem, .inl ⟨rfl, rfl⟩⟩, rfl⟩

/-- The edges of the graph as they are found at the nodes. -/
def incidence (edges : List (edge_t n)) : LowPoint.Incidence (Fin n) (half_t n) :=
  ⟨halvesOf edges, half_t.src, half_t.dst, fun _ _ => src_of_mem, fun _ _ => exists_reverse⟩

/-- The way in which `dfs` finds the other end, and the order that it sets. -/
theorem across_of_mem (he : e ∈ halvesOf edges u) :
    across u e = (e.dst, if e.edge.aghead = u then -1 else 1) := by
  rw [across, half_t.dst]
  obtain ⟨-, ⟨hout, htail⟩ | ⟨hout, hhead, -⟩⟩ := mem_halvesOf.1 he
  · rw [if_pos hout, htail]
    split
    next heq => rw [heq]
    next => rfl
  · rw [if_neg (Bool.eq_false_iff.1 hout), if_pos hhead, if_pos hhead]

/-! ## What is made of a block -/

/-- The edges that have led to new nodes. -/
def treeEdges (P : Fin n → Option (Fin n)) (es : List (half_t n)) : List (half_t n) :=
  es.filter fun e => P e.dst = some e.src

/-- What is made of a block and the node that separates it. -/
def report (root : Fin n) (P : Fin n → Option (Fin n)) (o : blocks_t n)
    (b : List (half_t n) × Fin n) : blocks_t n :=
  closeBlock (b.2 = root) b.2 (((treeEdges P b.1).map half_t.dst).foldl takeNode (none, o))

/-- What is made of blocks one after another. -/
def reports (root : Fin n) (P : Fin n → Option (Fin n)) (bs : List (List (half_t n) × Fin n)) :
    blocks_t n :=
  bs.foldl (report root P) ⟨[], fun _ => none, []⟩

theorem treeEdges_cons (e : half_t n) (es : List (half_t n)) : treeEdges P (e :: es) =
    if P e.dst = some e.src then e :: treeEdges P es else treeEdges P es := by
  rw [treeEdges, filter_cons]
  exact if_congr decide_eq_true_iff rfl rfl

theorem treeEdges_append (es es' : List (half_t n)) :
    treeEdges P (es ++ es') = treeEdges P es ++ treeEdges P es' :=
  filter_append ..

theorem treeEdges_congr {es : List (half_t n)} (h : ∀ e ∈ es, P' e.dst = P e.dst) :
    treeEdges P' es = treeEdges P es :=
  filter_congr fun e he => by rw [h e he]

theorem reports_concat (bs : List (List (half_t n) × Fin n)) (b : List (half_t n) × Fin n) :
    reports root P (bs ++ [b]) = report root P (reports root P bs) b :=
  foldl_concat _ _ _ _

theorem reports_congr {bs : List (List (half_t n) × Fin n)}
    (h : ∀ b ∈ bs, ∀ e ∈ b.1, P' e.dst = P e.dst) : reports root P' bs = reports root P bs := by
  induction bs using List.reverseRecOn with
  | nil => rfl
  | append_singleton bs b ih =>
    have hb := h b (mem_append_right _ mem_cons_self)
    rw [reports_concat, reports_concat, ih fun b hb => h b (mem_append_left _ hb), report,
      report, treeEdges_congr hb]

/-- What is above an edge to a new node on the stack, and what is under it. -/
theorem treeEdges_span (he : P e.dst = some e.src) (stk : List (half_t n)) :
    (treeEdges P stk).takeWhile (· ≠ e) = treeEdges P (stk.takeWhile (· ≠ e)) ∧
      (treeEdges P stk).dropWhile (· ≠ e) = treeEdges P (stk.dropWhile (· ≠ e)) := by
  induction stk with
  | nil => exact ⟨rfl, rfl⟩
  | cons ep stk ih =>
    rw [treeEdges_cons]
    obtain rfl | hne := eq_or_ne ep e
    · rw [if_pos he, takeWhile_cons_of_neg (by simp), takeWhile_cons_of_neg (by simp),
        dropWhile_cons_of_neg (by simp), dropWhile_cons_of_neg (by simp), treeEdges_cons,
        if_pos he]
      exact ⟨rfl, rfl⟩
    · rw [takeWhile_cons_of_pos (by simpa using hne),
        dropWhile_cons_of_pos (by simpa using hne), treeEdges_cons]
      split
      next =>
        rw [takeWhile_cons_of_pos (by simpa using hne),
          dropWhile_cons_of_pos (by simpa using hne), ih.1, ih.2]
        exact ⟨rfl, rfl⟩
      next => exact ih

theorem popEdges_eq {ORDER : edge_t n → ℤ} {a : half_t n} {rest : List (half_t n)}
    (stk : List (half_t n)) (p : Option ℕ × blocks_t n) (h : stk.dropWhile (· ≠ e) = a :: rest)
    (hfar : ∀ ep ∈ stk, farEnd ORDER ep = ep.dst) :
    popEdges ORDER e stk p =
      .ok (rest, ((stk.takeWhile (· ≠ e) ++ [e]).map half_t.dst).foldl takeNode p) := by
  induction stk generalizing p with
  | nil => exact nomatch h
  | cons ep stk ih =>
    rw [popEdges, hfar ep mem_cons_self]
    split
    next heq =>
      subst heq
      rw [dropWhile_cons_of_neg (by simp)] at h
      rw [takeWhile_cons_of_neg (by simp), (cons.inj h).2]
      rfl
    next hne =>
      rw [dropWhile_cons_of_pos (by simpa using hne)] at h
      rw [takeWhile_cons_of_pos (by simpa using hne),
        ih _ h fun ep hep => hfar ep (mem_cons_of_mem _ hep)]
      rfl

/-! ## The two searches -/

/-- The edge is on the stack or in a block. -/
def Kept (c : LowPoint.State (Fin n) (half_t n)) (e : half_t n) : Prop :=
  e ∈ c.stack ∨ ∃ b ∈ c.blocks, e ∈ b.1

/-- The state of the search goes with one of the library. -/
structure Sim (root : Fin n) (c : LowPoint.State (Fin n) (half_t n)) (s : circ_state n) : Prop where
  orderCount : s.orderCount = c.count + 1
  VAL : s.VAL = c.num
  LOWVAL : s.LOWVAL = c.low
  low_le : ∀ x, c.low x ≤ c.num x
  num_le : ∀ x, c.num x ≤ c.count
  inj : ∀ x y, c.num x ≠ 0 → c.num x = c.num y → x = y
  root_met : c.num root ≠ 0
  root_none : s.PARENT root = none
  PARENT : ∀ x w, s.PARENT x = some w → c.num w ≠ 0 ∧ c.num w < c.num x
  entered : ∀ x, c.num x ≠ 0 → x ≠ root →
    ∃ e, e.dst = x ∧ s.PARENT x = some e.src ∧ Kept c e
  met : ∀ e, Kept c e → c.num e.dst ≠ 0
  stk : s.stk = treeEdges s.PARENT c.stack
  far : ∀ e ∈ s.stk, farEnd s.EDGEORDER e = e.dst ∧ s.EDGEORDER e.edge ≠ 0
  seen : ∀ e, s.EDGEORDER e ≠ 0 → c.num (if s.EDGEORDER e = 1 then e.agtail else e.aghead) ≠ 0
  blocks : s.blocks = reports root s.PARENT c.blocks

/-- What has been met keeps its number and parent. -/
def Ext (c : LowPoint.State (Fin n) (half_t n)) (s : circ_state n)
    (c' : LowPoint.State (Fin n) (half_t n)) (s' : circ_state n) : Prop :=
  ∀ x, c.num x ≠ 0 → c'.num x = c.num x ∧ s'.PARENT x = s.PARENT x

theorem Ext.refl : Ext c s c s := fun _ _ => ⟨rfl, rfl⟩

theorem Ext.trans {c'' : LowPoint.State (Fin n) (half_t n)} {s'' : circ_state n}
    (h : Ext c s c' s') (h' : Ext c' s' c'' s'') : Ext c s c'' s'' := by
  intro x hx
  obtain ⟨hnum, hparent⟩ := h x hx
  obtain ⟨hnum', hparent'⟩ := h' x (hnum.symm ▸ hx)
  exact ⟨hnum'.trans hnum, hparent'.trans hparent⟩

/-! ## The order of an edge -/

section order

variable {ORDER : edge_t n → ℤ} {f g : edge_t n} {k : ℤ}

theorem setOrder_of_ne (hg : ORDER g ≠ 0) : setOrder ORDER f k g = ORDER g := by
  rw [setOrder]
  split
  next hf =>
    have hne : g ≠ f := fun heq => hg (heq.symm ▸ hf)
    exact update_of_ne hne _ _
  next => rfl

theorem setOrder_cases (hg : setOrder ORDER f k g ≠ 0) :
    ORDER g ≠ 0 ∨ g = f ∧ setOrder ORDER f k g = k := by
  rw [setOrder] at hg ⊢
  split at hg
  next hf =>
    obtain rfl | hne := eq_or_ne g f
    · rw [if_pos hf]
      exact .inr ⟨rfl, update_self ..⟩
    · rw [update_of_ne hne] at hg
      exact .inl hg
  next => exact .inl hg

theorem setOrder_self : setOrder ORDER f k f = if ORDER f = 0 then k else ORDER f := by
  rw [setOrder]
  split
  next => exact update_self ..
  next => rfl

theorem farEnd_congr {ORDER' : edge_t n → ℤ} (h : ORDER' e.edge = ORDER e.edge) :
    farEnd ORDER' e = farEnd ORDER e := by
  rw [farEnd, farEnd, h]

end order

/-- The order of an edge is set. -/
theorem Sim.order (h : Sim root c s) (he : e ∈ halvesOf edges u) (hu : c.num u ≠ 0) :
    Sim root c { s with EDGEORDER := setOrder s.EDGEORDER e.edge (across u e).2 } := by
  refine { h with far := fun ep hep => ?_, seen := fun ep hep => ?_ }
  · obtain ⟨hfar, hne⟩ := h.far ep hep
    have heq := @setOrder_of_ne _ _ e.edge _ (across u e).2 hne
    exact ⟨(farEnd_congr heq).trans hfar, fun hzero => hne (heq.symm.trans hzero)⟩
  · change setOrder s.EDGEORDER e.edge (across u e).2 ep ≠ 0 at hep
    change c.num (if setOrder s.EDGEORDER e.edge (across u e).2 ep = 1 then _ else _) ≠ 0
    obtain hne | ⟨rfl, heq⟩ := setOrder_cases hep
    · rw [setOrder_of_ne hne]
      exact h.seen ep hne
    · rw [heq, across_of_mem he]
      dsimp only
      split
      next heq => rwa [if_neg (by decide), heq]
      next hne =>
        rw [if_pos rfl]
        obtain ⟨-, ⟨-, htail⟩ | ⟨-, hhead, -⟩⟩ := mem_halvesOf.1 he
        · rwa [htail]
        · exact absurd hhead hne

/-- The far end of an edge to a new node. -/
theorem Sim.farEnd_setOrder (h : Sim root c s) (he : e ∈ halvesOf edges u) (hu : c.num u ≠ 0)
    (hzero : c.num e.dst = 0) :
    farEnd (setOrder s.EDGEORDER e.edge (across u e).2) e = e.dst ∧
      setOrder s.EDGEORDER e.edge (across u e).2 e.edge ≠ 0 := by
  have hne : setOrder s.EDGEORDER e.edge (across u e).2 e.edge ≠ 0 := by
    rw [setOrder_self, across_of_mem he]
    dsimp only
    split
    next => split <;> decide
    next hne => exact hne
  have hseen := (h.order he hu).seen e.edge hne
  dsimp only at hseen
  refine ⟨?_, hne⟩
  rw [farEnd]
  obtain ⟨e, isOut⟩ := e
  obtain ⟨-, ⟨rfl, -⟩ | ⟨rfl, -, -⟩⟩ := mem_halvesOf.1 he
  · split
    next => rfl
    next hone =>
      rw [if_neg hone] at hseen
      exact absurd hzero hseen
  · split
    next hone =>
      rw [if_pos hone] at hseen
      exact absurd hzero hseen
    next => rfl

/-! ## The steps of the searches -/

/-- A new node is met. -/
theorem Sim.enter (h : Sim root c s) (hu : c.num e.src ≠ 0) (hzero : c.num e.dst = 0)
    (hfar : farEnd s.EDGEORDER e = e.dst ∧ s.EDGEORDER e.edge ≠ 0) :
    Sim root ((c.push e).enter e.dst) (circ_state.enter { s with
      PARENT := update s.PARENT e.dst (some e.src), stk := e :: s.stk } e.dst) := by
  have hne : ∀ x, c.num x ≠ 0 → x ≠ e.dst := fun x hx heq => hx (heq ▸ hzero)
  have hself : ((c.push e).enter e.dst).num e.dst = c.count + 1 := LowPoint.enter_num_self
  have hnum : ∀ x, x ≠ e.dst → ((c.push e).enter e.dst).num x = c.num x := fun x hx =>
    LowPoint.enter_num_of_ne hx
  have hmet : ∀ x, c.num x ≠ 0 → ((c.push e).enter e.dst).num x ≠ 0 := fun x hx =>
    (hnum x (hne x hx)).symm ▸ hx
  have hparent : ∀ x, x ≠ e.dst → update s.PARENT e.dst (some e.src) x = s.PARENT x :=
    fun x hx => update_of_ne hx _ _
  have hkept : ∀ ep, Kept c ep → update s.PARENT e.dst (some e.src) ep.dst = s.PARENT ep.dst :=
    fun ep hep => hparent _ (hne _ (h.met ep hep))
  constructor
  case orderCount => exact congrArg (· + 1) h.orderCount
  case VAL =>
    change update s.VAL e.dst s.orderCount = update c.num e.dst (c.count + 1)
    rw [h.VAL, h.orderCount]
  case LOWVAL =>
    change update s.LOWVAL e.dst s.orderCount = update c.low e.dst (c.count + 1)
    rw [h.LOWVAL, h.orderCount]
  case low_le =>
    intro x
    obtain rfl | hx := eq_or_ne x e.dst
    · rw [hself]
      exact (update_self ..).le
    · rw [hnum x hx]
      exact (update_of_ne hx _ _).le.trans (h.low_le x)
  case num_le =>
    intro x
    change _ ≤ c.count + 1
    obtain rfl | hx := eq_or_ne x e.dst
    · exact hself.le
    · rw [hnum x hx]
      exact (h.num_le x).trans (le_succ _)
  case inj =>
    intro x y hx hxy
    rcases eq_or_ne x e.dst with rfl | hxv <;>
      obtain rfl | hyv := eq_or_ne y e.dst
    · rfl
    · rw [hself, hnum y hyv] at hxy
      exact absurd (h.num_le y) (hxy ▸ not_succ_le_self _)
    · rw [hself, hnum x hxv] at hxy
      exact absurd (h.num_le x) (hxy ▸ not_succ_le_self _)
    · rw [hnum x hxv] at hx
      rw [hnum x hxv, hnum y hyv] at hxy
      exact h.inj x y hx hxy
  case root_met => exact hmet root h.root_met
  case root_none => exact (hparent root (hne root h.root_met)).trans h.root_none
  case PARENT =>
    intro x w hx
    change update s.PARENT e.dst (some e.src) x = some w at hx
    obtain rfl | hxv := eq_or_ne x e.dst
    · rw [update_self] at hx
      obtain rfl := Option.some.inj hx
      rw [hself, hnum _ (hne _ hu)]
      exact ⟨hu, lt_succ_of_le (h.num_le _)⟩
    · obtain ⟨hw, hlt⟩ := h.PARENT x w ((hparent x hxv).symm.trans hx)
      rw [hnum x hxv, hnum w (hne w hw)]
      exact ⟨hw, hlt⟩
  case entered =>
    intro x hx hxr
    obtain rfl | hxv := eq_or_ne x e.dst
    · exact ⟨e, rfl, update_self .., .inl mem_cons_self⟩
    · rw [hnum x hxv] at hx
      obtain ⟨ep, hdst, hp, hep⟩ := h.entered x hx hxr
      exact ⟨ep, hdst, (hparent x hxv).trans hp, hep.imp (mem_cons_of_mem _) id⟩
  case met =>
    intro ep hep
    obtain hep | hep := hep
    · obtain rfl | hep := mem_cons.1 hep
      · exact hself.symm ▸ succ_ne_zero _
      · exact hmet _ (h.met ep (.inl hep))
    · exact hmet _ (h.met ep (.inr hep))
  case stk =>
    change e :: s.stk = treeEdges (update s.PARENT e.dst (some e.src)) (e :: c.stack)
    rw [treeEdges_cons, if_pos (update_self ..), h.stk,
      treeEdges_congr fun ep hep => hkept ep (.inl hep)]
  case far =>
    intro ep hep
    obtain rfl | hep := mem_cons.1 hep
    · exact hfar
    · exact h.far ep hep
  case seen => exact fun ep hep => hmet _ (h.seen ep hep)
  case blocks =>
    refine h.blocks.trans (Eq.symm ?_)
    exact reports_congr fun b hb ep hep => hkept ep (.inr ⟨b, hb, hep⟩)

/-- A number is seen from a node. -/
theorem Sim.lower (h : Sim root c s) (u : Fin n) (k : ℕ) :
    Sim root (c.lower u k) (s.lower u k) := by
  refine { h with LOWVAL := ?_, low_le := fun x => ?_ }
  · change update s.LOWVAL u (min (s.LOWVAL u) k) = update c.low u (min (c.low u) k)
    rw [h.LOWVAL]
  · obtain rfl | hx := eq_or_ne x u
    · rw [LowPoint.lower_low_self]
      exact (min_le_left ..).trans (h.low_le x)
    · rw [LowPoint.lower_low_of_ne hx]
      exact h.low_le x

/-- An edge back to a node that has been met stays off the stack. -/
theorem Sim.back (h : Sim root c s) (hmet : c.num e.dst ≠ 0) (hlt : c.num e.dst < c.num e.src) :
    Sim root (c.push e) s := by
  refine { h with entered := fun x hx hxr => ?_, met := fun ep hep => ?_, stk := ?_ }
  · obtain ⟨ep, hdst, hp, hep⟩ := h.entered x hx hxr
    exact ⟨ep, hdst, hp, hep.imp (mem_cons_of_mem _) id⟩
  · obtain hep | hep := hep
    · obtain rfl | hep := mem_cons.1 hep
      · exact hmet
      · exact h.met ep (.inl hep)
    · exact h.met ep (.inr hep)
  · change _ = treeEdges s.PARENT (e :: c.stack)
    rw [treeEdges_cons, if_neg fun hp => hlt.not_gt (h.PARENT _ _ hp).2]
    exact h.stk

/-- The edges of a block are popped. -/
theorem Sim.cut (h : Sim root c s) (hclose : c.close u e = some c')
    (htree : s.PARENT e.dst = some e.src) :
    ∃ s', s.cut (u = root) u e = .ok s' ∧ Sim root c' s' ∧ Ext c s c' s' := by
  rw [LowPoint.State.close] at hclose
  split at hclose
  · cases hclose
  next a stack hdrop =>
    obtain rfl := Option.some.inj hclose
    obtain ⟨htake, hdrop'⟩ := treeEdges_span htree c.stack
    have hae : a = e := by
      have hhead := head_dropWhile_not (fun x => decide (x ≠ e)) (l := c.stack)
        (by rw [hdrop]; exact cons_ne_nil _ _)
      simp only [hdrop, head_cons, decide_eq_false_iff_not, not_not] at hhead
      exact hhead
    subst hae
    have hstk : s.stk.dropWhile (· ≠ a) = a :: treeEdges s.PARENT stack := by
      rw [h.stk, hdrop', hdrop, treeEdges_cons, if_pos htree]
    have hsplit : c.stack = c.stack.takeWhile (· ≠ a) ++ a :: stack := by
      rw [← hdrop, takeWhile_append_dropWhile]
    have hkept : ∀ ep, Kept { c with
        stack, blocks := c.blocks ++ [(c.stack.takeWhile (· ≠ a) ++ [a], u)] } ep ↔ Kept c ep := by
      intro ep
      have hmem : ep ∈ c.stack ↔ ep ∈ c.stack.takeWhile (· ≠ a) ++ [a] ∨ ep ∈ stack := by
        conv_lhs => rw [hsplit, append_cons, mem_append]
      rw [Kept, Kept, hmem]
      simp only [mem_append, mem_singleton, or_and_right, exists_or, exists_eq_left]
      rw [or_comm, or_assoc, or_comm, or_comm (b := ep ∈ stack), or_assoc]
    refine ⟨{ s with
        stk := treeEdges s.PARENT stack
        blocks := report root s.PARENT s.blocks (c.stack.takeWhile (· ≠ a) ++ [a], u) },
      ?_, ?_, fun x hx => ⟨rfl, rfl⟩⟩
    · rw [circ_state.cut, popEdges_eq s.stk _ hstk fun ep hep => (h.far ep hep).1, ok_bind, report,
        treeEdges_append, treeEdges_cons, if_pos htree, ← htake, ← h.stk]
      rfl
    · refine { h with entered := fun x hx hxr => ?_, met := fun ep hep => ?_, stk := rfl,
                      far := fun ep hep => h.far ep ?_, blocks := ?_ }
      · obtain ⟨ep, hdst, hp, hep⟩ := h.entered x hx hxr
        exact ⟨ep, hdst, hp, (hkept ep).2 hep⟩
      · exact h.met ep ((hkept ep).1 hep)
      · exact (dropWhile_sublist _).subset (hstk ▸ mem_cons_of_mem _ hep)
      · rw [reports_concat, ← h.blocks]

/-- An edge is looked at. -/
theorem Sim.step (h : Sim root c s) (he : e ∈ halvesOf edges u) (hu : c.num u ≠ 0)
    (hp : s.PARENT u = parent)
    (hcall : ∀ {c c' : LowPoint.State (Fin n) (half_t n)} {s : circ_state n} {v : Fin n}
      {parent : Option (Fin n)}, LowPoint.dfs (incidence edges) d c parent v = some c' →
        s.PARENT v = parent → v ≠ root → Sim root (c.enter v) (s.enter v) →
          ∃ s', dfs edges d s v false = .ok s' ∧ Sim root c' s' ∧
            Ext (c.enter v) (s.enter v) c' s')
    (hrun : LowPoint.step (incidence edges) (LowPoint.dfs (incidence edges) d) parent u c e =
      some c') :
    ∃ s', dfsEdge (dfs edges d) u (u = root) s e = .ok s' ∧ Sim root c' s' ∧ Ext c s c' s' := by
  have hsrc := src_of_mem he
  have hs := h.order he hu
  have hfar := h.farEnd_setOrder he hu
  have hv : (across u e).1 = e.dst := congrArg Prod.fst (across_of_mem he)
  rw [dfsEdge, hv]
  generalize setOrder s.EDGEORDER e.edge (across u e).2 = ORDER at hs hfar
  have hVAL : s.VAL e.dst = c.num e.dst := congrFun h.VAL e.dst
  have hlow : c.lower u (s.VAL e.dst) = c.lower u (c.num e.dst) := by rw [hVAL]
  rw [LowPoint.step] at hrun
  change (if e.dst = u then _ else if c.num e.dst = 0 then _ else
    if parent ≠ some e.dst then _ else _) = _ at hrun
  change ∃ s', (if s.VAL e.dst = 0 then _ else if s.PARENT u ≠ some e.dst then _ else _) = _ ∧ _
  split at hrun
  next heq =>
    -- a loop sees the number of its own node
    obtain rfl := Option.some.inj hrun
    have hnone : s.PARENT u ≠ some e.dst := fun hpu =>
      (heq ▸ h.PARENT u _ hpu).2.ne rfl
    have hmet : s.VAL e.dst ≠ 0 := by rwa [hVAL, heq]
    have hlower := hs.lower u (s.VAL e.dst)
    rw [hlow, LowPoint.lower_eq_self (heq.symm ▸ h.low_le u)] at hlower
    exact ⟨_, (if_neg hmet).trans (if_pos hnone), hlower, fun x hx => ⟨rfl, rfl⟩⟩
  next hne =>
    split at hrun
    next hzero =>
      obtain ⟨c1, hdfs, hrun⟩ := Option.bind_eq_some_iff.1 hrun
      change LowPoint.dfs (incidence edges) d (c.push e) (some u) e.dst = some c1 at hdfs
      have hroot : e.dst ≠ root := fun heq => h.root_met (heq ▸ hzero)
      have henter := hs.enter (e := e) (hsrc.symm ▸ hu) hzero (hfar hzero)
      rw [hsrc] at henter
      obtain ⟨s1, hrun1, hs1, hext1⟩ := hcall hdfs (update_self ..) hroot henter
      have hself : ((c.push e).enter e.dst).num e.dst ≠ 0 := by
        rw [LowPoint.enter_num_self]
        exact succ_ne_zero _
      have htree : s1.PARENT e.dst = some e.src :=
        (hext1 e.dst hself).2.trans ((update_self ..).trans (congrArg some hsrc.symm))
      have hext : Ext c s c1 s1 := fun x hx => by
        have hxv : x ≠ e.dst := fun heq => hx (heq ▸ hzero)
        have hnum : ((c.push e).enter e.dst).num x = c.num x := LowPoint.enter_num_of_ne hxv
        obtain ⟨hnum', hparent⟩ := hext1 x (hnum.symm ▸ hx)
        exact ⟨hnum'.trans hnum, hparent.trans (update_of_ne hxv _ _)⟩
      rw [if_pos (hVAL.trans hzero)]
      change ∃ s', (dfs edges d _ e.dst false >>= _) = _ ∧ _
      rw [hrun1, ok_bind]
      have hlower := hs1.lower u (c1.low e.dst)
      change ∃ s', (if s1.VAL u ≤ (s1.lower u (s1.LOWVAL e.dst)).LOWVAL e.dst then _ else _) = _ ∧ _
      change (if c1.num u ≤ (c1.lower u (c1.low e.dst)).low e.dst then _ else _) = _ at hrun
      rw [hs1.VAL, hs1.LOWVAL, hlower.LOWVAL]
      split at hrun
      next hle =>
        obtain ⟨s2, hcut, hs2, hext2⟩ := hlower.cut hrun htree
        exact ⟨s2, (if_pos hle).trans hcut, hs2, hext.trans hext2⟩
      next hlt =>
        obtain rfl := Option.some.inj hrun
        exact ⟨_, if_neg hlt, hlower, hext⟩
    next hmet =>
      have hmet' : s.VAL e.dst ≠ 0 := hVAL.symm ▸ hmet
      rw [if_neg hmet', hp]
      have hlower := hs.lower u (s.VAL e.dst)
      rw [hlow] at hlower
      split at hrun
      next hparent =>
        refine ⟨_, if_pos hparent, ?_, ?_⟩ <;> obtain rfl := Option.some.inj hrun
        · split
          next hlt => exact hlower.back hmet (hsrc.symm ▸ hlt)
          next => exact hlower
        · split <;> exact fun x hx => ⟨rfl, rfl⟩
      next hparent =>
        obtain rfl := Option.some.inj hrun
        exact ⟨_, if_neg hparent, hs, fun x hx => ⟨rfl, rfl⟩⟩

/-- The loop over the edges. -/
theorem Sim.loop (h : Sim root c s) {es : List (half_t n)} (hes : ∀ e ∈ es, e ∈ halvesOf edges u)
    (hu : c.num u ≠ 0) (hp : s.PARENT u = parent)
    (hcall : ∀ {c c' : LowPoint.State (Fin n) (half_t n)} {s : circ_state n} {v : Fin n}
      {parent : Option (Fin n)}, LowPoint.dfs (incidence edges) d c parent v = some c' →
        s.PARENT v = parent → v ≠ root → Sim root (c.enter v) (s.enter v) →
          ∃ s', dfs edges d s v false = .ok s' ∧ Sim root c' s' ∧
            Ext (c.enter v) (s.enter v) c' s')
    (hrun : es.foldlM (LowPoint.step (incidence edges) (LowPoint.dfs (incidence edges) d) parent u)
      c = some c') :
    ∃ s', es.foldlM (dfsEdge (dfs edges d) u (u = root)) s = .ok s' ∧ Sim root c' s' ∧
      Ext c s c' s' := by
  induction es generalizing c s with
  | nil =>
    obtain rfl := Option.some.inj hrun
    exact ⟨s, rfl, h, .refl⟩
  | cons e es ih =>
    rw [foldlM_cons] at hrun ⊢
    obtain ⟨c1, hstep, hrun⟩ := Option.bind_eq_some_iff.1 hrun
    obtain ⟨s1, hrun1, hs1, hext1⟩ := h.step (hes e mem_cons_self) hu hp hcall hstep
    obtain ⟨hnum, hparent⟩ := hext1 u hu
    obtain ⟨s2, hrun2, hs2, hext2⟩ := ih hs1 (fun ep hep => hes ep (mem_cons_of_mem e hep))
      (hnum.symm ▸ hu) (hparent.trans hp) hrun
    rw [hrun1, ok_bind]
    exact ⟨s2, hrun2, hs2, hext1.trans hext2⟩

/-- The search from a node that is not the root. -/
theorem Sim.dfs (h : Sim root (c.enter u) (s.enter u)) (hu : u ≠ root) (hp : s.PARENT u = parent)
    (hrun : LowPoint.dfs (incidence edges) d c parent u = some c') :
    ∃ s', Circogen.dfs edges d s u false = .ok s' ∧ Sim root c' s' ∧
      Ext (c.enter u) (s.enter u) c' s' := by
  induction d generalizing c c' s u parent with
  | zero => exact nomatch hrun
  | succ d ih =>
    have hmet : (c.enter u).num u ≠ 0 := by
      rw [LowPoint.enter_num_self]
      exact succ_ne_zero _
    obtain ⟨s', hloop, hs', hext⟩ := h.loop (fun e he => he) hmet hp
      (fun hrun hp hv hs => ih hs hv hp hrun) hrun
    rw [decide_eq_false hu] at hloop
    refine ⟨s', ?_, hs', hext⟩
    rw [Circogen.dfs, hloop, ok_bind, rootBlock, if_neg fun hroot => Bool.false_ne_true hroot.1]

/-- The search of the library before its first node. -/
def initial (n : ℕ) : LowPoint.State (Fin n) (half_t n) := ⟨0, fun _ => 0, fun _ => 0, [], []⟩

/-- The root is met. -/
theorem Sim.start (root : Fin n) :
    Sim root ((initial n).enter root) ((circ_state.start n).enter root) := by
  have hself : ((initial n).enter root).num root = 1 := LowPoint.enter_num_self
  have hnum : ∀ x, x ≠ root → ((initial n).enter root).num x = 0 := fun x hx =>
    LowPoint.enter_num_of_ne hx
  have heq : ∀ x, ((initial n).enter root).num x ≠ 0 → x = root := fun x hx =>
    by_contra fun hne => hx (hnum x hne)
  constructor
  case orderCount => rfl
  case VAL => rfl
  case LOWVAL => rfl
  case low_le => exact fun x => le_rfl
  case num_le =>
    intro x
    obtain rfl | hx := eq_or_ne x root
    · exact hself.le
    · exact (hnum x hx).le.trans (zero_le _)
  case inj =>
    intro x y hx hxy
    exact (heq x hx).trans (heq y (hxy ▸ hx)).symm
  case root_met => exact hself.symm ▸ one_ne_zero
  case root_none => rfl
  case PARENT => exact fun x w hx => nomatch hx
  case entered => exact fun x hx hxr => absurd (heq x hx) hxr
  case met =>
    rintro ep (hep | ⟨b, hb, -⟩)
    · exact absurd hep not_mem_nil
    · exact absurd hb not_mem_nil
  case stk => rfl
  case far => exact fun ep hep => absurd hep not_mem_nil
  case seen => exact fun ep hep => absurd rfl hep
  case blocks => rfl

/-- `find_blocks` makes what is made of the blocks that the search of the library finds. -/
theorem find_blocks_eq {G : graph_t n}
    (hrun : LowPoint.dfs (incidence G.edges) (n + 1) (initial n) none root = some c) :
    ∃ s, find_blocks G root = .ok { s with blocks := rootBlock true root s.blocks } ∧
      Sim root c s := by
  obtain ⟨s, hloop, hs, -⟩ := (Sim.start root).loop (fun e he => he) (Sim.start root).root_met rfl
    (fun hrun hp hv hs => hs.dfs hv hp hrun) hrun
  rw [decide_eq_true rfl] at hloop
  refine ⟨s, ?_, hs⟩
  rw [find_blocks, Circogen.dfs, hloop, ok_bind]

end Graphviz.Circogen
