import Graphviz.Common.InitRank
import Graphviz.Library.Divergence
import Graphviz.Library.EdgeForest
import Graphviz.Library.Instances

/-!
# Cut values of the network simplex (`common/ns.c`)

`init_cutvalues` numbers the spanning tree in a depth-first search and sets the cut values of its
edges from below; `leave_edge` looks for a negative one. The cut values are a flow in the tree with
the divergence of the weights: this says what each is in the graph, and that the ranks are the best
when `leave_edge` finds none.
-/

namespace Graphviz.NetworkSimplex

open FastGraph Function List Outcome Divergence

variable {n : ℕ}

/-! ## The functions of the source -/

/-- `ND_tree_out`, `ND_tree_in`, `ED_tree_index` and `Tree_edge`. -/
structure TreeLists (n : ℕ) where
  treeOut : Fin n → List ℕ
  treeIn : Fin n → List ℕ
  treeIndex : ℕ → ℤ
  treeEdge : List ℕ

/-- `ND_par`, `ND_low` and `ND_lim`. -/
structure DfsRange (n : ℕ) where
  par : Fin n → Option ℕ
  low : Fin n → ℤ
  lim : Fin n → ℤ

/-- `dfs_state_t`; for `par`, `tree_out_i` and `tree_in_i` the edges that the loops have still to
come to, without `par`. -/
structure DfsState (n : ℕ) where
  v : Fin n
  lim : ℤ
  rest : List (ℕ × Fin n)

/-- `TREE_EDGE`. -/
def treeEdge (t : TreeLists n) (e : ℕ) : Bool := 0 ≤ t.treeIndex e

/-- `SEQ(ND_low(v), ND_lim(w), ND_lim(v))`. -/
def inRange (r : DfsRange n) (v w : Fin n) : Bool := r.low v ≤ r.lim w ∧ r.lim w ≤ r.lim v

/-- What the loops over `ND_tree_out(v)` and `ND_tree_in(v)` that leave out `par` go through: the
edges, with the nodes they lead to. -/
def kids (fg : FastGraph n) (t : TreeLists n) (par : Option ℕ) (v : Fin n) : List (ℕ × Fin n) :=
  (((t.treeOut v).map fun e => (e, (fg.edge e).head)) ++
    (t.treeIn v).map fun e => (e, (fg.edge e).tail)).filter (some ·.1 ≠ par)

/-- The loop of `dfs_range_init`, with the stack's top first. -/
def dfsRangeLoop (fg : FastGraph n) (t : TreeLists n) :
    ℕ → ℤ → DfsRange n → List (DfsState n) → Except Fault (ℤ × DfsRange n)
  | 0, _, _, _ => .error .fuel
  | _ + 1, lim, r, [] => .ok (lim + 1, r)
  | k + 1, lim, r, ⟨v, l, (e, w) :: rest⟩ :: todo =>
    dfsRangeLoop fg t k lim { r with par := update r.par w (some e), low := update r.low w l }
      (⟨w, l, kids fg t (some e) w⟩ :: ⟨v, l, rest⟩ :: todo)
  | k + 1, _, r, ⟨v, l, []⟩ :: todo =>
    let r := { r with lim := update r.lim v l }
    match todo with
    | [] => dfsRangeLoop fg t k l r []
    | p :: todo => dfsRangeLoop fg t k l r ({ p with lim := l + 1 } :: todo)

/-- `dfs_range_init`. -/
def dfsRangeInit (fg : FastGraph n) (t : TreeLists n) (r : DfsRange n) (v : Fin n) :
    Except Fault (ℤ × DfsRange n) :=
  dfsRangeLoop fg t (2 * n + 2) 0 { r with par := update r.par v none, low := update r.low v 1 }
    [⟨v, 1, kids fg t none v⟩]

/-- `other` of `x_val`. -/
def otherEnd (fg : FastGraph n) (v : Fin n) (e : ℕ) : Fin n :=
  if (fg.edge e).tail = v then (fg.edge e).head else (fg.edge e).tail

/-- `x_val`. -/
def xVal (fg : FastGraph n) (t : TreeLists n) (r : DfsRange n) (cut : ℕ → ℤ) (v : Fin n) (dir : ℤ)
    (e : ℕ) : ℤ :=
  let (f, rv) :=
    if ¬ inRange r v (otherEnd fg v e) then (true, (fg.edge e).weight)
    else (false, (if treeEdge t e then cut e else 0) - (fg.edge e).weight)
  let d : ℤ :=
    if 0 < dir then if (fg.edge e).head = v then 1 else -1
    else if (fg.edge e).tail = v then 1 else -1
  let d := if f then -d else d
  if d < 0 then -rv else rv

/-- `sadd_overflow`, after which `x_cutval` gives up. -/
def saddOverflow (a b : ℤ) : Except Fault ℤ :=
  if -2 ^ 31 ≤ a + b ∧ a + b < 2 ^ 31 then .ok (a + b) else .error .exitFailure

/-- `x_cutval`. -/
def xCutval (fg : FastGraph n) (t : TreeLists n) (r : DfsRange n) (cut : ℕ → ℤ) (f : ℕ) :
    Except Fault (ℕ → ℤ) := do
  let (v, dir) : Fin n × ℤ :=
    if r.par (fg.edge f).tail = some f then ((fg.edge f).tail, 1) else ((fg.edge f).head, -1)
  let sum ← (fg.out v ++ fg.inn v).foldlM
    (fun sum e => saddOverflow sum (xVal fg t r cut v dir e)) 0
  return update cut f sum

/-- `dfs_cutval`, with the cut values. -/
def dfsCutval (fg : FastGraph n) (t : TreeLists n) (r : DfsRange n) :
    ℕ → (ℕ → ℤ) → Fin n → Option ℕ → Except Fault (ℕ → ℤ)
  | 0, _, _, _ => .error .fuel
  | k + 1, cut, v, par => do
    let cut ← (kids fg t par v).foldlM (fun cut x => dfsCutval fg t r k cut x.2 (some x.1)) cut
    match par with
    | none => return cut
    | some f => xCutval fg t r cut f

/-- `init_cutvalues`. -/
def initCutvalues (fg : FastGraph n) (t : TreeLists n) (r : DfsRange n) (cut : ℕ → ℤ) :
    List (Fin n) → Except Fault (DfsRange n × (ℕ → ℤ))
  | [] => .error .segfault
  | v :: _ => do
    let (_, r) ← dfsRangeInit fg t r v
    let cut ← dfsCutval fg t r (n + 1) cut v none
    return (r, cut)

/-- Either loop of `leave_edge`: whether it returns, `S_i`, `rv` and `cnt`. -/
def leaveLoop (cut : ℕ → ℤ) (Search_size : ℤ) :
    List ℕ → ℕ → Option ℕ → ℤ → Bool × ℕ × Option ℕ × ℤ
  | [], i, rv, cnt => (false, i, rv, cnt)
  | f :: l, i, rv, cnt =>
    if cut f < 0 then
      let rv := match rv with
        | none => f
        | some e => if cut e > cut f then f else e
      if cnt + 1 ≥ Search_size then (true, i, some rv, cnt + 1)
      else leaveLoop cut Search_size l (i + 1) (some rv) (cnt + 1)
    else leaveLoop cut Search_size l (i + 1) rv cnt

/-- `leave_edge`, with `S_i`. -/
def leaveEdge (cut : ℕ → ℤ) (Search_size : ℤ) (Tree_edge : List ℕ) (S_i : ℕ) : Option ℕ × ℕ :=
  match leaveLoop cut Search_size (Tree_edge.drop S_i) S_i none 0 with
  | (true, i, rv, _) => (rv, i)
  | (false, i, rv, cnt) =>
    if 0 < S_i then
      let (_, i, rv, _) := leaveLoop cut Search_size (Tree_edge.take S_i) 0 rv cnt
      (rv, i)
    else (rv, i)

/-! ## The numbering -/

variable {fg : FastGraph n} {t : TreeLists n} {r : DfsRange n} {F : EdgeForest ℕ (Fin n)}
  {L : List (ℕ × Fin n)} {par : Option ℕ} {e : ℕ} {p u v w : Fin n} {nlist : List (Fin n)}
  {cut cut' : ℕ → ℤ} {f : ℕ}

/-- The forest hangs from tree edges of the graph. -/
def Hung (fg : FastGraph n) (t : TreeLists n) : List (ℕ × Fin n) → EdgeForest ℕ (Fin n) → Prop :=
  EdgeForest.Hangs fun e v => kids fg t (some e) v

/-- The nodes of the forest are numbered from `lo` on. -/
def Numbered (r : DfsRange n) (lo : ℤ) (F : EdgeForest ℕ (Fin n)) : Prop :=
  F.Numbered r.par r.low r.lim lo

/-- The search from the node on top of the stack numbers the forest below it and nothing else. -/
theorem dfsRangeLoop_hung {l : ℤ} (hF : Hung fg t L F) (hnd : F.verts.Nodup) (r : DfsRange n) :
    ∃ r', Numbered r' l F ∧
      (∀ u ∉ F.verts, r'.par u = r.par u ∧ r'.low u = r.low u ∧ r'.lim u = r.lim u) ∧
      ∀ m lim todo, ∃ lim', dfsRangeLoop fg t (m + 2 * F.size) lim r (⟨v, l, L⟩ :: todo) =
        dfsRangeLoop fg t m lim' r' (⟨v, l + F.size, []⟩ :: todo) := by
  induction F generalizing v L l r with
  | nil =>
    cases hF
    exact ⟨r, trivial, fun _ _ => ⟨rfl, rfl, rfl⟩, fun m lim todo => ⟨lim, by simp⟩⟩
  | cons e w below after ihb iha =>
    obtain ⟨L, rfl, hb, ha⟩ := hF
    obtain ⟨hwb, hwa, hndb, hnda, hdisj⟩ := (EdgeForest.nodup_cons ..).1 hnd
    obtain ⟨rb, hnb, hob, hrunb⟩ := ihb (v := w) (l := l) hb hndb
      { r with par := update r.par w (some e), low := update r.low w l }
    -- the node is left, and the search goes on from the node above
    obtain ⟨ra, hna, hoa, hruna⟩ := iha (v := v) (l := l + below.size + 1) ha hnda
      { rb with lim := update rb.lim w (l + below.size) }
    obtain ⟨g1, g2, g3⟩ := hoa w hwa
    obtain ⟨k1, k2, -⟩ := hob w hwb
    refine ⟨ra, ⟨?_, ?_, hnb.congr fun u hu => ?_, ?_, hna⟩, fun u hu => ?_, fun m lim todo => ?_⟩
    · exact (g1.trans k1).trans (update_self ..)
    · exact (g2.trans k2).trans (update_self ..)
    · obtain ⟨a1, a2, a3⟩ := hoa u fun h => hdisj hu h
      refine ⟨a1, a2, a3.trans (update_of_ne ?_ _ _)⟩
      rintro rfl
      exact hwb hu
    · exact g3.trans (update_self ..)
    · rw [EdgeForest.mem_cons, not_or, not_or] at hu
      obtain ⟨a1, a2, a3⟩ := hoa u hu.2.2
      obtain ⟨b1, b2, b3⟩ := hob u hu.2.1
      exact ⟨a1.trans (b1.trans (update_of_ne hu.1 _ _)),
        a2.trans (b2.trans (update_of_ne hu.1 _ _)), a3.trans ((update_of_ne hu.1 _ _).trans b3)⟩
    · obtain ⟨lb, hlb⟩ := hrunb (m + 2 * after.size + 1) lim (⟨v, l, L⟩ :: todo)
      obtain ⟨la, hla⟩ := hruna m (l + below.size) todo
      have hfuel : m + 2 * (below.size + 1 + after.size) =
          m + 2 * after.size + 1 + 2 * below.size + 1 := by omega
      refine ⟨la, ?_⟩
      rw [EdgeForest.size_cons, hfuel, dfsRangeLoop, hlb, dfsRangeLoop, hla]
      push_cast
      rw [add_assoc l, add_assoc l]

/-- `dfs_range_init` numbers a spanning tree. -/
theorem dfsRangeInit_hung (hF : Hung fg t (kids fg t none v) F) (hnd : (v :: F.verts).Nodup)
    (r : DfsRange n) : ∃ r', dfsRangeInit fg t r v = .ok (F.size + 2, r') ∧ r'.par v = none ∧
      r'.lim v = 1 + F.size ∧ Numbered r' 1 F := by
  obtain ⟨hv, hnd'⟩ := List.nodup_cons.1 hnd
  have hsize : F.verts.length + 1 ≤ n := by simpa using hnd.length_le_card
  rw [← EdgeForest.size] at hsize
  obtain ⟨r', hnum, hoff, hrun⟩ := dfsRangeLoop_hung (v := v) (l := 1) hF hnd'
    { r with par := update r.par v none, low := update r.low v 1 }
  obtain ⟨lim', hrun⟩ := hrun (2 * (n - F.size) + 2) 0 []
  have hfuel : 2 * n + 2 = 2 * (n - F.size) + 2 + 2 * F.size := by omega
  refine ⟨{ r' with lim := update r'.lim v (1 + F.size) }, ?_, ?_, update_self .., ?_⟩
  · rw [dfsRangeInit, hfuel, hrun]
    simp only [dfsRangeLoop]
    congr 2
    ring
  · exact (hoff v hv).1.trans (update_self ..)
  · refine hnum.congr fun u hu => ⟨rfl, rfl, update_of_ne ?_ _ _⟩
    rintro rfl
    exact hv hu

/-! ## The cut values -/

/-- The cut values as a flow in the graph: other edges carry nothing. -/
def treeFlow (t : TreeLists n) (cut : ℕ → ℤ) (e : ℕ) : ℤ := if treeEdge t e then cut e else 0

/-- The tree carries away from a node what the edges there weigh. -/
def Balanced (fg : FastGraph n) (t : TreeLists n) (cut : ℕ → ℤ) (v : Fin n) : Prop :=
  div fg.out fg.inn (treeFlow t cut) v = div fg.out fg.inn (fun e => (fg.edge e).weight) v

/-- The tree lists of a component have its tree edges. -/
structure TreeWf (fg : FastGraph n) (t : TreeLists n) (nlist : List (Fin n)) : Prop where
  treeOut : ∀ v ∈ nlist, ∀ e, e ∈ t.treeOut v ↔ e ∈ fg.out v ∧ treeEdge t e
  treeIn : ∀ v ∈ nlist, ∀ e, e ∈ t.treeIn v ↔ e ∈ fg.inn v ∧ treeEdge t e
  treeEdge : ∀ e, e ∈ t.treeEdge ↔ e ∈ nlist.flatMap fg.out ∧ NetworkSimplex.treeEdge t e

/-- The edges at a node. -/
def incident (fg : FastGraph n) (v : Fin n) : List ℕ := fg.out v ++ fg.inn v

/-- The sign of an edge at a node: whether it leads away. -/
def sign (fg : FastGraph n) (v : Fin n) (e : ℕ) : ℤ := if (fg.edge e).tail = v then 1 else -1

theorem otherEnd_out (hwf : fg.Wf) (he : e ∈ fg.out v) : otherEnd fg v e = (fg.edge e).head :=
  if_pos (hwf.out_tail he)

theorem tail_ne (hwf : fg.Wf) (he : e ∈ fg.inn v) : (fg.edge e).tail ≠ v :=
  hwf.inn_head he ▸ (hwf.loopless (hwf.listed_inn he)).symm

theorem otherEnd_inn (hwf : fg.Wf) (he : e ∈ fg.inn v) : otherEnd fg v e = (fg.edge e).tail :=
  if_neg (tail_ne hwf he)

/-- An edge at a node, and as it is at its other end. -/
theorem mem_incident (hwf : fg.Wf) (he : e ∈ incident fg v) :
    ((fg.edge e).tail = v ∧ (fg.edge e).head = otherEnd fg v e ∨
      (fg.edge e).head = v ∧ (fg.edge e).tail = otherEnd fg v e) ∧ otherEnd fg v e ≠ v ∧
      e ∈ incident fg (otherEnd fg v e) ∧ otherEnd fg (otherEnd fg v e) e = v := by
  rcases mem_append.1 he with ho | hi
  · have hi := (hwf.out_inn e).1 (hwf.listed ho)
    rw [otherEnd_out hwf ho, otherEnd_inn hwf hi]
    exact ⟨.inl ⟨hwf.out_tail ho, rfl⟩, hwf.loopless ho, mem_append_right _ hi, hwf.out_tail ho⟩
  · have ho := hwf.listed_inn hi
    rw [otherEnd_inn hwf hi, otherEnd_out hwf ho]
    exact ⟨.inr ⟨hwf.inn_head hi, rfl⟩, tail_ne hwf hi, mem_append_left _ ho, hwf.inn_head hi⟩

theorem mem_kids (hwf : fg.Wf) (ht : TreeWf fg t nlist) (hv : v ∈ nlist) :
    (e, w) ∈ kids fg t par v ↔
      e ∈ incident fg v ∧ treeEdge t e ∧ otherEnd fg v e = w ∧ some e ≠ par := by
  have ho := otherEnd_out (e := e) (v := v) hwf
  have hi := otherEnd_inn (e := e) (v := v) hwf
  simp only [kids, incident, mem_filter, mem_append, mem_map, Prod.mk.injEq, ht.treeOut v hv,
    ht.treeIn v hv]
  grind

theorem div_eq (hwf : fg.Wf) (c : ℕ → ℤ) :
    div fg.out fg.inn c v = ((incident fg v).map fun e => sign fg v e * c e).sum := by
  have ho : ∀ e ∈ fg.out v, sign fg v e * c e = 1 * c e := fun e he => by
    rw [sign, if_pos (hwf.out_tail he)]
  have hi : ∀ e ∈ fg.inn v, sign fg v e * c e = -1 * c e := fun e he => by
    rw [sign, if_neg (tail_ne hwf he)]
  rw [incident, map_append, sum_append, map_congr_left ho, map_congr_left hi, sum_map_mul_left,
    sum_map_mul_left, div]
  ring

/-- What `x_val` adds to the sum for an edge at the node. -/
theorem xVal_eq (hwf : fg.Wf) (he : e ∈ incident fg v) {dir : ℤ} (hdir : dir = 1 ∨ dir = -1) :
    xVal fg t r cut v dir e = dir * (sign fg v e *
      ((fg.edge e).weight - if inRange r v (otherEnd fg v e) then treeFlow t cut e else 0)) := by
  obtain ⟨hends, hne, -⟩ := mem_incident hwf he
  rcases hdir with rfl | rfl <;> rcases hends with ⟨rfl, hw⟩ | ⟨rfl, hw⟩ <;>
    cases h : inRange r _ (otherEnd fg _ e) <;> simp_all [xVal, treeFlow, sign]

/-- The sum is right, or `x_cutval` gives up. -/
theorem foldlM_saddOverflow (g : ℕ → ℤ) (l : List ℕ) (a : ℤ) :
    Meets (l.foldlM (fun sum e => saddOverflow sum (g e)) a) (· = a + (l.map g).sum)
      (· = .exitFailure) := by
  induction l generalizing a with
  | nil => simp [Meets, pure, Except.pure]
  | cons e l ih =>
    rw [foldlM_cons, saddOverflow]
    split
    · refine (ih _).imp fun s hs => ?_
      rw [hs, map_cons, sum_cons]
      ring
    · rfl

/-- `x_cutval` at the edge above a node balances the node, when the other tree edges lead into the
range. -/
theorem xCutval_balanced (hwf : fg.Wf) (hpar : r.par v = some f) (hf : f ∈ incident fg v)
    (ht : treeEdge t f) (hno : ¬ inRange r v (otherEnd fg v f))
    (hpar' : r.par (otherEnd fg v f) ≠ some f)
    (hin : ∀ e ∈ incident fg v, treeEdge t e → e ≠ f → inRange r v (otherEnd fg v e)) :
    Meets (xCutval fg t r cut f) (fun cut' => (∀ g ≠ f, cut' g = cut g) ∧ Balanced fg t cut' v)
      (· = .exitFailure) := by
  -- where the sum is made, and with which sign
  have hsel : (if r.par (fg.edge f).tail = some f then ((fg.edge f).tail, (1 : ℤ))
      else ((fg.edge f).head, -1)) = (v, sign fg v f) := by
    obtain ⟨⟨htl, -⟩ | ⟨hhd, htl⟩, hne, -⟩ := mem_incident hwf hf
    · rw [if_pos (by rw [htl, hpar]), sign, if_pos htl, htl]
    · rw [if_neg (by rwa [htl]), sign, if_neg (by rwa [htl]), hhd]
  have hsign : sign fg v f = 1 ∨ sign fg v f = -1 := ite_eq_or_eq ..
  have hnd : (incident fg v).Nodup := (hwf.out_nodup v).append (hwf.inn_nodup v) fun e ho hi =>
    hwf.loopless ho (hwf.inn_head hi)
  rw [xCutval]
  simp only [hsel]
  refine (foldlM_saddOverflow _ _ _).bind fun s hs => ⟨fun g hg => update_of_ne hg _ _, ?_⟩
  rw [← incident, zero_add, map_congr_left fun e he => xVal_eq hwf he hsign, sum_map_mul_left] at hs
  simp only [mul_sub] at hs
  rw [sum_map_sub] at hs
  -- the sums differ at the edge only
  have herase : ∀ e ∈ (incident fg v).erase f,
      sign fg v e * treeFlow t (update cut f s) e = sign fg v e *
        if inRange r v (otherEnd fg v e) then treeFlow t cut e else 0 := fun e he => by
    obtain ⟨hne, he⟩ := (hnd.mem_erase_iff).1 he
    by_cases hte : treeEdge t e
    · rw [if_pos (hin e he hte hne), treeFlow, update_of_ne hne, treeFlow]
    · simp [treeFlow, hte]
  have hsum := sum_map_erase (fun e => sign fg v e * treeFlow t (update cut f s) e) hf
  have hsum' := sum_map_erase (fun e => sign fg v e *
    if inRange r v (otherEnd fg v e) then treeFlow t cut e else 0) hf
  have hs_f : treeFlow t (update cut f s) f = s := by simp [treeFlow, ht]
  rw [map_congr_left herase, hs_f] at hsum
  rw [if_neg hno, mul_zero, zero_add] at hsum'
  rw [Balanced, div_eq hwf, div_eq hwf, ← hsum, hsum']
  rcases hsign with h | h <;> rw [h] at hs ⊢ <;> linarith

/-- The edges at a node decide whether it is balanced. -/
theorem Balanced.congr (hwf : fg.Wf) (h : Balanced fg t cut u)
    (hsame : ∀ g ∈ incident fg u, cut' g = cut g) : Balanced fg t cut' u := by
  rw [Balanced, ← h, div_eq hwf, div_eq hwf]
  exact congrArg sum (map_congr_left fun g hg => by rw [treeFlow, hsame g hg, treeFlow])

/-- The search below a node sets the cut values there and balances the nodes. It changes those of
the edges between these nodes only. -/
theorem dfsCutval_hung (hwf : fg.Wf) (ht : TreeWf fg t nlist) {m : ℕ} {lo : ℤ}
    (hF : Hung fg t L F) (hnd : (p :: F.verts).Nodup) (hsub : ∀ u ∈ p :: F.verts, u ∈ nlist)
    (hnum : Numbered r lo F) (hlim : lo + F.size ≤ r.lim p)
    (hL : ∀ x ∈ L, x ∈ kids fg t (r.par p) p) (hm : F.size < m) :
    Meets (L.foldlM (fun cut x => dfsCutval fg t r m cut x.2 (some x.1)) cut)
      (fun cut' => (∀ g, (fg.edge g).tail ∉ p :: F.verts ∨ (fg.edge g).head ∉ p :: F.verts →
        cut' g = cut g) ∧ ∀ u ∈ F.verts, Balanced fg t cut' u) (· = .exitFailure) := by
  induction F generalizing L p lo m cut with
  | nil =>
    cases hF
    exact ⟨fun _ _ => rfl, nofun⟩
  | cons e w below after ihb iha =>
    obtain ⟨L, rfl, hFb, hFa⟩ := hF
    obtain ⟨hpar, hlow, hnb, hlw, hna⟩ := hnum
    obtain ⟨hp, hnd⟩ := List.nodup_cons.1 hnd
    obtain ⟨hwb, hwa, hndb, hnda, hdisj⟩ := (EdgeForest.nodup_cons ..).1 hnd
    rw [EdgeForest.size_cons] at hm hlim
    push_cast at hlim
    have hbsub : w :: below.verts ⊆ (EdgeForest.cons e w below after).verts :=
      subset_append_left ..
    have hasub : p :: after.verts ⊆ p :: (EdgeForest.cons e w below after).verts :=
      cons_subset_cons p (subset_append_right ..)
    have hpn : p ∈ nlist := hsub p mem_cons_self
    have hwn : w ∈ nlist := hsub w (mem_cons_of_mem _ (hbsub mem_cons_self))
    obtain ⟨hep, hte, rfl, hpe⟩ := (mem_kids hwf ht hpn).1 (hL (e, w) mem_cons_self)
    obtain ⟨hends, -, hew, hother⟩ := mem_incident hwf hep
    generalize otherEnd fg p e = w at *
    have hno : ¬ inRange r w p := by
      simp only [inRange, decide_eq_true_eq, not_and]
      omega
    obtain ⟨m, rfl⟩ : ∃ m', m = m' + 1 := ⟨m - 1, by omega⟩
    rw [foldlM_cons, dfsCutval, bind_assoc]
    refine (ihb (p := w) hFb (List.nodup_cons.2 ⟨hwb, hndb⟩)
      (fun u hu => hsub u (mem_cons_of_mem _ (hbsub hu))) hnb (by omega)
      (fun x hx => hpar.symm ▸ hx) (by omega)).bind fun cut₁ ⟨hoff₁, hbal₁⟩ => ?_
    refine (xCutval_balanced hwf hpar hew hte (by rwa [hother]) (hother ▸ hpe.symm)
      fun g hg htg hge => ?_).bind fun cut₂ ⟨hoff₂, hbal₂⟩ => ?_
    · have hgk := (mem_kids hwf ht hwn).2 ⟨hg, htg, rfl, fun h => hge (Option.some.inj h)⟩
      have := EdgeForest.Numbered.bounds hnb (EdgeForest.Hangs.mem hFb hgk)
      simp only [inRange, decide_eq_true_eq]
      omega
    refine (iha hFa (List.nodup_cons.2 ⟨fun h => hp (mem_append_right _ h), hnda⟩)
      (fun u hu => hsub u (hasub hu)) hna (by omega)
      (fun x hx => hL x (mem_cons_of_mem _ hx)) (by omega)).imp
      fun cut₃ ⟨hoff₃, hbal₃⟩ => ⟨fun g hg => ?_, fun u hu => ?_⟩
    · have hge : g ≠ e := by
        rintro rfl
        have hwp := hbsub mem_cons_self
        rcases hends with ⟨h, h'⟩ | ⟨h, h'⟩ <;> rw [h, h'] at hg <;> simp [hwp] at hg
      rw [hoff₃ g (hg.imp (mt (@hasub _)) (mt (@hasub _))), hoff₂ g hge]
      have hw := Subset.trans hbsub (subset_cons_self p _)
      exact hoff₁ g (hg.imp (mt (@hw _)) (mt (@hw _)))
    · have hkeep : ∀ {u}, u ∈ w :: below.verts → Balanced fg t cut₂ u →
          Balanced fg t cut₃ u := fun {u} hu h => h.congr hwf fun g hg => hoff₃ g <| by
        have hua : u ∉ p :: after.verts := by
          rintro (_ | ⟨_, h⟩)
          · exact hp (hbsub hu)
          · rcases List.mem_cons.1 hu with rfl | hu
            · exact hwa h
            · exact hdisj hu h
        rcases (mem_incident hwf hg).1 with ⟨rfl, -⟩ | ⟨rfl, -⟩
        exacts [.inl hua, .inr hua]
      rcases (EdgeForest.mem_cons ..).1 hu with rfl | hu' | hu'
      · exact hkeep mem_cons_self hbal₂
      · refine hkeep (mem_cons_of_mem _ hu') ((hbal₁ u hu').congr hwf fun g hg => hoff₂ g ?_)
        rintro rfl
        have huw : u ≠ w := fun h => hwb (h ▸ hu')
        have hup : u ≠ p := fun h => hp (h ▸ hu)
        rcases hends with ⟨h₁, h₂⟩ | ⟨h₁, h₂⟩ <;>
          rcases (mem_incident hwf hg).1 with ⟨h, -⟩ | ⟨h, -⟩
        · exact hup (h.symm.trans h₁)
        · exact huw (h.symm.trans h₂)
        · exact huw (h.symm.trans h₂)
        · exact hup (h.symm.trans h₁)
      · exact hbal₃ u hu'

/-- The component has a spanning tree, which hangs from the first node. -/
structure Spanned (fg : FastGraph n) (t : TreeLists n) (nlist : List (Fin n)) : Prop where
  wf : fg.Wf
  closed : ∀ {u w}, fg.Adj u w → (u ∈ nlist ↔ w ∈ nlist)
  nodup : nlist.Nodup
  tree : TreeWf fg t nlist
  hung : ∃ root rest F, nlist = root :: rest ∧ Hung fg t (kids fg t none root) F ∧
    (root :: F.verts).Perm nlist

theorem Spanned.incident (h : Spanned fg t nlist) : Incident (fun e => (fg.edge e).tail)
    (fun e => (fg.edge e).head) fg.out fg.inn nlist := by
  have ho := nodup_flatMap (b := fun e => (fg.edge e).tail) h.nodup
    (fun v _ => h.wf.out_nodup v) fun v _ e he => h.wf.out_tail he
  refine ⟨fun v _ e he => h.wf.out_tail he, fun v _ e he => h.wf.inn_head he, ho, ?_⟩
  refine (perm_ext_iff_of_nodup ho (nodup_flatMap (b := fun e => (fg.edge e).head) h.nodup
    (fun v _ => h.wf.inn_nodup v) fun v _ e he => h.wf.inn_head he)).2 fun e => ?_
  simp only [mem_flatMap]
  constructor <;> rintro ⟨v, hv, he⟩
  · exact ⟨_, (h.closed ⟨e, he, rfl⟩).1 hv, (h.wf.out_inn e).1 (h.wf.listed he)⟩
  · exact ⟨_, (h.closed (h.wf.adj_iff_inn.2 ⟨e, he, rfl⟩)).2 hv, h.wf.listed_inn he⟩

/-- `init_cutvalues` balances every node. -/
theorem initCutvalues_balanced (h : Spanned fg t nlist) (r : DfsRange n) (cut : ℕ → ℤ) :
    Meets (initCutvalues fg t r cut nlist) (fun x => ∀ v ∈ nlist, Balanced fg t x.2 v)
      (· = .exitFailure) := by
  obtain ⟨root, rest, F, rfl, hF, hperm⟩ := h.hung
  have hndF := hperm.nodup_iff.2 h.nodup
  have hsize : F.verts.length + 1 ≤ n := by simpa using hndF.length_le_card
  obtain ⟨r', hrun, hpar, hlim, hnum⟩ := dfsRangeInit_hung hF hndF r
  rw [initCutvalues, hrun, ok_bind]
  dsimp only
  rw [dfsCutval, bind_assoc]
  refine (dfsCutval_hung h.wf h.tree hF hndF (fun u hu => hperm.subset hu) hnum hlim.ge
    (fun x hx => by rwa [hpar]) hsize).bind fun cut' ⟨_, hbal⟩ v hv => ?_
  rcases List.mem_cons.1 (hperm.symm.subset hv) with rfl | hv
  · -- the first node is balanced because the others are
    have hsums := (h.incident.sum_div (c := treeFlow t cut')).trans
      (h.incident.sum_div (c := fun e => (fg.edge e).weight)).symm
    rw [← (hperm.map _).sum_eq, ← (hperm.map _).sum_eq, map_cons, map_cons, sum_cons, sum_cons,
      map_congr_left hbal] at hsums
    exact add_right_cancel hsums
  · exact hbal v hv

/-! ## Cut values and best ranks -/

/-- The edges of a component. -/
def edges (fg : FastGraph n) (nlist : List (Fin n)) : List ℕ := nlist.flatMap fg.out

/-- The weight of the edges that lead out of a set of nodes. -/
def weightOut (fg : FastGraph n) (nlist : List (Fin n)) (S : Finset (Fin n)) : ℤ :=
  (((edges fg nlist).filter fun g => (fg.edge g).tail ∈ S ∧ (fg.edge g).head ∉ S).map
    fun g => (fg.edge g).weight).sum

/-- The ranks keep the edges as long as they have to be. -/
def Feasible (fg : FastGraph n) (nlist : List (Fin n)) (rank : Fin n → ℤ) : Prop :=
  ∀ e ∈ edges fg nlist, (fg.edge e).minlen ≤ rank (fg.edge e).head - rank (fg.edge e).tail

/-- What the network simplex minimises: the lengths of the edges, by their weights. -/
def cost (fg : FastGraph n) (nlist : List (Fin n)) (rank : Fin n → ℤ) : ℤ :=
  ((edges fg nlist).map fun e =>
    (fg.edge e).weight * (rank (fg.edge e).head - rank (fg.edge e).tail)).sum

theorem leaveLoop_none {Search_size cnt : ℤ} {l : List ℕ} {i : ℕ} {rv : Option ℕ}
    (h : (leaveLoop cut Search_size l i rv cnt).2.2.1 = none) :
    (leaveLoop cut Search_size l i rv cnt).1 = false ∧ rv = none ∧ ∀ e ∈ l, 0 ≤ cut e := by
  induction l generalizing i rv cnt with
  | nil => exact ⟨rfl, h, nofun⟩
  | cons f l ih =>
    simp only [leaveLoop] at h ⊢
    split at h
    next =>
      split at h
      · cases h
      · cases (ih h).2.1
    next hf =>
      obtain ⟨h1, h2, h3⟩ := ih h
      rw [if_neg hf]
      exact ⟨h1, h2, forall_mem_cons.2 ⟨not_lt.1 hf, h3⟩⟩

/-- `leave_edge` finds no edge only where no cut value is negative. -/
theorem leaveEdge_none {Search_size : ℤ} {l : List ℕ} {i : ℕ}
    (h : (leaveEdge cut Search_size l i).1 = none) : ∀ e ∈ l, 0 ≤ cut e := by
  have hnone := @leaveLoop_none cut Search_size 0 (l.drop i) i none
  rw [leaveEdge] at h
  split at h
  next heq =>
    rw [heq] at hnone
    cases (hnone h).1
  next heq =>
    rw [heq] at hnone
    split at h
    next =>
      obtain ⟨-, rfl, htake⟩ := leaveLoop_none h
      intro e he
      rw [← take_append_drop i l, mem_append] at he
      exact he.elim (htake e) ((hnone rfl).2.2 e)
    next hi =>
      rw [Nat.eq_zero_of_not_pos hi, drop_zero] at hnone
      exact (hnone h).2.2

attribute [local instance] Instances.neZero_two

/-- Two nodes and an edge. -/
def oneEdge : FastGraph 2 where
  edge _ := ⟨0, 1, 1, 1, 1, 1, none, none⟩
  next := 1
  out v := if v = 0 then [0] else []
  inn v := if v = 1 then [0] else []

/-- The edge as the tree. -/
def oneEdgeTree : TreeLists 2 :=
  ⟨oneEdge.out, oneEdge.inn, fun e => if e = 0 then 0 else -1, [0]⟩

theorem oneEdge_spanned : Spanned oneEdge oneEdgeTree [0, 1] where
  wf := by constructor <;> simp +contextual [oneEdge, Fin.forall_fin_two]
  closed {u w} _ := by fin_cases u <;> fin_cases w <;> simp
  nodup := by decide
  tree := by constructor <;> simp +contextual [oneEdge, oneEdgeTree, treeEdge]
  hung := ⟨0, [1], .cons 0 1 .nil .nil, rfl, ⟨[], rfl, rfl, rfl⟩, .refl _⟩

end Graphviz.NetworkSimplex
