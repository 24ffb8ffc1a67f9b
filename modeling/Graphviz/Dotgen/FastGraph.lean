import Graphviz.Library.RelGraph
import Graphviz.Util.Fault
import Mathlib

/-!
# The fast graph (`dotgen/fastgr.c`)

The internal graph of `dot`: edges in a table indexed by their identity, and for each of the nodes
`0, …, n - 1` the lists `ND_out` and `ND_in` of the edges that leave and enter it. An edge of the
table that is on no list is an input edge or has been deleted.
-/

namespace Graphviz

open Function

variable {n : ℕ}

/-- The fields of an edge that the ranking phase reads. -/
structure Fedge (n : ℕ) where
  tail : Fin n
  head : Fin n
  count : ℤ
  xpenalty : ℤ
  weight : ℤ
  minlen : ℤ
  toVirt : Option ℕ
  toOrig : Option ℕ
  deriving DecidableEq, Repr

/-- The edge table, its first free identity, and the lists of each node. -/
structure FastGraph (n : ℕ) where
  edge : ℕ → Fedge n
  next : ℕ
  out : Fin n → List ℕ
  inn : Fin n → List ℕ

namespace FastGraph

/-- Writes the record of an edge. -/
def setEdge (g : FastGraph n) (e : ℕ) (x : Fedge n) : FastGraph n :=
  { g with edge := update g.edge e x }

/-- `ffe`: an edge from `u` to `v`, looked for in the shorter of the two lists. -/
def ffe (g : FastGraph n) (u : Fin n) (uL : List ℕ) (v : Fin n) (vL : List ℕ) : Option ℕ :=
  if 0 < uL.length ∧ 0 < vL.length then
    if uL.length < vL.length then uL.find? fun e => (g.edge e).head = v
    else vL.find? fun e => (g.edge e).tail = u
  else none

/-- `find_fast_edge`. -/
def findFastEdge (g : FastGraph n) (u v : Fin n) : Option ℕ :=
  g.ffe u (g.out u) v (g.inn v)

/-- `fast_edge`: appends an edge to the lists of its ends. -/
def fastEdge (g : FastGraph n) (e : ℕ) : FastGraph n :=
  let t := (g.edge e).tail
  let h := (g.edge e).head
  { g with out := update g.out t (g.out t ++ [e]), inn := update g.inn h (g.inn h ++ [e]) }

/-- `zapinlist`: removes an edge and fills the hole with the last member of the list. -/
def zapinlist (L : List ℕ) (e : ℕ) : List ℕ :=
  if e ∈ L then (L.set (L.idxOf e) (L.getLastD e)).dropLast else L

/-- `delete_fast_edge`. -/
def deleteFastEdge (g : FastGraph n) (e : ℕ) : FastGraph n :=
  let t := (g.edge e).tail
  let h := (g.edge e).head
  { g with out := update g.out t (zapinlist (g.out t) e)
           inn := update g.inn h (zapinlist (g.inn h) e) }

/-- `new_virtual_edge`: a new edge, attached to the edge it stands for. -/
def newVirtualEdge (g : FastGraph n) (u v : Fin n) (orig : Option ℕ) : FastGraph n × ℕ :=
  let e := g.next
  let g := { g with next := e + 1 }
  match orig with
  | some o =>
    let x := g.edge o
    let g := g.setEdge e { x with tail := u, head := v, toVirt := none, toOrig := some o }
    (if x.toVirt = none then g.setEdge o { x with toVirt := some e } else g, e)
  | none => (g.setEdge e ⟨u, v, 1, 1, 1, 1, none, none⟩, e)

/-- `virtual_edge`. -/
def virtualEdge (g : FastGraph n) (u v : Fin n) (orig : Option ℕ) : FastGraph n × ℕ :=
  let (g, e) := g.newVirtualEdge u v orig
  (g.fastEdge e, e)

/-- The loop of `basic_merge` along the chain of `ED_to_virt`. -/
def mergeChain : ℕ → FastGraph n → ℕ → Option ℕ → Except Fault (FastGraph n)
  | _, g, _, none => .ok g
  | 0, _, _, some _ => .error .fuel
  | k + 1, g, e, some rep =>
    let x := g.edge e
    let y := g.edge rep
    let g := g.setEdge rep { y with
      count := y.count + x.count
      xpenalty := y.xpenalty + x.xpenalty
      weight := y.weight + x.weight }
    mergeChain k g e (g.edge rep).toVirt

/-- `basic_merge`. -/
def basicMerge (g : FastGraph n) (e rep : ℕ) : Except Fault (FastGraph n) :=
  let x := g.edge e
  let y := g.edge rep
  let g := if y.minlen < x.minlen then g.setEdge rep { y with minlen := x.minlen } else g
  mergeChain (g.next + 1) g e (some rep)

/-- `merge_oneway`. The warning leaves the graph as it is. -/
def mergeOneway (g : FastGraph n) (e rep : ℕ) : Except Fault (FastGraph n) :=
  if some rep = (g.edge e).toVirt ∨ some e = (g.edge rep).toVirt then .ok g
  else do
    assert ((g.edge e).toVirt = none)
    let g := g.setEdge e { g.edge e with toVirt := some rep }
    g.basicMerge e rep

/-- `reverse_edge` (`acyclic.c`). -/
def reverseEdge (g : FastGraph n) (e : ℕ) : Except Fault (FastGraph n) :=
  let g := g.deleteFastEdge e
  let t := (g.edge e).tail
  let h := (g.edge e).head
  match g.findFastEdge h t with
  | some f => g.mergeOneway e f
  | none => .ok (g.virtualEdge h t (some e)).1

end FastGraph

end Graphviz

/-!
## The invariant of the fast graph

The two list families of a fast graph agree, no list has two edges to one neighbour, no edge is a
loop, and a listed edge stands for itself (`Wf`). Each operation is given by what it does to the
out lists; from that follow the edges it leaves (`Adj`).
-/

namespace Graphviz.FastGraph

open Function List Outcome

variable {n : ℕ} {g g' : FastGraph n} {u v : Fin n}

/-! ## Edges -/

/-- Some listed edge leads from `u` to `v`. -/
def Adj (g : FastGraph n) (u v : Fin n) : Prop :=
  ∃ e ∈ g.out u, (g.edge e).head = v

instance (g : FastGraph n) (u v : Fin n) : Decidable (g.Adj u v) :=
  inferInstanceAs (Decidable (∃ e ∈ g.out u, (g.edge e).head = v))

/-- The edge is on the out list of its tail. -/
def Listed (g : FastGraph n) (e : ℕ) : Prop :=
  e ∈ g.out (g.edge e).tail

/-- The invariant of the fast graph. -/
structure Wf (g : FastGraph n) : Prop where
  out_tail : ∀ {v e}, e ∈ g.out v → (g.edge e).tail = v
  inn_head : ∀ {v e}, e ∈ g.inn v → (g.edge e).head = v
  out_inn : ∀ e, e ∈ g.out (g.edge e).tail ↔ e ∈ g.inn (g.edge e).head
  heads : ∀ v, ((g.out v).map fun e => (g.edge e).head).Nodup
  tails : ∀ v, ((g.inn v).map fun e => (g.edge e).tail).Nodup
  loopless : ∀ {v e}, e ∈ g.out v → (g.edge e).head ≠ v
  fresh : ∀ {v e}, e ∈ g.out v → e < g.next
  virt : ∀ {v e}, e ∈ g.out v → (g.edge e).toVirt = none

namespace Wf

/-- An edge on an out list is listed. -/
theorem listed (h : g.Wf) {v : Fin n} {e : ℕ} (he : e ∈ g.out v) : g.Listed e := by
  rw [Listed, h.out_tail he]; exact he

/-- An edge on an in list is listed. -/
theorem listed_inn (h : g.Wf) {v : Fin n} {e : ℕ} (he : e ∈ g.inn v) : g.Listed e := by
  rw [Listed, h.out_inn, h.inn_head he]; exact he

/-- No edge is twice on an out list. -/
theorem out_nodup (h : g.Wf) (v : Fin n) : (g.out v).Nodup :=
  (h.heads v).of_map

/-- No edge is twice on an in list. -/
theorem inn_nodup (h : g.Wf) (v : Fin n) : (g.inn v).Nodup :=
  (h.tails v).of_map

/-- A node has at most one out edge for each node. -/
theorem out_length (h : g.Wf) (v : Fin n) : (g.out v).length ≤ n := by
  simpa using (h.heads v).length_le_card

/-- A node has at most one in edge for each node. -/
theorem inn_length (h : g.Wf) (v : Fin n) : (g.inn v).length ≤ n := by
  simpa using (h.tails v).length_le_card

/-- The in lists hold the same edges. -/
theorem adj_iff_inn (h : g.Wf) {u v : Fin n} : g.Adj u v ↔ ∃ e ∈ g.inn v, (g.edge e).tail = u := by
  constructor
  · rintro ⟨e, he, rfl⟩
    exact ⟨e, (h.out_inn e).1 (h.listed he), h.out_tail he⟩
  · rintro ⟨e, he, rfl⟩
    exact ⟨e, h.listed_inn he, h.inn_head he⟩

/-- No node is its own neighbour. -/
theorem adj_ne (h : g.Wf) {u v : Fin n} (huv : g.Adj u v) : u ≠ v := by
  obtain ⟨e, he, rfl⟩ := huv
  exact (h.loopless he).symm

/-- A node without out edges is a sink. -/
theorem out_nil : g.out v = [] ↔ RelGraph.Sink g.Adj v := by
  constructor
  · rintro hnil w ⟨e, he, -⟩
    rw [hnil] at he
    cases he
  · intro hs
    refine eq_nil_iff_forall_not_mem.2 fun e he => hs _ ⟨e, he, rfl⟩

/-- A node without in edges is a source. -/
theorem inn_nil (h : g.Wf) : g.inn v = [] ↔ RelGraph.Source g.Adj v := by
  constructor
  · intro hnil w hw
    obtain ⟨e, he, -⟩ := h.adj_iff_inn.1 hw
    rw [hnil] at he
    cases he
  · intro hs
    refine eq_nil_iff_forall_not_mem.2 fun e he => hs _ (h.adj_iff_inn.2 ⟨e, he, rfl⟩)

/-- Two edges of an out list with one head are one edge. -/
theorem out_inj (h : g.Wf) {v : Fin n} {e f : ℕ} (he : e ∈ g.out v) (hf : f ∈ g.out v)
    (hef : (g.edge e).head = (g.edge f).head) : e = f :=
  inj_on_of_nodup_map (h.heads v) he hf hef

/-- `find_fast_edge` finds a listed edge from `u` to `v`. -/
theorem findFastEdge_some (h : g.Wf) {u v : Fin n} {e : ℕ} (he : g.findFastEdge u v = some e) :
    e ∈ g.out u ∧ (g.edge e).head = v := by
  unfold findFastEdge ffe at he
  split at he
  next =>
    split at he
    next =>
      have hp : (g.edge e).head = v := by simpa using find?_some he
      exact ⟨mem_of_find?_eq_some he, hp⟩
    next =>
      have hp : (g.edge e).tail = u := by simpa using find?_some he
      have hm := mem_of_find?_eq_some he
      have hl := h.listed_inn hm
      rw [Listed, hp] at hl
      exact ⟨hl, h.inn_head hm⟩
  next => cases he

/-- `find_fast_edge` fails only when no edge leads from `u` to `v`. -/
theorem findFastEdge_none (h : g.Wf) {u v : Fin n} (he : g.findFastEdge u v = none) :
    ¬ g.Adj u v := by
  intro hadj
  obtain ⟨e, hout, hhead⟩ := hadj
  obtain ⟨f, hinn, htail⟩ := h.adj_iff_inn.1 ⟨e, hout, hhead⟩
  unfold findFastEdge ffe at he
  rw [if_pos ⟨length_pos_of_mem hout, length_pos_of_mem hinn⟩] at he
  split at he
  next => exact find?_eq_none.1 he e hout (decide_eq_true hhead)
  next => exact find?_eq_none.1 he f hinn (decide_eq_true htail)

end Wf

/-! ## Changes that keep the shape -/

/-- The lists, the ends of every edge and the chains of the listed edges are as they were. -/
structure SameShape (g g' : FastGraph n) : Prop where
  out : g'.out = g.out
  inn : g'.inn = g.inn
  next : g'.next = g.next
  tail : ∀ e, (g'.edge e).tail = (g.edge e).tail
  head : ∀ e, (g'.edge e).head = (g.edge e).head
  virt : ∀ {v e}, e ∈ g.out v → (g'.edge e).toVirt = (g.edge e).toVirt

namespace SameShape

/-- Nothing changes. -/
theorem rfl (g : FastGraph n) : SameShape g g :=
  ⟨.refl _, .refl _, .refl _, fun _ => .refl _, fun _ => .refl _, fun _ => .refl _⟩

/-- One change after another. -/
theorem trans {g'' : FastGraph n} (h : SameShape g g') (h' : SameShape g' g'') :
    SameShape g g'' where
  out := h'.out.trans h.out
  inn := h'.inn.trans h.inn
  next := h'.next.trans h.next
  tail e := (h'.tail e).trans (h.tail e)
  head e := (h'.head e).trans (h.head e)
  virt he := (h'.virt (by rw [h.out]; exact he)).trans (h.virt he)

/-- The invariant depends on the shape alone. -/
theorem wf (h : SameShape g g') (hg : g.Wf) : g'.Wf where
  out_tail he := by rw [h.out] at he; rw [h.tail]; exact hg.out_tail he
  inn_head he := by rw [h.inn] at he; rw [h.head]; exact hg.inn_head he
  out_inn e := by rw [h.out, h.inn, h.tail, h.head]; exact hg.out_inn e
  heads v := by simp only [h.out, h.head]; exact hg.heads v
  tails v := by simp only [h.inn, h.tail]; exact hg.tails v
  loopless he := by rw [h.out] at he; rw [h.head]; exact hg.loopless he
  fresh he := by rw [h.out] at he; rw [h.next]; exact hg.fresh he
  virt he := by rw [h.out] at he; rw [h.virt he]; exact hg.virt he

/-- The edges depend on the shape alone. -/
theorem adj (h : SameShape g g') {u v : Fin n} : g'.Adj u v ↔ g.Adj u v := by
  simp only [Adj, h.out, h.head]

end SameShape

/-- Writing a record with the same ends and chain keeps the shape. -/
theorem setEdge_sameShape {e : ℕ} {x : Fedge n} (ht : x.tail = (g.edge e).tail)
    (hh : x.head = (g.edge e).head)
    (hv : ∀ {v}, e ∈ g.out v → x.toVirt = (g.edge e).toVirt) : SameShape g (g.setEdge e x) := by
  refine ⟨rfl, rfl, rfl, fun f => ?_, fun f => ?_, @fun v f hf => ?_⟩
  all_goals
    by_cases hfe : f = e
    · subst hfe
      simp only [setEdge, update_self]
      first | exact ht | exact hh | exact hv hf
    · simp only [setEdge, update_of_ne hfe]

/-- `basic_merge` into an edge that stands for itself keeps the shape. -/
theorem basicMerge_spec {e rep : ℕ} (hrep : (g.edge rep).toVirt = none) :
    Meets (g.basicMerge e rep) (SameShape g) fun _ => False := by
  unfold basicMerge
  -- the first test sets the length alone
  have hmin : ∀ g1 : FastGraph n, SameShape g g1 → (g1.edge rep).toVirt = none →
      Meets (mergeChain (g1.next + 1) g1 e (some rep)) (SameShape g) fun _ => False := by
    intro g1 h1 hr
    have hs : SameShape g1 (g1.setEdge rep { g1.edge rep with
        count := (g1.edge rep).count + (g1.edge e).count
        xpenalty := (g1.edge rep).xpenalty + (g1.edge e).xpenalty
        weight := (g1.edge rep).weight + (g1.edge e).weight }) :=
      setEdge_sameShape rfl rfl fun _ => rfl
    unfold mergeChain
    have hend : ((g1.setEdge rep { g1.edge rep with
        count := (g1.edge rep).count + (g1.edge e).count
        xpenalty := (g1.edge rep).xpenalty + (g1.edge e).xpenalty
        weight := (g1.edge rep).weight + (g1.edge e).weight }).edge rep).toVirt = none := by
      simp only [setEdge, update_self]
      exact hr
    simp only [hend]
    unfold mergeChain
    exact h1.trans hs
  simp only
  split
  next =>
    refine hmin _ (setEdge_sameShape rfl rfl fun _ => rfl) ?_
    simp only [setEdge, update_self]
    exact hrep
  next => exact hmin g (.rfl g) hrep

/-- `merge_oneway` of an unlisted edge into a listed one keeps the shape. -/
theorem mergeOneway_spec (hg : g.Wf) {e rep : ℕ} {v : Fin n} (he : ∀ v, e ∉ g.out v)
    (hv : (g.edge e).toVirt = none) (hrep : rep ∈ g.out v) :
    Meets (g.mergeOneway e rep) (SameShape g) fun _ => False := by
  have hne : rep ≠ e := by rintro rfl; exact he v hrep
  have hr := hg.virt hrep
  unfold mergeOneway
  rw [if_neg (by rw [hv, hr]; simp)]
  refine Meets.assert hv ?_
  have hs : SameShape g (g.setEdge e { g.edge e with toVirt := some rep }) :=
    setEdge_sameShape rfl rfl fun h => absurd h (he _)
  refine (basicMerge_spec ?_).imp fun g' h' => hs.trans h'
  simp only [setEdge, update_of_ne hne]
  exact hr

/-! ## Deleting an edge -/

/-- `zapinlist` keeps what stands before the edge and reorders what stands behind it. -/
theorem zapinlist_append {a b : List ℕ} {e : ℕ} (he : e ∉ a) :
    ∃ b', b'.Perm b ∧ zapinlist (a ++ e :: b) e = a ++ b' := by
  have hmem : e ∈ a ++ e :: b := mem_append_right _ mem_cons_self
  have hidx : (a ++ e :: b).idxOf e = a.length := by
    rw [idxOf_append_of_notMem he, idxOf_cons_self, Nat.add_zero]
  rw [zapinlist, if_pos hmem, hidx, set_append_right _ _ le_rfl, Nat.sub_self,
    set_cons_zero]
  obtain rfl | ⟨c, z, rfl⟩ := eq_nil_or_concat b
  · exact ⟨[], .nil, by simp⟩
  · rw [concat_eq_append]
    refine ⟨z :: c, (perm_append_singleton z c).symm, ?_⟩
    rw [show a ++ e :: (c ++ [z]) = (a ++ e :: c) ++ [z] by simp, getLastD_concat,
      show a ++ z :: (c ++ [z]) = (a ++ z :: c) ++ [z] by simp, dropLast_concat]

/-- `zapinlist` removes one occurrence. -/
theorem zapinlist_perm {L : List ℕ} {e : ℕ} (he : e ∈ L) : (zapinlist L e).Perm (L.erase e) := by
  obtain ⟨a, b, ha, rfl, hL⟩ := exists_erase_eq he
  obtain ⟨b', hb, hz⟩ := zapinlist_append (b := b) ha
  rw [hz, hL]
  exact hb.append_left a

/-- The members after `zapinlist`. -/
theorem mem_zapinlist {L : List ℕ} {e x : ℕ} (hL : L.Nodup) :
    x ∈ zapinlist L e ↔ x ∈ L ∧ x ≠ e := by
  by_cases he : e ∈ L
  · rw [(zapinlist_perm he).mem_iff, hL.mem_erase_iff, and_comm]
  · rw [zapinlist, if_neg he]
    exact ⟨fun hx => ⟨hx, by rintro rfl; exact he hx⟩, And.left⟩

/-- Keys that occur once still do after `zapinlist`. -/
theorem zapinlist_map_nodup {α : Type} {L : List ℕ} {e : ℕ} {k : ℕ → α} (hL : (L.map k).Nodup) :
    ((zapinlist L e).map k).Nodup := by
  by_cases he : e ∈ L
  · refine ((zapinlist_perm he).map k).nodup_iff.2 ?_
    exact hL.sublist (erase_sublist.map k)
  · rw [zapinlist, if_neg he]; exact hL

/-- The out lists after `delete_fast_edge`. -/
theorem Wf.mem_delete_out (h : g.Wf) {e x : ℕ} {v : Fin n} :
    x ∈ (g.deleteFastEdge e).out v ↔ x ∈ g.out v ∧ x ≠ e := by
  by_cases hv : v = (g.edge e).tail
  · subst hv
    rw [deleteFastEdge]
    simp only [update_self]
    exact mem_zapinlist (h.out_nodup _)
  · rw [deleteFastEdge]
    simp only [update_of_ne hv]
    exact ⟨fun hx => ⟨hx, by rintro rfl; exact hv (h.out_tail hx).symm⟩, And.left⟩

/-- The in lists after `delete_fast_edge`. -/
theorem Wf.mem_delete_inn (h : g.Wf) {e x : ℕ} {v : Fin n} :
    x ∈ (g.deleteFastEdge e).inn v ↔ x ∈ g.inn v ∧ x ≠ e := by
  by_cases hv : v = (g.edge e).head
  · subst hv
    rw [deleteFastEdge]
    simp only [update_self]
    exact mem_zapinlist (h.inn_nodup _)
  · rw [deleteFastEdge]
    simp only [update_of_ne hv]
    exact ⟨fun hx => ⟨hx, by rintro rfl; exact hv (h.inn_head hx).symm⟩, And.left⟩

/-- `delete_fast_edge` keeps the invariant. -/
theorem Wf.delete (h : g.Wf) (e : ℕ) : (g.deleteFastEdge e).Wf where
  out_tail he := h.out_tail (h.mem_delete_out.1 he).1
  inn_head he := h.inn_head (h.mem_delete_inn.1 he).1
  out_inn f := by
    show f ∈ (g.deleteFastEdge e).out (g.edge f).tail ↔ f ∈ (g.deleteFastEdge e).inn (g.edge f).head
    rw [h.mem_delete_out, h.mem_delete_inn, h.out_inn f]
  heads v := by
    show (((g.deleteFastEdge e).out v).map fun f => (g.edge f).head).Nodup
    by_cases hv : v = (g.edge e).tail
    · subst hv
      simp only [deleteFastEdge, update_self]
      exact zapinlist_map_nodup (h.heads _)
    · simp only [deleteFastEdge, update_of_ne hv]
      exact h.heads v
  tails v := by
    show (((g.deleteFastEdge e).inn v).map fun f => (g.edge f).tail).Nodup
    by_cases hv : v = (g.edge e).head
    · subst hv
      simp only [deleteFastEdge, update_self]
      exact zapinlist_map_nodup (h.tails _)
    · simp only [deleteFastEdge, update_of_ne hv]
      exact h.tails v
  loopless he := h.loopless (h.mem_delete_out.1 he).1
  fresh he := h.fresh (h.mem_delete_out.1 he).1
  virt he := h.virt (h.mem_delete_out.1 he).1

/-- The edges that stay after `delete_fast_edge`. -/
theorem Wf.adj_delete (h : g.Wf) {e : ℕ} (he : g.Listed e) {u v : Fin n} :
    (g.deleteFastEdge e).Adj u v ↔ g.Adj u v ∧ ¬ (u = (g.edge e).tail ∧ v = (g.edge e).head) := by
  constructor
  · rintro ⟨f, hf, rfl⟩
    obtain ⟨hf, hfe⟩ := h.mem_delete_out.1 hf
    refine ⟨⟨f, hf, rfl⟩, ?_⟩
    rintro ⟨rfl, hhead⟩
    exact hfe (h.out_inj hf he hhead)
  · rintro ⟨⟨f, hf, rfl⟩, hne⟩
    refine ⟨f, h.mem_delete_out.2 ⟨hf, ?_⟩, rfl⟩
    rintro rfl
    exact hne ⟨(h.out_tail hf).symm, rfl⟩

/-! ## Adding an edge -/

/-- A new edge from `u` to `v` is appended to the out list of `u`; the old edges are as they
were. -/
structure Added (g : FastGraph n) (u v : Fin n) (g' : FastGraph n) : Prop where
  out_tail : g'.out u = g.out u ++ [g.next]
  out_other : ∀ {w}, w ≠ u → g'.out w = g.out w
  new_head : (g'.edge g.next).head = v
  tail : ∀ {e}, e < g.next → (g'.edge e).tail = (g.edge e).tail
  head : ∀ {e}, e < g.next → (g'.edge e).head = (g.edge e).head
  next : g'.next = g.next + 1

/-- The edges after one is added. -/
theorem Added.adj (ha : Added g u v g') (h : g.Wf) {a b : Fin n} :
    g'.Adj a b ↔ g.Adj a b ∨ (a = u ∧ b = v) := by
  have old : ∀ {w e}, e ∈ g.out w → (g'.edge e).head = (g.edge e).head :=
    fun he => ha.head (h.fresh he)
  by_cases hau : a = u
  · subst hau
    simp only [Adj, ha.out_tail, mem_append, mem_singleton]
    constructor
    · rintro ⟨e, he | rfl, rfl⟩
      · exact Or.inl ⟨e, he, (old he).symm⟩
      · exact Or.inr ⟨trivial, ha.new_head⟩
    · rintro (⟨e, he, rfl⟩ | ⟨_, rfl⟩)
      · exact ⟨e, Or.inl he, old he⟩
      · exact ⟨_, Or.inr rfl, ha.new_head⟩
  · simp only [Adj, ha.out_other hau, hau, false_and, or_false]
    exact exists_congr fun e => and_congr_right fun he => by rw [old he]

/-- What `new_virtual_edge` writes: an unlisted edge with the given ends that stands for itself. -/
theorem newVirtualEdge_spec (hg : g.Wf) {orig : Option ℕ}
    (ho : ∀ o ∈ orig, o < g.next ∧ ∀ w, o ∉ g.out w) :
    let r := g.newVirtualEdge u v orig
    r.2 = g.next ∧ r.1.next = g.next + 1 ∧ r.1.out = g.out ∧ r.1.inn = g.inn ∧
      (r.1.edge g.next).tail = u ∧ (r.1.edge g.next).head = v ∧
      (r.1.edge g.next).toVirt = none ∧
      ∀ e < g.next, (r.1.edge e).tail = (g.edge e).tail ∧ (r.1.edge e).head = (g.edge e).head ∧
        ∀ w, e ∈ g.out w → (r.1.edge e).toVirt = none := by
  intro r
  have hother : ∀ e < g.next, ∀ x : Fedge n, (update g.edge g.next x) e = g.edge e :=
    fun e he x => update_of_ne (by omega) ..
  cases orig with
  | none =>
    refine ⟨rfl, rfl, rfl, rfl, ?_, ?_, ?_, fun e he => ?_⟩
    case _ | _ | _ => simp [r, newVirtualEdge, setEdge]
    simp only [r, newVirtualEdge, setEdge, hother e he, true_and]
    exact fun w hw => hg.virt hw
  | some o =>
    obtain ⟨hlt, hout⟩ := ho o rfl
    have hne : g.next ≠ o := by omega
    by_cases hx : (g.edge o).toVirt = none
    · refine ⟨by simp [r, newVirtualEdge], ?_, ?_, ?_, ?_, ?_, ?_, fun e he => ?_⟩
      case _ | _ | _ | _ | _ | _ => simp [r, newVirtualEdge, setEdge, hx, update_of_ne hne]
      by_cases heo : e = o
      · subst heo
        simp only [r, newVirtualEdge, setEdge, hx, if_true, update_self, true_and]
        exact fun w hw => absurd hw (hout w)
      · simp only [r, newVirtualEdge, setEdge, hx, if_true, update_of_ne heo, hother e he, true_and]
        exact fun w hw => hg.virt hw
    · refine ⟨by simp [r, newVirtualEdge], ?_, ?_, ?_, ?_, ?_, ?_, fun e he => ?_⟩
      case _ | _ | _ | _ | _ | _ => simp [r, newVirtualEdge, setEdge, hx]
      simp only [r, newVirtualEdge, setEdge, hx, if_false, hother e he, true_and]
      exact fun w hw => hg.virt hw

/-- `virtual_edge` between nodes that are not yet joined adds an edge and keeps the invariant. -/
theorem virtualEdge_spec (hg : g.Wf) {o : Option ℕ} (huv : u ≠ v) (hadj : ¬ g.Adj u v)
    (ho : ∀ x ∈ o, x < g.next ∧ ∀ w, x ∉ g.out w) :
    (g.virtualEdge u v o).1.Wf ∧ Added g u v (g.virtualEdge u v o).1 := by
  obtain ⟨he, hnext, hout, hinn, htail, hhead, hvirt, hold⟩ :=
    newVirtualEdge_spec (u := u) (v := v) hg ho
  unfold virtualEdge
  generalize g.newVirtualEdge u v o = r at *
  obtain ⟨g1, e⟩ := r
  simp only at he hnext hout hinn htail hhead hvirt hold
  subst he
  have hmem : ∀ {w f}, f ∈ (g1.fastEdge g.next).out w ↔ f ∈ g.out w ∨ (w = u ∧ f = g.next) := by
    intro w f
    by_cases hw : w = u
    · subst hw
      simp [fastEdge, htail, hout]
    · simp [fastEdge, htail, hout, hw]
  have hmem' : ∀ {w f}, f ∈ (g1.fastEdge g.next).inn w ↔ f ∈ g.inn w ∨ (w = v ∧ f = g.next) := by
    intro w f
    by_cases hw : w = v
    · subst hw
      simp [fastEdge, hhead, hinn]
    · simp [fastEdge, hhead, hinn, hw]
  have hinnlt : ∀ {w f}, f ∈ g.inn w → f < g.next := fun hf => hg.fresh (hg.listed_inn hf)
  refine ⟨⟨?_, ?_, ?_, ?_, ?_, ?_, ?_, ?_⟩, ⟨?_, ?_, hhead, ?_, ?_, hnext⟩⟩
  · intro w f hf
    obtain hf | ⟨rfl, rfl⟩ := hmem.1 hf
    · exact (hold f (hg.fresh hf)).1.trans (hg.out_tail hf)
    · exact htail
  · intro w f hf
    obtain hf | ⟨rfl, rfl⟩ := hmem'.1 hf
    · exact (hold f (hinnlt hf)).2.1.trans (hg.inn_head hf)
    · exact hhead
  · intro f
    show f ∈ (g1.fastEdge g.next).out (g1.edge f).tail ↔ f ∈ (g1.fastEdge g.next).inn (g1.edge f).head
    rw [hmem, hmem']
    by_cases hf : f = g.next
    · subst hf
      simp [htail, hhead]
    · simp only [hf, and_false, or_false]
      by_cases hlt : f < g.next
      · rw [(hold f hlt).1, (hold f hlt).2.1]
        exact hg.out_inn f
      · exact ⟨fun h => absurd (hg.fresh h) hlt, fun h => absurd (hinnlt h) hlt⟩
  · intro w
    show (((g1.fastEdge g.next).out w).map fun f => (g1.edge f).head).Nodup
    have hmap : (g.out w).map (fun f => (g1.edge f).head) = (g.out w).map fun f => (g.edge f).head :=
      map_congr_left fun f hf => (hold f (hg.fresh hf)).2.1
    by_cases hw : w = u
    · subst hw
      simp only [fastEdge, htail, hout, update_self, map_append, hmap, map_cons,
        map_nil, hhead]
      refine Nodup.append (hg.heads _) (nodup_singleton _) ?_
      intro x hx hxv
      obtain ⟨f, hf, rfl⟩ := mem_map.1 hx
      exact hadj ⟨f, hf, mem_singleton.1 hxv⟩
    · simp only [fastEdge, htail, hout, update_of_ne hw, hmap]
      exact hg.heads w
  · intro w
    show (((g1.fastEdge g.next).inn w).map fun f => (g1.edge f).tail).Nodup
    have hmap : (g.inn w).map (fun f => (g1.edge f).tail) = (g.inn w).map fun f => (g.edge f).tail :=
      map_congr_left fun f hf => (hold f (hinnlt hf)).1
    by_cases hw : w = v
    · subst hw
      simp only [fastEdge, hhead, hinn, update_self, map_append, hmap, map_cons,
        map_nil, htail]
      refine Nodup.append (hg.tails _) (nodup_singleton _) ?_
      intro x hx hxv
      obtain ⟨f, hf, rfl⟩ := mem_map.1 hx
      exact hadj (hg.adj_iff_inn.2 ⟨f, hf, mem_singleton.1 hxv⟩)
    · simp only [fastEdge, hhead, hinn, update_of_ne hw, hmap]
      exact hg.tails w
  · intro w f hf
    obtain hf | ⟨rfl, rfl⟩ := hmem.1 hf
    · show (g1.edge f).head ≠ w
      rw [(hold f (hg.fresh hf)).2.1]
      exact hg.loopless hf
    · show (g1.edge g.next).head ≠ w
      rw [hhead]
      exact huv.symm
  · intro w f hf
    show f < g1.next
    rw [hnext]
    obtain hf | ⟨rfl, rfl⟩ := hmem.1 hf
    · exact (hg.fresh hf).trans (Nat.lt_succ_self _)
    · exact Nat.lt_succ_self _
  · intro w f hf
    obtain hf | ⟨rfl, rfl⟩ := hmem.1 hf
    · exact (hold f (hg.fresh hf)).2.2 w hf
    · exact hvirt
  · simp [fastEdge, htail, hout]
  · intro w hw
    simp [fastEdge, htail, hout, update_of_ne hw]
  · exact fun he => (hold _ he).1
  · exact fun he => (hold _ he).2.1

/-! ## Reversing an edge -/

/-- What `reverse_edge` does to the edge `e` from `t` to `h`: it leaves the out list of `t`, and
the out list of `h` gains an edge to `t` unless it has one. -/
structure Reversed (g : FastGraph n) (e : ℕ) (g' : FastGraph n) : Prop where
  out_tail : g'.out (g.edge e).tail = zapinlist (g.out (g.edge e).tail) e
  out_head : ∃ ext, g'.out (g.edge e).head = g.out (g.edge e).head ++ ext ∧
    ∀ x ∈ ext, (g'.edge x).head = (g.edge e).tail
  out_other : ∀ {w}, w ≠ (g.edge e).tail → w ≠ (g.edge e).head → g'.out w = g.out w
  head : ∀ {x}, x < g.next → (g'.edge x).head = (g.edge x).head
  next : g.next ≤ g'.next
  adj : ∀ {a b}, g'.Adj a b ↔ (g.Adj a b ∧ ¬ (a = (g.edge e).tail ∧ b = (g.edge e).head)) ∨
    (a = (g.edge e).head ∧ b = (g.edge e).tail)

/-- `reverse_edge` of a listed edge reverses it, keeps the invariant and passes its assertion. -/
theorem reverseEdge_spec (hg : g.Wf) {e : ℕ} (he : g.Listed e) :
    Meets (g.reverseEdge e) (fun g' => g'.Wf ∧ Reversed g e g') fun _ => False := by
  have hth : (g.edge e).head ≠ (g.edge e).tail := hg.loopless he
  have hlt : e < g.next := hg.fresh he
  have hdel : ∀ w, e ∉ (g.deleteFastEdge e).out w := fun w hw => (hg.mem_delete_out.1 hw).2 rfl
  have hout : (g.deleteFastEdge e).out (g.edge e).head = g.out (g.edge e).head := by
    simp only [deleteFastEdge, update_of_ne hth]
  have hout' : ∀ {w}, w ≠ (g.edge e).tail → (g.deleteFastEdge e).out w = g.out w := by
    intro w hw
    simp only [deleteFastEdge, update_of_ne hw]
  have hzap : (g.deleteFastEdge e).out (g.edge e).tail = zapinlist (g.out (g.edge e).tail) e := by
    simp only [deleteFastEdge, update_self]
  unfold reverseEdge
  show Meets (match (g.deleteFastEdge e).findFastEdge (g.edge e).head (g.edge e).tail with
    | some f => (g.deleteFastEdge e).mergeOneway e f
    | none => .ok ((g.deleteFastEdge e).virtualEdge (g.edge e).head (g.edge e).tail (some e)).1) _ _
  cases hf : (g.deleteFastEdge e).findFastEdge (g.edge e).head (g.edge e).tail with
  | some f =>
    obtain ⟨hfm, hfh⟩ := (hg.delete e).findFastEdge_some hf
    refine (mergeOneway_spec (hg.delete e) hdel (hg.virt he) hfm).imp fun g' h' => ?_
    refine ⟨h'.wf (hg.delete e), ?_, ⟨[], ?_, by simp⟩, fun hw _ => ?_, fun _ => h'.head _,
      h'.next.ge, @fun a b => ?_⟩
    · rw [h'.out, hzap]
    · rw [h'.out, hout, append_nil]
    · rw [h'.out, hout' hw]
    · rw [h'.adj, hg.adj_delete he]
      refine ⟨Or.inl, fun hab => hab.elim id ?_⟩
      rintro ⟨rfl, rfl⟩
      exact (hg.adj_delete he).1 ⟨f, hfm, hfh⟩
  | none =>
    have hno := (hg.delete e).findFastEdge_none hf
    obtain ⟨hwf, hadd⟩ := virtualEdge_spec (hg.delete e) (o := some e) hth hno
      (fun o ho => by obtain rfl := Option.some.inj ho; exact ⟨hlt, hdel⟩)
    refine ⟨hwf, ?_, ⟨[g.next], ?_, ?_⟩, fun hw hw' => ?_, fun hx => hadd.head hx, ?_,
      @fun a b => ?_⟩
    · rw [hadd.out_other hth.symm, hzap]
    · rw [hadd.out_tail, hout]; rfl
    · intro x hx
      rw [mem_singleton.1 hx]
      exact hadd.new_head
    · rw [hadd.out_other hw', hout' hw]
    · rw [hadd.next]; exact Nat.le_succ _
    · rw [hadd.adj (hg.delete e), hg.adj_delete he]

end Graphviz.FastGraph
