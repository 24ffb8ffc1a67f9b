import Mathlib.Data.List.Nodup
import Mathlib.Data.List.Perm.Basic
import Graphviz.Util.Fault

/-!
# The order of the labels of flat edges (`dotgen/mincross.c`)

`checkLabelOrder` looks at the vertices of each rank that stand for the labels of flat edges. A
label whose interval ends before that of another begins is to come first; when one does not, a
temporary graph of the labels is made, and the labels of each of its components are sorted into the
positions that they have. `NDEBUG` says whether the assertions are compiled.
-/

namespace Graphviz

open Function List Outcome

/-- `assert`, compiled or not. -/
def assertUnless (NDEBUG : Bool) (p : Prop) [Decidable p] : Except Fault Unit :=
  if NDEBUG then .ok () else assert p

namespace LabelOrder

variable {ν : Type} [DecidableEq ν]

/-- A node of the temporary graph, by its name, with `info_t`. -/
structure LabelNode (ν : Type) where
  name : ℕ
  lo : ℕ
  hi : ℕ
  np : ν
  deriving DecidableEq

/-- An edge of the temporary graph: its tail and its head. -/
abbrev LabelEdge (ν : Type) := LabelNode ν × LabelNode ν

/-- `agedge`, in a strict graph. -/
def agedge (edges : List (LabelEdge ν)) (t h : LabelNode ν) : List (LabelEdge ν) :=
  if (t, h) ∈ edges then edges else edges ++ [(t, h)]

/-- The body of the loops that make the edges: `haveBackedge` and the edges. -/
def addEdge (n : LabelNode ν) (s : Bool × List (LabelEdge ν)) (v : LabelNode ν) :
    Bool × List (LabelEdge ν) :=
  if v.hi ≤ n.lo then (true, agedge s.2 v n)
  else if n.hi ≤ v.lo then (s.1, agedge s.2 n v)
  else s

/-- The loops that make the edges, over the nodes in the order of their creation. -/
def addEdges : List (LabelNode ν) → Bool × List (LabelEdge ν) → Bool × List (LabelEdge ν)
  | [], s => s
  | n :: rest, s => addEdges rest (rest.foldl (addEdge n) s)

/-- The marks `ND_x`, the subgraph `comp` and the array `indices`. -/
structure Comp (ν : Type) where
  x : LabelNode ν → Bool
  comp : List (LabelNode ν)
  indices : List ℕ

/-- `isBackedge`. -/
def isBackedge (order : ν → ℕ) (e : LabelEdge ν) : Bool :=
  order e.2.np > order e.1.np

/-- A node comes to the component. -/
def Comp.enter (order : ν → ℕ) (s : Comp ν) (n : LabelNode ν) : Except Fault (Comp ν) :=
  if s.comp.length < s.indices.length then
    .ok ⟨update s.x n true, s.comp ++ [n], s.indices.set s.comp.length (order n.np)⟩
  else .error .segfault

/-- The body of the loops of `getComp` over the edges of a node, with their other ends. -/
def compEdge (order : ν → ℕ) (search : LabelNode ν → Comp ν → Except Fault (ℕ × Comp ν))
    (s : ℕ × Comp ν) (e : LabelEdge ν × LabelNode ν) : Except Fault (ℕ × Comp ν) :=
  let backedge := if isBackedge order e.1 then s.1 + 1 else s.1
  if s.2.x e.2 then .ok (backedge, s.2)
  else do
    let r ← search e.2 s.2
    return (backedge + r.1, r.2)

/-- The edges out of a node, with their heads. -/
def outEdges (edges : List (LabelEdge ν)) (n : LabelNode ν) : List (LabelEdge ν × LabelNode ν) :=
  (edges.filter fun e => e.1 = n).map fun e => (e, e.2)

/-- The edges into a node, with their tails. -/
def inEdges (edges : List (LabelEdge ν)) (n : LabelNode ν) : List (LabelEdge ν × LabelNode ν) :=
  (edges.filter fun e => e.2 = n).map fun e => (e, e.1)

/-- `getComp`. No search is deeper than there are nodes. -/
def getComp (edges : List (LabelEdge ν)) (order : ν → ℕ) : ℕ → LabelNode ν → Comp ν →
    Except Fault (ℕ × Comp ν)
  | 0, _, _ => .error .fuel
  | fuel + 1, n, s => do
    let s ← s.enter order n
    let r ← (outEdges edges n).foldlM (compEdge order (getComp edges order fuel)) (0, s)
    (inEdges edges n).foldlM (compEdge order (getComp edges order fuel)) r

/-- `findSource`. -/
def findSource (nodes : List (LabelNode ν)) (edges : List (LabelEdge ν)) (sg : List (LabelNode ν)) :
    Option (LabelNode ν) :=
  nodes.find? fun n => n ∈ sg ∧ inEdges edges n = []

theorem findSource_spec {nodes sg : List (LabelNode ν)} {edges : List (LabelEdge ν)}
    {n : LabelNode ν}
    (h : findSource nodes edges sg = some n) : n ∈ nodes ∧ n ∈ sg ∧ inEdges edges n = [] := by
  have hn := find?_some h
  rw [decide_eq_true_iff] at hn
  exact ⟨mem_of_find?_eq_some h, hn⟩

/-- `topsort`: the nodes in order, the edges that are left and the nodes that are left in `sg`. -/
def topsort (nodes : List (LabelNode ν)) (edges : List (LabelEdge ν)) (sg : List (LabelNode ν)) :
    List ν × List (LabelEdge ν) × List (LabelNode ν) :=
  match _h : findSource nodes edges sg with
  | none => ([], edges, sg)
  | some n =>
    let r := topsort nodes (edges.filter fun e => e.1 ≠ n) (sg.erase n)
    (n.np :: r.1, r.2)
termination_by sg.length
decreasing_by
  have hmem := (findSource_spec _h).2.1
  rw [List.length_erase_of_mem hmem]
  have := List.length_pos_of_mem hmem
  omega

/-- `emptyComp`. -/
def emptyComp (sg : List (LabelNode ν)) : List (LabelNode ν) :=
  sg.foldl List.erase sg

/-- The variables of `fixLabelOrder`, with `ND_order` and the array of the rank. -/
structure Fix (ν : Type) extends Comp ν where
  edges : List (LabelEdge ν)
  order : ν → ℕ
  v : List ν

/-- A node is put at a position. -/
def place (s : (ν → ℕ) × List ν) (p : ν × ℕ) : Except Fault ((ν → ℕ) × List ν) :=
  if p.2 < s.2.length then .ok (update s.1 p.1 p.2, s.2.set p.2 p.1) else .error .segfault

/-- How `fixLabelOrder` sorts a component. -/
def sortComp (NDEBUG : Bool) (nodes : List (LabelNode ν)) (s : Fix ν) : Except Fault (Fix ν) := do
  let (arr, edges, sg) := topsort nodes s.edges s.comp
  assertUnless NDEBUG (arr.length = sg.length)
  let indices := (s.indices.take arr.length).mergeSort (· ≤ ·) ++ s.indices.drop arr.length
  let (order, v) ← (arr.zip indices).foldlM place (s.order, s.v)
  return ⟨⟨s.x, sg, indices⟩, edges, order, v⟩

/-- A component with `backedge` is sorted. -/
def sortBack (NDEBUG : Bool) (nodes : List (LabelNode ν)) (backedge : ℕ) (s : Fix ν) :
    Except Fault (Fix ν) :=
  if backedge ≠ 0 then sortComp NDEBUG nodes s else .ok s

/-- The body of the loop of `fixLabelOrder` over the nodes. -/
def fixComp (NDEBUG : Bool) (nodes : List (LabelNode ν)) (s : Fix ν) (n : LabelNode ν) :
    Except Fault (Fix ν) := do
  if s.x n ∨ (outEdges s.edges n).length + (inEdges s.edges n).length = 0 then return s
  let (backedge, comp) ← getComp s.edges s.order nodes.length n s.toComp
  let s ← sortBack NDEBUG nodes backedge { s with toComp := comp }
  return { s with comp := emptyComp s.comp }

/-- `fixLabelOrder`. -/
def fixLabelOrder (NDEBUG : Bool) (nodes : List (LabelNode ν)) (order : ν → ℕ) (v : List ν) :
    Except Fault ((ν → ℕ) × List ν) := do
  let (haveBackedge, edges) := addEdges nodes (false, [])
  if haveBackedge then
    let s ← nodes.foldlM (fixComp NDEBUG nodes)
      ⟨⟨fun _ => false, [], List.replicate nodes.length 0⟩, edges, order, v⟩
    return (s.order, s.v)
  else return (order, v)

/-- The graph as `checkLabelOrder` reads and writes it: the vertices that stand for a label, the
heads of the edges out of each vertex, and the ranks. -/
structure LabelRanks (ν : Type) where
  alg : ν → Bool
  out : ν → List ν
  minrank : ℤ
  maxrank : ℤ
  rank : ℤ → List ν
  order : ν → ℕ

/-- The interval of a vertex, between the heads of its two edges. -/
def interval (g : LabelRanks ν) (u : ν) : Except Fault (ℕ × ℕ) :=
  match g.out u with
  | a :: b :: _ =>
    let lo := g.order a
    let hi := g.order b
    if hi < lo then .ok (hi, lo) else .ok (lo, hi)
  | _ => .error .segfault

/-- The body of the loop over a rank: a label gets a node, which is named by its position. -/
def addNode (g : LabelRanks ν) (nodes : List (LabelNode ν)) (p : ν × ℕ) :
    Except Fault (List (LabelNode ν)) :=
  if g.alg p.1 then do
    let (lo, hi) ← interval g p.1
    return nodes ++ [⟨p.2, lo, hi, p.1⟩]
  else return nodes

/-- The body of the loop of `checkLabelOrder`. -/
def checkRank (NDEBUG : Bool) (g : LabelRanks ν) (r : ℤ) : Except Fault (LabelRanks ν) := do
  let nodes ← (g.rank r).zipIdx.foldlM (addNode g) []
  if 1 < nodes.length then
    let (order, v) ← fixLabelOrder NDEBUG nodes g.order (g.rank r)
    return { g with order := order, rank := update g.rank r v }
  else return g

/-- The ranks from the least to the greatest. -/
def LabelRanks.ranks (g : LabelRanks ν) : List ℤ :=
  (List.range (g.maxrank + 1 - g.minrank).toNat).map fun i : ℕ => g.minrank + i

/-- `checkLabelOrder`. -/
def checkLabelOrder (NDEBUG : Bool) (g : LabelRanks ν) : Except Fault (LabelRanks ν) :=
  g.ranks.foldlM (checkRank NDEBUG) g

end LabelOrder

end Graphviz

/-!
## Components of labels

The temporary graph has an edge between two labels when the interval of one ends before that of the
other begins. `getComp` visits a component and says whether one of its edges goes forward;
`topsort` lists the nodes of a component so that no edge goes back.
-/

namespace Graphviz

open Function List Outcome Relation

namespace LabelOrder

variable {ν : Type} {L rest S T : List (LabelNode ν)} {E : List (LabelEdge ν)}
  {e : LabelEdge ν} {a b n w : LabelNode ν} {order : ν → ℕ} {s s' s'' : Comp ν} {c d fuel : ℕ}

/-! ## Visits -/

/-- Two nodes are the ends of an edge. -/
def Adj (E : List (LabelEdge ν)) (a b : LabelNode ν) : Prop :=
  (a, b) ∈ E ∨ (b, a) ∈ E

theorem Adj.symm (h : Adj E a b) : Adj E b a :=
  Or.symm h

/-- No edge of a node goes forward. -/
def Silent (E : List (LabelEdge ν)) (order : ν → ℕ) (a : LabelNode ν) : Prop :=
  ∀ e ∈ E, e.1 = a ∨ e.2 = a → isBackedge order e = false

/-- How many nodes are not marked. -/
def unmarked (L : List (LabelNode ν)) (s : Comp ν) : ℕ :=
  L.countP fun a => !s.x a

/-- A search that visits some nodes of `L`, and counts `c` edges that go forward, if not the right
number of them. -/
structure Visited (L : List (LabelNode ν)) (E : List (LabelEdge ν)) (order : ν → ℕ) (s s' : Comp ν)
    (S : List (LabelNode ν)) (c : ℕ) : Prop where
  marks : ∀ a, s'.x a = true ↔ s.x a = true ∨ a ∈ S
  fresh : ∀ a ∈ S, s.x a = false ∧ a ∈ L
  nodup : S.Nodup
  comp : s'.comp = s.comp ++ S
  length : s'.indices.length = s.indices.length
  indices : s'.indices.take s'.comp.length =
    s.indices.take s.comp.length ++ S.map fun a => order a.np
  count : unmarked L s' + S.length = unmarked L s
  closed : ∀ a ∈ S, ∀ w, Adj E a w → s'.x w = true
  silent : c = 0 ↔ ∀ a ∈ S, Silent E order a

theorem Visited.refl : Visited L E order s s [] 0 where
  marks a := by rw [mem_nil_iff, or_false]
  fresh a ha := absurd ha not_mem_nil
  nodup := .nil
  comp := (append_nil _).symm
  length := rfl
  indices := (append_nil _).symm
  count := rfl
  closed a ha := absurd ha not_mem_nil
  silent := ⟨fun _ a ha => absurd ha not_mem_nil, fun _ => rfl⟩

theorem Visited.trans (h : Visited L E order s s' S c) (h' : Visited L E order s' s'' T d) :
    Visited L E order s s'' (S ++ T) (c + d) where
  marks a := by rw [h'.marks, h.marks, mem_append, or_assoc]
  fresh a ha := by
    obtain ha | ha := mem_append.1 ha
    · exact h.fresh a ha
    · refine ⟨?_, (h'.fresh a ha).2⟩
      rw [← Bool.not_eq_true]
      intro hx
      have := (h.marks a).2 (.inl hx)
      rw [(h'.fresh a ha).1] at this
      exact absurd this (by decide)
  nodup := by
    refine nodup_append.2 ⟨h.nodup, h'.nodup, ?_⟩
    rintro a ha b hb rfl
    have := (h.marks a).2 (.inr ha)
    rw [(h'.fresh a hb).1] at this
    exact absurd this (by decide)
  comp := by rw [h'.comp, h.comp, append_assoc]
  length := by rw [h'.length, h.length]
  indices := by rw [h'.indices, h.indices, map_append, append_assoc]
  count := by
    have := h.count
    have := h'.count
    rw [length_append]
    omega
  closed a ha w hw := by
    obtain ha | ha := mem_append.1 ha
    · exact (h'.marks w).2 (.inl (h.closed a ha w hw))
    · exact h'.closed a ha w hw
  silent := by
    rw [Nat.add_eq_zero_iff, h.silent, h'.silent]
    constructor
    · rintro ⟨h₁, h₂⟩ a ha
      exact (mem_append.1 ha).elim (h₁ a) (h₂ a)
    · intro hall
      exact ⟨fun a ha => hall a (mem_append_left T ha),
        fun a ha => hall a (mem_append_right S ha)⟩

/-- What is known of the search from a node that is not marked. -/
def Searches (L : List (LabelNode ν)) (E : List (LabelEdge ν)) (order : ν → ℕ) (fuel : ℕ)
    (search : LabelNode ν → Comp ν → Except Fault (ℕ × Comp ν)) : Prop :=
  ∀ n s, n ∈ L → s.x n = false → unmarked L s ≤ fuel →
    s.comp.length + unmarked L s ≤ s.indices.length →
    ∃ c s' S, search n s = .ok (c, s') ∧ Visited L E order s s' (n :: S) c ∧
      ∀ a ∈ n :: S, ReflTransGen (Adj E) n a

/-- The loop over the edges of a node. -/
theorem compEdge_fold {search : LabelNode ν → Comp ν → Except Fault (ℕ × Comp ν)}
    (hsearch : Searches L E order fuel search) (ws : List (LabelEdge ν × LabelNode ν))
    (hws : ∀ p ∈ ws, p.2 ∈ L) (k : ℕ) (s : Comp ν) (hfuel : unmarked L s ≤ fuel)
    (hroom : s.comp.length + unmarked L s ≤ s.indices.length) :
    ∃ c s' S, ws.foldlM (compEdge order search) (k, s) =
        .ok (k + (ws.countP fun p => isBackedge order p.1) + c, s') ∧
      Visited L E order s s' S c ∧ (∀ p ∈ ws, s'.x p.2 = true) ∧
      ∀ a ∈ S, ∃ p ∈ ws, ReflTransGen (Adj E) p.2 a := by
  induction ws generalizing k s with
  | nil => exact ⟨0, s, [], rfl, .refl, nofun, nofun⟩
  | cons p ws ih =>
    have hrest : ∀ p ∈ ws, p.2 ∈ L := fun q hq => hws q (mem_cons_of_mem p hq)
    have hk : (if isBackedge order p.1 then k + 1 else k) =
        k + if isBackedge order p.1 then 1 else 0 := by split <;> rfl
    rw [foldlM_cons, compEdge, countP_cons]
    dsimp only
    rw [hk]
    cases hx : s.x p.2 with
    | true =>
      rw [if_pos rfl, ok_bind]
      obtain ⟨c, s', S, hfold, hvisited, hmarked, hreach⟩ := ih hrest
        (k + if isBackedge order p.1 then 1 else 0) s hfuel hroom
      refine ⟨c, s', S, ?_, hvisited, ?_, fun a ha => ?_⟩
      · rw [hfold]
        congr 2
        omega
      · intro q hq
        obtain rfl | hq := mem_cons.1 hq
        · exact (hvisited.marks _).2 (.inl hx)
        · exact hmarked q hq
      · obtain ⟨q, hq, hqa⟩ := hreach a ha
        exact ⟨q, mem_cons_of_mem p hq, hqa⟩
    | false =>
      obtain ⟨c1, s1, S₁, hsearched, hvisited1, hreach1⟩ :=
        hsearch p.2 s (hws p mem_cons_self) hx hfuel hroom
      have hcount := hvisited1.count
      have hcomp := congrArg List.length hvisited1.comp
      have hlen := hvisited1.length
      rw [length_append] at hcomp
      obtain ⟨c2, s2, S₂, hfold, hvisited2, hmarked, hreach2⟩ := ih hrest
        (k + (if isBackedge order p.1 then 1 else 0) + c1) s1 (by omega) (by omega)
      rw [if_neg (by decide), hsearched, ok_bind, pure_bind, hfold]
      refine ⟨c1 + c2, s2, p.2 :: S₁ ++ S₂, ?_, hvisited1.trans hvisited2, ?_, ?_⟩
      · congr 2
        omega
      · intro q hq
        obtain rfl | hq := mem_cons.1 hq
        · exact (hvisited2.marks _).2 (.inl ((hvisited1.marks _).2 (.inr mem_cons_self)))
        · exact hmarked q hq
      · intro a ha
        obtain ha | ha := mem_append.1 ha
        · exact ⟨p, mem_cons_self, hreach1 a ha⟩
        · obtain ⟨q, hq, hqa⟩ := hreach2 a ha
          exact ⟨q, mem_cons_of_mem p hq, hqa⟩

variable [DecidableEq ν]

/-! ## Edges -/

theorem mem_agedge {t h : LabelNode ν} : e ∈ agedge E t h ↔ e ∈ E ∨ e = (t, h) := by
  rw [agedge]
  split
  next hmem =>
    refine ⟨.inl, ?_⟩
    rintro (he | rfl)
    · exact he
    · exact hmem
  next => rw [mem_append, mem_singleton]

/-- The edges between a node and those after it. -/
theorem addEdge_fold (hn : n.lo < n.hi) (hlt : ∀ v ∈ rest, v.lo < v.hi)
    (s : Bool × List (LabelEdge ν)) :
    (((rest.foldl (addEdge n) s).1 = true ↔ s.1 = true ∨ ∃ v ∈ rest, v.hi ≤ n.lo) ∧
    ∀ e, e ∈ (rest.foldl (addEdge n) s).2 ↔ e ∈ s.2 ∨ ∃ v ∈ rest,
      (v.hi ≤ n.lo ∧ e = (v, n)) ∨ (n.hi ≤ v.lo ∧ e = (n, v))) := by
  induction rest generalizing s with
  | nil => simp
  | cons v rest ih =>
    obtain ⟨ih1, ih2⟩ := ih (fun w hw => hlt w (mem_cons_of_mem v hw)) (addEdge n s v)
    have hv := hlt v mem_cons_self
    rw [foldl_cons, ih1]
    refine ⟨?_, fun e => ?_⟩
    · rw [exists_mem_cons_iff, ← or_assoc]
      refine or_congr ?_ Iff.rfl
      rw [addEdge]
      split
      next h => exact ⟨fun _ => .inr h, fun _ => rfl⟩
      next h =>
        split
        · exact ⟨.inl, fun hor => hor.resolve_right h⟩
        · exact ⟨.inl, fun hor => hor.resolve_right h⟩
    · rw [ih2, exists_mem_cons_iff, ← or_assoc]
      refine or_congr ?_ Iff.rfl
      rw [addEdge]
      split
      next h =>
        rw [mem_agedge]
        have hno : ¬ n.hi ≤ v.lo := by omega
        exact or_congr Iff.rfl ⟨fun he => .inl ⟨h, he⟩, fun he => he.elim And.right
          fun he => absurd he.1 hno⟩
      next h =>
        split
        next h' =>
          rw [mem_agedge]
          exact or_congr Iff.rfl ⟨fun he => .inr ⟨h', he⟩, fun he => he.elim
            (fun he => absurd he.1 h) And.right⟩
        next h' =>
          exact ⟨.inl, fun he => he.elim id fun he => he.elim (fun he => absurd he.1 h)
            fun he => absurd he.1 h'⟩

/-- The edges of the temporary graph, and the question whether one of them goes back. -/
theorem addEdges_spec (hlt : ∀ v ∈ L, v.lo < v.hi) (hname : L.Pairwise fun a b => a.name < b.name)
    (s : Bool × List (LabelEdge ν)) :
    (((addEdges L s).1 = true ↔ s.1 = true ∨ ∃ a ∈ L, ∃ b ∈ L, b.name < a.name ∧ a.hi ≤ b.lo) ∧
    ∀ e, e ∈ (addEdges L s).2 ↔ e ∈ s.2 ∨ (e.1 ∈ L ∧ e.2 ∈ L ∧ e.1.hi ≤ e.2.lo)) := by
  induction L generalizing s with
  | nil => simp [addEdges]
  | cons n rest ih =>
    have hn := hlt n mem_cons_self
    have hrest : ∀ v ∈ rest, v.lo < v.hi := fun v hv => hlt v (mem_cons_of_mem n hv)
    obtain ⟨hfirst, htail⟩ := pairwise_cons.1 hname
    obtain ⟨hb, he⟩ := addEdge_fold hn hrest s
    obtain ⟨ih1, ih2⟩ := ih hrest htail (rest.foldl (addEdge n) s)
    rw [addEdges, ih1, hb, or_assoc]
    refine ⟨or_congr Iff.rfl ?_, fun e => ?_⟩
    · constructor
      · rintro (⟨v, hv, hle⟩ | ⟨a, ha, b, hb, hlt', hle⟩)
        · exact ⟨v, mem_cons_of_mem n hv, n, mem_cons_self, hfirst v hv, hle⟩
        · exact ⟨a, mem_cons_of_mem n ha, b, mem_cons_of_mem n hb, hlt', hle⟩
      · rintro ⟨a, ha, b, hb, hlt', hle⟩
        obtain heq | ha' := mem_cons.1 ha
        · obtain heq' | hb' := mem_cons.1 hb
          · exact absurd hlt' (by rw [heq, heq']; exact Nat.lt_irrefl _)
          · exact absurd hlt' (Nat.lt_asymm (heq ▸ hfirst b hb'))
        · obtain heq | hb' := mem_cons.1 hb
          · exact .inl ⟨a, ha', heq ▸ hle⟩
          · exact .inr ⟨a, ha', b, hb', hlt', hle⟩
    · rw [ih2, he, or_assoc]
      refine or_congr Iff.rfl ?_
      constructor
      · rintro (⟨v, hv, ⟨hle, rfl⟩ | ⟨hle, rfl⟩⟩ | ⟨h1, h2, hle⟩)
        · exact ⟨mem_cons_of_mem n hv, mem_cons_self, hle⟩
        · exact ⟨mem_cons_self, mem_cons_of_mem n hv, hle⟩
        · exact ⟨mem_cons_of_mem n h1, mem_cons_of_mem n h2, hle⟩
      · obtain ⟨t, h⟩ := e
        rintro ⟨h1, h2, hle⟩
        dsimp only at h1 h2 hle ⊢
        obtain heq | h1' := mem_cons.1 h1
        · obtain heq' | h2' := mem_cons.1 h2
          · exact absurd hle (by rw [heq, heq']; exact Nat.not_le.2 hn)
          · exact .inl ⟨h, h2', .inr ⟨heq ▸ hle, by rw [heq]⟩⟩
        · obtain heq | h2' := mem_cons.1 h2
          · exact .inl ⟨t, h1', .inl ⟨heq ▸ hle, by rw [heq]⟩⟩
          · exact .inr ⟨h1', h2', hle⟩

theorem mem_outEdges : (e, w) ∈ outEdges E n ↔ e ∈ E ∧ e.1 = n ∧ w = e.2 := by
  rw [outEdges, mem_map]
  constructor
  · rintro ⟨e', he', heq⟩
    obtain ⟨rfl, rfl⟩ := Prod.mk.inj heq
    obtain ⟨hmem, hn⟩ := mem_filter.1 he'
    exact ⟨hmem, of_decide_eq_true hn, rfl⟩
  · rintro ⟨hmem, hn, rfl⟩
    exact ⟨e, mem_filter.2 ⟨hmem, decide_eq_true hn⟩, rfl⟩

theorem mem_inEdges : (e, w) ∈ inEdges E n ↔ e ∈ E ∧ e.2 = n ∧ w = e.1 := by
  rw [inEdges, mem_map]
  constructor
  · rintro ⟨e', he', heq⟩
    obtain ⟨rfl, rfl⟩ := Prod.mk.inj heq
    obtain ⟨hmem, hn⟩ := mem_filter.1 he'
    exact ⟨hmem, of_decide_eq_true hn, rfl⟩
  · rintro ⟨hmem, hn, rfl⟩
    exact ⟨e, mem_filter.2 ⟨hmem, decide_eq_true hn⟩, rfl⟩

/-! ## Components -/

/-- One more node is marked. -/
theorem countP_update {x : LabelNode ν → Bool} (hL : L.Nodup) (hn : n ∈ L) (hx : x n = false) :
    (L.countP fun a => !update x n true a) + 1 = L.countP fun a => !x a := by
  induction L with
  | nil => exact absurd hn not_mem_nil
  | cons a L ih =>
    obtain ⟨ha, hL⟩ := nodup_cons.1 hL
    rw [countP_cons, countP_cons]
    obtain rfl | hn := mem_cons.1 hn
    · have hsame : (L.countP fun a => !update x n true a) = L.countP fun a => !x a := by
        refine countP_congr fun b hb => ?_
        rw [update_of_ne]
        rintro rfl
        exact ha hb
      rw [hsame, update_self, hx]
      rfl
    · have hne : a ≠ n := by
        rintro rfl
        exact ha hn
      rw [update_of_ne hne, ← ih hL hn]
      omega

/-- A node is entered where there is room for all that are not marked. -/
theorem enter_spec (hL : L.Nodup) (hn : n ∈ L) (hx : s.x n = false)
    (hroom : s.comp.length + unmarked L s ≤ s.indices.length) (order : ν → ℕ) :
    ∃ s', s.enter order n = .ok s' ∧ (∀ a, s'.x a = true ↔ s.x a = true ∨ a = n) ∧
      s'.comp = s.comp ++ [n] ∧ s'.indices.length = s.indices.length ∧
      s'.indices.take s'.comp.length = s.indices.take s.comp.length ++ [order n.np] ∧
      unmarked L s' + 1 = unmarked L s := by
  have hcount : (L.countP fun a => !update s.x n true a) + 1 = unmarked L s :=
    countP_update hL hn hx
  have hlt : s.comp.length < s.indices.length := by omega
  rw [Comp.enter, if_pos hlt]
  refine ⟨_, rfl, fun a => ?_, rfl, length_set .., ?_, hcount⟩
  · dsimp only
    by_cases ha : a = n
    · rw [ha, update_self]
      exact ⟨fun _ => .inr rfl, fun _ => rfl⟩
    · rw [update_of_ne ha]
      exact ⟨.inl, fun h => h.resolve_right ha⟩
  · dsimp only
    rw [length_append, length_singleton, take_succ_eq_append_getElem
      (by rw [length_set]; exact hlt), getElem_set_self, take_set_of_le (Nat.le_refl _)]

/-- `getComp` visits the component of a node, as far as it is not marked. -/
theorem getComp_spec (hL : L.Nodup) (hE : ∀ e ∈ E, e.1 ∈ L ∧ e.2 ∈ L) (order : ν → ℕ) (fuel : ℕ) :
    Searches L E order fuel (getComp E order fuel) := by
  induction fuel with
  | zero =>
    intro n s hn hx hfuel _
    have : 0 < unmarked L s := countP_pos_iff.2 ⟨n, hn, by rw [hx]; rfl⟩
    omega
  | succ fuel ih =>
    intro n s hn hx hfuel hroom
    obtain ⟨s0, henter, hmarks0, hcomp0, hlen0, hindices0, hcount0⟩ :=
      enter_spec hL hn hx hroom order
    have hlength0 := congrArg List.length hcomp0
    rw [length_append, length_singleton] at hlength0
    obtain ⟨c1, s1, S₁, hfold1, hvisited1, hmarked1, hreach1⟩ := compEdge_fold ih (outEdges E n)
      (fun p hp => by
        obtain ⟨he, -, hw⟩ := mem_outEdges.1 hp
        rw [hw]
        exact (hE _ he).2) 0 s0 (by omega) (by omega)
    have hlength1 := congrArg List.length hvisited1.comp
    rw [length_append] at hlength1
    have hcount1 := hvisited1.count
    have hlen1 := hvisited1.length
    obtain ⟨c2, s2, S₂, hfold2, hvisited2, hmarked2, hreach2⟩ := compEdge_fold ih (inEdges E n)
      (fun p hp => by
        obtain ⟨he, -, hw⟩ := mem_inEdges.1 hp
        rw [hw]
        exact (hE _ he).1) (0 + ((outEdges E n).countP fun p => isBackedge order p.1) + c1) s1
          (by omega) (by omega)
    have hvisited := hvisited1.trans hvisited2
    rw [getComp, henter, ok_bind, hfold1, ok_bind, hfold2]
    refine ⟨_, s2, S₁ ++ S₂, rfl, ?_, ?_⟩
    · refine ⟨fun a => ?_, fun a ha => ?_, ?_, ?_, ?_, ?_, ?_, fun a ha w hw => ?_, ?_⟩
      · rw [hvisited.marks, hmarks0, mem_cons, or_assoc]
      · obtain rfl | ha := mem_cons.1 ha
        · exact ⟨hx, hn⟩
        · obtain ⟨hfresh, hmem⟩ := hvisited.fresh a ha
          refine ⟨?_, hmem⟩
          rw [← Bool.not_eq_true] at hfresh ⊢
          exact fun hxa => hfresh ((hmarks0 a).2 (.inl hxa))
      · refine nodup_cons.2 ⟨fun hmem => ?_, hvisited.nodup⟩
        have := (hvisited.fresh n hmem).1
        rw [(hmarks0 n).2 (.inr rfl)] at this
        exact absurd this (by decide)
      · rw [hvisited.comp, hcomp0, append_assoc, singleton_append]
      · rw [hvisited.length, hlen0]
      · rw [hvisited.indices, hindices0, append_assoc, singleton_append, map_cons]
      · have := hvisited.count
        rw [List.length_cons]
        omega
      · obtain rfl | ha := mem_cons.1 ha
        · obtain hw | hw := hw
          · exact (hvisited2.marks w).2 (.inl (hmarked1 _ (mem_outEdges.2 ⟨hw, rfl, rfl⟩)))
          · exact hmarked2 _ (mem_inEdges.2 ⟨hw, rfl, rfl⟩)
        · exact hvisited.closed a ha w hw
      · rw [forall_mem_cons, ← hvisited.silent, Silent]
        have hcountP : ∀ ws : List (LabelEdge ν × LabelNode ν),
            (ws.countP fun p => isBackedge order p.1) = 0 ↔
              ∀ p ∈ ws, isBackedge order p.1 = false := by
          intro ws
          rw [countP_eq_zero]
          exact forall₂_congr fun p _ => Bool.not_eq_true _ ▸ Iff.rfl
        have hsplit : (∀ e ∈ E, e.1 = n ∨ e.2 = n → isBackedge order e = false) ↔
            (∀ p ∈ outEdges E n, isBackedge order p.1 = false) ∧
              ∀ p ∈ inEdges E n, isBackedge order p.1 = false := by
          constructor
          · intro hall
            refine ⟨fun p hp => ?_, fun p hp => ?_⟩
            · obtain ⟨he, hn', -⟩ := mem_outEdges.1 hp
              exact hall _ he (.inl hn')
            · obtain ⟨he, hn', -⟩ := mem_inEdges.1 hp
              exact hall _ he (.inr hn')
          · rintro ⟨hout, hin⟩ e he (rfl | rfl)
            · exact hout _ (mem_outEdges.2 ⟨he, rfl, rfl⟩)
            · exact hin _ (mem_inEdges.2 ⟨he, rfl, rfl⟩)
        rw [hsplit, ← hcountP, ← hcountP]
        omega
    · intro a ha
      obtain rfl | ha := mem_cons.1 ha
      · exact .refl
      obtain ha | ha := mem_append.1 ha
      · obtain ⟨p, hp, hpa⟩ := hreach1 a ha
        obtain ⟨he, hn', hw⟩ := mem_outEdges.1 hp
        refine .head (.inl ?_) hpa
        rw [hw, ← hn']
        exact he
      · obtain ⟨p, hp, hpa⟩ := hreach2 a ha
        obtain ⟨he, hn', hw⟩ := mem_inEdges.1 hp
        refine .head (.inr ?_) hpa
        rw [hw, ← hn']
        exact he

end LabelOrder

end Graphviz
