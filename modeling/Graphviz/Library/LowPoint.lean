import Mathlib.Data.List.TakeWhile
import Graphviz.Library.Blocks

/-!
# The blocks of a graph by one search

The search numbers the vertices as it meets them and keeps the edges that it follows, and those that
lead back, on a stack. The low point of a vertex is the least number that is seen from what has been
met after it. When the low point of a child is not under the number of its parent, the edges down to
the one that led to the child are a block: the child and all that is left of what was met after it
get separated from the rest by the parent.
-/

namespace LowPoint

open Blocks Function List Nat Relation Set

universe u v

variable {α : Type u} {ε : Type v}

/-- A graph by the edges that are found at each vertex; an edge is found at both of its ends, as two
different ones. -/
structure Incidence (α : Type u) (ε : Type v) where
  out : α → List ε
  src : ε → α
  dst : ε → α
  src_eq : ∀ u, ∀ e ∈ out u, src e = u
  symm : ∀ u, ∀ e ∈ out u, ∃ e' ∈ out (dst e), dst e' = u

variable (I : Incidence α ε)

/-- The vertices are different and an edge joins them. -/
def Incidence.Adj (x y : α) : Prop :=
  x ≠ y ∧ ∃ e ∈ I.out x, I.dst e = y

/-- A path leads from one vertex to the other. -/
def Incidence.Reach : α → α → Prop :=
  ReflTransGen I.Adj

/-- The ends of edges. -/
def Incidence.span (es : List ε) : Set α :=
  {x | ∃ e ∈ es, I.src e = x ∨ I.dst e = x}

theorem Incidence.adj_symm (x y : α) (h : I.Adj x y) : I.Adj y x := by
  obtain ⟨hne, e, he, rfl⟩ := h
  exact ⟨hne.symm, I.symm x e he⟩

/-! ## The search -/

/-- The number of vertices that have been met, the low points and the numbers, the stack with its
top first, and the blocks, each with the vertex that separates it from the rest. -/
structure State (α : Type u) (ε : Type v) where
  count : ℕ
  low : α → ℕ
  num : α → ℕ
  stack : List ε
  blocks : List (List ε × α)

section search

variable [DecidableEq α] [DecidableEq ε]

/-- A vertex is met. -/
def State.enter (s : State α ε) (u : α) : State α ε :=
  { s with count := s.count + 1
           low := update s.low u (s.count + 1)
           num := update s.num u (s.count + 1) }

/-- A number is seen from a vertex. -/
def State.lower (s : State α ε) (u : α) (k : ℕ) : State α ε :=
  { s with low := update s.low u (min (s.low u) k) }

/-- An edge is put on the stack. -/
def State.push (s : State α ε) (e : ε) : State α ε :=
  { s with stack := e :: s.stack }

/-- The edges down to one on the stack become a block. -/
def State.close (s : State α ε) (u : α) (e : ε) : Option (State α ε) :=
  match s.stack.dropWhile (· ≠ e) with
  | [] => none
  | _ :: stack => some { s with
      stack, blocks := s.blocks ++ [(s.stack.takeWhile (· ≠ e) ++ [e], u)] }

/-- An edge is looked at. -/
def step (dfs : State α ε → Option α → α → Option (State α ε)) (parent : Option α) (u : α)
    (s : State α ε) (e : ε) : Option (State α ε) :=
  let v := I.dst e
  if v = u then some s
  else if s.num v = 0 then do
    let s ← dfs (s.push e) (some u) v
    let s := s.lower u (s.low v)
    if s.num u ≤ s.low v then s.close u e else some s
  else if parent ≠ some v then
    let s := s.lower u (s.num v)
    some (if s.num v < s.num u then s.push e else s)
  else some s

/-- The search from a vertex, to a depth of at most the second argument. -/
def dfs : ℕ → State α ε → Option α → α → Option (State α ε)
  | 0, _, _, _ => none
  | d + 1, s, parent, u => (I.out u).foldlM (step I (dfs d) parent u) (s.enter u)

/-- The search goes on at a vertex, unless it has been met. -/
def resume (d : ℕ) (s : State α ε) (u : α) : Option (State α ε) :=
  if s.num u = 0 then dfs I d s none u else some s

/-- The search from the vertices of a list. -/
def search (d : ℕ) (us : List α) : Option (State α ε) :=
  us.foldlM (resume I d) ⟨0, fun _ => 0, fun _ => 0, [], []⟩

end search

/-! ## The invariant -/

/-- The blocks as sets of vertices. -/
def State.parts (s : State α ε) : List (Set α × α) :=
  s.blocks.map fun b => (I.span b.1, b.2)

/-- The vertex has been separated with a block. -/
def State.Dead (s : State α ε) (x : α) : Prop :=
  ∃ b ∈ s.parts I, x ∈ b.1 ∧ x ≠ b.2

/-- The vertices that have been met between two states and are not dead. -/
def Pending (s s' : State α ε) : Set α :=
  {x | s.num x = 0 ∧ s'.num x ≠ 0 ∧ ¬s'.Dead I x}

/-- The invariant of the search. The vertices on the way to the current one are `gray`. -/
structure Inv (gray : List α) (s : State α ε) : Prop where
  le_count : ∀ x, s.num x ≤ s.count
  order : gray.Pairwise fun a b => s.num b < s.num a
  gray_met : ∀ g ∈ gray, s.num g ≠ 0
  gray_alive : ∀ g ∈ gray, ¬s.Dead I g
  black : ∀ x, s.num x ≠ 0 → x ∉ gray → ∀ y, I.Adj x y → s.num y ≠ 0
  met : ∀ b ∈ s.parts I, ∀ x ∈ b.1, s.num x ≠ 0
  covered : ∀ x, s.Dead I x → ∀ y, I.Adj x y → ∃ b ∈ s.parts I, x ∈ b.1 ∧ y ∈ b.1
  parts : Parts I.Adj (s.parts I)

/-- What the search from a vertex does to the rest of the state. -/
structure Grown (s : State α ε) (u : α) (s' : State α ε) : Prop where
  count : s.count ≤ s'.count
  num : ∀ x, s.num x ≠ 0 → s'.num x = s.num x
  low : ∀ x, s.num x ≠ 0 → s'.low x = s.low x
  later : ∀ x, s.num x = 0 → s'.num x ≠ 0 → s.count < s'.num x
  blocks : s.blocks <+: s'.blocks
  dead : ∀ x, s'.Dead I x → s.Dead I x ∨ s.num x = 0
  reach : ∀ x, s.num x = 0 → s'.num x ≠ 0 → I.Reach u x
  self : s'.num u = s.count + 1

/-- The vertices that are pending after the search from one of them: the edges on the stack for
them, the ways between them, and the low point. -/
structure Front (gray : List α) (s : State α ε) (u : α) (new : List ε) (s' : State α ε) :
    Prop where
  stack : s'.stack = new ++ s.stack
  edge : ∀ e ∈ new, I.src e ∈ Pending I s s' ∧ I.Adj (I.src e) (I.dst e) ∧
    (I.dst e ∈ Pending I s s' ∨ I.dst e ∈ gray)
  entry : ∀ x ∈ Pending I s s', x ≠ u → ∃ e ∈ new, I.dst e = x
  self : u ∈ Pending I s s'
  linked : ∀ x ∈ Pending I s s', Within I.Adj (Pending I s s') x u
  apart : ∀ w ∈ Pending I s s', ∀ x ∈ Pending I s s', x ≠ w →
    (w ≠ u ∧ Within I.Adj (Pending I s s' \ {w}) x u) ∨
      ∃ z ∈ Pending I s s' \ {w}, Within I.Adj (Pending I s s' \ {w}) x z ∧
        ∃ g ∈ gray, I.Adj z g
  low_le : s'.low u ≤ s'.num u
  low_ge : ∀ x ∈ Pending I s s', x ≠ u → ∀ g ∈ gray, I.Adj x g → s'.low u ≤ s'.num g
  low_eq : s'.low u = s'.num u ∨
    ∃ x ∈ Pending I s s', ∃ g ∈ gray, I.Adj x g ∧ s'.low u = s'.num g

/-- The loop at a vertex, with the edges that are left. -/
structure AtLoop (gray : List α) (parent : Option α) (s : State α ε) (u : α) (rest new : List ε)
    (s' : State α ε) : Prop where
  inv : Inv I (u :: gray) s'
  grown : Grown I s u s'
  front : Front I gray s u new s'
  subset : ∀ e ∈ rest, e ∈ I.out u
  done : ∀ e ∈ I.out u, e ∈ rest ∨ I.dst e = u ∨ s'.num (I.dst e) ≠ 0 ∧
    (I.dst e ∈ gray → parent ≠ some (I.dst e) → s'.low u ≤ s'.num (I.dst e))

/-- What the search from a vertex leads to. -/
structure Visited (gray : List α) (parent : Option α) (s : State α ε) (u : α) (new : List ε)
    (s' : State α ε) : Prop where
  inv : Inv I gray s'
  grown : Grown I s u s'
  front : Front I gray s u new s'
  own : ∀ g ∈ gray, I.Adj u g → parent ≠ some g → s'.low u ≤ s'.num g

variable {I} {gray : List α} {parent : Option α} {s s' s'' : State α ε} {u v x y : α} {e : ε}
  {rest new new' : List ε} {d : ℕ}

theorem Inv.dead_met (h : Inv I gray s) (hx : s.Dead I x) : s.num x ≠ 0 := by
  obtain ⟨b, hb, hxb, -⟩ := hx
  exact h.met b hb x hxb

/-- A vertex that has been met next to one that has not is on the way. -/
theorem Inv.mem_gray (h : Inv I gray s) (hx : s.num x = 0) (hxy : I.Adj x y) (hy : s.num y ≠ 0) :
    y ∈ gray :=
  by_contra fun hmem => h.black y hy hmem x (I.adj_symm x y hxy) hx

theorem Grown.dead_of_dead (h : Grown I s u s') (hx : s.Dead I x) : s'.Dead I x := by
  obtain ⟨b, hb, hxb⟩ := hx
  exact ⟨b, (h.blocks.map _).subset hb, hxb⟩

theorem Grown.met (h : Grown I s u s') (hx : s.num x ≠ 0) : s'.num x ≠ 0 :=
  (h.num x hx).symm ▸ hx

/-- What is next to a pending vertex is pending, on the way, or dead. -/
theorem pending_or_gray (hs : Inv I gray s) (hx : s.num x = 0) (hxy : I.Adj x y)
    (hy : s'.num y ≠ 0) : y ∈ gray ∨ s'.Dead I y ∨ y ∈ Pending I s s' := by
  obtain hy0 | hy0 := eq_or_ne (s.num y) 0
  · obtain hdead | hdead := Classical.em (s'.Dead I y)
    · exact .inr (.inl hdead)
    · exact .inr (.inr ⟨hy0, hy, hdead⟩)
  · exact .inl (hs.mem_gray hx hxy hy0)

/-! ## A vertex is met -/

section start

variable [DecidableEq α]

theorem enter_num_self : (s.enter u).num u = s.count + 1 :=
  update_self u _ _

theorem enter_num_of_ne (h : x ≠ u) : (s.enter u).num x = s.num x :=
  update_of_ne h _ _

theorem enter_num_ne_zero (hx : s.num x ≠ 0) : (s.enter u).num x ≠ 0 := by
  obtain rfl | hne := eq_or_ne x u
  · rw [enter_num_self]
    exact succ_ne_zero _
  · rwa [enter_num_of_ne hne]

theorem Inv.enter (h : Inv I gray s) (hu : s.num u = 0) : Inv I (u :: gray) (s.enter u) := by
  have hgray : ∀ g ∈ gray, (s.enter u).num g = s.num g := fun g hg =>
    enter_num_of_ne fun heq => h.gray_met g hg (heq ▸ hu)
  refine ⟨fun x => ?_, pairwise_cons.2 ⟨fun g hg => ?_, ?_⟩, fun g hg => ?_, fun g hg => ?_,
    fun x hx hgray y hxy => ?_, fun b hb x hx => enter_num_ne_zero (h.met b hb x hx), h.covered,
    h.parts⟩
  · change _ ≤ s.count + 1
    obtain rfl | hne := eq_or_ne x u
    · exact enter_num_self.le
    · rw [enter_num_of_ne hne]
      exact (h.le_count x).trans (le_succ _)
  · rw [enter_num_self, hgray g hg]
    exact lt_succ_of_le (h.le_count g)
  · refine h.order.imp_of_mem fun {a b} ha hb hlt => ?_
    rwa [hgray a ha, hgray b hb]
  · obtain rfl | hg := mem_cons.1 hg
    · rw [enter_num_self]
      exact succ_ne_zero _
    · exact enter_num_ne_zero (h.gray_met g hg)
  · obtain rfl | hg := mem_cons.1 hg
    · exact fun hdead => h.dead_met hdead hu
    · exact h.gray_alive g hg
  · obtain ⟨hxu, hgray⟩ := not_or.1 (mt mem_cons.2 hgray)
    rw [enter_num_of_ne hxu] at hx
    exact enter_num_ne_zero (h.black x hx hgray y hxy)

theorem pending_enter (h : Inv I gray s) (hu : s.num u = 0) :
    x ∈ Pending I s (s.enter u) ↔ x = u := by
  constructor
  · rintro ⟨hx0, hx, -⟩
    exact by_contra fun hne => hx ((enter_num_of_ne hne).trans hx0)
  · rintro rfl
    refine ⟨hu, ?_, fun hdead => h.dead_met hdead hu⟩
    rw [enter_num_self]
    exact succ_ne_zero _

theorem AtLoop.start (h : Inv I gray s) (hu : s.num u = 0) :
    AtLoop I gray parent s u (I.out u) [] (s.enter u) := by
  have hlow : (s.enter u).low u = (s.enter u).num u := by
    rw [enter_num_self]
    exact update_self u _ _
  have hpending : ∀ x, x ∈ Pending I s (s.enter u) ↔ x = u := fun x => pending_enter h hu
  refine ⟨h.enter hu, ⟨le_succ _, fun x hx => enter_num_of_ne ?_, fun x hx => ?_,
    fun x hx0 hx => ?_, prefix_refl _, fun x => .inl, fun x hx0 hx => ?_, enter_num_self⟩,
    ⟨rfl, nofun, fun x hx hne => ?_, (hpending u).2 rfl, fun x hx => ?_, fun w hw x hx hne => ?_,
    hlow.le, fun x hx hne => ?_, .inl hlow⟩, fun e he => he, fun e he => .inl he⟩
  · exact fun heq => hx (heq ▸ hu)
  · have hne : x ≠ u := fun heq => hx (heq ▸ hu)
    exact update_of_ne hne _ _
  · obtain rfl := (hpending x).1 ⟨hx0, hx, fun hdead => h.dead_met hdead hx0⟩
    rw [enter_num_self]
    exact lt_succ_self _
  · obtain rfl := (hpending x).1 ⟨hx0, hx, fun hdead => h.dead_met hdead hx0⟩
    exact .refl
  · exact absurd ((hpending x).1 hx) hne
  · rw [(hpending x).1 hx]
    exact .refl
  · exact absurd (((hpending x).1 hx).trans ((hpending w).1 hw).symm) hne
  · exact absurd ((hpending x).1 hx) hne

end start

/-! ## An edge that leads to no new vertex -/

theorem Inv.congr (h : Inv I gray s) (hcount : s'.count = s.count) (hnum : s'.num = s.num)
    (hblocks : s'.blocks = s.blocks) : Inv I gray s' := by
  obtain ⟨count, low, num, stack, blocks⟩ := s
  obtain ⟨count', low', num', stack', blocks'⟩ := s'
  subst hcount hnum hblocks
  exact ⟨h.le_count, h.order, h.gray_met, h.gray_alive, h.black, h.met, h.covered, h.parts⟩

theorem AtLoop.unmet (h : AtLoop I gray parent s u rest new s') : s.num u = 0 :=
  h.front.self.1

theorem AtLoop.num_gray (h : AtLoop I gray parent s u rest new s') (hs : Inv I gray s)
    (hx : x ∈ gray) : s'.num x = s.num x :=
  h.grown.num x (hs.gray_met x hx)

theorem AtLoop.ne_of_mem (h : AtLoop I gray parent s u rest new s') (hs : Inv I gray s)
    (hx : x ∈ gray) : x ≠ u :=
  fun heq => hs.gray_met x hx (heq ▸ h.unmet)

/-- The edge is one of the vertex and leads to a vertex that has been met. -/
theorem AtLoop.skip (h : AtLoop I gray parent s u (e :: rest) new s')
    (he : I.dst e = u ∨ s'.num (I.dst e) ≠ 0 ∧
      (I.dst e ∈ gray → parent ≠ some (I.dst e) → s'.low u ≤ s'.num (I.dst e))) :
    AtLoop I gray parent s u rest new s' := by
  refine { h with subset := fun e' he' => h.subset e' (mem_cons_of_mem e he'),
                  done := fun e' he' => ?_ }
  obtain hmem | hdone := h.done e' he'
  · obtain rfl | hmem := mem_cons.1 hmem
    · exact .inr he
    · exact .inl hmem
  · exact .inr hdone

/-- A vertex that has a smaller number is on the way. -/
theorem AtLoop.mem_gray (h : AtLoop I gray parent s u rest new s') (hs : Inv I gray s)
    (hux : I.Adj u x) (hx : s'.num x ≠ 0) (hlt : s'.num x < s'.num u) : x ∈ gray := by
  refine hs.mem_gray h.unmet hux fun hx0 => ?_
  have hlater := h.grown.later x hx0 hx
  have hself := h.grown.self
  omega

section back

variable [DecidableEq α]

theorem lower_low_self (s : State α ε) (u : α) (k : ℕ) : (s.lower u k).low u = min (s.low u) k :=
  update_self u _ _

theorem lower_low_of_ne {k : ℕ} (h : x ≠ u) : (s.lower u k).low x = s.low x :=
  update_of_ne h _ _

theorem lower_eq_self {k : ℕ} (h : s.low u ≤ k) : s.lower u k = s := by
  rw [State.lower, min_eq_left h, update_eq_self]

/-- The edge leads back to a vertex on the way. -/
theorem AtLoop.back (h : AtLoop I gray parent s u (e :: rest) new s') (hs : Inv I gray s)
    (hmem : I.dst e ∈ gray) :
    AtLoop I gray parent s u rest (e :: new) ((s'.lower u (s'.num (I.dst e))).push e) := by
  have heu : e ∈ I.out u := h.subset e mem_cons_self
  have hadj : I.Adj u (I.dst e) := ⟨(h.ne_of_mem hs hmem).symm, e, heu, rfl⟩
  have hself := lower_low_self s' u (s'.num (I.dst e))
  have hmet : s'.num (I.dst e) ≠ 0 := h.grown.met (hs.gray_met _ hmem)
  have hle := min_le_left (s'.low u) (s'.num (I.dst e))
  refine ⟨h.inv.congr rfl rfl rfl, { h.grown with low := fun x hx => ?_ },
    { h.front with stack := ?_, edge := ?_, entry := ?_, low_le := ?_, low_ge := ?_, low_eq := ?_ },
    fun e' he' => h.subset e' (mem_cons_of_mem e he'), fun e' he' => ?_⟩
  · have hne : x ≠ u := fun heq => hx (heq ▸ h.unmet)
    exact (lower_low_of_ne hne).trans (h.grown.low x hx)
  · exact congrArg (e :: ·) h.front.stack
  · intro e' he'
    obtain rfl | he' := mem_cons.1 he'
    · rw [I.src_eq u e' heu]
      exact ⟨h.front.self, hadj, .inr hmem⟩
    · exact h.front.edge e' he'
  · intro x hx hne
    obtain ⟨e', he', heq⟩ := h.front.entry x hx hne
    exact ⟨e', mem_cons_of_mem e he', heq⟩
  · change (s'.lower u _).low u ≤ s'.num u
    rw [hself]
    exact hle.trans h.front.low_le
  · intro x hx hne g hg hxg
    change (s'.lower u _).low u ≤ s'.num g
    rw [hself]
    exact hle.trans (h.front.low_ge x hx hne g hg hxg)
  · change (s'.lower u _).low u = s'.num u ∨ ∃ x ∈ _, ∃ g ∈ gray, I.Adj x g ∧
      (s'.lower u _).low u = s'.num g
    rw [hself]
    obtain heq | heq := min_choice (s'.low u) (s'.num (I.dst e))
    · rw [heq]
      exact h.front.low_eq
    · rw [heq]
      exact .inr ⟨u, h.front.self, _, hmem, hadj, rfl⟩
  · change e' ∈ rest ∨ I.dst e' = u ∨ s'.num (I.dst e') ≠ 0 ∧ (I.dst e' ∈ gray →
      parent ≠ some (I.dst e') → (s'.lower u _).low u ≤ s'.num (I.dst e'))
    rw [hself]
    obtain hrest | hdone | ⟨hmet', hlow⟩ := h.done e' he'
    · obtain rfl | hrest := mem_cons.1 hrest
      · exact .inr (.inr ⟨hmet, fun _ _ => min_le_right _ _⟩)
      · exact .inl hrest
    · exact .inr (.inl hdone)
    · exact .inr (.inr ⟨hmet', fun hg hp => hle.trans (hlow hg hp)⟩)

end back

/-! ## An edge that leads to a new vertex -/

theorem AtLoop.alive (h : AtLoop I gray parent s u rest new s') (hs : Inv I gray s)
    (hx : x ∈ gray) : s'.num x < s'.num u := by
  have hle := hs.le_count x
  rw [h.num_gray hs hx, h.grown.self]
  omega

/-- What has been met from a child has been met from the vertex. -/
theorem Grown.child {t : State α ε} (h : Grown I s u s') (hv : Grown I (s'.push e) v s'')
    (huv : I.Adj u v) (hu : s.num u = 0) (hcount : t.count = s''.count) (hnum : t.num = s''.num)
    (hlow : ∀ x, x ≠ u → t.low x = s''.low x) (hblocks : s''.blocks <+: t.blocks)
    (hdead : ∀ x, t.Dead I x → s''.Dead I x ∨ s'.num x = 0) : Grown I s u t := by
  have hself : s'.num u ≠ 0 := h.self ▸ succ_ne_zero _
  have hcases : ∀ x, t.num x ≠ 0 → s'.num x = 0 ∨ s'.num x ≠ 0 ∧ t.num x = s'.num x := by
    intro x _
    obtain hx | hx := eq_or_ne (s'.num x) 0
    · exact .inl hx
    · exact .inr ⟨hx, by rw [hnum]; exact hv.num x hx⟩
  refine ⟨hcount ▸ h.count.trans hv.count, fun x hx => ?_, fun x hx => ?_, fun x hx0 hx => ?_,
    h.blocks.trans (hv.blocks.trans hblocks), fun x hx => ?_, fun x hx0 hx => ?_, ?_⟩
  · rw [hnum, hv.num x (h.met hx)]
    exact h.num x hx
  · have hne : x ≠ u := fun heq => hx (heq ▸ hu)
    rw [hlow x hne, hv.low x (h.met hx)]
    exact h.low x hx
  · obtain hx' | ⟨hx', heq⟩ := hcases x hx
    · rw [hnum]
      exact h.count.trans_lt (hv.later x hx' (hnum ▸ hx))
    · rw [heq]
      exact h.later x hx0 hx'
  · have hzero : s'.num x = 0 → s.num x = 0 := fun hx' => by_contra fun hne => h.met hne hx'
    obtain hx | hx := hdead x hx
    · obtain hx | hx := hv.dead x hx
      · exact h.dead x hx
      · exact .inr (hzero hx)
    · exact .inr (hzero hx)
  · obtain hx' | ⟨hx', -⟩ := hcases x hx
    · exact .head huv (hv.reach x hx' (hnum ▸ hx))
    · exact h.reach x hx0 hx'
  · rw [hnum, hv.num u hself]
    exact h.self

/-- What is pending after the search from a child. -/
theorem mem_pending_child (h : Grown I s u s') (hv : Grown I (s'.push e) v s'') :
    x ∈ Pending I s s'' ↔ x ∈ Pending I s s' ∨ x ∈ Pending I (s'.push e) s'' := by
  have hzero : s'.num x = 0 → s.num x = 0 := fun hx' => by_contra fun hne => h.met hne hx'
  constructor
  · rintro ⟨hx0, hx, hdead⟩
    obtain hx' | hx' := eq_or_ne (s'.num x) 0
    · exact .inr ⟨hx', hx, hdead⟩
    · exact .inl ⟨hx0, hx', fun hx => hdead (hv.dead_of_dead hx)⟩
  · rintro (⟨hx0, hx, hdead⟩ | ⟨hx0, hx, hdead⟩)
    · refine ⟨hx0, hv.met hx, fun hx' => ?_⟩
      exact (hv.dead x hx').elim hdead hx
    · exact ⟨hzero hx0, hx, hdead⟩

/-- The edges down to one that is on the stack once above its place. -/
theorem close_eq [DecidableEq ε] {t : State α ε} {stack : List ε}
    (hstack : t.stack = new ++ e :: stack)
    (hnew : e ∉ new) : t.close u e = some { t with
      stack, blocks := t.blocks ++ [(new ++ [e], u)] } := by
  have hall : ∀ e' ∈ new, decide (e' ≠ e) = true := fun e' he' =>
    decide_eq_true fun heq => hnew (heq ▸ he')
  have hdrop : t.stack.dropWhile (· ≠ e) = e :: stack := by
    rw [hstack, dropWhile_append_of_pos hall, dropWhile_cons_of_neg (by simp)]
  have htake : t.stack.takeWhile (· ≠ e) = new := by
    rw [hstack, takeWhile_append_of_pos hall, takeWhile_cons_of_neg (by simp),
      append_nil]
  rw [State.close, hdrop, htake]

/-- What is pending at the vertex does not depend on the rest. -/
theorem Front.congr {t : State α ε} (h : Front I gray s u new s') (hgray : ∀ g ∈ gray, s'.num g ≠ 0)
    (hpending : Pending I s t = Pending I s s') (hstack : t.stack = s'.stack)
    (hnum : ∀ x, s'.num x ≠ 0 → t.num x = s'.num x) (hlow : t.low u = s'.low u) :
    Front I gray s u new t := by
  have hu := hnum u h.self.2.1
  refine ⟨hstack.trans h.stack, ?_, ?_, ?_, ?_, ?_, ?_, fun x hx hne g hg => ?_, ?_⟩
  · rw [hpending]
    exact h.edge
  · rw [hpending]
    exact h.entry
  · rw [hpending]
    exact h.self
  · rw [hpending]
    exact h.linked
  · rw [hpending]
    exact h.apart
  · rw [hlow, hu]
    exact h.low_le
  · rw [hlow, hnum g (hgray g hg)]
    rw [hpending] at hx
    exact h.low_ge x hx hne g hg
  · rw [hlow, hu, hpending]
    refine h.low_eq.imp_right ?_
    rintro ⟨x, hx, g, hg, hxg, heq⟩
    exact ⟨x, hx, g, hg, hxg, heq.trans (hnum g (hgray g hg)).symm⟩

section child

variable (h : AtLoop I gray parent s u (e :: rest) new s') (hs : Inv I gray s)
  (hv : Visited I (u :: gray) (some u) (s'.push e) (I.dst e) new' s'')

include hv

theorem Visited.num_child (hx : s'.num x ≠ 0) : s''.num x = s'.num x :=
  hv.grown.num x hx

include h

omit hv in
theorem AtLoop.num_ne_zero : s'.num u ≠ 0 :=
  h.grown.self ▸ succ_ne_zero _

theorem AtLoop.adj : I.Adj u (I.dst e) := by
  refine ⟨fun heq => h.num_ne_zero ?_, e, h.subset e mem_cons_self, rfl⟩
  exact heq ▸ hv.front.self.1

theorem AtLoop.low_child : s''.low u = s'.low u :=
  hv.grown.low u h.num_ne_zero

include hs

/-- The vertices that are pending at the child are next to none before the vertex, unless its low
point is under the number of the vertex. -/
theorem AtLoop.eq_of_adj (hle : s''.num u ≤ s''.low (I.dst e))
    (hx : x ∈ Pending I (s'.push e) s'') {g : α} (hg : g ∈ u :: gray) (hxg : I.Adj x g) :
    g = u := by
  obtain rfl | hg := mem_cons.1 hg
  · rfl
  · have hlt := h.alive hs hg
    rw [← hv.num_child h.num_ne_zero, ← hv.num_child (h.grown.met (hs.gray_met g hg))] at hlt
    have hlow : s''.low (I.dst e) ≤ s''.num g := by
      obtain rfl | hne := Classical.em (x = I.dst e)
      · exact hv.own g (mem_cons_of_mem u hg) hxg fun heq =>
          h.ne_of_mem hs hg (Option.some.inj heq).symm
      · exact hv.front.low_ge x hx hne g (mem_cons_of_mem u hg) hxg
    omega

omit hs in
/-- With a low point under the number of the vertex, a pending vertex is next to one before it. -/
theorem AtLoop.exists_adj (hlt : s''.low (I.dst e) < s''.num u) :
    ∃ z ∈ Pending I (s'.push e) s'', ∃ g ∈ gray, I.Adj z g ∧
      s''.low (I.dst e) = s''.num g := by
  obtain heq | ⟨z, hz, g, hg, hzg, heq⟩ := hv.front.low_eq
  · have hlater := hv.grown.later (I.dst e) hv.front.self.1 hv.front.self.2.1
    have hle : s'.num u ≤ s'.count := h.inv.le_count u
    rw [heq, hv.num_child h.num_ne_zero] at hlt
    exact absurd (hle.trans_lt hlater) hlt.le.not_gt
  · obtain rfl | hg := mem_cons.1 hg
    · omega
    · exact ⟨z, hz, g, hg, hzg, heq⟩

/-- The ends of the edges down to the one that led to the child. -/
theorem AtLoop.span_eq (hle : s''.num u ≤ s''.low (I.dst e)) :
    I.span (new' ++ [e]) = insert u (Pending I (s'.push e) s'') := by
  have hsrc : I.src e = u := I.src_eq u e (h.subset e mem_cons_self)
  ext x
  constructor
  · rintro ⟨e', he', hx⟩
    obtain he' | he' := mem_append.1 he'
    · obtain ⟨hsrc', hadj, hdst⟩ := hv.front.edge e' he'
      obtain rfl | rfl := hx
      · exact Set.mem_insert_of_mem u hsrc'
      · obtain hdst | hdst := hdst
        · exact Set.mem_insert_of_mem u hdst
        · rw [h.eq_of_adj hs hv hle hsrc' hdst hadj]
          exact Set.mem_insert u _
    · obtain rfl := mem_singleton.1 he'
      obtain rfl | rfl := hx
      · rw [hsrc]
        exact Set.mem_insert u _
      · exact Set.mem_insert_of_mem u hv.front.self
  · rintro (rfl | hx)
    · exact ⟨e, mem_append_right _ mem_cons_self, .inl hsrc⟩
    · obtain rfl | hne := Classical.em (x = I.dst e)
      · exact ⟨e, mem_append_right _ mem_cons_self, .inr rfl⟩
      · obtain ⟨e', he', heq⟩ := hv.front.entry x hx hne
        exact ⟨e', mem_append_left _ he', .inr heq⟩

/-- The child and what is pending after it are nonseparable with the vertex. -/
theorem AtLoop.nonseparable (hle : s''.num u ≤ s''.low (I.dst e)) :
    Nonseparable I.Adj (insert u (Pending I (s'.push e) s'')) := by
  have hu : u ∉ Pending I (s'.push e) s'' := fun hmem => h.num_ne_zero hmem.1
  have hvu : I.Adj (I.dst e) u := I.adj_symm _ _ (h.adj hv)
  refine ⟨linked_of_center I.adj_symm (z := u) fun x hx => ?_, fun w hw => ?_⟩
  · obtain rfl | hx := hx
    · exact .refl
    · exact ((hv.front.linked x hx).mono (Set.subset_insert _ _)).trans
        (Within.edge hvu (Set.mem_insert_of_mem u hv.front.self) (Set.mem_insert u _))
  · obtain rfl | hw := hw
    · rw [insert_sdiff_self_of_notMem hu]
      exact linked_of_center I.adj_symm hv.front.linked
    · have huw : u ≠ w := fun heq => hu (heq ▸ hw)
      have hsub : Pending I (s'.push e) s'' \ {w} ⊆ insert u (Pending I (s'.push e) s'') \ {w} :=
        sdiff_subset_sdiff_left (Set.subset_insert _ _)
      have hu' : u ∈ insert u (Pending I (s'.push e) s'') \ {w} := ⟨Set.mem_insert u _, huw⟩
      refine linked_of_center I.adj_symm (z := u) fun x hx => ?_
      obtain ⟨rfl | hx, hxw⟩ := hx
      · exact .refl
      · obtain ⟨hwv, hway⟩ | ⟨z, hz, hway, g, hg, hzg⟩ := hv.front.apart w hw x hx hxw
        · exact (hway.mono hsub).trans (Within.edge hvu (hsub ⟨hv.front.self, Ne.symm hwv⟩) hu')
        · obtain rfl := h.eq_of_adj hs hv hle hz.1 hg hzg
          exact (hway.mono hsub).trans (Within.edge hzg (hsub hz) hu')

omit hs in
/-- The ways between what is pending at the vertex and what is pending after the child. -/
theorem AtLoop.join_apart (hlt : s''.low (I.dst e) < s''.num u) {S : Set α}
    (hS : S = Pending I s s' ∪ Pending I (s'.push e) s'') {w : α} (hw : w ∈ S) (hx : x ∈ S)
    (hne : x ≠ w) : (w ≠ u ∧ Within I.Adj (S \ {w}) x u) ∨
      ∃ z ∈ S \ {w}, Within I.Adj (S \ {w}) x z ∧ ∃ g ∈ gray, I.Adj z g := by
  subst hS
  set S' := Pending I s s'
  set T := Pending I (s'.push e) s''
  have hdisj : ∀ y ∈ S', y ∉ T := fun y hy hy' => hy.2.1 hy'.1
  have hu : u ∈ S' := h.front.self
  have hv' : I.dst e ∈ T := hv.front.self
  have hvu : I.Adj (I.dst e) u := I.adj_symm _ _ (h.adj hv)
  have hleft : S' \ {w} ⊆ (S' ∪ T) \ {w} := sdiff_subset_sdiff_left subset_union_left
  have hright : T \ {w} ⊆ (S' ∪ T) \ {w} := sdiff_subset_sdiff_left subset_union_right
  obtain hw | hw := hw
  · have hT : T ⊆ (S' ∪ T) \ {w} := fun y hy => ⟨.inr hy, fun heq => hdisj w hw (heq ▸ hy)⟩
    obtain hx | hx := hx
    · refine (h.front.apart w hw x hx hne).imp (fun hway => ⟨hway.1, hway.2.mono hleft⟩) ?_
      rintro ⟨z, hz, hway, hzg⟩
      exact ⟨z, hleft hz, hway.mono hleft, hzg⟩
    · have hxv := (hv.front.linked x hx).mono hT
      obtain rfl | hwu := Classical.em (w = u)
      · -- without the vertex the way goes on from the child to what it sees
        obtain ⟨z, hz, g, hg, hzg, -⟩ := h.exists_adj hv hlt
        exact .inr ⟨z, hT hz, hxv.trans (((hv.front.linked z hz).symm I.adj_symm).mono hT),
          g, hg, hzg⟩
      · exact .inl ⟨hwu, hxv.trans (Within.edge hvu (hT hv') ⟨.inl hu, Ne.symm hwu⟩)⟩
  · have hwu : w ≠ u := fun heq => hdisj u hu (heq ▸ hw)
    have hS : S' ⊆ (S' ∪ T) \ {w} := fun y hy => ⟨.inl hy, fun heq => hdisj y hy (heq ▸ hw)⟩
    obtain hx | hx := hx
    · exact .inl ⟨hwu, (h.front.linked x hx).mono hS⟩
    · obtain ⟨hwv, hway⟩ | ⟨z, hz, hway, g, hg, hzg⟩ := hv.front.apart w hw x hx hne
      · exact .inl ⟨hwu, (hway.mono hright).trans
          (Within.edge hvu (hright ⟨hv', Ne.symm hwv⟩) (hS hu))⟩
      · obtain rfl | hg := mem_cons.1 hg
        · exact .inl ⟨hwu, (hway.mono hright).trans (Within.edge hzg (hright hz) (hS hu))⟩
        · exact .inr ⟨z, hright hz, hway.mono hright, g, hg, hzg⟩

omit hs hv in
/-- The dead vertices after the block of a child. -/
theorem AtLoop.dead_pop {t : State α ε}
    (hparts : t.parts I = s''.parts I ++ [(insert u (Pending I (s'.push e) s''), u)]) (x : α) :
    t.Dead I x ↔ s''.Dead I x ∨ x ∈ Pending I (s'.push e) s'' := by
  have hu : u ∉ Pending I (s'.push e) s'' := fun hmem => h.num_ne_zero hmem.1
  rw [State.Dead, hparts]
  constructor
  · rintro ⟨b, hb, hxb, hne⟩
    obtain hb | hb := mem_append.1 hb
    · exact .inl ⟨b, hb, hxb, hne⟩
    · obtain rfl := mem_singleton.1 hb
      exact .inr (hxb.resolve_left hne)
  · rintro (⟨b, hb, hx⟩ | hx)
    · exact ⟨b, mem_append_left _ hb, hx⟩
    · have hne : x ≠ u := fun heq => hu (heq ▸ hx)
      exact ⟨_, mem_append_right _ mem_cons_self, .inr hx, hne⟩

/-- The invariant after the block of a child. -/
theorem AtLoop.inv_pop {t : State α ε} (hle : s''.num u ≤ s''.low (I.dst e))
    (hcount : t.count = s''.count) (hnum : t.num = s''.num)
    (hparts : t.parts I = s''.parts I ++ [(insert u (Pending I (s'.push e) s''), u)]) :
    Inv I (u :: gray) t := by
  have hu : u ∉ Pending I (s'.push e) s'' := fun hmem => h.num_ne_zero hmem.1
  have hdead := h.dead_pop hparts
  have hgray : ∀ g ∈ u :: gray, g ∉ Pending I (s'.push e) s'' := fun g hg hmem =>
    h.inv.gray_met g hg hmem.1
  have hmem : (insert u (Pending I (s'.push e) s''), u) ∈ t.parts I :=
    hparts ▸ mem_append_right _ mem_cons_self
  refine ⟨fun x => ?_, ?_, ?_, fun g hg hg' => ?_, ?_, ?_, fun x hx y hxy => ?_, ?_⟩
  · rw [hnum, hcount]
    exact hv.inv.le_count x
  · rw [hnum]
    exact hv.inv.order
  · rw [hnum]
    exact hv.inv.gray_met
  · exact ((hdead g).1 hg').elim (hv.inv.gray_alive g hg) (hgray g hg)
  · rw [hnum]
    exact hv.inv.black
  · rw [hparts, hnum]
    intro b hb x hx
    obtain hb | hb := mem_append.1 hb
    · exact hv.inv.met b hb x hx
    · obtain rfl := mem_singleton.1 hb
      obtain rfl | hx := hx
      · exact hv.inv.gray_met x mem_cons_self
      · exact hx.2.1
  · have hold : ∀ a c, s''.Dead I a → I.Adj a c → ∃ b ∈ t.parts I, a ∈ b.1 ∧ c ∈ b.1 := by
      intro a c ha hac
      obtain ⟨b, hb, hab⟩ := hv.inv.covered a ha c hac
      exact ⟨b, hparts ▸ mem_append_left _ hb, hab⟩
    obtain hx | hx := (hdead x).1 hx
    · exact hold x y hx hxy
    · have hblack : s''.num y ≠ 0 := hv.inv.black x hx.2.1 (fun hmem => hgray x hmem hx) y hxy
      -- what is next to the block is the vertex, in it, or dead
      obtain hy | hy | hy := pending_or_gray h.inv hx.1 hxy hblack
      · obtain rfl := h.eq_of_adj hs hv hle hx hy hxy
        exact ⟨_, hmem, .inr hx, .inl rfl⟩
      · obtain ⟨b, hb, hyb, hxb⟩ := hold y x hy (I.adj_symm x y hxy)
        exact ⟨b, hb, hxb, hyb⟩
      · exact ⟨_, hmem, .inr hx, .inr hy⟩
  · rw [hparts]
    refine hv.inv.parts.concat (Set.mem_insert u _) ?_ (h.nonseparable hs hv hle)
      fun c hc x hxc hx => by_contra fun hne => ?_
    · exact ⟨u, .inl rfl, I.dst e, .inr hv.front.self, (h.adj hv).1⟩
    · have hx' : s''.Dead I x := ⟨c, hc, hxc, hne⟩
      obtain rfl | hx := hx
      · exact hv.inv.gray_alive x mem_cons_self hx'
      · exact hx.2.2 hx'

variable [DecidableEq α]

/-- The child is left on the stack with what is pending after it: something before the vertex is
seen from there. -/
theorem AtLoop.join (hlt : s''.low (I.dst e) < s''.num u) :
    AtLoop I gray parent s u rest (new' ++ e :: new) (s''.lower u (s''.low (I.dst e))) := by
  have hadj := h.adj hv
  have hself := lower_low_self s'' u (s''.low (I.dst e))
  rw [h.low_child hv] at hself
  have hpending : Pending I s (s''.lower u (s''.low (I.dst e))) =
      Pending I s s' ∪ Pending I (s'.push e) s'' :=
    Set.ext fun x => (mem_pending_child h.grown hv.grown : x ∈ Pending I s s'' ↔ _)
  have hleft : Pending I s s' ⊆ Pending I s s' ∪ Pending I (s'.push e) s'' :=
    subset_union_left
  have hright : Pending I (s'.push e) s'' ⊆ Pending I s s' ∪ Pending I (s'.push e) s'' :=
    subset_union_right
  have hvu : Within I.Adj (Pending I s s' ∪ Pending I (s'.push e) s'') (I.dst e) u :=
    .edge (I.adj_symm _ _ hadj) (hright hv.front.self) (hleft h.front.self)
  have hnum : ∀ g ∈ gray, s''.num g = s'.num g := fun g hg =>
    hv.num_child (h.grown.met (hs.gray_met g hg))
  have hnumu : s''.num u = s'.num u := hv.num_child h.num_ne_zero
  have hle := min_le_left (s'.low u) (s''.low (I.dst e))
  refine ⟨hv.inv.congr rfl rfl rfl, h.grown.child hv.grown hadj h.unmet rfl rfl
      (fun x hx => lower_low_of_ne hx) (prefix_refl _) fun x => .inl,
    ⟨?_, fun e' he' => ?_, fun x hx hne => ?_, ?_, fun x hx => ?_,
      fun w hw x hx hne => h.join_apart hv hlt hpending hw hx hne, ?_,
      fun x hx hne g hg hxg => ?_, ?_⟩,
    fun e' he' => h.subset e' (mem_cons_of_mem e he'), fun e' he' => ?_⟩
  · change s''.stack = _
    rw [hv.front.stack, append_assoc]
    exact congrArg (new' ++ e :: ·) h.front.stack
  · rw [hpending]
    obtain he' | he' := mem_append.1 he'
    · obtain ⟨hsrc, hadj', hdst⟩ := hv.front.edge e' he'
      refine ⟨hright hsrc, hadj', ?_⟩
      obtain hdst | hdst := hdst
      · exact .inl (hright hdst)
      · obtain heq | hdst := mem_cons.1 hdst
        · exact .inl (hleft (heq ▸ h.front.self))
        · exact .inr hdst
    · obtain rfl | he' := mem_cons.1 he'
      · rw [I.src_eq u e' (h.subset e' mem_cons_self)]
        exact ⟨hleft h.front.self, hadj, .inl (hright hv.front.self)⟩
      · obtain ⟨hsrc, hadj', hdst⟩ := h.front.edge e' he'
        exact ⟨hleft hsrc, hadj', hdst.imp (fun hmem => hleft hmem) id⟩
  · rw [hpending] at hx
    obtain hx | hx := hx
    · obtain ⟨e', he', heq⟩ := h.front.entry x hx hne
      exact ⟨e', mem_append_right _ (mem_cons_of_mem e he'), heq⟩
    · obtain rfl | hxv := Classical.em (x = I.dst e)
      · exact ⟨e, mem_append_right _ mem_cons_self, rfl⟩
      · obtain ⟨e', he', heq⟩ := hv.front.entry x hx hxv
        exact ⟨e', mem_append_left _ he', heq⟩
  · rw [hpending]
    exact hleft h.front.self
  · rw [hpending] at hx ⊢
    obtain hx | hx := hx
    · exact (h.front.linked x hx).mono hleft
    · exact ((hv.front.linked x hx).mono hright).trans hvu
  · change (s''.lower u _).low u ≤ s''.num u
    rw [hself, hnumu]
    exact hle.trans h.front.low_le
  · change (s''.lower u _).low u ≤ s''.num g
    rw [hpending] at hx
    rw [hself]
    obtain hx | hx := hx
    · rw [hnum g hg]
      exact hle.trans (h.front.low_ge x hx hne g hg hxg)
    · refine (min_le_right _ _).trans ?_
      obtain rfl | hxv := Classical.em (x = I.dst e)
      · exact hv.own g (mem_cons_of_mem u hg) hxg fun heq =>
          h.ne_of_mem hs hg (Option.some.inj heq).symm
      · exact hv.front.low_ge x hx hxv g (mem_cons_of_mem u hg) hxg
  · change (s''.lower u _).low u = s''.num u ∨ ∃ x ∈ _, ∃ g ∈ gray, I.Adj x g ∧
      (s''.lower u _).low u = s''.num g
    rw [hself, hpending, hnumu]
    obtain heq | heq := min_choice (s'.low u) (s''.low (I.dst e))
    · rw [heq]
      refine h.front.low_eq.imp_right ?_
      rintro ⟨x, hx, g, hg, hxg, hlow⟩
      exact ⟨x, hleft hx, g, hg, hxg, hlow.trans (hnum g hg).symm⟩
    · rw [heq]
      obtain ⟨z, hz, g, hg, hzg, hlow⟩ := h.exists_adj hv hlt
      exact .inr ⟨z, hright hz, g, hg, hzg, hlow⟩
  · change e' ∈ rest ∨ I.dst e' = u ∨ s''.num (I.dst e') ≠ 0 ∧ (I.dst e' ∈ gray →
      parent ≠ some (I.dst e') → (s''.lower u _).low u ≤ s''.num (I.dst e'))
    rw [hself]
    obtain hrest | hdone | ⟨hmet, hlow⟩ := h.done e' he'
    · obtain rfl | hrest := mem_cons.1 hrest
      · refine .inr (.inr ⟨hv.front.self.2.1, fun hg => ?_⟩)
        exact absurd hv.front.self.1 (h.grown.met (hs.gray_met _ hg))
      · exact .inl hrest
    · exact .inr (.inl hdone)
    · refine .inr (.inr ⟨hv.grown.met hmet, fun hg hp => ?_⟩)
      rw [hnum _ hg]
      exact hle.trans (hlow hg hp)

variable [DecidableEq ε]

/-- The edges down to the one that led to the child become a block. -/
theorem AtLoop.pop (hle : s''.num u ≤ s''.low (I.dst e)) :
    ∃ t, (s''.lower u (s''.low (I.dst e))).close u e = some t ∧
      AtLoop I gray parent s u rest new t := by
  have hadj := h.adj hv
  have hnumu : s''.num u = s'.num u := hv.num_child h.num_ne_zero
  have hlow : s''.low u ≤ s''.low (I.dst e) := by
    rw [h.low_child hv]
    exact h.front.low_le.trans (hnumu ▸ hle)
  have hu : u ∉ Pending I (s'.push e) s'' := fun hmem => h.num_ne_zero hmem.1
  have hnew : e ∉ new' := fun hmem => hu
    (I.src_eq u e (h.subset e mem_cons_self) ▸ (hv.front.edge e hmem).1)
  have hstack : s''.stack = new' ++ e :: (new ++ s.stack) := by
    rw [hv.front.stack]
    exact congrArg (new' ++ e :: ·) h.front.stack
  rw [lower_eq_self hlow, close_eq hstack hnew]
  refine ⟨_, rfl, ?_⟩
  set t : State α ε := { s'' with
    stack := new ++ s.stack, blocks := s''.blocks ++ [(new' ++ [e], u)] } with ht
  have hparts : t.parts I = s''.parts I ++ [(insert u (Pending I (s'.push e) s''), u)] := by
    rw [← h.span_eq hs hv hle]
    exact map_append
  have hdead := h.dead_pop hparts
  have hlowu : s''.low u = s'.low u := h.low_child hv
  refine ⟨h.inv_pop hs hv hle rfl rfl hparts, h.grown.child hv.grown hadj h.unmet rfl rfl
      (fun x _ => rfl) (prefix_append _ _) fun x hx => ?_,
    h.front.congr (fun g hg => h.grown.met (hs.gray_met g hg)) (Set.ext fun x => ?_)
      h.front.stack.symm (fun x hx => hv.num_child hx) hlowu,
    fun e' he' => h.subset e' (mem_cons_of_mem e he'), fun e' he' => ?_⟩
  · exact ((hdead x).1 hx).imp_right fun hmem => hmem.1
  · constructor
    · rintro ⟨hx0, hx, hx'⟩
      obtain ⟨hx', hmem⟩ := not_or.1 (mt (hdead x).2 hx')
      exact ((mem_pending_child h.grown hv.grown).1 ⟨hx0, hx, hx'⟩).resolve_right hmem
    · intro hx
      obtain ⟨hx0, hx1, hx'⟩ := (mem_pending_child h.grown hv.grown).2 (.inl hx)
      exact ⟨hx0, hx1, fun hdead' => ((hdead x).1 hdead').elim hx' fun hmem => hx.2.1 hmem.1⟩
  · change e' ∈ rest ∨ I.dst e' = u ∨ s''.num (I.dst e') ≠ 0 ∧ (I.dst e' ∈ gray →
      parent ≠ some (I.dst e') → s''.low u ≤ s''.num (I.dst e'))
    rw [h.low_child hv]
    obtain hrest | hdone | ⟨hmet, hlow'⟩ := h.done e' he'
    · obtain rfl | hrest := mem_cons.1 hrest
      · refine .inr (.inr ⟨hv.front.self.2.1, fun hg => ?_⟩)
        exact absurd hv.front.self.1 (h.grown.met (hs.gray_met _ hg))
      · exact .inl hrest
    · exact .inr (.inl hdone)
    · refine .inr (.inr ⟨hv.grown.met hmet, fun hg hp => ?_⟩)
      rw [hv.num_child hmet]
      exact hlow' hg hp

end child

/-! ## The search from a vertex -/

/-- The vertex is left: all its edges have been looked at. -/
theorem AtLoop.finish (h : AtLoop I gray parent s u [] new s') :
    Visited I gray parent s u new s' := by
  have hdone : ∀ y, I.Adj u y → s'.num y ≠ 0 ∧
      (y ∈ gray → parent ≠ some y → s'.low u ≤ s'.num y) := by
    rintro y ⟨hne, e, he, rfl⟩
    exact ((h.done e he).resolve_left not_mem_nil).resolve_left (Ne.symm hne)
  refine ⟨{ h.inv with order := (pairwise_cons.1 h.inv.order).2, gray_met := fun g hg => ?_,
                       gray_alive := fun g hg => ?_, black := fun x hx hgray y hxy => ?_ },
    h.grown, h.front, fun g hg hug hp => (hdone g hug).2 hg hp⟩
  · exact h.inv.gray_met g (mem_cons_of_mem u hg)
  · exact h.inv.gray_alive g (mem_cons_of_mem u hg)
  · obtain rfl | hne := Classical.em (x = u)
    · exact (hdone y hxy).1
    · exact h.inv.black x hx (fun hmem => (mem_cons.1 hmem).elim hne hgray) y hxy

section visit

variable [Fintype α]

/-- The number of vertices that have not been met. -/
def State.unmet (s : State α ε) : ℕ :=
  (Finset.univ.filter fun x => s.num x = 0).card

theorem unmet_le (h : ∀ x, s.num x ≠ 0 → s'.num x ≠ 0) : s'.unmet ≤ s.unmet := by
  refine Finset.card_le_card fun x hx => ?_
  rw [Finset.mem_filter] at hx ⊢
  exact ⟨hx.1, by_contra fun hne => h x hne hx.2⟩

variable [DecidableEq α]

theorem unmet_enter (hu : s.num u = 0) : (s.enter u).unmet < s.unmet := by
  refine Finset.card_lt_card ⟨fun x hx => ?_, fun hsub => ?_⟩
  · rw [Finset.mem_filter] at hx ⊢
    exact ⟨hx.1, by_contra fun hne => enter_num_ne_zero hne hx.2⟩
  · have hmem := hsub (Finset.mem_filter.2 ⟨Finset.mem_univ u, hu⟩)
    exact succ_ne_zero _ (enter_num_self.symm.trans (Finset.mem_filter.1 hmem).2)

variable [DecidableEq ε]

/-- A step of the loop, when the search from the children keeps the invariant. -/
theorem step_spec
    (hcall : ∀ {gray : List α} {s : State α ε} {v : α}, Inv I gray s → s.num v = 0 →
      s.unmet < d → ∃ s' new, dfs I d s gray.head? v = some s' ∧
        Visited I gray gray.head? s v new s') (hs : Inv I gray s) (hd : (s.enter u).unmet < d)
    (h : AtLoop I gray parent s u (e :: rest) new s') :
    ∃ s'' new', step I (dfs I d) parent u s' e = some s'' ∧
      AtLoop I gray parent s u rest new' s'' := by
  rw [step]
  split
  next heq => exact ⟨s', new, rfl, h.skip (.inl heq)⟩
  next hne =>
    split
    next hzero =>
      have hinv : Inv I (u :: gray) (s'.push e) := h.inv.congr rfl rfl rfl
      have hlt : (s'.push e).unmet < d := by
        refine lt_of_le_of_lt (unmet_le fun x hx => ?_) hd
        obtain rfl | hxu := eq_or_ne x u
        · exact h.num_ne_zero
        · rw [enter_num_of_ne hxu] at hx
          exact h.grown.met hx
      obtain ⟨s'', new', hrun, hv⟩ := hcall hinv hzero hlt
      rw [head?_cons] at hrun hv
      rw [hrun]
      have hself : (s''.lower u (s''.low (I.dst e))).low (I.dst e) = s''.low (I.dst e) :=
        lower_low_of_ne hne
      simp only [Option.bind_eq_bind, Option.bind_some, hself]
      obtain hlow | hle := lt_or_ge (s''.low (I.dst e)) (s''.num u)
      · exact ⟨_, _, if_neg (not_le.2 hlow), h.join hs hv hlow⟩
      · obtain ⟨t, ht, hloop⟩ := h.pop hs hv hle
        exact ⟨t, new, (if_pos hle).trans ht, hloop⟩
    next hmet =>
      split
      next hparent =>
        have hadj : I.Adj u (I.dst e) := ⟨Ne.symm hne, e, h.subset e mem_cons_self, rfl⟩
        obtain hback | hle := lt_or_ge (s'.num (I.dst e)) (s'.num u)
        · exact ⟨_, _, congrArg some (if_pos hback), h.back hs (h.mem_gray hs hadj hmet hback)⟩
        · have hlow : s'.low u ≤ s'.num (I.dst e) := h.front.low_le.trans hle
          refine ⟨s', new, ?_, h.skip (.inr ⟨hmet, fun _ _ => hlow⟩)⟩
          exact congrArg some ((if_neg (not_lt.2 hle)).trans (lower_eq_self hlow))
      next hparent => exact ⟨s', new, rfl, h.skip (.inr ⟨hmet, fun _ hp => absurd hp hparent⟩)⟩

/-- The search from a vertex that has not been met ends and keeps the invariant. -/
theorem dfs_spec (hs : Inv I gray s) (hu : s.num u = 0) (hd : s.unmet < d) :
    ∃ s' new, dfs I d s gray.head? u = some s' ∧ Visited I gray gray.head? s u new s' := by
  induction d generalizing gray s u with
  | zero => exact absurd hd (not_lt_zero _)
  | succ d ih =>
    have hlt := lt_of_lt_of_le (unmet_enter hu) (le_of_lt_succ hd)
    have hloop : ∀ rest new s', AtLoop I gray gray.head? s u rest new s' →
        ∃ s'' new', rest.foldlM (step I (dfs I d) gray.head? u) s' = some s'' ∧
          AtLoop I gray gray.head? s u [] new' s'' := by
      intro rest
      induction rest with
      | nil => exact fun new s' h => ⟨s', new, rfl, h⟩
      | cons e rest ihrest =>
        intro new s' h
        obtain ⟨s'', new', hstep, h'⟩ := step_spec ih hs hlt h
        rw [foldlM_cons, hstep]
        exact ihrest new' s'' h'
    obtain ⟨s', new, hfold, hend⟩ := hloop (I.out u) [] _ (.start hs hu)
    exact ⟨s', new, hfold, hend.finish⟩

end visit

/-! ## The search from all vertices -/

/-- The vertex is the first one of the list that leads to it. -/
def First (I : Incidence α ε) (us : List α) (x : α) : Prop :=
  ∃ pre post, us = pre ++ x :: post ∧ ∀ y ∈ pre, ¬I.Reach y x

/-- The state of the search between the vertices of the list. -/
structure Top (I : Incidence α ε) (us : List α) (s : State α ε) : Prop where
  inv : Inv I [] s
  stack : s.stack = []
  met : ∀ x ∈ us, s.num x ≠ 0
  reached : ∀ x, s.num x ≠ 0 → ∃ y ∈ us, I.Reach y x
  dead : ∀ x, s.num x ≠ 0 → (s.Dead I x ↔ ¬First I us x)

variable {us : List α}

theorem First.mem (h : First I us x) : x ∈ us := by
  obtain ⟨pre, post, rfl, -⟩ := h
  exact mem_append_right _ mem_cons_self

theorem first_concat : First I (us ++ [u]) x ↔ First I us x ∨ x = u ∧ ∀ y ∈ us, ¬I.Reach y u := by
  constructor
  · rintro ⟨pre, post, heq, hpre⟩
    induction post using List.reverseRecOn with
    | nil =>
      obtain ⟨rfl, hxu⟩ := append_inj' heq rfl
      obtain rfl := singleton_inj.1 hxu
      exact .inr ⟨rfl, hpre⟩
    | append_singleton post z =>
      rw [← cons_append, ← append_assoc] at heq
      exact .inl ⟨pre, post, (append_inj' heq rfl).1, hpre⟩
  · rintro (⟨pre, post, rfl, hpre⟩ | ⟨rfl, hus⟩)
    · exact ⟨pre, post ++ [u], by rw [append_assoc]; rfl, hpre⟩
    · exact ⟨us, [], rfl, hus⟩

/-- Two first vertices do not lead to each other. -/
theorem First.eq (hx : First I us x) (hy : First I us y) (hxy : I.Reach x y) (hyx : I.Reach y x) :
    x = y := by
  obtain ⟨pre, post, rfl, hpre⟩ := hx
  obtain ⟨pre', post', heq, hpre'⟩ := hy
  obtain ⟨c, rfl, hc⟩ | ⟨c, rfl, hc⟩ := append_eq_append_iff.1 heq
  · cases c with
    | nil => exact (cons.inj hc).1
    | cons z c =>
      obtain rfl := (cons.inj hc).1
      exact absurd hxy (hpre' x (mem_append_right _ mem_cons_self))
  · cases c with
    | nil => exact (cons.inj hc).1.symm
    | cons z c =>
      obtain rfl := (cons.inj hc).1
      exact absurd hyx (hpre y (mem_append_right _ mem_cons_self))

/-- What has been met is closed under edges between the vertices of the list. -/
theorem Top.closed (h : Top I us s) (hx : s.num x ≠ 0) (hxy : I.Reach x y) : s.num y ≠ 0 := by
  induction hxy with
  | refl => exact hx
  | tail _ hbc ih => exact h.inv.black _ ih not_mem_nil _ hbc

/-- After the search from a vertex of the list nothing else is pending. -/
theorem Visited.mem_pending (h : Visited I [] parent s u new s') : x ∈ Pending I s s' ↔ x = u := by
  constructor
  · intro hx
    by_contra hne
    obtain ⟨huu, -⟩ | ⟨z, -, -, g, hg, -⟩ := h.front.apart u h.front.self x hx hne
    · exact huu rfl
    · exact not_mem_nil hg
  · rintro rfl
    exact h.front.self

theorem Visited.new_eq_nil (h : Visited I [] parent s u new s') : new = [] := by
  refine eq_nil_iff_forall_not_mem.2 fun e he => ?_
  obtain ⟨hsrc, hadj, hdst⟩ := h.front.edge e he
  have hdst := h.mem_pending.1 (hdst.resolve_right not_mem_nil)
  exact hadj.1 ((h.mem_pending.1 hsrc).trans hdst.symm)

/-- The search goes on at a vertex that has not been met. -/
theorem Top.visited (h : Top I us s) (hv : Visited I [] parent s u new s') (hu : s.num u = 0) :
    Top I (us ++ [u]) s' := by
  refine ⟨hv.inv, ?_, fun x hx => ?_, fun x hx => ?_, fun x hx => ?_⟩
  · rw [hv.front.stack, hv.new_eq_nil, h.stack]
    rfl
  · obtain hx | hx := mem_append.1 hx
    · exact hv.grown.met (h.met x hx)
    · exact mem_singleton.1 hx ▸ hv.front.self.2.1
  · obtain hx0 | hx0 := eq_or_ne (s.num x) 0
    · exact ⟨u, mem_append_right _ mem_cons_self, hv.grown.reach x hx0 hx⟩
    · obtain ⟨y, hy, hyx⟩ := h.reached x hx0
      exact ⟨y, mem_append_left _ hy, hyx⟩
  · rw [first_concat]
    obtain hx0 | hx0 := eq_or_ne (s.num x) 0
    · have hnot : ¬First I us x := fun hfirst => h.met x hfirst.mem hx0
      have hus : ∀ y ∈ us, ¬I.Reach y u := fun y hy hyu => h.closed (h.met y hy) hyu hu
      have hpending := @Visited.mem_pending _ _ _ _ _ _ _ x _ hv
      constructor
      · rintro hdead (hfirst | ⟨rfl, -⟩)
        · exact hnot hfirst
        · exact hv.front.self.2.2 hdead
      · intro hfirst
        by_contra hdead
        exact hfirst (.inr ⟨hpending.1 ⟨hx0, hx, hdead⟩, hus⟩)
    · have hne : x ≠ u := fun heq => hx0 (heq ▸ hu)
      have hdead : s'.Dead I x ↔ s.Dead I x :=
        ⟨fun hx' => (hv.grown.dead x hx').resolve_right hx0, hv.grown.dead_of_dead⟩
      rw [hdead, h.dead x hx0, or_iff_left fun hxu => hne hxu.1]

theorem Top.skip (h : Top I us s) (hu : s.num u ≠ 0) : Top I (us ++ [u]) s := by
  obtain ⟨z, hz, hzu⟩ := h.reached u hu
  refine ⟨h.inv, h.stack, fun x hx => ?_, fun x hx => ?_, fun x hx => ?_⟩
  · obtain hx | hx := mem_append.1 hx
    · exact h.met x hx
    · exact mem_singleton.1 hx ▸ hu
  · obtain ⟨y, hy, hyx⟩ := h.reached x hx
    exact ⟨y, mem_append_left _ hy, hyx⟩
  · rw [first_concat, h.dead x hx, or_iff_left fun hxu => hxu.2 z hz hzu]

theorem Top.start : Top I [] ⟨0, fun _ => 0, fun _ => 0, [], []⟩ :=
  ⟨⟨fun _ => le_rfl, .nil, nofun, nofun, fun _ hx => absurd rfl hx, nofun,
      fun _ ⟨_, hb, _⟩ => absurd hb not_mem_nil, ⟨nofun, nofun, nofun, .nil⟩⟩,
    rfl, nofun, fun _ hx => absurd rfl hx, fun _ hx => absurd rfl hx⟩

/-- What the search finds: the blocks, and each vertex is separated with one unless it is the first
one of its component. -/
structure Found (I : Incidence α ε) (us : List α) (s : State α ε) : Prop where
  stack : s.stack = []
  decomposition : Decomposition I.Adj (s.parts I)
  dead : ∀ x, s.Dead I x ↔ ¬First I us x

theorem Top.found (h : Top I us s) (hall : ∀ x, s.num x ≠ 0) : Found I us s := by
  have hdead : ∀ x, s.Dead I x ↔ ¬First I us x := fun x => h.dead x (hall x)
  refine ⟨h.stack, ⟨h.inv.parts, fun x y hxy hne => ?_⟩, hdead⟩
  obtain hx | hx := Classical.em (s.Dead I x)
  · exact h.inv.covered x hx y hxy
  · obtain hy | hy := Classical.em (s.Dead I y)
    · obtain ⟨b, hb, hyb, hxb⟩ := h.inv.covered y hy x (I.adj_symm x y hxy)
      exact ⟨b, hb, hxb, hyb⟩
    · rw [hdead, not_not] at hx hy
      exact absurd (hx.eq hy (.single hxy) (.single (I.adj_symm x y hxy))) hne

/-- The search finds the blocks. -/
theorem search_spec [Fintype α] [DecidableEq α] [DecidableEq ε] (hd : Fintype.card α < d)
    (hall : ∀ x, x ∈ us) : ∃ s, search I d us = some s ∧ Found I us s := by
  have hloop : ∀ (rest pre : List α) (s : State α ε), Top I pre s →
      ∃ s', rest.foldlM (resume I d) s = some s' ∧ Top I (pre ++ rest) s' := by
    intro rest
    induction rest with
    | nil => exact fun pre s h => ⟨s, rfl, by rwa [append_nil]⟩
    | cons u rest ih =>
      intro pre s h
      obtain ⟨s', hrun, h'⟩ : ∃ s', resume I d s u = some s' ∧ Top I (pre ++ [u]) s' := by
        rw [resume]
        split
        next hu =>
          have hlt : s.unmet < d := lt_of_le_of_lt (Finset.card_le_univ _) hd
          obtain ⟨s', new, hrun, hv⟩ := dfs_spec h.inv hu hlt
          exact ⟨s', hrun, h.visited hv hu⟩
        next hu => exact ⟨s, rfl, h.skip hu⟩
      obtain ⟨s'', hrest, h''⟩ := ih _ s' h'
      rw [foldlM_cons, hrun]
      exact ⟨s'', hrest, append_cons pre u rest ▸ h''⟩
  obtain ⟨s, hrun, h⟩ := hloop us [] _ Top.start
  exact ⟨s, hrun, h.found fun x => h.met x (hall x)⟩

/-- The search from one vertex finds the blocks when it leads to all others. -/
theorem dfs_found [Fintype α] [DecidableEq α] [DecidableEq ε] (hd : Fintype.card α < d)
    (hall : ∀ x, I.Reach u x) :
    ∃ s, dfs I d ⟨0, fun _ => 0, fun _ => 0, [], []⟩ none u = some s ∧ Found I [u] s ∧
      ∀ x, s.num x ≠ 0 := by
  have hstart : Top I [] ⟨0, fun _ => 0, fun _ => 0, [], []⟩ := .start
  obtain ⟨s, new, hrun, hv⟩ :=
    dfs_spec hstart.inv rfl (lt_of_le_of_lt (Finset.card_le_univ _) hd)
  have htop := hstart.visited hv rfl
  have hmet : ∀ x, s.num x ≠ 0 := fun x => htop.closed (htop.met u mem_cons_self) (hall x)
  exact ⟨s, hrun, htop.found hmet, hmet⟩

/-! ## The vertices that separate blocks -/

/-- The vertex separates a block from the rest. -/
def State.Cut (I : Incidence α ε) (s : State α ε) (x : α) : Prop :=
  ∃ b ∈ s.parts I, b.2 = x

/-- A vertex of a block has an edge. -/
theorem Found.exists_adj (h : Found I us s) {b : Set α × α} (hb : b ∈ s.parts I) (hx : x ∈ b.1) :
    ∃ y, I.Adj x y := by
  obtain ⟨y, hy, hne⟩ := (h.decomposition.nontrivial b hb).exists_ne x
  have hxy := (h.decomposition.nonseparable b hb).1 x hx y hy
  obtain heq | ⟨z, hz, -⟩ := hxy.cases_head
  · exact absurd heq.symm hne
  · exact ⟨z, hz.1⟩

/-- The first vertex of a component separates a block when it has an edge. -/
theorem Found.cut_first (h : Found I us s) (hx : First I us x) (hxy : I.Adj x y) : s.Cut I x := by
  obtain ⟨b, hb, hxb, -⟩ := h.decomposition.covered x y hxy hxy.1
  refine ⟨b, hb, by_contra fun hne => ?_⟩
  exact (h.dead x).1 ⟨b, hb, hxb, fun heq => hne heq.symm⟩ hx

/-- The vertices that separate blocks are those in two blocks exactly when this is so for the first
ones of components with an edge. -/
theorem Found.cuts_iff (h : Found I us s) :
    (∀ x, s.Cut I x ↔ Articulation I.Adj x) ↔
      ∀ x y, First I us x → I.Adj x y → Articulation I.Adj x := by
  constructor
  · exact fun hcuts x y hx hxy => (hcuts x).1 (h.cut_first hx hxy)
  · refine fun hfirst x => ⟨?_, h.decomposition.eq_of_articulation⟩
    rintro ⟨b, hb, hbx⟩
    obtain hx | hx := Classical.em (First I us x)
    · obtain ⟨y, hxy⟩ := h.exists_adj hb (hbx ▸ h.decomposition.mem b hb)
      exact hfirst x y hx hxy
    · obtain ⟨c, hc, hxc, hne⟩ := (h.dead x).2 hx
      exact h.decomposition.articulation hb hc hbx hxc (Ne.symm hne)

end LowPoint
