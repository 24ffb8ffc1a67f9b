import Mathlib.Data.Fintype.Card
import Mathlib.Data.List.TakeWhile

/-!
# Strongly connected components by one search

The search numbers the vertices as it meets them and keeps them on a stack. A vertex is left with
the smallest number that is seen from it; when this is its own, the vertices down to it on the stack
are a component, whose numbers become larger than all others. So the number of a vertex tells
whether it has been met, is on the stack, or is in a component.
-/

namespace StrongComponents

open Fintype Function List Nat Relation

universe u

variable {α : Type u} {adj : α → List α} {x y : α} {comps : List (List α)}

/-- A path leads from one vertex to the other. -/
def Reach (adj : α → List α) : α → α → Prop :=
  ReflTransGen fun a b => b ∈ adj a

/-- The vertices are in one component. -/
def Mutual (adj : α → List α) (x y : α) : Prop :=
  Reach adj x y ∧ Reach adj y x

/-- A path does not leave a set that no edge leaves. -/
theorem Reach.closed {P : α → Prop} (hP : ∀ a, P a → ∀ b ∈ adj a, P b) (h : Reach adj x y)
    (hx : P x) : P y := by
  induction h with
  | refl => exact hx
  | tail _ hbc ih => exact hP _ ih _ hbc

/-- The edges that leave a component lead to components before it. -/
def Ordered (adj : α → List α) (comps : List (List α)) : Prop :=
  ∀ pre C, pre ++ [C] <+: comps → ∀ x ∈ C, ∀ y ∈ adj x, y ∈ C ∨ y ∈ pre.flatten

/-- The list is a component. -/
def IsComponent (adj : α → List α) (C : List α) : Prop :=
  C ≠ [] ∧ ∀ x ∈ C, ∀ y, y ∈ C ↔ Mutual adj x y

theorem Ordered.closed (h : Ordered adj comps) (hx : x ∈ comps.flatten) (hy : y ∈ adj x) :
    y ∈ comps.flatten := by
  obtain ⟨C, hC, hxC⟩ := mem_flatten.1 hx
  obtain ⟨pre, post, rfl⟩ := append_of_mem hC
  have hpre : pre ++ [C] <+: pre ++ C :: post := ⟨post, by rw [append_assoc]; rfl⟩
  rw [flatten_append]
  obtain hmem | hmem := h pre C hpre x hxC y hy
  · exact mem_append_right _ (mem_flatten.2 ⟨C, mem_cons_self, hmem⟩)
  · exact mem_append_left _ hmem

theorem Ordered.concat (h : Ordered adj comps) {C : List α}
    (hC : ∀ x ∈ C, ∀ y ∈ adj x, y ∈ C ∨ y ∈ comps.flatten) : Ordered adj (comps ++ [C]) := by
  intro pre D hpre
  obtain heq | hpre := prefix_concat_iff.1 hpre
  · obtain ⟨rfl, hD⟩ := append_inj' heq rfl
    obtain rfl := singleton_inj.1 hD
    exact hC
  · exact h pre D hpre

/-- No edge leads from a component to one after it. -/
theorem Ordered.pairwise (h : Ordered adj comps) (hnodup : comps.flatten.Nodup) :
    comps.Pairwise fun C D => ∀ x ∈ C, ∀ y ∈ adj x, y ∉ D := by
  induction comps using List.reverseRecOn with
  | nil => exact .nil
  | append_singleton comps D ih =>
    have h' : Ordered adj comps := fun pre C hpre => h pre C (hpre.trans (prefix_append _ _))
    rw [flatten_append, flatten_singleton] at hnodup
    obtain ⟨hnodup, -, hdisj⟩ := nodup_append.1 hnodup
    refine pairwise_append.2 ⟨ih h' hnodup, pairwise_singleton _ _, ?_⟩
    intro C hC E hE x hx y hy hyE
    have hmem : y ∈ comps.flatten := h'.closed (mem_flatten.2 ⟨C, hC, hx⟩) hy
    exact hdisj y hmem y (mem_singleton.1 hE ▸ hyE) rfl

/-! ## The search -/

variable [DecidableEq α]

/-- The number of vertices that have been met, their numbers, the stack with its top first, and the
components in the order in which they are found. -/
structure State (α : Type u) where
  count : ℕ
  val : α → ℕ
  stack : List α
  comps : List (List α)

/-- A vertex is met. -/
def State.enter (s : State α) (v : α) : State α :=
  ⟨s.count + 1, update s.val v (s.count + 1), v :: s.stack, s.comps⟩

/-- The vertices down to one on the stack become a component. -/
def State.close (inf : ℕ) (s : State α) (v : α) : Option (State α) :=
  match s.stack.dropWhile (· ≠ v) with
  | [] => none
  | _ :: stack =>
    let comp := s.stack.takeWhile (· ≠ v) ++ [v]
    some ⟨s.count, fun u => if u ∈ comp then inf else s.val u, stack, s.comps ++ [comp]⟩

/-- A successor is looked at. -/
def lower (visit : State α → α → Option (ℕ × State α)) (p : ℕ × State α) (w : α) :
    Option (ℕ × State α) := do
  let (m, s) ← if p.2.val w = 0 then visit p.2 w else some (p.2.val w, p.2)
  some (if m < p.1 then m else p.1, s)

/-- A vertex is left. -/
def leave (inf : ℕ) (v : α) (p : ℕ × State α) : Option (ℕ × State α) := do
  if p.2.val v = p.1 then
    let s ← p.2.close inf v
    some (p.1, s)
  else some p

/-- The search from a vertex, to a depth of at most the first argument. -/
def visit (adj : α → List α) (inf : ℕ) : ℕ → State α → α → Option (ℕ × State α)
  | 0, _, _ => none
  | d + 1, s, v => do
    let p ← (adj v).foldlM (lower (visit adj inf d)) (s.count + 1, s.enter v)
    leave inf v p

/-- The search goes on at a vertex, unless it has been met. -/
def resume (adj : α → List α) (inf d : ℕ) (s : State α) (v : α) : Option (State α) :=
  if s.val v = 0 then (visit adj inf d s v).map Prod.snd else some s

/-- The search from the vertices of a list. -/
def search (adj : α → List α) (inf d : ℕ) (vs : List α) : Option (State α) :=
  vs.foldlM (resume adj inf d) ⟨0, fun _ => 0, [], []⟩

variable [Fintype α] {inf d low : ℕ} {gray rest new : List α} {s s' s'' : State α} {u v w : α}

/-! ## Numbers -/

/-- The number of vertices that have not been met. -/
def State.unmet (s : State α) : ℕ :=
  card {v // s.val v = 0}

omit [Fintype α] in
theorem enter_val_self : (s.enter v).val v = s.count + 1 :=
  update_self v _ _

omit [Fintype α] in
theorem enter_val_of_ne (h : u ≠ v) : (s.enter v).val u = s.val u :=
  update_of_ne h _ _

omit [DecidableEq α] in
theorem unmet_le (h : ∀ u, s.val u ≠ 0 → s'.val u ≠ 0) : s'.unmet ≤ s.unmet :=
  Fintype.card_le_of_injective (fun u => ⟨u.1, not_not.1 fun hne => h u.1 hne u.2⟩) fun _ _ heq =>
    Subtype.ext (congrArg (fun u => u.1) heq)

theorem unmet_enter (hv : s.val v = 0) : (s.enter v).unmet < s.unmet := by
  have hmem : ∀ u, (s.enter v).val u = 0 → s.val u = 0 ∧ u ≠ v := by
    intro u hu
    obtain rfl | hne := eq_or_ne u v
    · exact absurd (enter_val_self.symm.trans hu) (succ_ne_zero _)
    · exact ⟨(enter_val_of_ne hne).symm.trans hu, hne⟩
  refine card_lt_of_injective_of_notMem (fun u => ⟨u.1, (hmem u.1 u.2).1⟩)
    (fun _ _ heq => Subtype.ext (congrArg (fun u => u.1) heq)) (b := ⟨v, hv⟩) ?_
  rintro ⟨u, heq⟩
  exact (hmem u.1 u.2).2 (congrArg (fun u => u.1) heq)

/-! ## The invariant -/

/-- The invariant of the search. The vertices on the way to the current one are `gray`. -/
structure Inv (adj : α → List α) (inf : ℕ) (gray : List α) (s : State α) : Prop where
  count : s.count + s.unmet ≤ card α
  nodup : (s.stack ++ s.comps.flatten).Nodup
  met : ∀ v, s.val v ≠ 0 ↔ v ∈ s.stack ∨ v ∈ s.comps.flatten
  order : s.stack.Pairwise fun a b => s.val b < s.val a
  le_count : ∀ v ∈ s.stack, s.val v ≤ s.count
  inf_val : ∀ v ∈ s.comps.flatten, s.val v = inf
  gray_mem : ∀ g ∈ gray, g ∈ s.stack
  black : ∀ v, s.val v ≠ 0 → v ∉ gray → ∀ w ∈ adj v, s.val w ≠ 0
  below : ∀ a ∈ s.stack, ∀ b ∈ s.stack, s.val a ≤ s.val b → Reach adj a b
  up : ∀ y ∈ s.stack, ∃ g ∈ gray, s.val g ≤ s.val y ∧ Reach adj y g
  ordered : Ordered adj s.comps
  components : ∀ C ∈ s.comps, IsComponent adj C

omit [DecidableEq α] in
theorem Inv.count_lt (h : Inv adj inf gray s) (hv : s.val v = 0) : s.count < card α := by
  have hpos : 0 < s.unmet := Fintype.card_pos_iff.2 ⟨⟨v, hv⟩⟩
  have hle := h.count
  omega

/-- A vertex is met that all gray ones reach. -/
theorem Inv.enter (h : Inv adj inf gray s) (hv : s.val v = 0)
    (hgray : ∀ g ∈ gray, Reach adj g v) : Inv adj inf (v :: gray) (s.enter v) := by
  have hnot : v ∉ s.stack ∧ v ∉ s.comps.flatten := not_or.1 fun hor => (h.met v).2 hor hv
  have hstack : ∀ u ∈ s.stack, (s.enter v).val u = s.val u := fun u hu =>
    enter_val_of_ne fun heq => hnot.1 (heq ▸ hu)
  have hmono : ∀ u, s.val u ≠ 0 → (s.enter v).val u ≠ 0 := fun u hu => by
    rwa [enter_val_of_ne fun heq : u = v => hu (heq ▸ hv)]
  refine ⟨?_, ?_, fun u => ?_, ?_, ?_, fun u hu => ?_, ?_, fun u hu hne w hw => ?_,
    fun a ha b hb hab => ?_, fun y hy => ?_, h.ordered, h.components⟩
  · have hlt := unmet_enter hv
    have hle := h.count
    change s.count + 1 + (s.enter v).unmet ≤ _
    omega
  · refine nodup_cons.2 ⟨fun hmem => ?_, h.nodup⟩
    exact (mem_append.1 hmem).elim hnot.1 hnot.2
  · change _ ↔ u ∈ v :: s.stack ∨ _
    obtain rfl | hne := eq_or_ne u v
    · rw [enter_val_self]
      exact iff_of_true (succ_ne_zero _) (.inl mem_cons_self)
    · rw [enter_val_of_ne hne, h.met, mem_cons, or_iff_right hne]
      rfl
  · refine pairwise_cons.2 ⟨fun b hb => ?_, h.order.imp_of_mem fun ha hb hlt => ?_⟩
    · rw [hstack b hb, enter_val_self]
      exact lt_succ_of_le (h.le_count b hb)
    · rwa [hstack _ ha, hstack _ hb]
  · intro u hu
    change _ ≤ s.count + 1
    obtain rfl | hu := mem_cons.1 hu
    · rw [enter_val_self]
    · rw [hstack u hu]
      exact (h.le_count u hu).trans (le_succ _)
  · exact (enter_val_of_ne fun heq : u = v => hnot.2 (heq ▸ hu)).trans (h.inf_val u hu)
  · exact fun g hg => (mem_cons.1 hg).elim (fun heq => heq ▸ mem_cons_self)
      fun hg => mem_cons_of_mem v (h.gray_mem g hg)
  · obtain ⟨huv, hug⟩ := not_or.1 (mt mem_cons.2 hne)
    rw [enter_val_of_ne huv] at hu
    exact hmono w (h.black u hu hug w hw)
  · obtain rfl | hb' := mem_cons.1 hb
    · obtain rfl | ha' := mem_cons.1 ha
      · exact .refl
      · obtain ⟨g, hg, -, hag⟩ := h.up a ha'
        exact hag.trans (hgray g hg)
    · rw [hstack b hb'] at hab
      obtain rfl | ha' := mem_cons.1 ha
      · rw [enter_val_self] at hab
        exact absurd (h.le_count b hb') (not_le.2 hab)
      · rw [hstack a ha'] at hab
        exact h.below a ha' b hb' hab
  · obtain rfl | hy := mem_cons.1 hy
    · exact ⟨y, mem_cons_self, le_refl _, .refl⟩
    · obtain ⟨g, hg, hle, hyg⟩ := h.up y hy
      refine ⟨g, mem_cons_of_mem v hg, ?_, hyg⟩
      rwa [hstack y hy, hstack g (h.gray_mem g hg)]

/-! ## The loop over the successors -/

/-- The loop for a vertex, which was met in the state `s`, at a point where some successors are left
to look at. The edges that lead from the vertices above it on the stack to those below it do not go
under the smallest number so far. -/
structure AtLoop (adj : α → List α) (inf : ℕ) (gray : List α) (s : State α) (v : α)
    (rest : List α) (low : ℕ) (s' : State α) : Prop where
  inv : Inv adj inf (v :: gray) s'
  stack : ∃ new, s'.stack = new ++ v :: s.stack ∧
    ∀ x ∈ new, ∀ y ∈ adj x, y ∈ s.stack → low ≤ s.val y
  val : ∀ u, (s.enter v).val u ≠ 0 → s'.val u = (s.enter v).val u
  comps : s.comps <+: s'.comps
  le : low ≤ s.count + 1
  eq : low = s.count + 1 ∨ ∃ y ∈ s.stack, low = s.val y ∧ Reach adj v y
  subset : rest ⊆ adj v
  done : ∀ w ∈ adj v, w ∈ rest ∨ s'.val w ≠ 0 ∧ (w ∈ s.stack → low ≤ s.val w)

/-- What the search from a vertex does. -/
structure Visited (adj : α → List α) (inf : ℕ) (gray : List α) (s : State α) (v : α) (low : ℕ)
    (s' : State α) : Prop where
  inv : Inv adj inf gray s'
  stack : ∃ new, s'.stack = new ++ s.stack ∧
    ∀ x ∈ new, ∀ y ∈ adj x, y ∈ s.stack → low ≤ s.val y
  val : ∀ u, s.val u ≠ 0 → s'.val u = s.val u
  comps : s.comps <+: s'.comps
  eq : low = s.count + 1 ∨ low < s.count + 1 ∧ ∃ y ∈ s.stack, low = s.val y ∧ Reach adj v y
  met : s'.val v ≠ 0

theorem AtLoop.start (h : Inv adj inf gray s) (hv : s.val v = 0)
    (hgray : ∀ g ∈ gray, Reach adj g v) :
    AtLoop adj inf gray s v (adj v) (s.count + 1) (s.enter v) :=
  ⟨h.enter hv hgray, ⟨[], rfl, nofun⟩, fun _ _ => rfl, prefix_rfl, le_refl _, .inl rfl,
    List.Subset.refl _, fun _ => .inl⟩

theorem AtLoop.val_self (h : AtLoop adj inf gray s v rest low s') : s'.val v = s.count + 1 := by
  rw [h.val v (by rw [enter_val_self]; exact succ_ne_zero _), enter_val_self]

theorem AtLoop.val_old (h : AtLoop adj inf gray s v rest low s') (hv : s.val v = 0)
    (hu : s.val u ≠ 0) : s'.val u = s.val u := by
  have henter : (s.enter v).val u = s.val u :=
    enter_val_of_ne fun heq : u = v => hu (heq ▸ hv)
  rw [h.val u (by rwa [henter]), henter]

omit [DecidableEq α] in
theorem Inv.val_ne_zero (h : Inv adj inf gray s) (hu : u ∈ s.stack) : s.val u ≠ 0 :=
  (h.met u).2 (.inl hu)

/-- The numbers on the stack are those from before, or not under that of the vertex. -/
theorem AtLoop.old_or_new (h : AtLoop adj inf gray s v rest low s') (hs : Inv adj inf gray s)
    (hv : s.val v = 0) (hu : u ∈ s'.stack) :
    u ∈ s.stack ∧ s'.val u = s.val u ∨ s.count + 1 ≤ s'.val u := by
  obtain ⟨new, hstack, -⟩ := h.stack
  have horder := h.inv.order
  rw [hstack] at hu horder
  obtain ⟨-, -, hnew⟩ := pairwise_append.1 horder
  obtain hu | hu := mem_append.1 hu
  · have hlt := hnew u hu v mem_cons_self
    rw [h.val_self] at hlt
    exact .inr hlt.le
  · obtain rfl | hu := mem_cons.1 hu
    · exact .inr h.val_self.ge
    · exact .inl ⟨hu, h.val_old hv (hs.val_ne_zero hu)⟩

/-- A successor that has been met is done, when the smallest number takes it into account. -/
theorem AtLoop.seen {low' : ℕ} (h : AtLoop adj inf gray s v (w :: rest) low s') (hle : low' ≤ low)
    (heq : low' = low ∨ ∃ y ∈ s.stack, low' = s.val y ∧ Reach adj v y)
    (hw : s'.val w ≠ 0) (hlow : w ∈ s.stack → low' ≤ s.val w) :
    AtLoop adj inf gray s v rest low' s' := by
  obtain ⟨new, hstack, hnew⟩ := h.stack
  refine ⟨h.inv, ⟨new, hstack, fun x hx y hy hys => hle.trans (hnew x hx y hy hys)⟩, h.val, h.comps,
    hle.trans h.le, ?_, (cons_subset.1 h.subset).2, fun u hu => ?_⟩
  · obtain rfl | heq := heq
    · exact h.eq
    · exact .inr heq
  · obtain hmem | ⟨hne, hls⟩ := h.done u hu
    · obtain rfl | hmem := mem_cons.1 hmem
      · exact .inr ⟨hw, hlow⟩
      · exact .inl hmem
    · exact .inr ⟨hne, fun hus => hle.trans (hls hus)⟩

/-- The successor has been met before. -/
theorem AtLoop.old (h : AtLoop adj inf gray s v (w :: rest) low s') (hs : Inv adj inf gray s)
    (hv : s.val v = 0) (hinf : card α < inf) (hw : s'.val w ≠ 0) :
    AtLoop adj inf gray s v rest (if s'.val w < low then s'.val w else low) s' := by
  have hcount := hs.count_lt hv
  have hle := h.le
  have hold : ∀ hws : w ∈ s.stack, s'.val w = s.val w := fun hws =>
    h.val_old hv (hs.val_ne_zero hws)
  have hadj : w ∈ adj v := h.subset mem_cons_self
  split
  next hlt =>
    -- only vertices from before have such a number
    have hws : w ∈ s.stack := by
      obtain hmem | hmem := (h.inv.met w).1 hw
      · obtain ⟨hws, -⟩ | hge := h.old_or_new hs hv hmem
        · exact hws
        · omega
      · have hval := h.inv.inf_val w hmem
        omega
    exact h.seen hlt.le (.inr ⟨w, hws, hold hws, .single hadj⟩) hw fun _ => (hold hws).le
  next hlt => exact h.seen (le_refl _) (.inl rfl) hw fun hws => hold hws ▸ not_lt.1 hlt

/-- The successor has been met by the search from it. -/
theorem AtLoop.called {m : ℕ} (h : AtLoop adj inf gray s v (w :: rest) low s')
    (hs : Inv adj inf gray s) (hv : s.val v = 0) (hw : s'.val w = 0)
    (hcall : Visited adj inf (v :: gray) s' w m s'') :
    AtLoop adj inf gray s v rest (if m < low then m else low) s'' := by
  obtain ⟨new, hstack, hnew⟩ := h.stack
  obtain ⟨more, hstack', hmore⟩ := hcall.stack
  have hle : (if m < low then m else low) ≤ low ∧ (if m < low then m else low) ≤ m := by
    split <;> omega
  have hsub : ∀ y ∈ s.stack, y ∈ s'.stack := fun y hy => by
    rw [hstack]
    exact mem_append_right _ (mem_cons_of_mem v hy)
  have hold : ∀ y ∈ s.stack, s'.val y = s.val y := fun y hy => h.val_old hv (hs.val_ne_zero hy)
  have hcount : s.count + 1 ≤ s'.count := by
    have hmem : v ∈ s'.stack := h.inv.gray_mem v mem_cons_self
    exact h.val_self ▸ h.inv.le_count v hmem
  refine ⟨hcall.inv, ⟨more ++ new, ?_, fun x hx y hy hys => ?_⟩, fun u hu => ?_,
    h.comps.trans hcall.comps, hle.1.trans h.le, ?_, (cons_subset.1 h.subset).2,
    fun u hu => ?_⟩
  · rw [hstack', hstack, append_assoc]
  · obtain hx | hx := mem_append.1 hx
    · exact hold y hys ▸ hle.2.trans (hmore x hx y hy (hsub y hys))
    · exact hle.1.trans (hnew x hx y hy hys)
  · rw [← h.val u hu]
    exact hcall.val u (by rwa [h.val u hu])
  · split
    next hlt =>
      have hlow := h.le
      obtain heq | ⟨-, y, hy, rfl, hwy⟩ := hcall.eq
      · omega
      · obtain ⟨hys, hval⟩ | hge := h.old_or_new hs hv hy
        · exact .inr ⟨y, hys, hval, .head (h.subset mem_cons_self) hwy⟩
        · omega
    next => exact h.eq
  · obtain hmem | ⟨hne, hls⟩ := h.done u hu
    · obtain rfl | hmem := mem_cons.1 hmem
      · exact .inr ⟨hcall.met, fun hus => absurd hw (hold u hus ▸ hs.val_ne_zero hus)⟩
      · exact .inl hmem
    · exact .inr ⟨hcall.val u hne ▸ hne, fun hus => hle.1.trans (hls hus)⟩

/-! ## A component -/

omit [Fintype α] in
/-- The vertices above one on the stack make a component with it. -/
theorem close_eq {stack : List α} (hstack : s.stack = new ++ v :: stack) (hv : v ∉ new) :
    s.close inf v = some ⟨s.count, fun u => if u ∈ new ++ [v] then inf else s.val u, stack,
      s.comps ++ [new ++ [v]]⟩ := by
  have hne : ∀ u ∈ new, (decide (u ≠ v)) = true := fun u hu =>
    decide_eq_true fun heq => hv (heq ▸ hu)
  have htake : s.stack.takeWhile (· ≠ v) = new := by
    rw [hstack, takeWhile_append_of_pos hne, takeWhile_cons_of_neg (by simp),
      append_nil]
  have hdrop : s.stack.dropWhile (· ≠ v) = v :: stack := by
    rw [hstack, dropWhile_append_of_pos hne, dropWhile_cons_of_neg (by simp)]
  rw [State.close, hdrop, htake]

omit [Fintype α] in
/-- When a component is closed its vertex is on the stack. -/
theorem close_eq_some (h : s.close inf v = some s') :
    ∃ new stack, s.stack = new ++ v :: stack ∧ v ∉ new ∧
      s' = ⟨s.count, fun u => if u ∈ new ++ [v] then inf else s.val u, stack,
        s.comps ++ [new ++ [v]]⟩ := by
  obtain hmem | hmem := Decidable.em (v ∈ s.stack)
  · obtain ⟨new, stack, hstack, hnot⟩ := eq_append_cons_of_mem hmem
    rw [close_eq hstack hnot] at h
    exact ⟨new, stack, hstack, hnot, (Option.some.inj h).symm⟩
  · have hdrop : s.stack.dropWhile (· ≠ v) = [] :=
      dropWhile_eq_nil_iff.2 fun u hu => decide_eq_true fun heq => hmem (heq ▸ hu)
    rw [State.close, hdrop] at h
    exact nomatch h

/-- No edge leaves the component but to components before. -/
theorem AtLoop.edges (h : AtLoop adj inf gray s v [] (s.count + 1) s') (hs : Inv adj inf gray s)
    (hstack : s'.stack = new ++ v :: s.stack)
    (hnew : ∀ x ∈ new, ∀ y ∈ adj x, y ∈ s.stack → s.count + 1 ≤ s.val y)
    (hx : x ∈ new ++ [v]) (hy : y ∈ adj x) : y ∈ new ++ [v] ∨ y ∈ s'.comps.flatten := by
  have hnodup := h.inv.nodup
  rw [hstack] at hnodup
  obtain ⟨hnodup, -, -⟩ := nodup_append.1 hnodup
  obtain ⟨-, -, hdisj⟩ := nodup_append.1 hnodup
  -- the vertex that the edge leads to has been met, and is not under the vertex
  have hmet : s'.val y ≠ 0 ∧ (y ∈ s.stack → s.count + 1 ≤ s.val y) := by
    obtain hxn | hxv := mem_append.1 hx
    · have hgray : x ∉ v :: gray := by
        intro hmem
        obtain heq | hmem := mem_cons.1 hmem
        · exact hdisj x hxn v mem_cons_self heq
        · exact hdisj x hxn x (mem_cons_of_mem v (hs.gray_mem x hmem)) rfl
      have hxs : x ∈ s'.stack := hstack ▸ mem_append_left _ hxn
      exact ⟨h.inv.black x (h.inv.val_ne_zero hxs) hgray y hy, hnew x hxn y hy⟩
    · obtain rfl := mem_singleton.1 hxv
      exact (h.done y hy).resolve_left not_mem_nil
  obtain hmem | hmem := (h.inv.met y).1 hmet.1
  · rw [hstack, append_cons] at hmem
    obtain hmem | hmem := mem_append.1 hmem
    · exact .inl hmem
    · exact absurd (hs.le_count y hmem) (not_le.2 (hmet.2 hmem))
  · exact .inr hmem

/-- The vertices above the one that is left are a component with it. -/
theorem AtLoop.component (h : AtLoop adj inf gray s v [] (s.count + 1) s')
    (hs : Inv adj inf gray s) (hstack : s'.stack = new ++ v :: s.stack)
    (hnew : ∀ x ∈ new, ∀ y ∈ adj x, y ∈ s.stack → s.count + 1 ≤ s.val y) :
    IsComponent adj (new ++ [v]) := by
  have hnodup := h.inv.nodup
  rw [hstack, append_cons] at hnodup
  obtain ⟨hnodup, -, hdisj'⟩ := nodup_append.1 hnodup
  obtain ⟨-, -, hdisj⟩ := nodup_append.1 hnodup
  have hsub : ∀ x ∈ new ++ [v], x ∈ s'.stack := fun x hx => by
    rw [hstack, append_cons]
    exact mem_append_left _ hx
  have hclosed : ∀ a, a ∈ new ++ [v] ∨ a ∈ s'.comps.flatten → ∀ b ∈ adj a,
      b ∈ new ++ [v] ∨ b ∈ s'.comps.flatten := fun a ha b hb => ha.elim
    (fun ha => h.edges hs hstack hnew ha hb) fun ha => .inr (h.inv.ordered.closed ha hb)
  have hval : ∀ x ∈ new ++ [v], s'.val v ≤ s'.val x := by
    intro x hx
    have horder := h.inv.order
    rw [hstack] at horder
    obtain hx | hx := mem_append.1 hx
    · exact ((pairwise_append.1 horder).2.2 x hx v mem_cons_self).le
    · rw [mem_singleton.1 hx]
  have hfrom : ∀ x ∈ new ++ [v], Reach adj v x := fun x hx =>
    h.inv.below v (h.inv.gray_mem v mem_cons_self) x (hsub x hx) (hval x hx)
  have hto : ∀ x ∈ new ++ [v], Reach adj x v := by
    intro x hx
    obtain ⟨g, hg, -, hxg⟩ := h.inv.up x (hsub x hx)
    obtain rfl | hg := mem_cons.1 hg
    · exact hxg
    · have hgs := hs.gray_mem g hg
      obtain hmem | hmem := hxg.closed hclosed (.inl hx)
      · exact absurd rfl (hdisj g hmem g hgs)
      · exact absurd rfl (hdisj' g (mem_append_right _ hgs) g hmem)
  refine ⟨append_ne_nil_of_right_ne_nil _ (cons_ne_nil _ _), fun x hx y =>
    ⟨fun hy => ⟨(hto x hx).trans (hfrom y hy), (hto y hy).trans (hfrom x hx)⟩,
      fun ⟨hxy, hyx⟩ => ?_⟩⟩
  obtain hmem | hmem := hxy.closed hclosed (.inl hx)
  · exact hmem
  · have hxc : x ∈ s'.comps.flatten :=
      hyx.closed (fun a ha b hb => h.inv.ordered.closed ha hb) hmem
    exact absurd rfl (hdisj' x (mem_append_left _ hx) x hxc)

/-- The state after a component has been closed. -/
theorem AtLoop.close (h : AtLoop adj inf gray s v [] (s.count + 1) s') (hs : Inv adj inf gray s)
    (hv : s.val v = 0) (hinf : card α < inf) :
    ∃ s'', s'.close inf v = some s'' ∧ Visited adj inf gray s v (s.count + 1) s'' := by
  obtain ⟨new, hstack, hnew⟩ := h.stack
  have hcomp := h.component hs hstack hnew
  have hnodup := h.inv.nodup
  rw [hstack, append_cons] at hnodup
  obtain ⟨hnodupS, hnodupF, hdisj'⟩ := nodup_append.1 hnodup
  obtain ⟨hnodupC, hnodupS, hdisj⟩ := nodup_append.1 hnodupS
  have hvnew : v ∉ new := fun hmem =>
    (nodup_append.1 hnodupC).2.2 v hmem v mem_cons_self rfl
  refine ⟨_, close_eq hstack hvnew, ?_⟩
  have hsub : ∀ x ∈ new ++ [v], x ∈ s'.stack := fun x hx => by
    rw [hstack, append_cons]
    exact mem_append_left _ hx
  have hsub' : ∀ x ∈ s.stack, x ∈ s'.stack := fun x hx => by
    rw [hstack, append_cons]
    exact mem_append_right _ hx
  have hinf0 : inf ≠ 0 := Nat.ne_zero_of_lt hinf
  set val : α → ℕ := fun u => if u ∈ new ++ [v] then inf else s'.val u with hval
  have hin : ∀ x ∈ new ++ [v], val x = inf := fun x hx => if_pos hx
  have hout : ∀ x ∉ new ++ [v], val x = s'.val x := fun x hx => if_neg hx
  have hstk : ∀ x ∈ s.stack, val x = s'.val x := fun x hx => hout x fun hmem =>
    hdisj x hmem x hx rfl
  have hzero : ∀ x, val x ≠ 0 ↔ s'.val x ≠ 0 := by
    intro x
    obtain hx | hx := Decidable.em (x ∈ new ++ [v])
    · rw [hin x hx]
      exact iff_of_true hinf0 (h.inv.val_ne_zero (hsub x hx))
    · rw [hout x hx]
  have hflat : (s'.comps ++ [new ++ [v]]).flatten = s'.comps.flatten ++ (new ++ [v]) := by
    rw [flatten_append, flatten_singleton]
  refine ⟨⟨?_, ?_, fun x => ?_, ?_, fun x hx => ?_, fun x hx => ?_, hs.gray_mem,
    fun x hx hgray w hw => ?_, fun a ha b hb hab => ?_, fun y hy => ?_, ?_, fun C hC => ?_⟩,
    ⟨[], rfl, nofun⟩, fun x hx => ?_, ?_, .inl rfl, ?_⟩
  · have hle : State.unmet ⟨s'.count, val, s.stack, s'.comps ++ [new ++ [v]]⟩ ≤ s'.unmet :=
      unmet_le fun x hx => (hzero x).2 hx
    exact (Nat.add_le_add_left hle _).trans h.inv.count
  · rw [hflat]
    refine nodup_append.2 ⟨hnodupS, nodup_append.2 ⟨hnodupF, hnodupC,
      fun a ha b hb heq => hdisj' b (mem_append_left _ hb) a ha heq.symm⟩, fun a ha b hb => ?_⟩
    obtain hb | hb := mem_append.1 hb
    · exact hdisj' a (mem_append_right _ ha) b hb
    · exact fun heq => hdisj b hb a ha heq.symm
  · change val x ≠ 0 ↔ x ∈ s.stack ∨ x ∈ (s'.comps ++ [new ++ [v]]).flatten
    rw [hzero, h.inv.met, hstack, hflat, append_cons]
    simp only [mem_append]
    tauto
  · have horder := h.inv.order
    rw [hstack, append_cons] at horder
    refine (pairwise_append.1 horder).2.1.imp_of_mem fun {a b} ha hb hlt => ?_
    change val b < val a
    rwa [hstk a ha, hstk b hb]
  · change val x ≤ s'.count
    rw [hstk x hx]
    exact h.inv.le_count x (hsub' x hx)
  · change x ∈ (s'.comps ++ [new ++ [v]]).flatten at hx
    rw [hflat] at hx
    change val x = inf
    obtain hx | hx := mem_append.1 hx
    · rw [hout x fun hmem => hdisj' x (mem_append_left _ hmem) x hx rfl]
      exact h.inv.inf_val x hx
    · exact hin x hx
  · refine (hzero w).2 ?_
    obtain rfl | hne := eq_or_ne x v
    · exact ((h.done w hw).resolve_left not_mem_nil).1
    · exact h.inv.black x ((hzero x).1 hx) (fun hmem =>
        (mem_cons.1 hmem).elim hne hgray) w hw
  · change val a ≤ val b at hab
    rw [hstk a ha, hstk b hb] at hab
    exact h.inv.below a (hsub' a ha) b (hsub' b hb) hab
  · obtain ⟨g, hg, hle, hyg⟩ := h.inv.up y (hsub' y hy)
    obtain rfl | hg := mem_cons.1 hg
    · have hly := hs.le_count y hy
      rw [h.val_self, h.val_old hv (hs.val_ne_zero hy)] at hle
      omega
    · refine ⟨g, hg, ?_, hyg⟩
      change val g ≤ val y
      rwa [hstk g (hs.gray_mem g hg), hstk y hy]
  · exact h.inv.ordered.concat fun x hx y hy => h.edges hs hstack hnew hx hy
  · obtain hC | hC := mem_append.1 hC
    · exact h.inv.components C hC
    · rw [mem_singleton.1 hC]
      exact hcomp
  · rw [← h.val_old hv hx]
    refine hout x fun hmem => ?_
    -- what is closed has not been met before
    obtain hxs | hxc := (hs.met x).1 hx
    · exact hdisj x hmem x hxs rfl
    · exact hdisj' x (mem_append_left _ hmem) x (h.comps.flatten.subset hxc) rfl
  · exact h.comps.trans (prefix_append _ _)
  · exact (hzero v).2 (h.val_self ▸ succ_ne_zero _)

/-- The vertex is left on the stack: it reaches one under it. -/
theorem AtLoop.keep (h : AtLoop adj inf gray s v [] low s') (hs : Inv adj inf gray s)
    (hv : s.val v = 0) (hne : s'.val v ≠ low) : Visited adj inf gray s v low s' := by
  obtain ⟨new, hstack, hnew⟩ := h.stack
  rw [h.val_self] at hne
  have hlt : low < s.count + 1 := lt_of_le_of_ne h.le hne.symm
  obtain ⟨y, hy, hlow, hvy⟩ := h.eq.resolve_left hne.symm
  have hold : ∀ u ∈ s.stack, s'.val u = s.val u := fun u hu => h.val_old hv (hs.val_ne_zero hu)
  have hdone : ∀ w ∈ adj v, s'.val w ≠ 0 ∧ (w ∈ s.stack → low ≤ s.val w) := fun w hw =>
    (h.done w hw).resolve_left not_mem_nil
  refine ⟨{ h.inv with gray_mem := fun g hg => ?_, black := fun x hx hgray w hw => ?_,
                       up := fun x hx => ?_ }, ⟨new ++ [v], ?_, fun x hx z hz hzs => ?_⟩,
    fun u hu => h.val_old hv hu, h.comps, .inr ⟨hlt, y, hy, hlow, hvy⟩,
    h.val_self ▸ succ_ne_zero _⟩
  · exact h.inv.gray_mem g (mem_cons_of_mem v hg)
  · obtain rfl | hxv := eq_or_ne x v
    · exact (hdone w hw).1
    · exact h.inv.black x hx (fun hmem => (mem_cons.1 hmem).elim hxv hgray) w hw
  · obtain ⟨g, hg, hle, hxg⟩ := h.inv.up x hx
    obtain rfl | hg := mem_cons.1 hg
    · -- from the vertex the search goes on to the one that it reaches
      obtain ⟨g', hg', hle', hyg⟩ := hs.up y hy
      refine ⟨g', hg', ?_, hxg.trans (hvy.trans hyg)⟩
      rw [hold g' (hs.gray_mem g' hg')]
      rw [h.val_self] at hle
      omega
    · exact ⟨g, hg, hle, hxg⟩
  · rw [hstack, append_cons]
  · obtain hx | hx := mem_append.1 hx
    · exact hnew x hx z hz hzs
    · rw [mem_singleton.1 hx] at hz
      exact (hdone z hz).2 hzs

/-! ## The search -/

theorem leave_spec (h : AtLoop adj inf gray s v [] low s') (hs : Inv adj inf gray s)
    (hv : s.val v = 0) (hinf : card α < inf) :
    ∃ s'', leave inf v (low, s') = some (low, s'') ∧ Visited adj inf gray s v low s'' := by
  rw [leave]
  split
  next heq =>
    change s'.val v = low at heq
    rw [h.val_self] at heq
    subst heq
    obtain ⟨s'', hclose, hvisited⟩ := h.close hs hv hinf
    rw [hclose]
    exact ⟨s'', rfl, hvisited⟩
  next hne => exact ⟨s', rfl, h.keep hs hv hne⟩

/-- A step of the loop, when the search from the successors keeps the invariant. -/
theorem lower_spec (hinf : card α < inf)
    (hcall : ∀ {gray : List α} {s : State α} {v : α}, Inv adj inf gray s → s.val v = 0 →
      (∀ g ∈ gray, Reach adj g v) → s.unmet < d →
      ∃ low s', visit adj inf d s v = some (low, s') ∧ Visited adj inf gray s v low s')
    (hs : Inv adj inf gray s) (hv : s.val v = 0) (hgray : ∀ g ∈ gray, Reach adj g v)
    (hd : (s.enter v).unmet < d) (h : AtLoop adj inf gray s v (w :: rest) low s') :
    ∃ low' s'', lower (visit adj inf d) (low, s') w = some (low', s'') ∧
      AtLoop adj inf gray s v rest low' s'' := by
  rw [lower]
  split
  next hw =>
    have hreach : ∀ g ∈ v :: gray, Reach adj g w := by
      intro g hg
      have hedge : w ∈ adj v := h.subset mem_cons_self
      obtain rfl | hg := mem_cons.1 hg
      · exact .single hedge
      · exact (hgray g hg).tail hedge
    have hlt : s'.unmet < d := lt_of_le_of_lt
      (unmet_le fun u hu => (h.val u hu).symm ▸ hu) hd
    obtain ⟨m, s'', hrun, hvisited⟩ := hcall h.inv hw hreach hlt
    change ∃ low' s'', (visit adj inf d s' w >>= fun p =>
      some (if p.1 < low then p.1 else low, p.2)) = some (low', s'') ∧ _
    rw [hrun]
    exact ⟨_, s'', rfl, h.called hs hv hw hvisited⟩
  next hw => exact ⟨_, s', rfl, h.old hs hv hinf hw⟩

/-- The search from a vertex that has not been met ends and keeps the invariant. -/
theorem visit_spec (hinf : card α < inf) (hs : Inv adj inf gray s) (hv : s.val v = 0)
    (hgray : ∀ g ∈ gray, Reach adj g v) (hd : s.unmet < d) :
    ∃ low s', visit adj inf d s v = some (low, s') ∧ Visited adj inf gray s v low s' := by
  induction d generalizing gray s v with
  | zero => exact absurd hd (not_lt_zero _)
  | succ d ih =>
    have hlt := lt_of_lt_of_le (unmet_enter hv) (le_of_lt_succ hd)
    have hloop : ∀ rest low s', AtLoop adj inf gray s v rest low s' →
        ∃ low' s'', rest.foldlM (lower (visit adj inf d)) (low, s') = some (low', s'') ∧
          AtLoop adj inf gray s v [] low' s'' := by
      intro rest
      induction rest with
      | nil => exact fun low s' h => ⟨low, s', rfl, h⟩
      | cons w rest ihrest =>
        intro low s' h
        obtain ⟨low', s'', hstep, h'⟩ := lower_spec hinf ih hs hv hgray hlt h
        rw [foldlM_cons, hstep]
        exact ihrest low' s'' h'
    obtain ⟨low, s', hfold, hend⟩ := hloop (adj v) _ _ (.start hs hv hgray)
    obtain ⟨s'', hleave, hvisited⟩ := leave_spec hend hs hv hinf
    refine ⟨low, s'', ?_, hvisited⟩
    rw [visit, hfold]
    exact hleave

/-- The components that a search finds: those of the vertices of the list, each once, in an order
in which the edges lead to earlier ones. -/
structure Found (adj : α → List α) (vs : List α) (comps : List (List α)) : Prop where
  nodup : comps.flatten.Nodup
  all : ∀ v ∈ vs, v ∈ comps.flatten
  ordered : Ordered adj comps
  components : ∀ C ∈ comps, IsComponent adj C

omit [DecidableEq α] in
/-- Between the searches from the vertices of the list nothing is on the stack. -/
theorem Inv.stack_nil (h : Inv adj inf [] s) : s.stack = [] := by
  refine eq_nil_iff_forall_not_mem.2 fun y hy => ?_
  obtain ⟨g, hg, -⟩ := h.up y hy
  exact not_mem_nil hg

theorem resume_spec (hinf : card α < inf) (hd : card α < d)
    (hs : Inv adj inf [] s) (v : α) :
    ∃ s', resume adj inf d s v = some s' ∧ Inv adj inf [] s' ∧
      (∀ u, s.val u ≠ 0 → s'.val u ≠ 0) ∧ s'.val v ≠ 0 := by
  rw [resume]
  split
  next hv =>
    have hlt : s.unmet < d := lt_of_le_of_lt (card_subtype_le _) hd
    obtain ⟨low, s', hrun, h⟩ := visit_spec hinf hs hv nofun hlt
    rw [hrun]
    exact ⟨s', rfl, h.inv, fun u hu => (h.val u hu).symm ▸ hu, h.met⟩
  next hv => exact ⟨s, rfl, hs, fun _ => id, hv⟩

theorem resume_foldlM (hinf : card α < inf) (hd : card α < d) (vs : List α)
    (hs : Inv adj inf [] s) :
    ∃ s', vs.foldlM (resume adj inf d) s = some s' ∧ Inv adj inf [] s' ∧
      (∀ u, s.val u ≠ 0 → s'.val u ≠ 0) ∧ ∀ v ∈ vs, s'.val v ≠ 0 := by
  induction vs generalizing s with
  | nil => exact ⟨s, rfl, hs, fun _ => id, nofun⟩
  | cons v vs ih =>
    obtain ⟨s', hrun, hs', hmono, hmet⟩ := resume_spec hinf hd hs v
    obtain ⟨s'', hrun', hs'', hmono', hall⟩ := ih hs'
    rw [foldlM_cons, hrun]
    refine ⟨s'', hrun', hs'', fun u hu => hmono' u (hmono u hu), fun u hu => ?_⟩
    obtain rfl | hu := mem_cons.1 hu
    · exact hmono' _ hmet
    · exact hall u hu

omit [DecidableEq α] in
theorem Inv.start (adj : α → List α) (inf : ℕ) : Inv adj inf [] ⟨0, fun _ => 0, [], []⟩ := by
  refine ⟨?_, nodup_nil, fun v => iff_of_false (fun h => h rfl) fun h => ?_, .nil, nofun,
    nofun, nofun, fun v hv => absurd rfl hv, nofun, nofun, fun pre C hpre => ?_, nofun⟩
  · exact (Nat.zero_add _).trans_le (card_subtype_le _)
  · exact h.elim not_mem_nil not_mem_nil
  · exact absurd (prefix_nil.1 hpre) (append_ne_nil_of_right_ne_nil _ (cons_ne_nil _ _))

/-- The search finds the components. -/
theorem search_spec (adj : α → List α) (hinf : card α < inf)
    (hd : card α < d) (vs : List α) :
    ∃ s, search adj inf d vs = some s ∧ s.stack = [] ∧ Found adj vs s.comps := by
  obtain ⟨s, hrun, hs, -, hall⟩ := resume_foldlM hinf hd vs (Inv.start adj inf)
  have hnil := hs.stack_nil
  refine ⟨s, hrun, hnil, (nodup_append.1 hs.nodup).2.1, fun v hv => ?_, hs.ordered,
    hs.components⟩
  exact ((hs.met v).1 (hall v hv)).resolve_left fun hmem => by
    rw [hnil] at hmem
    exact not_mem_nil hmem

end StrongComponents
