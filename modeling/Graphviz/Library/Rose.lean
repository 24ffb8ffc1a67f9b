import Mathlib.Data.List.Nodup

/-!
# Trees with any number of children

The subtrees of a tree, and the numbering of a tree in which the first child of a node has the
number of the node itself and every other child the number after those of the subtrees of the child
before it. It takes an interval of numbers for every subtree, and intervals of subtrees that are
not nested in each other are disjoint.
-/

universe u

/-- A label, and the trees below it. -/
inductive Rose (α : Type u) where
  | mk (label : α) (children : List (Rose α))

namespace Rose

variable {α : Type u}

/-- The label at the root. -/
def label : Rose α → α
  | mk a _ => a

/-- The trees below the root. -/
def children : Rose α → List (Rose α)
  | mk _ ts => ts

mutual

/-- The tree and the trees nested in it. -/
def subtrees : Rose α → List (Rose α)
  | mk a ts => mk a ts :: forest ts

/-- The trees of a list and the trees nested in them. -/
def forest : List (Rose α) → List (Rose α)
  | [] => []
  | t :: ts => subtrees t ++ forest ts

end

/-- The number of subtrees. -/
def size (t : Rose α) : ℕ := t.subtrees.length

mutual

/-- The numbers of a tree from `ix` on. -/
def Numbered (num : α → ℕ) : ℕ → Rose α → Prop
  | ix, mk a ts => num a = ix ∧ NumberedForest num ix ts

/-- The numbers of the trees of a list, each starting after those of the one before. -/
def NumberedForest (num : α → ℕ) : ℕ → List (Rose α) → Prop
  | _, [] => True
  | ix, t :: ts => Numbered num ix t ∧ NumberedForest num (ix + t.size) ts

end

variable {t x y : Rose α} {ts : List (Rose α)} {num : α → ℕ} {ix : ℕ}

theorem mem_subtrees_self : t ∈ t.subtrees := by
  cases t with
  | mk a ts => rw [subtrees]; exact List.mem_cons_self

theorem mem_subtrees_iff : x ∈ t.subtrees ↔ x = t ∨ x ∈ forest t.children := by
  cases t with
  | mk a ts => rw [subtrees, List.mem_cons, children]

theorem mem_forest_cons : x ∈ forest (t :: ts) ↔ x ∈ t.subtrees ∨ x ∈ forest ts := by
  rw [forest, List.mem_append]

theorem size_mk (a : α) : (mk a ts).size = (forest ts).length + 1 := by
  rw [size, subtrees, List.length_cons]

mutual

/-- What is nested in a nested tree is nested in the tree. -/
theorem mem_subtrees_trans : ∀ {t : Rose α}, x ∈ t.subtrees → y ∈ x.subtrees → y ∈ t.subtrees
  | mk a ts, hx, hy => by
    obtain rfl | hx := mem_subtrees_iff.1 hx
    · exact hy
    · exact mem_subtrees_iff.2 (.inr (mem_forest_trans hx hy))

theorem mem_forest_trans : ∀ {ts : List (Rose α)}, x ∈ forest ts → y ∈ x.subtrees → y ∈ forest ts
  | [], hx, _ => by rw [forest] at hx; cases hx
  | t :: ts, hx, hy => by
    obtain hx | hx := mem_forest_cons.1 hx
    · exact mem_forest_cons.2 (.inl (mem_subtrees_trans hx hy))
    · exact mem_forest_cons.2 (.inr (mem_forest_trans hx hy))

end

mutual

/-- The numbers of the subtrees are from the interval of the tree. -/
theorem Numbered.bounds : ∀ {t : Rose α} {ix : ℕ}, Numbered num ix t →
    ∀ x ∈ t.subtrees, ix ≤ num x.label ∧ num x.label < ix + t.size
  | mk a ts, ix, h => by
    rw [Numbered] at h
    intro x hx
    rw [size_mk]
    obtain rfl | hx := mem_subtrees_iff.1 hx
    · rw [label, h.1]; omega
    · have := NumberedForest.bounds h.2 x hx
      omega

theorem NumberedForest.bounds : ∀ {ts : List (Rose α)} {ix : ℕ}, NumberedForest num ix ts →
    ∀ x ∈ forest ts, ix ≤ num x.label ∧ num x.label < ix + (forest ts).length
  | [], _, _ => by intro x hx; rw [forest] at hx; cases hx
  | t :: ts, ix, h => by
    rw [NumberedForest] at h
    intro x hx
    have hlen : (forest (t :: ts)).length = t.size + (forest ts).length := by
      rw [forest, List.length_append, size]
    obtain hx | hx := mem_forest_cons.1 hx
    · have := Numbered.bounds h.1 x hx
      omega
    · have := NumberedForest.bounds h.2 x hx
      omega

end

mutual

/-- Only the numbers of the subtrees count. -/
theorem Numbered.congr {num' : α → ℕ} : ∀ {t : Rose α} {ix : ℕ},
    (∀ y ∈ t.subtrees, num' y.label = num y.label) → Numbered num ix t → Numbered num' ix t
  | mk a ts, ix, heq, h => by
    rw [Numbered] at h ⊢
    rw [subtrees] at heq
    exact ⟨(heq _ List.mem_cons_self).trans h.1,
      NumberedForest.congr (fun y hy => heq y (List.mem_cons_of_mem _ hy)) h.2⟩

theorem NumberedForest.congr {num' : α → ℕ} : ∀ {ts : List (Rose α)} {ix : ℕ},
    (∀ y ∈ forest ts, num' y.label = num y.label) → NumberedForest num ix ts →
      NumberedForest num' ix ts
  | [], _, _, _ => by rw [NumberedForest]; trivial
  | t :: ts, ix, heq, h => by
    rw [NumberedForest] at h ⊢
    exact ⟨Numbered.congr (fun y hy => heq y (mem_forest_cons.2 (.inl hy))) h.1,
      NumberedForest.congr (fun y hy => heq y (mem_forest_cons.2 (.inr hy))) h.2⟩

end

mutual

/-- A property of a subtree holds of a subtree below which it does not hold. -/
theorem exists_last {P : Rose α → Prop} : ∀ t : Rose α, (∃ x ∈ t.subtrees, P x) →
    ∃ x ∈ t.subtrees, P x ∧ ∀ y ∈ forest x.children, ¬ P y
  | mk a ts, h => by
    by_cases hts : ∃ x ∈ forest ts, P x
    · obtain ⟨x, hx, hP⟩ := exists_last_forest ts hts
      exact ⟨x, mem_subtrees_iff.2 (.inr hx), hP⟩
    · obtain ⟨x, hx, hP⟩ := h
      obtain rfl | hx := mem_subtrees_iff.1 hx
      · exact ⟨_, mem_subtrees_self, hP, fun y hy hPy => hts ⟨y, hy, hPy⟩⟩
      · exact absurd ⟨x, hx, hP⟩ hts

theorem exists_last_forest {P : Rose α → Prop} : ∀ ts : List (Rose α), (∃ x ∈ forest ts, P x) →
    ∃ x ∈ forest ts, P x ∧ ∀ y ∈ forest x.children, ¬ P y
  | [], h => by
    obtain ⟨x, hx, -⟩ := h
    rw [forest] at hx
    cases hx
  | t :: ts, h => by
    obtain ⟨x, hx, hP⟩ := h
    obtain hx | hx := mem_forest_cons.1 hx
    · obtain ⟨y, hy, h⟩ := exists_last t ⟨x, hx, hP⟩
      exact ⟨y, mem_forest_cons.2 (.inl hy), h⟩
    · obtain ⟨y, hy, h⟩ := exists_last_forest ts ⟨x, hx, hP⟩
      exact ⟨y, mem_forest_cons.2 (.inr hy), h⟩

end

/-! ## Trees of one shape -/

section Rel

variable {β γ : Type u} {u : Rose β} {us : List (Rose β)}

mutual

/-- Two trees have one shape, and labels at the same place are related. -/
def Rel (R : α → β → Prop) : Rose α → Rose β → Prop
  | mk a ts, mk b us => R a b ∧ RelForest R ts us

/-- The trees of two lists are related one by one. -/
def RelForest (R : α → β → Prop) : List (Rose α) → List (Rose β) → Prop
  | [], [] => True
  | t :: ts, u :: us => Rel R t u ∧ RelForest R ts us
  | [], _ :: _ => False
  | _ :: _, [] => False

end

/-- The labels of two trees of one shape are related at the root. -/
theorem Rel.label {R : α → β → Prop} (h : Rel R t u) : R t.label u.label := by
  obtain ⟨a, ts⟩ := t
  obtain ⟨b, us⟩ := u
  rw [Rel] at h
  exact h.1

mutual

/-- What is known of the labels of both trees may be added to the relation. -/
theorem Rel.imp {R R' : α → β → Prop} {P : α → Prop} {Q : β → Prop}
    (hR : ∀ a b, P a → Q b → R a b → R' a b) : ∀ {t : Rose α} {u : Rose β}, Rel R t u →
      (∀ x ∈ t.subtrees, P x.label) → (∀ y ∈ u.subtrees, Q y.label) → Rel R' t u
  | mk a ts, mk b us, h, hP, hQ => by
    rw [Rel] at h ⊢
    exact ⟨hR a b (hP _ mem_subtrees_self) (hQ _ mem_subtrees_self) h.1,
      RelForest.imp hR h.2 (fun x hx => hP x (mem_subtrees_iff.2 (.inr hx)))
        fun y hy => hQ y (mem_subtrees_iff.2 (.inr hy))⟩

theorem RelForest.imp {R R' : α → β → Prop} {P : α → Prop} {Q : β → Prop}
    (hR : ∀ a b, P a → Q b → R a b → R' a b) : ∀ {ts : List (Rose α)} {us : List (Rose β)},
      RelForest R ts us → (∀ x ∈ forest ts, P x.label) → (∀ y ∈ forest us, Q y.label) →
        RelForest R' ts us
  | [], [], _, _, _ => by rw [RelForest]; trivial
  | t :: ts, u :: us, h, hP, hQ => by
    rw [RelForest] at h ⊢
    exact ⟨Rel.imp hR h.1 (fun x hx => hP x (mem_forest_cons.2 (.inl hx)))
        fun y hy => hQ y (mem_forest_cons.2 (.inl hy)),
      RelForest.imp hR h.2 (fun x hx => hP x (mem_forest_cons.2 (.inr hx)))
        fun y hy => hQ y (mem_forest_cons.2 (.inr hy))⟩
  | [], _ :: _, h, _, _ | _ :: _, [], h, _, _ => by rw [RelForest] at h; exact h.elim

end

mutual

theorem Rel.refl {R : α → α → Prop} (hR : ∀ a, R a a) : ∀ t : Rose α, Rel R t t
  | mk a ts => by
    rw [Rel]
    exact ⟨hR a, RelForest.refl hR ts⟩

theorem RelForest.refl {R : α → α → Prop} (hR : ∀ a, R a a) : ∀ ts : List (Rose α),
    RelForest R ts ts
  | [] => by rw [RelForest]; trivial
  | t :: ts => by
    rw [RelForest]
    exact ⟨Rel.refl hR t, RelForest.refl hR ts⟩

end

mutual

theorem Rel.trans {R : α → β → Prop} {S : β → γ → Prop} {T : α → γ → Prop}
    (hT : ∀ a b c, R a b → S b c → T a c) : ∀ {t : Rose α} {u : Rose β} {v : Rose γ},
      Rel R t u → Rel S u v → Rel T t v
  | mk a ts, mk b us, mk c vs, h, h' => by
    rw [Rel] at h h' ⊢
    exact ⟨hT a b c h.1 h'.1, RelForest.trans hT h.2 h'.2⟩

theorem RelForest.trans {R : α → β → Prop} {S : β → γ → Prop} {T : α → γ → Prop}
    (hT : ∀ a b c, R a b → S b c → T a c) : ∀ {ts : List (Rose α)} {us : List (Rose β)}
      {vs : List (Rose γ)}, RelForest R ts us → RelForest S us vs → RelForest T ts vs
  | [], [], [], _, _ => by rw [RelForest]; trivial
  | t :: ts, u :: us, v :: vs, h, h' => by
    rw [RelForest] at h h' ⊢
    exact ⟨Rel.trans hT h.1 h'.1, RelForest.trans hT h.2 h'.2⟩
  | [], _ :: _, _, h, _ | _ :: _, [], _, h, _ => by rw [RelForest] at h; exact h.elim
  | [], [], _ :: _, _, h | _ :: _, _ :: _, [], _, h => by rw [RelForest] at h; exact h.elim

end

mutual

/-- What holds of the labels of a tree is carried over to a tree of its shape. -/
theorem Rel.forall {R : α → β → Prop} {P : α → Prop} {Q : β → Prop}
    (hQ : ∀ a b, R a b → P a → Q b) : ∀ {t : Rose α} {u : Rose β}, Rel R t u →
      (∀ x ∈ t.subtrees, P x.label) → ∀ y ∈ u.subtrees, Q y.label
  | mk a ts, mk b us, h, hP => by
    rw [Rel] at h
    intro y hy
    obtain rfl | hy := mem_subtrees_iff.1 hy
    · exact hQ a b h.1 (hP _ mem_subtrees_self)
    · exact RelForest.forall hQ h.2 (fun x hx => hP x (mem_subtrees_iff.2 (.inr hx))) y hy

theorem RelForest.forall {R : α → β → Prop} {P : α → Prop} {Q : β → Prop}
    (hQ : ∀ a b, R a b → P a → Q b) : ∀ {ts : List (Rose α)} {us : List (Rose β)},
      RelForest R ts us → (∀ x ∈ forest ts, P x.label) → ∀ y ∈ forest us, Q y.label
  | [], [], _, _ => by intro y hy; rw [forest] at hy; cases hy
  | t :: ts, u :: us, h, hP => by
    rw [RelForest] at h
    intro y hy
    obtain hy | hy := mem_forest_cons.1 hy
    · exact Rel.forall hQ h.1 (fun x hx => hP x (mem_forest_cons.2 (.inl hx))) y hy
    · exact RelForest.forall hQ h.2 (fun x hx => hP x (mem_forest_cons.2 (.inr hx))) y hy
  | [], _ :: _, h, _ | _ :: _, [], h, _ => by rw [RelForest] at h; exact h.elim

end

mutual

/-- A tree is related to itself when each of its labels is. -/
theorem rel_self_iff {R : α → α → Prop} : ∀ {t : Rose α},
    Rel R t t ↔ ∀ x ∈ t.subtrees, R x.label x.label
  | mk a ts => by
    rw [Rel, relForest_self_iff]
    constructor
    · rintro ⟨ha, hts⟩ x hx
      obtain rfl | hx := mem_subtrees_iff.1 hx
      · exact ha
      · exact hts x hx
    · exact fun h => ⟨h _ mem_subtrees_self, fun x hx => h x (mem_subtrees_iff.2 (.inr hx))⟩

theorem relForest_self_iff {R : α → α → Prop} : ∀ {ts : List (Rose α)},
    RelForest R ts ts ↔ ∀ x ∈ forest ts, R x.label x.label
  | [] => by
    rw [RelForest]
    exact iff_of_true trivial fun x hx => by rw [forest] at hx; cases hx
  | t :: ts => by
    rw [RelForest, rel_self_iff, relForest_self_iff]
    constructor
    · rintro ⟨ht, hts⟩ x hx
      obtain hx | hx := mem_forest_cons.1 hx
      · exact ht x hx
      · exact hts x hx
    · exact fun h => ⟨fun x hx => h x (mem_forest_cons.2 (.inl hx)),
        fun x hx => h x (mem_forest_cons.2 (.inr hx))⟩

end

/-- A tree is related to one with another label and the same children when its label is related to
the other, and the labels below to themselves. -/
theorem rel_mk_children_iff {R : α → α → Prop} {b : α} :
    Rel R t (mk b t.children) ↔ R t.label b ∧ ∀ x ∈ forest t.children, R x.label x.label := by
  obtain ⟨a, ts⟩ := t
  rw [children, Rel, relForest_self_iff, label]

end Rel

/-! ## Trees whose labels shrink -/

mutual

/-- The label of every child is below its parent's. -/
def Descends (R : α → α → Prop) : Rose α → Prop
  | mk a ts => DescendsForest R a ts

/-- The labels of the trees of a list are below the given one. -/
def DescendsForest (R : α → α → Prop) (a : α) : List (Rose α) → Prop
  | [] => True
  | t :: ts => R a t.label ∧ Descends R t ∧ DescendsForest R a ts

end

mutual

/-- Every other label is below that of the root. -/
theorem Descends.label {R : α → α → Prop} (htrans : ∀ a b c, R a b → R b c → R a c) :
    ∀ {t : Rose α}, Descends R t → ∀ x ∈ forest t.children, R t.label x.label
  | mk a ts, h => by
    rw [Descends] at h
    exact DescendsForest.label htrans h

theorem DescendsForest.label {R : α → α → Prop} (htrans : ∀ a b c, R a b → R b c → R a c)
    {a : α} : ∀ {ts : List (Rose α)}, DescendsForest R a ts → ∀ x ∈ forest ts, R a x.label
  | [], _ => by intro x hx; rw [forest] at hx; cases hx
  | t :: ts, h => by
    rw [DescendsForest] at h
    intro x hx
    obtain hx | hx := mem_forest_cons.1 hx
    · obtain rfl | hx := mem_subtrees_iff.1 hx
      · exact h.1
      · exact htrans _ _ _ h.1 (Descends.label htrans h.2.1 x hx)
    · exact DescendsForest.label htrans h.2.2 x hx

end

mutual

/-- A tree of the same shape descends when its labels keep the order. -/
theorem Descends.of_rel {R : α → α → Prop} {S : α → α → Prop}
    (hR : ∀ a b a' b', S a b → S a' b' → R a a' → R b b') : ∀ {t u : Rose α}, Rel S t u →
      Descends R t → Descends R u
  | mk a ts, mk b us, hrel, h => by
    rw [Rel] at hrel
    rw [Descends] at h ⊢
    exact DescendsForest.of_rel hR hrel.1 hrel.2 h

theorem DescendsForest.of_rel {R : α → α → Prop} {S : α → α → Prop}
    (hR : ∀ a b a' b', S a b → S a' b' → R a a' → R b b') {a b : α} (hab : S a b) :
    ∀ {ts us : List (Rose α)}, RelForest S ts us → DescendsForest R a ts → DescendsForest R b us
  | [], [], _, _ => by rw [DescendsForest]; trivial
  | t :: ts, u :: us, hrel, h => by
    rw [RelForest] at hrel
    rw [DescendsForest] at h ⊢
    exact ⟨hR a b _ _ hab hrel.1.label h.1, Descends.of_rel hR hrel.1 h.2.1,
      DescendsForest.of_rel hR hab hrel.2 h.2.2⟩
  | [], _ :: _, hrel, _ | _ :: _, [], hrel, _ => by rw [RelForest] at hrel; exact hrel.elim

end

end Rose
