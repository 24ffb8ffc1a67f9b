import Mathlib.Data.Fintype.Card

/-!
# Union-find forests

A forest given by parent pointers, in which a root has no parent or is its own parent.
`Represents p f` says that following parents from `a` ends at the root `f a`. Halving a path and
making a root its own parent keep the root function; linking one root below another merges two
classes. `Tracks f R` says that the classes of `f` are those generated by the pairs of `R`.
-/

namespace UnionFind

open Relation Function

universe u

variable {α : Type u}

/-! ## The roots of a forest -/

/-- A root has no parent or is its own parent. -/
def IsRoot (p : α → Option α) (a : α) : Prop :=
  p a = none ∨ p a = some a

/-- Following `k` parents from a vertex ends at a root. -/
inductive HasRoot (p : α → Option α) : ℕ → α → α → Prop
  | root {a : α} : IsRoot p a → HasRoot p 0 a a
  | step {k : ℕ} {a b r : α} : p a = some b → b ≠ a → HasRoot p k b r → HasRoot p (k + 1) a r

/-- The root function of a forest. -/
def Represents (p : α → Option α) (f : α → α) : Prop :=
  ∀ a, ∃ k, HasRoot p k a (f a)

variable {p : α → Option α} {f : α → α}

/-- Depth and root are determined by the forest. -/
theorem HasRoot.unique {k l : ℕ} {a r t : α} (h : HasRoot p k a r) (h' : HasRoot p l a t) :
    k = l ∧ r = t := by
  induction h generalizing l with
  | root hr =>
    cases h' with
    | root => exact ⟨rfl, rfl⟩
    | step hp hne _ => rcases hr with hr | hr <;> simp_all
  | step hp hne _ ih =>
    cases h' with
    | root hr => rcases hr with hr | hr <;> simp_all
    | step hp' _ h' =>
      rw [hp] at hp'
      obtain rfl := Option.some.inj hp'
      obtain ⟨rfl, rfl⟩ := ih h'
      exact ⟨rfl, rfl⟩

/-- Where a walk ends is a root. -/
theorem HasRoot.isRoot {k : ℕ} {a r : α} (h : HasRoot p k a r) : IsRoot p r := by
  induction h with
  | root hr => exact hr
  | step _ _ _ ih => exact ih

/-- Every smaller depth occurs on the walk to the root. -/
theorem HasRoot.exists_depth {k : ℕ} {a r : α} (h : HasRoot p k a r) :
    ∀ j ≤ k, ∃ b, HasRoot p j b r := by
  induction h with
  | root hr =>
    intro j hj
    obtain rfl := Nat.le_zero.1 hj
    exact ⟨_, .root hr⟩
  | step hp hne h ih =>
    intro j hj
    obtain hj | rfl := Nat.le_or_eq_of_le_succ hj
    · exact ih j hj
    · exact ⟨_, .step hp hne h⟩

/-- In a finite forest every depth is less than the number of vertices. -/
theorem HasRoot.lt_card [Fintype α] {k : ℕ} {a r : α} (h : HasRoot p k a r) :
    k < Fintype.card α := by
  choose g hg using fun j : Fin (k + 1) => h.exists_depth j (Nat.le_of_lt_succ j.2)
  have hinj : Injective g := by
    intro i j hij
    have hi := hg i
    rw [hij] at hi
    exact Fin.ext (hi.unique (hg j)).1
  have hcard := Fintype.card_le_of_injective g hinj
  rw [Fintype.card_fin] at hcard
  exact hcard

/-- A vertex that is a root represents itself. -/
theorem Represents.of_isRoot (h : Represents p f) {a : α} (ha : IsRoot p a) : f a = a := by
  obtain ⟨_, hk⟩ := h a
  exact (hk.unique (.root ha)).2

/-- The representative of a vertex is a root. -/
theorem Represents.isRoot (h : Represents p f) (a : α) : IsRoot p (f a) := by
  obtain ⟨_, hk⟩ := h a
  exact hk.isRoot

/-- Representatives represent themselves. -/
theorem Represents.idem (h : Represents p f) (a : α) : f (f a) = f a :=
  h.of_isRoot (h.isRoot a)

/-- The forest without edges. -/
theorem represents_none : Represents (fun _ : α => none) id :=
  fun _ => ⟨0, .root (Or.inl rfl)⟩

/-! ## Changes of a forest -/

variable [DecidableEq α]

/-- Making a root its own parent changes no class. -/
theorem Represents.self (h : Represents p f) {u : α} (hu : IsRoot p u) :
    Represents (update p u (some u)) f := by
  intro a
  obtain ⟨k, hk⟩ := h a
  generalize f a = r at hk
  refine ⟨k, ?_⟩
  induction hk with
  | @root a ha =>
    refine .root ?_
    by_cases hau : a = u
    · subst hau; exact Or.inr (update_self ..)
    · rw [IsRoot, update_of_ne hau]; exact ha
  | @step k a b r hp hne hk ih =>
    have hau : a ≠ u := by
      rintro rfl
      rcases hu with hu | hu <;> simp_all
    exact .step (by rw [update_of_ne hau]; exact hp) hne ih

/-- Path halving changes no class and lengthens no path. -/
theorem HasRoot.halve {n q r : α} (hq : p n = some q) (hqn : q ≠ n) (hr : p q = some r) :
    ∀ {k : ℕ} {a t : α}, HasRoot p k a t → ∃ l ≤ k, HasRoot (update p n (some r)) l a t := by
  intro k
  induction k using Nat.strong_induction_on with
  | _ k ih =>
    intro a t hk
    cases hk with
    | root ha =>
      have han : a ≠ n := by
        rintro rfl
        rcases ha with ha | ha <;> simp_all
      exact ⟨0, le_rfl, .root (by rw [IsRoot, update_of_ne han]; exact ha)⟩
    | @step k _ b _ hp hne hb =>
      by_cases han : a = n
      · subst han
        rw [hq] at hp
        obtain rfl := Option.some.inj hp
        have hup : update p a (some r) a = some r := update_self ..
        cases hb with
        | root hb =>
          -- the parent is the root: the pointer is written back as it was
          have hrq : r = q := by rcases hb with hb | hb <;> simp_all
          subst hrq
          exact ⟨1, by omega, .step hup hne (.root (by rw [IsRoot, update_of_ne hne]; exact hb))⟩
        | @step j _ c _ hqc hcq hc =>
          rw [hr] at hqc
          obtain rfl := Option.some.inj hqc
          have hra : r ≠ a := by
            rintro rfl
            have := (hc.unique (.step hq hqn (.step hr hcq hc))).1
            omega
          obtain ⟨l, hl, hl'⟩ := ih j (by omega) hc
          exact ⟨l + 1, by omega, .step hup hra hl'⟩
      · obtain ⟨l, hl, hl'⟩ := ih k (by omega) hb
        exact ⟨l + 1, by omega, .step (by rw [update_of_ne han]; exact hp) hne hl'⟩

/-- Path halving changes no class. -/
theorem Represents.halve (h : Represents p f) {n q r : α} (hq : p n = some q) (hqn : q ≠ n)
    (hr : p q = some r) : Represents (update p n (some r)) f := by
  intro a
  obtain ⟨k, hk⟩ := h a
  obtain ⟨l, _, hl⟩ := hk.halve hq hqn hr
  exact ⟨l, hl⟩

/-- Linking the root `v` below the root `u` merges their classes under `u`. -/
theorem Represents.link (h : Represents p f) {u v : α} (hu : IsRoot p u) (hv : IsRoot p v)
    (huv : u ≠ v) : Represents (update p v (some u)) fun a => if f a = v then u else f a := by
  intro a
  obtain ⟨k, hk⟩ := h a
  generalize hfa : f a = r at hk
  have hup : update p v (some u) v = some u := update_self ..
  have hroot : HasRoot (update p v (some u)) 0 u u :=
    .root (by rw [IsRoot, update_of_ne huv]; exact hu)
  show ∃ k, HasRoot _ k a (if f a = v then u else f a)
  rw [hfa]
  clear hfa
  induction hk with
  | @root a ha =>
    by_cases hav : a = v
    · subst hav
      rw [if_pos rfl]
      exact ⟨1, .step hup huv hroot⟩
    · rw [if_neg hav]
      exact ⟨0, .root (by rw [IsRoot, update_of_ne hav]; exact ha)⟩
  | @step k a b r hp hne hk ih =>
    obtain ⟨l, hl⟩ := ih
    have hav : a ≠ v := by
      rintro rfl
      rcases hv with hv | hv <;> simp_all
    exact ⟨l + 1, .step (by rw [update_of_ne hav]; exact hp) hne hl⟩

/-! ## The classes -/

omit [DecidableEq α] in
/-- The classes of `f` are those the pairs of `R` generate. -/
def Tracks (f : α → α) (R : α → α → Prop) : Prop :=
  ∀ x y, f x = f y ↔ EqvGen R x y

omit [DecidableEq α] in
/-- Without pairs, every vertex is its own class. -/
theorem tracks_id {R : α → α → Prop} (hR : ∀ x y, ¬ R x y) : Tracks id R := by
  intro x y
  refine ⟨fun h => (show x = y from h) ▸ .refl _, fun h => ?_⟩
  induction h with
  | rel x y h => exact absurd h (hR x y)
  | refl => rfl
  | symm _ _ _ ih => exact ih.symm
  | trans _ _ _ _ _ ih ih' => exact ih.trans ih'

omit [DecidableEq α] in
/-- Pairs of one class already joined add nothing, and only what generates the classes counts. -/
theorem Tracks.congr {R S : α → α → Prop} (h : Tracks f R) (hRS : ∀ x y, R x y → EqvGen S x y)
    (hSR : ∀ x y, S x y → EqvGen R x y) : Tracks f S := by
  have lift : ∀ {A B : α → α → Prop}, (∀ x y, A x y → EqvGen B x y) →
      ∀ {x y}, EqvGen A x y → EqvGen B x y := by
    intro A B hAB x y hxy
    induction hxy with
    | rel x y h => exact hAB x y h
    | refl => exact .refl _
    | symm _ _ _ ih => exact ih.symm
    | trans _ _ _ _ _ ih ih' => exact ih.trans _ _ _ ih'
  exact fun x y => (h x y).trans ⟨lift hRS, lift hSR⟩

omit [DecidableEq α] in
/-- Paired vertices have one representative. -/
theorem Tracks.rel {R : α → α → Prop} (h : Tracks f R) {x y : α} (hxy : R x y) : f x = f y :=
  (h x y).2 (.rel _ _ hxy)

/-- Linking the roots of `a` and `b` joins the pair `a`, `b`. -/
theorem Tracks.link {R : α → α → Prop} (h : Tracks f R) {a b u v : α} (ha : f a = u ∨ f a = v)
    (hb : f b = u ∨ f b = v) (hab : f a ≠ f b) :
    Tracks (fun x => if f x = v then u else f x) fun x y => R x y ∨ (x = a ∧ y = b) := by
  have mono : ∀ {x y}, f x = f y → EqvGen (fun x y => R x y ∨ (x = a ∧ y = b)) x y :=
    fun hxy => ((h _ _).1 hxy).mono fun _ _ => Or.inl
  have hpair : EqvGen (fun x y => R x y ∨ (x = a ∧ y = b)) a b := .rel _ _ (Or.inr ⟨rfl, rfl⟩)
  -- a vertex of either class is joined to both vertices of the pair
  have hu : ∀ {x}, f x = u ∨ f x = v →
      EqvGen (fun x y => R x y ∨ (x = a ∧ y = b)) x a := by
    intro x hx
    by_cases hxa : f x = f a
    · exact mono hxa
    · refine .trans _ _ _ (mono (y := b) ?_) hpair.symm
      grind
  intro x y
  constructor
  · intro hxy
    by_cases hx : f x = f y
    · exact mono hx
    · refine .trans _ _ _ (hu (x := x) ?_) (hu (x := y) ?_).symm <;> grind
  · intro hxy
    induction hxy with
    | rel x y hxy =>
      obtain hxy | ⟨rfl, rfl⟩ := hxy
      · show (if f x = v then u else f x) = if f y = v then u else f y
        rw [h.rel hxy]
      · grind
    | refl => rfl
    | symm _ _ _ ih => exact ih.symm
    | trans _ _ _ _ _ ih ih' => exact ih.trans ih'

end UnionFind
