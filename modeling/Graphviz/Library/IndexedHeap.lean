import Mathlib.Data.Set.Function

/-!
# Heaps in an array, with the places of their entries

The positions of an array from a root on form a tree, each position after the root with a parent
before it. The array holds a heap when no entry has a larger key than the one at its parent. An
entry that is out of order moves up or down by swaps with its parent or with its largest child, and
an index of the entries follows: it is exact but for the entry that moves.
-/

namespace IndexedHeap

open Function Nat

universe u v

/-- A tree on the positions from the root on. -/
structure Shape where
  root : ℕ
  par : ℕ → ℕ
  root_le : ∀ i, root < i → root ≤ par i
  par_lt : ∀ i, root < i → par i < i

variable {α : Type u} {κ : Type v} [LinearOrder κ] {T : Shape} {key key' : α → κ} {a : ℕ → α}
  {hi b i j k : ℕ} {x y : α}

/-- The array with the entries of two positions swapped. -/
def swap (a : ℕ → α) (i j : ℕ) : ℕ → α :=
  a ∘ Equiv.swap i j

@[simp] theorem swap_left : swap a i j i = a j := congrArg a (Equiv.swap_apply_left i j)

@[simp] theorem swap_right : swap a i j j = a i := congrArg a (Equiv.swap_apply_right i j)

theorem swap_other (hi : k ≠ i) (hj : k ≠ j) : swap a i j k = a k :=
  congrArg a (Equiv.swap_apply_of_ne_of_ne hi hj)

/-- An entry that is moved by hand: its place is filled from another one, and it goes there. -/
theorem update_swap : update (update a i (a j)) j x = swap (update a i x) i j := by
  funext k
  obtain rfl | hj := eq_or_ne k j
  · rw [update_self, swap_right, update_self]
  obtain rfl | hi := eq_or_ne k i
  · rw [update_of_ne hj, update_self, swap_left, update_of_ne (Ne.symm hj)]
  · rw [update_of_ne hj, update_of_ne hi, swap_other hi hj, update_of_ne hi]

/-! ## Order -/

/-- The entries whose parents are at `b` or after it are in order with them. -/
def OrderedFrom (T : Shape) (key : α → κ) (a : ℕ → α) (hi b : ℕ) : Prop :=
  ∀ i, T.root < i → i < hi → b ≤ T.par i → key (a i) ≤ key (a (T.par i))

/-- A heap at the positions before `hi`. -/
def Ordered (T : Shape) (key : α → κ) (a : ℕ → α) (hi : ℕ) : Prop :=
  ∀ i, T.root < i → i < hi → key (a i) ≤ key (a (T.par i))

/-- All is in order but for the entry at `k`, which may be larger than its parent. -/
structure UpOrder (T : Shape) (key : α → κ) (a : ℕ → α) (hi k : ℕ) : Prop where
  except : ∀ i, T.root < i → i < hi → i ≠ k → key (a i) ≤ key (a (T.par i))
  grand : T.root < k → ∀ i, T.root < i → i < hi → T.par i = k → key (a i) ≤ key (a (T.par k))

/-- From `b` on all is in order but for the entry at `k`, which may be less than its children. -/
structure DownOrder (T : Shape) (key : α → κ) (a : ℕ → α) (hi b k : ℕ) : Prop where
  except : ∀ i, T.root < i → i < hi → b ≤ T.par i → T.par i ≠ k → key (a i) ≤ key (a (T.par i))
  grand : T.root < k → b ≤ T.par k → ∀ i, T.root < i → i < hi → T.par i = k →
    key (a i) ≤ key (a (T.par k))

/-- The root has the largest key. -/
theorem Ordered.le_root (h : Ordered T key a hi) (hroot : T.root ≤ i) (hlt : i < hi) :
    key (a i) ≤ key (a T.root) := by
  induction i using Nat.strong_induction_on with
  | _ i ih =>
    obtain rfl | hroot := hroot.eq_or_lt
    · exact le_rfl
    · have hpar := T.par_lt i hroot
      exact (h i hroot hlt).trans (ih _ hpar (T.root_le i hroot) (hpar.trans hlt))

theorem Ordered.from (h : Ordered T key a hi) : OrderedFrom T key a hi b :=
  fun i hroot hlt _ => h i hroot hlt

/-- Order from the root on is order. -/
theorem OrderedFrom.ordered (h : OrderedFrom T key a hi T.root) : Ordered T key a hi :=
  fun i hroot hlt => h i hroot hlt (T.root_le i hroot)

/-! ## Moving up -/

theorem UpOrder.finish (h : UpOrder T key a hi k)
    (hstop : T.root < k → key (a k) ≤ key (a (T.par k))) : Ordered T key a hi := by
  intro i hroot hlt
  obtain rfl | hne := eq_or_ne i k
  · exact hstop hroot
  · exact h.except i hroot hlt hne

theorem UpOrder.move (h : UpOrder T key a hi k) (hroot : T.root < k) (hk : k < hi)
    (hlt : key (a (T.par k)) < key (a k)) : UpOrder T key (swap a k (T.par k)) hi (T.par k) := by
  have hpar := T.par_lt k hroot
  constructor
  · intro i hi0 hi1 hne
    obtain rfl | hik := eq_or_ne i k
    · rw [swap_left, swap_right]
      exact hlt.le
    rw [swap_other hik hne]
    obtain hpk | hpk := eq_or_ne (T.par i) k
    · rw [hpk, swap_left]
      exact h.grand hroot i hi0 hi1 hpk
    obtain hpp | hpp := eq_or_ne (T.par i) (T.par k)
    · rw [hpp, swap_right]
      exact (hpp ▸ h.except i hi0 hi1 hik).trans hlt.le
    · rw [swap_other hpk hpp]
      exact h.except i hi0 hi1 hik
  · intro hroot' i hi0 hi1 hpi
    have hpar' := T.par_lt (T.par k) hroot'
    have habove := h.except (T.par k) hroot' (hpar.trans hk) hpar.ne
    rw [swap_other (hpar'.trans hpar).ne hpar'.ne]
    obtain rfl | hik := eq_or_ne i k
    · rw [swap_left]
      exact habove
    · rw [swap_other hik (hpi ▸ T.par_lt i hi0).ne']
      exact (hpi ▸ h.except i hi0 hi1 hik).trans habove

/-- A new entry at the end. -/
theorem Ordered.push (h : Ordered T key a hi) (x : α) :
    UpOrder T key (update a hi x) (hi + 1) hi := by
  constructor
  · intro i hroot hlt hne
    have hpar := T.par_lt i hroot
    rw [update_of_ne hne, update_of_ne (by omega)]
    exact h i hroot (by omega)
  · intro _ i hroot hlt hpar
    have hlt' := T.par_lt i hroot
    omega

/-- The key of one entry grows. -/
theorem Ordered.raise (h : Ordered T key a hi) (hk : key (a k) ≤ key' (a k))
    (hother : ∀ i, T.root ≤ i → i < hi → i ≠ k → key' (a i) = key (a i)) :
    UpOrder T key' a hi k := by
  constructor
  · intro i hroot hlt hne
    rw [hother i hroot.le hlt hne]
    obtain hpk | hpk := eq_or_ne (T.par i) k
    · exact (h i hroot hlt).trans (hpk ▸ hk)
    · rw [hother _ (T.root_le i hroot) ((T.par_lt i hroot).trans hlt) hpk]
      exact h i hroot hlt
  · intro hroot i hi0 hi1 hpi
    have hik := hpi ▸ T.par_lt i hi0
    have hle := h i hi0 hi1
    rw [hpi] at hle
    rw [hother i hi0.le hi1 hik.ne', hother _ (T.root_le k hroot)
      ((T.par_lt k hroot).trans (hik.trans hi1)) (T.par_lt k hroot).ne]
    exact hle.trans (h k hroot (hik.trans hi1))

/-! ## Moving down -/

theorem DownOrder.finish (h : DownOrder T key a hi b k)
    (hstop : ∀ i, T.root < i → i < hi → T.par i = k → key (a i) ≤ key (a k)) :
    OrderedFrom T key a hi b := by
  intro i hroot hlt hb
  obtain hpk | hpk := eq_or_ne (T.par i) k
  · exact hpk ▸ hstop i hroot hlt hpk
  · exact h.except i hroot hlt hb hpk

theorem DownOrder.move (h : DownOrder T key a hi b k) (hb : b ≤ k) (hroot : T.root < j)
    (hj : j < hi)
    (hpar : T.par j = k) (hmax : ∀ i, T.root < i → i < hi → T.par i = k → key (a i) ≤ key (a j))
    (hlt : key (a k) < key (a j)) : DownOrder T key (swap a k j) hi b j := by
  have hkj : k < j := hpar ▸ T.par_lt j hroot
  constructor
  · intro i hi0 hi1 hbi hne
    have hlt' := T.par_lt i hi0
    obtain hpk | hpk := eq_or_ne (T.par i) k
    · rw [hpk, swap_left]
      obtain rfl | hij := eq_or_ne i j
      · rw [swap_right]
        exact hlt.le
      · rw [swap_other (hpk ▸ hlt').ne' hij]
        exact hmax i hi0 hi1 hpk
    · rw [swap_other hpk hne]
      obtain rfl | hik := eq_or_ne i k
      · rw [swap_left]
        exact h.grand hi0 hbi j hroot hj hpar
      · have hij : i ≠ j := fun heq => hpk (heq ▸ hpar)
        rw [swap_other hik hij]
        exact h.except i hi0 hi1 hbi hpk
  · intro _ _ i hi0 hi1 hpi
    have hji : j < i := hpi ▸ T.par_lt i hi0
    rw [hpar, swap_left, swap_other (hkj.trans hji).ne' hji.ne']
    exact hpi ▸ h.except i hi0 hi1 (hpi ▸ hb.trans hkj.le) (hpi ▸ hkj.ne')

/-- The entry at the end takes the place of the root. -/
theorem Ordered.pop (h : Ordered T key a (hi + 1)) (x : α) :
    DownOrder T key (update a T.root x) hi T.root T.root := by
  constructor
  · intro i hroot hlt _ hne
    rw [update_of_ne hroot.ne', update_of_ne hne]
    exact h i hroot (by omega)
  · exact fun hroot => absurd hroot (lt_irrefl _)

/-- One more position, before those in order. -/
theorem OrderedFrom.down (h : OrderedFrom T key a hi (b + 1)) : DownOrder T key a hi b b := by
  constructor
  · exact fun i hroot hlt hb hne => h i hroot hlt (by omega)
  · intro hroot hb
    have hlt := T.par_lt b hroot
    omega

/-! ## The entries -/

/-- The entry is in the heap. -/
def Mem (T : Shape) (a : ℕ → α) (hi : ℕ) (x : α) : Prop :=
  ∃ i, (T.root ≤ i ∧ i < hi) ∧ a i = x

theorem swap_inRange (hk : T.root ≤ k ∧ k < hi) (hj : T.root ≤ j ∧ j < hi)
    (hi₀ : T.root ≤ i ∧ i < hi) : T.root ≤ Equiv.swap k j i ∧ Equiv.swap k j i < hi := by
  rw [Equiv.swap_apply_def]
  split
  · exact hj
  · split
    · exact hk
    · exact hi₀

/-- A swap keeps the entries. -/
theorem mem_swap (hk : T.root ≤ k ∧ k < hi) (hj : T.root ≤ j ∧ j < hi) :
    Mem T (swap a k j) hi x ↔ Mem T a hi x := by
  constructor
  · rintro ⟨i, hi0, rfl⟩
    exact ⟨_, swap_inRange hk hj hi0, rfl⟩
  · rintro ⟨i, hi0, rfl⟩
    refine ⟨_, swap_inRange hk hj hi0, ?_⟩
    exact congrArg a (Equiv.swap_apply_self k j i)

theorem mem_push (hroot : T.root ≤ hi) :
    Mem T (update a hi x) (hi + 1) y ↔ y = x ∨ Mem T a hi y := by
  constructor
  · rintro ⟨i, ⟨hi0, hi1⟩, rfl⟩
    obtain rfl | hlt := (Nat.lt_succ_iff.1 hi1).eq_or_lt
    · exact Or.inl (update_self _ _ _)
    · exact Or.inr ⟨i, ⟨hi0, hlt⟩, (update_of_ne hlt.ne _ _).symm⟩
  · rintro (rfl | ⟨i, ⟨hi0, hi1⟩, rfl⟩)
    · exact ⟨hi, ⟨hroot, hi.lt_succ_self⟩, update_self _ _ _⟩
    · exact ⟨i, ⟨hi0, lt_succ_of_lt hi1⟩, update_of_ne hi1.ne _ _⟩

/-- Without the entry at the root, whose place the last one takes. -/
theorem mem_pop (hinj : Set.InjOn a {i | T.root ≤ i ∧ i < hi + 1}) (hroot : T.root ≤ hi) :
    Mem T (update a T.root (a hi)) hi y ↔ Mem T a (hi + 1) y ∧ y ≠ a T.root := by
  have hlast : hi ∈ {i | T.root ≤ i ∧ i < hi + 1} := ⟨hroot, hi.lt_succ_self⟩
  have hfirst : T.root ∈ {i | T.root ≤ i ∧ i < hi + 1} := ⟨le_rfl, lt_succ_of_le hroot⟩
  constructor
  · rintro ⟨i, ⟨hi0, hi1⟩, rfl⟩
    obtain rfl | hne := eq_or_ne i T.root
    · rw [update_self]
      exact ⟨⟨hi, hlast, rfl⟩, fun heq => hi1.ne' (hinj hlast hfirst heq)⟩
    · rw [update_of_ne hne]
      have hmem : i ∈ {i | T.root ≤ i ∧ i < hi + 1} := ⟨hi0, lt_succ_of_lt hi1⟩
      exact ⟨⟨i, hmem, rfl⟩, fun heq => hne (hinj hmem hfirst heq)⟩
  · rintro ⟨⟨i, ⟨hi0, hi1⟩, rfl⟩, hne⟩
    have hne' : i ≠ T.root := fun heq => hne (congrArg a heq)
    obtain rfl | hlt := (Nat.lt_succ_iff.1 hi1).eq_or_lt
    · exact ⟨T.root, ⟨le_rfl, lt_of_le_of_ne hi0 hne'.symm⟩, update_self _ _ _⟩
    · exact ⟨i, ⟨hi0, hlt⟩, update_of_ne hne' _ _⟩

/-! ## The index -/

/-- The index has the place of every entry but the one at `k`, and no entry is there twice. -/
structure ExactBut (T : Shape) (a : ℕ → α) (idx : α → ℕ) (hi k : ℕ) : Prop where
  injOn : Set.InjOn a {i | T.root ≤ i ∧ i < hi}
  exact : ∀ i, T.root ≤ i → i < hi → i ≠ k → idx (a i) = i

/-- The index has the place of every entry. -/
def Exact (T : Shape) (a : ℕ → α) (idx : α → ℕ) (hi : ℕ) : Prop :=
  ∀ i, T.root ≤ i → i < hi → idx (a i) = i

variable {idx : α → ℕ}

theorem Exact.injOn (h : Exact T a idx hi) : Set.InjOn a {i | T.root ≤ i ∧ i < hi} := by
  intro i hi0 j hj0 heq
  rw [← h i hi0.1 hi0.2, heq, h j hj0.1 hj0.2]

theorem Exact.but (h : Exact T a idx hi) : ExactBut T a idx hi k :=
  ⟨h.injOn, fun i hroot hlt _ => h i hroot hlt⟩

/-- The entry that moves has come to its place. -/
theorem ExactBut.finish [DecidableEq α] (h : ExactBut T a idx hi k) (hroot : T.root ≤ k)
    (hk : k < hi) : Exact T a (update idx (a k) k) hi := by
  intro i hi0 hi1
  obtain rfl | hne := eq_or_ne i k
  · exact update_self _ _ _
  · rw [update_of_ne fun heq => hne (h.injOn ⟨hi0, hi1⟩ ⟨hroot, hk⟩ heq), h.exact i hi0 hi1 hne]

/-- The entry swaps its place with another one, whose place is set. -/
theorem ExactBut.move [DecidableEq α] (h : ExactBut T a idx hi k) (hroot : T.root ≤ k) (hk : k < hi)
    (hroot' : T.root ≤ j) (hj : j < hi) : ExactBut T (swap a k j) (update idx (a j) k) hi j := by
  have hmaps := fun i => swap_inRange (T := T) (i := i) ⟨hroot, hk⟩ ⟨hroot', hj⟩
  refine ⟨fun i hi0 i' hi0' heq => ?_, fun i hi0 hi1 hne => ?_⟩
  · exact (Equiv.swap k j).injective (h.injOn (hmaps i hi0) (hmaps i' hi0') heq)
  · obtain rfl | hik := eq_or_ne i k
    · rw [swap_left, update_self]
    · rw [swap_other hik hne, update_of_ne fun heq => hne (h.injOn ⟨hi0, hi1⟩ ⟨hroot', hj⟩ heq)]
      exact h.exact i hi0 hi1 hik

/-- Two entries swap their places, and both places are set. -/
theorem Exact.swap [DecidableEq α] (h : Exact T a idx hi) (hk : T.root ≤ k ∧ k < hi)
    (hj : T.root ≤ j ∧ j < hi) : Exact T (swap a k j) (update (update idx (a j) k) (a k) j) hi := by
  have hmove := (h.but.move hk.1 hk.2 hj.1 hj.2).finish hj.1 hj.2
  rwa [swap_right] at hmove

/-- A new entry at the end. -/
theorem Exact.push (h : Exact T a idx hi) (hx : ∀ i, T.root ≤ i → i < hi → a i ≠ x) :
    ExactBut T (update a hi x) idx (hi + 1) hi := by
  have hother : ∀ i, i < hi → update a hi x i = a i := fun i hlt => update_of_ne hlt.ne _ _
  refine ⟨fun i hi0 j hj0 heq => ?_, fun i hi0 hi1 hne => ?_⟩
  · obtain ⟨hi0, hi1⟩ := hi0
    obtain ⟨hj0, hj1⟩ := hj0
    rcases (Nat.lt_succ_iff.1 hi1).eq_or_lt with rfl | hi1 <;>
      obtain rfl | hj1 := (Nat.lt_succ_iff.1 hj1).eq_or_lt
    · rfl
    · rw [update_self, hother j hj1] at heq
      exact absurd heq.symm (hx j hj0 hj1)
    · rw [update_self, hother i hi1] at heq
      exact absurd heq (hx i hi0 hi1)
    · rw [hother i hi1, hother j hj1] at heq
      exact h.injOn ⟨hi0, hi1⟩ ⟨hj0, hj1⟩ heq
  · have hlt : i < hi := by omega
    rw [hother i hlt]
    exact h i hi0 hlt

/-- The entry at the end takes the place of the root. -/
theorem Exact.pop (h : Exact T a idx (hi + 1)) (hroot : T.root ≤ hi) :
    ExactBut T (update a T.root (a hi)) idx hi T.root := by
  refine ⟨fun i hi0 j hj0 heq => ?_, fun i hi0 hi1 hne => ?_⟩
  · have hplace : ∀ i, T.root ≤ i → i < hi → ∃ i', T.root ≤ i' ∧ i' < hi + 1 ∧
        update a T.root (a hi) i = a i' ∧ (i = T.root ∧ i' = hi ∨ i ≠ T.root ∧ i' = i) := by
      intro i hi0 hi1
      obtain rfl | hne := eq_or_ne i T.root
      · exact ⟨hi, hroot, hi.lt_succ_self, update_self _ _ _, Or.inl ⟨rfl, rfl⟩⟩
      · exact ⟨i, hi0, by omega, update_of_ne hne _ _, Or.inr ⟨hne, rfl⟩⟩
    obtain ⟨i', hi'₀, hi'₁, hieq, hi'⟩ := hplace i hi0.1 hi0.2
    obtain ⟨j', hj'₀, hj'₁, hjeq, hj'⟩ := hplace j hj0.1 hj0.2
    have heq' : i' = j' := h.injOn ⟨hi'₀, hi'₁⟩ ⟨hj'₀, hj'₁⟩ (hieq ▸ hjeq ▸ heq)
    have hi1 := hi0.2
    have hj1 := hj0.2
    omega
  · rw [update_of_ne hne]
    exact h i hi0 (by omega)

end IndexedHeap
