import Graphviz.Library.UnionFind
import Graphviz.Util.Fault

/-!
# Union-find on nodes (`common/utils.c`)

`UF_find` with path halving and `UF_union` by `ND_id`, on the fields `ND_UF_parent`,
`ND_UF_size` and `ND_id` of the nodes `0, …, n - 1`.
-/

namespace Graphviz

open Outcome UnionFind Function

variable {n : ℕ}

/-- The union-find fields of the nodes. -/
structure UF (n : ℕ) where
  id : Fin n → ℕ
  parent : Fin n → Option (Fin n)
  size : Fin n → ℤ

namespace UF

/-- The loop of `UF_find`. -/
def findLoop : ℕ → UF n → Fin n → Except Fault (UF n × Fin n)
  | 0, _, _ => .error .fuel
  | k + 1, uf, v =>
    match uf.parent v with
    | none => .ok (uf, v)
    | some q =>
      if q = v then .ok (uf, v)
      else
        match uf.parent q with
        | some r => findLoop k { uf with parent := update uf.parent v (some r) } r
        | none => findLoop k uf q

/-- `UF_find`. -/
def find (uf : UF n) (v : Fin n) : Except Fault (UF n × Fin n) :=
  findLoop n uf v

/-- The first test of `UF_union`: a node without a parent becomes its own, and any other is
replaced by its root. -/
def root (uf : UF n) (u : Fin n) : Except Fault (UF n × Fin n) :=
  if uf.parent u = none then
    .ok ({ uf with parent := update uf.parent u (some u), size := update uf.size u 1 }, u)
  else uf.find u

/-- `UF_union`. -/
def union (uf : UF n) (u v : Fin n) : Except Fault (UF n × Fin n) :=
  if u = v then .ok (uf, u)
  else do
    let (uf, u) ← uf.root u
    let (uf, v) ← uf.root v
    if u = v then .ok (uf, u)
    else if uf.id u > uf.id v then
      .ok ({ uf with
        parent := update uf.parent u (some v)
        size := update uf.size v (uf.size v + uf.size u) }, v)
    else
      .ok ({ uf with
        parent := update uf.parent v (some u)
        size := update uf.size u (uf.size u + uf.size v) }, u)

/-! ## Specifications -/

variable {uf : UF n} {f : Fin n → Fin n}

/-- With more steps than the depth of the node, the loop returns the node's root and changes no
class. -/
theorem findLoop_spec {k d : ℕ} {v r : Fin n} (hf : Represents uf.parent f)
    (hv : HasRoot uf.parent d v r) (hd : d < k) :
    Meets (findLoop k uf v) (fun x => Represents x.1.parent f ∧ x.2 = r) fun _ => False := by
  induction k generalizing uf d v with
  | zero => omega
  | succ k ih =>
    unfold findLoop
    cases hv with
    | root hr =>
      obtain hr | hr := hr
      · rw [hr]; exact ⟨hf, rfl⟩
      · simp only [hr, if_true]; exact ⟨hf, rfl⟩
    | @step d _ q _ hq hqv hd' =>
      rw [hq]
      simp only
      rw [if_neg hqv]
      cases hp : uf.parent q with
      | none =>
        exact ih hf hd' (by omega)
      | some t =>
        have hf' := hf.halve hq hqv hp
        -- the grandparent is no deeper than the parent
        cases hd' with
        | root hr =>
          have htr : t = r := by rcases hr with hr | hr <;> simp_all
          subst htr
          have hroot : HasRoot (update uf.parent v (some t)) 0 t t :=
            .root (by rw [IsRoot, update_of_ne hqv]; exact hr)
          exact ih hf' hroot (by omega)
        | @step e _ s _ hqs _ hs =>
          rw [hp] at hqs
          obtain rfl := Option.some.inj hqs
          obtain ⟨l, hl, hl'⟩ := hs.halve hq hqv hp
          exact ih hf' hl' (by omega)

/-- `UF_find` returns the root of the node's class and changes no class. -/
theorem find_spec (hf : Represents uf.parent f) (v : Fin n) :
    Meets (uf.find v) (fun x => Represents x.1.parent f ∧ x.2 = f v) fun _ => False := by
  obtain ⟨d, hd⟩ := hf v
  have hlt := hd.lt_card
  rw [Fintype.card_fin] at hlt
  exact findLoop_spec hf hd hlt

/-- The first test of `UF_union` finds the root of the class. -/
theorem root_spec (hf : Represents uf.parent f) (u : Fin n) :
    Meets (uf.root u) (fun x => Represents x.1.parent f ∧ x.2 = f u) fun _ => False := by
  unfold root
  split
  next hu =>
    have hroot : IsRoot uf.parent u := Or.inl hu
    exact ⟨hf.self hroot, (hf.of_isRoot hroot).symm⟩
  next => exact find_spec hf u

/-- `UF_union` joins the classes of its arguments and returns a member of the joint class. -/
theorem union_spec {R : Fin n → Fin n → Prop} (hf : Represents uf.parent f) (hR : Tracks f R)
    (u v : Fin n) :
    Meets (uf.union u v)
      (fun x => ∃ f', Represents x.1.parent f' ∧
        Tracks f' (fun a b => R a b ∨ (a = u ∧ b = v)) ∧ f' x.2 = f' u)
      fun _ => False := by
  have same : f u = f v → Tracks f fun a b => R a b ∨ (a = u ∧ b = v) := by
    intro huv
    refine hR.congr (fun a b hab => .rel _ _ (Or.inl hab)) fun a b hab => ?_
    obtain hab | ⟨rfl, rfl⟩ := hab
    · exact .rel _ _ hab
    · exact (hR _ _).1 huv
  unfold union
  split
  next huv => exact ⟨f, hf, same (by rw [huv]), rfl⟩
  next =>
    refine (root_spec hf u).bind fun ⟨uf1, u'⟩ ⟨hf1, hu⟩ => ?_
    refine (root_spec hf1 v).bind fun ⟨uf2, v'⟩ ⟨hf2, hv⟩ => ?_
    simp only at hf2 hu hv ⊢
    subst hu hv
    have hru : IsRoot uf2.parent (f u) := hf2.isRoot u
    have hrv : IsRoot uf2.parent (f v) := hf2.isRoot v
    split
    next huv => exact ⟨f, hf2, same huv, hf2.idem u⟩
    next huv =>
      split
      next =>
        refine ⟨_, hf2.link hrv hru (Ne.symm huv), hR.link (Or.inr rfl) (Or.inl rfl) huv, ?_⟩
        rw [hf2.idem v, if_pos rfl, if_neg (Ne.symm huv)]
      next =>
        refine ⟨_, hf2.link hru hrv huv, hR.link (Or.inl rfl) (Or.inr rfl) huv, ?_⟩
        rw [hf2.idem u]

end UF

end Graphviz
