import Mathlib.Data.Nat.Init
import Mathlib.Logic.Basic

/-!
# Outcomes of fallible computations

`Meets x P E` says of a computation that returns or fails: if it returns, the result
satisfies `P`; if it fails, the failure satisfies `E`. The rules follow the shape of a `do`
block: a return, a failure, a sequence, a test, a loop over a list, and weakening.
-/

namespace Outcome

open List

universe u v w

variable {ε : Type u} {α : Type v} {β : Type v} {P Q : α → Prop} {E F : ε → Prop}

/-- Partial correctness with a postcondition for each way out. -/
def Meets (x : Except ε α) (P : α → Prop) (E : ε → Prop) : Prop :=
  match x with
  | .ok a => P a
  | .error e => E e

@[simp] theorem meets_ok {a : α} : Meets (.ok a) P E ↔ P a := Iff.rfl

/-- The sequence rule: the first part's postcondition is the second part's precondition. -/
theorem Meets.bind {x : Except ε α} {f : α → Except ε β} {R : β → Prop}
    (hx : Meets x P E) (hf : ∀ a, P a → Meets (f a) R E) : Meets (x >>= f) R E := by
  cases x with
  | ok a => exact hf a hx
  | error e => exact hx

/-- The rule of a function applied to the returned value. -/
theorem Meets.map {x : Except ε α} {f : α → β} {R : β → Prop} (hx : Meets x (fun a => R (f a)) E) :
    Meets (f <$> x) R E := by
  cases x with
  | ok a => exact hx
  | error e => exact hx

/-- The rule of consequence. -/
theorem Meets.mono {x : Except ε α} (hx : Meets x P E) (hP : ∀ a, P a → Q a)
    (hE : ∀ e, E e → F e) : Meets x Q F := by
  cases x with
  | ok a => exact hP a hx
  | error e => exact hE e hx

/-- The rule of consequence for the returned value alone. -/
theorem Meets.imp {x : Except ε α} (hx : Meets x P E) (hP : ∀ a, P a → Q a) : Meets x Q E :=
  hx.mono hP fun _ => id

/-- The postcondition may name the computation. -/
theorem Meets.self {x : Except ε α} (hx : Meets x P E) : Meets x (fun a => P a ∧ x = .ok a) E := by
  cases x with
  | ok a => exact ⟨hx, rfl⟩
  | error e => exact hx

/-- Two postconditions hold together. -/
theorem Meets.and {x : Except ε α} (hx : Meets x P E) (hx' : Meets x Q F) :
    Meets x (fun a => P a ∧ Q a) E := by
  cases x with
  | ok a => exact ⟨hx, hx'⟩
  | error e => exact hx

/-- A returned value satisfies the postcondition. -/
theorem Meets.of_ok {x : Except ε α} {a : α} (hx : Meets x P E) (h : x = .ok a) : P a := by
  subst h; exact hx

/-- A failure satisfies the failure condition. -/
theorem Meets.of_error {x : Except ε α} {e : ε} (hx : Meets x P E) (h : x = .error e) : E e := by
  subst h; exact hx

theorem ok_bind {a : α} {f : α → Except ε β} : (.ok a >>= f : Except ε β) = f a := rfl

/-- A sequence returns when both of its parts do. -/
theorem bind_eq_ok {x : Except ε α} {f : α → Except ε β} {b : β} :
    x >>= f = .ok b ↔ ∃ a, x = .ok a ∧ f a = .ok b := by
  cases x with
  | ok a => exact ⟨fun h => ⟨a, rfl, h⟩, fun ⟨_, ha, h⟩ => Except.ok.inj ha ▸ h⟩
  | error e => exact ⟨fun h => (nomatch h), fun ⟨_, ha, _⟩ => (nomatch ha)⟩

/-- A computation that cannot fail returns. -/
theorem Meets.exists_ok {x : Except ε α} (hx : Meets x P fun _ => False) :
    ∃ a, x = .ok a ∧ P a := by
  cases x with
  | ok a => exact ⟨a, rfl, hx⟩
  | error e => exact hx.elim

/-- The loop rule: what each iteration keeps, counted from the start of the range, holds after
the loop. -/
theorem Meets.range' {σ : Type v} (f : σ → Nat → Except ε σ) (start len : Nat) (I : Nat → σ → Prop)
    (step : ∀ k < len, ∀ s, I k s → Meets (f s (start + k)) (I (k + 1)) E) (s : σ)
    (h : I 0 s) : Meets ((List.range' start len).foldlM f s) (I len) E := by
  have aux : ∀ rest k s, k + rest = len → I k s →
      Meets ((List.range' (start + k) rest).foldlM f s) (I len) E := by
    intro rest
    induction rest with
    | zero => intro k s hk hs; rw [← hk]; exact hs
    | succ rest ih =>
      intro k s hk hs
      rw [range'_succ, foldlM_cons]
      exact (step k (by omega) s hs).bind fun s' hs' => ih (k + 1) s' (by omega) hs'
  exact aux len 0 s (by omega) h

/-- The loop rule over a list: an invariant of the items that remain and the state. -/
theorem Meets.foldlM {σ : Type v} {γ : Type w} {f : σ → γ → Except ε σ} {l : List γ}
    (I : List γ → σ → Prop)
    (step : ∀ x rest s, I (x :: rest) s → Meets (f s x) (I rest) E) (s : σ) (h : I l s) :
    Meets (l.foldlM f s) (I []) E := by
  induction l generalizing s with
  | nil => exact h
  | cons x l ih =>
    rw [foldlM_cons]
    exact (step x l s h).bind fun s' hs' => ih s' hs'

/-- A loop depends on its body at the items of the list alone. -/
theorem foldlM_congr {σ : Type v} {γ : Type w} {f g : σ → γ → Except ε σ} {l : List γ}
    (h : ∀ x ∈ l, ∀ s, f s x = g s x) (s : σ) : l.foldlM f s = l.foldlM g s := by
  induction l generalizing s with
  | nil => rfl
  | cons x l ih =>
    rw [foldlM_cons, foldlM_cons, h x mem_cons_self]
    exact congrArg _ (funext fun s => ih (fun y hy => h y (mem_cons_of_mem _ hy)) s)

/-- A loop whose steps all return is a fold. -/
theorem foldlM_eq_ok {σ : Type v} {γ : Type w} {f : σ → γ → Except ε σ} {g : σ → γ → σ}
    {l : List γ} (h : ∀ x ∈ l, ∀ s, f s x = .ok (g s x)) (s : σ) :
    l.foldlM f s = .ok (l.foldl g s) := by
  induction l generalizing s with
  | nil => rfl
  | cons x l ih =>
    rw [foldlM_cons, h x mem_cons_self, ok_bind, foldl_cons]
    exact ih (fun y hy => h y (mem_cons_of_mem _ hy)) _

/-- Two nested loops are one loop over the items of the inner one. -/
theorem foldlM_flatMap {σ : Type v} {γ δ : Type w} {f : σ → δ → Except ε σ} {k : γ → List δ}
    (l : List γ) (s : σ) : (l.flatMap k).foldlM f s = l.foldlM (fun s x => (k x).foldlM f s) s := by
  induction l generalizing s with
  | nil => rfl
  | cons x l ih =>
    rw [flatMap_cons, foldlM_append, foldlM_cons]
    exact congrArg _ (funext fun s => ih s)

end Outcome

/-!
## Computations that end

A computation with a bound on its loops, its fuel, ends when some amount of fuel is enough and
more of it does not change what is returned. The rules follow the shape of a `do` block.
-/

namespace Outcome

universe u v w

variable {ε : Type u} {α β : Type v} {γ : Type w} {P Q : α → Prop}

/-- With enough fuel the computation returns one value, which satisfies `P`. -/
def Ends (f : ℕ → Except ε α) (P : α → Prop) : Prop :=
  ∃ a, P a ∧ ∃ N, ∀ fuel, N ≤ fuel → f fuel = .ok a

/-- A returned value needs no fuel. -/
theorem Ends.ok {a : α} (h : P a) : Ends (fun _ => (.ok a : Except ε α)) P :=
  ⟨a, h, 0, fun _ _ => rfl⟩

/-- The rule of consequence. -/
theorem Ends.imp {f : ℕ → Except ε α} (hf : Ends f P) (h : ∀ a, P a → Q a) : Ends f Q := by
  obtain ⟨a, ha, hN⟩ := hf
  exact ⟨a, h a ha, hN⟩

/-- The sequence rule. -/
theorem Ends.bind {f : ℕ → Except ε α} {g : ℕ → α → Except ε β} {R : β → Prop}
    (hf : Ends f P) (hg : ∀ a, P a → Ends (fun fuel => g fuel a) R) :
    Ends (fun fuel => f fuel >>= g fuel) R := by
  obtain ⟨a, ha, N, hN⟩ := hf
  obtain ⟨b, hb, M, hM⟩ := hg a ha
  refine ⟨b, hb, N + M, fun fuel hfuel => ?_⟩
  have hf : f fuel = .ok a := hN fuel (by omega)
  have hg : g fuel a = .ok b := hM fuel (by omega)
  simp only [hf]
  exact hg

/-- The loop rule: the invariant speaks of the elements gone through. -/
theorem Ends.foldlM {f : ℕ → β → γ → Except ε β} {I : List γ → β → Prop} {l : List γ}
    (step : ∀ done a todo s, l = done ++ a :: todo → I done s →
      Ends (fun fuel => f fuel s a) (I (done ++ [a])))
    {s : β} (hs : I [] s) : Ends (fun fuel => l.foldlM (f fuel) s) (I l) := by
  have main : ∀ todo done s, l = done ++ todo → I done s →
      Ends (fun fuel => todo.foldlM (f fuel) s) (I l) := by
    intro todo
    induction todo with
    | nil =>
      intro done s hl hI
      rw [List.append_nil] at hl
      exact Ends.ok (hl ▸ hI)
    | cons a todo ih =>
      intro done s hl hI
      have h := (step done a todo s hl hI).bind fun s' hs' =>
        ih (done ++ [a]) s' (by rw [hl, List.append_assoc]; rfl) hs'
      exact h
  exact main l [] s rfl hs

end Outcome
