import Mathlib.Algebra.BigOperators.Fin
import Mathlib.Algebra.Group.End
import Mathlib.Data.Int.CardIntervalMod

/-!
# Random numbers below a bound, random permutations

`gv_random` takes raw values, of `rand` or eight bytes long, until one is at most a threshold, and
returns its residue. `rand` is a list of values up to `RAND_MAX`. An unsigned or signed operation
that leaves its type returns nothing.
-/

namespace Graphviz.Random

open Equiv Finset Nat

/-! ## The functions -/

def INT_MAX : ℕ := 2 ^ 31 - 1
def UINT_MAX : ℕ := 2 ^ 32 - 1
def UINT64_MAX : ℕ := 2 ^ 64 - 1

/-- A sum in a type whose greatest value is `max`. -/
def sum (max a b : ℕ) : Option ℕ := if a + b ≤ max then some (a + b) else none

/-- A difference of values that are not negative. -/
def minus (a b : ℕ) : Option ℕ := if b ≤ a then some (a - b) else none

/-- `discard_threshold` of `random_small` -/
def random_small_threshold (RAND_MAX bound : ℕ) : Option ℕ := do
  let rest := (← sum UINT_MAX RAND_MAX 1) % bound
  -- the cast to `int`
  let rest ← sum INT_MAX rest 0
  minus RAND_MAX rest

/-- `discard_threshold` of `gv_random_u64` -/
def gv_random_u64_threshold (bound : ℕ) : Option ℕ := do
  let rest := (← sum UINT64_MAX (← minus UINT64_MAX bound) 1) % bound
  minus UINT64_MAX rest

/-- The loop of both: draw raw values until one is not above the threshold. -/
def resample (draw : List ℕ → Option (ℕ × List ℕ)) (discard_threshold : ℕ) :
    ℕ → List ℕ → Option (ℕ × List ℕ)
  | 0, _ => none
  | fuel + 1, raw => do
    let (r, raw) ← draw raw
    if r > discard_threshold then resample draw discard_threshold fuel raw else some (r, raw)

/-- `rand` -/
def rand : List ℕ → Option (ℕ × List ℕ)
  | [] => none
  | r :: raw => some (r, raw)

/-- `random_small` -/
def random_small (RAND_MAX bound : ℕ) (raw : List ℕ) : Option (ℕ × List ℕ) := do
  guard (0 < bound ∧ bound ≤ RAND_MAX)
  let t ← random_small_threshold RAND_MAX bound
  let (r, raw) ← resample rand t raw.length raw
  return (r % bound, raw)

/-- A value of `k` random bytes, the lowest first. -/
def randomBytes (RAND_MAX : ℕ) : ℕ → List ℕ → Option (ℕ × List ℕ)
  | 0, raw => some (0, raw)
  | k + 1, raw => do
    let (byte, raw) ← random_small RAND_MAX 256 raw
    let (r, raw) ← randomBytes RAND_MAX k raw
    return (byte + 256 * r, raw)

/-- `gv_random_u64` -/
def gv_random_u64 (RAND_MAX bound : ℕ) (raw : List ℕ) : Option (ℕ × List ℕ) := do
  guard (0 < bound)
  let t ← gv_random_u64_threshold bound
  let (r, raw) ← resample (randomBytes RAND_MAX 8) t raw.length raw
  return (r % bound, raw)

/-- `gv_random` -/
def gv_random (RAND_MAX bound : ℕ) (raw : List ℕ) : Option (ℕ × List ℕ) :=
  if bound > RAND_MAX then gv_random_u64 RAND_MAX bound raw else random_small RAND_MAX bound raw

/-- The shuffle of `gv_permutation` from `p[i]` down; `draws` are the values that `gv_random`
returns. -/
def shuffle {n : ℕ} : ℕ → List ℕ → (Fin n → ℕ) → Option (Fin n → ℕ)
  | 0, _, p => some p
  | _ + 1, [], _ => none
  | i + 1, j :: draws, p =>
    if h : i + 1 < n ∧ j < n then shuffle i draws (p ∘ swap ⟨i + 1, h.1⟩ ⟨j, h.2⟩) else none

/-- `gv_permutation` -/
def gv_permutation (bound : ℕ) (draws : List ℕ) : Option (Fin bound → ℕ) :=
  if bound = 0 then none else shuffle (bound - 1) draws fun i => i

/-! ## The thresholds -/

/-- The raw values up to `t`, among those below `raws`, are at least half of them, and each residue
is that of as many of them as any other. -/
def Unbiased (raws t bound : ℕ) : Prop :=
  (∀ c < bound, #{r ∈ range raws | r ≤ t ∧ r % bound = c} = (t + 1) / bound) ∧
    raws ≤ 2 * #{r ∈ range raws | r ≤ t}

/-- The complete chunks of `bound` values. -/
theorem unbiased_chunks {raws t bound : ℕ} (hb : 0 < bound) (hle : bound ≤ raws)
    (ht : t + 1 = raws - raws % bound) : Unbiased raws t bound := by
  have hmod := mod_lt raws hb
  have hdiv := div_add_mod raws bound
  have hpos : 0 < raws / bound := Nat.div_pos hle hb
  have ht1 : t + 1 = bound * (raws / bound) := by omega
  have hfilter : ∀ p : ℕ → Prop, [DecidablePred p] →
      #{r ∈ range raws | r ≤ t ∧ p r} = #{r ∈ range (t + 1) | p r} := by
    intro p _
    congr 1
    ext r
    simp only [mem_filter, mem_range]
    constructor
    · exact fun ⟨_, hr, hp⟩ => ⟨lt_succ_of_le hr, hp⟩
    · exact fun ⟨hr, hp⟩ => ⟨by omega, le_of_lt_succ hr, hp⟩
  constructor
  · intro c hc
    rw [hfilter, ht1, Nat.mul_div_cancel_left _ hb]
    have hcount := count_modEq_card (bound * (raws / bound)) hb c
    rw [count_eq_card_filter_range, mul_mod_right, if_neg (Nat.not_lt_zero _), add_zero,
      Nat.mul_div_cancel_left _ hb] at hcount
    simpa only [ModEq, mod_eq_of_lt hc] using hcount
  · have hall := hfilter fun _ => True
    simp only [and_true, filter_true, card_range] at hall
    rw [hall, ht1]
    nlinarith

theorem random_small_threshold_spec {RAND_MAX bound : ℕ} (hR : RAND_MAX ≤ INT_MAX)
    (hb : 0 < bound) (hle : bound ≤ RAND_MAX) :
    ∃ t, random_small_threshold RAND_MAX bound = some t ∧ Unbiased (RAND_MAX + 1) t bound := by
  have hmod := mod_lt (RAND_MAX + 1) hb
  refine ⟨RAND_MAX - (RAND_MAX + 1) % bound, ?_, unbiased_chunks hb (by omega) (by omega)⟩
  have hsum : RAND_MAX + 1 ≤ UINT_MAX := by unfold INT_MAX UINT_MAX at *; omega
  have hrest : (RAND_MAX + 1) % bound ≤ INT_MAX := by omega
  have hminus : (RAND_MAX + 1) % bound ≤ RAND_MAX := by omega
  simp only [random_small_threshold, sum, minus, Option.bind_eq_bind, if_pos hsum,
    Option.bind_some, add_zero, if_pos hrest, if_pos hminus]

theorem gv_random_u64_threshold_spec {bound : ℕ} (hb : 0 < bound) (hle : bound ≤ UINT64_MAX) :
    ∃ t, gv_random_u64_threshold bound = some t ∧ Unbiased (UINT64_MAX + 1) t bound := by
  have hmod := mod_lt (UINT64_MAX - bound + 1) hb
  have hrest : (UINT64_MAX + 1) % bound = (UINT64_MAX - bound + 1) % bound := by
    rw [← add_mod_right (UINT64_MAX - bound + 1)]
    congr 1
    omega
  refine ⟨UINT64_MAX - (UINT64_MAX - bound + 1) % bound, ?_,
    unbiased_chunks hb (by omega) (by rw [hrest]; omega)⟩
  have hsum : UINT64_MAX - bound + 1 ≤ UINT64_MAX := by omega
  have hminus : (UINT64_MAX - bound + 1) % bound ≤ UINT64_MAX := by omega
  simp only [gv_random_u64_threshold, sum, minus, Option.bind_eq_bind, if_pos hle,
    Option.bind_some, if_pos hsum, if_pos hminus]

/-! ## Runs -/

/-- The sequences of `k` raw values. -/
def rawValues (RAND_MAX : ℕ) : ℕ → Multiset (List ℕ)
  | 0 => {[]}
  | k + 1 => (range (RAND_MAX + 1)).val.bind fun r => (rawValues RAND_MAX k).map (r :: ·)

/-- How many sequences of `k` raw values make `random_small` return `c` and leave `rest`. -/
def ways (RAND_MAX bound k : ℕ) (rest : List ℕ) (c : ℕ) : ℕ :=
  ((rawValues RAND_MAX k).map (random_small RAND_MAX bound)).count (some (c, rest))

theorem random_small_cons {RAND_MAX bound t : ℕ} (hb : 0 < bound ∧ bound ≤ RAND_MAX)
    (ht : random_small_threshold RAND_MAX bound = some t) (r : ℕ) (raw : List ℕ) :
    random_small RAND_MAX bound (r :: raw) =
      if r ≤ t then some (r % bound, raw) else random_small RAND_MAX bound raw := by
  by_cases hr : r ≤ t <;>
    simp [random_small, resample, rand, guard, hb, ht, hr, not_lt.2, not_le.1]

/-- Of the sequences of raw values, as many make `random_small` return one number as another. -/
theorem random_small_uniform {RAND_MAX bound : ℕ} (hmax : RAND_MAX ≤ INT_MAX) (hb : 0 < bound)
    (hle : bound ≤ RAND_MAX) (k : ℕ) (rest : List ℕ) {c d : ℕ} (hc : c < bound) (hd : d < bound) :
    ways RAND_MAX bound k rest c = ways RAND_MAX bound k rest d := by
  obtain ⟨t, ht, hres, -⟩ := random_small_threshold_spec hmax hb hle
  induction k with
  | zero => simp [ways, rawValues, random_small, ht, resample]
  | succ k ih =>
    -- the first value gives this result, or another one, or is left out
    have hsucc : ∀ c < bound, ways RAND_MAX bound (k + 1) rest c =
        ((t + 1) / bound) • (rawValues RAND_MAX k).count rest +
          #{r ∈ range (RAND_MAX + 1) | ¬ r ≤ t} • ways RAND_MAX bound k rest c := by
      intro c hc
      rw [← hres c hc, ← sum_const, ← sum_const, sum_filter, sum_filter, ← sum_add_distrib,
        ways, rawValues, Multiset.map_bind, Multiset.count_bind]
      refine congrArg Multiset.sum (Multiset.map_congr rfl fun r _ => ?_)
      simp only [Multiset.map_map, Function.comp_def, random_small_cons ⟨hb, hle⟩ ht]
      by_cases hr : r ≤ t
      · by_cases hrc : r % bound = c
        · simp [hr, hrc, Multiset.count_map, Multiset.filter_eq]
        · simp [hr, hrc]
      · simp [hr, ways]
    rw [hsucc c hc, hsucc d hd, ih]

theorem random_small_uniform_die : ways 32767 6 9 [] 0 = ways 32767 6 9 [] 5 :=
  random_small_uniform (by decide) (by decide) (by decide) 9 [] (by decide) (by decide)

/-! ## Permutations -/

variable {n i : ℕ}

/-- The draws for `p[i]` down to `p[1]`. -/
def Draws : ℕ → List ℕ → Prop
  | 0, draws => draws = []
  | _ + 1, [] => False
  | i + 1, j :: draws => j ≤ i + 1 ∧ Draws i draws

/-- A permutation of the entries up to the one numbered `i`. -/
def Fixes (i : ℕ) (σ : Perm (Fin n)) : Prop := ∀ k : Fin n, i < k → σ k = k

/-- The draws make a permutation, which leaves what is above `i` alone. -/
theorem shuffle_eq {draws : List ℕ} (hi : i < n) (hd : Draws i draws) (p : Fin n → ℕ) :
    ∃ σ : Perm (Fin n), Fixes i σ ∧ shuffle i draws p = some (p ∘ σ) := by
  induction i generalizing draws p with
  | zero => exact ⟨1, fun _ _ => rfl, by rw [shuffle]; rfl⟩
  | succ i ih =>
    cases draws with
    | nil => exact hd.elim
    | cons j draws =>
      obtain ⟨hj, hd⟩ := hd
      have hlt : i + 1 < n ∧ j < n := ⟨hi, by omega⟩
      obtain ⟨σ, hσ, heq⟩ := ih (by omega) hd (p ∘ swap ⟨i + 1, hlt.1⟩ ⟨j, hlt.2⟩)
      refine ⟨swap ⟨i + 1, hlt.1⟩ ⟨j, hlt.2⟩ * σ, fun k hk => ?_, ?_⟩
      · rw [Perm.mul_apply, hσ k (by omega)]
        exact swap_apply_of_ne_of_ne (Fin.ne_of_val_ne (by simp; omega))
          (Fin.ne_of_val_ne (by simp; omega))
      · rw [shuffle, dif_pos hlt, heq]
        rfl

theorem Fixes.le {σ : Perm (Fin n)} (h : Fixes i σ) {k : Fin n} (hk : k ≤ i) : σ k ≤ i := by
  by_contra hlt
  have hfix := σ.injective (h (σ k) (not_le.1 hlt))
  rw [hfix] at hlt
  exact hlt hk

/-- Every permutation of the entries up to `i` comes from one sequence of draws. -/
theorem existsUnique_draws {p : Fin n → ℕ} (hp : p.Injective) (hi : i < n) {σ : Perm (Fin n)}
    (hσ : Fixes i σ) : ∃! draws, Draws i draws ∧ shuffle i draws p = some (p ∘ σ) := by
  induction i generalizing p σ with
  | zero =>
    have hone : p = p ∘ σ := funext fun k => by
      obtain hk | hk := Nat.eq_zero_or_pos k
      · exact congrArg p (Fin.ext (hk.trans (le_zero.1 (hσ.le hk.le)).symm))
      · exact congrArg p (hσ k hk).symm
    exact ⟨[], ⟨rfl, by rw [shuffle, ← hone]⟩, fun _ h => h.1⟩
  | succ i ih =>
    let a : Fin n := ⟨i + 1, hi⟩
    have hfix : Fixes i (swap a (σ a) * σ) := fun k hk => by
      obtain rfl | hne := eq_or_ne k a
      · exact swap_apply_right _ _
      · have hgt : a < k := lt_of_le_of_ne hk hne.symm
        rw [Perm.mul_apply, hσ k hgt]
        exact swap_apply_of_ne_of_ne hne fun h => hne (σ.injective ((hσ k hgt).trans h))
    have htarget : p ∘ swap a (σ a) ∘ (swap a (σ a) * σ) = p ∘ σ := by
      funext k
      simp
    obtain ⟨draws, ⟨hd, heq⟩, huniq⟩ := ih (hp.comp (swap a (σ a)).injective) (by omega) hfix
    refine ⟨(σ a : ℕ) :: draws, ⟨⟨hσ.le (k := a) le_rfl, hd⟩, ?_⟩, ?_⟩
    · rw [shuffle, dif_pos ⟨hi, (σ a).2⟩]
      exact heq.trans (congrArg some htarget)
    rintro (_ | ⟨j, draws'⟩) ⟨hd', heq'⟩
    · exact hd'.elim
    obtain ⟨hj, hd'⟩ := hd'
    have hlt : i + 1 < n ∧ j < n := ⟨hi, by omega⟩
    rw [shuffle, dif_pos hlt] at heq'
    -- the entry `i + 1` is not touched again, so it tells the first draw
    obtain ⟨τ, hτ, heqτ⟩ := shuffle_eq (by omega) hd' (p ∘ swap ⟨i + 1, hlt.1⟩ ⟨j, hlt.2⟩)
    have ha := congrFun (Option.some.inj (heqτ.symm.trans heq')) a
    have hja : (⟨j, hlt.2⟩ : Fin n) = σ a := hp (by simpa [hτ a (lt_succ_self i), a] using ha)
    rw [hja] at heq'
    exact congrArg₂ List.cons (congrArg Fin.val hja)
      (huniq draws' ⟨hd', heq'.trans (congrArg some htarget.symm)⟩)

/-! ## Both together -/

/-- The threshold of the loop that `gv_random` enters. -/
def discard_threshold (RAND_MAX bound : ℕ) : Option ℕ :=
  if bound > RAND_MAX then gv_random_u64_threshold bound else random_small_threshold RAND_MAX bound

end Graphviz.Random
