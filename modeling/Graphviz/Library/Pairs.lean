import Mathlib.Data.Finset.Sym
import Mathlib.Tactic.Abel

/-!
# Sums over pairs

What a symmetric function amounts to over the unordered pairs of different members of a set, and the
same sum as two nested loops over a list go through the pairs: each item with the items after it.
-/

namespace Pairs

open List

universe u v w

variable {ι : Type u} {κ : Type v} {M : Type w} [AddCommMonoid M] {f g : ι → ι → M} {L A B : List ι}

/-- The sum over the unordered pairs of different members. -/
def sum [DecidableEq ι] (E : Finset ι) (f : ι → ι → M) (hf : ∀ a b, f a b = f b a) : M :=
  ∑ z ∈ E.sym2 with ¬ z.IsDiag, Sym2.lift ⟨f, hf⟩ z

/-- The sum over the pairs of a list: each item with those after it. -/
def listSum (f : ι → ι → M) : List ι → M
  | [] => 0
  | a :: L => (L.map (f a)).sum + listSum f L

theorem sum_insert [DecidableEq ι] {E : Finset ι} {a : ι} (ha : a ∉ E) (hf : ∀ a b, f a b = f b a) :
    sum (insert a E) f hf = ∑ b ∈ E, f a b + sum E f hf := by
  have hset : {z ∈ (insert a E).sym2 | ¬ z.IsDiag} =
      E.image (fun b => s(a, b)) ∪ {z ∈ E.sym2 | ¬ z.IsDiag} := by
    rw [Finset.sym2_insert, Finset.filter_union, Finset.image_insert, Finset.filter_insert,
      if_neg (by simp)]
    congr 1
    refine Finset.filter_true_of_mem fun z hz => ?_
    obtain ⟨b, hb, rfl⟩ := Finset.mem_image.1 hz
    rw [Sym2.mk_isDiag_iff]
    exact fun hab => ha (hab ▸ hb)
  have hdisj : Disjoint (E.image fun b => s(a, b)) {z ∈ E.sym2 | ¬ z.IsDiag} := by
    rw [Finset.disjoint_left]
    intro z hz hz'
    obtain ⟨b, hb, rfl⟩ := Finset.mem_image.1 hz
    exact ha (Finset.mem_sym2_iff.1 (Finset.mem_filter.1 hz').1 a (Sym2.mem_mk_left a b))
  rw [sum, hset, Finset.sum_union hdisj, Finset.sum_image fun b _ c _ hbc => Sym2.congr_right.1 hbc]
  rfl

/-- The loops over a list come to each pair once. -/
theorem sum_toFinset [DecidableEq ι] (hf : ∀ a b, f a b = f b a) (hL : L.Nodup) :
    sum L.toFinset f hf = listSum f L := by
  induction L with
  | nil => rfl
  | cons a L ih =>
    obtain ⟨ha, hL⟩ := nodup_cons.1 hL
    rw [toFinset_cons, sum_insert (by rwa [mem_toFinset]), ih hL,
      List.sum_toFinset _ hL, listSum]

theorem sum_add [DecidableEq ι] {E : Finset ι} (hf : ∀ a b, f a b = f b a)
    (hg : ∀ a b, g a b = g b a) :
    sum E (fun a b => f a b + g a b) (fun a b => by rw [hf, hg]) = sum E f hf + sum E g hg := by
  rw [sum, sum, sum, ← Finset.sum_add_distrib]
  refine Finset.sum_congr rfl fun z _ => ?_
  induction z with
  | _ a b => rfl

theorem listSum_eq_zero (h : ∀ a ∈ L, ∀ b ∈ L, f a b = 0) : listSum f L = 0 := by
  induction L with
  | nil => rfl
  | cons a L ih =>
    rw [listSum, ih fun b hb c hc => h b (mem_cons_of_mem a hb) c (mem_cons_of_mem a hc),
      add_zero]
    refine sum_eq_zero fun x hx => ?_
    obtain ⟨b, hb, rfl⟩ := mem_map.1 hx
    exact h a mem_cons_self b (mem_cons_of_mem a hb)

theorem listSum_congr (h : ∀ a ∈ L, ∀ b ∈ L, f a b = g a b) : listSum f L = listSum g L := by
  induction L with
  | nil => rfl
  | cons a L ih =>
    have hmap : L.map (f a) = L.map (g a) :=
      map_congr_left fun b hb => h a mem_cons_self b (mem_cons_of_mem a hb)
    rw [listSum, listSum, hmap,
      ih fun b hb c hc => h b (mem_cons_of_mem a hb) c (mem_cons_of_mem a hc)]

/-- Over all ordered pairs, each pair is met in both orders and each item with itself. -/
theorem sum_sum_map {w : ι → ι → M} :
    (L.map fun a => (L.map (w a)).sum).sum =
      listSum (fun a b => w a b + w b a) L + (L.map fun a => w a a).sum := by
  induction L with
  | nil => rw [map_nil, map_nil, sum_nil, listSum, add_zero]
  | cons a L ih =>
    simp only [map_cons, sum_cons, sum_map_add, ih, listSum]
    abel

/-- Pairs within two lists, and across. -/
theorem listSum_append :
    listSum f (A ++ B) = listSum f A + (A.map fun a => (B.map (f a)).sum).sum + listSum f B := by
  induction A with
  | nil => rw [nil_append, listSum, map_nil, sum_nil, zero_add, zero_add]
  | cons a A ih =>
    rw [cons_append, listSum, ih, listSum, map_append, sum_append, map_cons, sum_cons]
    simp only [add_assoc, add_left_comm, add_comm]

/-- The pairs of a list of blocks, when pairs across two blocks do not count. -/
theorem listSum_flatMap {K : List κ} {k : κ → List ι} (hK : K.Nodup)
    (h : ∀ x ∈ K, ∀ y ∈ K, x ≠ y → ∀ a ∈ k x, ∀ b ∈ k y, f a b = 0) :
    listSum f (K.flatMap k) = (K.map fun x => listSum f (k x)).sum := by
  induction K with
  | nil => rfl
  | cons x K ih =>
    obtain ⟨hx, hK⟩ := nodup_cons.1 hK
    have hcross : ((k x).map fun a => ((K.flatMap k).map (f a)).sum).sum = 0 := by
      refine sum_eq_zero fun s hs => ?_
      obtain ⟨a, ha, rfl⟩ := mem_map.1 hs
      refine sum_eq_zero fun t ht => ?_
      obtain ⟨b, hb, rfl⟩ := mem_map.1 ht
      obtain ⟨y, hy, hb⟩ := mem_flatMap.1 hb
      exact h x mem_cons_self y (mem_cons_of_mem x hy) (fun hxy => hx (hxy ▸ hy)) a ha b hb
    rw [flatMap_cons, listSum_append, hcross, add_zero, map_cons, sum_cons,
      ih hK fun y hy z hz => h y (mem_cons_of_mem x hy) z (mem_cons_of_mem x hz)]

/-- Sums over two lists may be taken in either order. -/
theorem sum_map_comm {K : List κ} {h : ι → κ → M} :
    (L.map fun a => (K.map (h a)).sum).sum = (K.map fun x => (L.map (h · x)).sum).sum := by
  induction L with
  | nil => simp
  | cons a L ih => rw [map_cons, sum_cons, ih, ← sum_map_add]; rfl

/-- Weights that are counted by key, and the counts summed over some keys. -/
theorem sum_count [DecidableEq κ] {K : List κ} (hK : K.Nodup) (key : ι → κ) (w : ι → M) :
    (K.map fun k => (L.map fun a => if key a = k then w a else 0).sum).sum =
      (L.map fun a => if key a ∈ K then w a else 0).sum := by
  rw [sum_map_comm]
  refine congrArg List.sum (map_congr_left fun a _ => ?_)
  induction K with
  | nil => rfl
  | cons k K ih =>
    obtain ⟨hk, hK⟩ := nodup_cons.1 hK
    rw [map_cons, sum_cons, ih hK]
    by_cases hak : key a = k
    · rw [if_pos hak, if_neg (by rwa [hak]), if_pos (by simp [hak]), add_zero]
    · rw [if_neg hak, zero_add]
      simp only [mem_cons, hak, false_or]

/-- A loop that adds something for some of the items. -/
theorem foldl_add_ite (P : ι → Prop) [DecidablePred P] (w : ι → M) (c : M) :
    L.foldl (fun c a => if P a then c + w a else c) c =
      c + (L.map fun a => if P a then w a else 0).sum := by
  induction L generalizing c with
  | nil => simp
  | cons a L ih =>
    rw [foldl_cons, ih, map_cons, sum_cons]
    by_cases ha : P a
    · rw [if_pos ha, if_pos ha, add_assoc]
    · rw [if_neg ha, if_neg ha, zero_add]

end Pairs
