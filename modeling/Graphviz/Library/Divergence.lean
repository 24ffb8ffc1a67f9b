import Mathlib.Algebra.BigOperators.Ring.List
import Mathlib.Data.List.Nodup
import Mathlib.Tactic.Ring

/-!
# Flows in a directed graph

The graph is given by the edges that leave and that enter each vertex. What a flow sends out of a
vertex less what it brings in is its divergence there. A flow weighs a potential along its edges as
its divergence weighs it at the vertices, so flows with one divergence weigh it alike.
-/

namespace Divergence

open List

universe u v w

variable {V : Type u} {E : Type v} {R : Type w} [CommRing R] {tail head : E → V}
  {out inn : V → List E} {vs : List V} {c c' : E → R} {a : V → R}

/-- What leaves a vertex, less what enters it. -/
def div (out inn : V → List E) (c : E → R) (v : V) : R :=
  ((out v).map c).sum - ((inn v).map c).sum

/-- The lists of some vertices have the same edges, each once where its ends are. -/
structure Incident (tail head : E → V) (out inn : V → List E) (vs : List V) : Prop where
  tail : ∀ v ∈ vs, ∀ e ∈ out v, tail e = v
  head : ∀ v ∈ vs, ∀ e ∈ inn v, head e = v
  nodup : (vs.flatMap out).Nodup
  perm : (vs.flatMap out).Perm (vs.flatMap inn)

theorem nodup_flatMap {f : V → List E} {b : E → V} (hnd : vs.Nodup) (hf : ∀ v ∈ vs, (f v).Nodup)
    (hb : ∀ v ∈ vs, ∀ e ∈ f v, b e = v) : (vs.flatMap f).Nodup :=
  List.nodup_flatMap.2 ⟨hf, hnd.imp_of_mem fun hx hy hxy e hex hey =>
    hxy ((hb _ hx e hex).symm.trans (hb _ hy e hey))⟩

theorem sum_map_sub {α : Type v} {l : List α} {f g : α → R} :
    (l.map fun x => f x - g x).sum = (l.map f).sum - (l.map g).sum := by
  induction l with
  | nil => simp
  | cons x l ih =>
    simp only [map_cons, sum_cons, ih]
    ring

theorem sum_map_ite_zero {α : Type v} {l : List α} {p : α → Prop} [DecidablePred p] {f : α → R} :
    (l.map fun x => if p x then f x else 0).sum = ((l.filter p).map f).sum := by
  simp [sum_map_ite]

theorem sum_flatMap {f : V → List E} {b : E → V} (hb : ∀ v ∈ vs, ∀ e ∈ f v, b e = v) :
    (vs.map fun v => a v * ((f v).map c).sum).sum =
      ((vs.flatMap f).map fun e => a (b e) * c e).sum := by
  induction vs with
  | nil => rfl
  | cons v vs ih =>
    have hv : (f v).map (fun e => a (b e) * c e) = (f v).map fun e => a v * c e :=
      map_congr_left fun e he => by rw [hb v mem_cons_self e he]
    rw [map_cons, sum_cons, flatMap_cons, map_append, sum_append, hv, sum_map_mul_left,
      ih fun v hv => hb v (mem_cons_of_mem _ hv)]

/-- A potential weighed with the divergence is the fall of the potential weighed with the flow. -/
theorem Incident.sum_mul_div (h : Incident tail head out inn vs) :
    (vs.map fun v => a v * div out inn c v).sum =
      ((vs.flatMap out).map fun e => c e * (a (tail e) - a (head e))).sum := by
  simp only [div, mul_sub]
  rw [sum_map_sub, sum_flatMap h.tail, sum_flatMap h.head, ← (h.perm.map _).sum_eq, ← sum_map_sub]
  exact congrArg sum (map_congr_left fun e _ => by ring)

/-- The divergence has no sum. -/
theorem Incident.sum_div (h : Incident tail head out inn vs) :
    (vs.map (div out inn c)).sum = 0 := by
  simpa using h.sum_mul_div (a := fun _ => (1 : R)) (c := c)

/-- Flows with one divergence weigh a potential alike. -/
theorem Incident.sum_eq (h : Incident tail head out inn vs)
    (hdiv : ∀ v ∈ vs, div out inn c v = div out inn c' v) (a : V → R) :
    ((vs.flatMap out).map fun e => c e * (a (tail e) - a (head e))).sum =
      ((vs.flatMap out).map fun e => c' e * (a (tail e) - a (head e))).sum := by
  rw [← h.sum_mul_div, ← h.sum_mul_div]
  exact congrArg sum (map_congr_left fun v hv => by rw [hdiv v hv])

end Divergence
