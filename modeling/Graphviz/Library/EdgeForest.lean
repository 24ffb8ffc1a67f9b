import Mathlib.Algebra.Order.Ring.Int
import Mathlib.Data.List.Nodup
import Mathlib.Tactic.Common

/-!
# Trees that hang from edges

A forest with an edge above each vertex. It hangs from a list of edges and vertices if its trees
are those below them, when each vertex has the list of the edges that lead on from it. A search
numbers a vertex when it leaves it, so a tree has the numbers of an interval.
-/

universe u v

/-- The first tree, by the edge above it, its vertex and what is below, and the other trees. -/
inductive EdgeForest (E : Type u) (V : Type v) where
  | nil
  | cons (e : E) (v : V) (below after : EdgeForest E V)

namespace EdgeForest

open List

variable {E : Type u} {V : Type v} {F : EdgeForest E V} {L : List (E × V)} {e : E} {u v : V}

/-- The vertices. -/
def verts : EdgeForest E V → List V
  | nil => []
  | cons _ v below after => v :: verts below ++ verts after

/-- The number of vertices. -/
def size (F : EdgeForest E V) : ℕ := F.verts.length

@[simp] theorem size_nil : (nil : EdgeForest E V).size = 0 := rfl

@[simp] theorem size_cons (F G : EdgeForest E V) : (cons e v F G).size = F.size + 1 + G.size := by
  simp [size, verts]
  omega

theorem nodup_cons (F G : EdgeForest E V) : (cons e v F G).verts.Nodup ↔
    v ∉ F.verts ∧ v ∉ G.verts ∧ F.verts.Nodup ∧ G.verts.Nodup ∧ F.verts.Disjoint G.verts := by
  simp [verts, nodup_append', and_assoc]

theorem mem_cons (F G : EdgeForest E V) : u ∈ (cons e v F G).verts ↔
    u = v ∨ u ∈ F.verts ∨ u ∈ G.verts := by
  simp [verts]

/-- The forest hangs from the list. -/
def Hangs (kids : E → V → List (E × V)) : List (E × V) → EdgeForest E V → Prop
  | L, nil => L = []
  | L, cons e v below after =>
    ∃ L', L = (e, v) :: L' ∧ Hangs kids (kids e v) below ∧ Hangs kids L' after

/-- The numbers of a forest from `lo` on. -/
def Numbered (par : V → Option E) (low lim : V → ℤ) : ℤ → EdgeForest E V → Prop
  | _, nil => True
  | lo, cons e v below after => par v = some e ∧ low v = lo ∧ Numbered par low lim lo below ∧
    lim v = lo + below.size ∧ Numbered par low lim (lo + below.size + 1) after

variable {kids : E → V → List (E × V)} {par par' : V → Option E} {low low' lim lim' : V → ℤ}
  {lo : ℤ}

/-- What hangs from a list has its vertices. -/
theorem Hangs.mem (h : Hangs kids L F) (hp : (e, v) ∈ L) : v ∈ F.verts := by
  induction F generalizing L with
  | nil => cases h.symm ▸ hp
  | cons e' v' below after ihb iha =>
    obtain ⟨L', rfl, -, ha⟩ := h
    rw [mem_cons]
    rcases List.mem_cons.1 hp with hp | hp
    · cases hp
      exact .inl rfl
    · exact .inr (.inr (iha ha hp))

/-- The numbers are those of the vertices. -/
theorem Numbered.congr (h : Numbered par low lim lo F)
    (hsame : ∀ v ∈ F.verts, par' v = par v ∧ low' v = low v ∧ lim' v = lim v) :
    Numbered par' low' lim' lo F := by
  induction F generalizing lo with
  | nil => trivial
  | cons e v below after ihb iha =>
    simp only [mem_cons] at hsame
    obtain ⟨h1, h2, h3, h4, h5⟩ := h
    obtain ⟨g1, g2, g3⟩ := hsame v (.inl rfl)
    exact ⟨g1.trans h1, g2.trans h2, ihb h3 fun w hw => hsame w (.inr (.inl hw)), g3.trans h4,
      iha h5 fun w hw => hsame w (.inr (.inr hw))⟩

/-- The numbers of a forest are those of an interval. -/
theorem Numbered.bounds (h : Numbered par low lim lo F) (hu : u ∈ F.verts) :
    lo ≤ lim u ∧ lim u < lo + F.size := by
  induction F generalizing lo with
  | nil => cases hu
  | cons e v below after ihb iha =>
    obtain ⟨-, -, h3, h4, h5⟩ := h
    rw [size_cons]
    rcases (mem_cons ..).1 hu with rfl | hu | hu
    · omega
    · have := ihb h3 hu
      omega
    · have := iha h5 hu
      omega

end EdgeForest
