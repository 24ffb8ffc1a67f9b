import Mathlib.Combinatorics.SimpleGraph.Metric

/-!
# Level order

The vertices of a graph in the order in which a search from a root finds them: those at distance
less than a level, and then some of the level itself. The search is done with a level when all
neighbours of the level before it have been found.
-/

namespace LevelOrder

open List Nat

universe u

variable {V : Type u} {G : SimpleGraph V} {root v w : V} {l d k : ℕ} {old new : List V}

/-! ## Distances from the root -/

/-- A neighbour is at most one step farther. -/
theorem edist_le_of_adj (hv : G.edist root v = d) (h : G.Adj v w) :
    G.edist root w ≤ (d + 1 : ℕ) := by
  calc G.edist root w ≤ G.edist root v + G.edist v w := SimpleGraph.edist_triangle
    _ = (d + 1 : ℕ) := by rw [hv, SimpleGraph.edist_eq_one_iff_adj.2 h, cast_succ]

/-- A vertex that is not the root has a neighbour one step nearer. -/
theorem exists_adj_of_edist (hv : G.edist root v = (d + 1 : ℕ)) :
    ∃ u, G.Adj u v ∧ G.edist root u = d := by
  obtain ⟨p, hp⟩ := SimpleGraph.exists_walk_of_edist_eq_coe hv
  have hlen : p.reverse.length = d + 1 := p.length_reverse.trans hp
  cases hrev : p.reverse with
  | nil =>
    rw [hrev] at hlen
    exact absurd hlen (succ_ne_zero d).symm
  | cons hadj q =>
    rename_i u
    rw [hrev, SimpleGraph.Walk.length_cons] at hlen
    have hle : G.edist root u ≤ d := by
      rw [SimpleGraph.edist_comm]
      exact (SimpleGraph.edist_le q).trans (by rw [succ_injective hlen])
    refine ⟨u, hadj.symm, le_antisymm hle ?_⟩
    obtain ⟨k, hk⟩ := ENat.ne_top_iff_exists.1 (hle.trans_lt (ENat.natCast_lt_top d)).ne
    have hle' := edist_le_of_adj hk.symm hadj.symm
    rw [hv, cast_le] at hle'
    rw [← hk, cast_le]
    omega

/-- A vertex that is reached is at some distance. -/
theorem exists_edist (h : G.Reachable root v) : ∃ d : ℕ, G.edist root v = d :=
  (ENat.ne_top_iff_exists.1 (SimpleGraph.edist_ne_top_iff_reachable.2 h)).imp fun _ => Eq.symm

theorem reachable_of_edist (h : G.edist root v = d) : G.Reachable root v :=
  SimpleGraph.reachable_of_edist_ne_top (h ▸ ENat.natCast_ne_top d)

/-- There is no level beyond an empty one. -/
theorem edist_lt_of_empty (hl : ∀ v, G.edist root v ≠ l) (hv : G.edist root v = d) : d < l := by
  induction d generalizing v with
  | zero =>
    obtain rfl | hpos := Nat.eq_zero_or_pos l
    · exact absurd hv (hl v)
    · exact hpos
  | succ d ih =>
    obtain ⟨u, -, hu⟩ := exists_adj_of_edist hv
    obtain hlt | rfl := lt_or_eq_of_le (succ_le_of_lt (ih hu))
    · exact hlt
    · exact absurd hv (hl v)

/-! ## The vertices that have been found -/

/-- The vertices at distance less than `l`, and some at distance `l`. -/
structure Found (G : SimpleGraph V) (root : V) (l : ℕ) (old new : List V) : Prop where
  nodup : (old ++ new).Nodup
  mem_old : ∀ v, v ∈ old ↔ ∃ d < l, G.edist root v = d
  mem_new : ∀ v ∈ new, G.edist root v = l

/-- A search starts with the root. -/
theorem Found.start (G : SimpleGraph V) (root : V) : Found G root 1 [root] [] := by
  refine ⟨nodup_singleton root, fun v => ?_, nofun⟩
  rw [mem_singleton]
  constructor
  · rintro rfl
    exact ⟨0, one_pos, SimpleGraph.edist_self⟩
  · rintro ⟨d, hd, hv⟩
    obtain rfl := lt_one_iff.1 hd
    exact (SimpleGraph.edist_eq_zero_iff.1 hv).symm

/-- What has been found is at a distance. -/
theorem Found.edist (h : Found G root l old new) (hv : v ∈ old ++ new) :
    ∃ d ≤ l, G.edist root v = d := by
  obtain hv | hv := mem_append.1 hv
  · obtain ⟨d, hd, hv⟩ := (h.mem_old v).1 hv
    exact ⟨d, hd.le, hv⟩
  · exact ⟨l, le_refl l, h.mem_new v hv⟩

theorem Found.reachable (h : Found G root l old new) (hv : v ∈ old ++ new) :
    G.Reachable root v := by
  obtain ⟨d, -, hd⟩ := h.edist hv
  exact reachable_of_edist hd

/-- A neighbour of the level before that has not been found is at the level. -/
theorem Found.edist_adj (h : Found G root (l + 1) old new) (hv : G.edist root v = l)
    (hadj : G.Adj v w) (hw : w ∉ old ++ new) : G.edist root w = (l + 1 : ℕ) := by
  have hle := edist_le_of_adj hv hadj
  obtain ⟨d, hd⟩ := ENat.ne_top_iff_exists.1 (hle.trans_lt (ENat.natCast_lt_top _)).ne
  rw [← hd, cast_le] at hle
  obtain hlt | rfl := lt_or_eq_of_le hle
  · exact absurd (mem_append_left new ((h.mem_old w).2 ⟨d, hlt, hd.symm⟩)) hw
  · exact hd.symm

/-- The search finds a neighbour of the level before. -/
theorem Found.push (h : Found G root (l + 1) old new) (hv : G.edist root v = l)
    (hadj : G.Adj v w) (hw : w ∉ old ++ new) : Found G root (l + 1) old (new ++ [w]) := by
  refine ⟨?_, h.mem_old, fun u hu => ?_⟩
  · rw [← append_assoc]
    exact h.nodup.append (nodup_singleton w) (disjoint_singleton.2 hw)
  · obtain hu | hu := mem_append.1 hu
    · exact h.mem_new u hu
    · rw [mem_singleton.1 hu]
      exact h.edist_adj hv hadj hw

/-- The level is complete when the neighbours of the level before have been found. -/
theorem Found.next (h : Found G root (l + 1) old new)
    (hdone : ∀ v, G.edist root v = l → ∀ w, G.Adj v w → w ∈ old ++ new) :
    Found G root (l + 2) (old ++ new) [] := by
  refine ⟨(append_nil _).symm ▸ h.nodup, fun v => ⟨fun hv => ?_, fun ⟨d, hd, hv⟩ => ?_⟩,
    nofun⟩
  · obtain ⟨d, hd, hv⟩ := h.edist hv
    exact ⟨d, lt_succ_of_le hd, hv⟩
  · obtain hlt | rfl := Nat.lt_succ_iff_lt_or_eq.1 hd
    · exact mem_append_left new ((h.mem_old v).2 ⟨d, hlt, hv⟩)
    · obtain ⟨u, hadj, hu⟩ := exists_adj_of_edist hv
      exact hdone u hu v hadj

end LevelOrder
