import Graphviz.Sparse.SparseMatrix

/-!
# What a sparse matrix denotes

The matrix of the sums of its entries at each position, and when its arrays are valid. An operation
goes through entries one at a time; the list of the columns and values that it goes through is what
its result is compared with.
-/

namespace Graphviz.Sparse

open Outcome Finset

variable {α : Type} {m n i j lo hi col : Nat}

section
variable [Semiring α] {jc : Buf Nat} {c : Buf α} {L R : List (Nat × α)}

/-! ## Sums of entries -/

/-- The sum of the entries in the cells from `lo` to `hi` that are at the column. -/
def segSum (jc : Buf Nat) (c : Buf α) (lo hi col : Nat) : α :=
  ∑ k ∈ Ico lo hi, if jc.cell k = col then c.cell k else 0

theorem segSum_self : segSum jc c lo lo col = 0 := by
  rw [segSum, Ico_self, sum_empty]

theorem segSum_congr {jc' : Buf Nat} {c' : Buf α}
    (h : ∀ k, lo ≤ k → k < hi → jc'.cell k = jc.cell k ∧ c'.cell k = c.cell k) :
    segSum jc' c' lo hi col = segSum jc c lo hi col := by
  refine sum_congr rfl fun k hk => ?_
  obtain ⟨hj, hc⟩ := h k (mem_Ico.1 hk).1 (mem_Ico.1 hk).2
  rw [hj, hc]

/-- One more cell. -/
theorem segSum_push (h : lo ≤ hi) (r : Nat) (v : α) :
    segSum (jc.upd hi r) (c.upd hi v) lo (hi + 1) col =
      segSum jc c lo hi col + if r = col then v else 0 := by
  have hold : segSum (jc.upd hi r) (c.upd hi v) lo hi col = segSum jc c lo hi col :=
    segSum_congr fun k _ hk => ⟨Buf.upd_cell_ne hk.ne, Buf.upd_cell_ne hk.ne⟩
  rw [← hold, segSum, sum_Ico_succ_top h, Buf.upd_cell_self, Buf.upd_cell_self, segSum]

/-- A value added to a cell. -/
theorem segSum_add {p : Nat} (hlo : lo ≤ p) (hhi : p < hi) (v : α) :
    segSum jc (c.upd p (c.cell p + v)) lo hi col =
      segSum jc c lo hi col + if jc.cell p = col then v else 0 := by
  have hp : p ∈ Ico lo hi := mem_Ico.2 ⟨hlo, hhi⟩
  have hrest : ∀ k ∈ (Ico lo hi).erase p,
      (if jc.cell k = col then (c.upd p (c.cell p + v)).cell k else 0) =
        if jc.cell k = col then c.cell k else 0 := by
    intro k hk
    rw [Buf.upd_cell_ne (ne_of_mem_erase hk)]
  rw [segSum, segSum, ← sum_erase_add _ _ hp, ← sum_erase_add _ _ hp, sum_congr rfl hrest,
    Buf.upd_cell_self, add_assoc]
  congr 1
  split
  · rfl
  · rw [add_zero]

/-- The sum of the values of a list that are at the column. -/
def colSum (L : List (Nat × α)) (col : Nat) : α :=
  (L.map fun x => if x.1 = col then x.2 else 0).sum

@[simp] theorem colSum_nil : colSum ([] : List (Nat × α)) col = 0 := rfl

theorem colSum_append : colSum (L ++ R) col = colSum L col + colSum R col := by
  rw [colSum, List.map_append, List.sum_append, colSum, colSum]

theorem colSum_concat (x : Nat × α) :
    colSum (L ++ [x]) col = colSum L col + if x.1 = col then x.2 else 0 := by
  rw [colSum_append, colSum, colSum, List.map_singleton, List.sum_singleton]

theorem colSum_flatMap {β : Type} (l : List β) (f : β → List (Nat × α)) :
    colSum (l.flatMap f) col = (l.map fun x => colSum (f x) col).sum := by
  induction l with
  | nil => rfl
  | cons x l ih => rw [List.flatMap_cons, colSum_append, ih, List.map_cons, List.sum_cons]

/-- A sum over the indices of a loop. -/
theorem sum_range'_map (f : Nat → α) (lo k : Nat) :
    ((List.range' lo k).map f).sum = ∑ x ∈ Ico lo (lo + k), f x := by
  induction k with
  | zero => simp
  | succ k ih =>
    rw [List.range'_concat, List.map_append, List.sum_append, ih, ← add_assoc,
      sum_Ico_succ_top (Nat.le_add_right lo k)]
    simp

end

/-! ## Matrices -/

namespace SparseMatrix

variable {A : SparseMatrix α}

/-- The indices of the entries of a row. -/
def cells (A : SparseMatrix α) (i : Nat) : List Nat :=
  List.range' (A.ia.cell i) (A.ia.cell (i + 1) - A.ia.cell i)

/-- The columns and values of a row. -/
def row (A : SparseMatrix α) (i : Nat) : List (Nat × α) :=
  (A.cells i).map fun k => (A.ja.cell k, A.a.cell k)

/-- The sum of the entries at a position. -/
def entry [Semiring α] (A : SparseMatrix α) (i col : Nat) : α :=
  segSum A.ja A.a (A.ia.cell i) (A.ia.cell (i + 1)) col

/-- The matrix that is denoted. -/
def toMatrix [Semiring α] (A : SparseMatrix α) (m n : Nat) : Matrix (Fin m) (Fin n) α :=
  Matrix.of fun i j => A.entry i j

/-- The arrays of an `m` by `n` matrix: row pointers from 0 to `nz` that do not decrease, arrays
with that many cells, and columns in range. -/
structure Valid (A : SparseMatrix α) (m n : Nat) : Prop where
  rows : A.m = m
  cols : A.n = n
  ia_size : m + 1 ≤ A.ia.size
  first : A.ia.cell 0 = 0
  mono : ∀ i < m, A.ia.cell i ≤ A.ia.cell (i + 1)
  last : A.ia.cell m = A.nz
  ja_size : A.nz ≤ A.ja.size
  a_size : A.nz ≤ A.a.size
  inRange : ∀ k < A.nz, A.ja.cell k < n

/-- No two entries are at the same position. -/
def Distinct (A : SparseMatrix α) (m : Nat) : Prop :=
  ∀ i < m, ((A.cells i).map A.ja.cell).Nodup

theorem mem_cells {k : Nat} : k ∈ A.cells i ↔ A.ia.cell i ≤ k ∧ k < A.ia.cell (i + 1) := by
  rw [cells, List.mem_range'_1]
  omega

theorem Valid.ia_le (h : A.Valid m n) {i' : Nat} (hi : i ≤ i') (hi' : i' ≤ m) :
    A.ia.cell i ≤ A.ia.cell i' := by
  induction i', hi using Nat.le_induction with
  | base => exact Nat.le_refl _
  | succ i' _ ih => exact (ih (by omega)).trans (h.mono i' (by omega))

theorem Valid.lt_nz (h : A.Valid m n) (hi : i < m) {k : Nat} (hk : k ∈ A.cells i) : k < A.nz := by
  have hlast := h.ia_le (show i + 1 ≤ m from hi) (Nat.le_refl m)
  rw [h.last] at hlast
  exact (mem_cells.1 hk).2.trans_le hlast

theorem Valid.col_lt (h : A.Valid m n) (hi : i < m) {k : Nat} (hk : k ∈ A.cells i) :
    A.ja.cell k < n :=
  h.inRange k (h.lt_nz hi hk)

theorem colSum_row [Semiring α] (h : A.Valid m n) (hi : i < m) :
    colSum (A.row i) col = A.entry i col := by
  have hmono := h.mono i hi
  rw [colSum, row, List.map_map, cells, sum_range'_map, entry, segSum]
  congr 2
  omega

/-- The loop over a row of a valid matrix goes through its cells. -/
theorem Valid.forRow_eq {σ : Type} (h : A.Valid m n) (hi : i < m)
    (f : σ → Nat → Nat → Except Fault σ) (s : σ) :
    forRow A i f s = (A.cells i).foldlM (fun s j => f s (A.ja.cell j) j) s := by
  have hsize := h.ia_size
  rw [forRow, rowIndices, Buf.get_eq (by omega), Buf.get_eq (by omega)]
  refine foldlM_congr (fun j hj s => ?_) s
  have hlt := h.lt_nz hi hj
  rw [Buf.get_eq (hlt.trans_le h.ja_size)]
  rfl

theorem length_row : (A.row i).length = A.ia.cell (i + 1) - A.ia.cell i := by
  rw [row, List.length_map, cells, List.length_range']

theorem map_fst_row : (A.row i).map Prod.fst = (A.cells i).map A.ja.cell := by
  rw [row, List.map_map]
  rfl

/-- The rows together have all entries. -/
theorem Valid.sum_length_row (h : A.Valid m n) : ∑ i ∈ range m, (A.row i).length = A.nz := by
  have hrows : ∀ m' ≤ m, ∑ i ∈ range m', (A.row i).length = A.ia.cell m' := by
    intro m'
    induction m' with
    | zero => exact fun _ => h.first.symm
    | succ m' ih =>
      intro hle
      have hmono := h.mono m' hle
      rw [sum_range_succ, ih (by omega), length_row]
      omega
  rw [hrows m (Nat.le_refl m), h.last]

theorem Valid.row_lt (h : A.Valid m n) (hi : i < m) : ∀ x ∈ A.row i, x.1 < n := by
  intro x hx
  obtain ⟨j, hj, rfl⟩ := List.mem_map.1 hx
  exact h.col_lt hi hj

/-- A loop over a row, with a body that uses the column and the value alone. -/
theorem Valid.forRow_row {σ : Type} {f : σ → Nat → Nat → Except Fault σ}
    {g : σ → Nat × α → Except Fault σ} (h : A.Valid m n) (hi : i < m)
    (hfg : ∀ j ∈ A.cells i, ∀ s, f s (A.ja.cell j) j = g s (A.ja.cell j, A.a.cell j)) (s : σ) :
    forRow A i f s = (A.row i).foldlM g s := by
  rw [h.forRow_eq hi, row, List.foldlM_map]
  exact foldlM_congr hfg s

end SparseMatrix

end Graphviz.Sparse
