import Graphviz.Sparse.Symmetrize

/-!
# Matrices in the form of coordinates

`SparseMatrix_coordinate_form_add_entry` puts one more entry into a matrix that is a list of entries
with their rows and columns, and `SparseMatrix_from_coordinate_format` converts it. Where all values
are positive the result has an entry at the places of the coordinates and at no others.
-/

namespace Graphviz.Sparse

open List Outcome

/-- `gv_recalloc`: the block with its cells and then zeros. -/
def recalloc {β : Type} [Zero β] (b : Buf β) (nmemb : Nat) : Buf β :=
  ⟨nmemb, fun i => if i < b.size then b.cell i else 0⟩

/-- `SparseMatrix_struct`, in the format `FORMAT_COORD`. -/
structure CoordMatrix (α : Type) where
  m : Nat
  n : Nat
  nz : Nat
  nzmax : Nat
  type : MatrixType
  ia : Buf Int
  ja : Buf Int
  a : Buf α

variable {α : Type} [Semiring α]

/-- `SparseMatrix_new`, for a matrix in the form of coordinates. -/
def CoordMatrix_new (m n nz : Nat) (type : MatrixType) : CoordMatrix α :=
  ⟨m, n, 0, nz, type, .calloc nz, .calloc nz, .calloc nz⟩

/-- `SparseMatrix_realloc`. -/
def SparseMatrix_realloc (A : CoordMatrix α) (nz : Nat) : CoordMatrix α :=
  { A with ia := recalloc A.ia nz, ja := recalloc A.ja nz, a := recalloc A.a nz, nzmax := nz }

/-- `SparseMatrix_coordinate_form_add_entry`. -/
def SparseMatrix_coordinate_form_add_entry (A : CoordMatrix α) (irn jcn : Nat) (val : α)
    (type : MatrixType) : Except Fault (CoordMatrix α) := do
  assert (A.type = type)
  let nz := A.nz
  let A := if A.nzmax ≤ nz + 1 then SparseMatrix_realloc A (nz + 1 + 10) else A
  let ia ← A.ia.set nz irn
  let ja ← A.ja.set nz jcn
  let a ← A.a.set nz val
  .ok { A with
    ia, ja, a
    m := if A.m ≤ irn then irn + 1 else A.m
    n := if A.n ≤ jcn then jcn + 1 else A.n
    nz := nz + 1 }

/-- `SparseMatrix_from_coordinate_format`. -/
def SparseMatrix_from_coordinate_format (A : CoordMatrix α) : Except Fault (SparseMatrix α) :=
  SparseMatrix_from_coordinate_arrays A.nz A.m A.n A.ia A.ja A.a A.type

/-! ## The entries of a matrix -/

omit [Semiring α] in
/-- An `n` by `n` matrix with the entries of the list, in that order. -/
structure CoordMatrix.Holds (n : Nat) (A : CoordMatrix α) (L : List (Nat × Nat × α)) : Prop where
  rows : A.m = n
  cols : A.n = n
  nz : A.nz = L.length
  nz_le : A.nz ≤ A.nzmax
  ia_size : A.ia.size = A.nzmax
  ja_size : A.ja.size = A.nzmax
  a_size : A.a.size = A.nzmax
  cells : ∀ k e, L[k]? = some e →
    A.ia.cell k = e.1 ∧ A.ja.cell k = e.2.1 ∧ A.a.cell k = e.2.2
  inRange : ∀ e ∈ L, e.1 < n ∧ e.2.1 < n

variable {A : CoordMatrix α} {L : List (Nat × Nat × α)} {n : Nat}

theorem CoordMatrix_new_holds {type : MatrixType} (nz : Nat) :
    (CoordMatrix_new n n nz type : CoordMatrix α).Holds n [] :=
  ⟨rfl, rfl, rfl, Nat.zero_le nz, rfl, rfl, rfl, nofun, nofun⟩

/-- The entries stay when the blocks grow. -/
theorem CoordMatrix.Holds.realloc (h : A.Holds n L) {nz : Nat} (hnz : A.nz ≤ nz) :
    (SparseMatrix_realloc A nz).Holds n L := by
  refine ⟨h.rows, h.cols, h.nz, hnz, rfl, rfl, rfl, fun k e hk => ?_, h.inRange⟩
  obtain ⟨hlt, -⟩ := List.getElem?_eq_some_iff.1 hk
  rw [← h.nz] at hlt
  have hle := hlt.trans_le h.nz_le
  obtain ⟨hia, hja, ha⟩ := h.cells k e hk
  exact ⟨(if_pos (hle.trans_eq h.ia_size.symm)).trans hia,
    (if_pos (hle.trans_eq h.ja_size.symm)).trans hja,
    (if_pos (hle.trans_eq h.a_size.symm)).trans ha⟩

/-- One more entry. -/
theorem add_entry_spec (h : A.Holds n L) {irn jcn : Nat} (hi : irn < n) (hj : jcn < n) (val : α) :
    ∃ A', SparseMatrix_coordinate_form_add_entry A irn jcn val A.type = .ok A' ∧
      A'.type = A.type ∧ A'.Holds n (L ++ [(irn, jcn, val)]) := by
  -- there is room for the entry in what the matrix is after the blocks have grown
  obtain ⟨B, hB, htype, hholds, hroom⟩ : ∃ B, (if A.nzmax ≤ A.nz + 1 then
      SparseMatrix_realloc A (A.nz + 1 + 10) else A) = B ∧ B.type = A.type ∧ B.Holds n L ∧
      A.nz < B.nzmax := by
    split
    · exact ⟨_, rfl, rfl, h.realloc (by omega), show A.nz < A.nz + 1 + 10 by omega⟩
    · exact ⟨_, rfl, rfl, h, by omega⟩
  have hnz := hholds.nz.trans h.nz.symm
  rw [SparseMatrix_coordinate_form_add_entry, assert, if_pos rfl, ok_bind]
  simp only [hB]
  rw [Buf.set_eq (hroom.trans_eq hholds.ia_size.symm), ok_bind,
    Buf.set_eq (hroom.trans_eq hholds.ja_size.symm), ok_bind,
    Buf.set_eq (hroom.trans_eq hholds.a_size.symm), ok_bind, hholds.rows, hholds.cols,
    if_neg (not_le.2 hi), if_neg (not_le.2 hj)]
  refine ⟨_, rfl, htype, rfl, rfl, ?_, hroom, hholds.ia_size, hholds.ja_size, hholds.a_size,
    fun k e hk => ?_, fun e he => ?_⟩
  · rw [length_append, length_singleton, h.nz]
  · dsimp only
    rw [Buf.upd_cell, Buf.upd_cell, Buf.upd_cell]
    rw [getElem?_append] at hk
    split at hk
    next hlt =>
      rw [if_neg (by rw [h.nz]; omega), if_neg (by rw [h.nz]; omega),
        if_neg (by rw [h.nz]; omega)]
      exact hholds.cells k e hk
    next hge =>
      obtain ⟨hlt, rfl⟩ := List.getElem?_eq_some_iff.1 hk
      rw [length_singleton] at hlt
      have heq : k = A.nz := by rw [h.nz]; omega
      rw [if_pos heq, if_pos heq, if_pos heq, getElem_singleton]
      exact ⟨rfl, rfl, rfl⟩
  · rw [mem_append, mem_singleton] at he
    obtain he | rfl := he
    · exact h.inRange e he
    · exact ⟨hi, hj⟩

/-- The places of the entries. -/
def places (L : List (Nat × Nat × α)) : List (Nat × Nat) :=
  L.map fun e => (e.1, e.2.1)

/-- A matrix with an entry at each of the places, and none with the value zero. -/
structure HasPlaces (n : Nat) (P : List (Nat × Nat)) (B : SparseMatrix α) : Prop where
  valid : B.Valid n n
  nonzero : B.NonzeroEntries n
  cols : ∀ i < n, ∀ j < n, j ∈ B.cols i ↔ (i, j) ∈ P

/-- The conversion of a matrix with positive values. -/
theorem from_coordinate_format_spec [LinearOrder α] [IsStrictOrderedRing α] (h : A.Holds n L)
    (hn : 0 < n) (hpos : ∀ e ∈ L, 0 < e.2.2) :
    Meets (SparseMatrix_from_coordinate_format A)
      (fun B => B.type = A.type ∧ HasPlaces n (places L) B) fun _ => False := by
  have hnz := h.nz_le
  have hcell : ∀ k < A.nz, ∃ e ∈ L, A.ia.cell k = e.1 ∧ A.ja.cell k = e.2.1 ∧
      A.a.cell k = e.2.2 := fun k hk => by
    rw [h.nz] at hk
    exact ⟨L[k], getElem_mem hk, h.cells k _ (getElem?_eq_getElem hk)⟩
  have hin : ∀ k < A.nz, (0 ≤ A.ia.cell k ∧ A.ia.cell k < (n : Int)) ∧
      0 ≤ A.ja.cell k ∧ A.ja.cell k < (n : Int) := fun k hk => by
    obtain ⟨e, he, hi, hj, -⟩ := hcell k hk
    have := h.inRange e he
    omega
  rw [SparseMatrix_from_coordinate_format, h.rows, h.cols]
  refine (from_coordinate_arrays_columns ⟨hn, hn⟩ (hnz.trans_eq h.ia_size.symm)
    (hnz.trans_eq h.ja_size.symm) (hnz.trans_eq h.a_size.symm) hin).imp
    fun B ⟨⟨hB, htype, _, hmatrix⟩, hcols⟩ => ⟨htype, ?_⟩
  have hentry : ∀ i < n, ∀ j < n, B.entry i j = ∑ k ∈ Finset.range A.nz,
      if A.ia.cell k = i then if A.ja.cell k = j then A.a.cell k else 0 else 0 :=
    fun i hi j hj => congrFun (congrFun hmatrix ⟨i, hi⟩) ⟨j, hj⟩
  -- the values at one place do not cancel
  have hvalue : ∀ i < n, ∀ j < n, ∀ k < A.nz, A.ia.cell k = i → A.ja.cell k = j →
      B.entry i j ≠ 0 := by
    intro i hi j hj k hk hki hkj
    rw [hentry i hi j hj]
    refine (Finset.sum_pos' (fun l hl => ?_) ⟨k, Finset.mem_range.2 hk, ?_⟩).ne'
    · obtain ⟨e, he, -, -, ha⟩ := hcell l (Finset.mem_range.1 hl)
      split
      · split
        · exact ha ▸ (hpos e he).le
        · exact le_refl 0
      · exact le_refl 0
    · obtain ⟨e, he, -, -, ha⟩ := hcell k hk
      rw [if_pos hki, if_pos hkj, ha]
      exact hpos e he
  refine ⟨hB, fun i hi j hj => ?_, fun i hi j hj => ⟨fun hmem => ?_, fun hmem => ?_⟩⟩
  · obtain ⟨k, hk, hki, hkj⟩ := hcols i hi j hj
    exact hvalue i hi j (hB.mem_cols hi hj) k hk hki hkj
  · obtain ⟨k, hk, hki, hkj⟩ := hcols i hi j hmem
    obtain ⟨e, he, hei, hej, -⟩ := hcell k hk
    refine mem_map.2 ⟨e, he, Prod.ext ?_ ?_⟩
    · exact Int.ofNat_inj.1 (hei.symm.trans hki)
    · exact Int.ofNat_inj.1 (hej.symm.trans hkj)
  · obtain ⟨e, he, heq⟩ := mem_map.1 hmem
    obtain ⟨hei, hej⟩ := Prod.mk.inj heq
    obtain ⟨k, hk⟩ := getElem?_of_mem he
    obtain ⟨hlt, -⟩ := List.getElem?_eq_some_iff.1 hk
    obtain ⟨hia, hja, -⟩ := h.cells k e hk
    exact SparseMatrix.mem_cols_of_entry (hvalue i hi j hj k (hlt.trans_eq h.nz.symm)
      (hia.trans (congrArg _ hei)) (hja.trans (congrArg _ hej)))

end Graphviz.Sparse
