import Graphviz.Sparse.Sum

/-!
# Products

A row of a product is the sum of the products that two, or three, nested loops go through. The
first pass counts the columns of each row with a mask of negative numbers, one for each row; the
second pass fills the rows. The passes go through the same entries, so the count is what the second
pass needs.
-/

namespace Graphviz.Sparse

open Outcome Finset SparseMatrix

variable {α : Type} {A B C : SparseMatrix α} {m n k l i : Nat} {L R : List (Nat × α)}

/-! ## The counting pass -/

/-- The columns of `L` have been counted in row `i`, on top of `nz`. -/
structure CountInv (n nz i : Nat) (L : List (Nat × α)) (s : Count) : Prop where
  mask_size : s.mask.size = n
  counted : ∀ c ∈ columns L, s.mask.cell c = -(i : Int) - 2
  fresh : ∀ c < n, c ∉ columns L → -(i : Int) - 2 < s.mask.cell c ∧ s.mask.cell c < 0
  nz : s.nz = nz + (columns L).card

theorem CountInv.count {s : Count} {nz : Nat} {x : Nat × α} (h : CountInv n nz i L s)
    (hx : x.1 < n) : Meets (countColumn i s x.1) (CountInv n nz i (L ++ [x])) fun _ => False := by
  have hsize := h.mask_size
  have hnz := h.nz
  rw [countColumn]
  refine Buf.meets_get (by omega) ?_
  split
  next hne =>
    have hnew : x.1 ∉ columns L := fun hc => hne (h.counted x.1 hc)
    refine Buf.meets_set (by omega) ⟨hsize, fun c hc => ?_, fun c hcn hc => ?_, ?_⟩
    · rw [columns_concat, mem_insert] at hc
      rw [Buf.upd_cell]
      split
      · rfl
      next hcx => exact h.counted c (hc.resolve_left hcx)
    · rw [columns_concat, mem_insert, not_or] at hc
      rw [Buf.upd_cell_ne hc.1]
      exact h.fresh c hcn hc.2
    · rw [columns_concat, card_insert_of_notMem hnew]
      simp only
      omega
  next heq =>
    have heq : s.mask.cell x.1 = -(i : Int) - 2 := not_not.1 heq
    have hold : x.1 ∈ columns L := by
      refine Decidable.byContradiction fun hc => ?_
      have := (h.fresh x.1 hx hc).1
      omega
    have hsame : columns (L ++ [x]) = columns L := by
      rw [columns_concat, insert_eq_of_mem hold]
    exact ⟨hsize, hsame ▸ h.counted, hsame ▸ h.fresh, hsame ▸ hnz⟩

/-- The first pass counts the columns of each row. -/
theorem countRows_spec {rows : Nat → List (Nat × α)} (hrows : ∀ i < m, ∀ x ∈ rows i, x.1 < n) :
    Meets ((List.range' 0 m).foldlM (fun s i => (rows i).foldlM (fun s x => countColumn i s x.1) s)
        (⟨⟨n, fun _ => -1⟩, 0⟩ : Count))
      (fun s => s.mask.size = n ∧ (∀ c < n, s.mask.cell c < 0) ∧
        s.nz = ∑ i ∈ range m, (columns (rows i)).card) fun _ => False := by
  refine (Meets.range' _ 0 m (fun i s => CountInv n (∑ k ∈ range i, (columns (rows k)).card) i
    ([] : List (Nat × α)) s) (fun i hi s hs => ?_) _
    ⟨rfl, by simp [columns], fun _ _ _ => ⟨by simp only; omega, Int.negSucc_lt_zero 0⟩, rfl⟩).imp
    fun s hs => ⟨hs.mask_size, fun c hc => (hs.fresh c hc (by simp [columns])).2, hs.nz⟩
  rw [Nat.zero_add]
  refine (Meets.foldlM (fun rest s => ∃ L, rows i = L ++ rest ∧
    CountInv n (∑ k ∈ range i, (columns (rows k)).card) i L s)
    (fun x rest s h => ?_) s ⟨[], rfl, hs⟩).imp fun s h => ?_
  · obtain ⟨L, heq, hs⟩ := h
    exact (hs.count (hrows i hi x (by rw [heq]; simp))).imp fun s' hs' =>
      ⟨L ++ [x], by rw [heq]; simp, hs'⟩
  · obtain ⟨L, heq, hs⟩ := h
    rw [List.append_nil] at heq
    subst heq
    refine ⟨hs.mask_size, by simp [columns], fun c hc _ => ?_, hs.nz.trans (sum_range_succ _ _).symm⟩
    rw [Nat.cast_add, Nat.cast_one]
    obtain hcol | hcol := Decidable.em (c ∈ columns (rows i))
    · have := hs.counted c hcol
      omega
    · have := hs.fresh c hc hcol
      omega

/-! ## Both passes -/

/-- The loop over the rows depends on the rows alone. -/
theorem forRows_congr {row row' : Nat → Nat → Acc α → Except Fault (Acc α)}
    (h : ∀ i < m, ∀ start acc, row i start acc = row' i start acc) (s : RowVars α) :
    forRows m row s = forRows m row' s := by
  rw [forRows, forRows]
  refine congrArg _ (funext fun ic => foldlM_congr (fun i hi s => ?_) _)
  rw [List.mem_range'_1] at hi
  simp only [h i (by omega)]

variable [Semiring α]

/-- Rows that are counted first and filled then. -/
theorem rows_spec (rows : Nat → List (Nat × α)) {count : Count → Nat → Except Fault Count}
    {row : Nat → Nat → Acc α → Except Fault (Acc α)}
    (hrows : ∀ i < m, ∀ x ∈ rows i, x.1 < n)
    (hcount : ∀ i < m, ∀ s, count s i = (rows i).foldlM (fun s x => countColumn i s x.1) s)
    (hrow : ∀ i < m, ∀ start acc, row i start acc =
      (rows i).foldlM (fun acc x => accumulate start acc x.1 x.2) acc) (type : MatrixType) :
    Meets ((List.range' 0 m).foldlM count (⟨⟨n, fun _ => -1⟩, 0⟩ : Count) >>= fun s =>
      forRows m row ⟨.calloc (m + 1), ⟨s.mask, .calloc s.nz, .calloc s.nz, 0⟩⟩ >>= fun v =>
      .ok (some ((SparseMatrix_new m n s.nz type).withRows v)))
      (fun D => ∃ D', D = some D' ∧ D'.Valid m n ∧ D'.type = type ∧ D'.Distinct m ∧
        D'.toMatrix m n = Matrix.of fun (i : Fin m) (j : Fin n) => colSum (rows i) j)
      fun _ => False := by
  rw [foldlM_congr fun i hi => hcount i (by rw [List.mem_range'_1] at hi; omega)]
  refine (countRows_spec hrows).bind fun s ⟨hsize, hneg, hnz⟩ => ?_
  rw [forRows_congr hrow]
  refine (forRows_spec (m := m) (n := n) (f := fun i => colSum (rows i)) (d := fun _ => True)
    (w := fun i => (columns (rows i)).card) (Nat.le_refl _) hsize.ge hneg rfl hnz.ge hnz.ge
    fun i hi acc hacc hj hc => ?_).bind fun v hv => ?_
  · exact (accumulate_row hacc (hrows i hi) hj hc).imp fun acc' ⟨hacc', hf⟩ => hacc'.done hf True
  · obtain ⟨hvalid, hmatrix⟩ := hv.valid (C := SparseMatrix_new m n s.nz type) rfl rfl
    exact ⟨_, rfl, hvalid, rfl, fun i hi => hv.distinct i hi trivial, hmatrix⟩

/-! ## The products of a row -/

/-- The entries of a list, each times the row of the matrix at its column. -/
def follow (B : SparseMatrix α) (L : List (Nat × α)) : List (Nat × α) :=
  L.flatMap fun x => (B.row x.1).map fun y => (y.1, x.2 * y.2)

theorem follow_lt (h : B.Valid k n) (hL : ∀ x ∈ L, x.1 < k) : ∀ x ∈ follow B L, x.1 < n := by
  intro x hx
  obtain ⟨y, hy, hx⟩ := List.mem_flatMap.1 hx
  obtain ⟨z, hz, rfl⟩ := List.mem_map.1 hx
  obtain ⟨j, hj, rfl⟩ := List.mem_map.1 hz
  exact h.col_lt (hL y hy) hj

/-- A row of a product of matrices. -/
theorem colSum_follow (h : B.Valid k n) (hL : ∀ x ∈ L, x.1 < k) (c : Nat) :
    colSum (follow B L) c = ∑ j ∈ range k, colSum L j * B.entry j c := by
  induction L with
  | nil => simp [follow]
  | cons x L ih =>
    have hx := hL x List.mem_cons_self
    have hrow : colSum ((B.row x.1).map fun y => (y.1, x.2 * y.2)) c = x.2 * B.entry x.1 c := by
      rw [← colSum_row h hx, colSum, colSum, List.map_map, ← List.sum_map_mul_left]
      simp only [Function.comp_def, mul_ite, mul_zero]
    have hcons : ∀ j, colSum (x :: L) j = (if x.1 = j then x.2 else 0) + colSum L j := fun j => by
      rw [colSum, List.map_cons, List.sum_cons, colSum]
    rw [follow, List.flatMap_cons, colSum_append, hrow]
    simp only [hcons, add_mul, sum_add_distrib, ite_mul, zero_mul]
    rw [sum_ite_eq, if_pos (mem_range.2 hx)]
    exact congrArg _ (ih fun y hy => hL y (List.mem_cons_of_mem _ hy))

/-- A loop over the rows at the columns of a row. -/
theorem forRow_follow {σ : Type} {f : σ → Nat → Nat → Except Fault σ}
    {g : σ → Nat × α → Except Fault σ} {x : Nat × α} (h : B.Valid k n) (hx : x.1 < k)
    (hfg : ∀ j ∈ B.cells x.1, ∀ s, f s (B.ja.cell j) j = g s (B.ja.cell j, x.2 * B.a.cell j))
    (s : σ) : forRow B x.1 f s = ((B.row x.1).map fun y => (y.1, x.2 * y.2)).foldlM g s := by
  rw [List.foldlM_map]
  exact h.forRow_row hx hfg s

/-- The matrix product, in terms of the rows. -/
theorem mul_entry (hA : A.Valid m k) (hB : B.Valid k n) (i : Fin m) (j : Fin n) :
    (A.toMatrix m k * B.toMatrix k n) i j = colSum (follow B (A.row i)) j := by
  rw [colSum_follow hB (hA.row_lt i.isLt), Matrix.mul_apply,
    ← Fin.sum_univ_eq_sum_range (fun l => colSum (A.row i) l * B.entry l j) k]
  exact sum_congr rfl fun l _ => by rw [colSum_row hA i.isLt, toMatrix, toMatrix]; rfl

/-- `SparseMatrix_multiply` gives the product. -/
theorem multiply_spec (hA : A.Valid m k) (hB : B.Valid k n) (htype : A.type = B.type) :
    Meets (SparseMatrix_multiply A B) (fun D => ∃ D', D = some D' ∧ D'.Valid m n ∧
      D'.type = A.type ∧ D'.Distinct m ∧ D'.toMatrix m n = A.toMatrix m k * B.toMatrix k n)
      fun _ => False := by
  rw [SparseMatrix_multiply, if_neg (by rw [hA.cols, hB.rows]; exact not_not.2 rfl),
    if_neg (not_not.2 htype), hA.rows, hB.cols]
  refine (rows_spec (fun i => follow B (A.row i)) (fun i hi => follow_lt hB (hA.row_lt hi))
    (fun i hi s => ?_) (fun i hi start acc => ?_) A.type).imp
    fun D ⟨D', hD, hvalid, ht, hdistinct, hmatrix⟩ => ⟨D', hD, hvalid, ht, hdistinct,
      hmatrix.trans (Matrix.ext fun i j => (mul_entry hA hB i j).symm)⟩
  · rw [follow, foldlM_flatMap]
    exact hA.forRow_row hi (fun j hj s => forRow_follow (x := (_, _)) hB (hA.col_lt hi hj)
      (fun _ _ _ => rfl) s) s
  · rw [follow, foldlM_flatMap]
    refine hA.forRow_row hi (fun j hj acc => forRow_follow (x := (_, _)) hB (hA.col_lt hi hj)
      (fun k hk acc => ?_) acc) acc
    rw [Buf.get_eq ((hA.lt_nz hi hj).trans_le hA.a_size),
      Buf.get_eq ((hB.lt_nz (hA.col_lt hi hj) hk).trans_le hB.a_size)]
    rfl

/-- `SparseMatrix_multiply3` gives the product, for real matrices. -/
theorem multiply3_spec (hA : A.Valid m k) (hB : B.Valid k l) (hC : C.Valid l n)
    (hAB : A.type = B.type) (hBC : B.type = C.type) (hreal : A.type = .MATRIX_TYPE_REAL) :
    Meets (SparseMatrix_multiply3 A B C) (fun D => ∃ D', D = some D' ∧ D'.Valid m n ∧
      D'.type = A.type ∧ D'.Distinct m ∧
      D'.toMatrix m n = A.toMatrix m k * B.toMatrix k l * C.toMatrix l n) fun _ => False := by
  rw [SparseMatrix_multiply3, if_neg (by rw [hA.cols, hB.rows]; exact not_not.2 rfl),
    if_neg (by rw [hB.cols, hC.rows]; exact not_not.2 rfl),
    if_neg (not_or.2 ⟨not_not.2 hAB, not_not.2 hBC⟩), hA.rows, hC.cols]
  refine Meets.assert hreal ?_
  refine (rows_spec (fun i => follow C (follow B (A.row i)))
    (fun i hi => follow_lt hC (follow_lt hB (hA.row_lt hi)))
    (fun i hi s => ?_) (fun i hi start acc => ?_) A.type).imp
    fun D ⟨D', hD, hvalid, ht, hdistinct, hmatrix⟩ => ⟨D', hD, hvalid, ht, hdistinct,
      hmatrix.trans (Matrix.ext fun i j => ?_)⟩
  · rw [follow, foldlM_flatMap, follow, foldlM_flatMap]
    refine hA.forRow_row hi (fun j hj s => forRow_follow (x := (_, _)) hB (hA.col_lt hi hj)
      (fun b hb s => ?_) s) s
    exact forRow_follow (x := (_, _)) hC (hB.col_lt (hA.col_lt hi hj) hb) (fun _ _ _ => rfl) s
  · rw [follow, foldlM_flatMap, follow, foldlM_flatMap]
    refine hA.forRow_row hi (fun j hj acc => forRow_follow (x := (_, _)) hB (hA.col_lt hi hj)
      (fun b hb acc => forRow_follow (x := (_, _)) hC (hB.col_lt (hA.col_lt hi hj) hb)
        (fun c hc acc => ?_) acc) acc) acc
    have hb' := hB.col_lt (hA.col_lt hi hj) hb
    rw [Buf.get_eq ((hA.lt_nz hi hj).trans_le hA.a_size),
      Buf.get_eq ((hB.lt_nz (hA.col_lt hi hj) hb).trans_le hB.a_size),
      Buf.get_eq ((hC.lt_nz hb' hc).trans_le hC.a_size)]
    rfl
  rw [Matrix.of_apply, colSum_follow hC (follow_lt hB (hA.row_lt i.isLt)), Matrix.mul_apply,
    ← Fin.sum_univ_eq_sum_range (fun b => colSum (follow B (A.row i)) b * C.entry b j) l]
  exact sum_congr rfl fun b _ => by rw [mul_entry hA hB]; rfl

end Graphviz.Sparse

/-!
## Sparse matrices denote matrix algebra

The operations on valid matrices return, without an access outside of the arrays that they
allocate, a valid matrix that denotes what it should.
-/

namespace Graphviz.Sparse

open Outcome SparseMatrix

variable {α : Type} [Semiring α]

/-- Each operation gives a valid matrix for what it is meant to compute; a product of three is for
real matrices alone. -/
theorem operations_denote :
    (∀ (nz m n : Nat) (irn jcn : Buf Int) (val : Buf α) (type : MatrixType), 0 < m ∧ 0 < n →
      nz ≤ irn.size → nz ≤ jcn.size → nz ≤ val.size →
      (∀ k < nz, (0 ≤ irn.cell k ∧ irn.cell k < m) ∧ 0 ≤ jcn.cell k ∧ jcn.cell k < n) →
      ∃ B, SparseMatrix_from_coordinate_arrays nz m n irn jcn val type = .ok B ∧ B.Valid m n ∧
        B.toMatrix m n = coordSum nz m n irn jcn val) ∧
    (∀ (m n : Nat) (A : SparseMatrix α), A.Valid m n →
      ∃ B, SparseMatrix_transpose A = .ok B ∧ B.Valid n m ∧
        B.toMatrix n m = (A.toMatrix m n).transpose) ∧
    (∀ (m n : Nat) (A : SparseMatrix α), A.Valid m n →
      ∃ B, SparseMatrix_sum_repeat_entries A = .ok B ∧ B.Valid m n ∧ B.Distinct m ∧
        B.toMatrix m n = A.toMatrix m n) ∧
    (∀ (m n : Nat) (A B : SparseMatrix α), A.Valid m n → B.Valid m n → A.type = B.type →
      ∃ C, SparseMatrix_add A B = .ok (some C) ∧ C.Valid m n ∧
        (A.Distinct m → B.Distinct m → C.Distinct m) ∧
        C.toMatrix m n = A.toMatrix m n + B.toMatrix m n) ∧
    (∀ (m k n : Nat) (A B : SparseMatrix α), A.Valid m k → B.Valid k n → A.type = B.type →
      ∃ C, SparseMatrix_multiply A B = .ok (some C) ∧ C.Valid m n ∧ C.Distinct m ∧
        C.toMatrix m n = A.toMatrix m k * B.toMatrix k n) ∧
    ∀ (m k l n : Nat) (A B C : SparseMatrix α), A.Valid m k → B.Valid k l → C.Valid l n →
      A.type = B.type → B.type = C.type → A.type = .MATRIX_TYPE_REAL →
      ∃ D, SparseMatrix_multiply3 A B C = .ok (some D) ∧ D.Valid m n ∧ D.Distinct m ∧
        D.toMatrix m n = A.toMatrix m k * B.toMatrix k l * C.toMatrix l n := by
  refine ⟨fun nz m n irn jcn val type hmn hirn hjcn hval hin => ?_, fun m n A hA => ?_,
    fun m n A hA => ?_, fun m n A B hA hB ht => ?_, fun m k n A B hA hB ht => ?_,
    fun m k l n A B C hA hB hC ht ht' hreal => ?_⟩
  · have hspec : Meets (SparseMatrix_from_coordinate_arrays nz m n irn jcn val type) _ _ :=
      from_coordinate_arrays_spec hmn hirn hjcn hval hin
    obtain ⟨B, heq, hvalid, -, -, hmatrix⟩ := hspec.exists_ok
    exact ⟨B, heq, hvalid, hmatrix⟩
  · obtain ⟨B, heq, hvalid, -, hmatrix⟩ := (transpose_spec hA).exists_ok
    exact ⟨B, heq, hvalid, hmatrix⟩
  · obtain ⟨B, heq, hvalid, -, hdistinct, hmatrix⟩ := (sum_repeat_entries_spec hA).exists_ok
    exact ⟨B, heq, hvalid, hdistinct, hmatrix⟩
  · obtain ⟨_, heq, C, rfl, hvalid, -, hdistinct, hmatrix⟩ := (add_spec hA hB ht).exists_ok
    exact ⟨C, heq, hvalid, hdistinct, hmatrix⟩
  · obtain ⟨_, heq, C, rfl, hvalid, -, hdistinct, hmatrix⟩ := (multiply_spec hA hB ht).exists_ok
    exact ⟨C, heq, hvalid, hdistinct, hmatrix⟩
  · obtain ⟨_, heq, D, rfl, hvalid, -, hdistinct, hmatrix⟩ :=
      (multiply3_spec hA hB hC ht ht' hreal).exists_ok
    exact ⟨D, heq, hvalid, hdistinct, hmatrix⟩

/-- Two rows, the first with two entries at column 1. -/
def repeated : SparseMatrix Int :=
  ⟨2, 2, 3, .MATRIX_TYPE_REAL, ⟨3, fun i => [0, 2, 3].getD i 0⟩, ⟨3, fun k => [1, 1, 0].getD k 0⟩,
    ⟨3, fun k => [5, 7, 2].getD k 0⟩⟩

theorem repeated_valid : repeated.Valid 2 2 :=
  ⟨rfl, rfl, by decide, rfl, by decide, rfl, by decide, by decide, by decide⟩

/-- The operations on a matrix with a repeated entry. -/
theorem operations_denote_repeated :
    (∃ B, SparseMatrix_sum_repeat_entries repeated = .ok B ∧ B.Valid 2 2 ∧ B.Distinct 2 ∧
      B.toMatrix 2 2 = repeated.toMatrix 2 2) ∧
    ∃ D, SparseMatrix_multiply3 repeated repeated repeated = .ok (some D) ∧ D.Valid 2 2 ∧
      D.Distinct 2 ∧ D.toMatrix 2 2 =
        repeated.toMatrix 2 2 * repeated.toMatrix 2 2 * repeated.toMatrix 2 2 :=
  ⟨operations_denote.2.2.1 2 2 repeated repeated_valid,
    operations_denote.2.2.2.2.2 2 2 2 2 repeated repeated repeated repeated_valid repeated_valid
      repeated_valid rfl rfl rfl⟩

/-- A product of three integer matrices stops at an assertion. -/
theorem multiply3_integer :
    (SparseMatrix_new 1 1 0 .MATRIX_TYPE_INTEGER : SparseMatrix Int).Valid 1 1 ∧
      SparseMatrix_multiply3 (SparseMatrix_new 1 1 0 .MATRIX_TYPE_INTEGER : SparseMatrix Int)
        (SparseMatrix_new 1 1 0 .MATRIX_TYPE_INTEGER) (SparseMatrix_new 1 1 0 .MATRIX_TYPE_INTEGER) =
        .error .assertion :=
  ⟨⟨rfl, rfl, by decide, rfl, by decide, rfl, by decide, by decide, by decide⟩, rfl⟩

end Graphviz.Sparse
