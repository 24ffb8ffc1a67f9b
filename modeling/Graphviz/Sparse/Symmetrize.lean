import Graphviz.Sparse.LevelSets
import Graphviz.Sparse.Sum

/-!
# Symmetric matrices

`SparseMatrix_is_symmetric` compares a matrix with its transpose, unless a flag of the matrix says
that it is symmetric, and `SparseMatrix_symmetrize` adds the transpose if the matrix is not
symmetric. Neither changes the graph of a matrix with a symmetric pattern.
-/

namespace Graphviz.Sparse

open List Outcome SparseMatrix

variable {α : Type}

/-- A matrix with its flags. -/
structure FlaggedMatrix (α : Type) where
  matrix : SparseMatrix α
  is_symmetric : Bool
  is_pattern_symmetric : Bool

section
variable [Semiring α]

/-- The round of the loop over the rows: `false` is `goto RETURN`. The values of real matrices
differ if they are more than `SYMMETRY_EPSILON` apart. -/
def matchRow (differ : α → α → Bool) (type : MatrixType) (A B : SparseMatrix α) (mask : Buf Int)
    (i : Nat) : Except Fault (Bool × Buf Int) := do
  let mask ← forRow A i (fun (mask : Buf Int) c j => mask.set c j) mask
  let lo ← A.ia.get i
  let js ← rowIndices B.ia i
  let found ← js.allM fun j => do
    let c ← B.ja.get j
    let p ← mask.get c
    .ok (decide (lo ≤ p))
  if found && type != .MATRIX_TYPE_PATTERN then do
    let same ← js.allM fun j => do
      let c ← B.ja.get j
      let p ← mask.get c
      let x ← B.a.get j
      let y ← A.a.get p.toNat
      .ok (!differ x y)
    .ok (same, mask)
  else .ok (found, mask)

/-- The loop over the rows. -/
def matchRows (differ : α → α → Bool) (type : MatrixType) (A B : SparseMatrix α) :
    List Nat → Buf Int → Except Fault Bool
  | [], _ => .ok true
  | i :: is, mask => do
    let (same, mask) ← matchRow differ type A B mask i
    if same then matchRows differ type A B is mask else .ok false

/-- `for (i = 0; i <= m; i++) if (ia[i] != ib[i]) goto RETURN`, of real matrices. -/
def matchPointers (type : MatrixType) (A B : SparseMatrix α) : Except Fault Bool :=
  if type = .MATRIX_TYPE_REAL then (List.range' 0 (A.m + 1)).allM fun i => do
    let x ← A.ia.get i
    let y ← B.ia.get i
    .ok (decide (x = y))
  else .ok true

/-- The comparison of a matrix with its transpose. -/
def matchMatrix (differ : α → α → Bool) (type : MatrixType) (A B : SparseMatrix α) :
    Except Fault Bool := do
  let mask ← (List.range' 0 A.m).foldlM (fun mask i => mask.set i (-1)) (.calloc A.m : Buf Int)
  let same ← matchPointers type A B
  if same then matchRows differ type A B (List.range' 0 A.m) mask else .ok false

/-- `SparseMatrix_is_symmetric`: the result, and the matrix with the flags that it sets. -/
def SparseMatrix_is_symmetric (differ : α → α → Bool) (A : FlaggedMatrix α)
    (test_pattern_symmetry_only : Bool) : Except Fault (Bool × FlaggedMatrix α) :=
  if A.is_symmetric then .ok (true, A)
  else if test_pattern_symmetry_only && A.is_pattern_symmetric then .ok (true, A)
  else if A.matrix.m ≠ A.matrix.n then .ok (false, A)
  else do
    let B ← SparseMatrix_transpose A.matrix
    let type := if test_pattern_symmetry_only then .MATRIX_TYPE_PATTERN else A.matrix.type
    let res ← matchMatrix differ type A.matrix B
    if res then .ok (true, { A with
      is_symmetric := A.is_symmetric || !test_pattern_symmetry_only
      is_pattern_symmetric := true })
    else .ok (false, A)

/-- `memcpy` of `k` cells into a new block. -/
def copyCells {β : Type} [Zero β] (size k : Nat) (b : Buf β) : Except Fault (Buf β) :=
  if k ≤ b.size ∧ k ≤ size then .ok ⟨size, fun i => if i < k then b.cell i else 0⟩
  else .error .segfault

/-- `SparseMatrix_copy`. -/
def SparseMatrix_copy (A : FlaggedMatrix α) : Except Fault (FlaggedMatrix α) := do
  let M := A.matrix
  let ia ← copyCells (M.m + 1) (M.m + 1) M.ia
  let last ← M.ia.get M.m
  let ja ← copyCells M.nz last M.ja
  let a ← copyCells M.nz M.nz M.a
  .ok { A with matrix := { M with ia, ja, a } }

/-- `SparseMatrix_symmetrize`. -/
def SparseMatrix_symmetrize (differ : α → α → Bool) (A : FlaggedMatrix α)
    (pattern_symmetric_only : Bool) : Except Fault (FlaggedMatrix α) := do
  let (same, A) ← SparseMatrix_is_symmetric differ A pattern_symmetric_only
  if same then SparseMatrix_copy A
  else do
    let B ← SparseMatrix_transpose A.matrix
    match ← SparseMatrix_add A.matrix B with
    | none => .error .segfault
    | some C => .ok ⟨C, true, true⟩

/-- `if (!SparseMatrix_is_symmetric(A, ..)) A = SparseMatrix_symmetrize(A, ..)`. -/
def undirected (differ : α → α → Bool) (A : FlaggedMatrix α) (pattern_only : Bool) :
    Except Fault (SparseMatrix α) := do
  let (same, A) ← SparseMatrix_is_symmetric differ A pattern_only
  if same then .ok A.matrix
  else do
    let A ← SparseMatrix_symmetrize differ A pattern_only
    .ok A.matrix

end

variable {A B : SparseMatrix α} {n i : Nat}

/-! ## The test -/

theorem meets_allM {β : Type} {E : Fault → Prop} {f : β → Except Fault Bool} {Q : β → Prop}
    {l : List β} (h : ∀ x ∈ l, Meets (f x) (fun b => b = true → Q x) E) :
    Meets (l.allM f) (fun b => b = true → ∀ x ∈ l, Q x) E := by
  induction l with
  | nil => exact fun _ => nofun
  | cons x l ih =>
    rw [List.allM]
    refine (h x mem_cons_self).bind fun b hb => ?_
    cases b with
    | false => exact fun h => (nomatch h)
    | true =>
      refine (ih fun y hy => h y (mem_cons_of_mem _ hy)).imp fun b hall hb' y hy => ?_
      obtain rfl | hy := mem_cons.1 hy
      · exact hb rfl
      · exact hall hb' y hy

theorem SparseMatrix.Valid.rowIndices_eq (h : A.Valid n n) (hi : i < n) :
    rowIndices A.ia i = .ok (A.cells i) := by
  have hsize := h.ia_size
  rw [rowIndices, Buf.get_eq (by omega), ok_bind, Buf.get_eq (by omega), ok_bind]
  rfl

/-- A mask of indices of entries of the rows before the `i`-th. -/
structure IndexMask (A : SparseMatrix α) (n i : Nat) (mask : Buf Int) : Prop where
  size : mask.size = n
  lt : ∀ c < n, mask.cell c < A.ia.cell i

/-- The entries of a row of the second matrix have columns of that row of the first one. -/
def Within (A B : SparseMatrix α) (i : Nat) : Prop :=
  ∀ j ∈ B.cells i, B.ja.cell j ∈ A.cols i

/-- A row is compared without a fault, and is found to be the same only if it is within the first
matrix. -/
theorem matchRow_returns {differ : α → α → Bool} {type : MatrixType} {mask : Buf Int}
    (hA : A.Valid n n) (hB : B.Valid n n) (hi : i < n) (hmask : IndexMask A n i mask) :
    Meets (matchRow differ type A B mask i)
      (fun r => IndexMask A n (i + 1) r.2 ∧ (r.1 = true → Within A B i)) fun _ => False := by
  have hia := hA.ia_size
  have hja := hB.ja_size
  have ha := hA.a_size
  have hb := hB.a_size
  have hmono := hA.mono i hi
  have hend := hA.ia_le (show i + 1 ≤ n from hi) (Nat.le_refl n)
  rw [hA.last] at hend
  rw [matchRow, hA.forRow_eq hi]
  refine (Meets.foldlM (fun rest (mask : Buf Int) => (∀ j ∈ rest, j ∈ A.cells i) ∧ mask.size = n ∧
    ∀ c < n, mask.cell c < A.ia.cell i ∨ ∃ k ∈ A.cells i, A.ja.cell k = c ∧ mask.cell c = k)
    (fun j rest mask ⟨hin, hsize, hm⟩ => ?_) _
    ⟨fun _ => id, hmask.size, fun c hc => Or.inl (hmask.lt c hc)⟩).bind
    fun mask ⟨_, hsize, hm⟩ => ?_
  · have hj := hin j mem_cons_self
    rw [Buf.set_eq (by rw [hsize]; exact hA.col_lt hi hj)]
    refine ⟨fun k hk => hin k (mem_cons_of_mem _ hk), hsize, fun c hc => ?_⟩
    rw [Buf.upd_cell]
    split
    next heq => exact Or.inr ⟨j, hj, heq.symm, rfl⟩
    next => exact hm c hc
  · have hlt : ∀ c < n, mask.cell c < A.ia.cell (i + 1) := fun c hc => by
      obtain hc | ⟨k, hk, -, hck⟩ := hm c hc
      · omega
      · have := (mem_cells.1 hk).2
        omega
    refine Buf.meets_get (by omega) ?_
    rw [hB.rowIndices_eq hi, ok_bind]
    refine (meets_allM (Q := fun j => (A.ia.cell i : Int) ≤ mask.cell (B.ja.cell j))
      fun j hj => ?_).bind fun found hfound => ?_
    · refine Buf.meets_get ((hB.lt_nz hi hj).trans_le hja) (Buf.meets_get ?_ ?_)
      · rw [hsize]
        exact hB.col_lt hi hj
      · exact fun h => of_decide_eq_true h
    have hwithin : found = true → Within A B i := fun hf j hj => by
      obtain hlo | ⟨k, hk, hkj, -⟩ := hm _ (hB.col_lt hi hj)
      · exact absurd (hfound hf j hj) (by omega)
      · exact hkj ▸ mem_map_of_mem hk
    split
    next hgo =>
      rw [Bool.and_eq_true] at hgo
      refine (meets_allM (Q := fun _ => True) fun j hj => ?_).bind fun _ _ =>
        ⟨⟨hsize, hlt⟩, fun _ => hwithin hgo.1⟩
      have hlo := hfound hgo.1 j hj
      have hhi := hlt _ (hB.col_lt hi hj)
      refine Buf.meets_get ((hB.lt_nz hi hj).trans_le hja) (Buf.meets_get ?_
        (Buf.meets_get ((hB.lt_nz hi hj).trans_le hb) (Buf.meets_get (by omega) ?_)))
      · rw [hsize]
        exact hB.col_lt hi hj
      · exact fun _ => trivial
    next => exact ⟨⟨hsize, hlt⟩, hwithin⟩

theorem matchRows_returns {differ : α → α → Bool} {type : MatrixType} (hA : A.Valid n n)
    (hB : B.Valid n n) {k : Nat} (hk : i + k = n) {mask : Buf Int} (hmask : IndexMask A n i mask) :
    Meets (matchRows differ type A B (List.range' i k) mask)
      (fun same => same = true → ∀ r, i ≤ r → r < n → Within A B r) fun _ => False := by
  induction k generalizing i mask with
  | zero => exact fun _ r hir hr => by omega
  | succ k ih =>
    rw [range'_succ, matchRows]
    refine (matchRow_returns hA hB (by omega) hmask).bind fun ⟨same, mask⟩ ⟨hm, hw⟩ => ?_
    dsimp only
    split
    next hsame =>
      refine (ih (by omega) hm).imp fun all hall h r hir hr => ?_
      obtain rfl | hlt := hir.eq_or_lt
      · exact hw hsame
      · exact hall h r hlt hr
    next => exact fun h => (nomatch h)

/-- The comparison returns, and succeeds only if the second matrix has the places of the first one
alone. -/
theorem matchMatrix_returns {differ : α → α → Bool} {type : MatrixType} (hA : A.Valid n n)
    (hB : B.Valid n n) : Meets (matchMatrix differ type A B)
      (fun same => same = true → ∀ i < n, Within A B i) fun _ => False := by
  have hia := hA.ia_size
  have hib := hB.ia_size
  rw [matchMatrix, hA.rows]
  refine (Meets.range' _ 0 n (fun k (mask : Buf Int) => mask.size = n ∧ ∀ c < k, mask.cell c = -1)
    (fun k hk mask ⟨hs, hall⟩ => ?_) _ ⟨rfl, nofun⟩).bind fun mask ⟨hs, hall⟩ => ?_
  · rw [Nat.zero_add, Buf.set_eq (by omega)]
    refine ⟨hs, fun c hc => ?_⟩
    rw [Buf.upd_cell]
    split
    · rfl
    · exact hall c (by omega)
  · have hpointers : Meets (matchPointers type A B) (fun _ => True) fun _ => False := by
      rw [matchPointers, hA.rows]
      split
      · refine (meets_allM (Q := fun _ => True) fun i hi => ?_).imp fun _ _ => trivial
        rw [mem_range'_1] at hi
        exact Buf.meets_get (by omega) (Buf.meets_get (by omega) fun _ => trivial)
      · trivial
    have hmask : IndexMask A n 0 mask := ⟨hs, fun c hc => by rw [hall c hc]; omega⟩
    refine hpointers.bind fun same _ => ?_
    split
    · exact (matchRows_returns hA hB (Nat.zero_add n) hmask).imp fun _ h hs i hi =>
        h hs i (Nat.zero_le i) hi
    · exact fun h => (nomatch h)

section
variable [Semiring α] {differ : α → α → Bool} {A : FlaggedMatrix α}

/-- The test returns, and changes no more than the flags. -/
theorem is_symmetric_returns (hA : A.matrix.Valid n n) (test_pattern_symmetry_only : Bool) :
    Meets (SparseMatrix_is_symmetric differ A test_pattern_symmetry_only)
      (fun r => r.2.matrix = A.matrix) fun _ => False := by
  rw [SparseMatrix_is_symmetric]
  split
  · rfl
  split
  · rfl
  split
  · rfl
  refine (transpose_spec hA).bind fun B ⟨hB, _⟩ => ?_
  refine (matchMatrix_returns hA hB).bind fun res _ => ?_
  split <;> rfl

/-! ## The symmetrized matrix -/

omit [Semiring α] in
theorem graph_congr {A B : SparseMatrix α} (h : ∀ i < n, ∀ j, j ∈ B.cols i ↔ j ∈ A.cols i) :
    B.graph n = A.graph n := by
  have hadj : ∀ i j, (i < n ∧ j ∈ B.cols i) ↔ (i < n ∧ j ∈ A.cols i) :=
    fun i j => and_congr_right fun hi => h i hi j
  simp only [SparseMatrix.graph, hadj]

/-- A matrix with the pattern of another one. -/
structure SamePattern (n : Nat) (A B : SparseMatrix α) : Prop where
  valid : B.Valid n n
  cols : ∀ i < n, ∀ j, j ∈ B.cols i ↔ j ∈ A.cols i

omit [Semiring α] in
theorem SamePattern.symmetric {A B : SparseMatrix α} (hA : A.Valid n n)
    (hsym : A.SymmetricPattern n) (h : SamePattern n A B) : B.SymmetricPattern n := by
  intro i hi j hj
  have hj := (h.cols i hi j).1 hj
  exact (h.cols j (hA.mem_cols hi hj) i).2 (hsym i hi j hj)

theorem copyCells_spec {β : Type} [Zero β] {size k : Nat} {b : Buf β} (hb : k ≤ b.size)
    (hsize : k ≤ size) : Meets (copyCells size k b) (fun b' => b'.size = size ∧
      ∀ i < k, b'.cell i = b.cell i) fun _ => False := by
  rw [copyCells, if_pos ⟨hb, hsize⟩]
  exact ⟨rfl, fun i hi => if_pos hi⟩

/-- A copy has the entries of the matrix. -/
theorem copy_pattern (hA : A.matrix.Valid n n) :
    Meets (SparseMatrix_copy A) (fun B => SamePattern n A.matrix B.matrix) fun _ => False := by
  have hlast := hA.last
  rw [SparseMatrix_copy, hA.rows]
  refine (copyCells_spec hA.ia_size (le_refl _)).bind fun ia ⟨hia, hia'⟩ => ?_
  refine Buf.meets_get hA.ia_size ?_
  rw [hlast]
  refine (copyCells_spec hA.ja_size (le_refl _)).bind fun ja ⟨hja, hja'⟩ => ?_
  refine (copyCells_spec hA.a_size (le_refl _)).bind fun a ⟨ha, ha'⟩ => ?_
  have hcells : ∀ i < n, ∀ B : SparseMatrix α, B.ia = ia → B.cells i = A.matrix.cells i := by
    rintro i hi B rfl
    rw [SparseMatrix.cells, SparseMatrix.cells, hia' i (by omega), hia' (i + 1) (by omega)]
  refine ⟨⟨rfl, hA.cols, hia.ge, (hia' 0 (by omega)).trans hA.first, fun i hi => ?_,
    (hia' n (by omega)).trans hlast, hja.ge, ha.ge, fun k hk => ?_⟩, fun i hi j => ?_⟩
  · dsimp only
    rw [hia' i (by omega), hia' (i + 1) (by omega)]
    exact hA.mono i hi
  · exact (hja' k hk).trans_lt (hA.inRange k hk)
  · have hcols : ∀ k ∈ A.matrix.cells i, ja.cell k = A.matrix.ja.cell k :=
      fun k hk => hja' k (hA.lt_nz hi hk)
    rw [SparseMatrix.cols, hcells i hi _ rfl, map_congr_left hcols, SparseMatrix.cols]

/-- The sum of a matrix and its transpose has the pattern of the matrix, if that is symmetric. -/
theorem add_transpose_pattern {A : SparseMatrix α} (hA : A.Valid n n)
    (hsym : A.SymmetricPattern n) :
    Meets (SparseMatrix_transpose A >>= SparseMatrix_add A)
      (fun C => ∃ C', C = some C' ∧ SamePattern n A C') fun _ => False := by
  refine (transpose_pattern hA).bind fun B ⟨⟨hB, htype, _⟩, hcols⟩ => ?_
  refine (add_columns hA hB htype.symm).imp fun C ⟨C', hC, ⟨hvalid, _⟩, hadd⟩ =>
    ⟨C', hC, hvalid, fun i hi j => ?_⟩
  have hback : ∀ j ∈ (B.cells i).map B.ja.cell, j ∈ A.cols i := by
    intro j hj
    obtain ⟨k, hk, rfl⟩ := mem_map.1 hj
    obtain ⟨k', hk', hki⟩ := hcols i hi k hk
    have hrow : i ∈ A.cols (B.ja.cell k) := hki ▸ mem_map_of_mem hk'
    exact hsym _ (hB.col_lt hi hk) i hrow
  rw [SparseMatrix.cols, hadd i hi, addCols, map_fst_row, map_fst_row, mem_append]
  exact ⟨fun h => h.elim id fun h => hback j (mem_filter.1 h).1, .inl⟩

/-- `SparseMatrix_symmetrize` keeps a symmetric pattern. -/
theorem symmetrize_pattern (hA : A.matrix.Valid n n) (hsym : A.matrix.SymmetricPattern n)
    (pattern_symmetric_only : Bool) :
    Meets (SparseMatrix_symmetrize differ A pattern_symmetric_only)
      (fun B => SamePattern n A.matrix B.matrix) fun _ => False := by
  rw [SparseMatrix_symmetrize]
  refine (is_symmetric_returns hA pattern_symmetric_only).bind fun ⟨same, A'⟩ hA' => ?_
  dsimp only at hA' ⊢
  rw [← hA'] at hA hsym ⊢
  split
  · exact copy_pattern hA
  · obtain ⟨C, hrun, C', rfl, hC⟩ := (add_transpose_pattern hA hsym).exists_ok
    obtain ⟨B, hB, hadd⟩ := bind_eq_ok.1 hrun
    rw [hB, ok_bind, hadd, ok_bind]
    exact hC

/-- The matrix that is searched has the pattern of the one that is given. -/
theorem undirected_pattern (hA : A.matrix.Valid n n) (hsym : A.matrix.SymmetricPattern n)
    (pattern_only : Bool) :
    Meets (undirected differ A pattern_only) (SamePattern n A.matrix) fun _ => False := by
  rw [undirected]
  refine (is_symmetric_returns hA pattern_only).bind fun ⟨same, A'⟩ hA' => ?_
  dsimp only at hA' ⊢
  rw [← hA'] at hA hsym ⊢
  split
  · exact ⟨hA, fun _ _ _ => Iff.rfl⟩
  · exact (symmetrize_pattern hA hsym pattern_only).bind fun B hB => hB

/-! ## The places of a symmetrized matrix -/

/-- No entry has the value zero. -/
def SparseMatrix.NonzeroEntries (A : SparseMatrix α) (n : Nat) : Prop :=
  ∀ i < n, ∀ j ∈ A.cols i, A.entry i j ≠ 0

/-- A value that is not zero has an entry. -/
theorem SparseMatrix.mem_cols_of_entry {A : SparseMatrix α} {c : Nat} (h : A.entry i c ≠ 0) :
    c ∈ A.cols i := by
  rw [entry, segSum] at h
  obtain ⟨k, hk, hne⟩ := Finset.exists_ne_zero_of_sum_ne_zero h
  rw [Finset.mem_Ico] at hk
  obtain ⟨rfl, -⟩ := ite_ne_right_iff.1 hne
  exact mem_map_of_mem (mem_cells.2 hk)

/-- The transpose has an entry where the matrix has one at the place that it comes from. -/
theorem transpose_cols {A : SparseMatrix α} (hA : A.Valid n n) (hval : A.NonzeroEntries n) :
    Meets (SparseMatrix_transpose A) (fun B => (B.Valid n n ∧ B.type = A.type) ∧
      ∀ i < n, ∀ j < n, j ∈ B.cols i ↔ i ∈ A.cols j) fun _ => False := by
  refine (transpose_pattern hA).imp fun B ⟨⟨hB, htype, hmatrix⟩, hcols⟩ =>
    ⟨⟨hB, htype⟩, fun i hi j hj => ⟨fun h => ?_, fun h => ?_⟩⟩
  · obtain ⟨k, hk, rfl⟩ := mem_map.1 h
    obtain ⟨l, hl, rfl⟩ := hcols i hi k hk
    exact mem_map_of_mem hl
  · have hentry : B.entry i j = A.entry j i := congrFun (congrFun hmatrix ⟨i, hi⟩) ⟨j, hj⟩
    exact mem_cols_of_entry (hentry ▸ hval j hj i h)

/-- A matrix without a flag is found to be symmetric only if its pattern is. -/
theorem is_symmetric_sound (hA : A.matrix.Valid n n) (hval : A.matrix.NonzeroEntries n)
    (hflag : A.is_symmetric = false) (hflag' : A.is_pattern_symmetric = false)
    (test_pattern_symmetry_only : Bool) :
    Meets (SparseMatrix_is_symmetric differ A test_pattern_symmetry_only)
      (fun r => r.2.matrix = A.matrix ∧ (r.1 = true → A.matrix.SymmetricPattern n))
      fun _ => False := by
  rw [SparseMatrix_is_symmetric, hflag, hflag', Bool.and_false, if_neg Bool.false_ne_true,
    if_neg Bool.false_ne_true, if_neg (by rw [hA.rows, hA.cols]; exact not_not.2 rfl)]
  refine (transpose_cols hA hval).bind fun B ⟨⟨hB, _⟩, hcols⟩ => ?_
  refine (matchMatrix_returns hA hB).bind fun res hres => ?_
  split
  next htrue =>
    refine ⟨rfl, fun _ i hi j hj => ?_⟩
    have hjn := hA.mem_cols hi hj
    obtain ⟨k, hk, rfl⟩ := mem_map.1 ((hcols j hjn i hi).2 hj)
    exact hres htrue j hjn k hk
  next => exact ⟨rfl, fun h => (nomatch h)⟩

/-- A matrix that has the places of another one and of its transpose. -/
structure Symmetrized (n : Nat) (A B : SparseMatrix α) : Prop where
  valid : B.Valid n n
  cols : ∀ i < n, ∀ j < n, j ∈ B.cols i ↔ j ∈ A.cols i ∨ i ∈ A.cols j

/-- `SparseMatrix_symmetrize`, of a matrix without a flag. -/
theorem symmetrize_cols (hA : A.matrix.Valid n n) (hval : A.matrix.NonzeroEntries n)
    (hflag : A.is_symmetric = false) (hflag' : A.is_pattern_symmetric = false)
    (pattern_symmetric_only : Bool) :
    Meets (SparseMatrix_symmetrize differ A pattern_symmetric_only)
      (fun B => Symmetrized n A.matrix B.matrix) fun _ => False := by
  rw [SparseMatrix_symmetrize]
  refine (is_symmetric_sound hA hval hflag hflag' pattern_symmetric_only).bind
    fun ⟨same, A'⟩ ⟨hA', hsound⟩ => ?_
  dsimp only at hA' hsound ⊢
  rw [← hA'] at hA hval hsound ⊢
  split
  next hsame =>
    refine (copy_pattern hA).imp fun B hB => ⟨hB.valid, fun i hi j hj => (hB.cols i hi j).trans ?_⟩
    exact ⟨Or.inl, fun h => h.elim id (hsound hsame j hj i)⟩
  · refine (transpose_cols hA hval).bind fun B ⟨⟨hB, htype⟩, hcols⟩ => ?_
    refine (add_columns hA hB htype.symm).bind fun C ⟨C', hC, ⟨hvalid, _⟩, hadd⟩ => ?_
    rw [hC]
    refine ⟨hvalid, fun i hi j hj => ?_⟩
    rw [← hcols i hi j hj, SparseMatrix.cols, SparseMatrix.cells, ← SparseMatrix.cells, hadd i hi,
      addCols, map_fst_row, map_fst_row, mem_append, mem_filter]
    refine ⟨fun h => h.imp_right And.left, fun h => ?_⟩
    obtain h | h := h
    · exact Or.inl h
    · obtain hmem | hmem := Classical.em (j ∈ A'.matrix.cols i)
      · exact Or.inl hmem
      · refine Or.inr ⟨h, decide_eq_true fun hc => hmem ?_⟩
        rwa [columns, map_fst_row, mem_toFinset] at hc

end

end Graphviz.Sparse
