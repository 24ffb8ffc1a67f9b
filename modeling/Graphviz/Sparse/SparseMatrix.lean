import Graphviz.Util.Fault
import Mathlib

/-!
# Arrays of C

A block of memory with a fixed number of cells. Reading and writing outside of it is a fault.
-/

namespace Graphviz

open Outcome

/-- A block of `size` cells. -/
structure Buf (α : Type) where
  size : Nat
  cell : Nat → α

namespace Buf

variable {α β : Type} {b : Buf α} {i : Nat} {x : α} {P : β → Prop} {E : Fault → Prop}

/-- `gv_calloc`. -/
def calloc [Zero α] (n : Nat) : Buf α :=
  ⟨n, fun _ => 0⟩

/-- The block with one cell changed. -/
def upd (b : Buf α) (i : Nat) (x : α) : Buf α :=
  ⟨b.size, Function.update b.cell i x⟩

/-- `b[i]`. -/
def get (b : Buf α) (i : Nat) : Except Fault α :=
  if i < b.size then .ok (b.cell i) else .error .segfault

/-- `b[i] = x`. -/
def set (b : Buf α) (i : Nat) (x : α) : Except Fault (Buf α) :=
  if i < b.size then .ok (b.upd i x) else .error .segfault

@[simp] theorem upd_size : (b.upd i x).size = b.size := rfl

theorem upd_cell (j : Nat) : (b.upd i x).cell j = if j = i then x else b.cell j :=
  Function.update_apply ..

@[simp] theorem upd_cell_self : (b.upd i x).cell i = x :=
  Function.update_self ..

theorem upd_cell_ne {j : Nat} (h : j ≠ i) : (b.upd i x).cell j = b.cell j :=
  Function.update_of_ne h ..

theorem get_eq (h : i < b.size) : b.get i = .ok (b.cell i) :=
  if_pos h

theorem set_eq (h : i < b.size) : b.set i x = .ok (b.upd i x) :=
  if_pos h

/-- A cell of the block is read. -/
theorem meets_get {f : α → Except Fault β} (h : i < b.size) (hf : Meets (f (b.cell i)) P E) :
    Meets (b.get i >>= f) P E := by
  rw [get_eq h]; exact hf

/-- A cell of the block is written. -/
theorem meets_set {f : Buf α → Except Fault β} (h : i < b.size) (hf : Meets (f (b.upd i x)) P E) :
    Meets (b.set i x >>= f) P E := by
  rw [set_eq h]; exact hf

end Buf

end Graphviz

/-!
## Sparse matrices

`lib/sparse/SparseMatrix.c`: matrices in compressed row form and the operations that build them.
Entries are exact, in any semiring; the branches of a `switch (type)` differ in the C type of the
entries alone, and are one text here. Indices and counts are natural numbers, so that the checks
for a counter that overflows have nothing to do. The arrays have bounds, and an access outside of
them is a fault.
-/

namespace Graphviz.Sparse

open Outcome

/-- The values of `type`. -/
inductive MatrixType where
  | MATRIX_TYPE_REAL
  | MATRIX_TYPE_INTEGER
  | MATRIX_TYPE_PATTERN
  deriving DecidableEq, Repr

/-- `SparseMatrix_struct`, in the format `FORMAT_CSR`; `nzmax` is the size of `ja`. -/
structure SparseMatrix (α : Type) where
  m : Nat
  n : Nat
  nz : Nat
  type : MatrixType
  ia : Buf Nat
  ja : Buf Nat
  a : Buf α

variable {α : Type} [Semiring α]

/-- `SparseMatrix_new`, for a matrix in compressed row form. -/
def SparseMatrix_new (m n nz : Nat) (type : MatrixType) : SparseMatrix α :=
  ⟨m, n, 0, type, .calloc (m + 1), .calloc nz, .calloc nz⟩

/-- The indices of the loop `for (j = ia[i]; j < ia[i+1]; j++)`. -/
def rowIndices (ia : Buf Nat) (i : Nat) : Except Fault (List Nat) := do
  let lo ← ia.get i
  let hi ← ia.get (i + 1)
  .ok (List.range' lo (hi - lo))

/-- The loop over the entries of a row: the body is given the column and the index. -/
def forRow {σ : Type} (A : SparseMatrix α) (i : Nat) (f : σ → Nat → Nat → Except Fault σ) (s : σ) :
    Except Fault σ := do
  let js ← rowIndices A.ia i
  js.foldlM (fun s j => do
    let c ← A.ja.get j
    f s c j) s

/-! ## Sorting entries into rows -/

/-- `ib[c+1]++`. -/
def countEntry (ib : Buf Nat) (c : Nat) : Except Fault (Buf Nat) := do
  let k ← ib.get (c + 1)
  ib.set (c + 1) (k + 1)

/-- `for (int i = 0; i < n; i++) ib[i+1] += ib[i]`. -/
def sumCounts (n : Nat) (ib : Buf Nat) : Except Fault (Buf Nat) :=
  (List.range' 0 n).foldlM (fun ib i => do
    let x ← ib.get (i + 1)
    let y ← ib.get i
    ib.set (i + 1) (x + y)) ib

/-- The row pointers, column indices and entries of a matrix that is being filled. -/
structure Filling (α : Type) where
  ib : Buf Nat
  jb : Buf Nat
  b : Buf α

/-- `jb[ib[c]] = r; b[ib[c]++] = v`. -/
def placeEntry (s : Filling α) (c r : Nat) (v : α) : Except Fault (Filling α) := do
  let p ← s.ib.get c
  let jb ← s.jb.set p r
  let b ← s.b.set p v
  let ib ← s.ib.set c (p + 1)
  .ok ⟨ib, jb, b⟩

/-- `for (int i = n-1; i >= 0; i--) ib[i+1] = ib[i]; ib[0] = 0`. -/
def shiftRows (n : Nat) (ib : Buf Nat) : Except Fault (Buf Nat) := do
  let ib ← (List.range' 0 n).foldlM (fun (ib : Buf Nat) k => do
    let x ← ib.get (n - 1 - k)
    ib.set (n - 1 - k + 1) x) ib
  ib.set 0 0

/-- `SparseMatrix_transpose`. -/
def SparseMatrix_transpose (A : SparseMatrix α) : Except Fault (SparseMatrix α) := do
  let B : SparseMatrix α := { SparseMatrix_new A.n A.m A.nz A.type with nz := A.nz }
  let ib ← (List.range' 0 A.m).foldlM (fun ib i =>
    forRow A i (fun ib c _ => countEntry ib c) ib) B.ia
  let ib ← sumCounts A.n ib
  let s ← (List.range' 0 A.m).foldlM (fun s i =>
    forRow A i (fun s c j => do
      let v ← A.a.get j
      placeEntry s c i v) s) (⟨ib, B.ja, B.a⟩ : Filling α)
  let ib ← shiftRows A.n s.ib
  .ok { B with ia := ib, ja := s.jb, a := s.b }

/-! ## Entries of a row at the same column -/

/-- The arrays and the counter of a matrix whose rows are filled with the help of a mask. -/
structure Acc (α : Type) where
  mask : Buf Int
  jc : Buf Nat
  c : Buf α
  nz : Nat

/-- The body of the innermost loop of `SparseMatrix_multiply`, for one product. -/
def accumulate (start : Nat) (s : Acc α) (col : Nat) (v : α) : Except Fault (Acc α) := do
  let p ← s.mask.get col
  if p < start then do
    let mask ← s.mask.set col s.nz
    let jc ← s.jc.set s.nz col
    let c ← s.c.set s.nz v
    .ok ⟨mask, jc, c, s.nz + 1⟩
  else do
    let q ← s.jc.get p.toNat
    assert (q = col)
    let x ← s.c.get p.toNat
    let c ← s.c.set p.toNat (x + v)
    .ok { s with c := c }

/-- The body of the inner loop of `SparseMatrix_sum_repeat_entries`, which moves entries within
their arrays. -/
def sumEntry (start : Nat) (s : Acc α) (j : Nat) : Except Fault (Acc α) := do
  let col ← s.jc.get j
  let p ← s.mask.get col
  if p < start then do
    let jc ← s.jc.set s.nz col
    let v ← s.c.get j
    let c ← s.c.set s.nz v
    let col ← jc.get j
    let mask ← s.mask.set col s.nz
    .ok ⟨mask, jc, c, s.nz + 1⟩
  else do
    let q ← s.jc.get p.toNat
    assert (q = col)
    let x ← s.c.get p.toNat
    let v ← s.c.get j
    let c ← s.c.set p.toNat (x + v)
    .ok { s with c := c }

/-- The variables of `SparseMatrix_sum_repeat_entries`. -/
structure SumVars (α : Type) where
  ia : Buf Nat
  acc : Acc α
  sta : Nat

/-- `SparseMatrix_sum_repeat_entries`: the matrix, changed in place. -/
def SparseMatrix_sum_repeat_entries (A : SparseMatrix α) : Except Fault (SparseMatrix α) := do
  let sta ← A.ia.get 0
  let s ← (List.range' 0 A.m).foldlM (fun (s : SumVars α) i => do
    let hi ← s.ia.get (i + 1)
    let start ← s.ia.get i
    let acc ← (List.range' s.sta (hi - s.sta)).foldlM (sumEntry start) s.acc
    let ia ← s.ia.set (i + 1) acc.nz
    .ok ⟨ia, acc, hi⟩) (⟨A.ia, ⟨⟨A.n, fun _ => -1⟩, A.ja, A.a, 0⟩, sta⟩ : SumVars α)
  .ok { A with nz := s.acc.nz, ia := s.ia, ja := s.acc.jc, a := s.acc.c }

/-- `SparseMatrix_from_coordinate_arrays`, with `SparseMatrix_from_coordinate_arrays_internal`. An
index out of range reaches `UNREACHABLE`, which ends the program. -/
def SparseMatrix_from_coordinate_arrays (nz m n : Nat) (irn jcn : Buf Int) (val : Buf α)
    (type : MatrixType) : Except Fault (SparseMatrix α) := do
  assert (0 < m ∧ 0 < n)
  let A : SparseMatrix α := SparseMatrix_new m n nz type
  let ia ← (List.range' 0 nz).foldlM (fun ia i => do
    let r ← irn.get i
    let c ← jcn.get i
    if r < 0 ∨ m ≤ r ∨ c < 0 ∨ n ≤ c then .error .abort
    else countEntry ia r.toNat) A.ia
  let ia ← sumCounts m ia
  let s ← (List.range' 0 nz).foldlM (fun s i => do
    let r ← irn.get i
    let c ← jcn.get i
    let v ← val.get i
    placeEntry s r.toNat c.toNat v) (⟨ia, A.ja, A.a⟩ : Filling α)
  let ia ← shiftRows m s.ib
  SparseMatrix_sum_repeat_entries { A with nz := nz, ia := ia, ja := s.jb, a := s.b }

/-! ## Sums and products -/

/-- An entry of the first matrix of `SparseMatrix_add`. -/
def addFirst (s : Acc α) (col : Nat) (v : α) : Except Fault (Acc α) := do
  let mask ← s.mask.set col s.nz
  let jc ← s.jc.set s.nz col
  let c ← s.c.set s.nz v
  .ok ⟨mask, jc, c, s.nz + 1⟩

/-- An entry of the second matrix of `SparseMatrix_add`. -/
def addSecond (start : Nat) (s : Acc α) (col : Nat) (v : α) : Except Fault (Acc α) := do
  let p ← s.mask.get col
  if p < start then do
    let jc ← s.jc.set s.nz col
    let c ← s.c.set s.nz v
    .ok { s with jc := jc, c := c, nz := s.nz + 1 }
  else do
    let x ← s.c.get p.toNat
    let c ← s.c.set p.toNat (x + v)
    .ok { s with c := c }

/-- The row pointers of the result, with the rest of the variables. -/
structure RowVars (α : Type) where
  ic : Buf Nat
  acc : Acc α

/-- The loop over the rows of a result: each is filled from where the last one ended. -/
def forRows (m : Nat) (row : Nat → Nat → Acc α → Except Fault (Acc α)) (s : RowVars α) :
    Except Fault (RowVars α) := do
  let ic ← s.ic.set 0 0
  (List.range' 0 m).foldlM (fun (s : RowVars α) i => do
    let start ← s.ic.get i
    let acc ← row i start s.acc
    let ic ← s.ic.set (i + 1) acc.nz
    .ok ⟨ic, acc⟩) ⟨ic, s.acc⟩

/-- The matrix that the variables make up. -/
def SparseMatrix.withRows (C : SparseMatrix α) (s : RowVars α) : SparseMatrix α :=
  { C with nz := s.acc.nz, ia := s.ic, ja := s.acc.jc, a := s.acc.c }

/-- `SparseMatrix_add`; the result `none` is `NULL`. -/
def SparseMatrix_add (A B : SparseMatrix α) : Except Fault (Option (SparseMatrix α)) := do
  assert (A.type = B.type)
  if A.m ≠ B.m ∨ A.n ≠ B.n then .ok none
  else do
    let C : SparseMatrix α := SparseMatrix_new A.m A.n (A.nz + B.nz) A.type
    let s ← forRows A.m (fun i start acc => do
      let acc ← forRow A i (fun acc col j => do
        let v ← A.a.get j
        addFirst acc col v) acc
      forRow B i (fun acc col j => do
        let v ← B.a.get j
        addSecond start acc col v) acc) ⟨C.ia, ⟨⟨A.n, fun _ => -1⟩, C.ja, C.a, 0⟩⟩
    .ok (some (C.withRows s))

/-- The mask and the counter of the first pass of a product. -/
structure Count where
  mask : Buf Int
  nz : Nat

/-- The body of the innermost loop of the first pass. -/
def countColumn (i : Nat) (s : Count) (col : Nat) : Except Fault Count := do
  let p ← s.mask.get col
  if p ≠ -(i : Int) - 2 then do
    let mask ← s.mask.set col (-(i : Int) - 2)
    .ok ⟨mask, s.nz + 1⟩
  else .ok s

/-- `SparseMatrix_multiply`. -/
def SparseMatrix_multiply (A B : SparseMatrix α) : Except Fault (Option (SparseMatrix α)) :=
  if A.n ≠ B.m then .ok none
  else if A.type ≠ B.type then .ok none
  else do
    let n ← (List.range' 0 A.m).foldlM (fun s i =>
      forRow A i (fun s jj _ => forRow B jj (fun s col _ => countColumn i s col) s) s)
      (⟨⟨B.n, fun _ => -1⟩, 0⟩ : Count)
    let C : SparseMatrix α := SparseMatrix_new A.m B.n n.nz A.type
    let s ← forRows A.m (fun i start acc =>
      forRow A i (fun acc jj j => forRow B jj (fun acc col k => do
        let x ← A.a.get j
        let y ← B.a.get k
        accumulate start acc col (x * y)) acc) acc) ⟨C.ia, ⟨n.mask, C.ja, C.a, 0⟩⟩
    .ok (some (C.withRows s))

/-- `SparseMatrix_multiply3`, for real matrices as it asserts. -/
def SparseMatrix_multiply3 (A B C : SparseMatrix α) : Except Fault (Option (SparseMatrix α)) :=
  if A.n ≠ B.m then .ok none
  else if B.n ≠ C.m then .ok none
  else if A.type ≠ B.type ∨ B.type ≠ C.type then .ok none
  else do
    assert (A.type = .MATRIX_TYPE_REAL)
    let n ← (List.range' 0 A.m).foldlM (fun s i =>
      forRow A i (fun s jj _ => forRow B jj (fun s ll _ =>
        forRow C ll (fun s col _ => countColumn i s col) s) s) s)
      (⟨⟨C.n, fun _ => -1⟩, 0⟩ : Count)
    let D : SparseMatrix α := SparseMatrix_new A.m C.n n.nz A.type
    let s ← forRows A.m (fun i start acc =>
      forRow A i (fun acc jj j => forRow B jj (fun acc ll l => forRow C ll (fun acc col k => do
        let x ← A.a.get j
        let y ← B.a.get l
        let z ← C.a.get k
        accumulate start acc col (x * y * z)) acc) acc) acc) ⟨D.ia, ⟨n.mask, D.ja, D.a, 0⟩⟩
    .ok (some (D.withRows s))

end Graphviz.Sparse
