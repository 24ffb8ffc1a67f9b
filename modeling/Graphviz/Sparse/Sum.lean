import Graphviz.Sparse.Masked
import Graphviz.Sparse.Sorting

/-!
# Sums

The entries of the first matrix go into a row as they are, and the mask keeps the last one at each
column. An entry of the second matrix is added to it, or goes into the row itself; the mask is left
alone then, so repeated entries of the second matrix at a new column stay apart.
-/

namespace Graphviz.Sparse

open Finset List Nat Outcome SparseMatrix

variable {α : Type} [Semiring α] {A B : SparseMatrix α} {m n i start : Nat} {s : Acc α}
  {L R : List (Nat × α)} {cols : List Nat} {seen : Finset Nat} {x : Nat × α}

/-- A row of a sum: `cols` are the columns of its cells, `seen` those that the mask has, and `L` the
entries that have gone in. -/
structure AddInv (n start : Nat) (seen : Finset Nat) (cols : List Nat) (L : List (Nat × α))
    (s : Acc α) : Prop where
  mask_size : n ≤ s.mask.size
  jc_room : s.nz ≤ s.jc.size
  c_room : s.nz ≤ s.c.size
  mask_lt : ∀ c < n, s.mask.cell c < s.nz
  marked : ∀ c < n, start ≤ s.mask.cell c ↔ c ∈ seen
  hit : ∀ c < n, start ≤ s.mask.cell c → s.jc.cell (s.mask.cell c).toNat = c
  nz : s.nz = start + cols.length
  put : (List.range' start cols.length).map s.jc.cell = cols
  inRange : ∀ c ∈ cols, c < n
  sum : ∀ c, segSum s.jc s.c start s.nz c = colSum L c

/-- A cell is put at the end of the row. -/
theorem AddInv.push (h : AddInv n start seen cols L s) (hx : x.1 < n) (hj : s.nz < s.jc.size)
    (hc : s.nz < s.c.size) :
    AddInv n start seen (cols ++ [x.1]) (L ++ [x])
      ⟨s.mask, s.jc.upd s.nz x.1, s.c.upd s.nz x.2, s.nz + 1⟩ := by
  have hnz := h.nz
  refine ⟨h.mask_size, hj, hc, fun c hcn => ?_, h.marked, fun c hcn hle => ?_, ?_, ?_,
    fun c hmem => ?_, fun c => ?_⟩
  · have := h.mask_lt c hcn
    simp only
    omega
  · have := h.mask_lt c hcn
    simp only at hle ⊢
    rw [Buf.upd_cell_ne (by omega)]
    exact h.hit c hcn hle
  · rw [length_append, length_singleton]
    simp only
    omega
  · have hold : (List.range' start cols.length).map (s.jc.upd s.nz x.1).cell = cols := by
      refine (map_congr_left fun k hk => ?_).trans h.put
      rw [mem_range'_1] at hk
      exact Buf.upd_cell_ne (by omega)
    rw [length_append, length_singleton, range'_concat, map_append, hold,
      List.map_singleton, one_mul, ← hnz, Buf.upd_cell_self]
  · obtain hmem | hmem := mem_append.1 hmem
    · exact h.inRange c hmem
    · exact List.mem_singleton.1 hmem ▸ hx
  · rw [colSum_concat, ← h.sum c]
    exact segSum_push (by omega) _ _

/-- An entry of the first matrix. -/
theorem AddInv.first (h : AddInv n start seen cols L s) (hx : x.1 < n) (hj : s.nz < s.jc.size)
    (hc : s.nz < s.c.size) :
    Meets (addFirst s x.1 x.2) (fun s' =>
      AddInv n start (insert x.1 seen) (cols ++ [x.1]) (L ++ [x]) s' ∧ Frame start s s')
      fun _ => False := by
  have hpush := h.push hx hj hc
  have hmask := h.mask_size
  have hnz := h.nz
  rw [addFirst]
  refine Buf.meets_set (by omega) (Buf.meets_set hj (Buf.meets_set hc ?_))
  refine ⟨⟨hmask, hj, hc, fun c hcn => ?_, fun c hcn => ?_, fun c hcn hle => ?_, hpush.nz,
    hpush.put, hpush.inRange, hpush.sum⟩, ⟨rfl, rfl, rfl, fun k hk => ?_, le_succ _⟩⟩
  · have := h.mask_lt c hcn
    simp only [Buf.upd_cell]
    split <;> omega
  · simp only [Buf.upd_cell, mem_insert]
    split
    next heq => exact ⟨fun _ => Or.inl heq, fun _ => by omega⟩
    next hne => rw [h.marked c hcn]; exact ⟨Or.inr, fun hor => hor.resolve_left hne⟩
  · simp only [Buf.upd_cell] at hle ⊢
    split at hle
    next heq => simp [heq]
    next hne =>
      have := h.mask_lt c hcn
      rw [if_neg hne, if_neg (by omega)]
      exact h.hit c hcn hle
  · simp only at hk
    have hne : k ≠ s.nz := by omega
    exact ⟨Buf.upd_cell_ne hne, Buf.upd_cell_ne hne⟩

/-- An entry of the second matrix. -/
theorem AddInv.second (h : AddInv n start seen cols L s) (hx : x.1 < n) (hj : s.nz < s.jc.size)
    (hc : s.nz < s.c.size) :
    Meets (addSecond start s x.1 x.2) (fun s' =>
      AddInv n start seen (cols ++ [x.1].filter (· ∉ seen)) (L ++ [x]) s' ∧ Frame start s s')
      fun _ => False := by
  have hmask := h.mask_size
  have hnz := h.nz
  rw [addSecond]
  refine Buf.meets_get (by omega) ?_
  split
  next hlt =>
    have hnew : x.1 ∉ seen := fun hmem => by
      have := (h.marked x.1 hx).2 hmem
      omega
    refine Buf.meets_set hj (Buf.meets_set hc ?_)
    rw [List.filter_cons_of_pos (by simpa using hnew), List.filter_nil]
    refine ⟨h.push hx hj hc, ⟨rfl, rfl, rfl, fun k hk => ?_, le_succ _⟩⟩
    simp only at hk
    have hne : k ≠ s.nz := by omega
    exact ⟨Buf.upd_cell_ne hne, Buf.upd_cell_ne hne⟩
  next hge =>
    have hle : (start : Int) ≤ s.mask.cell x.1 := by omega
    have hold : x.1 ∈ seen := (h.marked x.1 hx).1 hle
    have hlt := h.mask_lt x.1 hx
    refine Buf.meets_get (by omega) (Buf.meets_set (by omega) ?_)
    rw [List.filter_cons_of_neg (by rwa [decide_eq_true_iff, not_not]), List.filter_nil,
      append_nil]
    refine ⟨⟨hmask, h.jc_room, h.c_room, h.mask_lt, h.marked, h.hit, hnz, h.put, h.inRange,
      fun c => ?_⟩, ⟨rfl, rfl, rfl, fun k hk => ?_, le_refl _⟩⟩
    · have hlo : start ≤ (s.mask.cell x.1).toNat := by omega
      have hhi : (s.mask.cell x.1).toNat < s.nz := by omega
      rw [colSum_concat, ← h.sum c]
      refine (segSum_add hlo hhi _).trans ?_
      rw [h.hit x.1 hx hle]
    · simp only at hk
      exact ⟨rfl, Buf.upd_cell_ne (by omega)⟩

/-- The columns of a row of a sum. -/
def addCols (L R : List (Nat × α)) : List Nat :=
  L.map Prod.fst ++ (R.map Prod.fst).filter (· ∉ columns L)

/-- The entries of the first matrix, and of the second. -/
theorem add_row (hL : ∀ x ∈ L, x.1 < n) (hR : ∀ x ∈ R, x.1 < n) (hs : RowInv n start [] s)
    (hjc : start + (L.length + R.length) ≤ s.jc.size)
    (hc : start + (L.length + R.length) ≤ s.c.size) :
    Meets (L.foldlM (fun s x => addFirst s x.1 x.2) s >>= fun s =>
        R.foldlM (fun s x => addSecond start s x.1 x.2) s)
      (fun s' => AddInv n start (columns L) (addCols L R) (L ++ R) s' ∧ Frame start s s')
      fun _ => False := by
  have hbegin : AddInv n start (columns ([] : List (Nat × α))) [] [] s :=
    ⟨hs.mask_size, hs.jc_room, hs.c_room, hs.mask_lt, hs.seen, hs.hit, hs.nz, rfl, nofun, hs.sum⟩
  refine (Meets.foldlM (fun rest s' => ∃ done, L = done ++ rest ∧
    AddInv n start (columns done) (done.map Prod.fst) done s' ∧ Frame start s s')
    (fun x rest s' ⟨done, heq, hs', hf⟩ => ?_) s ⟨[], rfl, hbegin, .refl start s⟩).bind
    fun s1 ⟨done, heq, h1, hf1⟩ => ?_
  · have hnz := hs'.nz
    have hlen := congrArg List.length heq
    rw [length_append, length_cons] at hlen
    rw [length_map] at hnz
    have hjs := hf.jc_size
    have hcs := hf.c_size
    refine (hs'.first (hL x (by rw [heq]; simp)) (by omega) (by omega)).imp
      fun s'' ⟨hs'', hf'⟩ => ⟨done ++ [x], by rw [heq]; simp, ?_, hf.trans hf'⟩
    rw [columns_concat, map_append]
    exact hs''
  · rw [append_nil] at heq
    subst heq
    refine (Meets.foldlM (fun rest s' => ∃ done, R = done ++ rest ∧
      AddInv n start (columns L) (addCols L done) (L ++ done) s' ∧ Frame start s s')
      (fun x rest s' ⟨done, heq, hs', hf⟩ => ?_) s1 ⟨[], rfl, ?_, hf1⟩).imp
      fun s' ⟨done, heq, hs', hf⟩ => ?_
    · have hnz := hs'.nz
      have hlen := congrArg List.length heq
      have hfilter := length_filter_le (· ∉ columns L) (done.map Prod.fst)
      rw [length_append, length_cons] at hlen
      rw [length_map] at hfilter
      rw [addCols, length_append, length_map] at hnz
      have hjs := hf.jc_size
      have hcs := hf.c_size
      refine (hs'.second (hR x (by rw [heq]; simp)) (by omega) (by omega)).imp
        fun s'' ⟨hs'', hf'⟩ => ⟨done ++ [x], by rw [heq]; simp, ?_, hf.trans hf'⟩
      rw [addCols, map_append, filter_append, ← append_assoc, ← append_assoc]
      exact hs''
    · rw [addCols, map_nil, filter_nil, append_nil, append_nil]
      exact h1
    · rw [append_nil] at heq
      exact heq ▸ ⟨hs', hf⟩

omit [Semiring α] in
theorem addCols_length_le : (addCols L R).length ≤ L.length + R.length := by
  have hfilter := length_filter_le (· ∉ columns L) (R.map Prod.fst)
  rw [length_map] at hfilter
  rw [addCols, length_append, length_map]
  exact Nat.add_le_add_left hfilter _

omit [Semiring α] in
theorem addCols_nodup (hL : (L.map Prod.fst).Nodup) (hR : (R.map Prod.fst).Nodup) :
    (addCols L R).Nodup := by
  refine List.Nodup.append hL (hR.filter _) fun c hcL hcR => ?_
  rw [mem_filter, decide_eq_true_iff] at hcR
  exact hcR.2 (mem_toFinset.2 hcL)

theorem AddInv.done {s' : Acc α} (h : AddInv n start (columns L) (addCols L R) (L ++ R) s')
    (hf : Frame start s s') :
    RowDone n start (L.length + R.length) (fun c => colSum L c + colSum R c)
      ((L.map Prod.fst).Nodup ∧ (R.map Prod.fst).Nodup) s s' := by
  have hnz := h.nz
  have hle := addCols_length_le (L := L) (R := R)
  refine ⟨hf, by omega, h.mask_lt, fun k hlo hhi => ?_, fun c => (h.sum c).trans colSum_append,
    fun ⟨hL, hR⟩ => ?_⟩
  · refine h.inRange _ ?_
    rw [← h.put]
    exact mem_map_of_mem (mem_range'_1.2 (by omega))
  · rw [hnz, Nat.add_sub_cancel_left, h.put]
    exact addCols_nodup hL hR

/-- `SparseMatrix_add` gives the sum, with the columns of both matrices in each row. -/
theorem add_columns (hA : A.Valid m n) (hB : B.Valid m n) (htype : A.type = B.type) :
    Meets (SparseMatrix_add A B) (fun C => ∃ C', C = some C' ∧ (C'.Valid m n ∧ C'.type = A.type ∧
      (A.Distinct m → B.Distinct m → C'.Distinct m) ∧
      C'.toMatrix m n = A.toMatrix m n + B.toMatrix m n) ∧
      ∀ i < m, (C'.cells i).map C'.ja.cell = addCols (A.row i) (B.row i)) fun _ => False := by
  have hroom : ∑ i ∈ range m, ((A.row i).length + (B.row i).length) ≤ A.nz + B.nz := by
    rw [sum_add_distrib, hA.sum_length_row, hB.sum_length_row]
  have hrow : ∀ i < m, ∀ start acc, (forRow A i (fun acc col j => do
      let v ← A.a.get j
      addFirst acc col v) acc >>= fun acc => forRow B i (fun acc col j => do
        let v ← B.a.get j
        addSecond start acc col v) acc) =
      ((A.row i).foldlM (fun s x => addFirst s x.1 x.2) acc >>= fun acc =>
        (B.row i).foldlM (fun s x => addSecond start s x.1 x.2) acc) := by
    intro i hi start acc
    have hsecond := fun acc => hB.forRow_row (g := fun s x => addSecond start s x.1 x.2)
      (f := fun acc col j => B.a.get j >>= fun v => addSecond start acc col v) hi (fun j hj s => by
        rw [Buf.get_eq ((hB.lt_nz hi hj).trans_le hB.a_size), ok_bind]) acc
    rw [hA.forRow_row (g := fun s x => addFirst s x.1 x.2) hi fun j hj s => by
      rw [Buf.get_eq ((hA.lt_nz hi hj).trans_le hA.a_size), ok_bind]]
    exact congrArg _ (funext hsecond)
  rw [SparseMatrix_add]
  refine Meets.assert htype ?_
  rw [if_neg (by rw [hA.rows, hB.rows, hA.cols, hB.cols]; simp), hA.rows, hA.cols]
  refine (forRows_columns (m := m) (n := n)
    (f := fun i c => colSum (A.row i) c + colSum (B.row i) c)
    (d := fun i => ((A.row i).map Prod.fst).Nodup ∧ ((B.row i).map Prod.fst).Nodup)
    (w := fun i => (A.row i).length + (B.row i).length)
    (P := fun i cs => cs = addCols (A.row i) (B.row i)) (le_refl _) (le_refl _)
    (fun _ _ => Int.negSucc_lt_zero 0) rfl hroom hroom fun i hi acc hacc hj hc => ?_).bind
    fun s ⟨hs, hcols⟩ => ?_
  · rw [hrow i hi]
    refine (add_row (hA.row_lt hi) (hB.row_lt hi) hacc hj hc).imp
      fun s' ⟨hs', hf⟩ => ⟨hs'.done hf, ?_⟩
    rw [hs'.nz, Nat.add_sub_cancel_left]
    exact hs'.put
  · obtain ⟨hvalid, hmatrix⟩ := hs.valid (C := SparseMatrix_new m n (A.nz + B.nz) A.type) rfl rfl
    refine ⟨_, rfl, ⟨hvalid, rfl, fun hdA hdB i hi => hs.distinct i hi ?_, hmatrix.trans ?_⟩,
      hcols⟩
    · rw [map_fst_row, map_fst_row]
      exact ⟨hdA i hi, hdB i hi⟩
    · ext i j
      rw [Matrix.add_apply, Matrix.of_apply, colSum_row hA i.isLt, colSum_row hB i.isLt]
      rfl

/-- `SparseMatrix_add` gives the sum. -/
theorem add_spec (hA : A.Valid m n) (hB : B.Valid m n) (htype : A.type = B.type) :
    Meets (SparseMatrix_add A B) (fun C => ∃ C', C = some C' ∧ C'.Valid m n ∧ C'.type = A.type ∧
      (A.Distinct m → B.Distinct m → C'.Distinct m) ∧
      C'.toMatrix m n = A.toMatrix m n + B.toMatrix m n) fun _ => False :=
  (add_columns hA hB htype).imp fun _ ⟨C', hC, hspec, _⟩ => ⟨C', hC, hspec⟩

end Graphviz.Sparse

/-!
## Entries that are summed in place

`SparseMatrix_sum_repeat_entries` reads and writes the same arrays. It never reads a cell that it
has written: no more entries have been put than were read.
-/

namespace Graphviz.Sparse

open Finset List Outcome SparseMatrix

variable {α : Type} [Semiring α] {A : SparseMatrix α} {m n i start : Nat} {s : Acc α}

omit [Semiring α] in
theorem card_columns_le (L : List (Nat × α)) : (columns L).card ≤ L.length :=
  (toFinset_card_le _).trans_eq (length_map _)

/-- An entry that lies ahead is put like one from elsewhere. -/
theorem sumEntry_eq {j : Nat} (hn : s.jc.cell j < s.mask.size) (hnz : s.nz ≤ j)
    (hjc : j < s.jc.size) (hc : j < s.c.size) :
    sumEntry start s j = accumulate start s (s.jc.cell j) (s.c.cell j) := by
  have hcol : (s.jc.upd s.nz (s.jc.cell j)).cell j = s.jc.cell j := by
    rw [Buf.upd_cell]
    exact ite_self _
  rw [sumEntry, Buf.get_eq hjc, ok_bind, accumulate, Buf.get_eq hn, ok_bind, ok_bind,
    Buf.set_eq (hnz.trans_lt hjc), Buf.get_eq hc, Buf.set_eq (hnz.trans_lt hc), Buf.set_eq hn]
  have hget : (s.jc.upd s.nz (s.jc.cell j)).get j = .ok (s.jc.cell j) :=
    (Buf.get_eq (b := s.jc.upd _ _) hjc).trans (by rw [hcol])
  simp only [ok_bind, hget, Buf.set_eq hn, Buf.set_eq (hnz.trans_lt hc)]

/-- The entries of a row, which lie ahead. -/
theorem sumEntry_row (h : A.Valid m n) (hi : i < m) (hs : RowInv n s.nz [] s)
    (hnz : s.nz ≤ A.ia.cell i) (hjc : s.jc.size = A.ja.size) (hc : s.c.size = A.a.size)
    (hahead : ∀ k, A.ia.cell i ≤ k → s.jc.cell k = A.ja.cell k ∧ s.c.cell k = A.a.cell k) :
    Meets ((A.cells i).foldlM (sumEntry s.nz) s)
      (fun s' => RowInv n s.nz (A.row i) s' ∧ Frame s.nz s s') fun _ => False := by
  have hlt : ∀ k, k < A.ia.cell (i + 1) - A.ia.cell i → A.ia.cell i + k ∈ A.cells i := fun k hk =>
    mem_cells.2 ⟨Nat.le_add_right _ _, by omega⟩
  rw [row, cells]
  refine Meets.range' _ _ _ (fun k s' => RowInv n s.nz ((List.range' (A.ia.cell i) k).map fun j =>
    (A.ja.cell j, A.a.cell j)) s' ∧ Frame s.nz s s') (fun k hk s' h' => ?_) s
    ⟨hs, .refl _ s⟩
  obtain ⟨hs', hf⟩ := h'
  have hcard := card_columns_le ((List.range' (A.ia.cell i) k).map fun j =>
    (A.ja.cell j, A.a.cell j))
  rw [length_map, length_range', ← Nat.add_le_add_iff_left (n := s.nz), ← hs'.nz] at hcard
  have hcell := h.lt_nz hi (hlt k hk)
  have hcol := h.col_lt hi (hlt k hk)
  have hja := h.ja_size
  have ha := h.a_size
  have hmask := hs'.mask_size
  have hjs := hf.jc_size
  have hcs := hf.c_size
  obtain ⟨hj, hv⟩ := hf.outside (A.ia.cell i + k) (Or.inr (by omega))
  obtain ⟨hj', hv'⟩ := hahead (A.ia.cell i + k) (Nat.le_add_right _ _)
  rw [sumEntry_eq (by rw [hj, hj']; omega) (by omega) (by omega) (by omega), hj, hj', hv, hv',
    range'_concat, map_append, one_mul]
  refine (hs'.accumulate (x := (_, _)) hcol fun _ => ?_).imp fun s'' h' =>
    ⟨h'.1, hf.trans h'.2⟩
  omega

/-- The rows of a matrix that is changed in place: those from `i` on are as they were. -/
structure Ahead (A : SparseMatrix α) (i : Nat) (s : SumVars α) : Prop where
  sta : s.sta = A.ia.cell i
  nz_le : s.acc.nz ≤ A.ia.cell i
  ia : ∀ k, i < k → s.ia.cell k = A.ia.cell k
  jc_size : s.acc.jc.size = A.ja.size
  c_size : s.acc.c.size = A.a.size
  cells : ∀ k, A.ia.cell i ≤ k →
    s.acc.jc.cell k = A.ja.cell k ∧ s.acc.c.cell k = A.a.cell k

/-- A row that is filled has the columns of its entries alone. -/
theorem RowInv.mem_columns {L : List (Nat × α)} (h : RowInv n start L s) {c : Nat}
    (hc : c ∈ (List.range' start (s.nz - start)).map s.jc.cell) : c ∈ columns L := by
  obtain ⟨k, hk, rfl⟩ := List.mem_map.1 hc
  rw [mem_range'_1] at hk
  obtain ⟨hcol, hmask⟩ := h.back k hk.1 (by omega)
  exact (h.seen _ hcol).1 (by omega)

/-- The rows that are done have columns of the matrix alone. -/
def OwnColumns (A : SparseMatrix α) (i : Nat) (s : RowVars α) : Prop :=
  ∀ k < i, ∀ c ∈ (List.range' (s.ic.cell k) (s.ic.cell (k + 1) - s.ic.cell k)).map s.acc.jc.cell,
    c ∈ columns (A.row k)

/-- One more row. -/
theorem OwnColumns.step {f : Nat → Nat → α} {d : Nat → Prop} {s : RowVars α} {acc : Acc α}
    (h : OwnColumns A i s) (hs : RowsInv m n f d i s) (hframe : Frame s.acc.nz s.acc acc)
    (hrow : RowInv n s.acc.nz (A.row i) acc) :
    OwnColumns A (i + 1) ⟨s.ic.upd (i + 1) acc.nz, acc⟩ := by
  have hic : ∀ k ≤ i, (s.ic.upd (i + 1) acc.nz).cell k = s.ic.cell k := fun k hk =>
    Buf.upd_cell_ne (by omega)
  intro k hk c hc
  dsimp only at hc
  obtain hlt | rfl := Nat.lt_succ_iff_lt_or_eq.1 hk
  · rw [hic k hlt.le, hic (k + 1) hlt, hs.cells_step hframe hlt] at hc
    exact h k hlt c hc
  · rw [hic k (le_refl k), Buf.upd_cell_self, hs.last] at hc
    exact hrow.mem_columns hc

/-- `SparseMatrix_sum_repeat_entries` leaves one entry at each position, with the same sum, and
none where the matrix has none. -/
theorem sum_repeat_columns (h : A.Valid m n) :
    Meets (SparseMatrix_sum_repeat_entries A) (fun B => (B.Valid m n ∧ B.type = A.type ∧
      B.Distinct m ∧ B.toMatrix m n = A.toMatrix m n) ∧
      ∀ i < m, ∀ c ∈ (B.cells i).map B.ja.cell, c ∈ columns (A.row i)) fun _ => False := by
  have hia := h.ia_size
  have hstart : RowsInv m n A.entry (fun _ => True) 0 ⟨A.ia, ⟨⟨n, fun _ => -1⟩, A.ja, A.a, 0⟩⟩ :=
    ⟨hia, h.first, h.first, nofun, Nat.le_refl n, Nat.zero_le _, Nat.zero_le _,
      fun _ _ => Int.negSucc_lt_zero 0, nofun, nofun, nofun⟩
  rw [SparseMatrix_sum_repeat_entries, h.rows, h.cols]
  refine Buf.meets_get (by omega) ?_
  refine (Meets.range' _ 0 m (fun i s => RowsInv m n A.entry (fun _ => True) i ⟨s.ia, s.acc⟩ ∧
    OwnColumns A i ⟨s.ia, s.acc⟩ ∧ Ahead A i s) (fun i hi s ⟨hs, hown, ha⟩ => ?_) _
    ⟨hstart, nofun, ⟨rfl, Nat.zero_le _, fun _ _ => rfl, rfl, rfl, fun _ _ => ⟨rfl, rfl⟩⟩⟩).bind
    fun s ⟨hs, hown, _⟩ => ?_
  · rw [zero_add]
    have hmono := h.mono i hi
    have hend := h.ia_le (show i + 1 ≤ m from hi) (le_refl m)
    rw [h.last] at hend
    have hic : m + 1 ≤ s.ia.size := hs.ic_size
    have hja := h.ja_size
    have haa := h.a_size
    have hnz := ha.nz_le
    have hjs := ha.jc_size
    have hcs := ha.c_size
    have hlen : (columns (A.row i)).card ≤ A.ia.cell (i + 1) - A.ia.cell i :=
      (card_columns_le _).trans_eq length_row
    have hjroom : s.acc.nz + (columns (A.row i)).card ≤ s.acc.jc.size := by omega
    have hcroom : s.acc.nz + (columns (A.row i)).card ≤ s.acc.c.size := by omega
    refine Buf.meets_get (by omega) (Buf.meets_get (by omega) ?_)
    rw [ha.ia (i + 1) (Nat.lt_succ_self i), hs.last, ha.sta]
    have hrow := RowInv.begin hs.mask_size hs.jc_room hs.c_room hs.mask_lt
    refine (sumEntry_row h hi hrow hnz hjs hcs ha.cells).bind fun acc ⟨hacc, hf⟩ => ?_
    refine Buf.meets_set (by omega) ?_
    have hdone := hacc.done hf True
    rw [show colSum (A.row i) = A.entry i from funext fun c => colSum_row h hi] at hdone
    have hle : acc.nz ≤ s.acc.nz + (columns (A.row i)).card := hdone.nz_le
    have hnew : acc.nz ≤ A.ia.cell (i + 1) := by omega
    refine ⟨hs.step hi hdone hjroom hcroom, hown.step hs hf hacc, ⟨rfl, hnew, fun k hk => ?_,
      hf.jc_size.trans hjs, hf.c_size.trans hcs, fun k hk => ?_⟩⟩
    · rw [Buf.upd_cell_ne (by omega)]
      exact ha.ia k (by omega)
    · obtain ⟨hj, hv⟩ := hf.outside k (Or.inr (by omega))
      obtain ⟨hj', hv'⟩ := ha.cells k (by omega)
      exact ⟨hj.trans hj', hv.trans hv'⟩
  · obtain ⟨hvalid, hmatrix⟩ := hs.valid (C := ⟨m, n, A.nz, A.type, A.ia, A.ja, A.a⟩) rfl rfl
    exact ⟨⟨hvalid, rfl, fun i hi => hs.distinct i hi trivial, hmatrix⟩, hown⟩

/-- `SparseMatrix_sum_repeat_entries` leaves one entry at each position, with the same sum. -/
theorem sum_repeat_entries_spec (h : A.Valid m n) :
    Meets (SparseMatrix_sum_repeat_entries A) (fun B => B.Valid m n ∧ B.type = A.type ∧
      B.Distinct m ∧ B.toMatrix m n = A.toMatrix m n) fun _ => False :=
  (sum_repeat_columns h).imp fun _ hB => hB.1

/-! ## Coordinates -/

/-- The matrix of coordinates with their values, added up at each position. -/
def coordSum (nz m n : Nat) (irn jcn : Buf Int) (val : Buf α) : Matrix (Fin m) (Fin n) α :=
  Matrix.of fun i j =>
    ∑ k ∈ range nz, if irn.cell k = i then if jcn.cell k = j then val.cell k else 0 else 0

/-- The coordinates, as they are sorted. -/
def coords (nz : Nat) (irn jcn : Buf Int) (val : Buf α) : List (Nat × Nat × α) :=
  (List.range' 0 nz).map fun k => ((irn.cell k).toNat, (jcn.cell k).toNat, val.cell k)

/-- The positions that sorted entries make up are those of the coordinates. -/
theorem cols_coords {nz : Nat} {irn jcn : Buf Int} {val : Buf α} {type : MatrixType}
    {s : Filling α} (hin : ∀ k < nz, (0 ≤ irn.cell k ∧ irn.cell k < m) ∧
      0 ≤ jcn.cell k ∧ jcn.cell k < n) (hs : SortedRows m (coords nz irn jcn val) s)
    (hown : ∀ c < m, ∀ k, rowStart (coords nz irn jcn val) c ≤ k →
      k < rowStart (coords nz irn jcn val) (c + 1) →
      ∃ e ∈ coords nz irn jcn val, e.1 = c ∧ s.jb.cell k = e.2.1) (hi : i < m) {c : Nat}
    (hc : c ∈ columns ((⟨m, n, nz, type, s.ib, s.jb, s.b⟩ : SparseMatrix α).row i)) :
    ∃ k < nz, irn.cell k = i ∧ jcn.cell k = c := by
  obtain ⟨x, hx, rfl⟩ := mem_columns.1 hc
  obtain ⟨k, hk, rfl⟩ := List.mem_map.1 hx
  rw [mem_cells] at hk
  dsimp only at hk ⊢
  rw [hs.ib i hi.le, hs.ib (i + 1) hi] at hk
  obtain ⟨e, he, hei, hek⟩ := hown i hi k hk.1 hk.2
  obtain ⟨l, hl, rfl⟩ := List.mem_map.1 he
  rw [mem_range'_1] at hl
  obtain ⟨hr, hc⟩ := hin l (by omega)
  dsimp only at hei hek
  exact ⟨l, by omega, by omega, by omega⟩

/-- `SparseMatrix_from_coordinate_arrays` gives the matrix of the coordinates, with entries at the
places of these alone. -/
theorem from_coordinate_arrays_columns {nz : Nat} {irn jcn : Buf Int} {val : Buf α}
    {type : MatrixType} (hmn : 0 < m ∧ 0 < n) (hirn : nz ≤ irn.size) (hjcn : nz ≤ jcn.size)
    (hval : nz ≤ val.size) (hin : ∀ k < nz, (0 ≤ irn.cell k ∧ irn.cell k < m) ∧
      0 ≤ jcn.cell k ∧ jcn.cell k < n) :
    Meets (SparseMatrix_from_coordinate_arrays nz m n irn jcn val type) (fun B => (B.Valid m n ∧
      B.type = type ∧ B.Distinct m ∧ B.toMatrix m n = coordSum nz m n irn jcn val) ∧
      ∀ i < m, ∀ c ∈ (B.cells i).map B.ja.cell, ∃ k < nz, irn.cell k = i ∧ jcn.cell k = c)
      fun _ => False := by
  have hlen : (coords nz irn jcn val).length = nz := by
    rw [coords, length_map, length_range']
  have hmem : ∀ e ∈ coords nz irn jcn val, e.1 < m ∧ e.2.1 < n := by
    intro e he
    obtain ⟨k, hk, rfl⟩ := List.mem_map.1 he
    rw [mem_range'_1] at hk
    obtain ⟨hr, hc⟩ := hin k (by omega)
    simp only
    omega
  have hcount : ∀ ia, (List.range' 0 nz).foldlM (fun ia i => do
      let r ← irn.get i
      let c ← jcn.get i
      if r < 0 ∨ m ≤ r ∨ c < 0 ∨ n ≤ c then .error .abort
      else countEntry ia r.toNat) ia =
      ((coords nz irn jcn val).map Prod.fst).foldlM countEntry ia := by
    intro ia
    rw [coords, List.map_map, foldlM_map]
    refine foldlM_congr (fun k hk ia => ?_) ia
    rw [mem_range'_1] at hk
    obtain ⟨hr, hc⟩ := hin k (by omega)
    rw [Buf.get_eq (by omega), ok_bind, Buf.get_eq (by omega), ok_bind, if_neg (by omega)]
    rfl
  have hplace : ∀ s : Filling α, (List.range' 0 nz).foldlM (fun s i => do
      let r ← irn.get i
      let c ← jcn.get i
      let v ← val.get i
      placeEntry s r.toNat c.toNat v) s =
      (coords nz irn jcn val).foldlM (fun s e => placeEntry s e.1 e.2.1 e.2.2) s := by
    intro s
    rw [coords, foldlM_map]
    refine foldlM_congr (fun k hk s => ?_) s
    rw [mem_range'_1] at hk
    rw [Buf.get_eq (by omega), ok_bind, Buf.get_eq (by omega), ok_bind, Buf.get_eq (by omega),
      ok_bind]
  rw [SparseMatrix_from_coordinate_arrays, SparseMatrix_new]
  refine Meets.assert hmn ?_
  simp only [hcount, hplace]
  refine meets_sort_ownKeys (k := fun s => SparseMatrix_sum_repeat_entries
    (⟨m, n, nz, type, s.ib, s.jb, s.b⟩ : SparseMatrix α)) (.calloc nz) (.calloc nz)
    (fun e he => (hmem e he).1) hlen.le hlen.le fun s hs hown => ?_
  obtain ⟨hvalid, hmatrix⟩ := hs.valid hmem
  rw [hlen] at hvalid hmatrix
  refine (sum_repeat_columns hvalid).imp fun B h => ?_
  obtain ⟨⟨hB, htype, hdistinct, heq⟩, hcols⟩ := h
  refine ⟨⟨hB, htype, hdistinct, heq.trans (hmatrix.trans ?_)⟩, fun i hi c hc =>
    cols_coords hin hs hown hi (hcols i hi c hc)⟩
  ext i j
  rw [Matrix.of_apply, coordSum, Matrix.of_apply, posSum, coords, List.map_map, colSum,
    List.map_map, sum_range'_map, range_eq_Ico, zero_add]
  refine sum_congr rfl fun k hk => ?_
  obtain ⟨hr, hc⟩ := hin k (mem_Ico.1 hk).2
  have hi : (irn.cell k).toNat = i ↔ irn.cell k = i := by omega
  have hj : (jcn.cell k).toNat = j ↔ jcn.cell k = j := by omega
  simp only [Function.comp_apply, hi, hj, ← ite_and, and_comm]

/-- `SparseMatrix_from_coordinate_arrays` gives the matrix of the coordinates. -/
theorem from_coordinate_arrays_spec {nz : Nat} {irn jcn : Buf Int} {val : Buf α}
    {type : MatrixType} (hmn : 0 < m ∧ 0 < n) (hirn : nz ≤ irn.size) (hjcn : nz ≤ jcn.size)
    (hval : nz ≤ val.size) (hin : ∀ k < nz, (0 ≤ irn.cell k ∧ irn.cell k < m) ∧
      0 ≤ jcn.cell k ∧ jcn.cell k < n) :
    Meets (SparseMatrix_from_coordinate_arrays nz m n irn jcn val type) (fun B => B.Valid m n ∧
      B.type = type ∧ B.Distinct m ∧ B.toMatrix m n = coordSum nz m n irn jcn val)
      fun _ => False :=
  (from_coordinate_arrays_columns hmn hirn hjcn hval hin).imp fun _ hB => hB.1

end Graphviz.Sparse
