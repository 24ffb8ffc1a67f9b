import Graphviz.Sparse.Entries

/-!
# Rows filled with the help of a mask

The mask holds for each column the index of the last entry that was put there. It is not cleared
from row to row: an index before the start of the current row says that the column is new in this
row. The invariant of a row that is being filled is kept by each entry, and a row that is filled
leaves what the next row needs.
-/

namespace Graphviz.Sparse

open Finset Nat Outcome

variable {α : Type} {n m start : Nat} {L R : List (Nat × α)} {s s' : Acc α}

/-- The columns of a list of entries. -/
def columns (L : List (Nat × α)) : Finset Nat :=
  (L.map Prod.fst).toFinset

theorem mem_columns {c : Nat} : c ∈ columns L ↔ ∃ x ∈ L, x.1 = c := by
  simp [columns]

theorem columns_concat (x : Nat × α) : columns (L ++ [x]) = insert x.1 (columns L) := by
  ext c
  simp [columns, eq_comm]

/-- The arrays outside of the row that is being filled stay as they are. -/
structure Frame (start : Nat) (s s' : Acc α) : Prop where
  mask_size : s'.mask.size = s.mask.size
  jc_size : s'.jc.size = s.jc.size
  c_size : s'.c.size = s.c.size
  outside : ∀ k, k < start ∨ s'.nz ≤ k →
    s'.jc.cell k = s.jc.cell k ∧ s'.c.cell k = s.c.cell k
  nz_le : s.nz ≤ s'.nz

theorem Frame.refl (start : Nat) (s : Acc α) : Frame start s s :=
  ⟨rfl, rfl, rfl, fun _ _ => ⟨rfl, rfl⟩, le_refl _⟩

theorem Frame.trans {s'' : Acc α} (h : Frame start s s') (h' : Frame start s' s'') :
    Frame start s s'' := by
  refine ⟨h'.mask_size.trans h.mask_size, h'.jc_size.trans h.jc_size, h'.c_size.trans h.c_size,
    fun k hk => ?_, h.nz_le.trans h'.nz_le⟩
  have hle := h'.nz_le
  obtain ⟨hj', hc'⟩ := h'.outside k hk
  obtain ⟨hj, hc⟩ := h.outside k (hk.imp id fun h => by omega)
  exact ⟨hj'.trans hj, hc'.trans hc⟩

/-! ## One row -/

section
variable [Semiring α]

/-- The entries `L` have gone into the row that starts at `start`, one for each column. -/
structure RowInv (n start : Nat) (L : List (Nat × α)) (s : Acc α) : Prop where
  mask_size : n ≤ s.mask.size
  jc_room : s.nz ≤ s.jc.size
  c_room : s.nz ≤ s.c.size
  mask_lt : ∀ c < n, s.mask.cell c < s.nz
  seen : ∀ c < n, start ≤ s.mask.cell c ↔ c ∈ columns L
  hit : ∀ c < n, start ≤ s.mask.cell c → s.jc.cell (s.mask.cell c).toNat = c
  back : ∀ k, start ≤ k → k < s.nz → s.jc.cell k < n ∧ s.mask.cell (s.jc.cell k) = k
  nz : s.nz = start + (columns L).card
  sum : ∀ c, segSum s.jc s.c start s.nz c = colSum L c

/-- A row before its first entry. -/
theorem RowInv.begin (hmask : n ≤ s.mask.size) (hjc : s.nz ≤ s.jc.size) (hc : s.nz ≤ s.c.size)
    (hlt : ∀ c < n, s.mask.cell c < s.nz) : RowInv n s.nz [] s := by
  refine ⟨hmask, hjc, hc, hlt, fun c hcn => ?_, fun c hcn h => ?_, fun k h1 h2 => ?_, rfl,
    fun c => segSum_self⟩
  · have h := hlt c hcn
    exact ⟨fun h' => by omega, fun h' => by simp [columns] at h'⟩
  · have h' := hlt c hcn
    omega
  · omega

/-- One entry: a new column is put at the end, another is added to its entry. -/
theorem RowInv.accumulate {x : Nat × α} (h : RowInv n start L s) (hx : x.1 < n)
    (hroom : x.1 ∉ columns L → s.nz < s.jc.size ∧ s.nz < s.c.size) :
    Meets (accumulate start s x.1 x.2)
      (fun s' => RowInv n start (L ++ [x]) s' ∧ Frame start s s') fun _ => False := by
  have hmask := h.mask_size
  have hseen := h.seen x.1 hx
  have hnz := h.nz
  rw [Sparse.accumulate]
  refine Buf.meets_get (by omega) ?_
  split
  next hlt =>
    have hnew : x.1 ∉ columns L := fun hc => by
      have := hseen.2 hc
      omega
    obtain ⟨hj, hc⟩ := hroom hnew
    refine Buf.meets_set (by omega) (Buf.meets_set hj (Buf.meets_set hc ?_))
    refine ⟨⟨hmask, hj, hc, fun c hcn => ?_, fun c hcn => ?_, fun c hcn hle => ?_,
      fun k hlo hhi => ?_, ?_, fun c => ?_⟩, ⟨rfl, rfl, rfl, fun k hk => ?_, le_succ _⟩⟩
    · simp only [Buf.upd_cell]
      have := h.mask_lt c hcn
      split <;> omega
    · simp only [Buf.upd_cell, columns_concat, mem_insert]
      split
      next heq => exact ⟨fun _ => Or.inl heq, fun _ => by omega⟩
      next hne => rw [h.seen c hcn]; exact ⟨Or.inr, fun hor => hor.resolve_left hne⟩
    · simp only [Buf.upd_cell] at hle ⊢
      split at hle
      next heq => simp [heq]
      next hne =>
        have := h.mask_lt c hcn
        rw [if_neg hne, if_neg (by omega)]
        exact h.hit c hcn hle
    · simp only [Buf.upd_cell]
      obtain hk | rfl := Nat.lt_succ_iff_lt_or_eq.1 hhi
      · obtain ⟨hkn, hback⟩ := h.back k hlo hk
        rw [if_neg hk.ne, if_neg]
        · exact ⟨hkn, hback⟩
        · intro heq
          rw [heq] at hback
          omega
      · rw [if_pos rfl, if_pos rfl]
        exact ⟨hx, rfl⟩
    · rw [columns_concat, card_insert_of_notMem hnew]
      simp only
      omega
    · rw [colSum_concat, ← h.sum c]
      exact segSum_push (by omega) _ _
    · simp only at hk
      have hne : k ≠ s.nz := by omega
      exact ⟨Buf.upd_cell_ne hne, Buf.upd_cell_ne hne⟩
  next hge =>
    have hle : (start : Int) ≤ s.mask.cell x.1 := by omega
    have hold : x.1 ∈ columns L := hseen.1 hle
    have hlt := h.mask_lt x.1 hx
    have hjr := h.jc_room
    have hcr := h.c_room
    have hhit := h.hit x.1 hx hle
    refine Buf.meets_get (by omega) (Meets.assert hhit (Buf.meets_get (by omega)
      (Buf.meets_set (by omega) ?_)))
    have hsame : columns (L ++ [x]) = columns L := by
      rw [columns_concat, insert_eq_of_mem hold]
    refine ⟨⟨hmask, hjr, hcr, h.mask_lt, fun c hcn => by rw [hsame]; exact h.seen c hcn, h.hit,
      h.back, by rw [hsame]; exact hnz, fun c => ?_⟩, ⟨rfl, rfl, rfl, fun k hk => ?_,
      le_refl _⟩⟩
    · rw [colSum_concat, ← h.sum c]
      have hlo : start ≤ (s.mask.cell x.1).toNat := by omega
      have hhi : (s.mask.cell x.1).toNat < s.nz := by omega
      refine (segSum_add hlo hhi _).trans ?_
      rw [hhit]
    · simp only at hk
      exact ⟨rfl, Buf.upd_cell_ne (by omega)⟩

/-- A row of entries whose columns fit in. -/
theorem accumulate_row (h : RowInv n start [] s) (hR : ∀ x ∈ R, x.1 < n)
    (hjc : start + (columns R).card ≤ s.jc.size) (hc : start + (columns R).card ≤ s.c.size) :
    Meets (R.foldlM (fun s x => Sparse.accumulate start s x.1 x.2) s)
      (fun s' => RowInv n start R s' ∧ Frame start s s') fun _ => False := by
  refine (Meets.foldlM (fun rest s' => ∃ L, R = L ++ rest ∧ RowInv n start L s' ∧ Frame start s s')
    (fun x rest s' ⟨L, heq, hs, hf⟩ => ?_) s ⟨[], rfl, h, .refl start s⟩).imp
    fun s' ⟨L, heq, hs⟩ => ?_
  · have hsub : columns (L ++ [x]) ⊆ columns R := by
      intro c hc
      obtain ⟨y, hy, hyc⟩ := mem_columns.1 hc
      refine mem_columns.2 ⟨y, ?_, hyc⟩
      rw [heq]
      rw [List.mem_append, List.mem_singleton] at hy
      rw [List.mem_append, List.mem_cons]
      exact hy.imp id Or.inl
    have hcard := card_le_card hsub
    refine (hs.accumulate (hR x (by rw [heq]; simp)) fun hnew => ?_).imp fun s'' ⟨hs'', hf'⟩ =>
      ⟨L ++ [x], by rw [heq]; simp, hs'', hf.trans hf'⟩
    rw [columns_concat, card_insert_of_notMem hnew] at hcard
    rw [hf.jc_size, hf.c_size, hs.nz]
    omega
  · rw [List.append_nil] at heq
    exact heq ▸ hs

end

/-! ## All rows -/

section
variable [Semiring α]

/-- What a row leaves: entries with the sums `f`, at no more than `w` columns, and apart from them
what was there before. -/
structure RowDone (n start w : Nat) (f : Nat → α) (distinct : Prop) (s s' : Acc α) : Prop where
  frame : Frame start s s'
  nz_le : s'.nz ≤ start + w
  mask_lt : ∀ c < n, s'.mask.cell c < s'.nz
  inRange : ∀ k, start ≤ k → k < s'.nz → s'.jc.cell k < n
  sum : ∀ c, segSum s'.jc s'.c start s'.nz c = f c
  distinct : distinct → ((List.range' start (s'.nz - start)).map s'.jc.cell).Nodup

theorem RowInv.done (h : RowInv n start L s') (hf : Frame start s s') (distinct : Prop) :
    RowDone n start (columns L).card (colSum L) distinct s s' := by
  refine ⟨hf, h.nz.le, h.mask_lt, fun k hlo hhi => (h.back k hlo hhi).1, h.sum, fun _ => ?_⟩
  refine List.Nodup.map_on (fun k hk k' hk' heq => ?_) List.nodup_range'
  rw [List.mem_range'_1] at hk hk'
  have h1 := (h.back k hk.1 (by omega)).2
  have h2 := (h.back k' hk'.1 (by omega)).2
  rw [heq] at h1
  exact Int.ofNat_inj.1 (h1.symm.trans h2)

/-- The first `i` rows have been filled. -/
structure RowsInv (m n : Nat) (f : Nat → Nat → α) (distinct : Nat → Prop) (i : Nat)
    (s : RowVars α) :
    Prop where
  ic_size : m + 1 ≤ s.ic.size
  first : s.ic.cell 0 = 0
  last : s.ic.cell i = s.acc.nz
  mono : ∀ k < i, s.ic.cell k ≤ s.ic.cell (k + 1)
  mask_size : n ≤ s.acc.mask.size
  jc_room : s.acc.nz ≤ s.acc.jc.size
  c_room : s.acc.nz ≤ s.acc.c.size
  mask_lt : ∀ c < n, s.acc.mask.cell c < s.acc.nz
  inRange : ∀ k < s.acc.nz, s.acc.jc.cell k < n
  sum : ∀ k < i, ∀ c, segSum s.acc.jc s.acc.c (s.ic.cell k) (s.ic.cell (k + 1)) c = f k c
  distinct : ∀ k < i, distinct k →
    ((List.range' (s.ic.cell k) (s.ic.cell (k + 1) - s.ic.cell k)).map s.acc.jc.cell).Nodup

/-- Row pointers that do not decrease. -/
theorem RowsInv.ic_le {f : Nat → Nat → α} {distinct : Nat → Prop} {i k k' : Nat} {s : RowVars α}
    (h : RowsInv m n f distinct i s) (hk : k ≤ k') (hk' : k' ≤ i) : s.ic.cell k ≤ s.ic.cell k' := by
  induction k', hk using le_induction with
  | base => exact le_refl _
  | succ k' _ ih => exact (ih (by omega)).trans (h.mono k' (by omega))

/-- A row that has been filled is not touched by the next one. -/
theorem RowsInv.cells_step {f : Nat → Nat → α} {distinct : Nat → Prop} {i k : Nat} {s : RowVars α}
    {acc : Acc α} (h : RowsInv m n f distinct i s) (hframe : Frame s.acc.nz s.acc acc)
    (hk : k < i) :
    (List.range' (s.ic.cell k) (s.ic.cell (k + 1) - s.ic.cell k)).map acc.jc.cell =
      (List.range' (s.ic.cell k) (s.ic.cell (k + 1) - s.ic.cell k)).map s.acc.jc.cell := by
  refine List.map_congr_left fun j hj => (hframe.outside j (Or.inl ?_)).1
  have := h.ic_le (show k + 1 ≤ i from hk) (le_refl i)
  rw [h.last] at this
  rw [List.mem_range'_1] at hj
  omega

/-- One more row. -/
theorem RowsInv.step {f : Nat → Nat → α} {distinct : Nat → Prop} {i w : Nat} {s : RowVars α}
    {acc : Acc α} (h : RowsInv m n f distinct i s) (hi : i < m)
    (hrow : RowDone n s.acc.nz w (f i) (distinct i) s.acc acc)
    (hjc : s.acc.nz + w ≤ s.acc.jc.size) (hc : s.acc.nz + w ≤ s.acc.c.size) :
    RowsInv m n f distinct (i + 1) ⟨s.ic.upd (i + 1) acc.nz, acc⟩ := by
  have hle := hrow.frame.nz_le
  have hnz := hrow.nz_le
  have hjs := hrow.frame.jc_size
  have hcs := hrow.frame.c_size
  have hms := hrow.frame.mask_size
  have hmask : n ≤ acc.mask.size := hms ▸ h.mask_size
  have hjr : acc.nz ≤ acc.jc.size := by omega
  have hcr : acc.nz ≤ acc.c.size := by omega
  -- the pointers of the rows before, and the cells of those rows, are not touched
  have hic : ∀ k ≤ i, (s.ic.upd (i + 1) acc.nz).cell k = s.ic.cell k := fun k hk =>
    Buf.upd_cell_ne (by omega)
  have hnext : (s.ic.upd (i + 1) acc.nz).cell (i + 1) = acc.nz := Buf.upd_cell_self
  have hold : ∀ k < s.acc.nz, acc.jc.cell k = s.acc.jc.cell k ∧ acc.c.cell k = s.acc.c.cell k :=
    fun k hk => hrow.frame.outside k (Or.inl hk)
  refine ⟨h.ic_size, (hic 0 (zero_le i)).trans h.first, hnext, fun k hk => ?_, hmask, hjr,
    hcr, hrow.mask_lt, fun k hk => ?_, fun k hk c => ?_, fun k hk hd => ?_⟩
  · obtain hlt | rfl := Nat.lt_succ_iff_lt_or_eq.1 hk
    · simp only [hic k hlt.le, hic (k + 1) hlt]
      exact h.mono k hlt
    · simp only [hic k (le_refl k), hnext, h.last]
      exact hle
  · obtain hlt | hge := lt_or_ge k s.acc.nz
    · exact (hold k hlt).1 ▸ h.inRange k hlt
    · exact hrow.inRange k hge hk
  · obtain hlt | rfl := Nat.lt_succ_iff_lt_or_eq.1 hk
    · simp only [hic k hlt.le, hic (k + 1) hlt]
      rw [← h.sum k hlt c]
      refine segSum_congr fun j _ hj => hold j ?_
      have := h.ic_le (show k + 1 ≤ i from hlt) (le_refl i)
      rw [h.last] at this
      omega
    · simp only [hic k (le_refl k), hnext, h.last]
      exact hrow.sum c
  · obtain hlt | rfl := Nat.lt_succ_iff_lt_or_eq.1 hk
    · simp only [hic k hlt.le, hic (k + 1) hlt]
      rw [h.cells_step hrow.frame hlt]
      exact h.distinct k hlt hd
    · simp only [hic k (le_refl k), hnext, h.last]
      exact hrow.distinct hd

/-- The loop over the rows, when the arrays have room for the columns of all rows; what is said of
the columns of each row holds in the end. -/
theorem forRows_columns {f : Nat → Nat → α} {d : Nat → Prop} {w : Nat → Nat}
    {P : Nat → List Nat → Prop} {row : Nat → Nat → Acc α → Except Fault (Acc α)} {s : RowVars α}
    (hic : m + 1 ≤ s.ic.size) (hmask : n ≤ s.acc.mask.size)
    (hneg : ∀ c < n, s.acc.mask.cell c < 0) (hnz : s.acc.nz = 0)
    (hjc : ∑ k ∈ range m, w k ≤ s.acc.jc.size) (hc : ∑ k ∈ range m, w k ≤ s.acc.c.size)
    (hrow : ∀ i < m, ∀ acc, RowInv n acc.nz [] acc → acc.nz + w i ≤ acc.jc.size →
      acc.nz + w i ≤ acc.c.size →
      Meets (row i acc.nz acc) (fun acc' => RowDone n acc.nz (w i) (f i) (d i) acc acc' ∧
        P i ((List.range' acc.nz (acc'.nz - acc.nz)).map acc'.jc.cell)) fun _ => False) :
    Meets (forRows m row s) (fun s => RowsInv m n f d m s ∧ ∀ i < m,
      P i ((List.range' (s.ic.cell i) (s.ic.cell (i + 1) - s.ic.cell i)).map s.acc.jc.cell))
      fun _ => False := by
  have hjr : s.acc.nz ≤ s.acc.jc.size := by omega
  have hcr : s.acc.nz ≤ s.acc.c.size := by omega
  have hstart : RowsInv m n f d 0 ⟨s.ic.upd 0 0, s.acc⟩ := by
    refine ⟨hic, Buf.upd_cell_self, Buf.upd_cell_self.trans hnz.symm, nofun, hmask, hjr, hcr,
      fun c hcn => ?_, fun k hk => ?_, nofun, nofun⟩
    · have := hneg c hcn
      simp only [hnz]
      exact this
    · simp only [hnz, not_lt_zero] at hk
  rw [forRows]
  refine Buf.meets_set (by omega) ?_
  refine (Meets.range' _ 0 m (fun i s' => (RowsInv m n f d i s' ∧ ∀ k < i,
    P k ((List.range' (s'.ic.cell k) (s'.ic.cell (k + 1) - s'.ic.cell k)).map s'.acc.jc.cell)) ∧
    s'.acc.nz ≤ ∑ k ∈ range i, w k ∧ s'.acc.jc.size = s.acc.jc.size ∧
      s'.acc.c.size = s.acc.c.size) (fun i hi s' ⟨⟨hs, hP⟩, hle, hj, hcs⟩ => ?_) _
    ⟨⟨hstart, nofun⟩, by rw [range_zero, sum_empty]; exact hnz.le, rfl, rfl⟩).imp
    fun s' hs => hs.1
  rw [zero_add]
  have hsize := hs.ic_size
  have hroom : ∑ k ∈ range (i + 1), w k ≤ ∑ k ∈ range m, w k :=
    sum_le_sum_of_subset (range_subset_range.2 hi)
  rw [sum_range_succ] at hroom
  refine Buf.meets_get (by omega) ?_
  rw [hs.last]
  have hinv := RowInv.begin hs.mask_size hs.jc_room hs.c_room hs.mask_lt
  refine (hrow i hi s'.acc hinv (by omega) (by omega)).bind fun acc ⟨hacc, hPi⟩ => ?_
  rw [Buf.set_eq (by omega)]
  have hnzle := hacc.nz_le
  refine ⟨⟨hs.step hi hacc (by omega) (by omega), fun k hk => ?_⟩, ?_,
    hacc.frame.jc_size.trans hj, hacc.frame.c_size.trans hcs⟩
  · have hic : ∀ k ≤ i, (s'.ic.upd (i + 1) acc.nz).cell k = s'.ic.cell k := fun k hk =>
      Buf.upd_cell_ne (by omega)
    obtain hlt | rfl := Nat.lt_succ_iff_lt_or_eq.1 hk
    · simp only [hic k hlt.le, hic (k + 1) hlt]
      rw [hs.cells_step hacc.frame hlt]
      exact hP k hlt
    · simp only [hic k (le_refl k), Buf.upd_cell_self, hs.last]
      exact hPi
  · rw [sum_range_succ]
    simp only
    omega

/-- The loop over the rows, when the arrays have room for the columns of all rows. -/
theorem forRows_spec {f : Nat → Nat → α} {d : Nat → Prop} {w : Nat → Nat}
    {row : Nat → Nat → Acc α → Except Fault (Acc α)} {s : RowVars α} (hic : m + 1 ≤ s.ic.size)
    (hmask : n ≤ s.acc.mask.size) (hneg : ∀ c < n, s.acc.mask.cell c < 0) (hnz : s.acc.nz = 0)
    (hjc : ∑ k ∈ range m, w k ≤ s.acc.jc.size) (hc : ∑ k ∈ range m, w k ≤ s.acc.c.size)
    (hrow : ∀ i < m, ∀ acc, RowInv n acc.nz [] acc → acc.nz + w i ≤ acc.jc.size →
      acc.nz + w i ≤ acc.c.size →
      Meets (row i acc.nz acc) (RowDone n acc.nz (w i) (f i) (d i) acc) fun _ => False) :
    Meets (forRows m row s) (RowsInv m n f d m) fun _ => False :=
  (forRows_columns (P := fun _ _ => True) hic hmask hneg hnz hjc hc fun i hi acc hacc hj hc =>
    (hrow i hi acc hacc hj hc).imp fun _ h => ⟨h, trivial⟩).imp fun _ h => h.1

/-- The matrix that is made of filled rows. -/
theorem RowsInv.valid {f : Nat → Nat → α} {distinct : Nat → Prop} {s : RowVars α}
    (h : RowsInv m n f distinct m s) {C : SparseMatrix α} (hm : C.m = m) (hn : C.n = n) :
    (C.withRows s).Valid m n ∧
      (C.withRows s).toMatrix m n = Matrix.of fun (i : Fin m) (j : Fin n) => f i j :=
  ⟨⟨hm, hn, h.ic_size, h.first, h.mono, h.last, h.jc_room, h.c_room, h.inRange⟩,
    Matrix.ext fun i j => h.sum i i.isLt j⟩

end

end Graphviz.Sparse
