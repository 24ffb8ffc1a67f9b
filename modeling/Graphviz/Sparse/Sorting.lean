import Graphviz.Sparse.Entries

/-!
# Sorting entries into rows

The passes by which a transpose, and a matrix from coordinates, are made: the entries of each row
are counted, the counts are summed to the places where rows start, each entry is put at the next
free place of its row, and the places, which have become the ends of the rows, are shifted. An
entry is a row, a column and a value.
-/

namespace Graphviz.Sparse

open Finset Nat Outcome

variable {α : Type} {n c r : Nat} {L all done : List (Nat × Nat × α)} {ib : Buf Nat}

/-- The number of entries of a row. -/
def rowCount (L : List (Nat × Nat × α)) (c : Nat) : Nat :=
  (L.map Prod.fst).count c

/-- Where a row starts: after the entries of the rows before it. -/
def rowStart (L : List (Nat × Nat × α)) (c : Nat) : Nat :=
  ∑ k ∈ range c, rowCount L k

/-- The sum of the values at a position. -/
def posSum [Semiring α] (L : List (Nat × Nat × α)) (c r : Nat) : α :=
  colSum (L.map fun e => (e.2.1, if e.1 = c then e.2.2 else 0)) r

theorem rowCount_append : rowCount (done ++ L) c = rowCount done c + rowCount L c := by
  rw [rowCount, List.map_append, List.count_append, rowCount, rowCount]

theorem rowCount_singleton (e : Nat × Nat × α) : rowCount [e] c = if e.1 = c then 1 else 0 := by
  simp [rowCount, List.count_singleton]

theorem rowStart_succ : rowStart L (c + 1) = rowStart L c + rowCount L c :=
  sum_range_succ _ _

theorem rowStart_mono {c c' : Nat} (h : c ≤ c') : rowStart L c ≤ rowStart L c' :=
  sum_le_sum_of_subset (range_subset_range.2 h)

/-- The rows together have all entries. -/
theorem rowStart_all (h : ∀ e ∈ L, e.1 < n) : rowStart L n = L.length := by
  induction L with
  | nil => simp [rowStart, rowCount]
  | cons e L ih =>
    have hrest := ih fun x hx => h x (List.mem_cons_of_mem _ hx)
    have he : ∑ k ∈ range n, (if e.1 = k then 1 else 0) = 1 := by
      rw [sum_ite_eq, if_pos (mem_range.2 (h e List.mem_cons_self))]
    rw [List.length_cons, ← hrest, ← he, rowStart, rowStart, ← sum_add_distrib]
    refine sum_congr rfl fun k _ => ?_
    rw [rowCount, List.map_cons, List.count_cons, rowCount]
    simp only [beq_iff_eq]

/-- A place before the end of the rows is in one of them. -/
theorem exists_row {k : Nat} (hk : k < rowStart L n) :
    ∃ c < n, rowStart L c ≤ k ∧ k < rowStart L (c + 1) := by
  induction n with
  | zero => exact absurd hk (by simp [rowStart])
  | succ n ih =>
    obtain hlt | hge := lt_or_ge k (rowStart L n)
    · obtain ⟨c, hc, h⟩ := ih hlt
      exact ⟨c, by omega, h⟩
    · exact ⟨n, lt_succ_self n, hge, hk⟩

/-! ## Counting -/

theorem countEntry_eq (h : c + 1 < ib.size) :
    countEntry ib c = .ok (ib.upd (c + 1) (ib.cell (c + 1) + 1)) := by
  rw [countEntry, Buf.get_eq h, ok_bind, Buf.set_eq h]

theorem countEntries_spec {cs : List Nat} (hcs : ∀ c ∈ cs, c < n) (hsize : n + 1 ≤ ib.size) :
    Meets (cs.foldlM countEntry ib) (fun ib' => ib'.size = ib.size ∧ ib'.cell 0 = ib.cell 0 ∧
      ∀ c < n, ib'.cell (c + 1) = ib.cell (c + 1) + cs.count c) fun _ => False := by
  induction cs generalizing ib with
  | nil => exact ⟨rfl, rfl, fun c _ => rfl⟩
  | cons d cs ih =>
    have hd := hcs d List.mem_cons_self
    rw [List.foldlM_cons, countEntry_eq (by omega), ok_bind]
    have hsize' : n + 1 ≤ (ib.upd (d + 1) (ib.cell (d + 1) + 1)).size := hsize
    refine (ih (fun c hc => hcs c (List.mem_cons_of_mem _ hc)) hsize').imp
      fun ib' ⟨hs, h0, hc⟩ => ⟨hs, h0.trans (Buf.upd_cell_ne (by omega)), fun c hcn => ?_⟩
    rw [hc c hcn, Buf.upd_cell, List.count_cons]
    simp only [add_right_cancel_iff, beq_iff_eq]
    obtain rfl | hne := eq_or_ne c d
    · rw [if_pos rfl, if_pos rfl]
      omega
    · rw [if_neg hne, if_neg hne.symm]
      omega

theorem sumCounts_spec {f : Nat → Nat} (hsize : n + 1 ≤ ib.size) (h₀ : ib.cell 0 = 0)
    (hf : ∀ c < n, ib.cell (c + 1) = f c) :
    Meets (sumCounts n ib) (fun ib' => ib'.size = ib.size ∧
      ∀ c ≤ n, ib'.cell c = ∑ k ∈ range c, f k) fun _ => False := by
  rw [sumCounts]
  refine (Meets.range' _ 0 n (fun i ib' => ib'.size = ib.size ∧
    (∀ c ≤ i, ib'.cell c = ∑ k ∈ range c, f k) ∧ ∀ c, i < c → ib'.cell c = ib.cell c)
    (fun i hi s ⟨hs, hle, hgt⟩ => ?_) ib ⟨rfl, fun c hc => ?_, fun _ _ => rfl⟩).imp
    fun ib' ⟨hs, hle, _⟩ => ⟨hs, hle⟩
  · obtain rfl : c = 0 := by omega
    rw [h₀, range_zero, sum_empty]
  · rw [zero_add]
    refine Buf.meets_get (by omega) (Buf.meets_get (by omega) ?_)
    rw [Buf.set_eq (by omega)]
    refine ⟨hs, fun c hc => ?_, fun c hc => ?_⟩
    · rw [Buf.upd_cell]
      split
      next h =>
        rw [h, hgt (i + 1) (lt_succ_self i), hf i hi, hle i (le_refl i), sum_range_succ, add_comm]
      next h => exact hle c (by omega)
    · rw [Buf.upd_cell_ne (by omega)]
      exact hgt c (by omega)

/-! ## Placing -/

section
variable [Semiring α]

/-- The entries `done` of all the entries `all` have been placed. -/
structure Placed (n : Nat) (all done : List (Nat × Nat × α)) (s : Filling α) : Prop where
  ib_size : n + 1 ≤ s.ib.size
  jb_size : all.length ≤ s.jb.size
  b_size : all.length ≤ s.b.size
  pos : ∀ c < n, s.ib.cell c = rowStart all c + rowCount done c
  sum : ∀ c < n, ∀ r, segSum s.jb s.b (rowStart all c) (s.ib.cell c) r = posSum done c r
  keys : ∀ c < n, ∀ k, rowStart all c ≤ k → k < s.ib.cell c → ∃ e ∈ done, s.jb.cell k = e.2.1

theorem posSum_concat (e : Nat × Nat × α) : posSum (done ++ [e]) c r =
    posSum done c r + if e.2.1 = r then if e.1 = c then e.2.2 else 0 else 0 := by
  rw [posSum, List.map_append, List.map_singleton, colSum_concat, posSum]

/-- The next free place of a row is in the row. -/
theorem Placed.lt_next {e : Nat × Nat × α} {rest : List (Nat × Nat × α)} {s : Filling α}
    (hall : ∀ e ∈ all, e.1 < n) (heq : all = done ++ e :: rest) (h : Placed n all done s) :
    s.ib.cell e.1 < rowStart all (e.1 + 1) := by
  have hcount : rowCount all e.1 = rowCount (done ++ [e]) e.1 + rowCount rest e.1 := by
    rw [← rowCount_append, heq, List.append_assoc, List.singleton_append]
  have hpos := h.pos e.1 (hall e (by rw [heq]; simp))
  rw [rowStart_succ, hcount, rowCount_append, rowCount_singleton, if_pos rfl]
  omega

/-- The cells of another row are not touched. -/
theorem Placed.other {e : Nat × Nat × α} {rest : List (Nat × Nat × α)} {s : Filling α}
    (hall : ∀ e ∈ all, e.1 < n) (heq : all = done ++ e :: rest) (h : Placed n all done s) {k : Nat}
    (hc : c < n) (hne : c ≠ e.1) (hlo : rowStart all c ≤ k) (hhi : k < s.ib.cell c) :
    k ≠ s.ib.cell e.1 := by
  have hpos := h.pos e.1 (hall e (by rw [heq]; simp))
  have hlt := h.lt_next hall heq
  have hcpos := h.pos c hc
  have hcend : rowStart all c + rowCount done c ≤ rowStart all (c + 1) := by
    rw [rowStart_succ, heq, rowCount_append]
    omega
  obtain hlt' | hgt := lt_or_gt_of_ne hne
  · have := rowStart_mono (L := all) (show c + 1 ≤ e.1 from hlt')
    omega
  · have := rowStart_mono (L := all) (show e.1 + 1 ≤ c from hgt)
    omega

theorem Placed.placeEntry_eq {e : Nat × Nat × α} {rest : List (Nat × Nat × α)} {s : Filling α}
    (hall : ∀ e ∈ all, e.1 < n) (heq : all = done ++ e :: rest) (h : Placed n all done s) :
    placeEntry s e.1 e.2.1 e.2.2 = .ok ⟨s.ib.upd e.1 (s.ib.cell e.1 + 1),
      s.jb.upd (s.ib.cell e.1) e.2.1, s.b.upd (s.ib.cell e.1) e.2.2⟩ := by
  have he : e.1 < n := hall e (by rw [heq]; simp)
  have hlt := h.lt_next hall heq
  have hend : rowStart all (e.1 + 1) ≤ all.length :=
    (rowStart_mono he).trans_eq (rowStart_all hall)
  have hib := h.ib_size
  have hjb := h.jb_size
  have hb := h.b_size
  rw [placeEntry, Buf.get_eq (by omega), ok_bind, Buf.set_eq (by omega), ok_bind,
    Buf.set_eq (by omega), ok_bind, Buf.set_eq (by omega), ok_bind]

/-- The next entry is put at the next free place of its row. -/
theorem Placed.place {e : Nat × Nat × α} {rest : List (Nat × Nat × α)} {s : Filling α}
    (hall : ∀ e ∈ all, e.1 < n) (heq : all = done ++ e :: rest) (h : Placed n all done s) :
    Meets (placeEntry s e.1 e.2.1 e.2.2) (Placed n all (done ++ [e])) fun _ => False := by
  have hpos := h.pos e.1 (hall e (by rw [heq]; simp))
  rw [h.placeEntry_eq hall heq]
  refine ⟨h.ib_size, h.jb_size, h.b_size, fun c hc => ?_, fun c hc r => ?_,
    fun c hc k hlo hhi => ?_⟩
  · rw [Buf.upd_cell, rowCount_append, rowCount_singleton]
    split
    next hce => rw [hce, if_pos rfl, hpos]; omega
    next hce => rw [if_neg (Ne.symm hce), h.pos c hc, add_zero]
  · rw [posSum_concat, ← h.sum c hc r]
    simp only [Buf.upd_cell]
    obtain rfl | hne := eq_or_ne c e.1
    · rw [if_pos rfl, if_pos rfl]
      exact segSum_push (by omega) _ _
    · rw [if_neg hne, if_neg hne.symm, ite_self, add_zero]
      refine segSum_congr fun k hlo hhi => ?_
      have hk := h.other hall heq hc hne hlo hhi
      exact ⟨Buf.upd_cell_ne hk, Buf.upd_cell_ne hk⟩
  · have hold : k ≠ s.ib.cell e.1 → k < s.ib.cell c → ∃ x ∈ done ++ [e],
        (s.jb.upd (s.ib.cell e.1) e.2.1).cell k = x.2.1 := by
      intro hk hhi
      obtain ⟨x, hx, hkx⟩ := h.keys c hc k hlo hhi
      exact ⟨x, List.mem_append_left _ hx, (Buf.upd_cell_ne hk).trans hkx⟩
    obtain rfl | hne := eq_or_ne c e.1
    · rw [Buf.upd_cell_self] at hhi
      obtain hlt' | rfl := Nat.lt_succ_iff_lt_or_eq.1 hhi
      · exact hold hlt'.ne hlt'
      · exact ⟨e, by simp, Buf.upd_cell_self⟩
    · rw [Buf.upd_cell_ne hne] at hhi
      exact hold (h.other hall heq hc hne hlo hhi) hhi

/-- The cells of a row have entries of that row. -/
def OwnKeys (n : Nat) (all done : List (Nat × Nat × α)) (s : Filling α) : Prop :=
  ∀ c < n, ∀ k, rowStart all c ≤ k → k < s.ib.cell c → ∃ e ∈ done, e.1 = c ∧ s.jb.cell k = e.2.1

/-- The next entry is put in its row. -/
theorem Placed.ownKeys {e : Nat × Nat × α} {rest : List (Nat × Nat × α)} {s : Filling α}
    (hall : ∀ e ∈ all, e.1 < n) (heq : all = done ++ e :: rest) (h : Placed n all done s)
    (hown : OwnKeys n all done s) :
    Meets (placeEntry s e.1 e.2.1 e.2.2) (OwnKeys n all (done ++ [e])) fun _ => False := by
  rw [h.placeEntry_eq hall heq]
  intro c hc k hlo hhi
  have hold : k ≠ s.ib.cell e.1 → k < s.ib.cell c → ∃ x ∈ done ++ [e],
      x.1 = c ∧ (s.jb.upd (s.ib.cell e.1) e.2.1).cell k = x.2.1 := by
    intro hk hhi
    obtain ⟨x, hx, hxc, hkx⟩ := hown c hc k hlo hhi
    exact ⟨x, List.mem_append_left _ hx, hxc, (Buf.upd_cell_ne hk).trans hkx⟩
  obtain rfl | hne := eq_or_ne c e.1
  · rw [Buf.upd_cell_self] at hhi
    obtain hlt | rfl := Nat.lt_succ_iff_lt_or_eq.1 hhi
    · exact hold hlt.ne hlt
    · exact ⟨e, by simp, rfl, Buf.upd_cell_self⟩
  · rw [Buf.upd_cell_ne hne] at hhi
    exact hold (h.other hall heq hc hne hlo hhi) hhi

/-- All entries are placed, each in its row. -/
theorem placeEntries_ownKeys {s : Filling α} (hall : ∀ e ∈ all, e.1 < n) (h : Placed n all [] s)
    (hown : OwnKeys n all [] s) :
    Meets (all.foldlM (fun s e => placeEntry s e.1 e.2.1 e.2.2) s)
      (fun s => Placed n all all s ∧ OwnKeys n all all s) fun _ => False := by
  refine (Meets.foldlM (fun rest s => ∃ done, all = done ++ rest ∧ Placed n all done s ∧
    OwnKeys n all done s) (fun e rest s ⟨done, heq, hs, ho⟩ => ?_) s ⟨[], rfl, h, hown⟩).imp
    fun s ⟨done, heq, hs⟩ => ?_
  · exact ((hs.place hall heq).and (hs.ownKeys hall heq ho)).imp
      fun s' hs' => ⟨done ++ [e], by rw [heq]; simp, hs'⟩
  · rw [List.append_nil] at heq
    rw [heq] at hs ⊢
    exact hs

end

/-! ## Shifting -/

theorem shiftRows_spec (hsize : n + 1 ≤ ib.size) :
    Meets (shiftRows n ib) (fun ib' => ib'.size = ib.size ∧ ib'.cell 0 = 0 ∧
      ∀ c < n, ib'.cell (c + 1) = ib.cell c) fun _ => False := by
  rw [shiftRows]
  refine (Meets.range' _ 0 n (fun k ib' => ib'.size = ib.size ∧
    (∀ c ≤ n - k, ib'.cell c = ib.cell c) ∧
      ∀ c, n - k ≤ c → c < n → ib'.cell (c + 1) = ib.cell c)
    (fun k hk s ⟨hs, hlow, hhigh⟩ => ?_) ib ⟨rfl, fun _ _ => rfl, fun c h1 h2 => by omega⟩).bind
    fun ib' ⟨hs, _, hhigh⟩ => ?_
  · rw [Buf.set_eq (by omega)]
    refine ⟨hs, Buf.upd_cell_self, fun c hc => ?_⟩
    rw [Buf.upd_cell_ne (by omega)]
    exact hhigh c (by omega) hc
  · rw [zero_add]
    refine Buf.meets_get (by omega) ?_
    rw [Buf.set_eq (by omega)]
    refine ⟨hs, fun c hc => ?_, fun c hlo hhi => ?_⟩
    · rw [Buf.upd_cell_ne (by omega)]
      exact hlow c (by omega)
    · rw [Buf.upd_cell]
      split
      next heq =>
        obtain rfl : c = n - 1 - k := by omega
        exact hlow _ (by omega)
      next hne => exact hhigh c (by omega) hhi

/-! ## The passes together -/

section
variable [Semiring α]

/-- The arrays that hold the entries row by row. -/
structure SortedRows (n : Nat) (L : List (Nat × Nat × α)) (s : Filling α) : Prop where
  ib_size : n + 1 ≤ s.ib.size
  jb_size : L.length ≤ s.jb.size
  b_size : L.length ≤ s.b.size
  ib : ∀ c ≤ n, s.ib.cell c = rowStart L c
  sum : ∀ c < n, ∀ r, segSum s.jb s.b (rowStart L c) (rowStart L (c + 1)) r = posSum L c r
  keys : ∀ k < L.length, ∃ e ∈ L, s.jb.cell k = e.2.1

theorem Placed.sorted {s : Filling α} (hall : ∀ e ∈ L, e.1 < n) (h : Placed n L L s) {ib : Buf Nat}
    (hsize : ib.size = s.ib.size) (h₀ : ib.cell 0 = 0)
    (hib : ∀ c < n, ib.cell (c + 1) = s.ib.cell c) : SortedRows n L ⟨ib, s.jb, s.b⟩ := by
  have hend : ∀ c < n, s.ib.cell c = rowStart L (c + 1) := fun c hc => by
    rw [h.pos c hc, rowStart_succ]
  refine ⟨hsize ▸ h.ib_size, h.jb_size, h.b_size, fun c hc => ?_, fun c hc r => ?_,
    fun k hk => ?_⟩
  · cases c with
    | zero => exact h₀.trans (by simp [rowStart])
    | succ c => exact (hib c hc).trans (hend c hc)
  · rw [← hend c hc]
    exact h.sum c hc r
  · rw [← rowStart_all hall] at hk
    obtain ⟨c, hc, hlo, hhi⟩ := exists_row hk
    exact h.keys c hc k hlo (hhi.trans_eq (hend c hc).symm)

/-- The matrix that the sorted entries make up. -/
theorem SortedRows.valid {m : Nat} {s : Filling α} (h : SortedRows n L s)
    (hall : ∀ e ∈ L, e.1 < n ∧ e.2.1 < m) {type : MatrixType} :
    (⟨n, m, L.length, type, s.ib, s.jb, s.b⟩ : SparseMatrix α).Valid n m ∧
      (⟨n, m, L.length, type, s.ib, s.jb, s.b⟩ : SparseMatrix α).toMatrix n m =
        Matrix.of fun (c : Fin n) (r : Fin m) => posSum L c r := by
  refine ⟨⟨rfl, rfl, h.ib_size, (h.ib 0 (zero_le n)).trans (by simp [rowStart]),
    fun c hc => ?_, (h.ib n (le_refl n)).trans (rowStart_all fun e he => (hall e he).1),
    h.jb_size, h.b_size, fun k hk => ?_⟩, ?_⟩
  · rw [h.ib c hc.le, h.ib (c + 1) hc]
    exact rowStart_mono (le_succ c)
  · obtain ⟨e, he, hk⟩ := h.keys k hk
    exact hk ▸ (hall e he).2
  · ext c r
    have hsum := h.sum c c.isLt r
    rw [SparseMatrix.toMatrix, Matrix.of_apply, Matrix.of_apply, ← hsum, SparseMatrix.entry,
      h.ib c c.isLt.le, h.ib (c + 1) c.isLt]

/-- The four passes sort the entries into rows. -/
theorem meets_sort_ownKeys {β : Type} {P : β → Prop} {k : Filling α → Except Fault β}
    (jb : Buf Nat) (b : Buf α) (hall : ∀ e ∈ L, e.1 < n) (hjb : L.length ≤ jb.size)
    (hb : L.length ≤ b.size) (hk : ∀ s, SortedRows n L s → (∀ c < n, ∀ k, rowStart L c ≤ k →
      k < rowStart L (c + 1) → ∃ e ∈ L, e.1 = c ∧ s.jb.cell k = e.2.1) →
      Meets (k s) P fun _ => False) :
    Meets ((L.map Prod.fst).foldlM countEntry (.calloc (n + 1)) >>= fun ib =>
      sumCounts n ib >>= fun ib =>
      L.foldlM (fun s e => placeEntry s e.1 e.2.1 e.2.2) ⟨ib, jb, b⟩ >>= fun s =>
      shiftRows n s.ib >>= fun ib => k ⟨ib, s.jb, s.b⟩) P fun _ => False := by
  have hcs : ∀ c ∈ L.map Prod.fst, c < n := fun c hc => by
    obtain ⟨e, he, rfl⟩ := List.mem_map.1 hc
    exact hall e he
  refine (countEntries_spec hcs (le_refl _)).bind fun ib ⟨hs, h0, hcount⟩ => ?_
  have hcount : ∀ c < n, ib.cell (c + 1) = rowCount L c := fun c hc =>
    (hcount c hc).trans (zero_add _)
  refine (sumCounts_spec (by rw [hs]; exact le_refl _) h0 hcount).bind fun ib' ⟨hs', hsum⟩ => ?_
  have hstart : ∀ c < n, ib'.cell c = rowStart L c := fun c hc => hsum c hc.le
  have hplaced : Placed n L [] ⟨ib', jb, b⟩ := by
    refine ⟨by rw [hs', hs]; exact le_refl _, hjb, hb, hstart,
      fun c hc r => ?_, fun c hc k hlo hhi => ?_⟩
    · rw [hstart c hc]
      exact segSum_self
    · rw [hstart c hc] at hhi
      omega
  have hown : OwnKeys n L [] (⟨ib', jb, b⟩ : Filling α) := by
    intro c hc k hlo hhi
    rw [hstart c hc] at hhi
    omega
  refine (placeEntries_ownKeys hall hplaced hown).bind fun s ⟨hs, ho⟩ => ?_
  refine (shiftRows_spec hs.ib_size).bind fun ib ⟨hsize, h0, hib⟩ =>
    hk _ (hs.sorted hall hsize h0 hib) fun c hc k hlo hhi => ho c hc k hlo ?_
  rwa [hs.pos c hc, ← rowStart_succ]

end

end Graphviz.Sparse

/-!
## The transpose

A loop over the rows of a valid matrix goes through all its entries, and the transpose sorts them
by their columns.
-/

namespace Graphviz.Sparse

open Finset List Outcome SparseMatrix

variable {α : Type} {A : SparseMatrix α} {m n i : Nat}

/-- The rows and indices of the entries of a matrix, in the order of the loops over its rows. -/
def SparseMatrix.places (A : SparseMatrix α) (m : Nat) : List (Nat × Nat) :=
  (List.range' 0 m).flatMap fun i => (A.cells i).map fun k => (i, k)

theorem SparseMatrix.mem_places {x : Nat × Nat} : x ∈ A.places m ↔ x.1 < m ∧ x.2 ∈ A.cells x.1 := by
  obtain ⟨i, k⟩ := x
  simp [places]

namespace SparseMatrix.Valid

/-- A loop over rows and entries is one over the places. -/
theorem loop_eq {σ : Type} (h : A.Valid m n) (f : Nat → σ → Nat → Nat → Except Fault σ) (s : σ) :
    (List.range' 0 m).foldlM (fun s i => forRow A i (f i) s) s =
      (A.places m).foldlM (fun s x => f x.1 s (A.ja.cell x.2) x.2) s := by
  rw [places, foldlM_flatMap]
  refine foldlM_congr (fun i hi s => ?_) s
  rw [mem_range'_1] at hi
  rw [h.forRow_eq (by omega), foldlM_map]

theorem places_length (h : A.Valid m n) : (A.places m).length = A.nz := by
  rw [places, length_flatMap, sum_range'_map, ← h.sum_length_row, range_eq_Ico, zero_add]
  exact sum_congr rfl fun i _ => by rw [length_map, row, length_map]

end SparseMatrix.Valid

/-- The entries of a matrix, as the transpose sorts them. -/
def SparseMatrix.byColumn (A : SparseMatrix α) (m : Nat) : List (Nat × Nat × α) :=
  (A.places m).map fun x => (A.ja.cell x.2, x.1, A.a.cell x.2)

variable [Semiring α]

/-- The entries at a position of the transpose. -/
theorem posSum_byColumn {c r : Nat} (h : A.Valid m n) (hr : r < m) :
    posSum (A.byColumn m) c r = A.entry r c := by
  have hrow : ∀ i, colSum ((A.cells i).map fun k =>
      (i, if A.ja.cell k = c then A.a.cell k else 0)) r =
      if i = r then colSum (A.row i) c else 0 := by
    intro i
    rw [colSum, List.map_map, colSum, row, List.map_map]
    split
    next hir => simp [Function.comp_def, hir]
    next hir => simp [Function.comp_def, hir]
  rw [posSum, byColumn, places, List.map_map, map_flatMap]
  simp only [List.map_map, Function.comp_def]
  rw [colSum_flatMap]
  simp only [hrow]
  rw [sum_range'_map, sum_ite_eq', if_pos (by simp [hr]), colSum_row h hr]

/-- `SparseMatrix_transpose` gives the transpose, and no entry that has none at the place that it
comes from. -/
theorem transpose_pattern (h : A.Valid m n) :
    Meets (SparseMatrix_transpose A) (fun B => (B.Valid n m ∧ B.type = A.type ∧
      B.toMatrix n m = (A.toMatrix m n).transpose) ∧
      ∀ c < n, ∀ k ∈ B.cells c, ∃ j ∈ A.cells (B.ja.cell k), A.ja.cell j = c) fun _ => False := by
  have hlen : (A.byColumn m).length = A.nz := by
    rw [byColumn, length_map, h.places_length]
  have hmem : ∀ e ∈ A.byColumn m, e.1 < n ∧ e.2.1 < m := by
    intro e he
    obtain ⟨x, hx, rfl⟩ := List.mem_map.1 he
    obtain ⟨hi, hk⟩ := mem_places.1 hx
    exact ⟨h.col_lt hi hk, hi⟩
  have hcount : ∀ ib, (List.range' 0 m).foldlM (fun ib i =>
      forRow A i (fun ib c _ => countEntry ib c) ib) ib =
      ((A.byColumn m).map Prod.fst).foldlM countEntry ib := by
    intro ib
    rw [h.loop_eq fun _ ib c _ => countEntry ib c, byColumn, List.map_map, foldlM_map]
    rfl
  have hplace : ∀ s : Filling α, (List.range' 0 m).foldlM (fun s i => forRow A i (fun s c j => do
      let v ← A.a.get j
      placeEntry s c i v) s) s =
      (A.byColumn m).foldlM (fun s e => placeEntry s e.1 e.2.1 e.2.2) s := by
    intro s
    rw [h.loop_eq fun i s c j => A.a.get j >>= fun v => placeEntry s c i v, byColumn,
      foldlM_map]
    refine foldlM_congr (fun x hx s => ?_) s
    obtain ⟨hi, hk⟩ := mem_places.1 hx
    rw [Buf.get_eq ((h.lt_nz hi hk).trans_le h.a_size)]
    rfl
  rw [SparseMatrix_transpose, h.rows, h.cols, SparseMatrix_new]
  simp only [hcount, hplace]
  refine meets_sort_ownKeys
    (k := fun s => .ok (⟨n, m, A.nz, A.type, s.ib, s.jb, s.b⟩ : SparseMatrix α))
    (.calloc A.nz) (.calloc A.nz) (fun e he => (hmem e he).1) hlen.le hlen.le fun s hs hown => ?_
  obtain ⟨hvalid, hmatrix⟩ := hs.valid hmem
  rw [hlen] at hvalid hmatrix
  refine ⟨⟨hvalid, rfl, hmatrix.trans ?_⟩, fun c hc k hk => ?_⟩
  · ext c r
    rw [Matrix.transpose_apply, Matrix.of_apply, posSum_byColumn h r.isLt]
    rfl
  · rw [mem_cells] at hk
    dsimp only at hk ⊢
    rw [hs.ib c hc.le, hs.ib (c + 1) hc] at hk
    obtain ⟨e, he, hec, hke⟩ := hown c hc k hk.1 hk.2
    obtain ⟨x, hx, rfl⟩ := List.mem_map.1 he
    exact ⟨x.2, hke ▸ (mem_places.1 hx).2, hec⟩

/-- `SparseMatrix_transpose` gives the transpose. -/
theorem transpose_spec (h : A.Valid m n) :
    Meets (SparseMatrix_transpose A) (fun B => B.Valid n m ∧ B.type = A.type ∧
      B.toMatrix n m = (A.toMatrix m n).transpose) fun _ => False :=
  (transpose_pattern h).imp fun _ hB => hB.1

end Graphviz.Sparse
