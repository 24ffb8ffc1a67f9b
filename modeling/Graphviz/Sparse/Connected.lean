import Graphviz.Sparse.Symmetrize

/-!
# Components and distances

`SparseMatrix_weakly_connected_components` searches from each vertex that has not been found; the
searches share the mask, and their level sets follow each other in one array.
`SparseMatrix_distance_matrix` searches from every vertex, and the mask is cleared after each
search.
-/

namespace Graphviz.Sparse

open LevelOrder List Nat Outcome

variable {α : Type}

/-! ## The components -/

/-- The variables of `SparseMatrix_weakly_connected_components`. The pointer `levelset` is `off`
cells behind the start of its array, to which `*comps` points. -/
structure CompVars where
  ncomp : Nat
  comps_ptr : Buf Nat
  levelset_ptr : Option (Buf Nat)
  levelset : Option (Buf Nat)
  mask : Option (Buf Int)
  off : Nat

/-- `i == 0 || mask[i] < 0`. -/
def startsComponent (mask : Option (Buf Int)) (i : Nat) : Except Fault Bool :=
  if i = 0 then .ok true
  else match mask with
    | none => .error .segfault
    | some mask => do
      let k ← mask.get i
      .ok (decide (k < 0))

/-- The body of the loop over the vertices. -/
def findComponent (A : SparseMatrix α) (s : CompVars) (i : Nat) : Except Fault CompVars := do
  let fresh ← startsComponent s.mask i
  if fresh then do
    let r ← SparseMatrix_level_sets A i s.levelset_ptr s.levelset s.off s.mask false
    let nn ← r.levelset_ptr.get r.nlevel
    let k ← s.comps_ptr.get s.ncomp
    let comps_ptr ← s.comps_ptr.set (s.ncomp + 1) (k + nn)
    .ok ⟨s.ncomp + 1, comps_ptr, r.levelset_ptr, r.levelset, r.mask, s.off + nn⟩
  else .ok s

/-- What `SparseMatrix_weakly_connected_components` gives: the array of the components, which is not
there if there is no vertex, and where they start. -/
structure WeakComponents where
  ncomp : Nat
  comps : Option (Buf Nat)
  comps_ptr : Buf Nat

section
variable [Semiring α]

/-- `SparseMatrix_weakly_connected_components`. -/
def SparseMatrix_weakly_connected_components (differ : α → α → Bool) (A0 : FlaggedMatrix α) :
    Except Fault WeakComponents := do
  let m := A0.matrix.m
  let A ← undirected differ A0 true
  let comps_ptr ← (.calloc (m + 1) : Buf Nat).set 0 0
  let s ← (List.range' 0 m).foldlM (findComponent A) ⟨0, comps_ptr, none, none, none, 0⟩
  .ok ⟨s.ncomp, s.levelset, s.comps_ptr⟩

/-! ## The distances -/

/-- `for (i = 0; i < nlevel; i++)`, with the loop over the vertices of the level. -/
def fillDistances (n k : Nat) (r : Levels) (d : Buf Int) : Except Fault (Buf Int) :=
  (List.range' 0 r.nlevel).foldlM (fun d i => do
    let lo ← r.levelset_ptr.get i
    let hi ← r.levelset_ptr.get (i + 1)
    (List.range' lo (hi - lo)).foldlM (fun (d : Buf Int) j => do
      let v ← r.levelset.get j
      d.set (k * n + v) i) d) d

/-- The variables of the last loop of `SparseMatrix_distance_matrix`. -/
structure DistanceVars where
  levelset_ptr : Option (Buf Nat)
  levelset : Option (Buf Nat)
  mask : Option (Buf Int)
  d : Buf Int

/-- The body of the last loop. -/
def searchFrom (D : SparseMatrix α) (n : Nat) (s : DistanceVars) (k : Nat) :
    Except Fault DistanceVars := do
  let r ← SparseMatrix_level_sets D k s.levelset_ptr s.levelset 0 s.mask true
  let nn ← r.levelset_ptr.get r.nlevel
  assert (nn = n)
  let d ← fillDistances n k r s.d
  .ok ⟨r.levelset_ptr, r.levelset, r.mask, d⟩

/-- The loops that write the columns and the entries of `dist`. -/
def startDistances (n : Nat) (ja : Buf Nat) (d : Buf Int) : Except Fault (Buf Nat × Buf Int) :=
  (List.range' 0 n).foldlM (fun s i =>
    (List.range' 0 n).foldlM (fun (s : Buf Nat × Buf Int) j => do
      let ja ← s.1.set (i * n + j) j
      let d ← s.2.set (i * n + j) (-1)
      .ok (ja, d)) s) (ja, d)

/-- `SparseMatrix_distance_matrix`. -/
def SparseMatrix_distance_matrix (differ : α → α → Bool) (D0 : FlaggedMatrix α) :
    Except Fault (SparseMatrix Int) := do
  let m := D0.matrix.m
  let n := D0.matrix.n
  let D ← undirected differ D0 false
  assert (m = n)
  let dist : SparseMatrix Int := SparseMatrix_new n n (n * n) .MATRIX_TYPE_INTEGER
  let ia ← (List.range' 0 (n + 1)).foldlM (fun ia i => ia.set i (i * n)) dist.ia
  let (ja, d) ← startDistances n dist.ja dist.a
  let s ← (List.range' 0 n).foldlM (searchFrom D n) ⟨none, none, none, d⟩
  .ok { dist with ia, ja, a := s.d }

end

/-- The components of a graph: every vertex is in the array once, and two vertices are in one
component exactly if they are connected. -/
structure Partitioned (G : SimpleGraph Nat) (n ncomp : Nat) (comps : Nat → Nat)
    (comps_ptr : Nat → Nat) : Prop where
  perm : ((List.range n).map comps).Perm (List.range n)
  first : comps_ptr 0 = 0
  increasing : ∀ g < ncomp, comps_ptr g < comps_ptr (g + 1)
  last : comps_ptr ncomp = n
  same : ∀ p < n, ∀ q < n, (∃ g < ncomp, (comps_ptr g ≤ p ∧ p < comps_ptr (g + 1)) ∧
    comps_ptr g ≤ q ∧ q < comps_ptr (g + 1)) ↔ G.Reachable (comps p) (comps q)

/-- The matrix of the distances of a graph. -/
structure Distances (G : SimpleGraph Nat) (n : Nat) (D : SparseMatrix Int) : Prop where
  rows : D.m = n
  cols : D.n = n
  ia_size : n + 1 ≤ D.ia.size
  ja_size : n * n ≤ D.ja.size
  a_size : n * n ≤ D.a.size
  row : ∀ i < n, D.row i = (List.range n).map fun j => (j, (G.dist i j : Int))

variable {A : SparseMatrix α} {G : SimpleGraph Nat} {m n i k off root : Nat} {reinit : Bool}
  {levelset : Buf Nat} {mask : Buf Int} {r : Levels}

/-! ## The vertices of a search -/

theorem LevelSets.ptr_le (h : LevelSets G m root off levelset mask reinit r) {d d' : Nat}
    (hd : d ≤ d') (hd' : d' ≤ r.nlevel) : r.levelset_ptr.cell d ≤ r.levelset_ptr.cell d' := by
  induction d', hd using le_induction with
  | base => exact le_refl _
  | succ d' _ ih => exact (ih (by omega)).trans (h.mono d' (by omega))

/-- The vertices of the levels are those that are reached. -/
theorem LevelSets.mem_iff (h : LevelSets G m root off levelset mask reinit r) {v : Nat} :
    v ∈ (List.range' off (r.levelset_ptr.cell r.nlevel)).map r.levelset.cell ↔
      G.Reachable root v := by
  constructor
  · intro hv
    obtain ⟨p, hp, rfl⟩ := mem_map.1 hv
    rw [mem_range'_1] at hp
    obtain ⟨d, hd, hlo, hhi⟩ := exists_between (f := r.levelset_ptr.cell)
      (n := r.nlevel) (p := p - off) h.first (by omega)
    have hdist := (h.level d hd (r.levelset.cell p)).1
      ⟨p - off, hlo, hhi, by rw [Nat.add_sub_cancel' hp.1]⟩
    exact reachable_of_edist hdist
  · intro hv
    obtain ⟨d, hd, hv⟩ := h.reached v hv
    obtain ⟨p, hlo, hhi, rfl⟩ := (h.level d hd v).2 hv
    have hle := h.ptr_le (show d + 1 ≤ r.nlevel from hd) (le_refl _)
    exact mem_map_of_mem (mem_range'_1.2 (by omega))

/-! ## The components -/

/-- The vertices that have been put into components. -/
def CompVars.placed (s : CompVars) (n : Nat) : List Nat :=
  (List.range' 0 s.off).map (s.levelset.getD (.calloc n)).cell

/-- After the vertices before `i`: the components that have been found are whole. -/
structure CompVars.Inv (s : CompVars) (G : SimpleGraph Nat) (n i : Nat)
    (mask : Buf Int) : Prop where
  mask_eq : allocMask n s.mask = .ok mask
  begun : i = 0 → s.off = 0
  started : i ≠ 0 → s.mask = some mask ∧ s.levelset.isSome
  mask_size : mask.size = n
  levelset_size : (s.levelset.getD (.calloc n)).size = n
  levelset_ptr_size : ∀ b ∈ s.levelset_ptr, n + 2 ≤ b.size
  comps_ptr_size : s.comps_ptr.size = n + 1
  first : s.comps_ptr.cell 0 = 0
  last : s.comps_ptr.cell s.ncomp = s.off
  ncomp_le : s.ncomp ≤ s.off
  increasing : ∀ g < s.ncomp, s.comps_ptr.cell g < s.comps_ptr.cell (g + 1)
  nodup : (s.placed n).Nodup
  inRange : ∀ v ∈ s.placed n, v < n
  past : ∀ v < i, v ∈ s.placed n
  whole : ∀ v ∈ s.placed n, ∀ w, G.Reachable v w → w ∈ s.placed n
  unmasked : ∀ v < n, mask.cell v < 0 ↔ v ∉ s.placed n
  same : ∀ p < s.off, ∀ q < s.off, (∃ g < s.ncomp,
    (s.comps_ptr.cell g ≤ p ∧ p < s.comps_ptr.cell (g + 1)) ∧
      s.comps_ptr.cell g ≤ q ∧ q < s.comps_ptr.cell (g + 1)) ↔
    G.Reachable ((s.levelset.getD (.calloc n)).cell p) ((s.levelset.getD (.calloc n)).cell q)

variable {s : CompVars}

theorem CompVars.Inv.off_le (h : s.Inv G n i mask) : s.off ≤ n := by
  have hle := length_le_of_lt h.nodup h.inRange
  rwa [CompVars.placed, length_map, length_range'] at hle

theorem CompVars.Inv.ptr_le (h : s.Inv G n i mask) {g : Nat} (hg : g ≤ s.ncomp) :
    s.comps_ptr.cell g ≤ s.off := by
  have hle : ∀ j, g ≤ j → j ≤ s.ncomp → s.comps_ptr.cell g ≤ s.comps_ptr.cell j := by
    intro j hj hjn
    induction j, hj using le_induction with
    | base => exact le_refl _
    | succ j _ ih => exact (ih (by omega)).trans (h.increasing j (by omega)).le
  exact (hle s.ncomp hg (le_refl _)).trans_eq h.last

theorem CompVars.mem_placed {p : Nat} (hp : p < s.off) :
    (s.levelset.getD (.calloc n)).cell p ∈ s.placed n :=
  mem_map_of_mem (mem_range'_1.2 (by omega))

/-- Whether the vertex has been put into a component. -/
theorem CompVars.Inv.fresh (h : s.Inv G n i mask) (hi : i < n) :
    Meets (startsComponent s.mask i) (fun b => b = true ↔ i ∉ s.placed n) fun _ => False := by
  unfold startsComponent
  split
  next h0 =>
    refine meets_ok.2 ⟨fun _ => ?_, fun _ => rfl⟩
    rw [CompVars.placed, h.begun h0]
    exact not_mem_nil
  next h0 =>
    rw [(h.started h0).1]
    dsimp only
    refine Buf.meets_get (by rw [h.mask_size]; exact hi) ?_
    rw [meets_ok, decide_eq_true_iff]
    exact h.unmasked i hi

/-- A vertex that has not been found can be searched from. -/
theorem CompVars.Inv.callable (h : s.Inv (A.graph n) n i mask) (hA : A.Valid n n)
    (hsym : A.SymmetricPattern n) (hi : i < n) (hnew : i ∉ s.placed n) :
    Callable (A.graph n) n i s.off (s.levelset.getD (.calloc n)) mask := by
  have hout : ∀ v, (A.graph n).Reachable i v → v ∉ s.placed n :=
    fun v hv hmem => hnew (h.whole v hmem i hv.symm)
  refine ⟨hi, h.mask_size.ge, fun v hv => ?_, fun L hL hreach => ?_⟩
  · exact (h.unmasked v (SparseMatrix.reachable_lt hA hsym hi hv)).2 (hout v hv)
  · have hboth : (s.placed n ++ L).Nodup :=
      h.nodup.append hL fun v hv hvL => hout v (hreach v hvL) hv
    have hle := length_le_of_lt hboth fun v hv => (mem_append.1 hv).elim (h.inRange v)
      fun hv => SparseMatrix.reachable_lt hA hsym hi (hreach v hv)
    rw [length_append, CompVars.placed, length_map, length_range'] at hle
    exact hle.trans h.levelset_size.ge

/-- The component of a vertex is put behind the others. -/
theorem CompVars.Inv.add (h : s.Inv (A.graph n) n i mask) (hA : A.Valid n n)
    (hsym : A.SymmetricPattern n) (hi : i < n) (hnew : i ∉ s.placed n)
    (hr : LevelSets (A.graph n) n i s.off (s.levelset.getD (.calloc n)) mask false r) :
    CompVars.Inv ⟨s.ncomp + 1, s.comps_ptr.upd (s.ncomp + 1)
      (s.comps_ptr.cell s.ncomp + r.levelset_ptr.cell r.nlevel), r.levelset_ptr, r.levelset, r.mask,
      s.off + r.levelset_ptr.cell r.nlevel⟩ (A.graph n) n (i + 1) r.mask := by
  have hle := h.ncomp_le
  have hoff := h.off_le
  have hfirst := hr.first
  -- the new component, and the array with it
  obtain ⟨C, hC⟩ : ∃ C, C = (List.range' s.off (r.levelset_ptr.cell r.nlevel)).map
    r.levelset.cell := ⟨_, rfl⟩
  have hmem : ∀ v, v ∈ C ↔ (A.graph n).Reachable i v := fun v => by rw [hC, hr.mem_iff]
  have hold : ∀ p < s.off, r.levelset.cell p = (s.levelset.getD (.calloc n)).cell p :=
    fun p hp => hr.outside p (.inl hp)
  have hplaced : (List.range' 0 (s.off + r.levelset_ptr.cell r.nlevel)).map r.levelset.cell =
      s.placed n ++ C := by
    rw [← range'_append_1, map_append, zero_add, ← hC, CompVars.placed]
    congr 1
    refine map_congr_left fun p hp => hold p ?_
    rw [mem_range'_1] at hp
    omega
  have hdisj : ∀ v ∈ s.placed n, v ∉ C :=
    fun v hv hvC => hnew (h.whole v hv i ((hmem v).1 hvC).symm)
  have hnn : 0 < r.levelset_ptr.cell r.nlevel := by
    have hi : i ∈ C := (hmem i).2 .rfl
    have hlen := length_pos_of_mem hi
    rwa [hC, length_map, length_range'] at hlen
  have hlt : ∀ v ∈ s.placed n ++ C, v < n := fun v hv => (mem_append.1 hv).elim (h.inRange v)
    fun hv => SparseMatrix.reachable_lt hA hsym hi ((hmem v).1 hv)
  have hnodup : (s.placed n ++ C).Nodup :=
    h.nodup.append (hC ▸ hr.nodup) fun v hv hvC => hdisj v hv hvC
  have hptr : ∀ g ≤ s.ncomp, (s.comps_ptr.upd (s.ncomp + 1)
      (s.comps_ptr.cell s.ncomp + r.levelset_ptr.cell r.nlevel)).cell g = s.comps_ptr.cell g :=
    fun g hg => Buf.upd_cell_ne (by omega)
  have hlast : (s.comps_ptr.upd (s.ncomp + 1) (s.comps_ptr.cell s.ncomp +
      r.levelset_ptr.cell r.nlevel)).cell (s.ncomp + 1) =
      s.off + r.levelset_ptr.cell r.nlevel := by
    rw [Buf.upd_cell_self, h.last]
  refine ⟨rfl, fun h0 => absurd h0 (succ_ne_zero i), fun _ => ⟨rfl, rfl⟩,
    hr.mask_size.trans h.mask_size, hr.levelset_size.trans h.levelset_size,
    fun b hb => Option.some_inj.1 hb ▸ hr.ptr_size, h.comps_ptr_size,
    (hptr 0 (zero_le _)).trans h.first, hlast, by dsimp only; omega, fun g hg => ?_,
    ?_, ?_, fun v hv => ?_, ?_, fun v hv => ?_, fun p hp q hq => ?_⟩
  · dsimp only
    obtain hg | rfl := Nat.lt_succ_iff_lt_or_eq.1 hg
    · rw [hptr g hg.le, hptr (g + 1) hg]
      exact h.increasing g hg
    · rw [hptr s.ncomp (le_refl _), hlast, h.last]
      omega
  · rw [CompVars.placed]
    exact hplaced ▸ hnodup
  · rw [CompVars.placed]
    exact hplaced ▸ hlt
  · rw [CompVars.placed]
    refine hplaced ▸ ?_
    obtain hv | rfl := Nat.lt_succ_iff_lt_or_eq.1 hv
    · exact mem_append_left C (h.past v hv)
    · exact mem_append_right _ ((hmem v).2 .rfl)
  · rw [CompVars.placed]
    refine hplaced ▸ fun v hv w hvw => ?_
    obtain hv | hv := mem_append.1 hv
    · exact mem_append_left C (h.whole v hv w hvw)
    · exact mem_append_right _ ((hmem w).2 (((hmem v).1 hv).trans hvw))
  · rw [CompVars.placed]
    refine hplaced ▸ ?_
    rw [mem_append, not_or, hmem]
    by_cases hreach : (A.graph n).Reachable i v
    · obtain ⟨d, hd⟩ := exists_edist hreach
      rw [hr.masked v d hd]
      exact ⟨fun hneg => absurd hneg (by simp; omega), fun hboth => absurd hreach hboth.2⟩
    · rw [hr.unmasked v hreach, h.unmasked v hv]
      exact ⟨fun hv => ⟨hv, hreach⟩, And.left⟩
  · dsimp only at hp hq ⊢
    rw [Option.getD_some]
    generalize s.comps_ptr.upd (s.ncomp + 1)
      (s.comps_ptr.cell s.ncomp + r.levelset_ptr.cell r.nlevel) = ptr at hptr hlast ⊢
    -- a place of an old component, and one of the new one
    have hseg_old : ∀ p < s.off, ∀ g < s.ncomp + 1, (ptr.cell g ≤ p ∧ p < ptr.cell (g + 1)) ↔
        g < s.ncomp ∧ s.comps_ptr.cell g ≤ p ∧ p < s.comps_ptr.cell (g + 1) := by
      intro p hp g hg
      obtain hg | rfl := Nat.lt_succ_iff_lt_or_eq.1 hg
      · rw [hptr g hg.le, hptr (g + 1) hg]
        exact ⟨fun h => ⟨hg, h⟩, And.right⟩
      · rw [hptr s.ncomp (le_refl _), h.last]
        exact ⟨fun h => by omega, fun h => by omega⟩
    have hseg_new : ∀ p, s.off ≤ p → p < s.off + r.levelset_ptr.cell r.nlevel →
        ∀ g < s.ncomp + 1, (ptr.cell g ≤ p ∧ p < ptr.cell (g + 1)) ↔ g = s.ncomp := by
      intro p hlo hhi g hg
      obtain hg | rfl := Nat.lt_succ_iff_lt_or_eq.1 hg
      · have := h.ptr_le (show g + 1 ≤ s.ncomp from hg)
        rw [hptr g hg.le, hptr (g + 1) hg]
        omega
      · rw [hptr s.ncomp (le_refl _), hlast, h.last]
        exact ⟨fun _ => rfl, fun _ => ⟨hlo, hhi⟩⟩
    have hcell_old : ∀ p < s.off, r.levelset.cell p ∈ s.placed n := fun p hp =>
      hold p hp ▸ CompVars.mem_placed hp
    have hcell_new : ∀ p, s.off ≤ p → p < s.off + r.levelset_ptr.cell r.nlevel →
        r.levelset.cell p ∈ C := fun p hlo hhi =>
      hC ▸ mem_map_of_mem (mem_range'_1.2 ⟨hlo, hhi⟩)
    rcases lt_or_ge p s.off with hpo | hpo <;> rcases lt_or_ge q s.off with hqo | hqo
    · rw [hold p hpo, hold q hqo, ← h.same p hpo q hqo]
      constructor
      · rintro ⟨g, hg, hgp, hgq⟩
        exact ⟨g, ((hseg_old p hpo g hg).1 hgp).1, ((hseg_old p hpo g hg).1 hgp).2,
          ((hseg_old q hqo g hg).1 hgq).2⟩
      · rintro ⟨g, hg, hgp, hgq⟩
        exact ⟨g, by omega, (hseg_old p hpo g (by omega)).2 ⟨hg, hgp⟩,
          (hseg_old q hqo g (by omega)).2 ⟨hg, hgq⟩⟩
    · constructor
      · rintro ⟨g, hg, hgp, hgq⟩
        have hlt := ((hseg_old p hpo g hg).1 hgp).1
        have heq := (hseg_new q hqo hq g hg).1 hgq
        omega
      · exact fun hreach => absurd (hcell_new q hqo hq)
          (hdisj _ (h.whole _ (hcell_old p hpo) _ hreach))
    · constructor
      · rintro ⟨g, hg, hgp, hgq⟩
        have hlt := ((hseg_old q hqo g hg).1 hgq).1
        have heq := (hseg_new p hpo hp g hg).1 hgp
        omega
      · exact fun hreach => absurd (hcell_new p hpo hp)
          (hdisj _ (h.whole _ (hcell_old q hqo) _ hreach.symm))
    · refine ⟨fun _ => ?_, fun _ => ⟨s.ncomp, lt_succ_self _,
        (hseg_new p hpo hp _ (lt_succ_self _)).2 rfl,
        (hseg_new q hqo hq _ (lt_succ_self _)).2 rfl⟩⟩
      exact ((hmem _).1 (hcell_new p hpo hp)).symm.trans ((hmem _).1 (hcell_new q hqo hq))

/-- A vertex that has been found is passed over. -/
theorem CompVars.Inv.skip (h : s.Inv G n i mask) (hi : i ∈ s.placed n) :
    s.Inv G n (i + 1) mask := by
  have h0 : i ≠ 0 := by
    rintro rfl
    rw [CompVars.placed, h.begun rfl] at hi
    exact absurd hi not_mem_nil
  refine { h with
    begun := fun h0 => absurd h0 (succ_ne_zero i)
    started := fun _ => h.started h0
    past := fun v hv => ?_ }
  obtain hv | rfl := Nat.lt_succ_iff_lt_or_eq.1 hv
  · exact h.past v hv
  · exact hi

/-- The body of the loop over the vertices. -/
theorem CompVars.Inv.step (h : s.Inv (A.graph n) n i mask) (hA : A.Valid n n)
    (hsym : A.SymmetricPattern n) (hi : i < n) :
    Meets (findComponent A s i) (fun s' => ∃ mask', s'.Inv (A.graph n) n (i + 1) mask')
      fun _ => False := by
  have hsize := h.comps_ptr_size
  have hncomp := h.ncomp_le
  rw [findComponent]
  refine (h.fresh hi).bind fun fresh hfresh => ?_
  split
  next hgo =>
    have hnew := hfresh.1 hgo
    -- there is room for the pointer of one more component
    have hoff : s.off < n := by
      have hle := length_le_of_lt (h.nodup.append (nodup_singleton i)
        (disjoint_singleton.2 hnew)) fun v hv => (mem_append.1 hv).elim (h.inRange v)
          fun hv => mem_singleton.1 hv ▸ hi
      rw [length_append, CompVars.placed, length_map, length_range', length_singleton] at hle
      exact hle
    refine (level_sets_spec hA hsym h.levelset_ptr_size h.mask_eq
      (h.callable hA hsym hi hnew) false).bind fun r hr => ?_
    have hptr := hr.ptr_size
    have hnlevel := hr.nlevel_le
    refine Buf.meets_get (by omega) (Buf.meets_get (by omega) (Buf.meets_set (by omega) ?_))
    exact ⟨r.mask, h.add hA hsym hi hnew hr⟩
  next hno =>
    exact ⟨mask, h.skip (by_contra fun hmem => hno (hfresh.2 hmem))⟩

section
variable [Semiring α] {differ : α → α → Bool} {A : FlaggedMatrix α}

omit [Semiring α] in
/-- The components of all vertices. -/
theorem CompVars.Inv.partitioned (h : s.Inv G n n mask) :
    s.off = n ∧ Partitioned G n s.ncomp (s.levelset.getD (.calloc n)).cell s.comps_ptr.cell := by
  have hperm : (s.placed n).Perm (List.range n) :=
    (perm_ext_iff_of_nodup h.nodup nodup_range).2 fun v =>
      ⟨fun hv => mem_range.2 (h.inRange v hv), fun hv => h.past v (mem_range.1 hv)⟩
  have hoff : s.off = n := by
    have hlen := hperm.length_eq
    rwa [CompVars.placed, length_map, length_range', length_range] at hlen
  refine ⟨hoff, ?_, h.first, h.increasing, h.last.trans hoff, fun p hp q hq => ?_⟩
  · rw [CompVars.placed, hoff, ← range_eq_range'] at hperm
    exact hperm
  · exact h.same p (by omega) q (by omega)

/-- `SparseMatrix_weakly_connected_components` gives the components of a matrix with a symmetric
pattern. -/
theorem weakly_connected_components_spec (hA : A.matrix.Valid n n)
    (hsym : A.matrix.SymmetricPattern n) :
    Meets (SparseMatrix_weakly_connected_components differ A) (fun r => ∃ comps : Buf Nat,
      (n ≠ 0 → r.comps = some comps ∧ comps.size = n) ∧ r.ncomp < r.comps_ptr.size ∧
      Partitioned (A.matrix.graph n) n r.ncomp comps.cell r.comps_ptr.cell) fun _ => False := by
  rw [SparseMatrix_weakly_connected_components, hA.rows]
  refine (undirected_pattern hA hsym true).bind fun B hB => ?_
  have hsymB := hB.symmetric hA hsym
  obtain ⟨mask, hmask, hsize, hfree⟩ := (allocMask_none n).exists_ok
  refine Buf.meets_set (succ_pos n) ?_
  refine (Meets.range' _ 0 n (fun i s => ∃ mask, CompVars.Inv s (B.graph n) n i mask)
    (fun i hi s ⟨mask, hs⟩ => ?_) _ ⟨mask, ?_⟩).bind fun s ⟨mask, hs⟩ => ?_
  · rw [zero_add]
    exact hs.step hB.valid hsymB hi
  · refine ⟨hmask, fun _ => rfl, fun h => absurd rfl h, hsize, rfl, nofun, rfl, Buf.upd_cell_self,
      Buf.upd_cell_self, le_refl 0, nofun, nodup_nil, nofun, nofun, nofun, fun v hv => ?_,
      nofun⟩
    rw [hfree v hv]
    exact ⟨fun _ => not_mem_nil, fun _ => by decide⟩
  · obtain ⟨hoff, hpart⟩ := hs.partitioned
    have hncomp := hs.ncomp_le
    have hptr := hs.comps_ptr_size
    refine ⟨s.levelset.getD (.calloc n), fun hn => ?_, by dsimp only; omega, ?_⟩
    · obtain ⟨b, hb⟩ := Option.isSome_iff_exists.1 (hs.started hn).2
      refine ⟨?_, hs.levelset_size⟩
      dsimp only
      rw [hb, Option.getD_some]
    · rw [← graph_congr hB.cols]
      exact hpart

omit [Semiring α] in
theorem row_place_lt {k i j : Nat} (hi : i < k) (hj : j < n) : i * n + j < k * n := by
  have hle : (i + 1) * n ≤ k * n := mul_le_mul_right n hi
  rw [succ_mul] at hle
  omega

end

/-! ## The distances -/

/-- The distances from `k` of the vertices at distance less than `l` are in row `k`. -/
structure RowFilled (G : SimpleGraph Nat) (n k l : Nat) (d d' : Buf Int) : Prop where
  size : d'.size = d.size
  row : ∀ v, ∀ e : Nat, e < l → G.edist k v = e → d'.cell (k * n + v) = e
  before : ∀ p < k * n, d'.cell p = d.cell p

/-- The levels of a search are written to the row of the root. -/
theorem fillDistances_spec {d : Buf Int} (hr : LevelSets G n k 0 levelset mask true r)
    (hlt : ∀ v, G.Reachable k v → v < n) (hk : k < n) (hsize : d.size = n * n)
    (hroom : r.levelset_ptr.cell r.nlevel ≤ r.levelset.size) :
    Meets (fillDistances n k r d) (RowFilled G n k r.nlevel d) fun _ => False := by
  have hptr := hr.ptr_size
  have hnlevel := hr.nlevel_le
  rw [fillDistances]
  refine Meets.range' _ 0 r.nlevel (fun l d' => RowFilled G n k l d d') (fun l hl d' hd' => ?_) d
    ⟨rfl, fun v e he => absurd he (not_lt_zero e), fun _ _ => rfl⟩
  rw [zero_add]
  refine Buf.meets_get (by omega) (Buf.meets_get (by omega) ?_)
  have hmono := hr.mono l hl
  refine (Meets.range' _ _ _ (fun t d'' => RowFilled G n k l d d'' ∧
    ∀ p, r.levelset_ptr.cell l ≤ p → p < r.levelset_ptr.cell l + t →
      d''.cell (k * n + r.levelset.cell p) = l) (fun t ht d'' ⟨hd'', hlev⟩ => ?_) d'
    ⟨hd', fun p hlo hhi => absurd hlo (by omega)⟩).imp fun d'' ⟨hd'', hlev⟩ =>
      ⟨hd''.size, fun v e he hv => ?_, hd''.before⟩
  · have hdist := (hr.level l hl _).1
      ⟨r.levelset_ptr.cell l + t, le_add_right _ _, by omega, rfl⟩
    rw [zero_add] at hdist
    have hv := hlt _ (reachable_of_edist hdist)
    have hin := row_place_lt hk hv
    have hle : r.levelset_ptr.cell (l + 1) ≤ r.levelset_ptr.cell r.nlevel := hr.ptr_le hl (le_refl _)
    refine Buf.meets_get (by omega) ?_
    rw [Buf.set_eq (by rw [hd''.size, hsize]; exact hin)]
    refine ⟨⟨hd''.size, fun w e he hw => ?_, fun p hp => ?_⟩, fun p hlo hhi => ?_⟩
    · rw [Buf.upd_cell_ne, hd''.row w e he hw]
      intro heq
      rw [Nat.add_left_cancel heq, hdist, Nat.cast_inj] at hw
      omega
    · rw [Buf.upd_cell_ne (by omega)]
      exact hd''.before p hp
    · rw [Buf.upd_cell]
      split
      · rfl
      next hne =>
        obtain hhi | rfl := Nat.lt_succ_iff_lt_or_eq.1 hhi
        · exact hlev p hlo hhi
        · exact absurd rfl hne
  · obtain he | rfl := Nat.lt_succ_iff_lt_or_eq.1 he
    · exact hd''.row v e he hv
    · obtain ⟨p, hlo, hhi, rfl⟩ := (hr.level e hl v).2 hv
      rw [zero_add]
      exact hlev p hlo (by omega)

/-- The arrays of the distances before the searches. -/
theorem startDistances_spec {ja : Buf Nat} {d : Buf Int} (hja : ja.size = n * n)
    (hd : d.size = n * n) :
    Meets (startDistances n ja d) (fun s => s.1.size = n * n ∧ s.2.size = n * n ∧
      ∀ i < n, ∀ j < n, s.1.cell (i * n + j) = j) fun _ => False := by
  rw [startDistances]
  refine Meets.range' _ 0 n (fun i (s : Buf Nat × Buf Int) => s.1.size = n * n ∧ s.2.size = n * n ∧
    ∀ i' < i, ∀ j < n, s.1.cell (i' * n + j) = j) (fun i hi s ⟨hj, hs, hall⟩ => ?_) _
    ⟨hja, hd, nofun⟩
  rw [zero_add]
  refine (Meets.range' _ 0 n (fun j (s' : Buf Nat × Buf Int) => (s'.1.size = n * n ∧ s'.2.size = n * n ∧
    ∀ i' < i, ∀ j < n, s'.1.cell (i' * n + j) = j) ∧ ∀ j' < j, s'.1.cell (i * n + j') = j')
    (fun j hj s' ⟨⟨hj', hs', hall'⟩, hrow⟩ => ?_) s ⟨⟨hj, hs, hall⟩, nofun⟩).imp
    fun s' ⟨⟨hj', hs', hall'⟩, hrow⟩ => ⟨hj', hs', fun i' hi' j hj => ?_⟩
  · rw [zero_add]
    have hin := row_place_lt hi hj
    refine Buf.meets_set (by omega) (Buf.meets_set (by omega) ?_)
    refine ⟨⟨hj', hs', fun i' hi' j' hj'' => ?_⟩, fun j' hj'' => ?_⟩
    · have := row_place_lt hi' hj''
      exact (Buf.upd_cell_ne (by omega)).trans (hall' i' hi' j' hj'')
    · dsimp only
      rw [Buf.upd_cell]
      split
      · omega
      · exact hrow j' (by omega)
  · obtain hi' | rfl := Nat.lt_succ_iff_lt_or_eq.1 hi'
    · exact hall' i' hi' j hj
    · exact hrow j hj

/-- After the searches from the vertices before `k`. -/
structure DistanceVars.Inv (s : DistanceVars) (G : SimpleGraph Nat) (n k : Nat) (mask : Buf Int) :
    Prop where
  mask_eq : allocMask n s.mask = .ok mask
  mask_size : mask.size = n
  free : ∀ v < n, mask.cell v = UNMASKED
  levelset_size : (s.levelset.getD (.calloc n)).size = n
  levelset_ptr_size : ∀ b ∈ s.levelset_ptr, n + 2 ≤ b.size
  size : s.d.size = n * n
  rows : ∀ i < k, ∀ j < n, s.d.cell (i * n + j) = G.dist i j

/-- A search in a connected graph. -/
theorem DistanceVars.Inv.step {s : DistanceVars} (h : s.Inv (A.graph n) n k mask)
    (hA : A.Valid n n) (hsym : A.SymmetricPattern n)
    (hconn : ∀ i < n, ∀ j < n, (A.graph n).Reachable i j) (hk : k < n) :
    Meets (searchFrom A n s k) (fun s' => ∃ mask', s'.Inv (A.graph n) n (k + 1) mask')
      fun _ => False := by
  have hlt : ∀ v, (A.graph n).Reachable k v → v < n :=
    fun v hv => SparseMatrix.reachable_lt hA hsym hk hv
  have hcall : Callable (A.graph n) n k 0 (s.levelset.getD (.calloc n)) mask := by
    refine ⟨hk, h.mask_size.ge, fun v hv => ?_, fun L hL hreach => ?_⟩
    · rw [h.free v (hlt v hv)]
      decide
    · rw [zero_add, h.levelset_size]
      exact length_le_of_lt hL fun v hv => hlt v (hreach v hv)
  rw [searchFrom]
  refine (level_sets_spec hA hsym h.levelset_ptr_size h.mask_eq hcall true).bind fun r hr => ?_
  have hptr := hr.ptr_size
  have hnlevel := hr.nlevel_le
  have hcount : r.levelset_ptr.cell r.nlevel = n := by
    have hperm : ((List.range' 0 (r.levelset_ptr.cell r.nlevel)).map r.levelset.cell).Perm
        (List.range n) :=
      (perm_ext_iff_of_nodup hr.nodup nodup_range).2 fun v => by
        rw [hr.mem_iff, mem_range]
        exact ⟨hlt v, hconn k hk v⟩
    have hlen := hperm.length_eq
    rwa [length_map, length_range', length_range] at hlen
  refine Buf.meets_get (by omega) (Meets.assert hcount ?_)
  refine (fillDistances_spec hr hlt hk h.size ?_).bind fun d hd => ?_
  · rw [hcount, hr.levelset_size, h.levelset_size]
  · refine ⟨r.mask, rfl, hr.mask_size.trans h.mask_size, fun v hv => ?_,
      hr.levelset_size.trans h.levelset_size, fun b hb => Option.some_inj.1 hb ▸ hr.ptr_size,
      hd.size.trans h.size, fun i hi j hj => ?_⟩
    · obtain ⟨e, he⟩ := exists_edist (hconn k hk v hv)
      exact (hr.masked v e he).trans (if_pos rfl)
    · obtain hi | rfl := Nat.lt_succ_iff_lt_or_eq.1 hi
      · rw [hd.before _ (row_place_lt hi hj)]
        exact h.rows i hi j hj
      · obtain ⟨e, he, hej⟩ := hr.reached j (hconn i hk j hj)
        rw [hd.row j e he hej, SimpleGraph.dist, hej, ENat.toNat_natCast]

section
variable [Semiring α] {differ : α → α → Bool} {A : FlaggedMatrix α}

/-- `SparseMatrix_distance_matrix` gives the distances of a connected graph. -/
theorem distance_matrix_spec (hA : A.matrix.Valid n n) (hsym : A.matrix.SymmetricPattern n)
    (hconn : ∀ i < n, ∀ j < n, (A.matrix.graph n).Reachable i j) :
    Meets (SparseMatrix_distance_matrix differ A) (Distances (A.matrix.graph n) n)
      fun _ => False := by
  rw [SparseMatrix_distance_matrix, hA.rows, hA.cols]
  refine (undirected_pattern hA hsym false).bind fun B hB => ?_
  have hsymB := hB.symmetric hA hsym
  have hgraph : B.graph n = A.matrix.graph n := graph_congr hB.cols
  obtain ⟨mask, hmask, hsize, hfree⟩ := (allocMask_none n).exists_ok
  refine Meets.assert rfl ?_
  refine (Meets.range' _ 0 (n + 1) (fun k (ia : Buf Nat) => ia.size = n + 1 ∧
    ∀ i < k, ia.cell i = i * n) (fun k hk ia ⟨hs, hall⟩ => ?_) _ ⟨rfl, nofun⟩).bind
    fun ia ⟨hia, hia'⟩ => ?_
  · rw [zero_add, Buf.set_eq (by omega)]
    refine ⟨hs, fun i hi => ?_⟩
    rw [Buf.upd_cell]
    split
    next heq => rw [heq]
    next => exact hall i (by omega)
  refine (startDistances_spec rfl rfl).bind fun s ⟨hja, hd, hcols⟩ => ?_
  have hstart : DistanceVars.Inv ⟨none, none, none, s.2⟩ (B.graph n) n 0 mask :=
    ⟨hmask, hsize, hfree, rfl, nofun, hd, nofun⟩
  refine (Meets.range' _ 0 n (fun k (s : DistanceVars) => ∃ mask, s.Inv (B.graph n) n k mask)
    (fun k hk s ⟨mask, hs⟩ => ?_) _ ⟨mask, hstart⟩).bind fun s' ⟨mask, hs'⟩ => ?_
  · rw [zero_add]
    exact hs.step hB.valid hsymB (hgraph ▸ hconn) hk
  · refine ⟨rfl, rfl, hia.ge, hja.ge, hs'.size.ge, fun i hi => ?_⟩
    have hcells : (List.range' (ia.cell i) (ia.cell (i + 1) - ia.cell i)) =
        (List.range n).map fun j => i * n + j := by
      rw [hia' i (by omega), hia' (i + 1) (by omega), Nat.succ_mul, Nat.add_sub_cancel_left,
        range'_eq_map_range]
    rw [SparseMatrix.row, SparseMatrix.cells]
    dsimp only
    rw [hcells, map_map]
    refine map_congr_left fun j hj => ?_
    rw [mem_range] at hj
    rw [Function.comp_apply, hcols i hi j hj, hs'.rows i hi j hj, hgraph]

/-- **Searching a matrix with a symmetric pattern.** From every root, and with the arrays of earlier
calls or without, the level sets are the vertices at each distance from the root. The components
have every vertex once, and two vertices together exactly if they are connected. The distance matrix
of a connected graph has the distances. -/
theorem searches_symmetric (differ : α → α → Bool) (A : FlaggedMatrix α) (n : Nat)
    (hA : A.matrix.Valid n n) (hsym : A.matrix.SymmetricPattern n) :
    (∀ root levelset_ptr levelset off mask mask' reinitialize_mask,
      (∀ b ∈ levelset_ptr, n + 2 ≤ b.size) → allocMask n mask = .ok mask' →
      Callable (A.matrix.graph n) n root off (levelset.getD (.calloc n)) mask' →
      ∃ r, SparseMatrix_level_sets A.matrix root levelset_ptr levelset off mask
          reinitialize_mask = .ok r ∧
        LevelSets (A.matrix.graph n) n root off (levelset.getD (.calloc n)) mask'
          reinitialize_mask r) ∧
    (∃ r comps, SparseMatrix_weakly_connected_components differ A = .ok r ∧
      (n ≠ 0 → r.comps = some comps ∧ comps.size = n) ∧ r.ncomp < r.comps_ptr.size ∧
      Partitioned (A.matrix.graph n) n r.ncomp comps.cell r.comps_ptr.cell) ∧
    ((∀ i < n, ∀ j < n, (A.matrix.graph n).Reachable i j) →
      ∃ D, SparseMatrix_distance_matrix differ A = .ok D ∧
        Distances (A.matrix.graph n) n D) := by
  refine ⟨?_, ?_, fun hconn => (distance_matrix_spec hA hsym hconn).exists_ok⟩
  · intro root levelset_ptr levelset off mask mask' reinitialize_mask hptr hmask hcall
    exact (level_sets_spec hA hsym hptr hmask hcall reinitialize_mask).exists_ok
  · obtain ⟨r, hrun, comps, hr⟩ := (weakly_connected_components_spec hA hsym).exists_ok
    exact ⟨r, comps, hrun, hr⟩

end

/-- Two vertices and the edge between them. -/
def edgeMatrix : FlaggedMatrix Int :=
  ⟨⟨2, 2, 2, .MATRIX_TYPE_REAL, ⟨3, id⟩, ⟨2, fun k => 1 - k⟩, ⟨2, fun _ => 1⟩⟩, false, false⟩

theorem edgeMatrix_valid : edgeMatrix.matrix.Valid 2 2 := by
  refine ⟨rfl, rfl, le_refl _, rfl, fun i _ => le_succ i, rfl, le_refl _, le_refl _,
    fun k _ => ?_⟩
  have hle : 1 - k ≤ 1 := sub_le 1 k
  exact lt_succ_of_le hle

theorem edgeMatrix_symmetric : edgeMatrix.matrix.SymmetricPattern 2 := by
  have hpattern : ∀ i < 2, ∀ j ∈ edgeMatrix.matrix.cols i, i ∈ edgeMatrix.matrix.cols j := by decide
  exact hpattern

theorem searches_symmetric_edge :
    ∃ D, SparseMatrix_distance_matrix (fun x y => decide (x ≠ y)) edgeMatrix = .ok D ∧
      Distances (edgeMatrix.matrix.graph 2) 2 D := by
  refine (searches_symmetric _ edgeMatrix 2 edgeMatrix_valid edgeMatrix_symmetric).2.2 ?_
  have hadj : (edgeMatrix.matrix.graph 2).Adj 0 1 :=
    (SparseMatrix.graph_adj edgeMatrix_valid edgeMatrix_symmetric).2 (by decide)
  intro i hi j hj
  interval_cases i <;> interval_cases j
  · exact .rfl
  · exact hadj.reachable
  · exact hadj.symm.reachable
  · exact .rfl

end Graphviz.Sparse
