import Graphviz.Sparse.Entries

/-!
# Supervariables

`SparseMatrix_decompose_to_supervariables` goes through the rows and splits the groups of columns as
it finds columns of a group in a row and others not. A group that is in the row as a whole keeps its
number. After some rows two columns are in one group exactly if they are in the same ones of these
rows.
-/

namespace Graphviz.Sparse

open List Nat Outcome

variable {α : Type}

/-- The variables of `SparseMatrix_decompose_to_supervariables`. The array `nsuper` is as it is
allocated; while the rows are gone through, the source's pointer is to its second cell. -/
structure Supers where
  super : Buf Nat
  nsuper : Buf Int
  mask : Buf Int
  newmap : Buf Nat
  isup : Nat

/-- The arrays before the rows are gone through: every column is in group 0. -/
def startSupers (n : Nat) : Except Fault Supers := do
  let super ← (List.range' 0 n).foldlM (fun super i => super.set i 0) (.calloc n : Buf Nat)
  let nsuper ← (.calloc (n + 1) : Buf Int).set (0 + 1) n
  let mask ← (List.range' 0 n).foldlM (fun mask i => mask.set i (-1)) (.calloc n : Buf Int)
  .ok ⟨super, nsuper, mask, .calloc n, 1⟩

/-- The body of the first loop over a row: the column will move to another group. -/
def leaveGroup (super : Buf Nat) (nsuper : Buf Int) (c : Nat) : Except Fault (Buf Int) := do
  let isuper ← super.get c
  let k ← nsuper.get (isuper + 1)
  nsuper.set (isuper + 1) (k - 1)

/-- The body of the second loop over a row: the column moves to its group. -/
def joinGroup (i : Nat) (s : Supers) (c : Nat) : Except Fault Supers := do
  let isuper ← s.super.get c
  let k ← s.mask.get isuper
  if k < i then do
    let mask ← s.mask.set isuper i
    let k ← s.nsuper.get (isuper + 1)
    if k = 0 then do
      let nsuper ← s.nsuper.set (isuper + 1) 1
      let newmap ← s.newmap.set isuper isuper
      .ok { s with mask, nsuper, newmap }
    else do
      let newmap ← s.newmap.set isuper s.isup
      let nsuper ← s.nsuper.set (s.isup + 1) 1
      let super ← s.super.set c s.isup
      .ok ⟨super, nsuper, mask, newmap, s.isup + 1⟩
  else do
    let g ← s.newmap.get isuper
    let super ← s.super.set c g
    let k ← s.nsuper.get (g + 1)
    let nsuper ← s.nsuper.set (g + 1) (k + 1)
    .ok { s with super, nsuper }

/-- The round of the loop over the rows. -/
def splitRow (A : SparseMatrix α) (s : Supers) (i : Nat) : Except Fault Supers := do
  let nsuper ← forRow A i (fun nsuper c _ => leaveGroup s.super nsuper c) s.nsuper
  forRow A i (fun s c _ => joinGroup i s c) { s with nsuper }

/-- `for (int i = 0; i < isup; i++) nsuper[i+1] += nsuper[i]`. -/
def sumGroups (isup : Nat) (nsuper : Buf Int) : Except Fault (Buf Int) :=
  (List.range' 0 isup).foldlM (fun nsuper i => do
    let x ← nsuper.get (i + 1)
    let y ← nsuper.get i
    nsuper.set (i + 1) (x + y)) nsuper

/-- `(*cluster)[nsuper[isuper]++] = i`. -/
def placeColumn (super : Buf Nat) (s : Buf Nat × Buf Int) (i : Nat) :
    Except Fault (Buf Nat × Buf Int) := do
  let isuper ← super.get i
  let p ← s.2.get isuper
  if p < 0 then .error .segfault
  else do
    let cluster ← s.1.set p.toNat i
    let nsuper ← s.2.set isuper (p + 1)
    .ok (cluster, nsuper)

/-- `for (int i = isup; i > 0; i--) nsuper[i] = nsuper[i-1]`. -/
def shiftGroups (isup : Nat) (nsuper : Buf Int) : Except Fault (Buf Int) :=
  (List.range' 0 isup).foldlM (fun nsuper k => do
    let x ← nsuper.get (isup - k - 1)
    nsuper.set (isup - k) x) nsuper

/-- `SparseMatrix_decompose_to_supervariables`: `ncluster`, `cluster` and `clusterp`. -/
def SparseMatrix_decompose_to_supervariables (A : SparseMatrix α) :
    Except Fault (Nat × Buf Nat × Buf Int) := do
  let s ← startSupers A.n
  let s ← (List.range' 0 A.m).foldlM (splitRow A) s
  let nsuper ← s.nsuper.set 0 0
  let nsuper ← sumGroups s.isup nsuper
  let (cluster, nsuper) ← (List.range' 0 A.n).foldlM (placeColumn s.super) (s.newmap, nsuper)
  let nsuper ← shiftGroups s.isup nsuper
  let nsuper ← nsuper.set 0 0
  .ok (s.isup, cluster, nsuper)

/-- The columns of a row. -/
def SparseMatrix.cols (A : SparseMatrix α) (i : Nat) : List Nat :=
  (A.cells i).map A.ja.cell

/-- The groups that the result lists: every column once, and two columns in one group exactly if
they have entries in the same rows. -/
structure Decomposed (A : SparseMatrix α) (m n : Nat) (nc : Nat) (cluster : Buf Nat)
    (clusterp : Buf Int) : Prop where
  size : cluster.size = n ∧ nc < clusterp.size
  perm : ((List.range n).map cluster.cell).Perm (List.range n)
  first : clusterp.cell 0 = 0
  increasing : ∀ g < nc, clusterp.cell g < clusterp.cell (g + 1)
  last : clusterp.cell nc = n
  same : ∀ p < n, ∀ q < n, (∃ g < nc, (clusterp.cell g ≤ p ∧ (p : Int) < clusterp.cell (g + 1)) ∧
      clusterp.cell g ≤ q ∧ (q : Int) < clusterp.cell (g + 1)) ↔
    ∀ i < m, cluster.cell p ∈ A.cols i ↔ cluster.cell q ∈ A.cols i

variable {A : SparseMatrix α} {m n i c g h k isup : Nat} {f old : Nat → Nat} {T R : List Nat}
  {s : Supers}

/-! ## Counting the columns of a group -/

/-- How many columns that are not in the list have the label. -/
def tally (n : Nat) (f : Nat → Nat) (T : List Nat) (g : Nat) : Nat :=
  ((Finset.range n).filter fun c => c ∉ T ∧ f c = g).card

theorem tally_congr {f' : Nat → Nat} {T' : List Nat}
    (hT : ∀ c < n, (c ∉ T ∧ f c = g) ↔ (c ∉ T' ∧ f' c = g)) : tally n f T g = tally n f' T' g :=
  congrArg Finset.card (Finset.filter_congr fun c hc => hT c (Finset.mem_range.1 hc))

/-- A column that comes off the list counts under its new label. -/
theorem tally_update (hc : c < n) (hcT : c ∉ T) (g h : Nat) :
    tally n (Function.update f c g) T h = tally n f (c :: T) h + if h = g then 1 else 0 := by
  have hrest : ∀ d, d ≠ c → ((d ∉ T ∧ Function.update f c g d = h) ↔ (d ∉ c :: T ∧ f d = h)) := by
    intro d hd
    rw [Function.update_of_ne hd, mem_cons]
    simp [hd]
  split
  next hgh =>
    subst hgh
    have hmem : c ∉ (Finset.range n).filter fun d => d ∉ c :: T ∧ f d = h := by simp
    rw [tally, tally, ← Finset.card_insert_of_notMem hmem]
    congr 1
    ext d
    rw [Finset.mem_insert, Finset.mem_filter, Finset.mem_filter, Finset.mem_range]
    obtain rfl | hd := eq_or_ne d c
    · simp [hc, hcT]
    · rw [hrest d hd]
      simp [hd]
  next hgh =>
    rw [add_zero]
    refine congrArg Finset.card (Finset.filter_congr fun d _ => ?_)
    obtain rfl | hd := eq_or_ne d c
    · simp [Ne.symm hgh]
    · exact hrest d hd

/-- The label of a column off the list. -/
theorem tally_cons (hc : c < n) (hcT : c ∉ T) (h : Nat) :
    tally n f T h = tally n f (c :: T) h + if h = f c then 1 else 0 := by
  rw [← tally_update hc hcT, Function.update_eq_self]

theorem tally_pos : 0 < tally n f T g ↔ ∃ c < n, c ∉ T ∧ f c = g := by
  rw [tally, Finset.card_pos]
  constructor
  · rintro ⟨c, hc⟩
    rw [Finset.mem_filter, Finset.mem_range] at hc
    exact ⟨c, hc.1, hc.2⟩
  · rintro ⟨c, hc, hg⟩
    exact ⟨c, Finset.mem_filter.2 ⟨Finset.mem_range.2 hc, hg⟩⟩

/-- There are no more labels than columns. -/
theorem le_of_onto (h : ∀ g < k, ∃ c < n, f c = g) : k ≤ n := by
  have hsub : Finset.range k ⊆ (Finset.range n).image f := by
    intro g hg
    obtain ⟨c, hc, rfl⟩ := h g (Finset.mem_range.1 hg)
    exact Finset.mem_image_of_mem f (Finset.mem_range.2 hc)
  calc k = (Finset.range k).card := (Finset.card_range k).symm
    _ ≤ ((Finset.range n).image f).card := Finset.card_le_card hsub
    _ ≤ (Finset.range n).card := Finset.card_image_le
    _ = n := Finset.card_range n

/-! ## The groups -/

/-- The arrays of `n` columns in groups from 0 on, none of them empty; the columns of the list are
not counted. -/
structure Supers.Groups (s : Supers) (n : Nat) (T : List Nat) : Prop where
  super_size : s.super.size = n
  nsuper_size : s.nsuper.size = n + 1
  mask_size : s.mask.size = n
  newmap_size : s.newmap.size = n
  lt : ∀ c < n, s.super.cell c < s.isup
  onto : ∀ g < s.isup, ∃ c < n, s.super.cell c = g
  count : ∀ g < s.isup, s.nsuper.cell (g + 1) = tally n s.super.cell T g

theorem Supers.Groups.isup_le (hs : s.Groups n T) : s.isup ≤ n :=
  le_of_onto hs.onto

/-- The first loop over a row takes its columns out of the counts. -/
theorem leaveGroups_spec (hs : s.Groups n []) (hR : ∀ c ∈ R, c < n) (hnodup : R.Nodup) :
    Meets (R.foldlM (leaveGroup s.super) s.nsuper)
      (fun nsuper => Supers.Groups { s with nsuper } n R) fun _ => False := by
  have hle := hs.isup_le
  refine (Meets.foldlM (fun rest nsuper => ∃ done, R = done ++ rest ∧
    Supers.Groups { s with nsuper } n done) (fun c rest nsuper ⟨done, hdone, hg⟩ => ?_) _
    ⟨[], rfl, hs⟩).imp fun nsuper ⟨done, hdone, hg⟩ => ?_
  · have hc : c < n := hR c (by rw [hdone]; simp)
    have hnot : c ∉ done := by
      rw [hdone] at hnodup
      exact fun h => (nodup_append.1 hnodup).2.2 c h c mem_cons_self rfl
    have hlt := hs.lt c hc
    have hsize : nsuper.size = n + 1 := hg.nsuper_size
    rw [leaveGroup]
    refine Buf.meets_get (by rw [hs.super_size]; exact hc) (Buf.meets_get (by omega) ?_)
    rw [Buf.set_eq (by omega)]
    refine ⟨done ++ [c], by rw [hdone]; simp, { hg with nsuper_size := hsize, count := ?_ }⟩
    intro g hgi
    have hcount : tally n s.super.cell (done ++ [c]) g = tally n s.super.cell (c :: done) g :=
      tally_congr fun d _ => by simp [or_comm]
    have hstep := tally_cons (f := s.super.cell) hc hnot g
    have hold : nsuper.cell (g + 1) = tally n s.super.cell done g := hg.count g hgi
    simp only [hcount, Buf.upd_cell, add_right_cancel_iff]
    split
    next heq =>
      rw [if_pos heq] at hstep
      rw [← heq, hold, hstep]
      omega
    next hne =>
      rw [if_neg hne] at hstep
      rw [hold, hstep, add_zero]
  · rw [append_nil] at hdone
    rwa [hdone]

/-! ## A row -/

/-- In row `i`, with the columns `R` of which those of `T` are left, the groups `old` are being
split: a group whose number is in the mask has a new number for its columns in the row, its own if
all of its columns are. -/
structure Splitting (n i : Nat) (R : List Nat) (old : Nat → Nat) (k : Nat) (T : List Nat)
    (s : Supers) : Prop where
  groups : s.Groups n T
  le : k ≤ s.isup
  stay : ∀ c < n, (c ∈ T ∨ c ∉ R) → s.super.cell c = old c
  moved : ∀ c < n, c ∈ R → c ∉ T →
    s.mask.cell (old c) = i ∧ s.super.cell c = s.newmap.cell (old c)
  mask_le : ∀ g < n, s.mask.cell g ≤ i
  touched : ∀ g < n, s.mask.cell g = i → g < k ∧
    ((s.newmap.cell g = g ∧ ∀ c < n, old c = g → c ∈ R) ∨
      (k ≤ s.newmap.cell g ∧ s.newmap.cell g < s.isup ∧ ∃ c < n, c ∉ R ∧ old c = g))
  inj : ∀ g < n, ∀ h < n, s.mask.cell g = i → s.mask.cell h = i →
    s.newmap.cell g = s.newmap.cell h → g = h

/-- The new number of a group is that of a group. -/
theorem Splitting.newmap_lt (hs : Splitting n i R old k T s) (hg : g < n)
    (hm : s.mask.cell g = i) : s.newmap.cell g < s.isup := by
  obtain ⟨hlt, h | h⟩ := hs.touched g hg hm
  · have := hs.le
    omega
  · exact h.2.1

/-- The first column of a group gives the group a number that no group has. -/
theorem Splitting.mark (hs : Splitting n i R old k (c :: T) s) (hcR : c ∈ R) (hc : c < n)
    (hcT : c ∉ T) (hmask : s.mask.cell (old c) < i) {super : Buf Nat} {v : Nat}
    (hsize : super.size = n) (hsuper : ∀ d, super.cell d = if d = c then v else s.super.cell d)
    (hle : s.isup ≤ isup) (hv : v < isup) (hlt : ∀ g < isup, g ≠ v → g < s.isup)
    (honto : ∀ g < isup, ∃ d < n, super.cell d = g) (hzero : tally n s.super.cell (c :: T) v = 0)
    (hnew : ∀ g < n, s.mask.cell g = i → s.newmap.cell g ≠ v)
    (hold : old c < k ∧ ((v = old c ∧ ∀ d < n, old d = old c → d ∈ R) ∨
      (k ≤ v ∧ ∃ d < n, d ∉ R ∧ old d = old c))) :
    Splitting n i R old k T {
      super
      nsuper := s.nsuper.upd (v + 1) 1
      mask := s.mask.upd (old c) i
      newmap := s.newmap.upd (old c) v
      isup } := by
  have hne d (hdT : d ∈ T ∨ d ∉ R) : d ≠ c := by
    rintro rfl
    exact hdT.elim hcT fun h => h hcR
  refine ⟨⟨hsize, hs.groups.nsuper_size, hs.groups.mask_size, hs.groups.newmap_size,
    fun d hd => ?_, honto, fun g hg => ?_⟩, hs.le.trans hle, fun d hd hdT => ?_,
    fun d hd hdR hdT => ?_, fun g hg => ?_, fun g hg hm => ?_, fun g hg h hh hmg hmh heq => ?_⟩
  · rw [hsuper]
    split
    · exact hv
    · exact (hs.groups.lt d hd).trans_le hle
  · have hupd : super.cell = Function.update s.super.cell c v := funext fun d => by
      rw [hsuper, Function.update_apply]
    simp only [Buf.upd_cell, add_right_cancel_iff]
    rw [hupd, tally_update hc hcT]
    split
    next heq => rw [heq, hzero]; rfl
    next hne => rw [hs.groups.count g (hlt g hg hne), add_zero]
  · rw [hsuper, if_neg (hne d hdT)]
    exact hs.stay d hd (hdT.imp_left (mem_cons_of_mem _))
  · rw [hsuper]
    simp only [Buf.upd_cell]
    obtain rfl | hne := eq_or_ne d c
    · rw [if_pos rfl, if_pos rfl, if_pos rfl]
      exact ⟨rfl, rfl⟩
    · obtain ⟨hmd, hsd⟩ := hs.moved d hd hdR fun h => (mem_cons.1 h).elim hne hdT
      have hdc : old d ≠ old c := fun h => by rw [← h, hmd] at hmask; exact lt_irrefl _ hmask
      rw [if_neg hdc, if_neg hdc, if_neg hne]
      exact ⟨hmd, hsd⟩
  · simp only [Buf.upd_cell]
    split
    · exact le_refl _
    · exact hs.mask_le g hg
  · simp only [Buf.upd_cell] at hm ⊢
    split at hm
    next heq =>
      rw [if_pos heq, heq]
      exact ⟨hold.1, hold.2.imp_right fun ⟨hkv, h⟩ => ⟨hkv, hv, h⟩⟩
    next hne =>
      rw [if_neg hne]
      obtain ⟨hg', h⟩ := hs.touched g hg hm
      exact ⟨hg', h.imp_right fun ⟨h₁, h₂, h₃⟩ => ⟨h₁, h₂.trans_le hle, h₃⟩⟩
  · simp only [Buf.upd_cell] at hmg hmh heq
    split at hmg <;> split at hmh
    next hgc hhc => rw [hgc, hhc]
    next hgc hhc =>
      rw [if_pos hgc, if_neg hhc] at heq
      exact absurd heq.symm (hnew h hh hmh)
    next hgc hhc =>
      rw [if_neg hgc, if_pos hhc] at heq
      exact absurd heq (hnew g hg hmg)
    next hgc hhc =>
      rw [if_neg hgc, if_neg hhc] at heq
      exact hs.inj g hg h hh hmg hmh heq

/-- The first column of a group that is in the row as a whole. -/
theorem Splitting.keep (hs : Splitting n i R old k (c :: T) s) (hR : ∀ c ∈ R, c < n)
    (hT : ∀ d ∈ c :: T, d ∈ R) (hcT : c ∉ T) (hold : ∀ c < n, old c < k)
    (hmask : s.mask.cell (old c) < i) (hcount : s.nsuper.cell (old c + 1) = 0) :
    Splitting n i R old k T { s with
      mask := s.mask.upd (old c) i
      nsuper := s.nsuper.upd (old c + 1) 1
      newmap := s.newmap.upd (old c) (old c) } := by
  have hcR := hT c mem_cons_self
  have hc := hR c hcR
  have hck := hold c hc
  have hsup := hs.stay c hc (.inl mem_cons_self)
  have hgk := hs.groups.lt c hc
  rw [hsup] at hgk
  have htally : tally n s.super.cell (c :: T) (old c) = 0 := by
    have := hs.groups.count (old c) hgk
    omega
  -- a column of the group that is not in the row would be counted
  have hall : ∀ d < n, old d = old c → d ∈ R := by
    intro d hd hdc
    by_contra hdR
    have hpos : 0 < tally n s.super.cell (c :: T) (old c) :=
      tally_pos.2 ⟨d, hd, fun h => hdR (hT d h), (hs.stay d hd (.inr hdR)).trans hdc⟩
    omega
  refine hs.mark hcR hc hcT hmask hs.groups.super_size (fun d => ?_) le_rfl hgk (fun g hg _ => hg)
    hs.groups.onto htally (fun g hg hm heq => ?_) ⟨hck, .inl ⟨rfl, hall⟩⟩
  · split
    next h => rw [h, hsup]
    next => rfl
  · obtain ⟨-, ⟨hkeep, -⟩ | ⟨hkle, -⟩⟩ := hs.touched g hg hm
    · rw [← hkeep.symm.trans heq, hm] at hmask
      exact lt_irrefl _ hmask
    · omega

/-- The first column of a group that is in the row in part. -/
theorem Splitting.split (hs : Splitting n i R old k (c :: T) s) (hR : ∀ c ∈ R, c < n)
    (hT : ∀ d ∈ c :: T, d ∈ R) (hcT : c ∉ T) (hold : ∀ c < n, old c < k)
    (hmask : s.mask.cell (old c) < i) (hcount : s.nsuper.cell (old c + 1) ≠ 0) :
    s.isup < n ∧ Splitting n i R old k T {
      super := s.super.upd c s.isup
      nsuper := s.nsuper.upd (s.isup + 1) 1
      mask := s.mask.upd (old c) i
      newmap := s.newmap.upd (old c) s.isup
      isup := s.isup + 1 } := by
  have hcR := hT c mem_cons_self
  have hc := hR c hcR
  have hck := hold c hc
  have hsup := hs.stay c hc (.inl mem_cons_self)
  have hgk := hs.groups.lt c hc
  have hle := hs.le
  rw [hsup] at hgk
  -- a column of the group that does not move is not in the row
  have hstays : ∃ e < n, e ∉ R ∧ old e = old c := by
    have hpos : 0 < tally n s.super.cell (c :: T) (old c) := by
      have := hs.groups.count (old c) hgk
      omega
    obtain ⟨e, he, heT, hec⟩ := tally_pos.1 hpos
    have heR : e ∉ R := by
      intro heR
      obtain ⟨hme, hse⟩ := hs.moved e he heR heT
      obtain ⟨-, ⟨hkeep, -⟩ | ⟨hkle, -⟩⟩ := hs.touched (old e)
        ((hold e he).trans_le (hle.trans hs.groups.isup_le)) hme
      · rw [hse, hkeep] at hec
        rw [hec] at hme
        exact hmask.ne hme
      · rw [hse] at hec
        omega
    exact ⟨e, he, heR, (hs.stay e he (.inr heR)).symm.trans hec⟩
  have honto : ∀ g < s.isup + 1, ∃ d < n, (s.super.upd c s.isup).cell d = g := by
    intro g hg
    obtain hg | rfl := Nat.lt_succ_iff_lt_or_eq.1 hg
    · obtain ⟨d, hd, hdg⟩ := hs.groups.onto g hg
      obtain rfl | hne := eq_or_ne d c
      · obtain ⟨e, he, heR, hec⟩ := hstays
        have hne : e ≠ d := by
          rintro rfl
          exact heR hcR
        exact ⟨e, he, by
          rw [Buf.upd_cell_ne hne, hs.stay e he (.inr heR), hec, ← hsup, hdg]⟩
      · exact ⟨d, hd, by rw [Buf.upd_cell_ne hne, hdg]⟩
    · exact ⟨c, hc, Buf.upd_cell_self⟩
  have hzero : tally n s.super.cell (c :: T) s.isup = 0 := by
    refine Nat.eq_zero_of_not_pos fun hpos => ?_
    obtain ⟨d, hd, -, hdg⟩ := tally_pos.1 hpos
    exact (hs.groups.lt d hd).ne hdg
  exact ⟨le_of_onto honto, hs.mark hcR hc hcT hmask hs.groups.super_size Buf.upd_cell
    (Nat.le_succ _) (Nat.lt_succ_self _) (fun g hg hne => by omega) honto hzero
    (fun g hg hm => (hs.newmap_lt hg hm).ne) ⟨hck, .inr ⟨hle, hstays⟩⟩⟩

/-- A further column of a group. -/
theorem Splitting.join (hs : Splitting n i R old k (c :: T) s) (hR : ∀ c ∈ R, c < n)
    (hT : ∀ d ∈ c :: T, d ∈ R) (hcT : c ∉ T) (hmask : s.mask.cell (old c) = i) :
    Splitting n i R old k T { s with
      super := s.super.upd c (s.newmap.cell (old c))
      nsuper := s.nsuper.upd (s.newmap.cell (old c) + 1)
        (s.nsuper.cell (s.newmap.cell (old c) + 1) + 1) } := by
  have hcR := hT c mem_cons_self
  have hc := hR c hcR
  have hsup := hs.stay c hc (.inl mem_cons_self)
  have hgk := hs.groups.lt c hc
  have hisup := hs.groups.isup_le
  rw [hsup] at hgk
  have hnew := hs.newmap_lt (by omega) hmask
  have hTR : ∀ d ∈ T, d ∈ R := fun d hd => hT d (mem_cons_of_mem _ hd)
  refine ⟨⟨hs.groups.super_size, hs.groups.nsuper_size, hs.groups.mask_size, hs.groups.newmap_size,
    fun d hd => ?_, fun g hg => ?_, fun g hg => ?_⟩, hs.le, fun d hd hdT => ?_,
    fun d hd hdR hdT => ?_, hs.mask_le, hs.touched, hs.inj⟩
  · simp only [Buf.upd_cell]
    split
    · exact hnew
    · exact hs.groups.lt d hd
  · obtain ⟨d, hd, hdg⟩ := hs.groups.onto g hg
    obtain rfl | hne := eq_or_ne d c
    · -- the group loses this column, but not all
      rw [hsup] at hdg
      obtain ⟨-, ⟨hkeep, -⟩ | ⟨-, -, e, he, heR, heg⟩⟩ := hs.touched g (by omega) (hdg ▸ hmask)
      · exact ⟨d, hd, by rw [Buf.upd_cell_self, hdg, hkeep]⟩
      · have hne : e ≠ d := by
          rintro rfl
          exact heR hcR
        exact ⟨e, he, by rw [Buf.upd_cell_ne hne, hs.stay e he (.inr heR), heg]⟩
    · exact ⟨d, hd, by rw [Buf.upd_cell_ne hne, hdg]⟩
  · have hstep := tally_update (f := s.super.cell) hc hcT (s.newmap.cell (old c)) g
    have hcount := hs.groups.count g hg
    simp only [Buf.upd_cell, add_right_cancel_iff]
    have hupd : (s.super.upd c (s.newmap.cell (old c))).cell =
        Function.update s.super.cell c (s.newmap.cell (old c)) := rfl
    rw [hupd, hstep]
    split
    next heq => rw [← heq, hcount]; push_cast; rfl
    next => rw [hcount, add_zero]
  · have hne : d ≠ c := by
      rintro rfl
      exact hdT.elim hcT fun h => h hcR
    rw [Buf.upd_cell_ne hne]
    exact hs.stay d hd (hdT.imp_left (mem_cons_of_mem _))
  · simp only [Buf.upd_cell]
    split
    next heq => rw [heq]; exact ⟨hmask, rfl⟩
    next hne => exact hs.moved d hd hdR fun h => (mem_cons.1 h).elim hne hdT

/-- The second loop over a row moves a column. -/
theorem joinGroup_spec (hs : Splitting n i R old k (c :: T) s) (hR : ∀ c ∈ R, c < n)
    (hT : ∀ d ∈ c :: T, d ∈ R) (hcT : c ∉ T) (hold : ∀ c < n, old c < k) :
    Meets (joinGroup i s c) (Splitting n i R old k T) fun _ => False := by
  have hc := hR c (hT c mem_cons_self)
  have hsup := hs.stay c hc (.inl mem_cons_self)
  have hg := hs.groups.lt c hc
  have hisup := hs.groups.isup_le
  have hss := hs.groups.super_size
  have hns := hs.groups.nsuper_size
  have hms := hs.groups.mask_size
  have hws := hs.groups.newmap_size
  rw [hsup] at hg
  rw [joinGroup]
  refine Buf.meets_get (by omega) ?_
  rw [hsup]
  refine Buf.meets_get (by omega) ?_
  split
  next hmask =>
    refine Buf.meets_set (by omega) (Buf.meets_get (by omega) ?_)
    split
    next hcount =>
      refine Buf.meets_set (by omega) (Buf.meets_set (by omega) ?_)
      exact hs.keep hR hT hcT hold hmask hcount
    next hcount =>
      obtain ⟨hlt, hsplit⟩ := hs.split hR hT hcT hold hmask hcount
      exact Buf.meets_set (by omega) (Buf.meets_set (by omega) (Buf.meets_set (by omega) hsplit))
  next hmask =>
    have hmask' : s.mask.cell (old c) = i :=
      le_antisymm (hs.mask_le _ (by omega)) (not_lt.1 hmask)
    have hnew := hs.newmap_lt (by omega) hmask'
    refine Buf.meets_get (by omega) (Buf.meets_set (by omega) (Buf.meets_get (by omega)
      (Buf.meets_set (by omega) ?_)))
    exact hs.join hR hT hcT hmask'

/-- The second loop over a row. -/
theorem joinGroups_spec (hs : Splitting n i R old k R s) (hR : ∀ c ∈ R, c < n) (hnodup : R.Nodup)
    (hold : ∀ c < n, old c < k) :
    Meets (R.foldlM (joinGroup i) s) (Splitting n i R old k []) fun _ => False := by
  refine (Meets.foldlM (fun rest s => rest.Nodup ∧ (∀ d ∈ rest, d ∈ R) ∧
    Splitting n i R old k rest s) (fun c rest s ⟨hrest, hsub, hs⟩ => ?_) s
    ⟨hnodup, fun _ hd => hd, hs⟩).imp fun s hs => hs.2.2
  obtain ⟨hcrest, hrest⟩ := nodup_cons.1 hrest
  exact (joinGroup_spec hs hR hsub hcrest hold).imp fun s' hs' =>
    ⟨hrest, fun d hd => hsub d (mem_cons_of_mem _ hd), hs'⟩

/-- After the row two columns are in one group if they were, and the row has both or neither. -/
theorem Splitting.super_eq_iff (hs : Splitting n i R old k [] s) (hold : ∀ c < n, old c < k)
    {d : Nat} (hc : c < n) (hd : d < n) :
    s.super.cell c = s.super.cell d ↔ old c = old d ∧ (c ∈ R ↔ d ∈ R) := by
  have hlt : ∀ c < n, old c < n := fun c hc =>
    (hold c hc).trans_le (hs.le.trans hs.groups.isup_le)
  -- a column of the row and one that is not in it
  have hcross : ∀ c < n, ∀ d < n, c ∈ R → d ∉ R → s.super.cell c ≠ s.super.cell d := by
    intro c hc d hd hcR hdR heq
    obtain ⟨hm, hsup⟩ := hs.moved c hc hcR not_mem_nil
    rw [hsup, hs.stay d hd (.inr hdR)] at heq
    have hdk := hold d hd
    obtain ⟨-, ⟨hkeep, hall⟩ | ⟨hkle, -⟩⟩ := hs.touched (old c) (hlt c hc) hm
    · exact hdR (hall d hd (heq.symm.trans hkeep))
    · omega
  by_cases hcR : c ∈ R <;> by_cases hdR : d ∈ R
  · obtain ⟨hmc, hsc⟩ := hs.moved c hc hcR not_mem_nil
    obtain ⟨hmd, hsd⟩ := hs.moved d hd hdR not_mem_nil
    rw [hsc, hsd]
    constructor
    · exact fun heq => ⟨hs.inj _ (hlt c hc) _ (hlt d hd) hmc hmd heq, iff_of_true hcR hdR⟩
    · exact fun heq => congrArg _ heq.1
  · exact iff_of_false (hcross c hc d hd hcR hdR) fun h => hdR (h.2.1 hcR)
  · exact iff_of_false (hcross d hd c hc hdR hcR).symm fun h => hcR (h.2.2 hdR)
  · rw [hs.stay c hc (.inr hcR), hs.stay d hd (.inr hdR)]
    exact ⟨fun heq => ⟨heq, iff_of_false hcR hdR⟩, fun h => h.1⟩

/-! ## The rows -/

/-- The groups are those of the first `i` rows. -/
structure Grouped (A : SparseMatrix α) (n i : Nat) (s : Supers) : Prop where
  groups : s.Groups n []
  mask_lt : ∀ g < n, s.mask.cell g < i
  same : ∀ c < n, ∀ d < n, s.super.cell c = s.super.cell d ↔
    ∀ r < i, c ∈ A.cols r ↔ d ∈ A.cols r

/-- A row splits the groups. -/
theorem Grouped.splitRow (hA : A.Valid m n) (hdist : A.Distinct m) (hi : i < m)
    (hs : Grouped A n i s) : Meets (splitRow A s i) (Grouped A n (i + 1)) fun _ => False := by
  have hR : ∀ c ∈ A.cols i, c < n := by
    intro c hc
    obtain ⟨j, hj, rfl⟩ := mem_map.1 hc
    exact hA.col_lt hi hj
  have hnodup : (A.cols i).Nodup := hdist i hi
  have hrow : ∀ {σ : Type} (f : σ → Nat → Except Fault σ) (s : σ),
      forRow A i (fun s c _ => f s c) s = (A.cols i).foldlM f s := by
    intro σ f s
    rw [hA.forRow_eq hi, SparseMatrix.cols, foldlM_map]
  rw [Sparse.splitRow, hrow]
  refine (leaveGroups_spec hs.groups hR hnodup).bind fun nsuper hleft => ?_
  rw [hrow]
  have hstart : Splitting n i (A.cols i) s.super.cell s.isup (A.cols i) { s with nsuper } :=
    ⟨hleft, le_refl _, fun _ _ _ => rfl, fun c _ hcR hcT => absurd hcR hcT,
      fun g hg => (hs.mask_lt g hg).le, fun g hg hm => absurd hm (hs.mask_lt g hg).ne,
      fun g hg _ _ hm => absurd hm (hs.mask_lt g hg).ne⟩
  refine (joinGroups_spec hstart hR hnodup hs.groups.lt).imp fun s' hs' => ⟨hs'.groups, ?_, ?_⟩
  · intro g hg
    have := hs'.mask_le g hg
    push_cast
    omega
  · intro c hc d hd
    rw [hs'.super_eq_iff hs.groups.lt hc hd, hs.same c hc d hd]
    constructor
    · rintro ⟨hprev, hlast⟩ r hr
      obtain hr | rfl := Nat.lt_succ_iff_lt_or_eq.1 hr
      · exact hprev r hr
      · exact hlast
    · exact fun h => ⟨fun r hr => h r (lt_succ_of_lt hr), h i (lt_succ_self i)⟩

/-- A loop that fills an array. -/
theorem fill_spec {β : Type} (x : β) {b : Buf β} (hb : b.size = n) :
    Meets ((List.range' 0 n).foldlM (fun b i => b.set i x) b)
      (fun b' => b'.size = n ∧ ∀ i < n, b'.cell i = x) fun _ => False := by
  refine (Meets.range' _ 0 n (fun k b' => b'.size = n ∧ ∀ i < k, b'.cell i = x)
    (fun k hk b' ⟨hb', hx⟩ => ?_) b ⟨hb, fun i hi => absurd hi (not_lt_zero i)⟩).imp
    fun b' hb' => hb'
  rw [zero_add, Buf.set_eq (by omega)]
  refine ⟨hb', fun i hi => ?_⟩
  rw [Buf.upd_cell]
  split
  · rfl
  · exact hx i (by omega)

/-- The arrays before the first row. -/
theorem startSupers_spec (A : SparseMatrix α) (hn : 0 < n) :
    Meets (startSupers n) (Grouped A n 0) fun _ => False := by
  rw [startSupers]
  refine (fill_spec 0 rfl).bind fun super ⟨hsize, hsuper⟩ => ?_
  refine Buf.meets_set (lt_succ_of_le hn) ?_
  refine (fill_spec (-1) rfl).bind fun mask ⟨hmsize, hmask⟩ => ?_
  refine ⟨⟨hsize, rfl, hmsize, rfl, fun c hc => ?_, fun g hg => ?_, fun g hg => ?_⟩, fun g hg => ?_,
    fun c hc d hd => ?_⟩
  · rw [hsuper c hc]
    exact zero_lt_one
  · obtain rfl := lt_one_iff.1 hg
    exact ⟨0, hn, hsuper 0 hn⟩
  · obtain rfl := lt_one_iff.1 hg
    have hall : tally n super.cell [] 0 = n := by
      rw [tally, Finset.filter_true_of_mem, Finset.card_range]
      exact fun c hc => ⟨not_mem_nil, hsuper c (Finset.mem_range.1 hc)⟩
    rw [hall]
    exact Buf.upd_cell_self
  · rw [hmask g hg]
    decide
  · rw [hsuper c hc, hsuper d hd]
    exact iff_of_true rfl fun r hr => absurd hr (not_lt_zero r)

/-! ## Listing the groups -/

/-- Where the group starts among the columns that are listed by their groups. -/
def groupStart (n : Nat) (f : Nat → Nat) (g : Nat) : Nat :=
  ∑ k ∈ Finset.range g, tally n f [] k

theorem groupStart_succ : groupStart n f (g + 1) = groupStart n f g + tally n f [] g :=
  Finset.sum_range_succ ..

theorem groupStart_mono (h : g ≤ k) : groupStart n f g ≤ groupStart n f k :=
  Finset.sum_le_sum_of_subset (Finset.range_subset_range.2 h)

/-- The groups have all columns. -/
theorem groupStart_all (hf : ∀ c < n, f c < k) : groupStart n f k = n := by
  have hfiber : (Finset.range n).card =
      ∑ g ∈ Finset.range k, ((Finset.range n).filter fun c => f c = g).card :=
    Finset.card_eq_sum_card_fiberwise fun c hc => by
      rw [Finset.coe_range, Set.mem_Iio] at hc ⊢
      exact hf c hc
  rw [Finset.card_range] at hfiber
  refine Eq.trans (Finset.sum_congr rfl fun g _ => ?_) hfiber.symm
  simp only [tally, not_mem_nil, not_false_eq_true, true_and]

/-- A place is in one of the groups. -/
theorem exists_group (hp : c < groupStart n f k) :
    ∃ g < k, groupStart n f g ≤ c ∧ c < groupStart n f (g + 1) := by
  induction k with
  | zero => exact absurd hp (not_lt_zero c)
  | succ k ih =>
    obtain hlt | hge := lt_or_ge c (groupStart n f k)
    · obtain ⟨g, hg, h⟩ := ih hlt
      exact ⟨g, lt_succ_of_lt hg, h⟩
    · exact ⟨k, lt_succ_self k, hge, hp⟩

/-- One more column. -/
theorem tally_succ (i : Nat) : tally (i + 1) f [] g = tally i f [] g + if f i = g then 1 else 0 := by
  rw [tally, Finset.range_add_one, Finset.filter_insert]
  split
  next h =>
    rw [Finset.card_insert_of_notMem (by simp), if_pos h.2, tally]
  next h =>
    rw [if_neg fun heq => h ⟨not_mem_nil, heq⟩, add_zero, tally]

theorem tally_mono (h : i ≤ n) : tally i f [] g ≤ tally n f [] g :=
  Finset.card_le_card (Finset.filter_subset_filter _ (Finset.range_subset_range.2 h))

theorem sumGroups_spec {ns : Buf Int} (hsize : k < ns.size) (h₀ : ns.cell 0 = 0)
    (hcount : ∀ g < k, ns.cell (g + 1) = tally n f [] g) :
    Meets (sumGroups k ns) (fun ns' => ns'.size = ns.size ∧
      ∀ g ≤ k, ns'.cell g = (groupStart n f g : Int)) fun _ => False := by
  rw [sumGroups]
  refine (Meets.range' _ 0 k (fun i ns' => ns'.size = ns.size ∧
    (∀ g ≤ i, ns'.cell g = (groupStart n f g : Int)) ∧ ∀ g, i < g → ns'.cell g = ns.cell g)
    (fun i hi ns' ⟨hs, hle, hgt⟩ => ?_) ns ⟨rfl, fun g hg => ?_, fun _ _ => rfl⟩).imp
    fun ns' ⟨hs, hle, _⟩ => ⟨hs, hle⟩
  · obtain rfl := le_zero.1 hg
    rw [h₀]
    rfl
  · rw [zero_add]
    refine Buf.meets_get (by omega) (Buf.meets_get (by omega) ?_)
    rw [Buf.set_eq (by omega)]
    refine ⟨hs, fun g hg => ?_, fun g hg => ?_⟩
    · rw [Buf.upd_cell]
      split
      next h =>
        rw [h, hgt (i + 1) (lt_succ_self i), hcount i hi, hle i (le_refl i), groupStart_succ]
        push_cast
        rw [add_comm]
      next h => exact hle g (by omega)
    · rw [Buf.upd_cell_ne (by omega)]
      exact hgt g (by omega)

/-- The first `i` columns are listed. -/
structure Listed (n k : Nat) (f : Nat → Nat) (i : Nat) (s : Buf Nat × Buf Int) : Prop where
  cluster_size : s.1.size = n
  nsuper_size : s.2.size = n + 1
  next : ∀ g < k, s.2.cell g = groupStart n f g + tally i f [] g
  group : ∀ g < k, ∀ p, groupStart n f g ≤ p → (p : Int) < s.2.cell g →
    s.1.cell p < i ∧ f (s.1.cell p) = g
  place : ∀ c < i, ∃ p, groupStart n f (f c) ≤ p ∧ (p : Int) < s.2.cell (f c) ∧ s.1.cell p = c

/-- A column is listed at the next place of its group. -/
theorem Listed.placeColumn {super : Buf Nat} {s : Buf Nat × Buf Int} (hsuper : super.size = n)
    (hf : ∀ c < n, super.cell c < k) (hk : k ≤ n) (hi : i < n) (hs : Listed n k super.cell i s) :
    Meets (placeColumn super s i) (Listed n k super.cell (i + 1)) fun _ => False := by
  have hlt := hf i hi
  have hcs := hs.cluster_size
  have hns := hs.nsuper_size
  obtain ⟨q, hq⟩ : ∃ q, q = groupStart n super.cell (super.cell i) +
      tally i super.cell [] (super.cell i) := ⟨_, rfl⟩
  have hnext : s.2.cell (super.cell i) = q := by
    rw [hs.next _ hlt, hq]
    push_cast
    rfl
  have hmore : ∀ g, tally i super.cell [] g ≤ tally n super.cell [] g := fun g => tally_mono hi.le
  have hqlt : q < groupStart n super.cell (super.cell i + 1) := by
    have hstep := tally_succ (f := super.cell) (g := super.cell i) i
    have hmono := tally_mono (f := super.cell) (g := super.cell i) (show i + 1 ≤ n from hi)
    rw [if_pos rfl] at hstep
    rw [groupStart_succ]
    omega
  have hqn : q < n := hqlt.trans_le ((groupStart_mono hlt).trans_eq (groupStart_all hf))
  -- the places of another group are not touched
  have hother : ∀ g < k, g ≠ super.cell i → ∀ p, groupStart n super.cell g ≤ p →
      (p : Int) < s.2.cell g → p ≠ q := by
    intro g hg hne p hlo hhi
    have hend : groupStart n super.cell (g + 1) = _ := groupStart_succ
    have hm := hmore g
    rw [hs.next g hg] at hhi
    obtain hlt' | hgt := lt_or_gt_of_ne hne
    · have := groupStart_mono (n := n) (f := super.cell) (show g + 1 ≤ super.cell i from hlt')
      omega
    · have := groupStart_mono (n := n) (f := super.cell) (show super.cell i + 1 ≤ g from hgt)
      omega
  rw [Sparse.placeColumn]
  refine Buf.meets_get (by omega) (Buf.meets_get (by omega) ?_)
  rw [hnext, if_neg (by omega), Int.toNat_natCast]
  refine Buf.meets_set (by omega) (Buf.meets_set (by omega) ?_)
  refine ⟨hcs, hns, fun g hg => ?_, fun g hg p hlo hhi => ?_, fun c hc => ?_⟩
  · rw [Buf.upd_cell, tally_succ]
    split
    next heq =>
      rw [heq, if_pos rfl, hq]
      push_cast
      rw [add_assoc]
    next hne => rw [if_neg (Ne.symm hne), add_zero, hs.next g hg]
  · rw [Buf.upd_cell] at hhi ⊢
    split
    next hpq =>
      refine ⟨lt_succ_self i, ?_⟩
      by_contra hne
      rw [if_neg (Ne.symm hne)] at hhi
      exact hother g hg (Ne.symm hne) p hlo hhi hpq
    next hpq =>
      have hhi' : (p : Int) < s.2.cell g := by
        split at hhi
        next heq => rw [heq, hnext]; omega
        next => exact hhi
      obtain ⟨h1, h2⟩ := hs.group g hg p hlo hhi'
      exact ⟨lt_succ_of_lt h1, h2⟩
  · obtain hc | rfl := Nat.lt_succ_iff_lt_or_eq.1 hc
    · obtain ⟨p, hlo, hhi, hp⟩ := hs.place c hc
      have hpq : p ≠ q := by
        obtain heq | hne := eq_or_ne (super.cell c) (super.cell i)
        · rw [heq, hnext] at hhi
          omega
        · exact hother _ (hf c (hc.trans hi)) hne p hlo hhi
      refine ⟨p, hlo, ?_, (Buf.upd_cell_ne hpq).trans hp⟩
      rw [Buf.upd_cell]
      split
      next heq => rw [heq, hnext] at hhi; omega
      next => exact hhi
    · exact ⟨q, by omega, by rw [Buf.upd_cell_self]; omega, Buf.upd_cell_self⟩

theorem shiftGroups_spec {ns : Buf Int} (hsize : k < ns.size) :
    Meets (shiftGroups k ns) (fun ns' => ns'.size = ns.size ∧
      ∀ g < k, ns'.cell (g + 1) = ns.cell g) fun _ => False := by
  rw [shiftGroups]
  refine (Meets.range' _ 0 k (fun i ns' => ns'.size = ns.size ∧
    (∀ g ≤ k - i, ns'.cell g = ns.cell g) ∧ ∀ g, k - i ≤ g → g < k → ns'.cell (g + 1) = ns.cell g)
    (fun i hi ns' ⟨hs, hlow, hhigh⟩ => ?_) ns ⟨rfl, fun _ _ => rfl, fun g h1 h2 => by omega⟩).imp
    fun ns' ⟨hs, _, hhigh⟩ => ⟨hs, fun g hg => hhigh g (by omega) hg⟩
  rw [zero_add]
  refine Buf.meets_get (by omega) ?_
  rw [Buf.set_eq (by omega)]
  refine ⟨hs, fun g hg => ?_, fun g hlo hhi => ?_⟩
  · rw [Buf.upd_cell_ne (by omega)]
    exact hlow g (by omega)
  · rw [Buf.upd_cell]
    split
    next heq =>
      obtain rfl : g = k - i - 1 := by omega
      exact hlow _ (by omega)
    next hne => exact hhigh g (by omega) hhi

/-- The listed groups are the decomposition. -/
theorem Grouped.decomposed {cluster : Buf Nat} {ns clusterp : Buf Int} (hs : Grouped A n m s)
    (hl : Listed n s.isup s.super.cell n (cluster, ns)) (hsize : s.isup < clusterp.size)
    (h₀ : clusterp.cell 0 = 0) (hshift : ∀ g < s.isup, clusterp.cell (g + 1) = ns.cell g) :
    Decomposed A m n s.isup cluster clusterp := by
  have hstart : ∀ g ≤ s.isup, clusterp.cell g = groupStart n s.super.cell g := by
    intro g hg
    cases g with
    | zero => exact h₀
    | succ g =>
      rw [hshift g hg, hl.next g hg, groupStart_succ]
      push_cast
      rfl
  have hall := groupStart_all hs.groups.lt
  have hgroup : ∀ g < s.isup, ∀ p : Nat, (clusterp.cell g ≤ p ∧ (p : Int) < clusterp.cell (g + 1)) →
      cluster.cell p < n ∧ s.super.cell (cluster.cell p) = g := by
    rintro g hg p ⟨hlo, hhi⟩
    rw [hstart g hg.le] at hlo
    rw [hshift g hg] at hhi
    exact hl.group g hg p (by omega) hhi
  have hplace : ∀ p < n, ∃ g < s.isup, clusterp.cell g ≤ p ∧ (p : Int) < clusterp.cell (g + 1) := by
    intro p hp
    obtain ⟨g, hg, hlo, hhi⟩ := exists_group (hp.trans_eq hall.symm)
    exact ⟨g, hg, by rw [hstart g hg.le]; omega, by rw [hstart (g + 1) hg]; omega⟩
  refine ⟨⟨hl.cluster_size, hsize⟩, ?_, h₀, fun g hg => ?_, ?_, fun p hp q hq => ?_⟩
  · have hsub : List.range n ⊆ (List.range n).map cluster.cell := by
      intro c hc
      obtain ⟨p, -, hhi, hpc⟩ := hl.place c (mem_range.1 hc)
      have hlt := hs.groups.lt c (mem_range.1 hc)
      have hend : clusterp.cell (s.super.cell c + 1) ≤ n := by
        rw [hstart _ hlt]
        exact_mod_cast (groupStart_mono hlt).trans_eq hall
      rw [hshift _ hlt] at hend
      dsimp only at hhi hpc
      exact mem_map.2 ⟨p, mem_range.2 (by omega), hpc⟩
    have hlen : ((List.range n).map cluster.cell).length ≤ (List.range n).length := by
      rw [length_map]
    exact ((nodup_range.subperm hsub).perm_of_length_le hlen).symm
  · obtain ⟨c, hc, hcg⟩ := hs.groups.onto g hg
    have hpos := tally_pos.2 ⟨c, hc, not_mem_nil, hcg⟩
    rw [hstart g hg.le, hstart (g + 1) hg, groupStart_succ]
    push_cast
    omega
  · rw [hstart _ le_rfl, hall]
  · obtain ⟨g, hg, hpg⟩ := hplace p hp
    obtain ⟨h, hh, hqh⟩ := hplace q hq
    obtain ⟨hpn, hpsup⟩ := hgroup g hg p hpg
    obtain ⟨hqn, hqsup⟩ := hgroup h hh q hqh
    rw [← hs.same _ hpn _ hqn]
    constructor
    · rintro ⟨g', hg', hpg', hqg'⟩
      rw [(hgroup g' hg' p hpg').2, (hgroup g' hg' q hqg').2]
    · intro heq
      rw [hpsup, hqsup] at heq
      exact ⟨g, hg, hpg, heq ▸ hqh⟩

/-- The columns of a matrix with some columns and no repeated entries are decomposed into the
classes of columns with entries in the same rows, without an access outside of the arrays. -/
theorem decompose_to_supervariables_spec (hA : A.Valid m n) (hdist : A.Distinct m) (hn : 0 < n) :
    Meets (SparseMatrix_decompose_to_supervariables A)
      (fun (nc, cluster, clusterp) => Decomposed A m n nc cluster clusterp) fun _ => False := by
  rw [SparseMatrix_decompose_to_supervariables, hA.rows, hA.cols]
  refine (startSupers_spec A hn).bind fun s hs => ?_
  refine (Meets.range' (splitRow A) 0 m (Grouped A n) (fun i hi s hs => ?_) s hs).bind fun s hs => ?_
  · rw [zero_add]
    exact hs.splitRow hA hdist hi
  have hle := hs.groups.isup_le
  have hsize := hs.groups.nsuper_size
  refine Buf.meets_set (by omega) ?_
  refine (sumGroups_spec (n := n) (f := s.super.cell) (by rw [Buf.upd_size]; omega)
    Buf.upd_cell_self fun g hg => ?_).bind fun ns ⟨hnsize, hns⟩ => ?_
  · rw [Buf.upd_cell_ne (succ_ne_zero g)]
    exact hs.groups.count g hg
  have hstart : Listed n s.isup s.super.cell 0 (s.newmap, ns) := by
    refine ⟨hs.groups.newmap_size, hnsize.trans hsize, fun g hg => ?_, fun g hg p hlo hhi => ?_,
      fun c hc => absurd hc (not_lt_zero c)⟩
    · rw [hns g hg.le]
      exact (add_zero _).symm
    · rw [hns g hg.le] at hhi
      omega
  refine (Meets.range' (placeColumn s.super) 0 n (Listed n s.isup s.super.cell)
    (fun i hi s' hs' => ?_) _ hstart).bind fun ⟨cluster, ns'⟩ hl => ?_
  · rw [zero_add]
    exact hs'.placeColumn hs.groups.super_size hs.groups.lt hle hi
  have hsize' : ns'.size = n + 1 := hl.nsuper_size
  refine (shiftGroups_spec (k := s.isup) (by omega)).bind fun ns'' ⟨hs'', hshift⟩ => ?_
  refine Buf.meets_set (by omega) ?_
  exact hs.decomposed hl (by rw [Buf.upd_size]; omega) Buf.upd_cell_self fun g hg => by
    rw [Buf.upd_cell_ne (succ_ne_zero g)]
    exact hshift g hg

/-- Two rows of three columns, of which the last two are alike. -/
def alike : SparseMatrix Unit :=
  ⟨2, 3, 4, .MATRIX_TYPE_PATTERN, ⟨3, fun i => [0, 1, 4].getD i 0⟩,
    ⟨4, fun k => [0, 2, 0, 1].getD k 0⟩, ⟨4, fun _ => ()⟩⟩

theorem decompose_alike :
    Meets (SparseMatrix_decompose_to_supervariables alike)
      (fun (nc, cluster, clusterp) => Decomposed alike 2 3 nc cluster clusterp) fun _ => False :=
  decompose_to_supervariables_spec
    ⟨rfl, rfl, by decide, rfl, by decide, rfl, by decide, by decide, by decide⟩
    (by rw [SparseMatrix.Distinct]; decide) (by decide)

/-- One row with its first column twice, and nothing at the second. -/
def twice : SparseMatrix Unit :=
  ⟨1, 2, 2, .MATRIX_TYPE_PATTERN, ⟨2, fun i => [0, 2].getD i 0⟩, ⟨2, fun _ => 0⟩, ⟨2, fun _ => ()⟩⟩

/-- A matrix without columns. -/
def noColumns : SparseMatrix Unit :=
  ⟨1, 0, 0, .MATRIX_TYPE_PATTERN, ⟨2, fun _ => 0⟩, ⟨0, fun _ => 0⟩, ⟨0, fun _ => ()⟩⟩

/-- An entry that is repeated puts columns with different rows into one group, and without columns
an array is too short. -/
theorem decompose_fails :
    twice.Valid 1 2 ∧ (¬Meets (SparseMatrix_decompose_to_supervariables twice)
      (fun (nc, cluster, clusterp) => Decomposed twice 1 2 nc cluster clusterp) fun _ => False) ∧
    noColumns.Valid 1 0 ∧
      SparseMatrix_decompose_to_supervariables noColumns = .error .segfault := by
  refine ⟨⟨rfl, rfl, by decide, rfl, by decide, rfl, by decide, by decide, by decide⟩, fun h => ?_,
    ⟨rfl, rfl, by decide, rfl, by decide, rfl, by decide, by decide, by decide⟩, rfl⟩
  change Decomposed twice 1 2 1 _ _ at h
  have hsame := (h.same 0 (by decide) 1 (by decide)).1 ⟨0, by decide, by decide, by decide⟩ 0
    zero_lt_one
  revert hsame
  decide

end Graphviz.Sparse
