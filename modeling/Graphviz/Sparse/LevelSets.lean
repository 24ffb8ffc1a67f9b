import Graphviz.Library.LevelOrder
import Graphviz.Sparse.Supervariables

/-!
# Level sets

`SparseMatrix_level_sets` searches the graph of a matrix from a root, level by level. The vertices
are put into one array as they are found, from an offset on, and the mask has one more than the
level of each; it is given from call to call. Another array says where the levels start.
-/

namespace Graphviz.Sparse

open LevelOrder List Nat Outcome

variable {α : Type}

/-- `UNMASKED`. -/
def UNMASKED : Int := -10

/-- The variables of `SparseMatrix_level_sets`. -/
structure LevelVars where
  nlevel : Nat
  levelset_ptr : Buf Nat
  levelset : Buf Nat
  mask : Buf Int
  nz : Nat
  sta : Nat
  sto : Nat

/-- The body of the innermost loop: an entry `c` of row `ii`. The array `levelset` is used from the
offset on. -/
def visit (off ii : Nat) (s : LevelVars) (c : Nat) : Except Fault LevelVars :=
  if ii = c then .ok s
  else do
    let k ← s.mask.get c
    if k < 0 then do
      let levelset ← s.levelset.set (off + s.nz) c
      let mask ← s.mask.set c (s.nlevel + 1)
      .ok { s with levelset, mask, nz := s.nz + 1 }
    else .ok s

/-- The loop over the vertices of a level. -/
def scanLevel (A : SparseMatrix α) (off : Nat) (s : LevelVars) : Except Fault LevelVars :=
  (List.range' s.sta (s.sto - s.sta)).foldlM (fun s i => do
    let ii ← s.levelset.get (off + i)
    forRow A ii (fun s c _ => visit off ii s c) s) s

/-- `while (sto > sta)`. -/
def scanLevels (A : SparseMatrix α) (off : Nat) : Nat → LevelVars → Except Fault LevelVars
  | 0, _ => .error .fuel
  | fuel + 1, s =>
    if s.sta < s.sto then do
      let s ← scanLevel A off s
      let levelset_ptr ← s.levelset_ptr.set (s.nlevel + 1) s.nz
      scanLevels A off fuel
        { s with nlevel := s.nlevel + 1, levelset_ptr, sta := s.sto, sto := s.nz }
    else .ok s

/-- What `SparseMatrix_level_sets` gives to its caller. -/
structure Levels where
  nlevel : Nat
  levelset_ptr : Buf Nat
  levelset : Buf Nat
  mask : Buf Int

/-- The mask, which is allocated if it is `NULL`. -/
def allocMask (m : Nat) : Option (Buf Int) → Except Fault (Buf Int)
  | some mask => .ok mask
  | none => (List.range' 0 m).foldlM (fun mask i => mask.set i UNMASKED) (.calloc m : Buf Int)

/-- `(*mask)[(*levelset)[i]] = UNMASKED` for the first `n` vertices. -/
def unmask (off n : Nat) (levelset : Buf Nat) (mask : Buf Int) : Except Fault (Buf Int) :=
  (List.range' 0 n).foldlM (fun mask i => do
    let v ← levelset.get (off + i)
    mask.set v UNMASKED) mask

/-- The end of `SparseMatrix_level_sets`. -/
def finishLevels (off : Nat) (reinitialize_mask : Bool) (s : LevelVars) : Except Fault Levels := do
  let nlevel := s.nlevel - 1
  if reinitialize_mask then do
    let n ← s.levelset_ptr.get nlevel
    let mask ← unmask off n s.levelset s.mask
    .ok ⟨nlevel, s.levelset_ptr, s.levelset, mask⟩
  else .ok ⟨nlevel, s.levelset_ptr, s.levelset, s.mask⟩

/-- `SparseMatrix_level_sets`. An array that is `NULL` is allocated; `off` is the offset of the
pointer to `levelset` in its array. -/
def SparseMatrix_level_sets (A : SparseMatrix α) (root : Nat)
    (levelset_ptr levelset : Option (Buf Nat)) (off : Nat) (mask : Option (Buf Int))
    (reinitialize_mask : Bool) : Except Fault Levels := do
  let levelset_ptr := levelset_ptr.getD (.calloc (A.m + 2))
  let levelset := levelset.getD (.calloc A.m)
  let mask ← allocMask A.m mask
  assert (root < A.m)
  let levelset_ptr ← levelset_ptr.set 0 0
  let levelset_ptr ← levelset_ptr.set 1 1
  let levelset ← levelset.set (off + 0) root
  let mask ← mask.set root 1
  let s ← scanLevels A off (A.m + 1) ⟨1, levelset_ptr, levelset, mask, 1, 0, 1⟩
  finishLevels off reinitialize_mask s

/-- The graph of a matrix: two vertices are adjacent if there is an entry at their place. -/
def SparseMatrix.graph (A : SparseMatrix α) (n : Nat) : SimpleGraph Nat :=
  .fromRel fun i j => i < n ∧ j ∈ A.cols i

/-- The pattern of a matrix is symmetric. -/
def SparseMatrix.SymmetricPattern (A : SparseMatrix α) (n : Nat) : Prop :=
  ∀ i < n, ∀ j ∈ A.cols i, i ∈ A.cols j

/-- What a call is given: the mask has room for `m` vertices and none that is reached from the root
is masked, and the array has room for these from the offset on. -/
structure Callable (G : SimpleGraph Nat) (m root off : Nat) (levelset : Buf Nat) (mask : Buf Int) :
    Prop where
  root_lt : root < m
  mask_size : m ≤ mask.size
  unmasked : ∀ v, G.Reachable root v → mask.cell v < 0
  room : ∀ L : List Nat, L.Nodup → (∀ v ∈ L, G.Reachable root v) → off + L.length ≤ levelset.size

/-- What a call gives, when the arrays were `levelset` and `mask`: a vertex is in a level exactly if
it is at that distance from the root, and the levels have no vertex twice. -/
structure LevelSets (G : SimpleGraph Nat) (m root off : Nat) (levelset : Buf Nat) (mask : Buf Int)
    (reinitialize_mask : Bool) (r : Levels) : Prop where
  ptr_size : m + 2 ≤ r.levelset_ptr.size
  levelset_size : r.levelset.size = levelset.size
  mask_size : r.mask.size = mask.size
  nlevel_le : r.nlevel ≤ m
  first : r.levelset_ptr.cell 0 = 0
  mono : ∀ d < r.nlevel, r.levelset_ptr.cell d ≤ r.levelset_ptr.cell (d + 1)
  nodup : ((List.range' off (r.levelset_ptr.cell r.nlevel)).map r.levelset.cell).Nodup
  level : ∀ d < r.nlevel, ∀ v, (∃ p, r.levelset_ptr.cell d ≤ p ∧ p < r.levelset_ptr.cell (d + 1) ∧
    r.levelset.cell (off + p) = v) ↔ G.edist root v = d
  reached : ∀ v, G.Reachable root v → ∃ d < r.nlevel, G.edist root v = d
  outside : ∀ p, p < off ∨ off + r.levelset_ptr.cell r.nlevel ≤ p →
    r.levelset.cell p = levelset.cell p
  masked : ∀ v, ∀ d : Nat, G.edist root v = d →
    r.mask.cell v = if reinitialize_mask then UNMASKED else d + 1
  unmasked : ∀ v, ¬ G.Reachable root v → r.mask.cell v = mask.cell v

variable {A : SparseMatrix α} {G : SimpleGraph Nat} {m n root off l ii c : Nat}
  {levelset : Buf Nat} {mask : Buf Int} {old new : List Nat} {s : LevelVars}

/-! ## The graph of a matrix -/

theorem SparseMatrix.Valid.mem_cols (h : A.Valid m n) {i j : Nat} (hi : i < m)
    (hj : j ∈ A.cols i) : j < n := by
  obtain ⟨k, hk, rfl⟩ := mem_map.1 hj
  exact h.col_lt hi hk

/-- Two vertices are adjacent if there is an entry at their place. -/
theorem SparseMatrix.graph_adj (hA : A.Valid n n) (hsym : A.SymmetricPattern n) {i j : Nat} :
    (A.graph n).Adj i j ↔ i ≠ j ∧ i < n ∧ j ∈ A.cols i := by
  rw [graph, SimpleGraph.fromRel_adj, and_congr_right_iff]
  refine fun _ => ⟨?_, .inl⟩
  rintro (h | ⟨hj, h⟩)
  · exact h
  · exact ⟨hA.mem_cols hj h, hsym j hj i h⟩

/-- What is reached from a vertex of the matrix is a vertex of the matrix. -/
theorem SparseMatrix.reachable_lt (hA : A.Valid n n) (hsym : A.SymmetricPattern n) {i j : Nat}
    (hi : i < n) (h : (A.graph n).Reachable i j) : j < n := by
  rw [SimpleGraph.reachable_iff_reflTransGen] at h
  induction h with
  | refl => exact hi
  | tail _ hadj _ =>
    obtain ⟨-, hlt, hmem⟩ := (graph_adj hA hsym).1 hadj
    exact hA.mem_cols hlt hmem

theorem length_le_of_lt {L : List Nat} (hL : L.Nodup) (hlt : ∀ v ∈ L, v < n) : L.length ≤ n := by
  have hsub : L.Subperm (List.range n) :=
    hL.subperm fun v hv => mem_range.2 (hlt v hv)
  exact hsub.length_le.trans_eq length_range

/-- A place before the last pointer is between two pointers. -/
theorem exists_between {f : Nat → Nat} {p : Nat} (h₀ : f 0 = 0) (hp : p < f n) :
    ∃ d < n, f d ≤ p ∧ p < f (d + 1) := by
  induction n with
  | zero => omega
  | succ n ih =>
    obtain hlt | hge := lt_or_ge p (f n)
    · obtain ⟨d, hd, h⟩ := ih hlt
      exact ⟨d, by omega, h⟩
    · exact ⟨n, lt_succ_self n, hge, hp⟩

/-- The vertices that have been found are in the array. -/
theorem getElem?_of_cells {b : Buf Nat} {L : List Nat} {k p : Nat}
    (h : (List.range' off k).map b.cell = L) (hp : p < k) : L[p]? = some (b.cell (off + p)) := by
  rw [← h, getElem?_map, getElem?_range' hp, Option.map_some, one_mul]

theorem mem_append_of_subset {new' : List Nat} {v : Nat} (h : new ⊆ new') (hv : v ∈ old ++ new) :
    v ∈ old ++ new' :=
  mem_append.2 ((mem_append.1 hv).imp_right fun hv => h hv)

/-! ## Searching a level -/

/-- While the vertices at distance `l` are gone through: those at distance up to `l` are `old`, and
`new` of the next level have been found. -/
structure Scanning (G : SimpleGraph Nat) (m root off : Nat) (levelset : Buf Nat) (mask : Buf Int)
    (l : Nat) (old new : List Nat) (s : LevelVars) : Prop where
  nlevel : s.nlevel = l + 1
  sto : s.sto = old.length
  nz : s.nz = old.length + new.length
  levelset_size : s.levelset.size = levelset.size
  mask_size : s.mask.size = mask.size
  found : Found G root (l + 1) old new
  cells : (List.range' off s.nz).map s.levelset.cell = old ++ new
  outside : ∀ p, p < off ∨ off + s.nz ≤ p → s.levelset.cell p = levelset.cell p
  masked : ∀ v ∈ old ++ new, ∀ d : Nat, G.edist root v = d → s.mask.cell v = d + 1
  unmasked : ∀ v, v ∉ old ++ new → s.mask.cell v = mask.cell v

/-- What has been found is in the mask. -/
theorem Scanning.mem_iff (h : Scanning G m root off levelset mask l old new s)
    (hc : Callable G m root off levelset mask) {v : Nat} (hv : G.Reachable root v) :
    v ∈ old ++ new ↔ ¬ s.mask.cell v < 0 := by
  constructor
  · intro hmem
    obtain ⟨d, -, hd⟩ := h.found.edist hmem
    rw [h.masked v hmem d hd]
    omega
  · intro hneg
    by_contra hmem
    rw [h.unmasked v hmem] at hneg
    exact hneg (hc.unmasked v hv)

/-- A neighbour that is found. -/
theorem Scanning.push (h : Scanning G m root off levelset mask l old new s)
    (hi : G.edist root ii = l) (hadj : G.Adj ii c) (hnew : c ∉ old ++ new) :
    Scanning G m root off levelset mask l old (new ++ [c]) { s with
      levelset := s.levelset.upd (off + s.nz) c
      mask := s.mask.upd c (s.nlevel + 1)
      nz := s.nz + 1 } := by
  have hdist := h.found.edist_adj hi hadj hnew
  refine ⟨h.nlevel, h.sto, ?_, h.levelset_size, h.mask_size, h.found.push hi hadj hnew, ?_,
    fun p hp => ?_, fun v hv d hd => ?_, fun v hv => ?_⟩
  · rw [length_append, length_singleton, ← add_assoc, ← h.nz]
  · have hold : (List.range' off s.nz).map (s.levelset.upd (off + s.nz) c).cell = old ++ new := by
      refine (map_congr_left fun p hp => ?_).trans h.cells
      rw [mem_range'_1] at hp
      exact Buf.upd_cell_ne (by omega)
    rw [range'_concat, map_append, hold, map_singleton, one_mul, Buf.upd_cell_self, append_assoc]
  · dsimp only at hp ⊢
    rw [Buf.upd_cell_ne (by omega)]
    exact h.outside p (by omega)
  · rw [← append_assoc] at hv
    obtain hv | hv := mem_append.1 hv
    · have hne : v ≠ c := fun heq => hnew (heq ▸ hv)
      exact (Buf.upd_cell_ne hne).trans (h.masked v hv d hd)
    · obtain rfl := mem_singleton.1 hv
      rw [hd, Nat.cast_inj] at hdist
      rw [hdist, h.nlevel]
      exact Buf.upd_cell_self
  · rw [← append_assoc, mem_append, not_or, mem_singleton] at hv
    exact (Buf.upd_cell_ne hv.2).trans (h.unmasked v hv.1)

/-- The variables that a level leaves alone. -/
def LevelVars.Same (s s' : LevelVars) : Prop :=
  s'.levelset_ptr = s.levelset_ptr ∧ s'.sta = s.sta

/-- An entry of the row of a vertex at distance `l`. -/
theorem Scanning.visit (h : Scanning G m root off levelset mask l old new s)
    (hc : Callable G m root off levelset mask) (hm : ∀ v, G.Reachable root v → v < m)
    (hi : G.edist root ii = l) (hadj : ii ≠ c → G.Adj ii c) :
    Meets (visit off ii s c) (fun s' => ∃ new', new ⊆ new' ∧
      Scanning G m root off levelset mask l old new' s' ∧ s.Same s' ∧
      (G.Adj ii c → c ∈ old ++ new')) fun _ => False := by
  rw [Sparse.visit]
  split
  next heq => exact ⟨new, fun _ => id, h, ⟨rfl, rfl⟩, fun hadj => absurd heq hadj.ne⟩
  next hne =>
    have hadj := hadj hne
    have hreach := (reachable_of_edist hi).trans hadj.reachable
    have hmask : c < s.mask.size :=
      ((hm c hreach).trans_le hc.mask_size).trans_eq h.mask_size.symm
    refine Buf.meets_get hmask ?_
    split
    next hneg =>
      have hnew : c ∉ old ++ new := fun hmem => (h.mem_iff hc hreach).1 hmem hneg
      have hpush := h.push hi hadj hnew
      have hroom := hc.room (old ++ (new ++ [c])) hpush.found.nodup
        fun v hv => hpush.found.reachable hv
      have hnz := h.nz
      rw [length_append, length_append, length_singleton, ← h.levelset_size]
        at hroom
      refine Buf.meets_set (by omega) (Buf.meets_set hmask ?_)
      exact ⟨new ++ [c], subset_append_left _ _, hpush, ⟨rfl, rfl⟩, fun _ => by simp⟩
    next hpos =>
      exact ⟨new, fun _ => id, h, ⟨rfl, rfl⟩, fun _ => (h.mem_iff hc hreach).2 hpos⟩

/-- The row of a vertex at distance `l`. -/
theorem Scanning.row (hA : A.Valid m m) (hsym : A.SymmetricPattern m)
    (h : Scanning (A.graph m) m root off levelset mask l old new s)
    (hc : Callable (A.graph m) m root off levelset mask) (hi : (A.graph m).edist root ii = l) :
    Meets (forRow A ii (fun s c _ => Sparse.visit off ii s c) s) (fun s' => ∃ new', new ⊆ new' ∧
      Scanning (A.graph m) m root off levelset mask l old new' s' ∧ s.Same s' ∧
      ∀ c, (A.graph m).Adj ii c → c ∈ old ++ new') fun _ => False := by
  have hlt : ∀ v, (A.graph m).Reachable root v → v < m :=
    fun v hv => SparseMatrix.reachable_lt hA hsym hc.root_lt hv
  have hii := hlt ii (reachable_of_edist hi)
  rw [hA.forRow_eq hii]
  refine (Meets.foldlM (fun rest s' => ∃ done, A.cells ii = done ++ rest ∧ ∃ new', new ⊆ new' ∧
    Scanning (A.graph m) m root off levelset mask l old new' s' ∧ s.Same s' ∧
    ∀ j ∈ done, (A.graph m).Adj ii (A.ja.cell j) → A.ja.cell j ∈ old ++ new')
    (fun j rest s' ⟨done, hdone, new', hsub, hs', hsame, hall⟩ => ?_) s
    ⟨[], rfl, new, fun _ => id, h, ⟨rfl, rfl⟩, nofun⟩).imp
    fun s' ⟨done, hdone, new', hsub, hs', hsame, hall⟩ => ⟨new', hsub, hs', hsame, fun c hadj => ?_⟩
  · have hj : j ∈ A.cells ii := by rw [hdone]; simp
    refine (hs'.visit hc hlt hi fun hne => ?_).imp
      fun s'' ⟨new'', hsub', hs'', hsame', hin⟩ => ⟨done ++ [j], by rw [hdone]; simp, new'',
        List.Subset.trans hsub hsub', hs'', ⟨hsame'.1.trans hsame.1, hsame'.2.trans hsame.2⟩,
        fun k hk hadj => ?_⟩
    · exact (SparseMatrix.graph_adj hA hsym).2 ⟨hne, hii, mem_map_of_mem hj⟩
    · obtain hk | hk := mem_append.1 hk
      · exact mem_append_of_subset hsub' (hall k hk hadj)
      · rw [mem_singleton.1 hk] at hadj ⊢
        exact hin hadj
  · rw [append_nil] at hdone
    obtain ⟨-, -, hmem⟩ := (SparseMatrix.graph_adj hA hsym).1 hadj
    obtain ⟨j, hj, rfl⟩ := mem_map.1 hmem
    exact hall j (hdone ▸ hj) hadj

/-- The vertices in the array, with the pointers to where the levels up to `l` start. -/
structure Levelled (G : SimpleGraph Nat) (m root off : Nat) (levelset : Buf Nat) (mask : Buf Int)
    (l : Nat) (old : List Nat) (s : LevelVars) : Prop where
  scanning : Scanning G m root off levelset mask l old [] s
  ptr_size : m + 2 ≤ s.levelset_ptr.size
  first : s.levelset_ptr.cell 0 = 0
  sta : s.levelset_ptr.cell l = s.sta
  sto : s.levelset_ptr.cell (l + 1) = s.sto
  le : l ≤ s.sta
  mono : ∀ d ≤ l, s.levelset_ptr.cell d ≤ s.levelset_ptr.cell (d + 1)
  level : ∀ d ≤ l, ∀ p, s.levelset_ptr.cell d ≤ p → p < s.levelset_ptr.cell (d + 1) →
    ∀ v, old[p]? = some v → G.edist root v = d

theorem Levelled.ptr_le (h : Levelled G m root off levelset mask l old s) {d d' : Nat} (hd : d ≤ d')
    (hd' : d' ≤ l + 1) : s.levelset_ptr.cell d ≤ s.levelset_ptr.cell d' := by
  induction d', hd using le_induction with
  | base => exact le_refl _
  | succ d' _ ih => exact (ih (by omega)).trans (h.mono d' (by omega))

/-- A vertex at distance `d` is at one of the places that are gone through. -/
theorem Levelled.exists_place (h : Levelled G m root off levelset mask l old s) {v d : Nat}
    (hd : d ≤ l) (hv : G.edist root v = d) : ∃ p, s.levelset_ptr.cell d ≤ p ∧
      p < s.levelset_ptr.cell (d + 1) ∧ old[p]? = some v := by
  have hmem : v ∈ old := (h.scanning.found.mem_old v).2 ⟨d, by omega, hv⟩
  obtain ⟨p, hp, hpv⟩ := mem_iff_getElem.1 hmem
  have hpv : old[p]? = some v := by rw [getElem?_eq_getElem hp, hpv]
  obtain ⟨d', hd', hlo, hhi⟩ := exists_between (n := l + 1) h.first
    (by rw [h.sto, h.scanning.sto]; exact hp)
  have heq := h.level d' (by omega) p hlo hhi v hpv
  rw [hv, Nat.cast_inj] at heq
  exact heq ▸ ⟨p, hlo, hhi, hpv⟩

/-- The loop over the vertices of a level finds the next one. -/
theorem Levelled.scan (hA : A.Valid m m) (hsym : A.SymmetricPattern m)
    (h : Levelled (A.graph m) m root off levelset mask l old s)
    (hc : Callable (A.graph m) m root off levelset mask) :
    Meets (scanLevel A off s) (fun s' => ∃ new,
      Scanning (A.graph m) m root off levelset mask l old new s' ∧ s.Same s' ∧
      ∀ v, (A.graph m).edist root v = l → ∀ w, (A.graph m).Adj v w → w ∈ old ++ new)
      fun _ => False := by
  have hroom := hc.room old (by simpa using h.scanning.found.nodup)
    fun v hv => h.scanning.found.reachable (mem_append_left [] hv)
  have hsto := h.scanning.sto
  rw [scanLevel]
  refine (Meets.range' _ s.sta _ (fun k s' => ∃ new,
    Scanning (A.graph m) m root off levelset mask l old new s' ∧ s.Same s' ∧
    ∀ p, s.sta ≤ p → p < s.sta + k → ∀ v, old[p]? = some v → ∀ w, (A.graph m).Adj v w →
      w ∈ old ++ new) (fun k hk s' ⟨new, hs', hsame, hall⟩ => ?_) s
    ⟨[], h.scanning, ⟨rfl, rfl⟩, fun p hlo hhi => absurd hlo (by omega)⟩).imp
    fun s' ⟨new, hs', hsame, hall⟩ => ⟨new, hs', hsame, fun v hv w hadj => ?_⟩
  · have hsize := hs'.levelset_size
    have hnz := hs'.nz
    have hplace : s.sta + k < old.length := by omega
    have hget : old[s.sta + k]? = some (s'.levelset.cell (off + (s.sta + k))) := by
      rw [← getElem?_of_cells hs'.cells (by omega), getElem?_append_left hplace]
    have hdist := h.level l (le_refl l) (s.sta + k) (by rw [h.sta]; omega)
      (by rw [h.sto]; omega) _ hget
    refine Buf.meets_get (by omega) ?_
    refine (hs'.row hA hsym hc hdist).imp fun s'' ⟨new', hsub, hs'', hsame', hin⟩ =>
      ⟨new', hs'', ⟨hsame'.1.trans hsame.1, hsame'.2.trans hsame.2⟩, fun p hlo hhi v hv w hadj => ?_⟩
    obtain hlt | rfl := Nat.lt_succ_iff_lt_or_eq.1 hhi
    · exact mem_append_of_subset hsub (hall p hlo hlt v hv w hadj)
    · rw [show s.sta.add k = s.sta + k from rfl, hget, Option.some_inj] at hv
      exact hin w (hv ▸ hadj)
  · obtain ⟨p, hlo, hhi, hpv⟩ := h.exists_place (le_refl l) hv
    rw [h.sta] at hlo
    rw [h.sto] at hhi
    exact hall p hlo (by omega) v hpv w hadj

/-- The next level. -/
theorem Levelled.next (h : Levelled G m root off levelset mask l old s) (hlt : s.sta < s.sto)
    {s' : LevelVars} (hs' : Scanning G m root off levelset mask l old new s') (hsame : s.Same s')
    (hdone : ∀ v, G.edist root v = l → ∀ w, G.Adj v w → w ∈ old ++ new) :
    Levelled G m root off levelset mask (l + 1) (old ++ new) { s' with
      nlevel := s'.nlevel + 1
      levelset_ptr := s'.levelset_ptr.upd (s'.nlevel + 1) s'.nz
      sta := s'.sto
      sto := s'.nz } := by
  have hle := h.le
  have hsto := hs'.sto.trans h.scanning.sto.symm
  have hnz := hs'.nz
  have hlast : (s'.levelset_ptr.upd (s'.nlevel + 1) s'.nz).cell (l + 2) = s'.nz := by
    rw [hs'.nlevel]
    exact Buf.upd_cell_self
  have hptr : ∀ d ≤ l + 1, (s'.levelset_ptr.upd (s'.nlevel + 1) s'.nz).cell d =
      s.levelset_ptr.cell d := by
    intro d hd
    rw [hs'.nlevel, Buf.upd_cell_ne (by omega), hsame.1]
  have hmono : s.levelset_ptr.cell (l + 1) ≤ s'.nz := by
    rw [h.sto, h.scanning.sto]
    omega
  refine ⟨⟨by rw [hs'.nlevel], ?_, ?_, hs'.levelset_size, hs'.mask_size, hs'.found.next hdone, ?_,
    hs'.outside, ?_, ?_⟩, ?_, ?_, ?_, hlast, ?_, fun d hd => ?_, fun d hd p hlo hhi v hv => ?_⟩
  · rw [length_append, ← hnz]
  · rw [length_append, ← hnz]
    rfl
  · rw [append_nil]
    exact hs'.cells
  · rw [append_nil]
    exact hs'.masked
  · rw [append_nil]
    exact hs'.unmasked
  · have hsize := h.ptr_size
    rwa [← hsame.1] at hsize
  · exact (hptr 0 (zero_le _)).trans h.first
  · exact (hptr (l + 1) (le_refl _)).trans (h.sto.trans hsto.symm)
  · dsimp only
    omega
  · dsimp only
    obtain hlt | rfl := lt_or_eq_of_le hd
    · rw [hptr d (by omega), hptr (d + 1) (by omega)]
      exact h.mono d (by omega)
    · rw [hptr (l + 1) (le_refl _), hlast]
      exact hmono
  · dsimp only at hlo hhi
    rw [hptr d hd] at hlo
    obtain hlt | rfl := lt_or_eq_of_le hd
    · rw [hptr (d + 1) (by omega)] at hhi
      refine h.level d (by omega) p hlo hhi v ?_
      have hmono := h.ptr_le (show d + 1 ≤ l + 1 by omega) (le_refl _)
      rw [h.sto, h.scanning.sto] at hmono
      rwa [getElem?_append_left (by omega)] at hv
    · rw [h.sto, h.scanning.sto] at hlo
      rw [getElem?_append_right hlo] at hv
      exact hs'.found.mem_new v (mem_of_getElem? hv)

theorem Levelled.length_le (hA : A.Valid m m) (hsym : A.SymmetricPattern m)
    (hc : Callable (A.graph m) m root off levelset mask)
    (h : Scanning (A.graph m) m root off levelset mask l old new s) : (old ++ new).length ≤ m :=
  length_le_of_lt h.found.nodup fun _ hv =>
    SparseMatrix.reachable_lt hA hsym hc.root_lt (h.found.reachable hv)

/-- The search ends, with a level that is empty. -/
theorem Levelled.run (hA : A.Valid m m) (hsym : A.SymmetricPattern m)
    (hc : Callable (A.graph m) m root off levelset mask) {fuel : Nat} (hfuel : fuel + l = m + 1)
    (h : Levelled (A.graph m) m root off levelset mask l old s) :
    Meets (scanLevels A off fuel s) (fun s' => ∃ l old,
      Levelled (A.graph m) m root off levelset mask l old s' ∧ s'.sto ≤ s'.sta) fun _ => False := by
  have hlength := Levelled.length_le hA hsym hc h.scanning
  rw [append_nil, ← h.scanning.sto] at hlength
  have hle := h.le
  have hmono := h.mono l (le_refl l)
  rw [h.sta, h.sto] at hmono
  induction fuel generalizing l old s with
  | zero => omega
  | succ fuel ih =>
    rw [scanLevels]
    split
    next hlt =>
      refine (h.scan hA hsym hc).bind fun s' ⟨new, hs', hsame, hdone⟩ => ?_
      have hnext := h.next hlt hs' hsame hdone
      have hlength' := Levelled.length_le hA hsym hc hnext.scanning
      have hmono' := hnext.mono (l + 1) (le_refl _)
      rw [append_nil, ← hnext.scanning.sto] at hlength'
      rw [hnext.sta, hnext.sto] at hmono'
      have hsize := h.ptr_size
      rw [← hsame.1] at hsize
      have hroom : s'.nlevel + 1 < s'.levelset_ptr.size := by
        rw [hs'.nlevel]
        omega
      exact Buf.meets_set hroom (ih (by omega) hnext hlength' hnext.le hmono')
    next hge => exact ⟨l, old, h, by omega⟩

/-- `reinitialize_mask`: what has been found is no longer in the mask. -/
theorem unmask_spec {k : Nat} {levelset : Buf Nat} {mask : Buf Int}
    (hcells : (List.range' off k).map levelset.cell = old) (hsize : off + k ≤ levelset.size)
    (hlt : ∀ v ∈ old, v < mask.size) :
    Meets (unmask off k levelset mask) (fun mask' => mask'.size = mask.size ∧
      (∀ v ∈ old, mask'.cell v = UNMASKED) ∧ ∀ v, v ∉ old → mask'.cell v = mask.cell v)
      fun _ => False := by
  rw [unmask]
  refine (Meets.range' _ 0 k (fun i mask' => mask'.size = mask.size ∧
    (∀ p < i, mask'.cell (levelset.cell (off + p)) = UNMASKED) ∧
    ∀ v, v ∉ old → mask'.cell v = mask.cell v) (fun i hi mask' ⟨hs, hin, hout⟩ => ?_) mask
    ⟨rfl, nofun, fun _ _ => rfl⟩).imp fun mask' ⟨hs, hin, hout⟩ => ⟨hs, fun v hv => ?_, hout⟩
  · have hmem : levelset.cell (off + i) ∈ old := by
      rw [← hcells]
      exact mem_map_of_mem (mem_range'_1.2 (by omega))
    rw [zero_add]
    refine Buf.meets_get (by omega) ?_
    rw [Buf.set_eq (by rw [hs]; exact hlt _ hmem)]
    refine ⟨hs, fun p hp => ?_, fun v hv => ?_⟩
    · rw [Buf.upd_cell]
      split
      next => rfl
      next hne =>
        obtain hp | rfl := Nat.lt_succ_iff_lt_or_eq.1 hp
        · exact hin p hp
        · exact absurd rfl hne
    · rw [Buf.upd_cell_ne fun heq : v = levelset.cell (off + i) => hv (heq ▸ hmem)]
      exact hout v hv
  · rw [← hcells] at hv
    obtain ⟨p, hp, rfl⟩ := mem_map.1 hv
    rw [mem_range'_1] at hp
    have := hin (p - off) (by omega)
    rwa [Nat.add_sub_cancel' hp.1] at this

/-- The levels that a search has found. -/
theorem Levelled.finish (hA : A.Valid m m) (hsym : A.SymmetricPattern m)
    (hc : Callable (A.graph m) m root off levelset mask)
    (h : Levelled (A.graph m) m root off levelset mask l old s) (hend : s.sto ≤ s.sta)
    (reinitialize_mask : Bool) :
    Meets (finishLevels off reinitialize_mask s)
      (LevelSets (A.graph m) m root off levelset mask reinitialize_mask) fun _ => False := by
  have hlength := Levelled.length_le hA hsym hc h.scanning
  have hnz := h.scanning.nz
  have hsto := h.scanning.sto
  have hptr := h.sta
  have hlast := h.sto
  have hmono := h.mono l (le_refl l)
  have hle := h.le
  have hlevel : s.nlevel - 1 = l := by rw [h.scanning.nlevel, Nat.add_sub_cancel]
  rw [length_append, ← hnz] at hlength
  rw [length_nil, add_zero] at hnz
  have hcount : s.levelset_ptr.cell l = s.nz := by omega
  have hcells : (List.range' off s.nz).map s.levelset.cell = old := by
    rw [h.scanning.cells, append_nil]
  have hempty : ∀ v, (A.graph m).edist root v ≠ l := by
    intro v hv
    obtain ⟨p, hlo, hhi, -⟩ := h.exists_place (le_refl l) hv
    omega
  have hreached : ∀ v, (A.graph m).Reachable root v →
      ∃ d < l, (A.graph m).edist root v = d := by
    intro v hv
    obtain ⟨d, hd⟩ := exists_edist hv
    exact ⟨d, edist_lt_of_empty hempty hd, hd⟩
  have hmem : ∀ v, v ∈ old ↔ (A.graph m).Reachable root v := by
    intro v
    refine ⟨fun hv => h.scanning.found.reachable (mem_append_left [] hv), fun hv => ?_⟩
    obtain ⟨d, hd, hv⟩ := hreached v hv
    exact (h.scanning.found.mem_old v).2 ⟨d, by omega, hv⟩
  have hroom := hc.room old (by simpa using h.scanning.found.nodup) fun v hv => (hmem v).1 hv
  -- what does not depend on the mask
  have hsets : ∀ mask' : Buf Int, mask'.size = mask.size →
      (∀ v, ∀ d : Nat, (A.graph m).edist root v = d →
        mask'.cell v = if reinitialize_mask then UNMASKED else d + 1) →
      (∀ v, ¬ (A.graph m).Reachable root v → mask'.cell v = mask.cell v) →
      LevelSets (A.graph m) m root off levelset mask reinitialize_mask
        ⟨l, s.levelset_ptr, s.levelset, mask'⟩ := by
    intro mask' hsize hin hout
    refine ⟨h.ptr_size, h.scanning.levelset_size, hsize, ?_, h.first,
      fun d hd => h.mono d hd.le, ?_, fun d hd v => ⟨?_, fun hv => ?_⟩, hreached, fun p hp => ?_,
      hin, hout⟩
    · dsimp only
      omega
    · dsimp only
      rw [hcount, hcells]
      simpa using h.scanning.found.nodup
    · rintro ⟨p, hlo, hhi, rfl⟩
      have hbound := h.ptr_le (show d + 1 ≤ l + 1 by dsimp only at hd; omega) (le_refl _)
      dsimp only at hd hhi
      exact h.level d hd.le p hlo hhi _ (getElem?_of_cells hcells (by omega))
    · obtain ⟨p, hlo, hhi, hpv⟩ := h.exists_place hd.le hv
      have hbound := h.ptr_le (show d + 1 ≤ l + 1 by dsimp only at hd; omega) (le_refl _)
      rw [getElem?_of_cells hcells (by omega), Option.some_inj] at hpv
      exact ⟨p, hlo, hhi, hpv⟩
    · dsimp only at hp
      rw [hcount] at hp
      exact h.scanning.outside p hp
  have hmask := h.scanning.mask_size
  rw [finishLevels, hlevel]
  split
  next hre =>
    have hsize := h.ptr_size
    refine Buf.meets_get (by omega) ?_
    rw [hcount]
    refine (unmask_spec hcells (by rw [h.scanning.levelset_size]; omega) fun v hv => ?_).bind
      fun mask' ⟨hs, hin, hout⟩ => hsets mask' (hs.trans hmask) (fun v d hd => ?_) fun v hv => ?_
    · have := hc.mask_size
      have := SparseMatrix.reachable_lt hA hsym hc.root_lt ((hmem v).1 hv)
      omega
    · rw [if_pos hre]
      exact hin v ((hmem v).2 (reachable_of_edist hd))
    · rw [hout v (fun hv' => hv ((hmem v).1 hv'))]
      exact h.scanning.unmasked v (by rw [append_nil, hmem]; exact hv)
  next hre =>
    refine hsets s.mask hmask (fun v d hd => ?_) fun v hv => ?_
    · rw [if_neg hre]
      exact h.scanning.masked v (mem_append_left [] ((hmem v).2 (reachable_of_edist hd))) d hd
    · exact h.scanning.unmasked v (by rw [append_nil, hmem]; exact hv)

/-- A search begins with the root. -/
theorem Levelled.start (hc : Callable G m root off levelset mask) {levelset_ptr : Buf Nat}
    (hptr : m + 2 ≤ levelset_ptr.size) :
    Levelled G m root off levelset mask 0 [root] ⟨1, (levelset_ptr.upd 0 0).upd 1 1,
      levelset.upd (off + 0) root, mask.upd root 1, 1, 0, 1⟩ := by
  refine ⟨⟨rfl, rfl, rfl, rfl, rfl, .start G root, ?_, fun p hp => ?_, fun v hv d hd => ?_,
    fun v hv => ?_⟩, hptr, ?_, ?_, Buf.upd_cell_self, le_refl 0, fun d hd => ?_,
    fun d hd p hlo hhi v hv => ?_⟩
  · simp
  · dsimp only at hp
    exact Buf.upd_cell_ne (by omega)
  · obtain rfl : v = root := by simpa using hv
    rw [SimpleGraph.edist_self] at hd
    obtain rfl : 0 = d := cast_inj.1 hd
    exact Buf.upd_cell_self
  · exact Buf.upd_cell_ne fun heq => hv (by simp [heq])
  · exact (Buf.upd_cell_ne (by omega)).trans Buf.upd_cell_self
  · exact (Buf.upd_cell_ne (by omega)).trans Buf.upd_cell_self
  · obtain rfl := le_zero.1 hd
    rw [Buf.upd_cell_self, Buf.upd_cell_ne (by omega), Buf.upd_cell_self]
    exact zero_le 1
  · obtain rfl := le_zero.1 hd
    rw [Buf.upd_cell_self] at hhi
    obtain rfl : p = 0 := by omega
    obtain rfl : root = v := by simpa using hv
    exact SimpleGraph.edist_self

/-- `SparseMatrix_level_sets` for a matrix with a symmetric pattern. -/
theorem level_sets_spec (hA : A.Valid m m) (hsym : A.SymmetricPattern m)
    {levelset_ptr : Option (Buf Nat)} {levelset? : Option (Buf Nat)} {mask? : Option (Buf Int)}
    (hptr : ∀ b ∈ levelset_ptr, m + 2 ≤ b.size) (hmask : allocMask m mask? = .ok mask)
    (hc : Callable (A.graph m) m root off (levelset?.getD (.calloc m)) mask)
    (reinitialize_mask : Bool) :
    Meets (SparseMatrix_level_sets A root levelset_ptr levelset? off mask? reinitialize_mask)
      (LevelSets (A.graph m) m root off (levelset?.getD (.calloc m)) mask reinitialize_mask)
      fun _ => False := by
  have hptr : m + 2 ≤ (levelset_ptr.getD (.calloc (m + 2))).size := by
    cases levelset_ptr with
    | none => exact le_refl _
    | some b => exact hptr b rfl
  have hroot := hc.root_lt
  have hsize := hc.mask_size
  have hroom := hc.room [root] (nodup_singleton root)
    fun v hv => mem_singleton.1 hv ▸ SimpleGraph.Reachable.rfl
  rw [length_singleton] at hroom
  rw [SparseMatrix_level_sets, hA.rows, hmask, ok_bind]
  refine Meets.assert hroot (Buf.meets_set (by omega) (Buf.meets_set (by rw [Buf.upd_size]; omega)
    (Buf.meets_set (by omega) (Buf.meets_set (by omega) ?_))))
  exact ((Levelled.start hc hptr).run hA hsym hc (add_zero _)).bind fun s ⟨l, old, h, hend⟩ =>
    h.finish hA hsym hc hend reinitialize_mask

/-- A mask that is allocated has no vertex. -/
theorem allocMask_none (m : Nat) : Meets (allocMask m none) (fun mask => mask.size = m ∧
    ∀ v < m, mask.cell v = UNMASKED) fun _ => False := by
  rw [allocMask]
  refine Meets.range' _ 0 m (fun k (mask : Buf Int) => mask.size = m ∧ ∀ v < k, mask.cell v = UNMASKED)
    (fun k hk mask ⟨hs, hall⟩ => ?_) _ ⟨rfl, nofun⟩
  rw [zero_add, Buf.set_eq (by omega)]
  refine ⟨hs, fun v hv => ?_⟩
  rw [Buf.upd_cell]
  split
  next => rfl
  next hne => exact hall v (by omega)

end Graphviz.Sparse
