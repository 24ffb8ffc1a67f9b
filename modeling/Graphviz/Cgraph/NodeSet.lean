import Graphviz.Library.OpenAddressing

/-!
# The set of the nodes of a graph

`node_set_t` of `lib/cgraph/node.c`: an open-addressing hash table of nodes by their identifiers,
with the range of the identifiers added so far. The table itself, which `refstr.c` has as well, is
`OpenAddressing.Table`; its summary is the range.
-/

namespace Graphviz

open OpenAddressing

/-- `IDTYPE`. -/
abbrev IDTYPE := UInt64

/-- `min_initialized`, `min` and `max` of `node_set_t`. -/
structure IdRange where
  min_initialized : Bool
  min : IDTYPE
  max : IDTYPE

/-- The update of the lower bound in `node_set_add`. -/
def IdRange.lower (r : IdRange) (id : IDTYPE) : IdRange :=
  if !r.min_initialized || id < r.min then { r with min_initialized := true, min := id } else r

/-- The update of the upper bound in `node_set_add`. -/
def IdRange.raise (r : IdRange) (id : IDTYPE) : IdRange :=
  if id > r.max then { r with max := id } else r

/-- The test at the start of `node_set_find`: no node with the identifier has been added. -/
def IdRange.excludes (r : IdRange) (key : IDTYPE) : Bool :=
  r.min_initialized && key < r.min || key > r.max

variable {α : Type} (AGID : α → IDTYPE)

/-- Once noted, an identifier is within the range. -/
structure IdRange.Covers (r : IdRange) (id : IDTYPE) : Prop where
  initialized : r.min_initialized = true
  min_le : r.min ≤ id
  le_max : id ≤ r.max

theorem IdRange.lower_spec (r : IdRange) (id : IDTYPE) :
    (r.lower id).min_initialized = true ∧ (r.lower id).min ≤ id ∧ (r.lower id).max = r.max ∧
      (r.min_initialized = true → (r.lower id).min ≤ r.min) := by
  unfold lower
  split
  · rename_i h
    refine ⟨rfl, UInt64.le_refl _, rfl, fun hr => ?_⟩
    rw [hr, Bool.not_true, Bool.false_or, decide_eq_true_eq] at h
    exact UInt64.le_of_lt h
  · rename_i h
    rw [Bool.or_eq_true, not_or, Bool.not_eq_true', Bool.not_eq_false, decide_eq_true_eq] at h
    exact ⟨h.1, UInt64.not_lt.1 h.2, rfl, fun _ => UInt64.le_refl _⟩

theorem IdRange.raise_spec (r : IdRange) (id : IDTYPE) :
    (r.raise id).min_initialized = r.min_initialized ∧ (r.raise id).min = r.min ∧
      id ≤ (r.raise id).max ∧ r.max ≤ (r.raise id).max := by
  unfold raise
  split
  · rename_i h
    exact ⟨rfl, rfl, UInt64.le_refl _, UInt64.le_of_lt h⟩
  · rename_i h
    exact ⟨rfl, rfl, UInt64.not_lt.1 h, UInt64.le_refl _⟩

theorem IdRange.covers_note (r : IdRange) (id : IDTYPE) : ((r.lower id).raise id).Covers id := by
  obtain ⟨hinit, hmin, -, -⟩ := r.lower_spec id
  obtain ⟨hinit', hmin', hmax, -⟩ := (r.lower id).raise_spec id
  exact ⟨hinit'.trans hinit, hmin' ▸ hmin, hmax⟩

theorem IdRange.Covers.keep {r : IdRange} {id' : IDTYPE} (h : r.Covers id') (id : IDTYPE) :
    ((r.lower id).raise id).Covers id' := by
  obtain ⟨hinit, -, hmax, hmin⟩ := r.lower_spec id
  obtain ⟨hinit', hmin', -, hmax'⟩ := (r.lower id).raise_spec id
  refine ⟨hinit'.trans hinit, ?_, ?_⟩
  · rw [hmin']
    exact UInt64.le_trans (hmin h.initialized) h.min_le
  · exact UInt64.le_trans h.le_max (hmax ▸ hmax')

theorem IdRange.Covers.not_excludes {r : IdRange} {id : IDTYPE} (h : r.Covers id) :
    r.excludes id = false := by
  rw [excludes, Bool.or_eq_false_iff, Bool.and_eq_false_iff, decide_eq_false_iff_not,
    decide_eq_false_iff_not]
  exact ⟨.inr (UInt64.not_lt.2 h.min_le), UInt64.not_lt.2 h.le_max⟩

/-! ## The functions -/

/-- The nodes of a set are found by their identifiers, whose hashes are themselves. -/
def nodeSetConfig : Config α IDTYPE IdRange where
  key := AGID
  hash := UInt64.toNat
  init := { min_initialized := false, min := 0, max := 0 }
  note := fun r item => (r.lower (AGID item)).raise (AGID item)
  Covers := fun r item => r.Covers (AGID item)
  covers_note := fun r item => r.covers_note (AGID item)
  covers_keep := fun _ item _ h => h.keep (AGID item)

/-- `node_set_t`. -/
abbrev NodeSet (α : Type) := Table α IdRange

/-- `node_set_new`. -/
def nodeSetNew : NodeSet α := Table.new (nodeSetConfig AGID)

/-- `node_set_add`. -/
def nodeSetAdd (self : NodeSet α) (item : α) : Except Failure (NodeSet α) :=
  self.add (nodeSetConfig AGID) item

/-- `node_set_find`. -/
def nodeSetFind (self : NodeSet α) (key : IDTYPE) : Option α :=
  if self.summary.excludes key then none
  else (self.find (nodeSetConfig AGID) key).map Prod.snd

/-- `node_set_remove`. -/
def nodeSetRemove (self : NodeSet α) (item : IDTYPE) : Except Failure (NodeSet α) :=
  self.remove (nodeSetConfig AGID) item

/-- `node_set_size`. -/
def nodeSetSize (self : NodeSet α) : ℕ := self.size

/-! ## Runs -/

/-- A change of a set. -/
inductive NodeSetOp (α : Type) where
  | add (item : α)
  | remove (id : IDTYPE)

/-- A change, by the functions. -/
def NodeSetOp.step (self : NodeSet α) : NodeSetOp α → Except Failure (NodeSet α)
  | .add item => nodeSetAdd AGID self item
  | .remove id => nodeSetRemove AGID self id

/-- The nodes added and not removed since, the latest first. -/
def NodeSetOp.apply (l : List α) : NodeSetOp α → List α
  | .add item => item :: l
  | .remove id => l.filter (AGID · ≠ id)

/-- Each node added has an identifier that no node then present has. -/
def AddsNew (l : List α) : List (NodeSetOp α) → Prop
  | [] => True
  | op :: ops => (∀ item, op = .add item → ∀ a ∈ l, AGID a ≠ AGID item) ∧
      AddsNew (op.apply AGID l) ops

variable {AGID}

/-- A change keeps the set as it is to be. -/
theorem nodeSet_step {self : NodeSet α} {l : List α} {op : NodeSetOp α}
    (h : Holds (nodeSetConfig AGID) self l)
    (hnew : ∀ item, op = .add item → ∀ a ∈ l, AGID a ≠ AGID item) :
    ∃ self', op.step AGID self = .ok self' ∧
      Holds (nodeSetConfig AGID) self' (op.apply AGID l) := by
  cases op with
  | add item =>
    refine h.add fun hmem => ?_
    obtain ⟨a, ha, hid⟩ := List.mem_map.1 hmem
    exact hnew item rfl a ha hid
  | remove id => exact h.remove

theorem nodeSet_run {self : NodeSet α} {l : List α} {ops : List (NodeSetOp α)}
    (h : Holds (nodeSetConfig AGID) self l) (hnew : AddsNew AGID l ops) :
    ∃ self', ops.foldlM (NodeSetOp.step AGID) self = .ok self' ∧
      Holds (nodeSetConfig AGID) self' (ops.foldl (NodeSetOp.apply AGID) l) := by
  induction ops generalizing self l with
  | nil => exact ⟨self, rfl, h⟩
  | cons op ops ih =>
    obtain ⟨self1, hstep, h1⟩ := nodeSet_step h hnew.1
    obtain ⟨self2, hrun, h2⟩ := ih h1 hnew.2
    exact ⟨self2, by rw [List.foldlM_cons, hstep]; exact hrun, h2⟩

/-- The nodes that a search finds are the ones of the list. -/
theorem nodeSetFind_eq {self : NodeSet α} {l : List α} (h : Holds (nodeSetConfig AGID) self l)
    (key : IDTYPE) : nodeSetFind AGID self key = l.find? (AGID · = key) := by
  rw [nodeSetFind]
  split
  · rename_i hout
    refine (List.find?_eq_none.2 fun a ha hkey => ?_).symm
    have hin := (h.covered a ha).not_excludes
    rw [show AGID a = key by simpa using hkey] at hin
    rw [hin] at hout
    cases hout
  · exact h.find_eq

/-- Whatever is added and removed, a set finds the nodes added and not removed since and no others,
counts them, has their identifiers within its range, and does not run out of slots. -/
theorem node_set_correct {ops : List (NodeSetOp α)} (hnew : AddsNew AGID [] ops) :
    ∃ self, ops.foldlM (NodeSetOp.step AGID) (nodeSetNew AGID) = .ok self ∧
      nodeSetSize self = (ops.foldl (NodeSetOp.apply AGID) []).length ∧
      (∀ key, nodeSetFind AGID self key =
        (ops.foldl (NodeSetOp.apply AGID) []).find? (AGID · = key)) ∧
      ∀ a ∈ ops.foldl (NodeSetOp.apply AGID) [], self.summary.excludes (AGID a) = false := by
  obtain ⟨self, hrun, h⟩ := nodeSet_run holds_new hnew
  exact ⟨self, hrun, h.size, nodeSetFind_eq h, fun a ha => (h.covered a ha).not_excludes⟩

/-- Two nodes of one slot, of which the first is removed, and a third. -/
theorem node_set_correct_collision :
    ∃ self, [.add 5, .add 1029, .remove 5, .add 7].foldlM (NodeSetOp.step id) (nodeSetNew id) =
        .ok self ∧ nodeSetSize self = 2 ∧
      (∀ key, nodeSetFind id self key = [7, 1029].find? (id · = key)) ∧
      ∀ a ∈ [7, 1029], self.summary.excludes (id a) = false := by
  have hnew : AddsNew id [] [.add (5 : IDTYPE), .add 1029, .remove 5, .add 7] := by
    simp [AddsNew, NodeSetOp.apply]
  exact node_set_correct hnew

end Graphviz
