import Mathlib.Data.List.FinRange
import Mathlib.Tactic.Linarith
import Graphviz.Library.Links
import Graphviz.Library.SortedSet
import Graphviz.Util.Fault

/-!
# Constraints that keep rectangles apart

`lib/vpsc/generate-constraints.cpp`, the vertical pass, and what `removeoverlaps` of
`lib/neatogen/quad_prog_vpsc.c` does with it; numbers are exact. A vector of rectangles is a
function of the index, and the node and the variable made for a rectangle are its index. Nodes
that stand at the same position are told apart by their addresses, which are a parameter, and the
order in which `std::sort` leaves the events is one too.
-/

namespace Graphviz.Vpsc

open Outcome

/-- `Rectangle`, with what its constructor asserts. -/
structure Rectangle where
  minX : ℚ
  maxX : ℚ
  minY : ℚ
  maxY : ℚ
  hx : minX ≤ maxX
  hy : minY ≤ maxY

namespace Rectangle

def width (r : Rectangle) : ℚ :=
  r.maxX - r.minX

def height (r : Rectangle) : ℚ :=
  r.maxY - r.minY

def getCentreY (r : Rectangle) : ℚ :=
  r.minY + r.height / 2

end Rectangle

variable {n : ℕ}

/-! ## Events -/

/-- `EventType`. -/
inductive EventType where
  | Open
  | Close
  deriving DecidableEq, Repr

/-- `Event`. -/
structure Event (n : ℕ) where
  type : EventType
  v : Fin n
  pos : ℚ
  deriving DecidableEq

/-- `compare_events`. -/
def compare_events (ea eb : Event n) : Bool :=
  if ea.v = eb.v then ea.type = .Open && eb.type ≠ .Open
  else if ea.pos > eb.pos then false
  else if ea.pos < eb.pos then true
  else false

/-- The events of the vertical pass, in the order in which they are made. -/
def events (rs : Fin n → Rectangle) : List (Event n) :=
  (List.finRange n).flatMap fun i => [⟨.Open, i, (rs i).minX⟩, ⟨.Close, i, (rs i).maxX⟩]

/-- What `std::sort` promises: the same events, none before one that is less. -/
structure Sorts (evs es : List (Event n)) : Prop where
  perm : es.Perm evs
  sorted : es.Pairwise fun a b => compare_events b a = false

/-! ## The scan line -/

/-- `CmpNodePos`, as a comparison: by position, then by address. -/
def CmpNodePos (rs : Fin n → Rectangle) (addr : Fin n ↪ ℕ) (u v : Fin n) : Ordering :=
  if (rs u).getCentreY < (rs v).getCentreY then .lt
  else if (rs v).getCentreY < (rs u).getCentreY then .gt
  else compare (addr u) (addr v)

/-- `Constraint`: `left + gap <= right`. -/
structure Constraint (n : ℕ) where
  left : Fin n
  right : Fin n
  gap : ℚ
  deriving DecidableEq

/-- The variables of `generateYConstraints`, and the links of the nodes. -/
structure Scan (n : ℕ) where
  scanline : List (Fin n)
  firstAbove : Fin n → Option (Fin n)
  firstBelow : Fin n → Option (Fin n)
  constraints : List (Constraint n)

section
variable (rs : Fin n → Rectangle) (addr : Fin n ↪ ℕ)

/-- The part of an `Open` event after the insertion: the node is linked to its neighbours. -/
def linkNode (v : Fin n) (s : Scan n) : Scan n :=
  let s : Scan n := match SortedSet.prev id (CmpNodePos rs addr) v s.scanline with
    | some u => { s with
        firstAbove := Function.update s.firstAbove v (some u)
        firstBelow := Function.update s.firstBelow u (some v) }
    | none => s
  match SortedSet.next id (CmpNodePos rs addr) v s.scanline with
  | some u => { s with
      firstBelow := Function.update s.firstBelow v (some u)
      firstAbove := Function.update s.firstAbove u (some v) }
  | none => s

/-- An `Open` event. -/
def openNode (v : Fin n) (s : Scan n) : Scan n :=
  linkNode rs addr v { s with scanline := SortedSet.insert id (CmpNodePos rs addr) v v s.scanline }

/-- A `Close` event: the constraints with the neighbours, which are linked to each other. -/
def closeNode (v : Fin n) (s : Scan n) : Scan n :=
  let l := s.firstAbove v
  let r := s.firstBelow v
  let s : Scan n := match l with
    | some l => { s with
        constraints := s.constraints ++ [⟨l, v, ((rs v).height + (rs l).height) / 2⟩]
        firstBelow := Function.update s.firstBelow l (s.firstBelow v) }
    | none => s
  let s : Scan n := match r with
    | some r => { s with
        constraints := s.constraints ++ [⟨v, r, ((rs v).height + (rs r).height) / 2⟩]
        firstAbove := Function.update s.firstAbove r (s.firstAbove v) }
    | none => s
  { s with scanline := SortedSet.erase id (CmpNodePos rs addr) v s.scanline }

/-- One round of the loop over the events. -/
def scanStep (s : Scan n) (e : Event n) : Scan n :=
  match e.type with
  | .Open => openNode rs addr e.v s
  | .Close => closeNode rs addr e.v s

/-- The loop over the events. -/
def scan (es : List (Event n)) (s : Scan n) : Scan n :=
  es.foldl (scanStep rs addr) s

/-- What the loop starts from. -/
def Scan.init : Scan n :=
  ⟨[], fun _ => none, fun _ => none, []⟩

/-- `generateYConstraints`, with the events as they are sorted: the desired positions of the
variables, and the constraints. -/
def generateYConstraints (es : List (Event n)) :
    Except Fault ((Fin n → ℚ) × List (Constraint n)) := do
  assert (∀ i, (rs i).width < 10 ^ 40)
  .ok (fun i => (rs i).getCentreY, (scan rs addr es .init).constraints)

end

/-! ## Removing overlaps -/

/-- `boxf`. -/
structure boxf where
  LLx : ℚ
  LLy : ℚ
  URx : ℚ
  URy : ℚ

/-- `ipsep_options`: the sizes of the nodes and the gap between them. -/
structure ipsep_options (n : ℕ) where
  nsizex : Fin n → ℚ
  nsizey : Fin n → ℚ
  gapx : ℚ
  gapy : ℚ

/-- The boxes of `generateNonoverlapConstraints` in the vertical pass of `removeoverlaps`, whose
scale is 1. -/
def nodeBox (opt : ipsep_options n) (coords : (Fin n → ℚ) × (Fin n → ℚ)) (i : Fin n) : boxf where
  LLx := coords.1 i - opt.nsizex i / 2 - opt.gapx / 2
  URx := coords.1 i + opt.nsizex i / 2 + opt.gapx / 2
  LLy := coords.2 i - opt.nsizey i / 2 - opt.gapy / 2
  URy := coords.2 i + opt.nsizey i / 2 + opt.gapy / 2

/-- The rectangles that `genYConstraints` makes of boxes, when the constructor's assertions hold. -/
def boxRects (bb : Fin n → boxf) : Except Fault (Fin n → Rectangle) :=
  if h : ∀ i, (bb i).LLx ≤ (bb i).URx ∧ (bb i).LLy ≤ (bb i).URy then
    .ok fun i => ⟨(bb i).LLx, (bb i).URx, (bb i).LLy, (bb i).URy, (h i).1, (h i).2⟩
  else .error .assertion

/-- An assignment of positions satisfies the constraints. -/
def Satisfies (y : Fin n → ℚ) (cs : List (Constraint n)) : Prop :=
  ∀ c ∈ cs, y c.left + c.gap ≤ y c.right

/-- The second pass of `removeoverlaps`, without clusters: the horizontal coordinates are kept, and
the vertical ones become a solution of the constraints. -/
def removeoverlapsY (opt : ipsep_options n) (addr : Fin n ↪ ℕ)
    (coords coords' : (Fin n → ℚ) × (Fin n → ℚ)) : Prop :=
  ∃ rs es r, boxRects (nodeBox opt coords) = .ok rs ∧ Sorts (events rs) es ∧
    generateYConstraints rs addr es = .ok r ∧ Satisfies coords'.2 r.2 ∧ coords'.1 = coords.1

end Graphviz.Vpsc

/-!
## The scan line of the vertical pass

While the events are processed the links of the open nodes are those of their neighbours on the
scan line. A node that closes leaves constraints with both neighbours, so two nodes that are open
together are kept apart through whichever nodes stand between them when the first of them closes.
-/

namespace Graphviz.Vpsc

open Function List Outcome SortedSet

variable {n : ℕ} {rs : Fin n → Rectangle} {addr : Fin n ↪ ℕ} {s : Scan n}
variable {A B : List (Fin n)} {u v w : Fin n} {es : List (Event n)}

/-! ## The order of the nodes -/

theorem cmpNodePos_lt : CmpNodePos rs addr u v = .lt ↔ (rs u).getCentreY < (rs v).getCentreY ∨
      (rs u).getCentreY = (rs v).getCentreY ∧ addr u < addr v := by
  rw [CmpNodePos]
  obtain h | h | h := lt_trichotomy (rs u).getCentreY (rs v).getCentreY
  · simp [h]
  · simp [h, compare_lt_iff_lt]
  · simp [h, h.not_gt, h.ne']

theorem cmpNodePos_gt : CmpNodePos rs addr u v = .gt ↔ CmpNodePos rs addr v u = .lt := by
  rw [cmpNodePos_lt, CmpNodePos]
  obtain h | h | h := lt_trichotomy (rs u).getCentreY (rs v).getCentreY
  · simp [h, h.not_gt, h.ne']
  · simp [h, compare_gt_iff_gt]
  · simp [h, h.not_gt]

theorem cmpNodePos_eq : CmpNodePos rs addr u v = .eq ↔ u = v := by
  rw [CmpNodePos]
  obtain h | h | h := lt_trichotomy (rs u).getCentreY (rs v).getCentreY
  · have hne : u ≠ v := fun huv => h.ne (by rw [huv])
    simp [h, hne]
  · simp [h]
  · have hne : u ≠ v := fun huv => h.ne (by rw [huv])
    simp [h, h.not_gt, hne]

instance : Std.TransCmp (CmpNodePos rs addr) where
  eq_swap {u v} := by
    cases h : CmpNodePos rs addr v u with
    | lt => exact cmpNodePos_gt.2 h
    | eq => rw [cmpNodePos_eq] at h; subst h; exact cmpNodePos_eq.2 rfl
    | gt => exact cmpNodePos_gt.1 h
  isLE_trans {u v w} huv hvw := by
    have hle : ∀ {a b : Fin n}, (CmpNodePos rs addr a b).isLE = true ↔
        (rs a).getCentreY < (rs b).getCentreY ∨
          (rs a).getCentreY = (rs b).getCentreY ∧ addr a ≤ addr b := by
      intro a b
      rw [Ordering.isLE_iff_eq_lt_or_eq_eq, cmpNodePos_lt, cmpNodePos_eq]
      constructor
      · rintro ((h | h) | rfl)
        · exact Or.inl h
        · exact Or.inr ⟨h.1, h.2.le⟩
        · exact Or.inr ⟨rfl, le_rfl⟩
      · rintro (h | ⟨h, hab⟩)
        · exact Or.inl (Or.inl h)
        · obtain hlt | heq := hab.lt_or_eq
          · exact Or.inl (Or.inr ⟨h, hlt⟩)
          · exact Or.inr (addr.injective heq)
    rw [hle] at huv hvw ⊢
    obtain huv | ⟨huv, huv'⟩ := huv
    · obtain hvw | ⟨hvw, _⟩ := hvw
      · exact Or.inl (huv.trans hvw)
      · exact Or.inl (hvw ▸ huv)
    · obtain hvw | ⟨hvw, hvw'⟩ := hvw
      · exact Or.inl (huv ▸ hvw)
      · exact Or.inr ⟨huv.trans hvw, huv'.trans hvw'⟩

theorem sorted_nodup {S : List (Fin n)} (h : Sorted id (CmpNodePos rs addr) S) : S.Nodup := by
  refine h.imp fun hlt heq => ?_
  rw [id, id, heq, cmpNodePos_eq.2 rfl] at hlt
  cases hlt

/-! ## What an event does -/

/-- A node that opens between `A` and `B` is linked in between them. -/
theorem openNode_spec (hS : Sorted id (CmpNodePos rs addr) s.scanline)
    (hcut : Cut id (CmpNodePos rs addr) v s.scanline A none B)
    (hfresh : s.firstAbove v = none ∧ s.firstBelow v = none) :
    (openNode rs addr v s).scanline = A ++ v :: B ∧
      (openNode rs addr v s).constraints = s.constraints ∧
      (∀ w, (openNode rs addr v s).firstAbove w =
        if B.head? = some w then some v else if w = v then A.getLast? else s.firstAbove w) ∧
      ∀ w, (openNode rs addr v s).firstBelow w =
        if A.getLast? = some w then some v else if w = v then B.head? else s.firstBelow w := by
  have hv : CmpNodePos rs addr v (id v) = .eq := cmpNodePos_eq.2 rfl
  have hcut' := Sorted.cut (hcut.sorted_insert hS hv) hv
  have hvA : ∀ u, A.getLast? = some u → u ≠ v := by
    intro u hu huv
    have := hcut.left u (mem_of_getLast? hu)
    rw [id, huv, cmpNodePos_eq.2 rfl] at this
    cases this
  rw [openNode, linkNode, hcut.insert]
  simp only
  rw [hcut'.prev]
  cases hA : A.getLast? with
  | none =>
    simp only
    rw [hcut'.next]
    cases hB : B.head? with
    | none =>
      refine ⟨rfl, rfl, fun w => ?_, fun w => ?_⟩
      · simp only [reduceCtorEq, if_false]
        split
        next h => rw [h]; exact hfresh.1
        next => rfl
      · simp only [reduceCtorEq, if_false]
        split
        next h => rw [h]; exact hfresh.2
        next => rfl
    | some b =>
      refine ⟨rfl, rfl, fun w => ?_, fun w => ?_⟩
      · simp only [update_apply, Option.some.injEq, eq_comm (a := w)]
        split
        next => rfl
        next =>
          split
          next h => rw [← h]; exact hfresh.1
          next => rfl
      · simp only [update_apply, reduceCtorEq, if_false]
  | some a =>
    simp only
    rw [hcut'.next]
    have hav := hvA a hA
    cases hB : B.head? with
    | none =>
      refine ⟨rfl, rfl, fun w => ?_, fun w => ?_⟩
      · simp only [update_apply, reduceCtorEq, if_false]
      · simp only [update_apply, Option.some.injEq, eq_comm (a := w)]
        split
        next => rfl
        next =>
          split
          next h => rw [← h]; exact hfresh.2
          next => rfl
    | some b =>
      refine ⟨rfl, rfl, fun w => ?_, fun w => ?_⟩
      · simp only [update_apply, Option.some.injEq, eq_comm (a := w)]
      · simp only [update_apply, Option.some.injEq, eq_comm (a := w)]
        split
        next h => rw [if_neg (h ▸ hav)]
        next => rfl

/-- The constraints that a node leaves when it closes. -/
def closing (rs : Fin n → Rectangle) (v : Fin n) (l r : Option (Fin n)) : List (Constraint n) :=
  (l.toList.map fun l => ⟨l, v, ((rs v).height + (rs l).height) / 2⟩) ++
    r.toList.map fun r => ⟨v, r, ((rs v).height + (rs r).height) / 2⟩

/-- A node that closes between `A` and `B` leaves constraints with its neighbours. -/
theorem closeNode_spec (hcut : Cut id (CmpNodePos rs addr) v s.scanline A (some v) B)
    (hA : s.firstAbove v = A.getLast?) (hB : s.firstBelow v = B.head?) :
    (closeNode rs addr v s).scanline = A ++ B ∧ (closeNode rs addr v s).constraints =
        s.constraints ++ closing rs v A.getLast? B.head? ∧
      (∀ w, (closeNode rs addr v s).firstAbove w =
        if B.head? = some w then A.getLast? else s.firstAbove w) ∧
      ∀ w, (closeNode rs addr v s).firstBelow w =
        if A.getLast? = some w then B.head? else s.firstBelow w := by
  rw [closeNode, hA, hB, closing]
  cases hl : A.getLast? with
  | none =>
    cases hr : B.head? with
    | none => exact ⟨hcut.erase, by simp, by simp, by simp⟩
    | some r =>
      refine ⟨hcut.erase, by simp, fun w => ?_, by simp⟩
      simp only [update_apply, hA, hl, Option.some.injEq, eq_comm (a := w)]
  | some l =>
    cases hr : B.head? with
    | none =>
      refine ⟨hcut.erase, by simp, by simp, fun w => ?_⟩
      simp only [update_apply, Option.some.injEq, eq_comm (a := w)]
    | some r =>
      refine ⟨hcut.erase, by simp, fun w => ?_, fun w => ?_⟩
      · simp only [update_apply, hA, hl, Option.some.injEq, eq_comm (a := w)]
      · simp only [update_apply, Option.some.injEq, eq_comm (a := w)]

/-! ## The events -/

/-- The event at which a node opens. -/
def opens (rs : Fin n → Rectangle) (v : Fin n) : Event n :=
  ⟨.Open, v, (rs v).minX⟩

/-- The event at which a node closes. -/
def closes (rs : Fin n → Rectangle) (v : Fin n) : Event n :=
  ⟨.Close, v, (rs v).maxX⟩

/-- What is left of the events: each once, and a node's closing after its opening. -/
structure Schedule (rs : Fin n → Rectangle) (es : List (Event n)) : Prop where
  form : ∀ e ∈ es, e = opens rs e.v ∨ e = closes rs e.v
  nodup : es.Nodup
  order : es.Pairwise fun a b => ¬ ∃ v, a = closes rs v ∧ b = opens rs v
  closed : ∀ v, opens rs v ∈ es → closes rs v ∈ es

theorem opens_ne_closes : opens rs u ≠ closes rs v := by
  intro h
  have := congrArg Event.type h
  cases this

theorem opens_inj : opens rs u = opens rs v ↔ u = v :=
  ⟨fun h => congrArg Event.v h, fun h => h ▸ rfl⟩

theorem closes_inj : closes rs u = closes rs v ↔ u = v :=
  ⟨fun h => congrArg Event.v h, fun h => h ▸ rfl⟩

theorem Schedule.tail {e : Event n} (h : Schedule rs (e :: es)) : Schedule rs es := by
  refine ⟨fun e' he' => h.form e' (mem_cons_of_mem _ he'), h.nodup.of_cons, h.order.of_cons,
    fun v hv => ?_⟩
  have hclose := h.closed v (mem_cons_of_mem _ hv)
  refine (mem_cons.1 hclose).resolve_left fun heq => ?_
  exact (pairwise_cons.1 h.order).1 _ hv ⟨v, heq.symm, rfl⟩

theorem mem_events {e : Event n} : e ∈ events rs ↔ ∃ v, e = opens rs v ∨ e = closes rs v := by
  simp [events, opens, closes]

/-- The events as they are sorted. -/
theorem Sorts.schedule (h : Sorts (events rs) es) : Schedule rs es := by
  refine ⟨fun e he => ?_, h.perm.nodup_iff.2 ?_, h.sorted.imp ?_, fun v _ => ?_⟩
  · obtain ⟨v, rfl | rfl⟩ := mem_events.1 (h.perm.mem_iff.1 he)
    · exact .inl rfl
    · exact .inr rfl
  · refine nodup_flatMap.2 ⟨fun i _ => by simp, ?_⟩
    refine (nodup_finRange n).imp fun {i j} hij => ?_
    simp [onFun, hij.symm]
  · rintro a b hab ⟨v, rfl, rfl⟩
    simp [compare_events, opens, closes] at hab
  · exact h.perm.mem_iff.2 (mem_events.2 ⟨v, .inr rfl⟩)

theorem Sorts.mem_opens (h : Sorts (events rs) es) (v : Fin n) : opens rs v ∈ es :=
  h.perm.mem_iff.2 (mem_events.2 ⟨v, .inl rfl⟩)

/-! ## The invariant -/

/-- Between two events: the scan line is in order and linked, the nodes on it are those that have
opened and not closed, and constraints follow the order of the nodes. -/
structure ScanInv (rs : Fin n → Rectangle) (addr : Fin n ↪ ℕ) (s : Scan n) (es : List (Event n)) :
    Prop where
  sorted : Sorted id (CmpNodePos rs addr) s.scanline
  links : Links.Linked s.scanline s.firstAbove s.firstBelow
  mem : ∀ v, v ∈ s.scanline ↔ opens rs v ∉ es ∧ closes rs v ∈ es
  fresh : ∀ v, opens rs v ∈ es → s.firstAbove v = none ∧ s.firstBelow v = none
  ordered : ∀ c ∈ s.constraints, CmpNodePos rs addr c.left c.right = .lt

theorem ScanInv.init (h : ∀ v, opens rs v ∈ es) : ScanInv rs addr .init es :=
  ⟨Pairwise.nil, .nil, fun v => ⟨nofun, fun hv => absurd (h v) hv.1⟩, fun _ _ => ⟨rfl, rfl⟩,
    nofun⟩

/-- A node that is about to close, taken out of the scan line. -/
theorem ScanInv.cut_close (h : ScanInv rs addr s es) (hv : v ∈ s.scanline) :
    ∃ A B, Cut id (CmpNodePos rs addr) v s.scanline A (some v) B ∧ s.scanline = A ++ v :: B := by
  obtain ⟨A, B, hAB⟩ := append_of_mem hv
  refine ⟨A, B, ?_, hAB⟩
  have hS := h.sorted
  rw [hAB] at hS ⊢
  exact Sorted.cut hS (cmpNodePos_eq.2 rfl)

theorem ScanInv.cut_open (h : ScanInv rs addr s es) (hv : v ∉ s.scanline) :
    ∃ A B, Cut id (CmpNodePos rs addr) v s.scanline A none B ∧ s.scanline = A ++ B := by
  obtain ⟨A, m, B, hcut⟩ := h.sorted.exists_cut v
  cases m with
  | none => exact ⟨A, B, hcut, hcut.eq⟩
  | some u =>
    obtain rfl : v = u := cmpNodePos_eq.1 (hcut.mid u rfl)
    exact absurd (by rw [hcut.eq]; simp) hv

/-- The scan line and the constraints after an event. -/
inductive Stepped (rs : Fin n → Rectangle) (s s' : Scan n) : Event n → Prop
  | opened (v : Fin n) (A B : List (Fin n)) : s.scanline = A ++ B → s'.scanline = A ++ v :: B →
      s'.constraints = s.constraints → Stepped rs s s' (opens rs v)
  | closed (v : Fin n) (A B : List (Fin n)) : s.scanline = A ++ v :: B → s'.scanline = A ++ B →
      s'.constraints = s.constraints ++ closing rs v A.getLast? B.head? →
      Stepped rs s s' (closes rs v)

/-- An event keeps the invariant. -/
theorem ScanInv.step {e : Event n} (hes : Schedule rs (e :: es)) (h : ScanInv rs addr s (e :: es)) :
    ScanInv rs addr (scanStep rs addr s e) es ∧ Stepped rs s (scanStep rs addr s e) e := by
  obtain ⟨hnotin, _⟩ := nodup_cons.1 hes.nodup
  obtain ⟨v, rfl | rfl⟩ : ∃ v, e = opens rs v ∨ e = closes rs v := ⟨e.v, hes.form e mem_cons_self⟩
  · have hv : v ∉ s.scanline := fun hv => ((h.mem v).1 hv).1 mem_cons_self
    obtain ⟨A, B, hcut, hAB⟩ := h.cut_open hv
    obtain ⟨hline, hcons, habove, hbelow⟩ :=
      openNode_spec h.sorted hcut (h.fresh v mem_cons_self)
    have hsorted := hcut.sorted_insert h.sorted (cmpNodePos_eq.2 rfl)
    have hlinks := h.links
    rw [hAB] at hlinks
    have hstep : scanStep rs addr s (opens rs v) = openNode rs addr v s := rfl
    rw [hstep]
    refine ⟨⟨hline ▸ hsorted, hline ▸ hlinks.insert (sorted_nodup hsorted) habove hbelow,
      fun w => ?_, fun w hw => ?_, hcons ▸ h.ordered⟩, .opened v A B hAB hline hcons⟩
    · rw [hline]
      have hw := h.mem w
      simp only [mem_cons, opens_inj, opens_ne_closes.symm, false_or, hAB] at hw
      by_cases hwv : w = v
      · subst hwv
        have hclose := (hes.closed w mem_cons_self)
        simp only [mem_cons, opens_ne_closes.symm, false_or] at hclose
        simp [hnotin, hclose]
      · simp only [hwv, false_or, mem_append, mem_cons] at hw ⊢
        exact hw
    · have hwv : w ≠ v := fun hwv => hnotin (hwv ▸ hw)
      have hnot : w ∉ A ++ B := fun hmem =>
        ((h.mem w).1 (hAB ▸ hmem)).1 (mem_cons_of_mem _ hw)
      have hBw : B.head? ≠ some w := fun hB => hnot (mem_append_right _ (mem_of_head? hB))
      have hAw : A.getLast? ≠ some w := fun hA =>
        hnot (mem_append_left _ (mem_of_getLast? hA))
      rw [habove, hbelow, if_neg hBw, if_neg hAw, if_neg hwv, if_neg hwv]
      exact h.fresh w (mem_cons_of_mem _ hw)
  · have hnot : opens rs v ∉ es := fun hv =>
      (pairwise_cons.1 hes.order).1 _ hv ⟨v, rfl, rfl⟩
    have hv : v ∈ s.scanline := (h.mem v).2
      ⟨fun hv => hnot ((mem_cons.1 hv).resolve_left opens_ne_closes), mem_cons_self⟩
    obtain ⟨A, B, hcut, hAB⟩ := h.cut_close hv
    have hlinks := h.links
    rw [hAB] at hlinks
    obtain ⟨hline, hcons, habove, hbelow⟩ := closeNode_spec hcut hlinks.at.1 hlinks.at.2
    have hnodup : (A ++ v :: B).Nodup := hAB ▸ sorted_nodup h.sorted
    have hstep : scanStep rs addr s (closes rs v) = closeNode rs addr v s := rfl
    rw [hstep]
    refine ⟨⟨hline ▸ hcut.sorted_erase h.sorted, hline ▸ hlinks.remove hnodup habove hbelow,
      fun w => ?_, fun w hw => ?_, ?_⟩, .closed v A B hAB hline hcons⟩
    · rw [hline]
      have hw := h.mem w
      simp only [mem_cons, closes_inj, opens_ne_closes, false_or, hAB, mem_append] at hw
      by_cases hwv : w = v
      · subst hwv
        have hA : w ∉ A ++ B := (nodup_cons.1 (nodup_middle.1 hnodup)).1
        simp [hA, hnotin]
      · simp only [hwv, false_or, mem_append] at hw ⊢
        exact hw
    · have hnot : w ∉ s.scanline := fun hmem =>
        ((h.mem w).1 hmem).1 (mem_cons_of_mem _ hw)
      have hBw : B.head? ≠ some w := fun hB => hnot (by
        rw [hAB]
        exact mem_append_right _ (mem_cons_of_mem _ (mem_of_head? hB)))
      have hAw : A.getLast? ≠ some w := fun hA => hnot (by
        rw [hAB]
        exact mem_append_left _ (mem_of_getLast? hA))
      rw [habove, hbelow, if_neg hBw, if_neg hAw]
      exact h.fresh w (mem_cons_of_mem _ hw)
    · intro c hc
      rw [hcons] at hc
      obtain hc | hc := mem_append.1 hc
      · exact h.ordered c hc
      · obtain hc | hc := mem_append.1 hc
        · obtain ⟨l, hl, rfl⟩ := mem_map.1 hc
          have hl := hcut.left l (mem_of_getLast? (Option.mem_toList.1 hl))
          exact cmpNodePos_gt.1 hl
        · obtain ⟨r, hr, rfl⟩ := mem_map.1 hc
          exact hcut.right r (mem_of_head? (Option.mem_toList.1 hr))

/-- A run of events keeps the invariant, and constraints stay. -/
theorem ScanInv.run {pre post : List (Event n)} (hes : Schedule rs (pre ++ post))
    (h : ScanInv rs addr s (pre ++ post)) :
    ScanInv rs addr (scan rs addr pre s) post ∧ Schedule rs post := by
  induction pre generalizing s with
  | nil => exact ⟨h, hes⟩
  | cons e pre ih => exact ih hes.tail (h.step hes).1

theorem ScanInv.run_all (hes : Schedule rs es) (h : ScanInv rs addr s es) :
    ScanInv rs addr (scan rs addr es s) [] := by
  rw [← append_nil es] at hes h
  rw [← append_nil es]
  simpa using (h.run hes).1

theorem ScanInv.constraints_subset (hes : Schedule rs es) (h : ScanInv rs addr s es)
    {c : Constraint n} (hc : c ∈ s.constraints) : c ∈ (scan rs addr es s).constraints := by
  induction es generalizing s with
  | nil => exact hc
  | cons e es ih =>
    obtain ⟨hinv, hstep⟩ := h.step hes
    refine ih hes.tail hinv ?_
    cases hstep with
    | opened v A B _ _ hcons => rw [hcons]; exact hc
    | closed v A B _ _ hcons => rw [hcons]; exact mem_append_left _ hc

/-! ## Separation -/

/-- Half of the heights of two rectangles together. -/
def halfHeights (rs : Fin n → Rectangle) (u v : Fin n) : ℚ :=
  ((rs u).height + (rs v).height) / 2

/-- Positions that are apart from a node between are apart from each other. -/
theorem halfHeights_trans {y : Fin n → ℚ} (hw : 0 ≤ (rs w).height)
    (huw : halfHeights rs u w ≤ y w - y u) (hwv : halfHeights rs w v ≤ y v - y w) :
    halfHeights rs u v ≤ y v - y u := by
  simp only [halfHeights] at *
  linarith

/-- The constraint of a closing node with the one before it. -/
theorem closing_left {y : Fin n → ℚ} {l r : Option (Fin n)}
    (hy : Satisfies y (closing rs w l r)) (hl : l = some u) : halfHeights rs u w ≤ y w - y u := by
  have hc := hy ⟨u, w, ((rs w).height + (rs u).height) / 2⟩ (by simp [closing, hl])
  rw [halfHeights]
  linarith

/-- The constraint of a closing node with the one after it. -/
theorem closing_right {y : Fin n → ℚ} {l r : Option (Fin n)}
    (hy : Satisfies y (closing rs w l r)) (hr : r = some v) : halfHeights rs w v ≤ y v - y w := by
  have hc := hy ⟨w, v, ((rs w).height + (rs v).height) / 2⟩ (by simp [closing, hr])
  rw [halfHeights]
  linarith

/-- The positions keep the nodes of the list apart. -/
def Apart (rs : Fin n → Rectangle) (addr : Fin n ↪ ℕ) (y : Fin n → ℚ) (S : List (Fin n)) : Prop :=
  ∀ u ∈ S, ∀ v ∈ S, CmpNodePos rs addr u v = .lt → halfHeights rs u v ≤ y v - y u

/-- A node is apart from all others when it is apart from its neighbours, and the others are apart
from each other. -/
theorem Apart.insert {y : Fin n → ℚ} (h : Apart rs addr y (A ++ B))
    (hS : Sorted id (CmpNodePos rs addr) (A ++ w :: B)) (hheight : ∀ i, 0 ≤ (rs i).height)
    (hy : Satisfies y (closing rs w A.getLast? B.head?)) : Apart rs addr y (A ++ w :: B) := by
  have hcut := Sorted.cut hS (k := w) (cmpNodePos_eq.2 rfl)
  obtain ⟨hAA, hwB, _⟩ := pairwise_append.1 hS
  have hBB := (pairwise_cons.1 hwB).2
  have hmem : ∀ {x}, x ∈ A ++ w :: B → x = w ∨ x ∈ A ++ B := fun hx => by
    simp only [mem_append, mem_cons] at hx ⊢
    exact hx.elim (fun h => .inr (.inl h)) (Or.imp id .inr)
  intro u hu v hv huv
  obtain rfl | hu' := hmem hu
  · -- the nodes after it, through the first of them
    have hvB : v ∈ B := by
      obtain hv | hv := mem_append.1 hv
      · have hgt := hcut.left v hv
        rw [id, huv] at hgt
        cases hgt
      · refine (mem_cons.1 hv).resolve_left fun hvu => ?_
        rw [hvu, cmpNodePos_eq.2 rfl] at huv
        cases huv
    cases B with
    | nil => cases hvB
    | cons b B =>
      have hb := closing_right hy rfl
      cases hvB with
      | head => exact hb
      | tail _ hvB =>
        have hbv : CmpNodePos rs addr b v = .lt := (pairwise_cons.1 hBB).1 v hvB
        exact halfHeights_trans (hheight b) hb
          (h b (by simp) v (mem_append_right _ (mem_cons_of_mem _ hvB)) hbv)
  · obtain rfl | hv' := hmem hv
    · -- the nodes before it, through the last of them
      have huA : u ∈ A := by
        refine (mem_append.1 hu').resolve_right fun huB => ?_
        have hlt := hcut.right u huB
        rw [id, cmpNodePos_gt.2 huv] at hlt
        cases hlt
      obtain rfl | ⟨A, a, rfl⟩ := A.eq_nil_or_concat'
      · cases huA
      · have ha := closing_left hy (getLast?_concat ..)
        obtain huA | huA := mem_append.1 huA
        · have hua : CmpNodePos rs addr u a = .lt :=
            (pairwise_append.1 hAA).2.2 u huA a mem_cons_self
          exact halfHeights_trans (hheight a) (h u (by simp [huA]) a (by simp) hua) ha
        · rw [mem_singleton.1 huA]
          exact ha
    · exact h u hu' v hv' huv

/-- Nodes that are open together are kept apart by the constraints that are still to come. -/
theorem ScanInv.apart (hes : Schedule rs es) (h : ScanInv rs addr s es)
    (hheight : ∀ i, 0 ≤ (rs i).height) {y : Fin n → ℚ}
    (hy : Satisfies y (scan rs addr es s).constraints) : Apart rs addr y s.scanline := by
  induction es generalizing s with
  | nil => exact fun u hu => absurd ((h.mem u).1 hu).2 not_mem_nil
  | cons e es ih =>
    obtain ⟨hinv, hstep⟩ := h.step hes
    have hrest := ih hes.tail hinv hy
    cases hstep with
    | opened w A B hAB hline _ =>
      have hsub : ∀ x ∈ s.scanline, x ∈ (scanStep rs addr s (opens rs w)).scanline := by
        intro x hx
        rw [hAB, mem_append] at hx
        rw [hline]
        simp only [mem_append, mem_cons]
        exact hx.imp id .inr
      exact fun u hu v hv => hrest u (hsub u hu) v (hsub v hv)
    | closed w A B hAB hline hcons =>
      have hclosing : Satisfies y (closing rs w A.getLast? B.head?) := fun c hc =>
        hy c (hinv.constraints_subset hes.tail (hcons ▸ mem_append_right _ hc))
      have hsorted := h.sorted
      rw [hline] at hrest
      rw [hAB] at hsorted ⊢
      exact hrest.insert hsorted hheight hclosing

end Graphviz.Vpsc
