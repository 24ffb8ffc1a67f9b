import Graphviz.Common.Geom
import Graphviz.Library.Raster
import Graphviz.Util.Fault
import Graphviz.Util.Libc

/-!
# The pages of a drawing (`common/emit.c`)

A drawing that does not fit on a page is spread over an array of pages. `init_job_pagination` finds
the size of the array and the order in which its pages are emitted, `firstpage`, `validpage` and
`nextpage` walk through it, and `setup_page` finds what part of the drawing is on a page. Numbers
are exact.
-/

namespace Graphviz.Paging

open Outcome

/-- `point`. -/
structure point where
  x : ℤ
  y : ℤ
  deriving DecidableEq

/-- `box`. -/
structure box where
  LL : point
  UR : point
  deriving DecidableEq

/-- What of the context is about pages. -/
structure GVC_t where
  graph_sets_pageSize : Bool
  pageSize : pointf
  pagedir : CStr

/-- What of a job is about pages. `DOES_PAGES`, `EVENTS` and `Y_GOES_DOWN` are flags of the device
and the renderer; `default_pagesize` is there if the renderer has features. -/
structure GVJ_t where
  DOES_PAGES : Bool
  EVENTS : Bool
  Y_GOES_DOWN : Bool
  default_pagesize : Option pointf
  rotation : Bool
  view : pointf
  margin : pointf
  pad : pointf
  dpi : pointf
  zoom : ℚ
  focus : pointf
  numPages : ℤ
  pagesArraySize : point
  pagesArrayFirst : point
  pagesArrayMajor : point
  pagesArrayMinor : point
  pagesArrayElem : point
  width : ℤ
  height : ℤ
  pageSize : pointf
  canvasBox : boxf
  pageBoundingBox : box
  pageBox : boxf
  clip : boxf
  translation : pointf

/-- `add_point`. -/
def add_point (p q : point) : point :=
  ⟨p.x + q.x, p.y + q.y⟩

/-- `exch_xy`. -/
def exch_xy (p : point) : point :=
  ⟨p.y, p.x⟩

/-- `exch_xyf`. -/
def exch_xyf (p : pointf) : pointf :=
  ⟨p.y, p.x⟩

/-- `scale`. -/
def scale (c : ℚ) (p : pointf) : pointf :=
  ⟨c * p.x, c * p.y⟩

/-- `EPSILON`. -/
def EPSILON : ℚ := 1 / 10000

/-- `POINTS_PER_INCH`. -/
def POINTS_PER_INCH : ℚ := 72

/-- The part of `init_gvc` that sets `pagedir` from the attribute. -/
def pagedirOf (p : Option CStr) : CStr :=
  match p with
  | some p => if p ≠ [] then p else lit "BL"
  | none => lit "BL"

/-- A byte of a string, or its terminator. -/
def byteAt (s : CStr) (i : ℕ) : UInt8 :=
  s.getD i 0

/-- `pagecode`: the step in a direction; the array of pages is entered from the other end. -/
def pagecode (job : GVJ_t) (c : UInt8) : GVJ_t × point :=
  if c = 84 then -- 'T'
    ({ job with pagesArrayFirst := { job.pagesArrayFirst with y := job.pagesArraySize.y - 1 } },
      ⟨0, -1⟩)
  else if c = 66 then (job, ⟨0, 1⟩) -- 'B'
  else if c = 76 then (job, ⟨1, 0⟩) -- 'L'
  else if c = 82 then -- 'R'
    ({ job with pagesArrayFirst := { job.pagesArrayFirst with x := job.pagesArraySize.x - 1 } },
      ⟨-1, 0⟩)
  else (job, ⟨0, 0⟩)

/-- The number of pages along one side. -/
def pagesAlong (imageSize pageSize : ℚ) : ℤ :=
  if pageSize < EPSILON then 1
  else
    let n := toInt (imageSize / pageSize)
    if EPSILON < imageSize - n * pageSize then n + 1 else n

/-- The part of `init_job_pagination` that sets up the directions. -/
def setupPagedir (job : GVJ_t) (pagedir : CStr) : GVJ_t :=
  let job := { job with pagesArrayFirst := ⟨0, 0⟩ }
  let (job, major) := pagecode job (byteAt pagedir 0)
  let (job, minor) := pagecode job (byteAt pagedir 1)
  if |major.x + minor.x| ≠ 1 ∨ |major.y + minor.y| ≠ 1 then
    let (job, major) := pagecode job 66
    let (job, minor) := pagecode job 76
    { job with pagesArrayMajor := major, pagesArrayMinor := minor }
  else { job with pagesArrayMajor := major, pagesArrayMinor := minor }

/-- The pagination: the size of the array, the size of a page, and of the image on it. -/
def paginate (gvc : GVC_t) (job : GVJ_t) : point × pointf × pointf :=
  let imageSize := if job.rotation then exch_xyf job.view else job.view
  if gvc.graph_sets_pageSize ∧ job.DOES_PAGES then
    let pageSize := sub_pointf gvc.pageSize (scale 2 job.margin)
    (⟨pagesAlong imageSize.x pageSize.x, pagesAlong imageSize.y pageSize.y⟩, pageSize,
      ⟨min imageSize.x pageSize.x, min imageSize.y pageSize.y⟩)
  else
    let pageSize : pointf := match job.default_pagesize with
      | some size =>
        let pageSize := sub_pointf size (scale 2 job.margin)
        ⟨max pageSize.x 0, max pageSize.y 0⟩
      | none => ⟨0, 0⟩
    (⟨1, 1⟩, ⟨max pageSize.x imageSize.x, max pageSize.y imageSize.y⟩, imageSize)

/-- `init_job_pagination`. -/
def init_job_pagination (gvc : GVC_t) (job : GVJ_t) (centered : Bool) : GVJ_t :=
  let margin := job.margin
  let (pagesArraySize, pageSize, imageSize) := paginate gvc job
  let job := { job with pagesArraySize, numPages := pagesArraySize.x * pagesArraySize.y }
  let job := { job with
    width := cround ((pageSize.x + 2 * margin.x) * job.dpi.x / POINTS_PER_INCH)
    height := cround ((pageSize.y + 2 * margin.y) * job.dpi.y / POINTS_PER_INCH) }
  let job := setupPagedir job gvc.pagedir
  let centering : pointf :=
    ⟨if centered ∧ imageSize.x < pageSize.x then (pageSize.x - imageSize.x) / 2 else 0,
      if centered ∧ imageSize.y < pageSize.y then (pageSize.y - imageSize.y) / 2 else 0⟩
  -- back to the orientation of the graph
  let imageSize := if job.rotation then exch_xyf imageSize else imageSize
  let margin := if job.rotation then exch_xyf margin else margin
  let centering := if job.rotation then exch_xyf centering else centering
  let canvas : boxf :=
    ⟨add_pointf margin centering, add_pointf (add_pointf margin centering) imageSize⟩
  let device (p : pointf) : point :=
    ⟨cround (p.x * job.dpi.x / POINTS_PER_INCH), cround (p.y * job.dpi.y / POINTS_PER_INCH)⟩
  let pageBoundingBox : box := ⟨device canvas.LL, device canvas.UR⟩
  { job with
    pageSize := ⟨imageSize.x / job.zoom, imageSize.y / job.zoom⟩
    canvasBox := if job.rotation then ⟨exch_xyf canvas.LL, exch_xyf canvas.UR⟩ else canvas
    pageBoundingBox := if job.rotation then
      ⟨exch_xy pageBoundingBox.LL, exch_xy pageBoundingBox.UR⟩ else pageBoundingBox }

/-! ## The walk -/

/-- `firstpage`. -/
def firstpage (job : GVJ_t) : GVJ_t :=
  { job with pagesArrayElem := job.pagesArrayFirst }

/-- `validpage`. -/
def validpage (job : GVJ_t) : Bool :=
  0 ≤ job.pagesArrayElem.x ∧ job.pagesArrayElem.x < job.pagesArraySize.x ∧
    0 ≤ job.pagesArrayElem.y ∧ job.pagesArrayElem.y < job.pagesArraySize.y

/-- `nextpage`. -/
def nextpage (job : GVJ_t) : GVJ_t :=
  let job := { job with pagesArrayElem := add_point job.pagesArrayElem job.pagesArrayMinor }
  if validpage job then job
  else
    let elem : point := if job.pagesArrayMajor.y ≠ 0
      then { job.pagesArrayElem with x := job.pagesArrayFirst.x }
      else { job.pagesArrayElem with y := job.pagesArrayFirst.y }
    { job with pagesArrayElem := add_point elem job.pagesArrayMajor }

/-- The loop over the pages in `emit_graph`: the pages that are emitted. -/
def pageLoop : ℕ → GVJ_t → Except Fault (List point)
  | 0, _ => .error .fuel
  | fuel + 1, job =>
    if validpage job then do
      let pages ← pageLoop fuel (nextpage job)
      .ok (job.pagesArrayElem :: pages)
    else .ok []

/-- The pages that a job emits, one after another. -/
def emitPages (job : GVJ_t) : Except Fault (List point) :=
  pageLoop ((job.pagesArraySize.x * job.pagesArraySize.y).toNat + 1) (firstpage job)

/-! ## One page -/

/-- `setup_page`. -/
def setup_page (job : GVJ_t) : GVJ_t :=
  let elem := if job.rotation then exch_xy job.pagesArrayElem else job.pagesArrayElem
  let size := if job.rotation then exch_xy job.pagesArraySize else job.pagesArraySize
  let pageLL : pointf :=
    ⟨elem.x * job.pageSize.x - job.pad.x, elem.y * job.pageSize.y - job.pad.y⟩
  let job := { job with pageBox := ⟨pageLL, add_pointf pageLL job.pageSize⟩ }
  let clip : boxf :=
    if job.EVENTS then
      ⟨⟨job.focus.x - job.view.x / 2, job.focus.y - job.view.y / 2⟩,
        ⟨job.focus.x + job.view.x / 2, job.focus.y + job.view.y / 2⟩⟩
    else
      let LL : pointf := ⟨job.focus.x + job.pageSize.x * (elem.x - size.x / 2),
        job.focus.y + job.pageSize.y * (elem.y - size.y / 2)⟩
      ⟨LL, add_pointf LL job.pageSize⟩
  let x := -clip.LL.x + job.canvasBox.LL.x / job.zoom
  let x' := -clip.UR.x - job.canvasBox.LL.x / job.zoom
  let y := -clip.LL.y + job.canvasBox.LL.y / job.zoom
  let y' := -clip.UR.y - job.canvasBox.LL.y / job.zoom
  let translation : pointf :=
    if job.rotation then ⟨if job.Y_GOES_DOWN then x' else x, y'⟩
    else ⟨x, if job.Y_GOES_DOWN then y' else y⟩
  { job with clip, translation }

/-- The job when it is at a page. -/
def GVJ_t.onPage (job : GVJ_t) (page : point) : GVJ_t :=
  { job with pagesArrayElem := page }

/-- The part of the drawing that is on a page. -/
def clipOf (job : GVJ_t) (page : point) : boxf :=
  (setup_page (job.onPage page)).clip

end Graphviz.Paging

/-!
## Every page once (`common/emit.c`)

The walk enters the array of pages at one of its corners and goes through it line by line. The parts
of the drawing on the pages lie beside each other around the focus and cover the view, up to the
tolerance `EPSILON` with which the pages are counted.
-/

namespace Graphviz.Paging

open List Outcome Raster

variable {gvc : GVC_t} {job : GVJ_t} {c0 c1 : UInt8} {sx sy : ℤ} {i k m n : ℕ} {p q : point}

/-! ## Directions -/

/-- The two letters name a vertical direction and a horizontal one. -/
def Directs (c0 c1 : UInt8) : Prop :=
  (c0 = 84 ∨ c0 = 66) ∧ (c1 = 76 ∨ c1 = 82) ∨ (c0 = 76 ∨ c0 = 82) ∧ (c1 = 84 ∨ c1 = 66)

/-- Neither of the two letters has the array entered from its high end. -/
def FromLow (c0 c1 : UInt8) : Prop :=
  (c0 ≠ 84 ∧ c0 ≠ 82) ∧ c1 ≠ 84 ∧ c1 ≠ 82

instance : Decidable (Directs c0 c1) :=
  inferInstanceAs (Decidable (_ ∨ _))

instance : Decidable (FromLow c0 c1) :=
  inferInstanceAs (Decidable (_ ∧ _))

/-- The walk enters the array at a corner and leaves by the opposite one, row by row or column by
column. -/
structure Corner (job : GVJ_t) (sx sy : ℤ) : Prop where
  x : Axis job.pagesArrayFirst.x sx job.pagesArraySize.x
  y : Axis job.pagesArrayFirst.y sy job.pagesArraySize.y
  steps : job.pagesArrayMajor = ⟨0, sy⟩ ∧ job.pagesArrayMinor = ⟨sx, 0⟩ ∨
    job.pagesArrayMajor = ⟨sx, 0⟩ ∧ job.pagesArrayMinor = ⟨0, sy⟩

/-- The step of a letter. -/
def stepOf (c : UInt8) : point :=
  if c = 84 then ⟨0, -1⟩ else if c = 66 then ⟨0, 1⟩ else if c = 76 then ⟨1, 0⟩
  else if c = 82 then ⟨-1, 0⟩ else ⟨0, 0⟩

/-- The corner, after a letter. -/
def cornerOf (first size : point) (c : UInt8) : point :=
  if c = 84 then { first with y := size.y - 1 }
  else if c = 82 then { first with x := size.x - 1 } else first

theorem pagecode_eq (job : GVJ_t) (c : UInt8) : pagecode job c =
    ({ job with pagesArrayFirst := cornerOf job.pagesArrayFirst job.pagesArraySize c },
      stepOf c) := by
  unfold pagecode stepOf cornerOf
  by_cases hT : c = 84
  · simp [hT]
  by_cases hB : c = 66
  · simp [hB]
  by_cases hL : c = 76
  · simp [hL]
  by_cases hR : c = 82
  · simp [hR]
  · simp [hT, hB, hL, hR]

/-- The combination of two letters is rejected. -/
def Rejected (c0 c1 : UInt8) : Prop :=
  |(stepOf c0).x + (stepOf c1).x| ≠ 1 ∨ |(stepOf c0).y + (stepOf c1).y| ≠ 1

instance : Decidable (Rejected c0 c1) :=
  inferInstanceAs (Decidable (_ ∨ _))

theorem setupPagedir_eq (job : GVJ_t) (pagedir : CStr) : setupPagedir job pagedir =
    let c0 := byteAt pagedir 0
    let c1 := byteAt pagedir 1
    { job with
      pagesArrayFirst := cornerOf (cornerOf ⟨0, 0⟩ job.pagesArraySize c0) job.pagesArraySize c1
      pagesArrayMajor := if Rejected c0 c1 then ⟨0, 1⟩ else stepOf c0
      pagesArrayMinor := if Rejected c0 c1 then ⟨1, 0⟩ else stepOf c1 } := by
  unfold setupPagedir
  simp only [pagecode_eq]
  by_cases hrej : Rejected (byteAt pagedir 0) (byteAt pagedir 1)
  · refine (if_pos hrej).trans ?_
    rw [if_pos hrej, if_pos hrej]
    rfl
  · refine (if_neg hrej).trans ?_
    rw [if_neg hrej, if_neg hrej]

/-- What two letters lead to. A combination that is rejected is replaced by `BL`, but the corner is
still the one of the rejected letters. -/
theorem setupPagedir_corner (job : GVJ_t) {pagedir : CStr}
    (h : Directs (byteAt pagedir 0) (byteAt pagedir 1) ∨
      FromLow (byteAt pagedir 0) (byteAt pagedir 1)) :
    ∃ sx sy, Corner (setupPagedir job pagedir) sx sy := by
  rw [setupPagedir_eq]
  generalize byteAt pagedir 0 = c0 at h ⊢
  generalize byteAt pagedir 1 = c1 at h ⊢
  obtain hdir | ⟨⟨hT0, hR0⟩, hT1, hR1⟩ := h
  · refine ⟨(stepOf c0).x + (stepOf c1).x, (stepOf c0).y + (stepOf c1).y, ?_⟩
    rcases hdir with ⟨rfl | rfl, rfl | rfl⟩ | ⟨rfl | rfl, rfl | rfl⟩ <;>
      constructor <;> simp [cornerOf, stepOf, Rejected, Axis]
  · have hcorner : cornerOf (cornerOf ⟨0, 0⟩ job.pagesArraySize c0) job.pagesArraySize c1 =
        ⟨0, 0⟩ := by
      simp [cornerOf, hT0, hR0, hT1, hR1]
    have hlow : ∀ c : UInt8, c ≠ 84 → c ≠ 82 →
        stepOf c = ⟨0, 1⟩ ∨ stepOf c = ⟨1, 0⟩ ∨ stepOf c = ⟨0, 0⟩ := by
      intro c hT hR
      unfold stepOf
      rw [if_neg hT]
      split
      · exact .inl rfl
      · split
        · exact .inr (.inl rfl)
        · exact .inr (.inr rfl)
    refine ⟨1, 1, ?_⟩
    dsimp only
    rw [hcorner]
    by_cases hrej : Rejected c0 c1
    · rw [if_pos hrej, if_pos hrej]
      exact ⟨.inl ⟨rfl, rfl⟩, .inl ⟨rfl, rfl⟩, .inl ⟨rfl, rfl⟩⟩
    · rw [if_neg hrej, if_neg hrej]
      refine ⟨.inl ⟨rfl, rfl⟩, .inl ⟨rfl, rfl⟩, ?_⟩
      rw [Rejected] at hrej
      rcases hlow c0 hT0 hR0 with h0 | h0 | h0 <;> rcases hlow c1 hT1 hR1 with h1 | h1 | h1 <;>
        simp [h0, h1] at hrej ⊢

/-! ## The walk -/

/-- A page of the array. -/
def InArray (job : GVJ_t) (p : point) : Prop :=
  (0 ≤ p.x ∧ p.x < job.pagesArraySize.x) ∧ 0 ≤ p.y ∧ p.y < job.pagesArraySize.y

theorem validpage_iff : validpage (job.onPage p) ↔ InArray job p := by
  rw [validpage, decide_eq_true_eq, InArray, and_assoc]
  rfl

/-- The page after this one is on the same line. -/
theorem nextpage_minor (h : InArray job (add_point p job.pagesArrayMinor)) :
    nextpage (job.onPage p) = job.onPage (add_point p job.pagesArrayMinor) :=
  if_pos (validpage_iff.2 h)

/-- The line is at its end. -/
theorem nextpage_major (h : ¬InArray job (add_point p job.pagesArrayMinor)) :
    nextpage (job.onPage p) = job.onPage (add_point (if job.pagesArrayMajor.y ≠ 0 then
        { add_point p job.pagesArrayMinor with x := job.pagesArrayFirst.x }
      else { add_point p job.pagesArrayMinor with y := job.pagesArrayFirst.y })
      job.pagesArrayMajor) :=
  if_neg (mt validpage_iff.1 h)

/-- Pages that follow one another are walked through until one is not in the array. -/
theorem pageLoop_eq {place : ℕ → point} (hvalid : ∀ k < n, InArray job (place k))
    (hnext : ∀ k < n, nextpage (job.onPage (place k)) = job.onPage (place (k + 1)))
    (hstop : ¬InArray job (place n)) (hk : k + m = n) :
    pageLoop (m + 1) (job.onPage (place k)) = .ok ((List.range' k m).map place) := by
  induction m generalizing k with
  | zero =>
    obtain rfl : k = n := hk
    rw [pageLoop, if_neg (mt validpage_iff.1 hstop)]
    rfl
  | succ m ih =>
    have hlt : k < n := by omega
    rw [pageLoop, if_pos (validpage_iff.2 (hvalid k hlt)), hnext k hlt, ih (by omega), ok_bind,
      range'_succ, map_cons]
    rfl

/-- The pages of the array, as they are numbered by the walk: their place along a line, and the
line. -/
structure Numbered (job : GVJ_t) (m n : ℕ) (place : ℕ → point) : Prop where
  first : job.pagesArrayFirst = place 0
  next : ∀ k < m * n, nextpage (job.onPage (place k)) = job.onPage (place (k + 1))
  inside : ∀ k < m * n, InArray job (place k)
  outside : ¬InArray job (place (m * n))
  injective : ∀ j k, place j = place k → j = k
  surjective : ∀ p, InArray job p → ∃ k < m * n, place k = p

/-- A walk that goes through the array line by line emits every page once. -/
theorem Numbered.emitPages {place : ℕ → point} (h : Numbered job m n place)
    (hmn : (job.pagesArraySize.x * job.pagesArraySize.y).toNat = m * n) :
    ∃ pages, emitPages job = .ok pages ∧ pages.Nodup ∧ ∀ p, p ∈ pages ↔ InArray job p := by
  refine ⟨(List.range (m * n)).map place, ?_, ?_, fun p => ?_⟩
  · have hfirst : firstpage job = job.onPage (place 0) := by rw [← h.first]; rfl
    rw [Paging.emitPages, hmn, hfirst, pageLoop_eq h.inside h.next h.outside (Nat.zero_add _),
      range_eq_range']
  · exact nodup_range.map h.injective
  · rw [mem_map]
    constructor
    · rintro ⟨k, hk, rfl⟩
      exact h.inside k (mem_range.1 hk)
    · intro hp
      obtain ⟨k, hk, rfl⟩ := h.surjective p hp
      exact ⟨k, mem_range.2 hk, rfl⟩

/-- Row by row. -/
theorem numbered_rows (hx : Axis job.pagesArrayFirst.x sx job.pagesArraySize.x)
    (hy : Axis job.pagesArrayFirst.y sy job.pagesArraySize.y)
    (hmajor : job.pagesArrayMajor = ⟨0, sy⟩) (hminor : job.pagesArrayMinor = ⟨sx, 0⟩)
    (hm : job.pagesArraySize.x = m) (hn : job.pagesArraySize.y = n) (hpos : 0 < m) :
    Numbered job m n fun k => ⟨job.pagesArrayFirst.x + (k % m : ℕ) * sx,
      job.pagesArrayFirst.y + (k / m : ℕ) * sy⟩ := by
  have hsy : sy ≠ 0 := by rcases hy with ⟨_, rfl⟩ | ⟨_, rfl⟩ <;> decide
  have hcol : ∀ k, ((k % m : ℕ) : ℤ) < job.pagesArraySize.x := fun k => by
    rw [hm]
    exact_mod_cast Nat.mod_lt k hpos
  have hline : ∀ k < m * n, ((k / m : ℕ) : ℤ) < job.pagesArraySize.y := fun k hk => by
    rw [hn]
    exact_mod_cast Nat.div_lt_of_lt_mul hk
  refine ⟨?_, fun k hk => ?_, fun k hk => ⟨hx.inside (hcol k), hy.inside (hline k hk)⟩, ?_, ?_, ?_⟩
  · simp
  · have hadd : add_point ⟨job.pagesArrayFirst.x + (k % m : ℕ) * sx,
        job.pagesArrayFirst.y + (k / m : ℕ) * sy⟩ job.pagesArrayMinor =
        ⟨job.pagesArrayFirst.x + (k % m + 1 : ℕ) * sx,
          job.pagesArrayFirst.y + (k / m : ℕ) * sy⟩ := by
      rw [hminor, add_point, point.mk.injEq]
      push_cast
      exact ⟨by ring, by ring⟩
    obtain hlt | hge := Nat.lt_or_ge (k % m + 1) m
    · obtain ⟨hmod, hdiv⟩ := step_inside hlt
      have hin : InArray job (add_point ⟨job.pagesArrayFirst.x + (k % m : ℕ) * sx,
          job.pagesArrayFirst.y + (k / m : ℕ) * sy⟩ job.pagesArrayMinor) := by
        rw [hadd]
        exact ⟨hx.inside (by rw [hm]; exact_mod_cast hlt), hy.inside (hline k hk)⟩
      rw [nextpage_minor hin, hadd, hmod, hdiv]
    · obtain ⟨hmod, hdiv, hend⟩ := step_end hpos hge
      have hout : ¬InArray job (add_point ⟨job.pagesArrayFirst.x + (k % m : ℕ) * sx,
          job.pagesArrayFirst.y + (k / m : ℕ) * sy⟩ job.pagesArrayMinor) := by
        rw [hadd]
        exact fun hin => hx.outside (by rw [hend, hm]) hin.1
      rw [nextpage_major hout, hadd, hmod, hdiv, hmajor, if_pos hsy, add_point]
      push_cast
      congr 2 <;> ring
  · intro hin
    refine hy.outside (i := m * n / m) ?_ hin.2
    rw [Nat.mul_div_cancel_left _ hpos, hn]
  · intro j k heq
    obtain ⟨hxeq, hyeq⟩ := point.mk.inj heq
    exact number_injective (hx.injective hxeq) (hy.injective hyeq)
  · rintro ⟨px, py⟩ ⟨hpx, hpy⟩
    obtain ⟨i, hi, rfl⟩ := hx.surjective hpx
    obtain ⟨j, hj, rfl⟩ := hy.surjective hpy
    have hi' : i < m := by rw [hm] at hi; exact_mod_cast hi
    have hj' : j < n := by rw [hn] at hj; exact_mod_cast hj
    obtain ⟨hmod, hdiv, hlt⟩ := number_surjective hi' hj'
    exact ⟨i + m * j, hlt, by rw [hmod, hdiv]⟩

/-- The job with rows and columns exchanged. -/
def GVJ_t.exch (job : GVJ_t) : GVJ_t :=
  { job with
    pagesArraySize := exch_xy job.pagesArraySize
    pagesArrayFirst := exch_xy job.pagesArrayFirst
    pagesArrayMajor := exch_xy job.pagesArrayMajor
    pagesArrayMinor := exch_xy job.pagesArrayMinor
    pagesArrayElem := exch_xy job.pagesArrayElem }

@[simp] theorem exch_xy_exch_xy (p : point) : exch_xy (exch_xy p) = p := rfl

theorem exch_onPage (job : GVJ_t) (p : point) :
    (job.onPage p).exch = job.exch.onPage (exch_xy p) := rfl

theorem inArray_exch : InArray job.exch (exch_xy p) ↔ InArray job p :=
  and_comm

/-- The next page, with rows and columns exchanged. -/
theorem nextpage_exch (hmajor : job.pagesArrayMajor.x ≠ 0 ↔ job.pagesArrayMajor.y = 0) :
    nextpage (job.exch.onPage (exch_xy p)) = (nextpage (job.onPage p)).exch := by
  have hadd : ∀ p q, add_point (exch_xy p) (exch_xy q) = exch_xy (add_point p q) := fun _ _ => rfl
  have hminor : add_point (exch_xy p) job.exch.pagesArrayMinor =
      exch_xy (add_point p job.pagesArrayMinor) := rfl
  by_cases hin : InArray job (add_point p job.pagesArrayMinor)
  · rw [nextpage_minor hin, nextpage_minor (hminor ▸ inArray_exch.2 hin), hminor, exch_onPage]
  · rw [nextpage_major hin, nextpage_major (hminor ▸ mt inArray_exch.1 hin), exch_onPage, ← hadd,
      hminor]
    congr 2
    by_cases hy : job.pagesArrayMajor.y = 0
    · rw [if_neg (not_not.2 hy)]
      exact if_pos (hmajor.2 hy)
    · rw [if_pos hy]
      exact if_neg (mt hmajor.1 hy)

theorem Numbered.exch {place : ℕ → point} (h : Numbered job.exch m n place)
    (hmajor : job.pagesArrayMajor.x ≠ 0 ↔ job.pagesArrayMajor.y = 0) :
    Numbered job m n fun k => exch_xy (place k) where
  first := congrArg exch_xy h.first
  next k hk := by
    have hnext := h.next k hk
    rw [← exch_xy_exch_xy (place k), nextpage_exch hmajor] at hnext
    exact congrArg GVJ_t.exch hnext
  inside k hk := inArray_exch.1 (h.inside k hk)
  outside hin := h.outside (inArray_exch.1 hin)
  injective j k heq := h.injective j k (congrArg exch_xy heq)
  surjective p hp := by
    obtain ⟨k, hk, heq⟩ := h.surjective (exch_xy p) (inArray_exch.2 hp)
    exact ⟨k, hk, congrArg exch_xy heq⟩

/-- From a corner every page of the array is emitted once. -/
theorem Corner.emitPages (h : Corner job sx sy) (hx : 1 ≤ job.pagesArraySize.x)
    (hy : 1 ≤ job.pagesArraySize.y) :
    ∃ pages, emitPages job = .ok pages ∧ pages.Nodup ∧ ∀ p, p ∈ pages ↔ InArray job p := by
  obtain ⟨m, hm⟩ : ∃ m : ℕ, job.pagesArraySize.x = m := ⟨_, (Int.toNat_of_nonneg (by omega)).symm⟩
  obtain ⟨n, hn⟩ : ∃ n : ℕ, job.pagesArraySize.y = n := ⟨_, (Int.toNat_of_nonneg (by omega)).symm⟩
  have hmn : (job.pagesArraySize.x * job.pagesArraySize.y).toNat = m * n := by
    rw [hm, hn, ← Int.natCast_mul, Int.toNat_natCast]
  obtain ⟨hmajor, hminor⟩ | ⟨hmajor, hminor⟩ := h.steps
  · exact (numbered_rows h.x h.y hmajor hminor hm hn (by omega)).emitPages hmn
  · have hsx : sx ≠ 0 := by rcases h.x with ⟨_, rfl⟩ | ⟨_, rfl⟩ <;> decide
    have hrows := @numbered_rows job.exch sy sx n m h.y h.x (congrArg exch_xy hmajor)
      (congrArg exch_xy hminor) hn hm (by omega)
    refine (hrows.exch ?_).emitPages (by rw [hmn, mul_comm])
    rw [hmajor]
    exact ⟨fun _ => rfl, fun _ => hsx⟩

/-! ## The parts of the drawing -/

/-- The closed box. -/
def closed (b : boxf) : Set (ℝ × ℝ) :=
  Set.Icc (b.LL.x : ℝ) b.UR.x ×ˢ Set.Icc (b.LL.y : ℝ) b.UR.y

/-- The view around the focus, less a tolerance. -/
def viewBox (job : GVJ_t) (tolerance : ℚ) : boxf :=
  let w := (job.view.x - tolerance) / (2 * job.zoom)
  let h := (job.view.y - tolerance) / (2 * job.zoom)
  ⟨⟨job.focus.x - w, job.focus.y - h⟩, ⟨job.focus.x + w, job.focus.y + h⟩⟩

/-- A page, or the size of the array, in the orientation of the graph. -/
def orient (job : GVJ_t) (p : point) : point :=
  if job.rotation then exch_xy p else p

theorem orient_injective (job : GVJ_t) (heq : orient job p = orient job q) : p = q := by
  unfold orient at heq
  split at heq
  · exact congrArg exch_xy heq
  · exact heq

/-- The parts of the drawing are cells of the size of a page around the focus. -/
theorem clipOf_eq (hevents : job.EVENTS = false) (p : point) : clipOf job p =
    let a : pointf := ⟨job.focus.x - (orient job job.pagesArraySize).x * job.pageSize.x / 2,
      job.focus.y - (orient job job.pagesArraySize).y * job.pageSize.y / 2⟩
    let LL : pointf := ⟨a.x + (orient job p).x * job.pageSize.x,
      a.y + (orient job p).y * job.pageSize.y⟩
    ⟨LL, add_pointf LL job.pageSize⟩ := by
  have hclip : clipOf job p = (let LL : pointf :=
      ⟨job.focus.x + job.pageSize.x * ((orient job p).x - (orient job job.pagesArraySize).x / 2),
        job.focus.y + job.pageSize.y * ((orient job p).y - (orient job job.pagesArraySize).y / 2)⟩
      (⟨LL, add_pointf LL job.pageSize⟩ : boxf)) := by
    have hev : (job.onPage p).EVENTS = false := hevents
    simp only [clipOf, setup_page, hev, Bool.false_eq_true, if_false]
    rfl
  have hx : ∀ f w e n : ℚ, f + w * (e - n / 2) = f - n * w / 2 + e * w := fun f w e n => by ring
  rw [hclip]
  dsimp only
  rw [hx, hx]

/-- Two pages show parts of the drawing that lie beside each other. -/
theorem clipOf_apart (hevents : job.EVENTS = false) (hx : 0 ≤ job.pageSize.x)
    (hy : 0 ≤ job.pageSize.y) (hne : p ≠ q) : (clipOf job p).Apart (clipOf job q) := by
  have hne' : (orient job p).x ≠ (orient job q).x ∨ (orient job p).y ≠ (orient job q).y := by
    by_contra! heq
    refine hne (orient_injective job ?_)
    cases hp : orient job p
    cases hq : orient job q
    rw [hp, hq] at heq
    exact point.mk.injEq .. ▸ heq
  rw [clipOf_eq hevents, clipOf_eq hevents]
  exact hne'.imp (cells_beside hx) (cells_beside hy)

/-- One coordinate of a point of the view lies in one of the cells. -/
theorem exists_cell_of_view {n : ℤ} {f w v : ℚ} {t : ℝ} (hn : 1 ≤ n) (hv : v ≤ n * w)
    (ht : ((f - v / 2 : ℚ) : ℝ) ≤ t ∧ t ≤ ((f + v / 2 : ℚ) : ℝ)) :
    ∃ e : ℤ, (0 ≤ e ∧ e < n) ∧ ((f - n * w / 2 + e * w : ℚ) : ℝ) ≤ t ∧
      t ≤ ((f - n * w / 2 + e * w + w : ℚ) : ℝ) := by
  obtain ⟨m, rfl⟩ : ∃ m : ℕ, n = m := ⟨_, (Int.toNat_of_nonneg (by omega)).symm⟩
  have hv' : (v : ℝ) ≤ m * w := by exact_mod_cast hv
  push_cast at ht
  obtain ⟨i, hi, hlo, hhi⟩ := @exists_cell m ℝ _ _ ((f : ℝ) - m * w / 2) w t (by omega)
    (by linarith [ht.1]) (by linarith [ht.2])
  refine ⟨i, ⟨by omega, by omega⟩, ?_, ?_⟩
  · push_cast
    exact hlo
  · push_cast
    exact hhi

/-- The parts of the drawing cover a view that the pages are large enough for. -/
theorem view_subset (job : GVJ_t) (tolerance : ℚ) (hevents : job.EVENTS = false) (hx : 1 ≤ job.pagesArraySize.x)
    (hy : 1 ≤ job.pagesArraySize.y)
    (hvx : (job.view.x - tolerance) / job.zoom ≤ (orient job job.pagesArraySize).x * job.pageSize.x)
    (hvy : (job.view.y - tolerance) / job.zoom ≤
      (orient job job.pagesArraySize).y * job.pageSize.y) :
    closed (viewBox job tolerance) ⊆ ⋃ p ∈ {p | InArray job p}, closed (clipOf job p) := by
  have hhalf : ∀ v : ℚ, v / (2 * job.zoom) = v / job.zoom / 2 := fun v => by
    rw [mul_comm, div_div]
  have hpos : 1 ≤ (orient job job.pagesArraySize).x ∧ 1 ≤ (orient job job.pagesArraySize).y := by
    unfold orient
    split
    · exact ⟨hy, hx⟩
    · exact ⟨hx, hy⟩
  rintro ⟨tx, ty⟩ ⟨htx, hty⟩
  simp only [viewBox, hhalf] at htx hty
  obtain ⟨ex, hex, hx1, hx2⟩ := exists_cell_of_view hpos.1 hvx htx
  obtain ⟨ey, hey, hy1, hy2⟩ := exists_cell_of_view hpos.2 hvy hty
  have hback : orient job (orient job ⟨ex, ey⟩) = ⟨ex, ey⟩ := by
    unfold orient
    split <;> rfl
  have hin : InArray job (orient job ⟨ex, ey⟩) := by
    unfold orient at hex hey ⊢
    split
    · next hrot =>
      rw [if_pos hrot] at hex hey
      exact ⟨hey, hex⟩
    · next hrot =>
      rw [if_neg hrot] at hex hey
      exact ⟨hex, hey⟩
  refine Set.mem_biUnion hin ?_
  rw [clipOf_eq hevents, hback]
  exact ⟨⟨hx1, hx2⟩, hy1, hy2⟩

/-! ## The number of pages -/

theorem EPSILON_pos : 0 < EPSILON := by norm_num [EPSILON]

/-- There are enough pages for the image, up to the tolerance. -/
theorem pagesAlong_spec {image page : ℚ} (hpage : EPSILON ≤ page) (hn : 1 ≤ pagesAlong image page) :
    0 ≤ min image page ∧ image - EPSILON ≤ pagesAlong image page * min image page := by
  have hpos : 0 < page := EPSILON_pos.trans_le hpage
  have hrest : ∀ n : ℤ, n = toInt (image / page) →
      pagesAlong image page = if EPSILON < image - n * page then n + 1 else n := by
    rintro n rfl
    exact if_neg hpage.not_gt
  obtain hneg | himage := lt_or_ge image 0
  · -- a negative image has no pages
    have hquot : image / page < 0 := div_neg_of_neg_of_pos hneg hpos
    have htoInt : toInt (image / page) = ⌈image / page⌉ := if_neg hquot.not_ge
    have hceil : ⌈image / page⌉ ≤ 0 := Int.ceil_le.2 (by exact_mod_cast hquot.le)
    have hle : image ≤ ⌈image / page⌉ * page := (div_le_iff₀ hpos).1 (Int.le_ceil _)
    rw [hrest _ htoInt.symm, if_neg (by linarith [EPSILON_pos])] at hn
    omega
  · have htoInt : toInt (image / page) = ⌊image / page⌋ := if_pos (div_nonneg himage hpos.le)
    have hlo : (⌊image / page⌋ : ℚ) * page ≤ image := (le_div_iff₀ hpos).1 (Int.floor_le _)
    have hhi : image < (⌊image / page⌋ + 1 : ℚ) * page :=
      (div_lt_iff₀ hpos).1 (Int.lt_floor_add_one _)
    refine ⟨le_min himage hpos.le, ?_⟩
    obtain hlt | hge := lt_or_ge image page
    · rw [min_eq_left hlt.le]
      have hone : (1 : ℚ) ≤ pagesAlong image page := by exact_mod_cast hn
      nlinarith [EPSILON_pos]
    · rw [min_eq_right hge, hrest _ htoInt.symm]
      split
      · push_cast
        linarith [EPSILON_pos]
      · linarith

/-- The image on the pages is at least the view, up to the tolerance. -/
theorem paginate_spec (hpage : gvc.graph_sets_pageSize → job.DOES_PAGES →
      EPSILON ≤ gvc.pageSize.x - 2 * job.margin.x ∧ EPSILON ≤ gvc.pageSize.y - 2 * job.margin.y)
    (hx : 1 ≤ (paginate gvc job).1.x) (hy : 1 ≤ (paginate gvc job).1.y) :
    let view := if job.rotation then exch_xyf job.view else job.view
    let image := (paginate gvc job).2.2
    (view.x - EPSILON ≤ (paginate gvc job).1.x * image.x ∧
      view.y - EPSILON ≤ (paginate gvc job).1.y * image.y) ∧
      ((paginate gvc job).1 = ⟨1, 1⟩ ∨ 0 ≤ image.x ∧ 0 ≤ image.y) := by
  intro view image
  obtain hset | hset := Decidable.em (gvc.graph_sets_pageSize ∧ job.DOES_PAGES)
  · have heq : paginate gvc job =
        (⟨pagesAlong view.x (gvc.pageSize.x - 2 * job.margin.x),
          pagesAlong view.y (gvc.pageSize.y - 2 * job.margin.y)⟩,
        sub_pointf gvc.pageSize (scale 2 job.margin),
        ⟨min view.x (gvc.pageSize.x - 2 * job.margin.x),
          min view.y (gvc.pageSize.y - 2 * job.margin.y)⟩) := if_pos hset
    obtain ⟨hpx, hpy⟩ := hpage hset.1 hset.2
    simp only [image, heq] at hx hy ⊢
    obtain ⟨hx₀, hx₁⟩ := pagesAlong_spec hpx hx
    obtain ⟨hy₀, hy₁⟩ := pagesAlong_spec hpy hy
    exact ⟨⟨hx₁, hy₁⟩, .inr ⟨hx₀, hy₀⟩⟩
  · have hone : (paginate gvc job).1 = ⟨1, 1⟩ := by
      rw [paginate, if_neg hset]
    have hview : (paginate gvc job).2.2 = view := by
      rw [paginate, if_neg hset]
    rw [hone, show image = view from hview]
    refine ⟨⟨?_, ?_⟩, .inl rfl⟩ <;>
    · push_cast
      linarith [EPSILON_pos]

/-- What `init_job_pagination` leaves of what it has found. -/
theorem init_job_pagination_eq (gvc : GVC_t) (job : GVJ_t) (centered : Bool) :
    let job' := init_job_pagination gvc job centered
    let image := if job.rotation then exch_xyf (paginate gvc job).2.2 else (paginate gvc job).2.2
    (job'.pagesArraySize = (paginate gvc job).1 ∧ job'.EVENTS = job.EVENTS ∧
      job'.rotation = job.rotation ∧ job'.view = job.view ∧ job'.zoom = job.zoom) ∧
      job'.pageSize = ⟨image.x / job.zoom, image.y / job.zoom⟩ := by
  unfold init_job_pagination
  generalize paginate gvc job = r
  obtain ⟨size, page, image⟩ := r
  simp only [setupPagedir_eq]
  exact ⟨⟨trivial, trivial, trivial, trivial, trivial⟩, trivial⟩

theorem init_job_pagination_corner (gvc : GVC_t) (job : GVJ_t) (centered : Bool)
    (h : Directs (byteAt gvc.pagedir 0) (byteAt gvc.pagedir 1) ∨
      FromLow (byteAt gvc.pagedir 0) (byteAt gvc.pagedir 1)) :
    ∃ sx sy, Corner (init_job_pagination gvc job centered) sx sy := by
  obtain ⟨sx, sy, hcorner⟩ :=
    setupPagedir_corner { job with pagesArraySize := (paginate gvc job).1 } h
  refine ⟨sx, sy, ?_⟩
  unfold init_job_pagination
  generalize paginate gvc job = r at hcorner
  obtain ⟨size, page, image⟩ := r
  simp only [setupPagedir_eq] at hcorner ⊢
  exact ⟨hcorner.x, hcorner.y, hcorner.steps⟩

/-- Every page is emitted once, and the parts of the drawing on the pages lie beside each other and
cover the view around the focus, up to the tolerance. -/
theorem pages_cover (gvc : GVC_t) (job : GVJ_t) (centered : Bool) (hevents : job.EVENTS = false)
    (hzoom : 0 < job.zoom)
    (hpage : gvc.graph_sets_pageSize → job.DOES_PAGES →
      EPSILON ≤ gvc.pageSize.x - 2 * job.margin.x ∧ EPSILON ≤ gvc.pageSize.y - 2 * job.margin.y)
    (hdir : Directs (byteAt gvc.pagedir 0) (byteAt gvc.pagedir 1) ∨
      FromLow (byteAt gvc.pagedir 0) (byteAt gvc.pagedir 1))
    (hx : 1 ≤ (init_job_pagination gvc job centered).pagesArraySize.x)
    (hy : 1 ≤ (init_job_pagination gvc job centered).pagesArraySize.y) :
    let job' := init_job_pagination gvc job centered
    ∃ pages, emitPages job' = .ok pages ∧ pages.Nodup ∧ (∀ p, p ∈ pages ↔ InArray job' p) ∧
      (∀ p ∈ pages, ∀ q ∈ pages, p ≠ q →
        Disjoint (clipOf job' p).interior (clipOf job' q).interior) ∧
      closed (viewBox job' EPSILON) ⊆ ⋃ p ∈ pages, closed (clipOf job' p) := by
  intro job'
  obtain ⟨sx, sy, hcorner⟩ := init_job_pagination_corner gvc job centered hdir
  obtain ⟨⟨hsize, hev, hrot, hview, hz⟩, hps⟩ := init_job_pagination_eq gvc job centered
  obtain ⟨pages, hrun, hnodup, hmem⟩ := hcorner.emitPages hx hy
  rw [hsize] at hx hy
  obtain ⟨⟨hvx, hvy⟩, hone⟩ := paginate_spec hpage hx hy
  have hscale : ∀ {v w : ℚ} {n : ℤ}, v ≤ n * w → v / job.zoom ≤ n * (w / job.zoom) := by
    intro v w n hle
    rw [← mul_div_assoc]
    exact div_le_div_of_nonneg_right hle hzoom.le
  refine ⟨pages, hrun, hnodup, hmem, fun p hp q hq hne => ?_, ?_⟩
  · rw [hmem, InArray, hsize] at hp hq
    obtain hone | ⟨hix, hiy⟩ := hone
    · rw [hone] at hp hq
      refine absurd ?_ hne
      cases p
      cases q
      simp only [point.mk.injEq] at hp hq ⊢
      omega
    · have hnonneg : 0 ≤ job'.pageSize.x ∧ 0 ≤ job'.pageSize.y := by
        rw [hps]
        split
        · exact ⟨div_nonneg hiy hzoom.le, div_nonneg hix hzoom.le⟩
        · exact ⟨div_nonneg hix hzoom.le, div_nonneg hiy hzoom.le⟩
      exact (clipOf_apart (hev.trans hevents) hnonneg.1 hnonneg.2 hne).disjoint
  · have hsubset := view_subset job' EPSILON (hev.trans hevents)
      (hsize ▸ hx) (hsize ▸ hy)
    rw [orient, hrot, hsize, hps, hview, hz] at hsubset
    have hcover : closed (viewBox job' EPSILON) ⊆
        ⋃ p ∈ {p | InArray job' p}, closed (clipOf job' p) := by
      cases hr : job.rotation with
      | true =>
        rw [hr, if_pos rfl] at hsubset hvx hvy
        exact hsubset (hscale hvy) (hscale hvx)
      | false =>
        rw [hr, if_neg Bool.false_ne_true] at hsubset hvx hvy
        exact hsubset (hscale hvx) (hscale hvy)
    have hset : {p | InArray job' p} = {p | p ∈ pages} := Set.ext fun p => (hmem p).symm
    rwa [hset] at hcover

/-! ## Pages that are missing -/

/-- A job for a device with pages, at the origin and not scaled. -/
def pagedJob (view margin : pointf) : GVJ_t where
  DOES_PAGES := true
  EVENTS := false
  Y_GOES_DOWN := false
  default_pagesize := none
  rotation := false
  view := view
  margin := margin
  pad := ⟨0, 0⟩
  dpi := ⟨72, 72⟩
  zoom := 1
  focus := ⟨0, 0⟩
  numPages := 0
  pagesArraySize := ⟨0, 0⟩
  pagesArrayFirst := ⟨0, 0⟩
  pagesArrayMajor := ⟨0, 0⟩
  pagesArrayMinor := ⟨0, 0⟩
  pagesArrayElem := ⟨0, 0⟩
  width := 0
  height := 0
  pageSize := ⟨0, 0⟩
  canvasBox := ⟨⟨0, 0⟩, ⟨0, 0⟩⟩
  pageBoundingBox := ⟨⟨0, 0⟩, ⟨0, 0⟩⟩
  pageBox := ⟨⟨0, 0⟩, ⟨0, 0⟩⟩
  clip := ⟨⟨0, 0⟩, ⟨0, 0⟩⟩
  translation := ⟨0, 0⟩

/-- Twelve pages for a view of 250 by 350 points. -/
theorem pages_cover_twelve :
    let job' := init_job_pagination ⟨true, ⟨100, 100⟩, lit "TR"⟩ (pagedJob ⟨250, 350⟩ ⟨0, 0⟩) false
    ∃ pages, emitPages job' = .ok pages ∧ pages.Nodup ∧ (∀ p, p ∈ pages ↔ InArray job' p) ∧
      (∀ p ∈ pages, ∀ q ∈ pages, p ≠ q →
        Disjoint (clipOf job' p).interior (clipOf job' q).interior) ∧
      closed (viewBox job' EPSILON) ⊆ ⋃ p ∈ pages, closed (clipOf job' p) :=
  pages_cover _ _ _ rfl (by decide +kernel) (by decide +kernel) (by decide +kernel)
    (by decide +kernel) (by decide +kernel)

/-- A view a little wider than the page, and a page that its margins fill, are not covered; after a
combination of directions that is rejected a page is missing. -/
theorem pages_missed :
    (let job' := init_job_pagination ⟨true, ⟨100, 100⟩, lit "BL"⟩
        (pagedJob ⟨100 + 1 / 20000, 100⟩ ⟨0, 0⟩) false;
      emitPages job' = .ok [⟨0, 0⟩] ∧ ¬closed (viewBox job' 0) ⊆ closed (clipOf job' ⟨0, 0⟩)) ∧
    (let job' := init_job_pagination ⟨true, ⟨100, 100⟩, lit "BL"⟩
        (pagedJob ⟨100, 100⟩ ⟨50, 50⟩) false;
      emitPages job' = .ok [⟨0, 0⟩] ∧ ¬closed (viewBox job' 0) ⊆ closed (clipOf job' ⟨0, 0⟩)) ∧
    (let job' := init_job_pagination ⟨true, ⟨100, 100⟩, lit "TT"⟩
        (pagedJob ⟨100, 200⟩ ⟨0, 0⟩) false;
      job'.pagesArraySize = ⟨1, 2⟩ ∧ emitPages job' = .ok [⟨0, 1⟩]) := by
  have hout : ∀ (b b' : boxf) (x y : ℚ), b'.UR.x < x → b.LL.x ≤ x ∧ x ≤ b.UR.x →
      b.LL.y ≤ y ∧ y ≤ b.UR.y → ¬closed b ⊆ closed b' := by
    intro b b' x y hlt hx hy hsub
    have hmem : ((x : ℝ), (y : ℝ)) ∈ closed b :=
      ⟨⟨Rat.cast_le.2 hx.1, Rat.cast_le.2 hx.2⟩, Rat.cast_le.2 hy.1, Rat.cast_le.2 hy.2⟩
    have hle : (x : ℝ) ≤ b'.UR.x := (hsub hmem).1.2
    exact hlt.not_ge (Rat.cast_le.1 hle)
  refine ⟨⟨by decide +kernel, ?_⟩, ⟨by decide +kernel, ?_⟩, by decide +kernel, by decide +kernel⟩
  · exact hout _ _ (50 + 1 / 40000) 0 (by decide +kernel) (by decide +kernel) (by decide +kernel)
  · exact hout _ _ 50 0 (by decide +kernel) (by decide +kernel) (by decide +kernel)

end Graphviz.Paging
