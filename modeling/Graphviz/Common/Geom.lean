import Graphviz.Util.Round
import Mathlib

/-!
# Points and boxes

The points and boxes of the layout code, and how boxes lie within each other.
-/

namespace Graphviz

/-- `pointf`. -/
@[ext] structure pointf where
  x : ℚ
  y : ℚ
  deriving DecidableEq

/-- `boxf`. -/
structure boxf where
  LL : pointf
  UR : pointf
  deriving DecidableEq

/-- `add_pointf`. -/
def add_pointf (p q : pointf) : pointf :=
  ⟨p.x + q.x, p.y + q.y⟩

/-- `sub_pointf`. -/
def sub_pointf (p q : pointf) : pointf :=
  ⟨p.x - q.x, p.y - q.y⟩

/-- `expandbp`. -/
def expandbp (b : boxf) (p : pointf) : boxf :=
  ⟨⟨min b.LL.x p.x, min b.LL.y p.y⟩, ⟨max b.UR.x p.x, max b.UR.y p.y⟩⟩

/-- `expandbbf`. -/
def expandbbf (b0 b1 : boxf) : boxf :=
  ⟨⟨min b0.LL.x b1.LL.x, min b0.LL.y b1.LL.y⟩, ⟨max b0.UR.x b1.UR.x, max b0.UR.y b1.UR.y⟩⟩

/-- One box lies within another. -/
structure boxf.Within (a b : boxf) : Prop where
  llx : b.LL.x ≤ a.LL.x
  lly : b.LL.y ≤ a.LL.y
  urx : a.UR.x ≤ b.UR.x
  ury : a.UR.y ≤ b.UR.y

namespace boxf.Within

variable {a b c : boxf}

theorem refl (a : boxf) : a.Within a := ⟨le_rfl, le_rfl, le_rfl, le_rfl⟩

theorem trans (hab : a.Within b) (hbc : b.Within c) : a.Within c :=
  ⟨hbc.llx.trans hab.llx, hbc.lly.trans hab.lly, hab.urx.trans hbc.urx, hab.ury.trans hbc.ury⟩

theorem expandbp (b : boxf) (p : pointf) : b.Within (expandbp b p) :=
  ⟨min_le_left _ _, min_le_left _ _, le_max_left _ _, le_max_left _ _⟩

theorem expandbbf (a b : boxf) : a.Within (expandbbf a b) :=
  ⟨min_le_left _ _, min_le_left _ _, le_max_left _ _, le_max_left _ _⟩

theorem expandbbf_right (a b : boxf) : b.Within (Graphviz.expandbbf a b) :=
  ⟨min_le_right _ _, min_le_right _ _, le_max_right _ _, le_max_right _ _⟩

end boxf.Within

/-- A box moved. -/
def boxf.translate (bb : boxf) (p : pointf) : boxf :=
  ⟨add_pointf bb.LL p, add_pointf bb.UR p⟩

/-- The box with the margin around it. -/
def boxf.grow (b : boxf) (margin : ℕ) : boxf :=
  ⟨⟨b.LL.x - margin, b.LL.y - margin⟩, ⟨b.UR.x + margin, b.UR.y + margin⟩⟩

/-- The lower left corner of a box is below and left of the upper right one. -/
structure boxf.Ordered (b : boxf) : Prop where
  x : b.LL.x ≤ b.UR.x
  y : b.LL.y ≤ b.UR.y

/-- A box whose corners are integer points. -/
structure boxf.IntBox (b : boxf) : Prop extends b.Ordered where
  llx : IsInt b.LL.x
  lly : IsInt b.LL.y
  urx : IsInt b.UR.x
  ury : IsInt b.UR.y

/-! ## Boxes beside each other -/

/-- One box is on one side of the other. -/
def boxf.Apart (a b : boxf) : Prop :=
  (a.UR.x ≤ b.LL.x ∨ b.UR.x ≤ a.LL.x) ∨ a.UR.y ≤ b.LL.y ∨ b.UR.y ≤ a.LL.y

/-- The open box. -/
def boxf.interior (b : boxf) : Set (ℝ × ℝ) :=
  Set.Ioo (b.LL.x : ℝ) b.UR.x ×ˢ Set.Ioo (b.LL.y : ℝ) b.UR.y

theorem Ioo_disjoint_of_le {a b c d : ℚ} (h : b ≤ c ∨ d ≤ a) :
    Disjoint (Set.Ioo (a : ℝ) b) (Set.Ioo (c : ℝ) d) := by
  refine Set.disjoint_left.2 fun x hx hx' => ?_
  obtain h | h := h
  · have : (b : ℝ) ≤ c := by exact_mod_cast h
    linarith [hx.2, hx'.1]
  · have : (d : ℝ) ≤ a := by exact_mod_cast h
    linarith [hx.1, hx'.2]

/-- Boxes that are apart have disjoint interiors. -/
theorem boxf.Apart.disjoint {a b : boxf} (h : a.Apart b) : Disjoint a.interior b.interior := by
  refine Set.disjoint_prod.2 ?_
  obtain h | h := h
  · exact .inl (Ioo_disjoint_of_le h)
  · exact .inr (Ioo_disjoint_of_le h)

/-- Boxes within boxes that are apart are apart. -/
theorem boxf.Apart.mono {a a' b b' : boxf} (h : a'.Apart b') (ha : a.Within a')
    (hb : b.Within b') : a.Apart b := by
  rcases h with (h | h) | h | h
  · exact .inl (.inl (ha.urx.trans (h.trans hb.llx)))
  · exact .inl (.inr (hb.urx.trans (h.trans ha.llx)))
  · exact .inr (.inl (ha.ury.trans (h.trans hb.lly)))
  · exact .inr (.inr (hb.ury.trans (h.trans ha.lly)))

end Graphviz

/-!
## Bounding boxes

The parts of a laid out graph that `compute_bb` reads: the boxes of the nodes,
the control points of the splines, the labels that are set, and the boxes of the clusters.
-/

namespace Graphviz.Pack

/-- `textlabel_t`, of a label that is set. -/
structure textlabel_t where
  pos : pointf
  dimen : pointf

/-- `bezier`; the points `sp` and `ep` count when their flags are set. -/
structure bezier where
  list : List pointf
  sflag : Bool
  eflag : Bool
  sp : pointf
  ep : pointf
  two_le : 2 ≤ list.length

/-- An edge: the coordinates of its head, its splines and its labels. -/
structure Agedge where
  head : pointf
  spl : Option (List bezier)
  label : Option textlabel_t
  head_label : Option textlabel_t
  tail_label : Option textlabel_t
  xlabel : Option textlabel_t

/-- A node: its position in inches, its size and its edges in the graph. -/
structure Agnode where
  pos : pointf
  lw : ℚ
  rw : ℚ
  ht : ℚ
  xlabel : Option textlabel_t
  out : List Agedge

/-- A graph: its bounding box so far, its nodes, the boxes of its clusters and its label. -/
structure Agraph where
  bb : boxf
  nodes : List Agnode
  clust : List boxf
  label : Option textlabel_t
  flip : Bool

/-- `coord`. -/
def coord (n : Agnode) : pointf :=
  ⟨72 * n.pos.x, 72 * n.pos.y⟩

/-- `ND_xsize`. -/
def ND_xsize (n : Agnode) : ℚ := n.lw + n.rw

/-- `ND_ysize`. -/
def ND_ysize (n : Agnode) : ℚ := n.ht

/-- `addLabelBB`. -/
def addLabelBB (bb : boxf) (lp : textlabel_t) (flipxy : Bool) : boxf :=
  let width := if flipxy then lp.dimen.y else lp.dimen.x
  let height := if flipxy then lp.dimen.x else lp.dimen.y
  let p := lp.pos
  { LL := ⟨if p.x - width / 2 < bb.LL.x then p.x - width / 2 else bb.LL.x,
           if p.y - height / 2 < bb.LL.y then p.y - height / 2 else bb.LL.y⟩
    UR := ⟨if p.x + width / 2 > bb.UR.x then p.x + width / 2 else bb.UR.x,
           if p.y + height / 2 > bb.UR.y then p.y + height / 2 else bb.UR.y⟩ }

/-- `addLabelBB` for a label that may be missing or not set. -/
def addSetLabel (flip : Bool) (bb : boxf) : Option textlabel_t → boxf
  | none => bb
  | some lp => addLabelBB bb lp flip

/-- The box of a node. -/
def nodeBox (n : Agnode) : boxf :=
  let s2 : pointf := ⟨ND_xsize n / 2, ND_ysize n / 2⟩
  ⟨sub_pointf (coord n) s2, add_pointf (coord n) s2⟩

/-- What an edge adds to the box in `compute_bb`; an edge without splines adds nothing. -/
def addEdge (flip : Bool) (bb : boxf) (e : Agedge) : boxf :=
  match e.spl with
  | none => bb
  | some spl =>
    let bb := spl.foldl (fun bb bz => bz.list.foldl expandbp bb) bb
    [e.label, e.head_label, e.tail_label, e.xlabel].foldl (addSetLabel flip) bb

/-- What a node and its edges add to the box in `compute_bb`. -/
def addNode (flip : Bool) (bb : boxf) (n : Agnode) : boxf :=
  n.out.foldl (addEdge flip) (addSetLabel flip (expandbbf bb (nodeBox n)) n.xlabel)

/-- `INT_MAX`. -/
def INT_MAX : ℚ := 2147483647

/-- `compute_bb`: the new `GD_bb` of the graph. The box of a graph without nodes and clusters
stays as it is. -/
def compute_bb (g : Agraph) : boxf :=
  if g.nodes.length = 0 ∧ g.clust.length = 0 then g.bb
  else
    let bb : boxf := ⟨⟨INT_MAX, INT_MAX⟩, ⟨-INT_MAX, -INT_MAX⟩⟩
    let bb := g.nodes.foldl (addNode g.flip) bb
    let bb := g.clust.foldl expandbbf bb
    addSetLabel g.flip bb g.label

/-! ## Every step grows the box -/

theorem within_addSetLabel (flip : Bool) (b : boxf) (l : Option textlabel_t) :
    b.Within (addSetLabel flip b l) := by
  cases l with
  | none => exact .refl b
  | some lp =>
    have hlow : ∀ a c : ℚ, (if a < c then a else c) ≤ c := fun a c => by
      split <;> rename_i h <;> linarith
    have hhigh : ∀ a c : ℚ, c ≤ if a > c then a else c := fun a c => by
      split <;> rename_i h <;> linarith
    exact ⟨hlow _ _, hlow _ _, hhigh _ _, hhigh _ _⟩

/-- A loop whose rounds grow the box grows it. -/
theorem within_foldl {α : Type} {f : boxf → α → boxf} (hf : ∀ (b : boxf) x, b.Within (f b x))
    (l : List α) (b : boxf) : b.Within (l.foldl f b) := by
  induction l generalizing b with
  | nil => exact .refl b
  | cons x l ih => exact (hf b x).trans (ih (f b x))

theorem within_addEdge (flip : Bool) (b : boxf) (e : Agedge) : b.Within (addEdge flip b e) := by
  unfold addEdge
  cases e.spl with
  | none => exact .refl b
  | some spl =>
    have hspl := within_foldl (fun b (bz : bezier) => within_foldl .expandbp bz.list b) spl b
    exact hspl.trans (within_foldl (within_addSetLabel flip) _ _)

theorem within_addNode (flip : Bool) (b : boxf) (n : Agnode) :
    (expandbbf b (nodeBox n)).Within (addNode flip b n) :=
  (within_addSetLabel flip _ _).trans (within_foldl (within_addEdge flip) _ _)

/-- The bounding box covers the boxes of the nodes. -/
theorem nodeBox_within {g : Agraph} {n : Agnode} (hn : n ∈ g.nodes) :
    (nodeBox n).Within (compute_bb g) := by
  obtain ⟨A, B, hAB⟩ := List.append_of_mem hn
  have hne : ¬ (g.nodes.length = 0 ∧ g.clust.length = 0) := by simp [hAB]
  have hstep : ∀ (b : boxf) n, b.Within (addNode g.flip b n) := fun b n =>
    (boxf.Within.expandbbf b (nodeBox n)).trans (within_addNode g.flip b n)
  rw [compute_bb, if_neg hne, hAB]
  simp only [List.foldl_append, List.foldl_cons]
  -- after the round of the node the box covers it, and the rest of the loop only grows the box
  set b := A.foldl (addNode g.flip) ⟨⟨INT_MAX, INT_MAX⟩, ⟨-INT_MAX, -INT_MAX⟩⟩
  have hround : (nodeBox n).Within (addNode g.flip b n) :=
    (boxf.Within.expandbbf_right b (nodeBox n)).trans (within_addNode g.flip b n)
  have hnodes := hround.trans (within_foldl hstep B _)
  have hclust := hnodes.trans (within_foldl .expandbbf g.clust _)
  exact hclust.trans (within_addSetLabel g.flip _ g.label)

end Graphviz.Pack
