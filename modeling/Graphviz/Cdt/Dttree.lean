import Graphviz.Library.BinTree
import Graphviz.Library.SortedSet

/-!
# Ordered dictionaries

`lib/cdt`: `dttree.c` for the methods `Dtoset` and `Dttree`, `dtflatten.c`, `dtextract.c`,
`dtrestore.c` and `dtsize.c`. A dictionary's links form a tree whose root `data.here` points to; a
flattened dictionary's links form a chain of right children. Objects are values, equal when they
are one pointer. The holders that `disc->link < 0` asks for, and where a key lies in its object,
are left to `key`; an allocation that fails is left out, as are `freef` and what it releases, and
the counter `size` is not bounded.
-/

namespace Graphviz

universe u v

variable {Obj : Type u} {Key : Type v}

/-- `Dtdisc_t`. The comparator is a strict weak order, and an object that `makef` makes has the
key it was asked for. -/
structure Dtdisc (Obj : Type u) (Key : Type v) where
  key : Obj → Key
  comparf : Key → Key → Ordering
  makef : Option (Obj → Option Obj)
  trans : Std.TransCmp comparf
  makef_key : ∀ f ∈ makef, ∀ obj, ∀ made ∈ f obj, comparf (key obj) (key made) = .eq

instance (disc : Dtdisc Obj Key) : Std.TransCmp disc.comparf :=
  disc.trans

/-- `Dt_t`: the tree, the bit `DT_FLATTEN` of the type, and the number of objects, which is not
known while it is negative. -/
structure Dt (Obj : Type u) where
  here : BinTree Obj
  flatten : Bool
  size : Int

/-- What `dttree` is asked to do, with its argument: an object, and a key for `DT_MATCH`. -/
inductive DtSearch (Obj : Type u) (Key : Type v) where
  | DT_INSERT (obj : Obj)
  | DT_DELETE (obj : Obj)
  | DT_DETACH (obj : Obj)
  | DT_SEARCH (obj : Obj)
  | DT_MATCH (key : Key)
  | DT_NEXT (obj : Obj)
  | DT_PREV (obj : Obj)
  | DT_FIRST
  | DT_LAST
  | DT_CLEAR

/-! ## The top-down search -/

/-- The state of `do_search`: `l` and `r`, the spines of the LEFT and the RIGHT tree from their
last links up, and the root that is left between them. -/
structure Splay (Obj : Type u) where
  l : List (BinTree Obj × Obj)
  root : BinTree Obj
  r : List (Obj × BinTree Obj)

/-- The loop `do_search`. It ends with the link of the key for a root, or without a root. -/
def doSearch (disc : Dtdisc Obj Key) (key : Key) : BinTree Obj →
    List (BinTree Obj × Obj) → List (Obj × BinTree Obj) → Splay Obj
  | .nil, l, r => ⟨l, .nil, r⟩
  | .node left root right, l, r =>
    match disc.comparf key (disc.key root) with
    | .eq => ⟨l, .node left root right, r⟩
    | .lt =>
      match left with
      | .nil => ⟨l, .nil, (root, right) :: r⟩
      | .node tl t tr =>
        match disc.comparf key (disc.key t) with
        | .lt => doSearch disc key tl l ((t, .node tr root right) :: r)
        | .eq => ⟨l, .node tl t tr, (root, right) :: r⟩
        | .gt => doSearch disc key tr ((tl, t) :: l) ((root, right) :: r)
    | .gt =>
      match right with
      | .nil => ⟨(left, root) :: l, .nil, r⟩
      | .node tl t tr =>
        match disc.comparf key (disc.key t) with
        | .gt => doSearch disc key tr ((.node left root tl, t) :: l) r
        | .eq => ⟨(left, root) :: l, .node tl t tr, r⟩
        | .lt => doSearch disc key tl ((left, root) :: l) ((t, tr) :: r)

/-- The tree taken apart at a link: the LEFT tree `link.right`, the object found, and the RIGHT
tree `link.left`. -/
structure Isolated (Obj : Type u) where
  linkRight : BinTree Obj
  root : Option Obj
  linkLeft : BinTree Obj

/-- Isolate the root, or finish up the LEFT and RIGHT trees without one. -/
def Splay.isolate (s : Splay Obj) : Isolated Obj :=
  match s.root with
  | .nil => ⟨.plugRight s.l .nil, none, .plugLeft s.r .nil⟩
  | .node left root right => ⟨.plugRight s.l left, some root, .plugLeft s.r right⟩

/-- Search for a key and take the tree apart there. -/
def searchKey (disc : Dtdisc Obj Key) (here : BinTree Obj) (key : Key) : Isolated Obj :=
  (doSearch disc key here [] []).isolate

/-- Search for an object's key, unless the object is at the root. -/
def searchObj [DecidableEq Obj] (disc : Dtdisc Obj Key) (here : BinTree Obj) (obj : Obj) :
    Isolated Obj :=
  match here with
  | .nil => searchKey disc .nil (disc.key obj)
  | .node left root right =>
    if root = obj then (Splay.mk [] (.node left root right) []).isolate
    else searchKey disc (.node left root right) (disc.key obj)

/-! ## The parts that end `dttree` -/

/-- `has_root`. -/
def hasRoot (dt : Dt Obj) (linkRight : BinTree Obj) (root : Obj) (linkLeft : BinTree Obj) :
    Option Obj × Dt Obj :=
  (some root, { dt with here := .node linkRight root linkLeft })

/-- `no_root`: the LEFT tree is hung below the first link of the RIGHT tree. -/
def noRoot (dt : Dt Obj) (linkRight linkLeft : BinTree Obj) (obj : Option Obj) :
    Option Obj × Dt Obj :=
  (obj, { dt with here := linkLeft.graft linkRight })

/-- `dt_next`: the first link of the RIGHT tree becomes the root. -/
def dtNext (dt : Dt Obj) (linkRight linkLeft : BinTree Obj) : Option Obj × Dt Obj :=
  match linkLeft with
  | .nil => noRoot dt linkRight linkLeft none
  | .node left root right =>
    hasRoot dt linkRight (BinTree.popMin left root right).1 (BinTree.popMin left root right).2

/-- `dt_prev`: the last link of the LEFT tree becomes the root. -/
def dtPrev (dt : Dt Obj) (linkRight linkLeft : BinTree Obj) : Option Obj × Dt Obj :=
  match linkRight with
  | .nil => noRoot dt linkRight linkLeft none
  | .node left root right =>
    hasRoot dt (BinTree.popMax left root right).1 (BinTree.popMax left root right).2 linkLeft

/-- `dt_insert`. -/
def dtInsert (disc : Dtdisc Obj Key) (dt : Dt Obj) (linkRight linkLeft : BinTree Obj) (obj : Obj) :
    Option Obj × Dt Obj :=
  match disc.makef.elim (some obj) (· obj) with
  | none => noRoot dt linkRight linkLeft none
  | some root =>
    hasRoot { dt with size := if 0 ≤ dt.size then dt.size + 1 else dt.size } linkRight root linkLeft

/-- `dt_delete`, for `DT_DELETE` and `DT_DETACH`. -/
def dtDelete (dt : Dt Obj) (linkRight linkLeft : BinTree Obj) (obj : Option Obj) :
    Option Obj × Dt Obj :=
  noRoot { dt with size := if dt.size - 1 < 0 then dt.size - 2 else dt.size - 1 }
    linkRight linkLeft obj

/-! ## Flattening -/

/-- `dtrestore` without a list, as `UNFLATTEN` calls it on a flattened dictionary. -/
def unflatten (dt : Dt Obj) : Dt Obj :=
  { dt with flatten := false }

/-- The number of nodes falls when the first object is rotated to the root and taken off. -/
theorem count_popMin_lt {l r : BinTree Obj} {a : Obj} :
    (BinTree.popMin l a r).2.count < (BinTree.node l a r).count := by
  have h := congrArg List.length (BinTree.toList_popMin (l := l) (r := r) (a := a))
  rw [BinTree.count_eq, BinTree.count_eq, BinTree.toList_node, ← h]
  exact Nat.lt_succ_self _

/-- The loops of `dtflatten`: each link is rotated to the right until it has no left child, and
the loop goes on at its right child. -/
def flattenTree : BinTree Obj → BinTree Obj
  | .nil => .nil
  | .node left r right =>
    .node .nil (BinTree.popMin left r right).1 (flattenTree (BinTree.popMin left r right).2)
termination_by t => t.count
decreasing_by exact count_popMin_lt

/-- `dtflatten`. -/
def dtflatten (dt : Dt Obj) : Dt Obj :=
  if dt.flatten then dt else { dt with here := flattenTree dt.here, flatten := true }

/-! ## The operations -/

/-- `dttree`. -/
def dttree [DecidableEq Obj] (disc : Dtdisc Obj Key) (dt : Dt Obj) :
    DtSearch Obj Key → Option Obj × Dt Obj
  | .DT_CLEAR =>
    match (unflatten dt).here with
    | .nil => (none, unflatten dt)
    | .node .. => (none, { unflatten dt with size := 0, here := .nil })
  | .DT_FIRST =>
    match (unflatten dt).here with
    | .nil => (none, unflatten dt)
    | .node left root right =>
      hasRoot (unflatten dt) .nil (BinTree.popMin left root right).1
        (BinTree.popMin left root right).2
  | .DT_LAST =>
    match (unflatten dt).here with
    | .nil => (none, unflatten dt)
    | .node left root right =>
      hasRoot (unflatten dt) (BinTree.popMax left root right).1
        (BinTree.popMax left root right).2 .nil
  | .DT_SEARCH obj =>
    match searchKey disc (unflatten dt).here (disc.key obj) with
    | ⟨linkRight, some root, linkLeft⟩ => hasRoot (unflatten dt) linkRight root linkLeft
    | ⟨linkRight, none, linkLeft⟩ => noRoot (unflatten dt) linkRight linkLeft none
  | .DT_MATCH key =>
    match searchKey disc (unflatten dt).here key with
    | ⟨linkRight, some root, linkLeft⟩ => hasRoot (unflatten dt) linkRight root linkLeft
    | ⟨linkRight, none, linkLeft⟩ => noRoot (unflatten dt) linkRight linkLeft none
  | .DT_INSERT obj =>
    match searchKey disc (unflatten dt).here (disc.key obj) with
    | ⟨linkRight, some root, linkLeft⟩ => hasRoot (unflatten dt) linkRight root linkLeft
    | ⟨linkRight, none, linkLeft⟩ => dtInsert disc (unflatten dt) linkRight linkLeft obj
  | .DT_NEXT obj =>
    match searchObj disc (unflatten dt).here obj with
    | ⟨linkRight, some root, linkLeft⟩ => dtNext (unflatten dt) (.node linkRight root .nil) linkLeft
    | ⟨linkRight, none, linkLeft⟩ => dtNext (unflatten dt) linkRight linkLeft
  | .DT_PREV obj =>
    match searchObj disc (unflatten dt).here obj with
    | ⟨linkRight, some root, linkLeft⟩ => dtPrev (unflatten dt) linkRight (.node .nil root linkLeft)
    | ⟨linkRight, none, linkLeft⟩ => dtPrev (unflatten dt) linkRight linkLeft
  | .DT_DELETE obj =>
    match searchObj disc (unflatten dt).here obj with
    | ⟨linkRight, some root, linkLeft⟩ => dtDelete (unflatten dt) linkRight linkLeft (some root)
    | ⟨linkRight, none, linkLeft⟩ => noRoot (unflatten dt) linkRight linkLeft none
  | .DT_DETACH obj =>
    match searchObj disc (unflatten dt).here obj with
    | ⟨linkRight, some _, linkLeft⟩ => dtDelete (unflatten dt) linkRight linkLeft none
    | ⟨linkRight, none, linkLeft⟩ => noRoot (unflatten dt) linkRight linkLeft none

/-- `dtextract`: the links, and the dictionary without them. -/
def dtextract (dt : Dt Obj) : BinTree Obj × Dt Obj :=
  (dt.here, ⟨.nil, false, 0⟩)

/-- `dtrestore`, of links that were extracted when there are some. -/
def dtrestore (dt : Dt Obj) (list : BinTree Obj) : Int × Dt Obj :=
  match list with
  | .nil => if dt.flatten then (0, { dt with flatten := false }) else (-1, dt)
  | .node .. =>
    if dt.size ≠ 0 then (-1, dt)
    else (0, ⟨list, false, dt.size - 1⟩)

/-- `dtsize`. -/
def dtsize (dt : Dt Obj) : Int × Dt Obj :=
  let dt := unflatten dt
  if dt.size < 0 then (dt.here.count, { dt with size := dt.here.count }) else (dt.size, dt)

/-- `dtopen`. -/
def dtopen : Dt Obj :=
  ⟨.nil, false, 0⟩

end Graphviz
