import Graphviz.Cdt.Dttree
import Graphviz.Library.Descent
import Mathlib

/-!
# Ordered dictionaries are finite sets

`Dt.Inv` is the invariant of an ordered dictionary: its tree is a search tree, its links form a
chain while it is flattened, and the counter is the number of objects unless it is negative. Each
operation keeps it and answers as the finite set of the dictionary's objects does.
-/

namespace Graphviz

open BinTree List SortedSet Std

universe u v

variable {Obj : Type u} {Key : Type v} {disc : Dtdisc Obj Key} {dt : Dt Obj} {k : Key}

/-- The invariant of an ordered dictionary. -/
structure Dt.Inv (disc : Dtdisc Obj Key) (dt : Dt Obj) : Prop where
  sorted : Sorted disc.key disc.comparf dt.here.toList
  chain : dt.flatten = true → dt.here.rightChain = dt.here.toList
  size : 0 ≤ dt.size → dt.size = dt.here.toList.length

/-- The new dictionary is the old one with the objects `S`. -/
def Dt.Holds (disc : Dtdisc Obj Key) (dt : Dt Obj) (S : List Obj) : Prop :=
  dt.Inv disc ∧ dt.here.toList = S

/-! ## The search -/

/-- What a search has moved to the two sides, and what it has left to look at. -/
structure Splay.Looks (disc : Dtdisc Obj Key) (k : Key) (s : Splay Obj) (S : List Obj) : Prop where
  eq : (plugRight s.l .nil).toList ++ (s.root.toList ++ (plugLeft s.r .nil).toList) = S
  left : ∀ a ∈ (plugRight s.l .nil).toList, disc.comparf k (disc.key a) = .gt
  right : ∀ b ∈ (plugLeft s.r .nil).toList, disc.comparf k (disc.key b) = .lt

section
variable {t left right : BinTree Obj} {a : Obj} {l : List (BinTree Obj × Obj)}
  {r : List (Obj × BinTree Obj)} {S : List Obj}

/-- The objects below a node of a search tree are in order with it. -/
theorem sorted_node (h : Sorted disc.key disc.comparf (left.toList ++ a :: right.toList)) :
    (∀ x ∈ left.toList, disc.comparf (disc.key x) (disc.key a) = .lt) ∧
      ∀ y ∈ right.toList, disc.comparf (disc.key a) (disc.key y) = .lt := by
  obtain ⟨_, hr, hlr⟩ := pairwise_append.1 h
  exact ⟨fun x hx => hlr x hx a mem_cons_self, (pairwise_cons.1 hr).1⟩

/-- `rlink`: the root goes to the RIGHT tree with what is after it, and the search goes on before
it. -/
theorem Splay.Looks.rlink (hS : Sorted disc.key disc.comparf S)
    (h : Splay.Looks disc k ⟨l, .node left a right, r⟩ S) (ha : disc.comparf k (disc.key a) = .lt) :
    Splay.Looks disc k ⟨l, left, (a, right) :: r⟩ S := by
  have heq := h.eq
  have hmid : Sorted disc.key disc.comparf (left.toList ++ a :: right.toList) := by
    rw [← heq] at hS
    exact (pairwise_append.1 (pairwise_append.1 hS).2.1).1
  refine ⟨?_, h.left, ?_⟩
  · rw [← heq, plugLeft, toList_plugLeft (t := .node .nil a right)]
    simp
  · intro b hb
    rw [plugLeft, toList_plugLeft] at hb
    obtain hb | hb := mem_append.1 hb
    · cases hb with
      | head => exact ha
      | tail _ hb => exact TransCmp.lt_trans ha ((sorted_node hmid).2 b hb)
    · exact h.right b hb

/-- `llink`: the root goes to the LEFT tree with what is before it, and the search goes on after
it. -/
theorem Splay.Looks.llink (hS : Sorted disc.key disc.comparf S)
    (h : Splay.Looks disc k ⟨l, .node left a right, r⟩ S) (ha : disc.comparf k (disc.key a) = .gt) :
    Splay.Looks disc k ⟨(left, a) :: l, right, r⟩ S := by
  have heq := h.eq
  have hmid : Sorted disc.key disc.comparf (left.toList ++ a :: right.toList) := by
    rw [← heq] at hS
    exact (pairwise_append.1 (pairwise_append.1 hS).2.1).1
  refine ⟨?_, ?_, h.right⟩
  · rw [← heq, plugRight, toList_plugRight (t := .node left a .nil)]
    simp
  · intro b hb
    rw [plugRight, toList_plugRight] at hb
    obtain hb | hb := mem_append.1 hb
    · exact h.left b hb
    · obtain hb | hb := mem_append.1 hb
      · exact gt_of_lt_of_gt ((sorted_node hmid).1 b hb) ha
      · rw [mem_singleton.1 hb]
        exact ha

/-- What a search looks at is a matter of the order of the objects, not of the tree's shape. -/
theorem Splay.Looks.congr {t' : BinTree Obj} (h : Splay.Looks disc k ⟨l, t, r⟩ S)
    (ht : t'.toList = t.toList) : Splay.Looks disc k ⟨l, t', r⟩ S :=
  ⟨by rw [← h.eq, ht], h.left, h.right⟩

/-- The loop ends with nothing more to look at, or at a link of the key. -/
theorem doSearch_looks (hS : Sorted disc.key disc.comparf S) (h : Splay.Looks disc k ⟨l, t, r⟩ S) :
    Splay.Looks disc k (doSearch disc k t l r) S ∧
      ∀ left a right, (doSearch disc k t l r).root = .node left a right →
        disc.comparf k (disc.key a) = .eq := by
  fun_induction doSearch disc k t l r with
  | case1 l r => exact ⟨h, nofun⟩
  | case2 left root right l r hcmp =>
    refine ⟨h, fun _ _ _ hroot => ?_⟩
    cases hroot
    exact hcmp
  | case3 root right l r hcmp => exact ⟨h.rlink hS hcmp, nofun⟩
  | case4 root right l r hcmp tl t tr ht ih =>
    have hrot : Splay.Looks disc k ⟨l, .node tl t (.node tr root right), r⟩ S := h.congr (by simp)
    exact ih (hrot.rlink hS ht)
  | case5 root right l r hcmp tl t tr ht =>
    refine ⟨h.rlink hS hcmp, fun _ _ _ hroot => ?_⟩
    cases hroot
    exact ht
  | case6 root right l r hcmp tl t tr ht ih => exact ih ((h.rlink hS hcmp).llink hS ht)
  | case7 left root l r hcmp => exact ⟨h.llink hS hcmp, nofun⟩
  | case8 left root l r hcmp tl t tr ht ih =>
    have hrot : Splay.Looks disc k ⟨l, .node (.node left root tl) t tr, r⟩ S := h.congr (by simp)
    exact ih (hrot.llink hS ht)
  | case9 left root l r hcmp tl t tr ht =>
    refine ⟨h.llink hS hcmp, fun _ _ _ hroot => ?_⟩
    cases hroot
    exact ht
  | case10 left root l r hcmp tl t tr ht ih => exact ih ((h.llink hS hcmp).rlink hS ht)

/-- A tree taken apart at a key is a cut of its objects. -/
def Isolated.Cuts (disc : Dtdisc Obj Key) (k : Key) (S : List Obj) (i : Isolated Obj) : Prop :=
  Cut disc.key disc.comparf k S i.linkRight.toList i.root i.linkLeft.toList

/-- The root is isolated between its own subtrees. -/
theorem Splay.Looks.isolate {s : Splay Obj} (hS : Sorted disc.key disc.comparf S)
    (h : s.Looks disc k S)
    (hroot : ∀ left a right, s.root = .node left a right → disc.comparf k (disc.key a) = .eq) :
    s.isolate.Cuts disc k S := by
  obtain ⟨l, root, r⟩ := s
  cases root with
  | nil => exact ⟨h.eq.symm, h.left, nofun, h.right⟩
  | node left a right =>
    have heq : S = (plugRight l left).toList ++ a :: (plugLeft r right).toList := by
      rw [toList_plugRight, toList_plugLeft, ← h.eq]
      simp
    subst heq
    exact hS.cut (hroot left a right rfl)

theorem searchKey_cuts (hS : Sorted disc.key disc.comparf t.toList) :
    (searchKey disc t k).Cuts disc k t.toList := by
  have hstart : Splay.Looks disc k ⟨[], t, []⟩ t.toList :=
    ⟨by simp [plugRight, plugLeft], by simp [plugRight], by simp [plugLeft]⟩
  have h := doSearch_looks hS hstart
  exact h.1.isolate hS h.2

theorem searchObj_cuts [DecidableEq Obj] (obj : Obj) (hS : Sorted disc.key disc.comparf t.toList) :
    (searchObj disc t obj).Cuts disc (disc.key obj) t.toList := by
  cases t with
  | nil => exact searchKey_cuts hS
  | node left root right =>
    rw [searchObj]
    split
    next heq =>
      subst heq
      exact hS.cut (ReflCmp.compare_self)
    next => exact searchKey_cuts hS

end

/-! ## The parts that end `dttree` -/

section
variable {A B : BinTree Obj} {a : Obj} {m : Option Obj} {S : List Obj}

/-- A tree with all objects in order for a root. -/
theorem hasRoot_holds (hdt : dt.flatten = false)
    (hS : Sorted disc.key disc.comparf (A.toList ++ a :: B.toList))
    (hsize : 0 ≤ dt.size → dt.size = (A.toList ++ a :: B.toList).length) :
    (hasRoot dt A a B).2.Holds disc (A.toList ++ a :: B.toList) :=
  ⟨⟨hS, fun h => (nomatch hdt.symm.trans h), hsize⟩, rfl⟩

theorem noRoot_holds (hdt : dt.flatten = false)
    (hS : Sorted disc.key disc.comparf (A.toList ++ B.toList))
    (hsize : 0 ≤ dt.size → dt.size = (A.toList ++ B.toList).length) :
    (noRoot dt A B m).2.Holds disc (A.toList ++ B.toList) := by
  have hlist : (B.graft A).toList = A.toList ++ B.toList := toList_graft
  refine ⟨⟨?_, fun h => (nomatch hdt.symm.trans h), fun h => ?_⟩, hlist⟩
  · rw [noRoot, hlist]
    exact hS
  · rw [noRoot, hlist]
    exact hsize h

theorem dtNext_holds (hdt : dt.flatten = false)
    (hS : Sorted disc.key disc.comparf (A.toList ++ B.toList))
    (hsize : 0 ≤ dt.size → dt.size = (A.toList ++ B.toList).length) :
    (dtNext dt A B).1 = B.toList.head? ∧ (dtNext dt A B).2.Holds disc (A.toList ++ B.toList) := by
  cases B with
  | nil => exact ⟨rfl, noRoot_holds hdt hS hsize⟩
  | node left b right =>
    have hpop := toList_popMin (l := left) (r := right) (a := b)
    rw [toList_node, ← hpop] at hS hsize ⊢
    exact ⟨rfl, hasRoot_holds hdt hS hsize⟩

theorem dtPrev_holds (hdt : dt.flatten = false)
    (hS : Sorted disc.key disc.comparf (A.toList ++ B.toList))
    (hsize : 0 ≤ dt.size → dt.size = (A.toList ++ B.toList).length) :
    (dtPrev dt A B).1 = A.toList.getLast? ∧
      (dtPrev dt A B).2.Holds disc (A.toList ++ B.toList) := by
  cases A with
  | nil => exact ⟨rfl, noRoot_holds hdt hS hsize⟩
  | node left b right =>
    have hpop := toList_popMax (l := left) (r := right) (a := b)
    rw [toList_node, ← hpop, append_assoc, singleton_append] at hS hsize ⊢
    refine ⟨?_, hasRoot_holds hdt hS hsize⟩
    rw [getLast?_append]
    rfl

end

/-! ## The operations -/

/-- The answers of a finite set, and the set after them. -/
def setSearch (disc : Dtdisc Obj Key) (S : List Obj) : DtSearch Obj Key → Option Obj × List Obj
  | .DT_INSERT obj =>
    match lookup disc.key disc.comparf (disc.key obj) S with
    | some o => (some o, S)
    | none =>
      match disc.makef.elim (some obj) (· obj) with
      | some made => (some made, insert disc.key disc.comparf (disc.key obj) made S)
      | none => (none, S)
  | .DT_DELETE obj =>
    (lookup disc.key disc.comparf (disc.key obj) S, erase disc.key disc.comparf (disc.key obj) S)
  | .DT_DETACH obj => (none, erase disc.key disc.comparf (disc.key obj) S)
  | .DT_SEARCH obj => (lookup disc.key disc.comparf (disc.key obj) S, S)
  | .DT_MATCH key => (lookup disc.key disc.comparf key S, S)
  | .DT_NEXT obj => (next disc.key disc.comparf (disc.key obj) S, S)
  | .DT_PREV obj => (prev disc.key disc.comparf (disc.key obj) S, S)
  | .DT_FIRST => (S.head?, S)
  | .DT_LAST => (S.getLast?, S)
  | .DT_CLEAR => (none, [])

section
variable {A B : BinTree Obj} {a : Obj} {m : Option Obj} {S : List Obj} {obj : Obj}

theorem Dt.Inv.unflatten (h : dt.Inv disc) : (unflatten dt).Inv disc :=
  ⟨h.sorted, nofun, h.size⟩

/-- An object made for `obj` stands where `obj`'s key does. -/
theorem Dtdisc.made_key {made : Obj} (h : disc.makef.elim (some obj) (· obj) = some made) :
    disc.comparf (disc.key obj) (disc.key made) = .eq := by
  cases hf : disc.makef with
  | none =>
    rw [hf] at h
    cases h
    exact ReflCmp.compare_self
  | some f =>
    rw [hf] at h
    exact disc.makef_key f hf obj made h

/-- The end of a search that found its key: the objects are as before. -/
theorem hasRoot_cut (hdt : dt.flatten = false) (hS : Sorted disc.key disc.comparf S)
    (hsize : 0 ≤ dt.size → dt.size = S.length)
    (h : Cut disc.key disc.comparf k S A.toList (some a) B.toList) :
    (hasRoot dt A a B).1 = lookup disc.key disc.comparf k S ∧
      (hasRoot dt A a B).2.Holds disc S := by
  rw [h.lookup]
  have heq : S = A.toList ++ a :: B.toList := h.eq
  subst heq
  exact ⟨rfl, hasRoot_holds hdt hS hsize⟩

/-- The end of a search that did not find its key. -/
theorem noRoot_cut (hdt : dt.flatten = false) (hS : Sorted disc.key disc.comparf S)
    (hsize : 0 ≤ dt.size → dt.size = S.length)
    (h : Cut disc.key disc.comparf k S A.toList none B.toList) :
    (noRoot dt A B none).1 = lookup disc.key disc.comparf k S ∧
      (noRoot dt A B none).2.Holds disc S := by
  rw [h.lookup]
  have heq : S = A.toList ++ B.toList := h.eq
  subst heq
  exact ⟨rfl, noRoot_holds hdt hS hsize⟩

theorem dtInsert_holds (hdt : dt.flatten = false) (hS : Sorted disc.key disc.comparf S)
    (hsize : 0 ≤ dt.size → dt.size = S.length)
    (h : Cut disc.key disc.comparf (disc.key obj) S A.toList none B.toList) :
    (dtInsert disc dt A B obj).1 = (setSearch disc S (.DT_INSERT obj)).1 ∧
      (dtInsert disc dt A B obj).2.Holds disc (setSearch disc S (.DT_INSERT obj)).2 := by
  have heq : S = A.toList ++ B.toList := h.eq
  simp only [setSearch, h.lookup]
  rw [dtInsert]
  split
  next hmade =>
    simp only [hmade]
    subst heq
    exact ⟨rfl, noRoot_holds hdt hS hsize⟩
  next root hmade =>
    simp only [hmade, h.insert]
    refine ⟨rfl, hasRoot_holds hdt (h.sorted_insert hS (disc.made_key hmade)) fun hpos => ?_⟩
    have hlen : (A.toList ++ root :: B.toList).length = S.length + 1 := by
      rw [heq, length_append, length_append]
      rfl
    simp only at hpos ⊢
    split at hpos
    next hs => rw [if_pos hs, hsize hs, hlen]; rfl
    next hs => exact absurd hpos hs

theorem dtDelete_holds (hdt : dt.flatten = false) (hS : Sorted disc.key disc.comparf S)
    (hsize : 0 ≤ dt.size → dt.size = S.length)
    (h : Cut disc.key disc.comparf k S A.toList (some a) B.toList) :
    (dtDelete dt A B m).2.Holds disc (erase disc.key disc.comparf k S) := by
  rw [h.erase]
  refine noRoot_holds hdt (h.sorted_erase hS) fun hpos => ?_
  have hlen : S.length = (A.toList ++ B.toList).length + 1 := by
    rw [h.eq]
    simp
    omega
  simp only at hpos ⊢
  split at hpos
  · omega
  · rw [if_neg (by assumption), hsize (by omega), hlen]
    omega

theorem erase_of_none (h : Cut disc.key disc.comparf k S A.toList none B.toList) :
    erase disc.key disc.comparf k S = S := by
  rw [h.erase]
  exact h.eq.symm

/-- `dttree` answers as a finite set does, and keeps the invariant. -/
theorem dttree_spec [DecidableEq Obj] (h : dt.Inv disc) (req : DtSearch Obj Key) :
    (dttree disc dt req).1 = (setSearch disc dt.here.toList req).1 ∧
      (dttree disc dt req).2.Holds disc (setSearch disc dt.here.toList req).2 := by
  have hu := h.unflatten
  have hf : (Graphviz.unflatten dt).flatten = false := rfl
  have hS : Sorted disc.key disc.comparf (Graphviz.unflatten dt).here.toList := hu.sorted
  have hsize := hu.size
  have htl : dt.here.toList = (Graphviz.unflatten dt).here.toList := rfl
  rw [htl]
  cases req with
  | DT_SEARCH obj =>
    have hcut := searchKey_cuts (k := disc.key obj) hS
    rw [dttree]
    split
    next heq => rw [heq] at hcut; exact hasRoot_cut hf hS hsize hcut
    next heq => rw [heq] at hcut; exact noRoot_cut hf hS hsize hcut
  | DT_MATCH key =>
    have hcut := searchKey_cuts (k := key) hS
    rw [dttree]
    split
    next heq => rw [heq] at hcut; exact hasRoot_cut hf hS hsize hcut
    next heq => rw [heq] at hcut; exact noRoot_cut hf hS hsize hcut
  | DT_INSERT obj =>
    have hcut := searchKey_cuts (k := disc.key obj) hS
    rw [dttree]
    split
    next heq =>
      rw [heq] at hcut
      have hfound := hasRoot_cut hf hS hsize hcut
      simp only [setSearch]
      rw [hcut.lookup] at hfound ⊢
      exact hfound
    next heq => rw [heq] at hcut; exact dtInsert_holds hf hS hsize hcut
  | DT_DELETE obj =>
    have hcut := searchObj_cuts obj hS
    rw [dttree]
    split
    next heq =>
      rw [heq] at hcut
      exact ⟨hcut.lookup.symm, dtDelete_holds hf hS hsize hcut⟩
    next heq =>
      rw [heq] at hcut
      rw [setSearch, erase_of_none hcut]
      exact noRoot_cut hf hS hsize hcut
  | DT_DETACH obj =>
    have hcut := searchObj_cuts obj hS
    rw [dttree]
    split
    next heq => rw [heq] at hcut; exact ⟨rfl, dtDelete_holds hf hS hsize hcut⟩
    next heq =>
      rw [heq] at hcut
      rw [setSearch, erase_of_none hcut]
      exact ⟨rfl, (noRoot_cut hf hS hsize hcut).2⟩
  | DT_NEXT obj =>
    have hcut := searchObj_cuts obj hS
    rw [dttree, setSearch, hcut.next]
    have heq := hcut.eq
    split
    next A root B hi =>
      rw [hi] at heq ⊢
      have hlist : (BinTree.node A root .nil).toList ++ B.toList =
          (Graphviz.unflatten dt).here.toList := by rw [heq]; simp
      rw [← hlist] at hS hsize ⊢
      exact dtNext_holds hf hS hsize
    next A B hi =>
      rw [hi] at heq ⊢
      simp only [Option.toList_none, nil_append] at heq
      rw [heq] at hS hsize ⊢
      exact dtNext_holds hf hS hsize
  | DT_PREV obj =>
    have hcut := searchObj_cuts obj hS
    rw [dttree, setSearch, hcut.prev]
    have heq := hcut.eq
    split
    next A root B hi =>
      rw [hi] at heq ⊢
      have hlist : A.toList ++ (BinTree.node .nil root B).toList =
          (Graphviz.unflatten dt).here.toList := by rw [heq]; simp
      rw [← hlist] at hS hsize ⊢
      exact dtPrev_holds hf hS hsize
    next A B hi =>
      rw [hi] at heq ⊢
      simp only [Option.toList_none, nil_append] at heq
      rw [heq] at hS hsize ⊢
      exact dtPrev_holds hf hS hsize
  | DT_FIRST =>
    rw [dttree, setSearch]
    split
    next hnil => exact ⟨by rw [hnil]; rfl, hu, rfl⟩
    next left root right hnode =>
      have hpop := toList_popMin (l := left) (r := right) (a := root)
      rw [hnode, toList_node, ← hpop] at hS hsize ⊢
      exact ⟨rfl, hasRoot_holds hf hS hsize⟩
  | DT_LAST =>
    rw [dttree, setSearch]
    split
    next hnil => exact ⟨by rw [hnil]; rfl, hu, rfl⟩
    next left root right hnode =>
      have hpop := toList_popMax (l := left) (r := right) (a := root)
      rw [hnode, toList_node, ← hpop] at hS hsize ⊢
      refine ⟨?_, hasRoot_holds hf hS hsize⟩
      rw [getLast?_append]
      rfl
  | DT_CLEAR =>
    rw [dttree, setSearch]
    split
    next hnil => exact ⟨rfl, hu, by rw [hnil]; rfl⟩
    next => exact ⟨rfl, ⟨List.Pairwise.nil, by rintro ⟨⟩, fun _ => rfl⟩, rfl⟩

end

/-! ## Searches as descents -/

/-- The comparisons of a search for a key. -/
abbrev Dtdisc.descent (disc : Dtdisc Obj Key) (k : Key) (obj : Obj) : Ordering :=
  disc.comparf k (disc.key obj)

/-- The loop of a search goes down the tree, whatever order its objects are in. -/
theorem doSearch_find {t : BinTree Obj} {l : List (BinTree Obj × Obj)}
    {r : List (Obj × BinTree Obj)} :
    (doSearch disc k t l r).isolate.root = BinTree.find (disc.descent k) t := by
  fun_induction doSearch disc k t l r with
  | case1 l r => rfl
  | case2 left root right l r hcmp => rw [find_eq (c := disc.descent k) hcmp]; rfl
  | case3 root right l r hcmp => rw [find_lt (c := disc.descent k) hcmp]; rfl
  | case4 root right l r hcmp tl t tr ht ih =>
    rw [ih, find_lt (c := disc.descent k) hcmp, find_lt (c := disc.descent k) ht]
  | case5 root right l r hcmp tl t tr ht =>
    rw [find_lt (c := disc.descent k) hcmp, find_eq (c := disc.descent k) ht]
    rfl
  | case6 root right l r hcmp tl t tr ht ih =>
    rw [ih, find_lt (c := disc.descent k) hcmp, find_gt (c := disc.descent k) ht]
  | case7 left root l r hcmp => rw [find_gt (c := disc.descent k) hcmp]; rfl
  | case8 left root l r hcmp tl t tr ht ih =>
    rw [ih, find_gt (c := disc.descent k) hcmp, find_gt (c := disc.descent k) ht]
  | case9 left root l r hcmp tl t tr ht =>
    rw [find_gt (c := disc.descent k) hcmp, find_eq (c := disc.descent k) ht]
    rfl
  | case10 left root l r hcmp tl t tr ht ih =>
    rw [ih, find_gt (c := disc.descent k) hcmp, find_lt (c := disc.descent k) ht]

/-- `DT_MATCH` answers as the descent does, whatever order the objects are in. -/
theorem match_find [DecidableEq Obj] (disc : Dtdisc Obj Key) (dt : Dt Obj) (k : Key) :
    (dttree disc dt (.DT_MATCH k)).1 = BinTree.find (disc.descent k) dt.here := by
  have hfind : (searchKey disc (unflatten dt).here k).root =
      BinTree.find (disc.descent k) dt.here := doSearch_find
  rw [dttree, ← hfind]
  split
  next heq => rw [heq]; rfl
  next heq => rw [heq]; rfl

/-- A search takes no object away and adds none, whatever order the objects are in. -/
theorem doSearch_toList (disc : Dtdisc Obj Key) (k : Key) {t : BinTree Obj}
    {l : List (BinTree Obj × Obj)} {r : List (Obj × BinTree Obj)} :
    (plugRight (doSearch disc k t l r).l .nil).toList ++ ((doSearch disc k t l r).root.toList ++
      (plugLeft (doSearch disc k t l r).r .nil).toList) =
        (plugRight l .nil).toList ++ (t.toList ++ (plugLeft r .nil).toList) := by
  have hright : ∀ (l : List (BinTree Obj × Obj)) (s : BinTree Obj) (a : Obj),
      (plugRight ((s, a) :: l) .nil).toList = (plugRight l .nil).toList ++ (s.toList ++ [a]) :=
    fun l s a => by rw [plugRight, toList_plugRight]; simp
  have hleft : ∀ (r : List (Obj × BinTree Obj)) (s : BinTree Obj) (a : Obj),
      (plugLeft ((a, s) :: r) .nil).toList = a :: s.toList ++ (plugLeft r .nil).toList :=
    fun r s a => by rw [plugLeft, toList_plugLeft]; simp
  fun_induction doSearch disc k t l r with
  | case1 | case2 => rfl
  | case3 | case5 | case7 | case9 => simp [hright, hleft]
  | case4 _ _ _ _ _ _ _ _ _ ih | case6 _ _ _ _ _ _ _ _ _ ih | case8 _ _ _ _ _ _ _ _ _ ih
  | case10 _ _ _ _ _ _ _ _ _ ih => rw [ih]; simp [hright, hleft]

/-- `DT_MATCH` changes the shape of the tree alone, whatever order the objects are in. -/
theorem match_toList [DecidableEq Obj] (disc : Dtdisc Obj Key) (dt : Dt Obj) (k : Key) :
    (dttree disc dt (.DT_MATCH k)).2.here.toList = dt.here.toList := by
  have hlist : (searchKey disc (unflatten dt).here k).linkRight.toList ++
      ((searchKey disc (unflatten dt).here k).root.toList ++
        (searchKey disc (unflatten dt).here k).linkLeft.toList) = dt.here.toList := by
    have h := doSearch_toList disc k (t := dt.here) (l := []) (r := [])
    rw [searchKey, unflatten, Splay.isolate]
    cases hroot : (doSearch disc k dt.here [] []).root with
    | nil =>
      rw [hroot] at h
      simpa [plugRight, plugLeft] using h
    | node left a right =>
      rw [hroot] at h
      rw [toList_plugRight, toList_plugLeft]
      simpa [plugRight, plugLeft] using h
  rw [dttree]
  split
  next heq =>
    rw [heq] at hlist
    simpa [hasRoot] using hlist
  next heq =>
    rw [heq] at hlist
    simpa [noRoot, toList_graft] using hlist

/-! ## The object at the root -/

/-- An object is at the root of a tree, with some objects after it. -/
def AtRoot (t : BinTree Obj) (obj : Obj) (rest : List Obj) : Prop :=
  ∃ left right, t = .node left obj right ∧ right.toList = rest

/-- `DT_FIRST` brings the first object to the root, whatever order the objects are in. -/
theorem first_atRoot [DecidableEq Obj] (disc : Dtdisc Obj Key) (dt : Dt Obj) :
    (dttree disc dt .DT_FIRST).1 = dt.here.toList.head? ∧
      (dttree disc dt .DT_FIRST).2.here.toList = dt.here.toList ∧
      ∀ obj rest, dt.here.toList = obj :: rest →
        AtRoot (dttree disc dt .DT_FIRST).2.here obj rest := by
  have hun : (unflatten dt).here = dt.here := rfl
  rw [dttree, hun]
  cases ht : dt.here with
  | nil => exact ⟨rfl, by rw [hun, ht], fun obj rest h => by cases h⟩
  | node left a right =>
    have hpop := toList_popMin (l := left) (r := right) (a := a)
    rw [toList_node, ← hpop]
    refine ⟨rfl, rfl, fun obj rest h => ?_⟩
    obtain ⟨rfl, rfl⟩ := cons.inj h
    exact ⟨.nil, _, rfl, rfl⟩

/-- `DT_NEXT` of the object at the root brings the one after it there, without a comparison. -/
theorem next_atRoot [DecidableEq Obj] (disc : Dtdisc Obj Key) {a : Obj} {rest : List Obj}
    (h : AtRoot dt.here a rest) :
    (dttree disc dt (.DT_NEXT a)).1 = rest.head? ∧
      (dttree disc dt (.DT_NEXT a)).2.here.toList = dt.here.toList ∧
      ∀ obj rest', rest = obj :: rest' →
        AtRoot (dttree disc dt (.DT_NEXT a)).2.here obj rest' := by
  obtain ⟨left, right, ht, rfl⟩ := h
  have hun : (unflatten dt).here = .node left a right := ht
  rw [dttree, hun, searchObj, if_pos rfl, ht]
  cases right with
  | nil => exact ⟨rfl, rfl, fun obj rest' h => by cases h⟩
  | node l b r =>
    have hpop := toList_popMin (l := l) (r := r) (a := b)
    rw [toList_node (l := left), toList_node (l := l), ← hpop]
    refine ⟨rfl, ?_, fun obj rest' h => ?_⟩
    · simp [Splay.isolate, plugRight, plugLeft, dtNext, hasRoot]
    · obtain ⟨rfl, rfl⟩ := cons.inj h
      exact ⟨_, _, rfl, rfl⟩

end Graphviz

/-!
## Renewing an object

`lib/cdt/dtrenew.c` for ordered dictionaries, and what `dttree` does for `DT_RENEW`. The object at
the root is taken out of the tree without a look at its key, which may have changed, and is put back
where its key now belongs.
-/

namespace Graphviz

open BinTree SortedSet

universe u v

variable {Obj : Type u} {Key : Type v}

/-! ## The functions -/

/-- `dtfinger`. -/
def dtfinger (dt : Dt Obj) : Option Obj :=
  match dt.here with
  | .nil => none
  | .node _ root _ => some root

/-- `dttree` with `DT_RENEW`: an object whose key is in the dictionary already is dropped. -/
def dttreeRenew (disc : Dtdisc Obj Key) (dt : Dt Obj) (me : Obj) : Option Obj × Dt Obj :=
  match searchKey disc (unflatten dt).here (disc.key me) with
  | ⟨linkRight, some root, linkLeft⟩ => hasRoot (unflatten dt) linkRight root linkLeft
  | ⟨linkRight, none, linkLeft⟩ =>
    hasRoot { unflatten dt with size := dt.size + 1 } linkRight me linkLeft

/-- `dtrenew`. -/
def dtrenew [DecidableEq Obj] (disc : Dtdisc Obj Key) (dt : Dt Obj) (obj : Option Obj) : Dt Obj :=
  match (unflatten dt).here with
  | .nil => unflatten dt
  | .node left e right =>
    if obj ≠ some e then unflatten dt
    else
      -- the right child, or else the left one, is the new root
      (dttreeRenew disc { unflatten dt with here := right.graft left, size := dt.size - 1 } e).2

/-! ## Renewing -/

variable {disc : Dtdisc Obj Key} {dt : Dt Obj}

/-- A search that finds an object brings it to the root. -/
theorem search_finger [DecidableEq Obj] {obj a : Obj}
    (h : (dttree disc dt (.DT_SEARCH obj)).1 = some a) :
    ∃ left right, (dttree disc dt (.DT_SEARCH obj)).2.here = .node left a right := by
  rw [dttree] at h ⊢
  split at h
  · rename_i left root right heq
    cases h
    exact ⟨left, right, rfl⟩
  · cases h

/-- A renewed object stands where its key belongs among the others, or is dropped. -/
theorem dtrenew_holds [DecidableEq Obj] {left right : BinTree Obj} {e : Obj}
    (hhere : dt.here = .node left e right)
    (hS : Sorted disc.key disc.comparf (left.toList ++ right.toList))
    (hnew : lookup disc.key disc.comparf (disc.key e) (left.toList ++ right.toList) = none)
    (hsize : 0 ≤ dt.size → dt.size = dt.here.toList.length) :
    (dtrenew disc dt (dtfinger dt)).Holds disc
      (insert disc.key disc.comparf (disc.key e) e (left.toList ++ right.toList)) := by
  have hfinger : dtfinger dt = some e := by rw [dtfinger, hhere]
  have hun : (unflatten dt).here = .node left e right := hhere
  have hrest : (right.graft left).toList = left.toList ++ right.toList := toList_graft
  have hlen : dt.here.toList.length = (left.toList ++ right.toList).length + 1 := by
    rw [hhere, toList_node]
    simp
    omega
  rw [dtrenew, hun, hfinger]
  dsimp only
  rw [if_neg (not_not_intro rfl), dttreeRenew]
  rw [← hrest] at hS hnew hlen ⊢
  have hcut := searchKey_cuts (k := disc.key e) hS
  have hnone : (searchKey disc (right.graft left) (disc.key e)).root = none := by
    rw [← hcut.lookup, hnew]
  rw [unflatten]
  dsimp only
  cases hi : searchKey disc (right.graft left) (disc.key e) with
  | mk A m B =>
    rw [hi] at hcut hnone
    cases hnone
    dsimp only
    rw [hcut.insert]
    refine hasRoot_holds rfl (hcut.sorted_insert hS Std.ReflCmp.compare_self) fun hpos => ?_
    have heq := congrArg List.length hcut.eq
    dsimp only at heq hpos ⊢
    rw [Option.toList_none, List.nil_append, List.length_append] at heq
    rw [List.length_append, List.length_cons]
    obtain hneg | hge := Int.lt_or_le dt.size 0
    · omega
    · rw [hsize hge, hlen]
      push_cast
      omega

end Graphviz
