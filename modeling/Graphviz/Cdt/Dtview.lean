import Graphviz.Cdt.DtRun
import Graphviz.Library.Overlay

/-!
# Viewpaths

`lib/cdt/dtview.c` and `dtwalk.c`, for ordered dictionaries of one method and discipline. A
program's dictionaries are numbered; `view` is the next dictionary on the viewpath of each, and
`dtview` refuses to close a cycle. A search through the top dictionary answers as the nearest
dictionary that holds the key does, and a walk meets the union of the dictionaries on the path,
each key once, with the nearest object for it. The counter `nview` and the field `walk`, which
only the unordered methods read, are left out.
-/

namespace Graphviz

open BinTree Function List SortedSet Std

universe u v

variable {Obj : Type u} {Key : Type v}

/-- The dictionaries of a program: each one's contents, and the next one on its viewpath. Every
dictionary keeps its invariant, and no viewpath comes back to its start. -/
structure DtViews (disc : Dtdisc Obj Key) where
  dict : Nat → Dt Obj
  view : Nat → Option Nat
  inv : ∀ d, (dict d).Inv disc
  acyclic : WellFounded fun e d => view d = some e

namespace DtViews

variable {disc : Dtdisc Obj Key}

/-- The loop `for (d = dt; d; d = d->view)`: the dictionaries it visits. -/
def viewpath (v : DtViews disc) (d : Nat) : List Nat :=
  match _h : v.view d with
  | none => [d]
  | some e => d :: v.viewpath e
termination_by v.acyclic.wrap d
decreasing_by assumption

/-- The objects of a dictionary, in order. -/
def objs (v : DtViews disc) (d : Nat) : List Obj :=
  (v.dict d).here.toList

/-- The objects of the dictionaries on the viewpath, the nearest dictionary first. -/
def pathObjs (v : DtViews disc) (d : Nat) : List (List Obj) :=
  (v.viewpath d).map v.objs

/-- `d->meth->searchf(d, obj, type)`. -/
def searchf [DecidableEq Obj] (v : DtViews disc) (d : Nat) (req : DtSearch Obj Key) :
    Option Obj × DtViews disc :=
  ((dttree disc (v.dict d) req).1,
    { v with
      dict := Function.update v.dict d (dttree disc (v.dict d) req).2
      inv := fun e => by
        rw [update_apply]
        split
        next => exact (dttree_spec (v.inv d) req).2.1
        next => exact v.inv e })

/-- The loop of `dtvsearch` for `DT_SEARCH` and `DT_MATCH`: it breaks at the first dictionary that
has the object. -/
def searchLoop [DecidableEq Obj] (req : DtSearch Obj Key) :
    List Nat → DtViews disc → Option Obj × DtViews disc
  | [], v => (none, v)
  | d :: ds, v =>
    match v.searchf d req with
    | (some o, v) => (some o, v)
    | (none, v) => searchLoop req ds v

/-- The loop of `dtvsearch` for the ordered methods: `n` is the object kept so far, and `better`
tells whether a new one is to be taken instead. -/
def orderLoop [DecidableEq Obj] (req : DtSearch Obj Key) (better : Obj → Obj → Bool) :
    List Nat → Option Obj → DtViews disc → Option Obj × DtViews disc
  | [], n, v => (n, v)
  | d :: ds, n, v =>
    match v.searchf d req with
    | (none, v) => orderLoop req better ds n v
    | (some o, v) =>
      match n with
      | none => orderLoop req better ds (some o) v
      | some n => orderLoop req better ds (some (if better o n then o else n)) v

/-- `dtvsearch`. -/
def dtvsearch [DecidableEq Obj] (v : DtViews disc) (d : Nat) :
    DtSearch Obj Key → Option Obj × DtViews disc
  | .DT_INSERT obj => v.searchf d (.DT_INSERT obj)
  | .DT_DELETE obj => v.searchf d (.DT_DELETE obj)
  | .DT_CLEAR => v.searchf d .DT_CLEAR
  | .DT_MATCH key => searchLoop (.DT_MATCH key) (v.viewpath d) v
  | .DT_SEARCH obj => searchLoop (.DT_SEARCH obj) (v.viewpath d) v
  | .DT_DETACH _ => (none, v)
  | .DT_FIRST => orderLoop .DT_FIRST (fun o n => disc.comparf (disc.key o) (disc.key n) == .lt)
      (v.viewpath d) none v
  | .DT_NEXT obj => orderLoop (.DT_NEXT obj)
      (fun o n => disc.comparf (disc.key o) (disc.key n) == .lt) (v.viewpath d) none v
  | .DT_LAST => orderLoop .DT_LAST (fun o n => disc.comparf (disc.key o) (disc.key n) == .gt)
      (v.viewpath d) none v
  | .DT_PREV obj => orderLoop (.DT_PREV obj)
      (fun o n => disc.comparf (disc.key o) (disc.key n) == .gt) (v.viewpath d) none v

/-- A call through `dt->searchf`, which is `dttree` until `dtview` sets `dtvsearch`. -/
def call [DecidableEq Obj] (v : DtViews disc) (d : Nat) (req : DtSearch Obj Key) :
    Option Obj × DtViews disc :=
  match v.view d with
  | none => v.searchf d req
  | some _ => v.dtvsearch d req

/-- `UNFLATTEN`. -/
def unflatten (v : DtViews disc) (d : Nat) : DtViews disc :=
  { v with
    dict := Function.update v.dict d (Graphviz.unflatten (v.dict d))
    inv := fun e => by
      rw [update_apply]
      split
      next => exact (v.inv d).unflatten
      next => exact v.inv e }

/-- The program's dictionaries when it starts. -/
def opened (disc : Dtdisc Obj Key) : DtViews disc where
  dict _ := dtopen
  view _ := none
  inv _ := dtopen_holds.1
  acyclic := ⟨fun d => Acc.intro d nofun⟩

/-- A walk with `dtnext` or `dtprev` from `obj` until there is no object, as `dtwalk` makes it: the
objects it meets. It may make `n` steps. -/
def walkLoop [DecidableEq Obj] (d : Nat) (step : Obj → DtSearch Obj Key) :
    Nat → Option Obj × DtViews disc → Option (List Obj × DtViews disc)
  | _, (none, v) => some ([], v)
  | 0, (some _, _) => none
  | n + 1, (some o, v) => (walkLoop d step n (v.call d (step o))).map fun r => (o :: r.1, r.2)

/-- `dtwalk`: `dtfirst`, and then `dtnext` from each object. -/
def dtwalk [DecidableEq Obj] (v : DtViews disc) (d n : Nat) : Option (List Obj × DtViews disc) :=
  walkLoop d .DT_NEXT n (v.call d .DT_FIRST)

/-- The same walk from the other end, with `dtlast` and `dtprev`. -/
def dtwalkBack [DecidableEq Obj] (v : DtViews disc)
    (d n : Nat) : Option (List Obj × DtViews disc) :=
  walkLoop d .DT_PREV n (v.call d .DT_LAST)

/-! ## Setting a view -/

theorem mem_viewpath_self (v : DtViews disc) (d : Nat) : d ∈ v.viewpath d := by
  rw [viewpath]
  split
  next => exact mem_singleton_self d
  next => exact mem_cons_self

theorem viewpath_of_view {v : DtViews disc} {d e : Nat} (h : v.view d = some e) :
    v.viewpath d = d :: v.viewpath e := by
  rw [viewpath]
  split
  next hnone => rw [h] at hnone; cases hnone
  next e' hsome =>
    rw [h] at hsome
    cases hsome
    rfl

/-- Dropping a view leaves no cycle. -/
theorem acyclic_none (v : DtViews disc) (d : Nat) :
    WellFounded fun e x => Function.update v.view d none x = some e := by
  refine Subrelation.wf (fun {e x} h => ?_) v.acyclic
  rw [update_apply] at h
  split at h
  · cases h
  · exact h

/-- A view of a dictionary that does not lead back closes no cycle. -/
theorem acyclic_some (v : DtViews disc) {d e : Nat} (hd : d ∉ v.viewpath e) :
    WellFounded fun y x => Function.update v.view d (some e) x = some y := by
  -- what lies on the path from `e` is accessible as before
  have hpath : ∀ x, d ∉ v.viewpath x →
      Acc (fun y x => Function.update v.view d (some e) x = some y) x := by
    intro x
    induction x using v.acyclic.induction with
    | h x ih =>
      intro hx
      refine Acc.intro x fun y hy => ?_
      have hxd : x ≠ d := fun heq => hx (heq ▸ v.mem_viewpath_self x)
      rw [update_of_ne hxd] at hy
      refine ih y hy fun hmem => hx ?_
      rw [viewpath_of_view hy]
      exact mem_cons_of_mem x hmem
  refine ⟨fun x => ?_⟩
  induction x using v.acyclic.induction with
  | h x ih =>
    refine Acc.intro x fun y hy => ?_
    rw [update_apply] at hy
    split at hy
    · cases hy
      exact hpath e hd
    · exact ih y hy

/-- `dtview`: the path from the new view is searched for the dictionary itself. -/
def dtview (v : DtViews disc) (d : Nat) : Option Nat → Option Nat × DtViews disc
  | none =>
    ((v.unflatten d).view d,
      { v.unflatten d with
        view := Function.update v.view d none
        acyclic := v.acyclic_none d })
  | some e =>
    if hd : d ∈ v.viewpath e then (none, (v.unflatten d).unflatten e)
    else
      (some e,
        { (v.unflatten d).unflatten e with
          view := Function.update v.view d (some e)
          acyclic := v.acyclic_some hd })

/-! ## One search -/

/-- The two program states differ in the shapes of trees alone. -/
structure Same (v v' : DtViews disc) : Prop where
  view : v'.view = v.view
  objs : v'.objs = v.objs

theorem Same.refl (v : DtViews disc) : v.Same v :=
  ⟨rfl, rfl⟩

theorem Same.trans {v v' v'' : DtViews disc} (h : v.Same v') (h' : v'.Same v'') : v.Same v'' :=
  ⟨h'.view.trans h.view, h'.objs.trans h.objs⟩

theorem Same.viewpath {v v' : DtViews disc} (h : v.Same v') (d : Nat) :
    v'.viewpath d = v.viewpath d := by
  induction d using v.acyclic.induction with
  | h d ih =>
    cases hd : v.view d with
    | none =>
      have hd' : v'.view d = none := by rw [h.view, hd]
      rw [DtViews.viewpath, DtViews.viewpath]
      split <;> split <;> simp_all
    | some e =>
      have hd' : v'.view d = some e := by rw [h.view, hd]
      rw [viewpath_of_view hd, viewpath_of_view hd', ih e hd]

theorem Same.pathObjs {v v' : DtViews disc} (h : v.Same v') (d : Nat) :
    v'.pathObjs d = v.pathObjs d := by
  rw [DtViews.pathObjs, h.viewpath, h.objs, DtViews.pathObjs]

/-- The searches that leave the set as it is. -/
def IsQuery (disc : Dtdisc Obj Key) (req : DtSearch Obj Key) : Prop :=
  ∀ S, (setSearch disc S req).2 = S

section
variable [DecidableEq Obj] {req : DtSearch Obj Key} {v : DtViews disc}

theorem searchf_spec (d : Nat) (hq : IsQuery disc req) :
    (v.searchf d req).1 = (setSearch disc (v.objs d) req).1 ∧ v.Same (v.searchf d req).2 := by
  have hspec := dttree_spec (v.inv d) req
  refine ⟨hspec.1, rfl, funext fun e => ?_⟩
  rw [searchf, objs, objs]
  simp only [update_apply]
  split
  next he =>
    subst he
    exact hspec.2.2.trans (hq _)
  next => rfl

/-- The loop of `dtsearch` and `dtmatch` returns the first object that is found. -/
theorem searchLoop_spec (hq : IsQuery disc req) (ds : List Nat) :
    (searchLoop req ds v).1 = ds.findSome? (fun d => (setSearch disc (v.objs d) req).1) ∧
      v.Same (searchLoop req ds v).2 := by
  induction ds generalizing v with
  | nil => exact ⟨rfl, .refl v⟩
  | cons d ds ih =>
    obtain ⟨hres, hsame⟩ := searchf_spec (v := v) d hq
    rw [searchLoop, findSome?_cons, ← hres]
    cases hr : v.searchf d req with
    | mk o v' =>
      rw [hr] at hsame
      cases o with
      | some o => exact ⟨rfl, hsame⟩
      | none =>
        obtain ⟨hres', hsame'⟩ := ih (v := v')
        simp only
        rw [hres', hsame.objs]
        exact ⟨rfl, hsame.trans hsame'⟩

/-- What the loop of the ordered methods keeps of two candidates. -/
def keep (better : Obj → Obj → Bool) : Option Obj → Option Obj → Option Obj
  | n, none => n
  | none, some o => some o
  | some n, some o => some (if better o n then o else n)

/-- The loop of the ordered methods keeps one of the candidates of the dictionaries. -/
theorem orderLoop_spec (hq : IsQuery disc req) (better : Obj → Obj → Bool) (ds : List Nat)
    (n : Option Obj) :
    (orderLoop req better ds n v).1 =
        (ds.map fun d => (setSearch disc (v.objs d) req).1).foldl (keep better) n ∧
      v.Same (orderLoop req better ds n v).2 := by
  induction ds generalizing v n with
  | nil => exact ⟨rfl, .refl v⟩
  | cons d ds ih =>
    obtain ⟨hres, hsame⟩ := searchf_spec (v := v) d hq
    rw [orderLoop, map_cons, foldl_cons, ← hres]
    cases hr : v.searchf d req with
    | mk o v' =>
      rw [hr] at hsame
      have hrest : ∀ m, (orderLoop req better ds m v').1 =
            (ds.map fun d => (setSearch disc (v.objs d) req).1).foldl (keep better) m ∧
          v.Same (orderLoop req better ds m v').2 := by
        intro m
        obtain ⟨hres', hsame'⟩ := ih (v := v') (n := m)
        rw [hres', hsame.objs]
        exact ⟨rfl, hsame.trans hsame'⟩
      cases o with
      | none => cases n <;> exact hrest _
      | some o => cases n <;> exact hrest _

end

end DtViews

end Graphviz

/-!
## What a viewpath answers

Each query through the top dictionary of a viewpath, and the walks along it, in terms of the union
of the dictionaries on the path.
-/

namespace Graphviz.DtViews

open List SortedSet Std

universe u v

variable {Obj : Type u} {Key : Type v} {disc : Dtdisc Obj Key} {v : DtViews disc} {d : Nat}

theorem sorted_pathObjs : ∀ S ∈ v.pathObjs d, Sorted disc.key disc.comparf S := by
  intro S hS
  obtain ⟨e, _, rfl⟩ := mem_map.1 hS
  exact (v.inv e).sorted

theorem viewpath_of_none (h : v.view d = none) : v.viewpath d = [d] := by
  rw [viewpath]
  split
  next => rfl
  next e hsome => rw [h] at hsome; cases hsome

/-- Keeping what comes first is choosing the least. -/
theorem keep_lt : keep (fun o n => disc.comparf (disc.key o) (disc.key n) == .lt) =
    lesser disc.key disc.comparf := by
  funext n o
  cases n <;> cases o <;> simp [keep, lesser, apply_ite some]

/-- Keeping what comes last is choosing the least in the other direction. -/
theorem keep_gt : keep (fun o n => disc.comparf (disc.key o) (disc.key n) == .gt) =
    lesser disc.key fun x y => disc.comparf y x := by
  funext n o
  cases n <;> cases o <;> simp [keep, lesser, apply_ite some, OrientedCmp.gt_iff_lt]

section
variable [DecidableEq Obj] {req : DtSearch Obj Key}

theorem searchLoop_singleton : searchLoop req [d] v = v.searchf d req := by
  rw [searchLoop]
  cases v.searchf d req with
  | mk o v' => cases o <;> rfl

theorem orderLoop_singleton {better : Obj → Obj → Bool} :
    orderLoop req better [d] none v = v.searchf d req := by
  rw [orderLoop]
  cases v.searchf d req with
  | mk o v' => cases o <;> rfl

/-! ## Queries -/

/-- `dtsearch` and `dtmatch` find the nearest object of the key. -/
theorem searchLoop_nearest {k : Key} (hq : IsQuery disc req)
    (hreq : ∀ S, (setSearch disc S req).1 = lookup disc.key disc.comparf k S) :
    (searchLoop req (v.viewpath d) v).1 =
        nearest disc.key disc.comparf k (v.pathObjs d) ∧
      v.Same (searchLoop req (v.viewpath d) v).2 := by
  obtain ⟨hres, hsame⟩ := searchLoop_spec (v := v) hq (v.viewpath d)
  refine ⟨hres.trans ?_, hsame⟩
  rw [pathObjs]
  induction v.viewpath d with
  | nil => rfl
  | cons e ds ih =>
    rw [findSome?_cons, map_cons, nearest, hreq, ih]
    rfl

/-- A search in one dictionary is the search on a path of one. -/
theorem call_search {k : Key} (hq : IsQuery disc req)
    (hcall : v.dtvsearch d req = searchLoop req (v.viewpath d) v)
    (hreq : ∀ S, (setSearch disc S req).1 = lookup disc.key disc.comparf k S) :
    (v.call d req).1 = nearest disc.key disc.comparf k (v.pathObjs d) ∧
      v.Same (v.call d req).2 := by
  have hloop : v.call d req = searchLoop req (v.viewpath d) v := by
    rw [call]
    split
    next hnone => rw [viewpath_of_none hnone, searchLoop_singleton]
    next => exact hcall
  rw [hloop]
  exact searchLoop_nearest hq hreq

theorem call_order {better : Obj → Obj → Bool} (hq : IsQuery disc req)
    (hcall : v.dtvsearch d req = orderLoop req better (v.viewpath d) none v) :
    (v.call d req).1 =
        ((v.pathObjs d).map fun S => (setSearch disc S req).1).foldl (keep better) none ∧
      v.Same (v.call d req).2 := by
  have hloop : v.call d req = orderLoop req better (v.viewpath d) none v := by
    rw [call]
    split
    next hnone => rw [viewpath_of_none hnone, orderLoop_singleton]
    next => exact hcall
  rw [hloop, pathObjs, map_map]
  exact orderLoop_spec hq better (v.viewpath d) none

variable {U : List Obj}

/-- A query that returns the first object of a set that passes a test of the key returns the first
such object of the union. -/
theorem call_first {p : Obj → Bool} (hU : Overlay disc.key disc.comparf (v.pathObjs d) U)
    (hq : IsQuery disc req)
    (hcall : v.dtvsearch d req = orderLoop req
      (fun o n => disc.comparf (disc.key o) (disc.key n) == .lt) (v.viewpath d) none v)
    (hreq : ∀ S, (setSearch disc S req).1 = (S.filter p).head?)
    (hp : ∀ a b, disc.comparf (disc.key a) (disc.key b) = .eq → p a = p b) :
    (v.call d req).1 = (U.filter p).head? ∧ v.Same (v.call d req).2 := by
  obtain ⟨hres, hsame⟩ := call_order hq hcall
  refine ⟨?_, hsame⟩
  rw [hres, keep_lt]
  simp only [hreq]
  exact hU.head?_filter sorted_pathObjs hp

/-- The same for the last object. -/
theorem call_last {p : Obj → Bool} (hU : Overlay disc.key disc.comparf (v.pathObjs d) U)
    (hq : IsQuery disc req)
    (hcall : v.dtvsearch d req = orderLoop req
      (fun o n => disc.comparf (disc.key o) (disc.key n) == .gt) (v.viewpath d) none v)
    (hreq : ∀ S, (setSearch disc S req).1 = (S.filter p).getLast?)
    (hp : ∀ a b, disc.comparf (disc.key a) (disc.key b) = .eq → p a = p b) :
    (v.call d req).1 = (U.filter p).getLast? ∧ v.Same (v.call d req).2 := by
  obtain ⟨hres, hsame⟩ := call_order hq hcall
  refine ⟨?_, hsame⟩
  have hrev : ∀ S : List Obj, (S.filter p).getLast? = (S.reverse.filter p).head? := fun S => by
    rw [filter_reverse, head?_reverse]
  have hleast := (hU.reverse sorted_pathObjs).head?_filter (p := p)
    (fun S hS => by
      obtain ⟨T, hT, rfl⟩ := mem_map.1 hS
      exact (sorted_pathObjs T hT).reverse)
    fun a b hab => hp a b (OrientedCmp.eq_symm hab)
  rw [hres, keep_gt, hrev, ← hleast, map_map]
  simp only [hreq, hrev]
  rfl

theorem dtfirst_spec (hU : Overlay disc.key disc.comparf (v.pathObjs d) U) :
    (v.call d .DT_FIRST).1 = U.head? ∧ v.Same (v.call d .DT_FIRST).2 := by
  have h : (v.call d .DT_FIRST).1 = (U.filter fun _ => true).head? ∧ v.Same (v.call d .DT_FIRST).2 :=
    call_first hU (fun _ => rfl) rfl (fun S => by rw [filter_true]; rfl) fun _ _ _ => rfl
  rw [filter_true] at h
  exact h

theorem dtlast_spec (hU : Overlay disc.key disc.comparf (v.pathObjs d) U) :
    (v.call d .DT_LAST).1 = U.getLast? ∧ v.Same (v.call d .DT_LAST).2 := by
  have h : (v.call d .DT_LAST).1 = (U.filter fun _ => true).getLast? ∧ v.Same (v.call d .DT_LAST).2 :=
    call_last hU (fun _ => rfl) rfl (fun S => by rw [filter_true]; rfl) fun _ _ _ => rfl
  rw [filter_true] at h
  exact h

theorem dtnext_spec (hU : Overlay disc.key disc.comparf (v.pathObjs d) U) (obj : Obj) :
    (v.call d (.DT_NEXT obj)).1 = next disc.key disc.comparf (disc.key obj) U ∧
      v.Same (v.call d (.DT_NEXT obj)).2 :=
  call_first hU (fun _ => rfl) rfl (fun _ => rfl) fun a b hab => by
    rw [TransCmp.congr_right hab]

theorem dtprev_spec (hU : Overlay disc.key disc.comparf (v.pathObjs d) U) (obj : Obj) :
    (v.call d (.DT_PREV obj)).1 = prev disc.key disc.comparf (disc.key obj) U ∧
      v.Same (v.call d (.DT_PREV obj)).2 :=
  call_last hU (fun _ => rfl) rfl (fun _ => rfl) fun a b hab => by
    rw [TransCmp.congr_right hab]

/-! ## Walks -/

/-- From an object of the union, the walk meets it and everything after it. -/
theorem walkLoop_next {P L : List Obj} {n : Nat} {o : Option Obj}
    (hU : Overlay disc.key disc.comparf (v.pathObjs d) (P ++ L)) (ho : o = L.head?)
    (hn : L.length ≤ n) : ∃ v', walkLoop d .DT_NEXT n (o, v) = some (L, v') := by
  induction L generalizing P n o v with
  | nil =>
    subst ho
    cases n <;> exact ⟨v, rfl⟩
  | cons a L ih =>
    subst ho
    obtain ⟨m, rfl⟩ : ∃ m, n = m + 1 := ⟨n - 1, by simp only [List.length_cons] at hn; omega⟩
    obtain ⟨hres, hsame⟩ := dtnext_spec hU a
    have hcut := hU.sorted.cut (k := disc.key a) ReflCmp.compare_self
    rw [hcut.next] at hres
    rw [append_cons] at hU
    obtain ⟨v', hv'⟩ := ih (n := m) (hsame.pathObjs d ▸ hU) hres
      (by simp only [List.length_cons] at hn; omega)
    refine ⟨v', ?_⟩
    rw [head?_cons, walkLoop]
    exact congrArg (Option.map fun r => (a :: r.1, r.2)) hv'

/-- From an object of the union, the walk back meets it and everything before it. -/
theorem walkLoop_prev {P L : List Obj} {n : Nat} {o : Option Obj}
    (hU : Overlay disc.key disc.comparf (v.pathObjs d) (L.reverse ++ P)) (ho : o = L.head?)
    (hn : L.length ≤ n) : ∃ v', walkLoop d .DT_PREV n (o, v) = some (L, v') := by
  induction L generalizing P n o v with
  | nil =>
    subst ho
    cases n <;> exact ⟨v, rfl⟩
  | cons a L ih =>
    subst ho
    obtain ⟨m, rfl⟩ : ∃ m, n = m + 1 := ⟨n - 1, by simp only [List.length_cons] at hn; omega⟩
    obtain ⟨hres, hsame⟩ := dtprev_spec hU a
    rw [reverse_cons, append_assoc, singleton_append] at hU hres
    have hcut := hU.sorted.cut (k := disc.key a) ReflCmp.compare_self
    rw [hcut.prev, getLast?_reverse] at hres
    obtain ⟨v', hv'⟩ := ih (n := m) (hsame.pathObjs d ▸ hU) hres
      (by simp only [List.length_cons] at hn; omega)
    refine ⟨v', ?_⟩
    rw [head?_cons, walkLoop]
    exact congrArg (Option.map fun r => (a :: r.1, r.2)) hv'

/-- Searches through a viewpath return the nearest object of the key, and the walks from either end
stop after the union of the dictionaries: one object for each key, in order, the nearest one. -/
theorem viewpath_semantics (v : DtViews disc) (d : Nat) :
    (∀ obj, (v.call d (.DT_SEARCH obj)).1 =
      nearest disc.key disc.comparf (disc.key obj) (v.pathObjs d)) ∧
    (∀ key, (v.call d (.DT_MATCH key)).1 = nearest disc.key disc.comparf key (v.pathObjs d)) ∧
    ∃ U, Overlay disc.key disc.comparf (v.pathObjs d) U ∧
      (∀ S ∈ v.pathObjs d, ∀ a ∈ S, ∃ b ∈ U, disc.comparf (disc.key a) (disc.key b) = .eq) ∧
      ∀ n, U.length ≤ n →
        (v.dtwalk d n).map Prod.fst = some U ∧ (v.dtwalkBack d n).map Prod.fst = some U.reverse := by
  refine ⟨fun obj => (call_search (fun _ => rfl) rfl fun _ => rfl).1,
    fun key => (call_search (fun _ => rfl) rfl fun _ => rfl).1, ?_⟩
  obtain ⟨U, hU⟩ := exists_overlay (sorted_pathObjs (v := v) (d := d))
  refine ⟨U, hU, fun S hS a ha => hU.exists_mem hS ha, fun n hn => ⟨?_, ?_⟩⟩
  · obtain ⟨hfirst, hsame⟩ := dtfirst_spec hU
    obtain ⟨v', hv'⟩ := walkLoop_next (P := []) (L := U) (hsame.pathObjs d ▸ hU) hfirst hn
    exact congrArg (Option.map Prod.fst) hv'
  · obtain ⟨hlast, hsame⟩ := dtlast_spec hU
    rw [← head?_reverse] at hlast
    obtain ⟨v', hv'⟩ := walkLoop_prev (P := []) (L := U.reverse) (n := n)
      (by rw [reverse_reverse, append_nil]; exact hsame.pathObjs d ▸ hU)
      hlast (by rw [length_reverse]; exact hn)
    exact congrArg (Option.map Prod.fst) hv'

end

end Graphviz.DtViews
