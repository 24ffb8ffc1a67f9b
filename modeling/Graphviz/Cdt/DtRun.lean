import Graphviz.Cdt.DttreeSet
import Graphviz.Library.Instances

/-!
# Runs of an ordered dictionary

A caller holds one dictionary and the lists it has extracted, and makes calls in any order. The
same calls on a finite set and the sets taken out of it are the specification. They agree as long
as no list is restored into an empty dictionary whose counter `dtrestore` has left negative:
`dtrestore` tests the counter, not the dictionary, and reports failure there.
-/

namespace Graphviz

open BinTree List SortedSet Std

universe u v

variable {Obj : Type u} {Key : Type v} {disc : Dtdisc Obj Key} {dt : Dt Obj}

/-! ## Flattening, extracting, restoring, counting -/

theorem flattenTree_eq {t : BinTree Obj} : flattenTree t = .ofList t.toList := by
  fun_induction flattenTree t with
  | case1 => rfl
  | case2 left r right ih =>
    rw [ih, toList_node, ← toList_popMin (l := left) (r := right) (a := r)]
    rfl

theorem dtflatten_spec (h : dt.Inv disc) :
    (dtflatten dt).here.rightChain = dt.here.toList ∧ (dtflatten dt).Holds disc dt.here.toList := by
  rw [dtflatten]
  split
  next hf => exact ⟨h.chain hf, h, rfl⟩
  next =>
    simp only [flattenTree_eq]
    refine ⟨rightChain_ofList, ⟨?_, fun _ => ?_, fun hs => ?_⟩, toList_ofList⟩
    · rw [toList_ofList]; exact h.sorted
    · rw [rightChain_ofList, toList_ofList]
    · rw [toList_ofList]; exact h.size hs

theorem dtopen_holds : (dtopen : Dt Obj).Holds disc [] :=
  ⟨⟨Pairwise.nil, nofun, fun _ => rfl⟩, rfl⟩

theorem dtsize_spec (h : dt.Inv disc) :
    (dtsize dt).1 = dt.here.toList.length ∧ (dtsize dt).2.Holds disc dt.here.toList := by
  have hu := h.unflatten
  rw [dtsize]
  split
  next =>
    refine ⟨congrArg Nat.cast count_eq, ⟨h.sorted, nofun, fun _ => ?_⟩, rfl⟩
    exact congrArg Nat.cast count_eq
  next hs => exact ⟨h.size (Int.not_lt.1 hs), hu, rfl⟩

/-- Restoring fails when the counter is not zero. -/
theorem dtrestore_of_size_ne {list : BinTree Obj} (hne : list ≠ .nil) (hs : dt.size ≠ 0) :
    dtrestore dt list = (-1, dt) := by
  cases list with
  | nil => exact absurd rfl hne
  | node left a right => rw [dtrestore, if_pos hs]

/-- Restoring links into a dictionary with the counter at zero. -/
theorem dtrestore_spec {list : BinTree Obj} (hne : list ≠ .nil) (hs : dt.size = 0)
    (hlist : Sorted disc.key disc.comparf list.toList) :
    (dtrestore dt list).1 = 0 ∧ (dtrestore dt list).2.Holds disc list.toList := by
  cases list with
  | nil => exact absurd rfl hne
  | node left a right =>
    rw [dtrestore, if_neg (not_not_intro hs)]
    refine ⟨rfl, ⟨hlist, by rintro ⟨⟩, fun h => ?_⟩, rfl⟩
    simp only [hs] at h
    omega

/-! ## The calls -/

/-- The calls a program makes on one dictionary; `restore i` hands back the `i`th of the lists it
holds. -/
inductive DtOp (Obj : Type u) (Key : Type v) where
  | search (req : DtSearch Obj Key)
  | flatten
  | extract
  | restore (i : Nat)
  | size

/-- What a call returns; `none` when there was no list to hand back. -/
inductive DtResult (Obj : Type u) where
  | obj (o : Option Obj)
  | list (objs : List Obj)
  | code (n : Int)
  | none
  deriving DecidableEq

/-- A dictionary and the lists extracted from it. -/
structure DtState (Obj : Type u) where
  dt : Dt Obj
  lists : List (BinTree Obj)

/-- A finite set and the sets taken out of it. -/
structure SetState (Obj : Type u) where
  set : List Obj
  lists : List (List Obj)

/-- One call on the dictionary. -/
def dtStep [DecidableEq Obj] (disc : Dtdisc Obj Key) (st : DtState Obj) :
    DtOp Obj Key → DtResult Obj × DtState Obj
  | .search req => (.obj (dttree disc st.dt req).1, { st with dt := (dttree disc st.dt req).2 })
  | .flatten => (.list (dtflatten st.dt).here.rightChain, { st with dt := dtflatten st.dt })
  | .extract =>
    match dtextract st.dt with
    | (.nil, dt) => (.list [], { st with dt })
    | (list, dt) => (.list list.toList, ⟨dt, list :: st.lists⟩)
  | .restore i =>
    match st.lists[i]? with
    | none => (.none, st)
    | some list =>
      match dtrestore st.dt list with
      | (0, dt) => (.code 0, ⟨dt, st.lists.eraseIdx i⟩)
      | (n, dt) => (.code n, { st with dt })
  | .size => (.code (dtsize st.dt).1, { st with dt := (dtsize st.dt).2 })

/-- The same call on the set. -/
def setStep (disc : Dtdisc Obj Key) (sp : SetState Obj) :
    DtOp Obj Key → DtResult Obj × SetState Obj
  | .search req =>
    (.obj (setSearch disc sp.set req).1, { sp with set := (setSearch disc sp.set req).2 })
  | .flatten => (.list sp.set, sp)
  | .extract =>
    match sp.set with
    | [] => (.list [], sp)
    | a :: S => (.list (a :: S), ⟨[], (a :: S) :: sp.lists⟩)
  | .restore i =>
    match sp.lists[i]? with
    | none => (.none, sp)
    | some list =>
      match sp.set with
      | [] => (.code 0, ⟨list, sp.lists.eraseIdx i⟩)
      | _ :: _ => (.code (-1), sp)
  | .size => (.code sp.set.length, sp)

/-- The dictionary's tree is a search tree of exactly the objects of the set, the lists hold what
was taken out, and `dtsize` would return the number of objects. -/
structure Rel (disc : Dtdisc Obj Key) (st : DtState Obj) (sp : SetState Obj) : Prop where
  holds : st.dt.Holds disc sp.set
  search : st.dt.here.Search fun a b => disc.comparf (disc.key a) (disc.key b) = .lt
  dtsize : (dtsize st.dt).1 = sp.set.length
  lists : st.lists.map toList = sp.lists
  nonempty : ∀ list ∈ st.lists, list ≠ .nil
  sorted : ∀ list ∈ st.lists, Sorted disc.key disc.comparf list.toList

/-- The calls `ops` return what they would on the set, and after each of them the dictionary holds
the set. -/
def Agrees [DecidableEq Obj] (disc : Dtdisc Obj Key) :
    DtState Obj → SetState Obj → List (DtOp Obj Key) → Prop
  | st, sp, [] => Rel disc st sp
  | st, sp, op :: ops =>
    Rel disc st sp ∧ (dtStep disc st op).1 = (setStep disc sp op).1 ∧
      Agrees disc (dtStep disc st op).2 (setStep disc sp op).2 ops

/-- Where the call restores a list into an empty dictionary, the counter is zero. -/
def CounterKnown (st : DtState Obj) : DtOp Obj Key → Prop
  | .restore i => i < st.lists.length → st.dt.here = .nil → st.dt.size = 0
  | _ => True

/-- The counter is known before each of the calls `ops`. -/
def CountersKnown [DecidableEq Obj] (disc : Dtdisc Obj Key) :
    DtState Obj → List (DtOp Obj Key) → Prop
  | _, [] => True
  | st, op :: ops => CounterKnown st op ∧ CountersKnown disc (dtStep disc st op).2 ops

/-! ## One call -/

section
variable {st : DtState Obj} {sp : SetState Obj} {op : DtOp Obj Key}

/-- The parts of `Rel` about the dictionary follow from what it holds. -/
theorem Rel.of_holds (hdt : st.dt.Holds disc sp.set) (hl : st.lists.map toList = sp.lists)
    (hne : ∀ list ∈ st.lists, list ≠ .nil)
    (hs : ∀ list ∈ st.lists, Sorted disc.key disc.comparf list.toList) : Rel disc st sp := by
  refine ⟨hdt, ?_, ?_, hl, hne, hs⟩
  · exact (search_iff fun _ _ _ => TransCmp.lt_trans).2 hdt.1.sorted
  · rw [(dtsize_spec hdt.1).1, hdt.2]

theorem rel_open : Rel disc ⟨dtopen, []⟩ ⟨[], []⟩ :=
  .of_holds dtopen_holds rfl nofun nofun

/-- The lists held after one is handed back. -/
theorem Rel.lists_eraseIdx (h : Rel disc st sp) (i : Nat) :
    (st.lists.eraseIdx i).map toList = sp.lists.eraseIdx i := by
  rw [← h.lists]
  exact (eraseIdx_map toList st.lists i).symm

/-- A call returns what it would on the set, where the counter is known. -/
theorem Rel.step [DecidableEq Obj] (h : Rel disc st sp) (hop : CounterKnown st op) :
    (dtStep disc st op).1 = (setStep disc sp op).1 ∧
      Rel disc (dtStep disc st op).2 (setStep disc sp op).2 := by
  obtain ⟨hinv, hset⟩ := h.holds
  cases op with
  | search req =>
    have hspec := dttree_spec hinv req
    rw [hset] at hspec
    exact ⟨congrArg DtResult.obj hspec.1, .of_holds hspec.2 h.lists h.nonempty h.sorted⟩
  | flatten =>
    have hspec := dtflatten_spec hinv
    rw [hset] at hspec
    exact ⟨congrArg DtResult.list hspec.1, .of_holds hspec.2 h.lists h.nonempty h.sorted⟩
  | size =>
    have hspec := dtsize_spec hinv
    rw [hset] at hspec
    exact ⟨congrArg DtResult.code hspec.1, .of_holds hspec.2 h.lists h.nonempty h.sorted⟩
  | extract =>
    cases hhere : st.dt.here with
    | nil =>
      rw [hhere] at hset
      simp only [dtStep, setStep, dtextract, hhere, ← hset, toList_nil]
      exact ⟨trivial, .of_holds (hset ▸ dtopen_holds) h.lists h.nonempty h.sorted⟩
    | node left a right =>
      rw [hhere] at hset
      have hnil : ∃ b S, sp.set = b :: S := by
        cases hs : sp.set with
        | nil => rw [hs, toList_node] at hset; simp at hset
        | cons b S => exact ⟨b, S, rfl⟩
      obtain ⟨b, S, hS⟩ := hnil
      simp only [dtStep, setStep, dtextract, hhere, hS, hset]
      refine ⟨trivial, .of_holds dtopen_holds ?_ ?_ ?_⟩
      · rw [map_cons, h.lists, hset, hS]
      · intro list hlist
        cases hlist with
        | head => nofun
        | tail _ hlist => exact h.nonempty list hlist
      · intro list hlist
        cases hlist with
        | head => rw [← hhere]; exact hinv.sorted
        | tail _ hlist => exact h.sorted list hlist
  | restore i =>
    have hget : sp.lists[i]? = st.lists[i]?.map toList := by rw [← h.lists, getElem?_map]
    cases hl : st.lists[i]? with
    | none =>
      simp only [dtStep, setStep, hget, hl, Option.map_none]
      exact ⟨trivial, h⟩
    | some list =>
      have hmem : list ∈ st.lists := mem_of_getElem? hl
      cases hS : sp.set with
      | nil =>
        have hzero := hop (List.getElem?_eq_some_iff.1 hl).1 (toList_eq_nil.1 (hset.trans hS))
        obtain ⟨hcode, hholds⟩ :=
          dtrestore_spec (h.nonempty list hmem) hzero (h.sorted list hmem)
        have hres : dtrestore st.dt list = (0, (dtrestore st.dt list).2) := Prod.ext hcode rfl
        simp only [dtStep, setStep, hget, hl, Option.map_some, hS]
        rw [hres]
        have hsub := eraseIdx_subset (l := st.lists) (k := i)
        exact ⟨rfl, .of_holds hholds (h.lists_eraseIdx i) (fun l hl => h.nonempty l (hsub hl))
          fun l hl => h.sorted l (hsub hl)⟩
      | cons a S =>
        have hne : st.dt.size ≠ 0 := by
          intro hzero
          have hsize := hinv.size (Int.le_of_eq hzero.symm)
          rw [hzero, hset, hS] at hsize
          simp only [List.length_cons] at hsize
          omega
        simp only [dtStep, setStep, hget, hl, Option.map_some, hS,
          dtrestore_of_size_ne (h.nonempty list hmem) hne]
        exact ⟨trivial, h⟩

/-- Where the counter is not known, `dtrestore` fails though the set is empty. -/
theorem Rel.step_ne [DecidableEq Obj] (h : Rel disc st sp) (hop : ¬ CounterKnown st op) :
    (dtStep disc st op).1 ≠ (setStep disc sp op).1 := by
  cases op with
  | restore i =>
    simp only [CounterKnown, Classical.not_imp] at hop
    obtain ⟨hi, hnil, hne⟩ := hop
    have hl : st.lists[i]? = some st.lists[i] := getElem?_eq_getElem hi
    have hS : sp.set = [] := by rw [← h.holds.2, hnil]; rfl
    have hget : sp.lists[i]? = some st.lists[i].toList := by
      rw [← h.lists, getElem?_map, hl]; rfl
    simp only [dtStep, setStep, hget, hl, hS,
      dtrestore_of_size_ne (h.nonempty _ (getElem_mem hi)) hne]
    nofun
  | search _ | flatten | extract | size => exact absurd trivial hop

/-! ## Runs -/

/-- The calls agree with the set for as long as the counter is known. -/
theorem Rel.agrees_iff [DecidableEq Obj] (h : Rel disc st sp) (ops : List (DtOp Obj Key)) :
    Agrees disc st sp ops ↔ CountersKnown disc st ops := by
  induction ops generalizing st sp with
  | nil => exact ⟨fun _ => trivial, fun _ => h⟩
  | cons op ops ih =>
    constructor
    · intro ⟨_, hres, hrest⟩
      have hknown : CounterKnown st op := by
        by_contra hop
        exact h.step_ne hop hres
      exact ⟨hknown, (ih (h.step hknown).2).1 hrest⟩
    · intro ⟨hop, hrest⟩
      have hstep := h.step hop
      exact ⟨h, hstep.1, (ih hstep.2).2 hrest⟩

end

/-- Over any calls on a new dictionary, each result is that of a finite set and the tree stays a
search tree of exactly the live objects, if and only if no call restores a list into an empty
dictionary whose counter is not zero. -/
theorem dtRun_agrees_iff [DecidableEq Obj] (disc : Dtdisc Obj Key) (ops : List (DtOp Obj Key)) :
    Agrees disc ⟨dtopen, []⟩ ⟨[], []⟩ ops ↔ CountersKnown disc ⟨dtopen, []⟩ ops :=
  rel_open.agrees_iff ops

/-- Numbers under their own order. -/
def natDisc : Dtdisc Nat Nat where
  key := id
  comparf := compare
  makef := none
  trans := Instances.transCmp_nat
  makef_key := nofun

/-- A restored object is deleted again, and the list that is handed back next is refused. -/
theorem dtrestore_refused :
    ¬ Agrees natDisc ⟨dtopen, []⟩ ⟨[], []⟩
      [.search (.DT_INSERT 1), .extract, .search (.DT_INSERT 2), .extract, .restore 0,
        .search (.DT_DELETE 2), .restore 0] := by
  intro h
  have hcode := h.2.2.2.2.2.2.2.2.2.2.2.2.2.1
  exact absurd hcode (by decide)

end Graphviz
