import Graphviz.Cdt.DttreeSet
import Graphviz.Cgraph.Ids
import Graphviz.Library.Instances

/-!
# Renaming a subgraph

`agrename` of `lib/cgraph/obj.c` for a subgraph, and the index of the subgraphs of a graph by their
identifiers, `g_id`, which `lib/cgraph/subg.c` searches. The index is ordered by a field of the
subgraphs themselves, and `agrename` changes the field of one that is in the index.
-/

namespace Graphviz.Rename

open BinTree

/-- A graph with its subgraphs: the closure of the root, the identifiers of the subgraphs, and the
index. -/
structure Agraph where
  clos : Clos
  AGID : ℕ → IdValue
  g_id : Dt ℕ

section Model

variable (place : ℕ → ℕ)

/-- `Ag_subgraph_id_disc`, with `agraphidcmpf`. -/
def subgraphIdDisc (AGID : ℕ → IdValue) : Dtdisc ℕ ℕ where
  key := fun g => (AGID g).val place
  comparf := compare
  makef := none
  trans := Instances.transCmp_nat
  makef_key := nofun

/-- `agfindsubg_by_id`. The template that is searched for has the identifier for its key. -/
def agfindsubgById (g : Agraph) (id : IdValue) : Option ℕ × Agraph :=
  let (subg, g_id) := dttree (subgraphIdDisc place g.AGID) g.g_id (.DT_MATCH (id.val place))
  (subg, { g with g_id })

/-- `agidsubg`. -/
def agidsubg (g : Agraph) (id : IdValue) : Option ℕ × Agraph := agfindsubgById place g id

/-- `agsubg` without `cflag`. -/
def agsubg (g : Agraph) (name : CharPtr) : Option ℕ × Agraph :=
  match if name = .null then none else (g.clos.agmapnametoid name false).1 with
  | some id => agfindsubgById place g id
  | none => (none, g)

/-- `agnameof` a subgraph. -/
def agnameof (g : Agraph) (subg : ℕ) : CharPtr := g.clos.agnameof place (g.AGID subg)

/-- `agrename`, for a subgraph `obj` of `g`. -/
def agrename (g : Agraph) (obj : ℕ) (newname : CharPtr) : Status × Agraph :=
  let old_id := g.AGID obj
  match g.clos.agmapnametoid newname false with
  | (none, clos) => (.FAILURE, { g with clos })
  | (some new_id, clos) =>
    if new_id.val place = old_id.val place then (.SUCCESS, { g with clos })
    else
      match clos.agmapnametoid newname true with
      | (none, clos) => (.FAILURE, { g with clos })
      | (some new_id, clos) =>
        match agidsubg place { g with clos } new_id with
        | (some _, g) => (.FAILURE, g)
        | (none, g) =>
          (.SUCCESS, { g with clos := g.clos.agfreeid place old_id
                              AGID := Function.update g.AGID obj new_id })

end Model

/-! ## What renaming is to keep -/

variable {place : ℕ → ℕ} {g : Agraph} {obj t : ℕ} {newname s : CharPtr} {c c' : Clos}

/-- A graph with its subgraphs as the library makes them: its names are in the dictionary, and
those of the internal map are local. -/
structure Sound (place : ℕ → ℕ) (g : Agraph) : Prop where
  clos : g.clos.Sound place
  malloc : Allocates place g.clos.strs
  index : g.g_id.Inv (subgraphIdDisc place g.AGID)
  id : ∀ t ∈ g.g_id.here.toList, g.clos.HoldsId (g.AGID t)

/-- The subgraph is found by its name. -/
def Resolves (place : ℕ → ℕ) (g : Agraph) (t : ℕ) : Prop :=
  (agsubg place g (agnameof place g t)).1 = some t

/-- What `agrename` is to do: a renamed subgraph is found by its new name, and the others by
theirs as before; or nothing has changed. -/
def RenameKeeps (place : ℕ → ℕ) (g : Agraph) (obj : ℕ) (newname : CharPtr) : Prop :=
  match agrename place g obj newname with
  | (.SUCCESS, g') => (agsubg place g' newname).1 = some obj ∧
      ∀ t ∈ g.g_id.here.toList, t ≠ obj → Resolves place g t →
        (agsubg place g' (agnameof place g t)).1 = some t
  | (.FAILURE, g') => g'.clos = g.clos ∧ g'.AGID = g.AGID ∧
      g'.g_id.here.toList = g.g_id.here.toList

theorem RenameKeeps.failure (h : RenameKeeps place g obj newname)
    (hfail : (agrename place g obj newname).1 = .FAILURE) :
    (agrename place g obj newname).2.clos = g.clos := by
  rw [RenameKeeps] at h
  split at h
  · rename_i heq
    rw [heq] at hfail
    cases hfail
  · rename_i heq
    rw [heq]
    exact h.1

theorem RenameKeeps.success (h : RenameKeeps place g obj newname)
    (hsuccess : (agrename place g obj newname).1 = .SUCCESS) :
    (agsubg place (agrename place g obj newname).2 newname).1 = some obj := by
  rw [RenameKeeps] at h
  split at h
  · rename_i heq
    rw [heq]
    exact h.1
  · rename_i heq
    rw [heq] at hsuccess
    cases hsuccess

/-- The subgraphs that the search for the subgraph's identifier meets once the index has been
searched for another one. -/
def onTheWay (place : ℕ → ℕ) (g : Agraph) (obj : ℕ) (new_id : IdValue) : List ℕ :=
  let disc := subgraphIdDisc place g.AGID
  trail (disc.descent ((g.AGID obj).val place)) (agidsubg place g new_id).2.g_id.here

/-- When `agrename` does what it is to do: the name is an internal one without an identifier, or
the subgraph's own; or it is that of another subgraph of the graph and internal; or it is no other
subgraph's, and between the old and the new identifier there is none of a subgraph that is found by
name or that is met in the index on the way to the old identifier. -/
def Renameable (place : ℕ → ℕ) (g : Agraph) (obj : ℕ) (newname : CharPtr) : Prop :=
  ∀ bound new_id, (g.clos.agmapnametoid newname false).1 = some bound →
    bound.val place ≠ (g.AGID obj).val place →
    (g.clos.agmapnametoid newname true).1 = some new_id →
    if ∃ t ∈ g.g_id.here.toList, (g.AGID t).val place = new_id.val place then
      ¬ g.clos.Global newname
    else ∀ t ∈ g.g_id.here.toList,
      Between compare ((g.AGID obj).val place) (new_id.val place) ((g.AGID t).val place) →
        ¬ Resolves place g t ∧ t ∉ onTheWay place g obj new_id

/-! ## The index -/

/-- A search of the index keeps the subgraphs in it, and finds the one with the identifier. -/
theorem Sound.search (h : Sound place g) (id : IdValue) :
    (agidsubg place g id).2.g_id.here.toList = g.g_id.here.toList ∧
      (agidsubg place g id).2.g_id.Inv (subgraphIdDisc place g.AGID) ∧
      ((agidsubg place g id).1 = none ↔
        ¬ ∃ t ∈ g.g_id.here.toList, (g.AGID t).val place = id.val place) := by
  obtain ⟨hfound, hinv, hlist⟩ := dttree_spec h.index (.DT_MATCH (id.val place))
  refine ⟨hlist, hinv, ?_⟩
  rw [agidsubg, agfindsubgById, hfound]
  simp only [setSearch, SortedSet.lookup, List.find?_eq_none, not_exists, not_and]
  refine forall₂_congr fun t _ => not_congr ?_
  rw [beq_iff_eq, subgraphIdDisc, Nat.compare_eq_eq]
  exact eq_comm

/-- The index once another identifier has been searched for. -/
abbrev searched (place : ℕ → ℕ) (g : Agraph) (id : IdValue) : Dt ℕ := (agidsubg place g id).2.g_id

theorem agmapnametoid_snd (c : Clos) (s : CharPtr) : (c.agmapnametoid s false).2 = c := by
  by_cases hg : c.Global s
  · rw [Clos.agmapnametoid_global hg]
  · rw [Clos.agmapnametoid, if_neg hg]
    split <;> rfl

/-- `agrename`: the name has no identifier; or it is the subgraph's; or it is reserved, and another
subgraph has it or none. -/
theorem Sound.agrename_cases (h : Sound place g) (hs : g.clos.strs.Readable newname) :
    (g.clos.agmapnametoid newname false).1 = none ∧
        agrename place g obj newname = (.FAILURE, g) ∨
      ∃ bound, (g.clos.agmapnametoid newname false).1 = some bound ∧ newname ≠ .null ∧
        (bound.val place = (g.AGID obj).val place ∧ agrename place g obj newname = (.SUCCESS, g) ∨
          bound.val place ≠ (g.AGID obj).val place ∧
            ∃ id c', (g.clos.agmapnametoid newname true).1 = some id ∧ c'.Sound place ∧
              Strings.Agrees (fun _ => True) g.clos.strs c'.strs ∧ c'.imap = g.clos.imap ∧
              id ≠ .null ∧ (c'.agmapnametoid newname false).1 = some id ∧
              (c' = g.clos ↔ ¬ g.clos.Global newname) ∧
              agrename place g obj newname =
                if ∃ t ∈ g.g_id.here.toList, (g.AGID t).val place = id.val place then
                  (.FAILURE, { g with clos := c', g_id := searched place g id })
                else (.SUCCESS, { clos := c'.agfreeid place (g.AGID obj)
                                  AGID := Function.update g.AGID obj id
                                  g_id := searched place g id })) := by
  cases hb : (g.clos.agmapnametoid newname false).1 with
  | none =>
    have hmap : g.clos.agmapnametoid newname false = (none, g.clos) :=
      Prod.ext hb (agmapnametoid_snd _ _)
    refine .inl ⟨rfl, ?_⟩
    rw [agrename, hmap]
  | some bound =>
    have hmap : g.clos.agmapnametoid newname false = (some bound, g.clos) :=
      Prod.ext hb (agmapnametoid_snd _ _)
    obtain ⟨hnull, id, c', hid, hsound, hagree, himap, hne, hres, hiff⟩ :=
      h.clos.reserve h.malloc hs hb
    refine .inr ⟨bound, rfl, hnull, ?_⟩
    by_cases heq : bound.val place = (g.AGID obj).val place
    · refine .inl ⟨heq, ?_⟩
      simp only [agrename, hmap, if_pos heq]
    · refine .inr ⟨heq, id, c', by rw [hid], hsound, hagree, himap, hne, hres, hiff, ?_⟩
      have hnone := (h.search id).2.2
      have hsearch : agidsubg place { g with clos := c' } id =
          ((agidsubg place g id).1, { g with clos := c', g_id := searched place g id }) := rfl
      simp only [agrename, hmap, if_neg heq, hid, hsearch]
      cases hfound : (agidsubg place g id).1 with
      | none => rw [if_neg (hnone.1 hfound)]
      | some t =>
        rw [if_pos]
        by_contra hno
        rw [hnone.2 hno] at hfound
        cases hfound

/-! ## What the names find -/

/-- A name finds what the descent for its identifier ends at. -/
theorem agsubg_eq {id : IdValue} (hnull : s ≠ .null)
    (hid : (g.clos.agmapnametoid s false).1 = some id) : (agsubg place g s).1 =
      find ((subgraphIdDisc place g.AGID).descent (id.val place)) g.g_id.here := by
  rw [agsubg, if_neg hnull, hid, ← match_find]
  rfl

/-- A subgraph that is found by its name has the identifier of the name. -/
theorem Resolves.exists_id (h : Resolves place g t) (hnull : agnameof place g t ≠ .null) :
    ∃ id, (g.clos.agmapnametoid (agnameof place g t) false).1 = some id ∧
      id.val place = (g.AGID t).val place := by
  rw [Resolves] at h
  cases hid : (g.clos.agmapnametoid (agnameof place g t) false).1 with
  | none =>
    rw [agsubg, if_neg hnull, hid] at h
    cases h
  | some id =>
    rw [agsubg_eq hnull hid] at h
    refine ⟨id, rfl, ?_⟩
    exact compare_eq_iff_eq.1 (mem_of_find h).2

/-- A new identifier in the place of the old one is a new key. -/
theorem key_update (AGID : ℕ → IdValue) (obj : ℕ) (id : IdValue) :
    (subgraphIdDisc place (Function.update AGID obj id)).key =
      Function.update (subgraphIdDisc place AGID).key obj (id.val place) :=
  Function.comp_update (IdValue.val place) AGID obj id

/-- No subgraph has the null pointer for its identifier. -/
theorem Sound.ne_null_of_val (h : Sound place g) (ht : t ∈ g.g_id.here.toList) {id : IdValue}
    (hval : id.val place = (g.AGID t).val place) : id ≠ .null := by
  rintro rfl
  obtain ⟨k, hk⟩ | ⟨r, hr, hlive, -⟩ := h.id t ht
  · rw [hk, IdValue.val, IdValue.val] at hval
    omega
  · have hpos := (h.clos.placed.even r hlive).2
    rw [hr, IdValue.val, IdValue.val] at hval
    omega

/-- Subgraphs in the index have distinct identifiers. -/
theorem Sound.val_inj (h : Sound place g) {t' : ℕ} (ht : t ∈ g.g_id.here.toList)
    (ht' : t' ∈ g.g_id.here.toList) (heq : (g.AGID t).val place = (g.AGID t').val place) :
    t = t' := by
  have hkey : (subgraphIdDisc place g.AGID).key t = (subgraphIdDisc place g.AGID).key t' := heq
  have hfind := find_key h.index.sorted ht
  rw [hkey, find_key h.index.sorted ht'] at hfind
  exact (Option.some.inj hfind).symm

/-- The comparisons of a search, once a subgraph has got a new identifier. -/
theorem descent_update (AGID : ℕ → IdValue) (obj : ℕ) (id : IdValue) (k : ℕ) :
    (subgraphIdDisc place (Function.update AGID obj id)).descent k = fun t => compare k
      (Function.update (subgraphIdDisc place AGID).key obj (id.val place) t) := by
  rw [← key_update]
  rfl

/-- After a renaming that succeeds the names stand for what they did, and the new name for the new
identifier. -/
theorem Sound.names_after (h : Sound place g) (hobj : obj ∈ g.g_id.here.toList)
    (hsound : c'.Sound place) (hagree : Strings.Agrees (fun _ => True) g.clos.strs c'.strs)
    (hs : g.clos.strs.Readable s) (hnull : s ≠ .null) {id : IdValue}
    (hres : (c'.agmapnametoid s false).1 = some id) (hne : id ≠ .null)
    (hval : id.val place ≠ (g.AGID obj).val place) :
    ((c'.agfreeid place (g.AGID obj)).agmapnametoid s false).1 = some id := by
  refine hsound.agfreeid ((h.id obj hobj).agrees hagree) ?_ hnull hres hne hval
  intro r hr
  exact hagree.live (hs r hr) trivial

/-- `agrename` does what it is to do exactly where the name is not that of another subgraph, unless
it is a local one, and no identifier of a subgraph that matters is passed over. -/
theorem agrename_keeps_iff (h : Sound place g) (hobj : obj ∈ g.g_id.here.toList)
    (hs : g.clos.strs.Readable newname) :
    RenameKeeps place g obj newname ↔ Renameable place g obj newname := by
  rw [RenameKeeps, Renameable]
  obtain ⟨hnone, hrun⟩ | ⟨bound, hbound, hnull, ⟨heq, hrun⟩ | ⟨hne, id, c', hid, hsound, hagree,
    himap, hnenull, hres, hiff, hrun⟩⟩ := h.agrename_cases hs
  · rw [hrun, hnone]
    exact iff_of_true ⟨rfl, rfl, rfl⟩ nofun
  · rw [hrun]
    refine iff_of_true ⟨?_, fun t _ _ ht => ht⟩ fun bound' _ hbound' hne => ?_
    · rw [agsubg_eq hnull hbound, heq]
      exact find_key h.index.sorted hobj
    · rw [hbound] at hbound'
      cases hbound'
      exact absurd heq hne
  · have hcond : ∀ Q : IdValue → Prop, (∀ bound' id', (g.clos.agmapnametoid newname false).1 =
        some bound' → bound'.val place ≠ (g.AGID obj).val place →
        (g.clos.agmapnametoid newname true).1 = some id' → Q id') ↔ Q id := by
      intro Q
      rw [hbound, hid]
      exact ⟨fun h => h bound id rfl hne rfl, fun hQ _ _ _ _ hid' => Option.some.inj hid' ▸ hQ⟩
    obtain ⟨hlist, hinv, -⟩ := h.search id
    rw [hrun, hcond]
    by_cases hex : ∃ t ∈ g.g_id.here.toList, (g.AGID t).val place = id.val place
    · rw [if_pos hex, if_pos hex, ← hiff]
      exact ⟨fun hkeeps => hkeeps.1, fun hclos => ⟨hclos, rfl, hlist⟩⟩
    · rw [if_neg hex, if_neg hex]
      have hval : id.val place ≠ (g.AGID obj).val place := fun heq => hex ⟨obj, hobj, heq.symm⟩
      have hnew := h.names_after hobj hsound hagree hs hnull hres hnenull hval
      have hb : ∀ a ∈ (searched place g id).here.toList,
          compare (id.val place) ((subgraphIdDisc place g.AGID).key a) ≠ .eq := by
        intro a ha heq
        rw [hlist] at ha
        exact hex ⟨a, ha, (compare_eq_iff_eq.1 heq).symm⟩
      have hrekey := find_rekey_iff hinv.sorted (hlist ▸ hobj) hb (Resolves place g)
      rw [hlist] at hrekey
      refine Iff.trans (and_congr ?_ (forall₂_congr fun t ht => imp_congr_right fun htobj =>
        imp_congr_right fun htres => ?_)) hrekey
      · rw [agsubg_eq hnull hnew, descent_update]
        exact Iff.rfl
      · obtain ⟨hread, hname⟩ : g.clos.strs.Readable (agnameof place g t) ∧
            agnameof place g t ≠ .null := h.clos.readable_agnameof (h.id t ht)
        obtain ⟨idt, hidt, hvalt⟩ := htres.exists_id hname
        have hnet : idt.val place ≠ (g.AGID obj).val place := by
          rw [hvalt]
          exact fun heq => htobj (h.val_inj ht hobj heq)
        have hnullt := h.ne_null_of_val ht hvalt
        have hrest := Clos.agmapnametoid_agrees hread hname hagree trivial
          (fun r ent hent _ => himap ▸ hent) hidt hnullt
        have hnewt := h.names_after hobj hsound hagree hread hname hrest hnullt hnet
        rw [agsubg_eq hname hnewt, descent_update, hvalt]
        exact Iff.rfl

/-! ## Three subgraphs -/

/-- Entries at addresses in the order in which they are made. -/
def apart (r : ℕ) : ℕ := 16 * (r + 1)

theorem allocates_apart {st : Strings} (h : Placed apart st) : Allocates apart st := by
  refine ⟨by rw [apart]; omega, fun r hr heq => ?_⟩
  have hlt := h.live_lt hr
  rw [apart, apart] at heq
  omega

theorem placed_init : Placed apart Strings.init :=
  ⟨fun _ h => absurd h (Nat.lt_irrefl 0), fun _ h => absurd h (Nat.lt_irrefl 0),
    fun _ h => absurd h.1 (Nat.lt_irrefl 0), fun _ _ h => absurd h.1 (Nat.lt_irrefl 0)⟩

/-- The names of three subgraphs. -/
def abcStrings : Strings :=
  (((Strings.init.dup (lit "a", false)).2.dup (lit "b", false)).2.dup (lit "c", false)).2

/-- Three subgraphs, made in the order of their names. -/
def abc : Agraph where
  clos := { strs := abcStrings, counter := 0, imap := [] }
  AGID := .str
  g_id := { here := .node (.node .nil 0 .nil) 1 (.node .nil 2 .nil), flatten := false, size := 3 }

theorem sound_abc : Sound apart abc := by
  have h := placed_init.dup (allocates_apart placed_init) (lit "a", false)
  have h := h.dup (allocates_apart h) (lit "b", false)
  have h := h.dup (allocates_apart h) (lit "c", false)
  refine ⟨⟨h, nofun, List.nodup_nil⟩, allocates_apart h, ⟨?_, nofun, fun _ => rfl⟩, ?_⟩
  · show List.Pairwise (fun a b => compare (apart a) (apart b) = .lt) [0, 1, 2]
    decide
  · intro t ht
    have ht : t = 0 ∨ t = 1 ∨ t = 2 := by simpa [abc] using ht
    obtain rfl | rfl | rfl := ht
    · exact .inr ⟨0, rfl, by decide, by decide⟩
    · exact .inr ⟨1, rfl, by decide, by decide⟩
    · exact .inr ⟨2, rfl, by decide, by decide⟩

/-- The last of them can be renamed: its new identifier is past the others. -/
theorem agrename_keeps_iff_abc : RenameKeeps apart abc 2 (.other (lit "d")) := by
  have hread : abc.clos.strs.Readable (.other (lit "d")) := nofun
  refine (agrename_keeps_iff sound_abc (by decide) hread).2 ?_
  intro bound id _ _ hid
  have hid : id = .str 3 := (Option.some.inj hid).symm
  subst hid
  rw [if_neg (by decide)]
  intro t ht hbetween
  have ht : t = 0 ∨ t = 1 ∨ t = 2 := by simpa [abc] using ht
  obtain rfl | rfl | rfl := ht
  · exact absurd hbetween (by unfold Between; decide)
  · exact absurd hbetween (by unfold Between; decide)
  · exact absurd hbetween (by unfold Between; decide)

/-- The first of them cannot: under the name of the second the name is counted once more without a
use, and under a name with an address past the others the subgraph is not found. -/
theorem agrename_abc_lost : Sound apart abc ∧ ¬ RenameKeeps apart abc 0 (.other (lit "b")) ∧
    ¬ RenameKeeps apart abc 0 (.other (lit "d")) := by
  refine ⟨sound_abc, fun hkeeps => ?_, fun hkeeps => ?_⟩
  · have hfail : (agrename apart abc 0 (.other (lit "b"))).1 = .FAILURE := by decide
    have hclos := hkeeps.failure hfail
    have hcount : (agrename apart abc 0 (.other (lit "b"))).2.clos.strs.count (lit "b", false) ≠
        abc.clos.strs.count (lit "b", false) := by decide
    rw [hclos] at hcount
    exact hcount rfl
  · have hsuccess : (agrename apart abc 0 (.other (lit "d"))).1 = .SUCCESS := by decide
    have hlost : (agsubg apart (agrename apart abc 0 (.other (lit "d"))).2
        (.other (lit "d"))).1 = none := by decide
    have hfound := hkeeps.success hsuccess
    rw [hlost] at hfound
    cases hfound

end Graphviz.Rename
