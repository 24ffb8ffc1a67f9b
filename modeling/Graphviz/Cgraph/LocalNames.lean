import Graphviz.Cgraph.Hierarchy

/-!
# The internal map of names

The names in the internal map are local ones, and each is there once for each kind of object: only
`agmapnametoid` adds a name, and only when it has not found it.
-/

namespace Graphviz

open List Outcome

namespace Store

/-- The internal map has local names, each once. -/
structure LocalNames (s : Store) : Prop where
  head : ∀ ent ∈ s.imap, ent.2.1.head? = some LOCALNAMEPREFIX
  nodup : (s.imap.map fun ent => (ent.1, ent.2.1)).Nodup

variable {s s' : Store} {p : GPath} {n : Agnode} {e : Agedge} {c : Cdt} {objtype : ObjType}
  {str : CStr} {id : IdType}

/-- Any way to fail. -/
abbrev Any : Fault → Prop := fun _ => True

/-- A sequence whose first part does not matter. -/
theorem meets_after {α β : Type} (x : Except Fault α) {f : α → Except Fault β} {P : β → Prop}
    (h : ∀ a, Meets (f a) P Any) : Meets (x >>= f) P Any := by
  cases x with
  | ok a => exact h a
  | error f => trivial

theorem LocalNames.of_imap (h : s.LocalNames) (himap : s'.imap = s.imap) : s'.LocalNames :=
  ⟨by rw [himap]; exact h.head, by rw [himap]; exact h.nodup⟩

/-- A name of the map is found with its identifier. -/
theorem LocalNames.lookup (h : s.LocalNames) (hent : (objtype, str, id) ∈ s.imap) :
    s.aginternalmaplookup objtype str = some id := by
  rw [aginternalmaplookup]
  cases hfind : s.imap.find? fun ent => ent.1 = objtype ∧ ent.2.1 = str with
  | none =>
    have hno := find?_eq_none.1 hfind _ hent
    simp at hno
  | some ent =>
    have hkey : ent.1 = objtype ∧ ent.2.1 = str := by simpa using find?_some hfind
    have hsame := inj_on_of_nodup_map h.nodup (mem_of_find?_eq_some hfind) hent
      (Prod.ext hkey.1 hkey.2)
    rw [hsame]
    rfl

theorem aginternalmaplookup_eq_some (h : s.aginternalmaplookup objtype str = some id) :
    (objtype, str, id) ∈ s.imap := by
  rw [aginternalmaplookup, Option.map_eq_some_iff] at h
  obtain ⟨ent, hent, rfl⟩ := h
  have hkey : ent.1 = objtype ∧ ent.2.1 = str := by simpa using find?_some hent
  obtain ⟨rfl, rfl⟩ := hkey
  exact mem_of_find?_eq_some hent

/-! ## The functions on identifiers -/

theorem LocalNames.agmapnametoid (h : s.LocalNames) (objtype : ObjType) (str : Option CStr)
    (createflag : Bool) : (s.agmapnametoid objtype str createflag).2.LocalNames := by
  cases str with
  | none =>
    rw [Store.agmapnametoid]
    split
    · exact h.of_imap rfl
    · exact h
  | some str =>
    rw [Store.agmapnametoid]
    split
    · exact h
    · rename_i hlocal
      split
      · exact h
      · rename_i hnone
        split
        · refine ⟨fun ent hent => ?_, nodup_cons.2 ⟨fun hmem => ?_, h.nodup⟩⟩
          · cases hent with
            | head => exact not_not.1 hlocal
            | tail _ hent => exact h.head ent hent
          · obtain ⟨⟨k, str', id⟩, hent, hkey⟩ := mem_map.1 hmem
            obtain ⟨rfl, rfl⟩ := Prod.mk.inj hkey
            rw [h.lookup hent] at hnone
            cases hnone
        · exact h

theorem LocalNames.agfreeid (h : s.LocalNames) (objtype : ObjType) (id : IdType) :
    (s.agfreeid objtype id).LocalNames :=
  ⟨fun ent hent => h.head ent (mem_of_mem_filter hent),
    h.nodup.sublist ((filter_sublist (l := s.imap)).map _)⟩

theorem LocalNames.aginternalmapclose (s : Store) : s.aginternalmapclose.LocalNames :=
  ⟨nofun, nodup_nil⟩

/-- A property of the map that the functions on identifiers keep. -/
structure MapInvariant (P : Store → Prop) : Prop where
  of_imap : ∀ {s s'}, P s → s'.imap = s.imap → P s'
  agmapnametoid : ∀ {s}, P s → ∀ objtype str createflag, P (s.agmapnametoid objtype str createflag).2
  agfreeid : ∀ {s}, P s → ∀ objtype id, P (s.agfreeid objtype id)
  aginternalmapclose : ∀ s, P (aginternalmapclose s)

theorem LocalNames.mapInvariant : MapInvariant LocalNames where
  of_imap h := h.of_imap
  agmapnametoid h := h.agmapnametoid
  agfreeid h := h.agfreeid
  aginternalmapclose := .aginternalmapclose

/-! ## The functions that leave the map -/

theorem installnodetoroot_imap :
    Meets (installnodetoroot n p s) (fun s' => s'.imap = s.imap) Any := by
  induction p generalizing s with
  | nil => exact meets_after _ fun g => rfl
  | cons id p ih => exact meets_after _ fun g => ih

theorem agsubnode_imap {cflag : Bool} :
    Meets (agsubnode n cflag p s) (fun r => r.2.imap = s.imap) Any := by
  induction p generalizing s with
  | nil => rfl
  | cons id p ih =>
    rw [agsubnode]
    split
    · rfl
    · split
      · refine ih.bind fun r hr => ?_
        obtain ⟨m, s'⟩ := r
        cases m with
        | none => trivial
        | some m => exact meets_after _ fun g => hr
      · rfl

theorem installedge_imap : Meets (installedge c e p s) (fun s' => s'.imap = s.imap) Any := by
  induction p generalizing s with
  | nil =>
    rw [installedge]
    split
    · rfl
    · exact meets_after _ fun g => meets_after _ fun g => rfl
  | cons id p ih =>
    rw [installedge]
    split
    · rfl
    · exact meets_after _ fun g => meets_after _ fun g => ih

/-- `rec_apply` changes records alone, of a graph and those below it. -/
theorem recApply_imap {fn : Agraph → Except Fault Agraph} {objsearch : Agraph → Bool} {fuel : ℕ} :
    Meets (recApply fn objsearch fuel p s) (fun s' => s'.imap = s.imap) Any := by
  induction fuel generalizing p s with
  | zero => trivial
  | succ fuel ih =>
    rw [recApply]
    have loop : Meets ((s.graphs p).subgs.foldlM (fun s id =>
        if objsearch (s.graphs (id :: p)) then recApply fn objsearch fuel (id :: p) s
        else .ok s) s) (fun s' => s'.imap = s.imap) Any := by
      refine Meets.foldlM (fun _ s' => s'.imap = s.imap) (fun id _ s' hs' => ?_) s rfl
      split
      · exact ih.imp fun s'' hs'' => hs''.trans hs'
      · exact hs'
    exact loop.bind fun s' hs' => meets_after _ fun g => hs'

theorem agapply_imap {fn : Agraph → Except Fault Agraph} {objsearch : Agraph → Bool} :
    Meets (s.agapply fn objsearch p) (fun r => r.2.imap = s.imap) Any := by
  rw [agapply]
  split
  · exact recApply_imap.bind fun s' hs' => hs'
  · rfl

/-! ## The operations -/

section Operations

variable {P : Store → Prop} (hP : MapInvariant P)

include hP

theorem MapInvariant.newnode (h : P s) : Meets (s.newnode p id) (fun r => P r.2) Any := by
  rw [Store.newnode]
  refine meets_after _ fun _ => installnodetoroot_imap.bind fun s' hs' => ?_
  exact meets_after _ fun _ => hP.of_imap h hs'

theorem MapInvariant.agnodeCreate (h : P s) {name : Option CStr} {cflag : Bool} :
    Meets (s.agnodeCreate p name cflag) (fun r => P r.2) Any := by
  have hmap := hP.agmapnametoid h .AGNODE name true
  rw [Store.agnodeCreate]
  split
  · split
    · rename_i heq
      rw [heq] at hmap
      exact (hP.newnode hmap).bind fun r hr => hr
    · rename_i heq
      rw [heq] at hmap
      exact hmap
  · exact h

theorem MapInvariant.agnode (h : P s) {name : Option CStr} {cflag : Bool} :
    Meets (s.agnode p name cflag) (fun r => P r.2) Any := by
  rw [Store.agnode]
  split
  · exact hP.agnodeCreate h
  · split
    · exact h
    · split
      · split
        · exact agsubnode_imap.imp fun r hr => hP.of_imap h hr
        · exact hP.agnodeCreate h
      · exact hP.agnodeCreate h

theorem MapInvariant.newedge (h : P s) {t hd : Agnode} :
    Meets (s.newedge c p t hd id) (fun r => P r.2) Any := by
  rw [Store.newedge]
  refine agsubnode_imap.bind fun r hr => agsubnode_imap.bind fun r' hr' => ?_
  refine meets_after _ fun _ => installedge_imap.bind fun s' hs' => ?_
  exact hP.of_imap h (hs'.trans (hr'.trans hr))

theorem MapInvariant.agidedge (h : P s) {t hd : Agnode} {cflag : Bool} :
    Meets (s.agidedge c p t hd id cflag) (fun r => P r.2) Any := by
  rw [Store.agidedge]
  split
  · exact h
  · split
    · split
      · exact installedge_imap.bind fun s' hs' => hP.of_imap h hs'
      · exact h
    · exact h

theorem MapInvariant.agedgeCreate (h : P s) {t hd : Agnode} {name : Option CStr}
    {cflag : Bool} : Meets (s.agedgeCreate c p t hd name cflag) (fun r => P r.2) Any := by
  have hmap := hP.agmapnametoid h .AGEDGE name true
  rw [Store.agedgeCreate]
  split
  · split
    · rename_i heq
      rw [heq] at hmap
      exact (hP.newedge hmap).bind fun r hr => hr
    · rename_i heq
      rw [heq] at hmap
      exact hmap
  · exact h

theorem MapInvariant.agedge (h : P s) {t hd : Agnode} {name : Option CStr}
    {cflag : Bool} : Meets (s.agedge c p t hd name cflag) (fun r => P r.2) Any := by
  rw [Store.agedge]
  split
  · split
    · exact h
    · split
      · split
        · exact installedge_imap.bind fun s' hs' => hP.of_imap h hs'
        · exact hP.agedgeCreate h
      · exact h
  · exact hP.agedgeCreate h

theorem MapInvariant.agsubedge (h : P s) {cflag : Bool} :
    Meets (s.agsubedge c p e cflag) (fun r => P r.2) Any := by
  rw [Store.agsubedge]
  refine agsubnode_imap.bind fun r h1 => ?_
  obtain ⟨t, s1⟩ := r
  dsimp only
  split
  · refine agsubnode_imap.bind fun r himap => ?_
    obtain ⟨hd, s2⟩ := r
    have h2 : P s2 := hP.of_imap h (himap.trans h1)
    dsimp only
    split
    · split
      · exact h2
      · split
        · exact installedge_imap.bind fun s' hs' => hP.of_imap h2 hs'
        · exact h2
    · exact h2
  · exact hP.of_imap h h1

theorem MapInvariant.agdeledge (h : P s) : Meets (s.agdeledge c p e) (fun r => P r.2) Any := by
  rw [Store.agdeledge]
  split
  · exact h
  · refine agapply_imap.imp fun r hr => hP.of_imap ?_ hr
    split
    · exact hP.agfreeid h _ _
    · exact h

theorem MapInvariant.agdelnode (h : P s) : Meets (s.agdelnode c p n) (fun r => P r.2) Any := by
  rw [Store.agdelnode]
  split
  · exact h
  · dsimp only
    split
    · have loop : Meets (((s.graphs []).edgesOf n).foldlM
          (fun s e => Prod.snd <$> s.agdeledge c [] e) s) (P) Any := by
        refine Meets.foldlM (fun _ s' => P s') (fun e _ s' hs' => ?_) s h
        exact (hP.agdeledge hs').bind fun r hr => hr
      exact loop.bind fun s' hs' =>
        agapply_imap.imp fun r hr => hP.of_imap (hP.agfreeid hs' .AGNODE n.id) hr
    · exact agapply_imap.imp fun r hr => hP.of_imap h hr

theorem MapInvariant.agsubg (h : P s) {name : Option CStr} {cflag : Bool} :
    Meets (s.agsubg p name cflag) (fun r => P r.2) Any := by
  have hmap := hP.agmapnametoid h .AGRAPH name true
  rw [Store.agsubg]
  split
  · exact h
  · split
    · split
      · rename_i heq
        rw [heq] at hmap
        split
        · exact hmap
        · refine Meets.bind (P := P) ?_ fun s' hs' => hs'
          rw [Store.localsubg]
          exact meets_after _ fun _ => hP.of_imap hmap rfl
      · rename_i heq
        rw [heq] at hmap
        exact hmap
    · exact h

theorem MapInvariant.agclose {fuel : ℕ} : Meets (agclose c fuel id p s) (P) Any := by
  cases fuel with
  | zero => trivial
  | succ fuel =>
    rw [Store.agclose]
    refine meets_after _ fun s1 => meets_after _ fun s2 => ?_
    refine meets_after _ fun _ => meets_after _ fun _ => meets_after _ fun _ => ?_
    exact hP.of_imap (hP.agfreeid (hP.aginternalmapclose s2) .AGRAPH id) rfl

/-- Every operation keeps an invariant of the map. -/
theorem MapInvariant.step (h : P s) (op : StoreOp) : Meets (s.step c op) (P) Any := by
  cases op with
  | agsubg g name cflag => exact (hP.agsubg h).bind fun r hr => hr
  | agnode g name cflag => exact (hP.agnode h).bind fun r hr => hr
  | agsubnode g n cflag => exact agsubnode_imap.bind fun r hr => hP.of_imap h hr
  | agedge g t hd name cflag => exact (hP.agedge h).bind fun r hr => hr
  | agsubedge g e cflag => exact (hP.agsubedge h).bind fun r hr => hr
  | agidedge g t hd id cflag => exact (hP.agidedge h).bind fun r hr => hr
  | agdeledge g e => exact (hP.agdeledge h).bind fun r hr => hr
  | agdelnode g n => exact (hP.agdelnode h).bind fun r hr => hr
  | agclose id par => exact hP.agclose

end Operations

/-! ## Runs -/

/-- An invariant of the map holds after every run. -/
theorem MapInvariant.run {P : Store → Prop} (hP : MapInvariant P)
    {ok : Cdt → Store → StoreOp → Prop} {desc : Agdesc} {name : Option CStr} {ops : List StoreOp}
    (hrun : Run ok (agopen desc name) ops s) : P s := by
  induction hrun with
  | nil =>
    have hempty : P { desc := desc, graphs := fun _ => .empty, counter := 0, seqGraph := 0
                      seqNode := 0, seqEdge := 0, imap := [] } :=
      hP.of_imap (hP.aginternalmapclose (agopen desc name)) rfl
    exact hP.agmapnametoid hempty .AGRAPH name true
  | snoc ops c _ _ _ hstep ih => exact (hP.step ih _).of_ok hstep

/-- After every run the internal map is in order. -/
theorem Run.localNames {ok : Cdt → Store → StoreOp → Prop} {desc : Agdesc} {name : Option CStr}
    {ops : List StoreOp} (hrun : Run ok (agopen desc name) ops s) : s.LocalNames :=
  LocalNames.mapInvariant.run hrun

/-- The identifiers of the internal map are anonymous. -/
def AnonIds (s : Store) : Prop := ∀ ent ∈ s.imap, ∃ k, ent.2.2 = .anon k

theorem AnonIds.mapInvariant : MapInvariant AnonIds where
  of_imap h himap := by
    rw [AnonIds, himap]
    exact h
  agmapnametoid {s} h objtype str createflag := by
    cases str with
    | none =>
      rw [agmapnametoid]
      split <;> exact h
    | some str =>
      rw [agmapnametoid]
      split
      · exact h
      · split
        · exact h
        · split
          · exact forall_mem_cons.2 ⟨⟨s.counter, rfl⟩, h⟩
          · exact h
  agfreeid h objtype id ent hent := h ent (mem_of_mem_filter hent)
  aginternalmapclose _ _ hent := by cases hent

end Store

end Graphviz
