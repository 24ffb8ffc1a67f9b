import Graphviz.Cgraph.EdgeOps

/-!
# The order of the sequences

A property of records that the changes of one record keep holds of every record after every run. One
such property is that the out-edges of a node are in the order of their heads, so that edges with
one head are next to each other.
-/

namespace Graphviz

open List Outcome

namespace Store

/-- A property of records that every change of a record keeps. -/
structure RecordInvariant (P : Agraph → Prop) : Prop where
  empty : P .empty
  subgs : ∀ {g : Agraph}, P g → ∀ subgs, P { g with subgs }
  installnode : ∀ {g}, P g → ∀ n, Meets (g.installnode n) P Any
  insOut : ∀ {g}, P g → ∀ e, Meets (g.insOut e) P Any
  insIn : ∀ {g}, P g → ∀ e, Meets (g.insIn e) P Any
  agdeledgeimage : ∀ {g}, P g → ∀ e, Meets (g.agdeledgeimage e) P Any
  agdelnodeimage : ∀ {g}, P g → ∀ n, Meets (g.agdelnodeimage n) P Any

/-- Every record has the property. -/
def Each (P : Agraph → Prop) (s : Store) : Prop := ∀ q, P (s.graphs q)

variable {P : Agraph → Prop} {s s' : Store} {p : GPath} {n t hd : Agnode} {e : Agedge} {c : Cdt}
  {name : Option CStr} {cflag : Bool} {id : IdType}

theorem Each.set (h : Each P s) {g : Agraph} (hg : P g) : Each P (s.set p g) := fun q => by
  by_cases hq : q = p
  · subst hq
    rw [set_graphs_self]
    exact hg
  · rw [set_graphs_of_ne hq]
    exact h q

theorem Each.of_graphs (h : Each P s) (hg : s'.graphs = s.graphs) : Each P s' := fun q => by
  rw [hg]
  exact h q

theorem agmapnametoid_graphs {objtype : ObjType} {r : Option IdType} {createflag : Bool}
    (h : s.agmapnametoid objtype name createflag = (r, s')) : s'.graphs = s.graphs := by
  have hs' : (s.agmapnametoid objtype name createflag).2 = s' := congrArg Prod.snd h
  rw [← hs']
  cases name with
  | none => rw [agmapnametoid]; split <;> rfl
  | some str =>
    rw [agmapnametoid]
    split
    · rfl
    · split
      · rfl
      · split <;> rfl

section Operations

variable (hP : RecordInvariant P)

include hP

theorem RecordInvariant.installnodetoroot (h : Each P s) :
    Meets (installnodetoroot n p s) (Each P) Any := by
  induction p generalizing s with
  | nil => exact (hP.installnode (h []) n).bind fun g hg => h.set hg
  | cons id p ih => exact (hP.installnode (h _) n).bind fun g hg => ih (h.set hg)

theorem RecordInvariant.agsubnode (h : Each P s) :
    Meets (agsubnode n cflag p s) (fun r => Each P r.2) Any := by
  induction p generalizing s with
  | nil => exact h
  | cons id p ih =>
    rw [Store.agsubnode]
    split
    · exact h
    · split
      · refine (ih h).bind fun r hs' => ?_
        obtain ⟨m, s'⟩ := r
        dsimp only
        split
        · trivial
        · rename_i m
          exact (hP.installnode (hs' _) m).bind fun g hg => hs'.set hg
      · exact h

theorem RecordInvariant.installedge (h : Each P s) : Meets (installedge c e p s) (Each P) Any := by
  induction p generalizing s with
  | nil =>
    rw [Store.installedge]
    split
    · exact h
    · exact (hP.insOut (h _) e).bind fun g hg => (hP.insIn hg e).bind fun g' hg' => h.set hg'
  | cons id p ih =>
    rw [Store.installedge]
    split
    · exact h
    · exact (hP.insOut (h _) e).bind fun g hg => (hP.insIn hg e).bind fun g' hg' => ih (h.set hg')

omit hP in
theorem Each.recApply {fn : Agraph → Except Fault Agraph} {objsearch : Agraph → Bool} {fuel : ℕ}
    (hfn : ∀ {g}, P g → Meets (fn g) P Any) (h : Each P s) :
    Meets (recApply fn objsearch fuel p s) (Each P) Any := by
  induction fuel generalizing p s with
  | zero => trivial
  | succ fuel ih =>
    rw [Store.recApply]
    have loop : Meets ((s.graphs p).subgs.foldlM (fun s id =>
        if objsearch (s.graphs (id :: p)) then Store.recApply fn objsearch fuel (id :: p) s
        else .ok s) s) (Each P) Any := by
      refine Meets.foldlM (fun _ s' => Each P s') (fun id _ s' hs' => ?_) s h
      split
      · exact ih hs'
      · exact hs'
    exact loop.bind fun s' hs' => (hfn (hs' p)).bind fun g hg => hs'.set hg

omit hP in
theorem Each.agapply {fn : Agraph → Except Fault Agraph} {objsearch : Agraph → Bool}
    (hfn : ∀ {g}, P g → Meets (fn g) P Any) (h : Each P s) :
    Meets (s.agapply fn objsearch p) (fun r => Each P r.2) Any := by
  rw [Store.agapply]
  split
  · exact (h.recApply hfn).bind fun s' hs' => hs'
  · exact h

theorem RecordInvariant.agnodeCreate (h : Each P s) :
    Meets (s.agnodeCreate p name cflag) (fun r => Each P r.2) Any := by
  rw [Store.agnodeCreate]
  split
  · split
    · rename_i heq
      have h1 := h.of_graphs (agmapnametoid_graphs heq)
      refine Meets.bind (P := fun r : Agnode × Store => Each P r.2) ?_ fun r hr => hr
      rw [Store.newnode]
      refine meets_after _ fun _ => (hP.installnodetoroot ?_).bind fun s' hs' =>
        meets_after _ fun _ => hs'
      exact h1.of_graphs rfl
    · rename_i heq
      exact h.of_graphs (agmapnametoid_graphs heq)
  · exact h

theorem RecordInvariant.agnode (h : Each P s) :
    Meets (s.agnode p name cflag) (fun r => Each P r.2) Any := by
  rw [Store.agnode]
  split
  · exact hP.agnodeCreate h
  · split
    · exact h
    · split
      · split
        · exact hP.agsubnode h
        · exact hP.agnodeCreate h
      · exact hP.agnodeCreate h

theorem RecordInvariant.agedgeCreate (h : Each P s) :
    Meets (s.agedgeCreate c p t hd name cflag) (fun r => Each P r.2) Any := by
  rw [Store.agedgeCreate]
  split
  · split
    · rename_i heq
      refine Meets.bind (P := fun r : Agedge × Store => Each P r.2) ?_ fun r hr => hr
      rw [Store.newedge]
      refine (hP.agsubnode (h.of_graphs (agmapnametoid_graphs heq))).bind fun r hr =>
        (hP.agsubnode hr).bind fun r' hr' => meets_after _ fun _ => ?_
      refine Meets.bind (P := Each P) (hP.installedge (hr'.of_graphs rfl)) fun s' hs' => ?_
      exact hs'
    · rename_i heq
      exact h.of_graphs (agmapnametoid_graphs heq)
  · exact h

theorem RecordInvariant.agedge (h : Each P s) :
    Meets (s.agedge c p t hd name cflag) (fun r => Each P r.2) Any := by
  rw [Store.agedge]
  split
  · split
    · exact h
    · split
      · split
        · exact (hP.installedge h).bind fun s' hs' => hs'
        · exact hP.agedgeCreate h
      · exact h
  · exact hP.agedgeCreate h

theorem RecordInvariant.agidedge (h : Each P s) :
    Meets (s.agidedge c p t hd id cflag) (fun r => Each P r.2) Any := by
  rw [Store.agidedge]
  split
  · exact h
  · split
    · split
      · exact (hP.installedge h).bind fun s' hs' => hs'
      · exact h
    · exact h

theorem RecordInvariant.agsubedge (h : Each P s) :
    Meets (s.agsubedge c p e cflag) (fun r => Each P r.2) Any := by
  rw [Store.agsubedge]
  refine (hP.agsubnode h).bind fun r h1 => ?_
  obtain ⟨t, s1⟩ := r
  dsimp only
  split
  · refine (hP.agsubnode h1).bind fun r h2 => ?_
    obtain ⟨hd, s2⟩ := r
    dsimp only
    split
    · split
      · exact h2
      · split
        · exact (hP.installedge h2).bind fun s' hs' => hs'
        · exact h2
    · exact h2
  · exact h1

theorem RecordInvariant.agdeledge (h : Each P s) :
    Meets (s.agdeledge c p e) (fun r => Each P r.2) Any := by
  rw [Store.agdeledge]
  split
  · exact h
  · refine Each.agapply (fun hg => hP.agdeledgeimage hg e) ?_
    split
    · exact h.of_graphs rfl
    · exact h

theorem RecordInvariant.agdelnode (h : Each P s) :
    Meets (s.agdelnode c p n) (fun r => Each P r.2) Any := by
  rw [Store.agdelnode]
  split
  · exact h
  · dsimp only
    split
    · have loop : Meets (((s.graphs []).edgesOf n).foldlM
          (fun s e => Prod.snd <$> s.agdeledge c [] e) s) (Each P) Any := by
        refine Meets.foldlM (fun _ s' => Each P s') (fun e _ s' hs' => ?_) s h
        exact (hP.agdeledge hs').map
      refine loop.bind fun s' hs' => ?_
      exact Each.agapply (fun hg => hP.agdelnodeimage hg n) (hs'.of_graphs rfl)
    · exact Each.agapply (fun hg => hP.agdelnodeimage hg n) h

theorem RecordInvariant.agsubg (h : Each P s) :
    Meets (s.agsubg p name cflag) (fun r => Each P r.2) Any := by
  rw [Store.agsubg]
  split
  · exact h
  · split
    · split
      · rename_i heq
        have h1 := h.of_graphs (agmapnametoid_graphs heq)
        split
        · exact h1
        · refine Meets.bind (P := Each P) ?_ fun s' hs' => hs'
          rw [Store.localsubg]
          refine meets_after _ fun _ => ?_
          refine Each.set ?_ (hP.subgs ?_ _)
          · exact Each.set (h1.of_graphs rfl) hP.empty
          · exact Each.set (h1.of_graphs rfl) hP.empty p
      · rename_i heq
        exact h.of_graphs (agmapnametoid_graphs heq)
    · exact h

theorem RecordInvariant.agclose {fuel : ℕ} (h : Each P s) :
    Meets (agclose c fuel id p s) (Each P) Any := by
  induction fuel generalizing id p s with
  | zero => trivial
  | succ fuel ih =>
    rw [Store.agclose]
    have subs : Meets ((s.graphs (id :: p)).subgs.foldlM
        (fun s sub => Store.agclose c fuel sub (id :: p) s) s) (Each P) Any :=
      Meets.foldlM (fun _ s' => Each P s') (fun _ _ _ hs' => ih hs') s h
    refine subs.bind fun s1 h1 => ?_
    have nodes : Meets ((s1.graphs (id :: p)).nSeq.foldlM
        (fun s n => Prod.snd <$> s.agdelnode c (id :: p) n) s1) (Each P) Any :=
      Meets.foldlM (fun _ s' => Each P s')
        (fun _ _ _ hs' => (hP.agdelnode hs').map) s1 h1
    refine nodes.bind fun s2 h2 => ?_
    refine meets_after _ fun _ => meets_after _ fun _ => meets_after _ fun _ => ?_
    exact (h2.of_graphs rfl).set (hP.subgs (h2 p) _)

/-- Every operation keeps the property. -/
theorem RecordInvariant.step (h : Each P s) (op : StoreOp) : Meets (s.step c op) (Each P) Any := by
  cases op with
  | agsubg g name cflag => exact (hP.agsubg h).bind fun r hr => hr
  | agnode g name cflag => exact (hP.agnode h).bind fun r hr => hr
  | agsubnode g n cflag => exact (hP.agsubnode h).bind fun r hr => hr
  | agedge g t hd name cflag => exact (hP.agedge h).bind fun r hr => hr
  | agsubedge g e cflag => exact (hP.agsubedge h).bind fun r hr => hr
  | agidedge g t hd id cflag => exact (hP.agidedge h).bind fun r hr => hr
  | agdeledge g e => exact (hP.agdeledge h).bind fun r hr => hr
  | agdelnode g n => exact (hP.agdelnode h).bind fun r hr => hr
  | agclose id par => exact hP.agclose h

/-- The property holds of every record after every run. -/
theorem RecordInvariant.run {ok : Cdt → Store → StoreOp → Prop} {desc : Agdesc} {ops : List StoreOp}
    (hrun : Run ok (agopen desc name) ops s) : Each P s := by
  induction hrun with
  | nil =>
    intro q
    rw [agopen, agmapnametoid_graphs (Prod.eta _).symm]
    exact hP.empty
  | snoc ops c _ _ _ hstep ih => exact (hP.step ih _).of_ok hstep

end Operations

end Store

/-! ## Out-edges in the order of their heads -/

/-- The out-edges of every node are in the order of `agedgeseqcmpf`. -/
def Agraph.OutSorted (g : Agraph) : Prop :=
  ∀ sn ∈ g.nId, sn.outSeq.Pairwise fun e f => agedgeseqcmpf Agedge.head e f = .lt

theorem agedgeseqcmpf_trans {node : Agedge → Agnode} {e f k : Agedge}
    (hef : agedgeseqcmpf node e f = .lt) (hfk : agedgeseqcmpf node f k = .lt) :
    agedgeseqcmpf node e k = .lt := by
  unfold agedgeseqcmpf at hef hfk ⊢
  grind [Nat.compare_eq_lt]

theorem agedgeseqcmpf_gt {node : Agedge → Agnode} {e f : Agedge}
    (h : agedgeseqcmpf node e f = .gt) : agedgeseqcmpf node f e = .lt := by
  unfold agedgeseqcmpf at h ⊢
  grind [Nat.compare_eq_lt, Nat.compare_eq_gt]

namespace Agraph

open Store (Any meets_after)

variable {g : Agraph} {e : Agedge} {sn : Agsubnode} {n : Agnode}

theorem OutSorted.setSubrep (h : g.OutSorted)
    (hsn : sn.outSeq.Pairwise fun e f => agedgeseqcmpf Agedge.head e f = .lt) :
    (g.setSubrep sn).OutSorted := by
  intro sn' hmem
  rw [Agraph.setSubrep, mem_map] at hmem
  obtain ⟨sm, hsm, rfl⟩ := hmem
  split
  · exact hsn
  · exact h sm hsm

theorem OutSorted.agsubrep (h : g.OutSorted) (hsn : g.agsubrep n = some sn) :
    sn.outSeq.Pairwise fun e f => agedgeseqcmpf Agedge.head e f = .lt :=
  h sn (mem_of_find?_eq_some hsn)

theorem OutSorted.insOut (h : g.OutSorted) : Meets (g.insOut e) OutSorted Any := by
  rw [Agraph.insOut]
  split
  · trivial
  · rename_i sn hsn
    exact h.setSubrep (Dict.pairwise_insert agedgeseqcmpf_trans agedgeseqcmpf_gt (h.agsubrep hsn))

theorem OutSorted.insIn (h : g.OutSorted) : Meets (g.insIn e) OutSorted Any := by
  rw [Agraph.insIn]
  split
  · trivial
  · rename_i sn hsn
    have hsorted := h.agsubrep hsn
    exact h.setSubrep hsorted

theorem OutSorted.agdeledgeimage (h : g.OutSorted) : Meets (g.agdeledgeimage e) OutSorted Any := by
  have delOut : Meets (g.delOut e) OutSorted Any := by
    rw [Agraph.delOut]
    split
    · trivial
    · rename_i sn hsn
      refine del_sublist.bind fun outSeq hseq => meets_after _ fun outId => ?_
      exact h.setSubrep ((h.agsubrep hsn).sublist hseq)
  refine delOut.bind fun g' h' => ?_
  rw [Agraph.delIn]
  split
  · trivial
  · rename_i sn hsn
    have hsorted := h'.agsubrep hsn
    exact meets_after _ fun inSeq => meets_after _ fun inId => h'.setSubrep hsorted

/-- Every change of a record keeps the order. -/
theorem OutSorted.recordInvariant : Store.RecordInvariant OutSorted where
  empty := nofun
  subgs h _ := h
  installnode {g} h n := by
    rw [Agraph.installnode]
    refine meets_after _ fun _ => meets_after _ fun _ => meets_after _ fun _ => fun sn hsn => ?_
    obtain hsn | hsn := mem_append.1 hsn
    · exact h sn hsn
    · rw [mem_singleton.1 hsn]
      exact Pairwise.nil
  insOut h _ := h.insOut
  insIn h _ := h.insIn
  agdeledgeimage h _ := h.agdeledgeimage
  agdelnodeimage {g} h n := by
    rw [Agraph.agdelnodeimage]
    have loop : Meets ((g.edgesOf n).foldlM (fun g e => g.agdeledgeimage e) g) OutSorted Any :=
      Meets.foldlM (fun _ g => g.OutSorted) (fun _ _ _ h => h.agdeledgeimage) g h
    exact loop.bind fun g' h' sn hsn => h' sn (mem_of_mem_eraseP hsn)

/-- The heads of the out-edges of a node are in the order of their sequence numbers. -/
theorem OutSorted.outSeqOf (h : g.OutSorted) (n : Agnode) :
    (g.outSeqOf n).Pairwise fun e f => e.head.seq ≤ f.head.seq := by
  rw [Agraph.outSeqOf]
  cases hsn : g.agsubrep n with
  | none => exact Pairwise.nil
  | some sn =>
    refine (h.agsubrep hsn).imp fun {e f} hlt => ?_
    rw [agedgeseqcmpf] at hlt
    split at hlt
    · exact (Nat.compare_eq_lt.1 hlt).le
    · rename_i heq
      rw [not_not.1 heq]

end Agraph

end Graphviz
