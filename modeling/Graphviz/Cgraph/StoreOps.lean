import Graphviz.Cgraph.StoreInv

/-!
# The operations keep the invariant

The operations on edges and subgraphs, one lemma each. `agedge` and `agidedge` may install an
edge of the root in a subgraph without first installing its end points: `oldEdge` and `oldById`
are the edge they install, and their lemmas ask for the end points when there is one.
-/

namespace Graphviz

open List Outcome

namespace Store

variable {s s' : Store} {U : View} {V W : Views} {p : GPath} {n t hd : Agnode} {e : Agedge}
  {c : Cdt} {E : Fault → Prop}

/-! ## Finding edges -/

/-- An edge between two nodes: from the first to the second, or in an undirected graph in
either orientation. -/
def Connects (s : Store) (t hd : Agnode) (e : Agedge) : Prop :=
  (e.tail = t ∧ e.head = hd) ∨ (s.desc.directed = false ∧ e.tail = hd ∧ e.head = t)

section Find

variable (h : s.Inv V) (hp : s.Live p) (ht : t ∈ (V []).nodes) (hh : hd ∈ (V []).nodes)
  {key : Option IdType}

include h hp ht hh

/-- `agfindedge_by_key` returns an edge of the graph. -/
theorem Inv.of_find (hf : (s.graphs p).agfindedgeByKey c t hd key = some e) :
    e ∈ (V p).edges ∧ e.tail = t ∧ e.head = hd ∧ ∀ id ∈ key, e.id = id :=
  (h.shows.rep p hp).of_agfindedgeByKey h.distinct (h.shows.sub p hp).nodes
    (h.shows.sub p hp).edges ht hh hf

omit ht hh in
/-- `agfindedge_by_key` returns null only when the graph has no such edge. -/
theorem Inv.of_find_none (hf : (s.graphs p).agfindedgeByKey c e.tail e.head key = none)
    (he : e ∈ (V p).edges) : ¬ ∀ id ∈ key, e.id = id :=
  (h.shows.rep p hp).of_agfindedgeByKey_none h.distinct (h.shows.sub p hp).nodes hf
    ((h.shows.ends p hp).head e he) he

/-- A probe returns an edge of the graph between the two nodes. -/
theorem Inv.of_probe (hf : s.probe c p t hd key = some e) :
    e ∈ (V p).edges ∧ s.Connects t hd e := by
  rw [probe] at hf
  split at hf
  · rename_i f hfind
    cases hf
    obtain ⟨he, h1, h2, -⟩ := h.of_find hp ht hh hfind
    exact ⟨he, .inl ⟨h1, h2⟩⟩
  · split at hf
    · cases hf
    · rename_i hdir
      obtain ⟨he, h1, h2, -⟩ := h.of_find hp hh ht hf
      exact ⟨he, .inr ⟨by simpa using hdir, h1, h2⟩⟩

omit ht hh in
/-- A probe returns nothing only when the graph has no edge with the key between the nodes. -/
theorem Inv.of_probe_none (hf : s.probe c p t hd key = none) (he : e ∈ (V p).edges)
    (hc : s.Connects t hd e) : ¬ ∀ id ∈ key, e.id = id := by
  rw [probe] at hf
  split at hf
  · cases hf
  · rename_i hfind
    obtain ⟨rfl, rfl⟩ | ⟨hdir, rfl, rfl⟩ := hc
    · exact h.of_find_none hp hfind he
    · rw [if_neg (by simp [hdir])] at hf
      exact h.of_find_none hp hf he

end Find

/-! ## Installing an edge -/

/-- `installedge` of an edge of the root in a graph that has its end points. -/
theorem Inv.installedge (h : s.Inv V) (hp : s.Live p) (he : e ∈ (V []).edges)
    (ht : e.tail ∈ (V p).nodes) (hh : e.head ∈ (V p).nodes) (c : Cdt) :
    Meets (installedge c e p s)
      (fun s' => SameFrame s s' ∧ s'.Inv (V.above (View.addEdge e) p)) E := by
  refine (installedge_meets h.distinct he hp h.shows c
    (fun q hq => ⟨(h.hier.suffix hp hq).nodes ht, (h.hier.suffix hp hq).nodes hh⟩)
    fun q r hq hr => fun her => (h.hier.suffix (hp.suffix hr) hq).edges her).imp
    fun s' ⟨hf, hs⟩ => ⟨hf, ?_⟩
  have hroot : V.above (View.addEdge e) p [] = V [] := by
    rw [Views.above_of_suffix nil_suffix, View.addEdge_of_mem he]
  exact h.of_frame hf hs (h.hier.above View.Sub.addEdge (fun _ => View.sub_addEdge) p)
    (hroot ▸ h.distinct) (hroot ▸ h.fresh)

/-- What an operation on edges may do to the store: it keeps the invariant and the root's
edges. -/
def KeepsEdges (s : Store) (V : Views) (s' : Store) : Prop :=
  Keeps s s' ∧ ∃ W, s'.Inv W ∧ (W []).edges = (V []).edges

theorem Inv.keepsEdges (h : s.Inv V) : s.KeepsEdges V s := ⟨.refl s, V, h, rfl⟩

/-- An installation of an edge of the root keeps the root's edges. -/
theorem Inv.installedge_old (h : s.Inv V) (hp : s.Live p) (he : e ∈ (V []).edges)
    (ht : e.tail ∈ (V p).nodes) (hh : e.head ∈ (V p).nodes) (c : Cdt) :
    Meets (Store.installedge c e p s) (s.KeepsEdges V) E := by
  refine (h.installedge hp he ht hh c).imp fun s' ⟨hf, hs⟩ => ⟨hf.keeps, _, hs, ?_⟩
  rw [Views.above_of_suffix nil_suffix, View.addEdge_of_mem he]

/-- An edge made in a graph is new, and is in the graph with its end points. -/
theorem Inv.newedge (h : s.Inv V) (hp : s.Live p) (ht : t ∈ (V []).nodes)
    (hh : hd ∈ (V []).nodes) {id : IdType}
    (hid : ∀ f ∈ (V []).edges, f.tail = t → f.head = hd → f.id ≠ id)
    (hk : ∀ k, id = .anon k → k < s.counter) (c : Cdt) :
    Meets (s.newedge c p t hd id)
      (fun r => r.1.tail = t ∧ r.1.head = hd ∧ Keeps s r.2 ∧
        ∃ W, r.2.Inv W ∧ (W []).edges = insert r.1 (V []).edges) s.Overflows := by
  rw [Store.newedge]
  refine (h.agsubnode hp ht).bind fun r1 hr1 => ?_
  obtain ⟨-, hf1, h1⟩ := hr1
  have hroot1 : V.above (View.addNode t) p [] = V [] := by
    rw [Views.above_of_suffix nil_suffix, View.addNode_of_mem ht]
  have hp1 := hf1.live.2 hp
  refine (h1.agsubnode hp1 (hroot1 ▸ hh)).bind fun r2 hr2 => ?_
  obtain ⟨-, hf2, h2⟩ := hr2
  set W := (V.above (View.addNode t) p).above (View.addNode hd) p with hW
  have hroot2 : W [] = V [] := by
    rw [hW, Views.above_of_suffix nil_suffix, hroot1, View.addNode_of_mem hh]
  have hp2 := hf2.live.2 hp1
  have hf := hf1.trans hf2
  have hWp : W p = ((V p).addNode t).addNode hd := by
    rw [hW, Views.above_of_suffix suffix_rfl, Views.above_of_suffix suffix_rfl]
  have hseq : r2.2.seqEdge = s.seqEdge := by
    obtain ⟨gs, hgs, -⟩ := hf
    rw [hgs]
  have hcounter : r2.2.counter = s.counter := by
    obtain ⟨gs, hgs, -⟩ := hf
    rw [hgs]
  dsimp only
  rw [assert]
  split
  · set e : Agedge := { tail := t, head := hd, id := id, seq := r2.2.seqEdge + 1 } with he
    set s3 : Store := { r2.2 with seqEdge := r2.2.seqEdge + 1 } with hs3
    have hU : ((W []).addEdge e).Distinct := by
      refine h2.distinct.addEdge (hroot2 ▸ ht) (hroot2 ▸ hh) (hroot2 ▸ hid) fun f hf => ?_
      have := h2.fresh.edgeSeq f hf
      rw [he]
      dsimp only
      omega
    have hfr : s3.Fresh ((W []).addEdge e) := by
      refine ⟨h2.fresh.nodeSeq, ?_, h2.fresh.nodeId, ?_, h2.fresh.imapId⟩
      · rintro f (rfl | hf)
        · exact le_rfl
        · exact Nat.le_succ_of_le (h2.fresh.edgeSeq f hf)
      · rintro f (rfl | hf)
        · rw [hs3, hcounter]
          exact hk
        · exact h2.fresh.edgeId f hf
    have h3 : s3.Inv W := h2.of_graphs rfl rfl (hfr.sub View.sub_addEdge)
    have hk3 : Keeps r2.2 s3 := ⟨rfl, fun _ => rfl, rfl⟩
    have hnew : ∀ q, q <:+ p → e ∉ (W q).edges := fun q hq hm => by
      have := h2.fresh.edgeSeq e ((h2.hier.root (hp2.suffix hq)).edges hm)
      rw [he] at this
      dsimp only at this
      omega
    refine (installedge_meets hU (Set.mem_insert e _) (hk3.live.2 hp2)
      (h3.shows.mono View.sub_addEdge) c (fun q hq => ?_)
      fun q r _ hr hm => absurd hm (hnew r hr)).bind fun s4 h4 => ?_
    · have hle := (h2.hier.suffix hp2 hq).nodes
      exact ⟨hle (hWp ▸ .inr (.inl rfl)), hle (hWp ▸ .inl rfl)⟩
    · obtain ⟨hf4, hs4⟩ := h4
      have hroot : W.above (View.addEdge e) p [] = (W []).addEdge e :=
        Views.above_of_suffix nil_suffix
      refine ⟨rfl, rfl, (hf.keeps.trans hk3).trans hf4.keeps, _,
        h3.of_frame hf4 hs4 (h3.hier.above View.Sub.addEdge (fun _ => View.sub_addEdge) p)
          (hroot ▸ hU) (hroot ▸ hfr), ?_⟩
      rw [hroot, ← hroot2]
      rfl
  · exact ⟨rfl, .inr (.inr (by omega))⟩

/-! ## Operations on edges -/

/-- The edge of the root that `agedge` installs in a graph without it. -/
def oldEdge (c : Cdt) (s : Store) (p : GPath) (t hd : Agnode) (name : Option CStr)
    (cflag : Bool) : Option Agedge :=
  let key := (s.agmapnametoid .AGEDGE name false).1
  if cflag ∧ s.probes name cflag ∧ s.probe c p t hd key = none then s.probe c [] t hd key
  else none

/-- `agedge` makes an edge: it finds none where it probes, and `ok_to_make_edge` allows one. -/
def makesEdge (c : Cdt) (s : Store) (p : GPath) (t hd : Agnode) (name : Option CStr)
    (cflag : Bool) : Bool :=
  let key := (s.agmapnametoid .AGEDGE name false).1
  cflag ∧ (s.probes name cflag → s.probe c p t hd key = none ∧ s.probe c [] t hd key = none) ∧
    s.okToMakeEdge c p t hd

/-- What `agedge` may do to the store: keep the root's edges, or make one. -/
def EdgeMade (c : Cdt) (s : Store) (V : Views) (p : GPath) (t hd : Agnode) (name : Option CStr)
    (cflag : Bool) (s' : Store) : Prop :=
  s.KeepsEdges V s' ∨ s.makesEdge c p t hd name cflag = true ∧ Keeps s s' ∧
    ∃ W f, s'.Inv W ∧ f.tail = t ∧ f.head = hd ∧ (W []).edges = insert f (V []).edges

/-- `agedge`, in a graph that has the end points of an edge it installs. -/
theorem Inv.agedge (h : s.Inv V) (hp : s.Live p) (ht : t ∈ (V []).nodes)
    (hh : hd ∈ (V []).nodes) (c : Cdt) (name : Option CStr) (cflag : Bool)
    (hold : s.oldEdge c p t hd name cflag ≠ none → t ∈ (V p).nodes ∧ hd ∈ (V p).nodes) :
    Meets (s.agedge c p t hd name cflag) (fun r => s.EdgeMade c V p t hd name cflag r.2)
      s.Overflows := by
  have create : (s.probes name cflag = true → ∀ f ∈ (V []).edges, f.tail = t → f.head = hd →
      ¬ ∀ id ∈ (s.agmapnametoid .AGEDGE name false).1, f.id = id) →
      (cflag = true → s.okToMakeEdge c p t hd = true → s.makesEdge c p t hd name cflag = true) →
      Meets (s.agedgeCreate c p t hd name cflag)
        (fun r => s.EdgeMade c V p t hd name cflag r.2) s.Overflows := by
    intro hnone hmakes
    obtain ⟨id, counter, imap, hm, hfr, hid⟩ := s.agmapnametoid_true .AGEDGE name
    rw [agedgeCreate]
    split
    · rename_i hok
      rw [hm]
      dsimp only
      have hk1 : Keeps s { s with counter := counter, imap := imap } :=
        ⟨rfl, fun _ => rfl, rfl⟩
      have h1 : Inv { s with counter := counter, imap := imap } V :=
        h.of_graphs rfl rfl (hfr _ h.fresh).1
      have hnew : ∀ f ∈ (V []).edges, f.tail = t → f.head = hd → f.id ≠ id := by
        intro f hf hft hfh he
        obtain hid | ⟨-, hid⟩ := hid
        · refine hnone ?_ f hf hft hfh ?_
          · rw [probes, hid]
            simp
          · rw [hid]
            intro id' hid'
            cases hid'
            exact he
        · exact absurd (h.fresh.edgeId f hf s.counter (he.trans hid)) (lt_irrefl _)
      refine (h1.newedge (hk1.live.2 hp) ht hh hnew (hfr _ h.fresh).2 c).bind
        fun r ⟨hrt, hrh, hrk, W, hW, hWe⟩ => ?_
      exact .inr ⟨hmakes hok.1 hok.2, hk1.trans hrk, W, r.1, hW, hrt, hrh, hWe⟩
    · exact .inl h.keepsEdges
  rw [Store.agedge]
  split
  · rename_i hprobes
    split
    · exact .inl h.keepsEdges
    · rename_i hlocal
      split
      · rename_i hcf
        split
        · rename_i e hroot
          obtain ⟨he, hc⟩ := h.of_probe (p := []) trivial ht hh hroot
          have hends := hold (by
            rw [oldEdge, if_pos ⟨hcf, hprobes, hlocal⟩, hroot]
            exact Option.some_ne_none e)
          have hmem : e.tail ∈ (V p).nodes ∧ e.head ∈ (V p).nodes := by
            obtain ⟨rfl, rfl⟩ | ⟨-, rfl, rfl⟩ := hc
            · exact hends
            · exact hends.symm
          exact (h.installedge_old hp he hmem.1 hmem.2 c).bind fun s' hs' => .inl hs'
        · rename_i hroot
          refine create (fun _ f hf hft hfh => ?_) fun _ hok => ?_
          · exact h.of_probe_none (p := []) trivial hroot hf (.inl ⟨hft, hfh⟩)
          · exact decide_eq_true ⟨hcf, fun _ => ⟨hlocal, hroot⟩, hok⟩
      · exact .inl h.keepsEdges
  · rename_i hprobes
    refine create (fun hp => absurd hp hprobes) fun hcf hok => ?_
    exact decide_eq_true ⟨hcf, fun hp => absurd hp hprobes, hok⟩

/-- `agedge` follows a null pointer when a graph lacks an end point of the edge it installs. -/
theorem Inv.agedge_segfault (h : s.Inv V) (hp : s.Live p) (ht : t ∈ (V []).nodes)
    (hh : hd ∈ (V []).nodes) (c : Cdt) (name : Option CStr) (cflag : Bool)
    (hold : s.oldEdge c p t hd name cflag ≠ none) (hends : ¬ (t ∈ (V p).nodes ∧ hd ∈ (V p).nodes)) :
    s.agedge c p t hd name cflag = .error .segfault := by
  rw [oldEdge] at hold
  split at hold
  · rename_i hc
    obtain ⟨hcf, hprobes, hlocal⟩ := hc
    cases hroot : s.probe c [] t hd (s.agmapnametoid .AGEDGE name false).1 with
    | none => exact absurd hroot hold
    | some e =>
      obtain ⟨he, hc⟩ := h.of_probe (p := []) trivial ht hh hroot
      have hmem : ¬ (e.tail ∈ (V p).nodes ∧ e.head ∈ (V p).nodes) := by
        obtain ⟨rfl, rfl⟩ | ⟨-, rfl, rfl⟩ := hc
        · exact hends
        · exact fun hm => hends hm.symm
      rw [Store.agedge, if_pos hprobes, hlocal]
      dsimp only
      rw [if_pos hcf, hroot]
      dsimp only
      rw [installedge_segfault h.distinct he hp h.shows c hmem]
      rfl
  · exact absurd rfl hold

/-- The edge of the root that `agidedge` installs in a graph without it. -/
def oldById (c : Cdt) (s : Store) (p : GPath) (t hd : Agnode) (id : IdType) (cflag : Bool) :
    Option Agedge :=
  if s.probe c p t hd (some id) = none ∧ cflag ∧ s.okToMakeEdge c p t hd ∧ p ≠ [] then
    (s.graphs []).agfindedgeByKey c t hd (some id)
  else none

/-- `agidedge`, in a graph that has the end points of an edge it installs. -/
theorem Inv.agidedge (h : s.Inv V) (hp : s.Live p) (ht : t ∈ (V []).nodes)
    (hh : hd ∈ (V []).nodes) (c : Cdt) (id : IdType) (cflag : Bool)
    (hold : s.oldById c p t hd id cflag ≠ none → t ∈ (V p).nodes ∧ hd ∈ (V p).nodes) :
    Meets (s.agidedge c p t hd id cflag) (fun r => s.KeepsEdges V r.2) E := by
  rw [Store.agidedge]
  split
  · exact h.keepsEdges
  · rename_i hlocal
    split
    · rename_i hc
      split
      · rename_i e hroot
        obtain ⟨he, rfl, rfl, -⟩ := h.of_find (p := []) trivial ht hh hroot
        have hends := hold (by
          rw [oldById, if_pos ⟨hlocal, hc⟩, hroot]
          exact Option.some_ne_none e)
        exact (h.installedge_old hp he hends.1 hends.2 c).bind fun s' hs' => hs'
      · exact h.keepsEdges
    · exact h.keepsEdges

/-- `agidedge` follows a null pointer when a graph lacks an end point of the edge it
installs. -/
theorem Inv.agidedge_segfault (h : s.Inv V) (hp : s.Live p) (ht : t ∈ (V []).nodes)
    (hh : hd ∈ (V []).nodes) (c : Cdt) (id : IdType) (cflag : Bool)
    (hold : s.oldById c p t hd id cflag ≠ none) (hends : ¬ (t ∈ (V p).nodes ∧ hd ∈ (V p).nodes)) :
    s.agidedge c p t hd id cflag = .error .segfault := by
  rw [oldById] at hold
  split at hold
  · rename_i hc
    cases hroot : (s.graphs []).agfindedgeByKey c t hd (some id) with
    | none => exact absurd hroot hold
    | some e =>
      obtain ⟨he, rfl, rfl, -⟩ := h.of_find (p := []) trivial ht hh hroot
      rw [Store.agidedge, hc.1]
      dsimp only
      rw [if_pos hc.2, hroot]
      dsimp only
      rw [installedge_segfault h.distinct he hp h.shows c hends]
      rfl
  · exact absurd rfl hold

/-- `agsubedge` installs the end points first. -/
theorem Inv.agsubedge (h : s.Inv V) (hp : s.Live p) (he : e ∈ (V []).edges) (c : Cdt)
    (cflag : Bool) : Meets (s.agsubedge c p e cflag) (fun r => s.KeepsEdges V r.2) E := by
  have ht := h.distinct.tail_mem e he
  have hh := h.distinct.head_mem e he
  rw [Store.agsubedge]
  cases cflag with
  | true =>
    refine (h.agsubnode hp ht).bind fun ⟨t', s1⟩ ⟨hr1, hf1, h1⟩ => ?_
    cases hr1
    have hroot1 : V.above (View.addNode e.tail) p [] = V [] := by
      rw [Views.above_of_suffix nil_suffix, View.addNode_of_mem ht]
    have hp1 := hf1.live.2 hp
    dsimp only
    rw [if_pos (.inr rfl)]
    refine (h1.agsubnode hp1 (hroot1 ▸ hh)).bind fun ⟨h', s2⟩ ⟨hr2, hf2, h2⟩ => ?_
    cases hr2
    set W := (V.above (View.addNode e.tail) p).above (View.addNode e.head) p with hW
    have hroot2 : W [] = V [] := by
      rw [hW, Views.above_of_suffix nil_suffix, hroot1, View.addNode_of_mem hh]
    have hWp : W p = ((V p).addNode e.tail).addNode e.head := by
      rw [hW, Views.above_of_suffix suffix_rfl, Views.above_of_suffix suffix_rfl]
    have hp2 := hf2.live.2 hp1
    have hk := (hf1.trans hf2).keeps
    dsimp only
    split
    · exact ⟨hk, W, h2, by rw [hroot2]⟩
    · rw [if_pos rfl]
      refine (h2.installedge_old hp2 (hroot2 ▸ he) (hWp ▸ .inr (.inl rfl)) (hWp ▸ .inl rfl)
        c).bind fun s3 ⟨hk3, W₃, h3, he3⟩ => ?_
      exact ⟨hk.trans hk3, W₃, h3, by rw [he3, hroot2]⟩
  | false =>
    obtain ⟨hr, -⟩ | ⟨hr, -⟩ := agsubnode_false h.distinct ht hp h.shows
    · refine Meets.bind (P := (· = (some e.tail, s))) (by rw [hr]; rfl) fun r1 hr1 => ?_
      subst hr1
      dsimp only
      rw [if_pos (.inl rfl)]
      obtain ⟨hr', -⟩ | ⟨hr', -⟩ := agsubnode_false h.distinct hh hp h.shows
      · refine Meets.bind (P := (· = (some e.head, s))) (by rw [hr']; rfl) fun r2 hr2 => ?_
        subst hr2
        dsimp only
        split
        · exact h.keepsEdges
        · exact h.keepsEdges
      · rw [hr']
        exact h.keepsEdges
    · rw [hr]
      exact h.keepsEdges

end Store

end Graphviz

/-!
## Deletions and subgraphs

`agdeledge` and `agdelnode` take an object from a graph and from those below it; `agsubg` and
`agclose` change which graphs there are. Each keeps the invariant of the store.
-/

namespace Graphviz

open List Outcome

namespace Store

variable {s s' : Store} {U : View} {V W : Views} {p : GPath} {n : Agnode} {e : Agedge}
  {c : Cdt} {E : Fault → Prop}

/-- Only the views of live graphs matter. -/
theorem Inv.congr (h : s.Inv V) (hVW : ∀ q, s.Live q → V q = W q) : s.Inv W where
  shows := hVW [] trivial ▸ h.shows.congr hVW
  hier id q hq := hVW _ hq ▸ hVW q hq.1 ▸ h.hier id q hq
  distinct := hVW [] trivial ▸ h.distinct
  shape := h.shape
  fresh := hVW [] trivial ▸ h.fresh

/-! ## Deletions -/

/-- The deletion of an edge from one graph. -/
theorem deletes_edge (hU : U.Distinct) (he : e ∈ U.edges) (c : Cdt) :
    Deletes U (Agraph.agdeledgeimage e) (subedgeSearch c e) (e ∈ ·.edges) (View.delEdge e) where
  run {g v E} hg hv hends hhas :=
    hg.agdeledgeimage hU hv.nodes he hv.edges hv.edges (hends.tail e hhas) (hends.head e hhas)
      hhas hhas
  search {g v} hg hv hends := by
    rw [subedgeSearch]
    obtain ⟨hf, hm⟩ | ⟨hf, hm⟩ := hg.agfindedgeByKey_eq hU hv.nodes hv.edges hends.head he c
    · have ht := hg.agfindnodeById_mem hU hv.nodes (hends.tail e hm)
      have hh := hg.agfindnodeById_mem hU hv.nodes (hends.head e hm)
      simp [hf, ht, hh, hm]
    · simp [hf, hm]
  ends {v} hends := ⟨fun f hf => hends.tail f hf.1, fun f hf => hends.head f hf.1⟩
  sub v := View.delEdge_sub
  skip {v} _ h := View.delEdge_of_not_mem h
  mono {v w} hvw h := hvw.edges h

/-- The deletion of a node from one graph. -/
theorem deletes_node (hU : U.Distinct) (hn : n ∈ U.nodes) :
    Deletes U (Agraph.agdelnodeimage n) (subnodeSearch n) (n ∈ ·.nodes) (View.delNode n) where
  run {g v E} hg hv hends hhas := hg.agdelnodeimage hU hv.nodes hv.edges hends hhas
  search {g v} hg hv hends := by
    rw [subnodeSearch]
    by_cases hm : n ∈ v.nodes
    · simp [hg.agfindnodeById_mem hU hv.nodes hm, hm]
    · simp [hg.agfindnodeById_not_mem hU hv.nodes hn hm, hm]
  ends {v} hends :=
    ⟨fun f hf => ⟨hends.tail f hf.1, hf.2.1⟩, fun f hf => ⟨hends.head f hf.1, hf.2.2⟩⟩
  sub v := View.delNode_sub
  skip {v} hends h := View.delNode_of_not_mem hends h
  mono {v w} hvw h := hvw.nodes h

/-- `agapply` of a deletion to an object of the graph. -/
theorem Inv.agapply (h : s.Inv V) (hp : s.Live p) {fn : Agraph → Except Fault Agraph}
    {objsearch : Agraph → Bool} {has : View → Prop} {del : View → View}
    (hdel : Deletes (V []) fn objsearch has del)
    (hmono : ∀ {v w : View}, v.Sub w → (del v).Sub (del w)) (hhas : has (V p)) :
    Meets (s.agapply fn objsearch p)
      (fun r => r.1 = true ∧ SameFrame s r.2 ∧ r.2.Inv (V.below del p)) E := by
  have hsearch := hdel.search (h.shows.rep p hp) (h.shows.sub p hp) (h.shows.ends p hp)
  rw [Store.agapply, if_pos (.inr (hsearch.2 hhas))]
  refine (recApply_meets hdel s.depth p s V (by rw [depth]; omega) h.shape hp h.shows hhas
    fun q r _ hr hlr hhr => hdel.mono (h.hier.suffix hlr hr) hhr).bind fun s' ⟨hf, hs⟩ => ?_
  have hroot : (V.below del p []).Sub (V []) := by
    by_cases hp0 : p <:+ []
    · rw [Views.below_of_suffix hp0]
      exact hdel.sub _
    · rw [Views.below_of_not_suffix hp0]
      exact .refl _
  have hends : Agraph.Ends (V.below del p []).nodes (V.below del p []).edges :=
    hs.ends [] trivial
  exact ⟨rfl, hf, h.of_frame hf hs (h.hier.below hmono hdel.sub p)
    (h.distinct.sub hroot hends) (h.fresh.sub hroot)⟩

/-- `agdeledge` takes the edge from the graph and from those below it. -/
theorem Inv.agdeledge (h : s.Inv V) (hp : s.Live p) (he : e ∈ (V []).edges) (c : Cdt) :
    Meets (s.agdeledge c p e) (fun r => Keeps s r.2 ∧ r.2.Inv (V.below (View.delEdge e) p)) E := by
  rw [Store.agdeledge]
  rcases (h.shows.rep p hp).agfindedgeByKey_eq h.distinct (h.shows.sub p hp).nodes
    (h.shows.sub p hp).edges (h.shows.ends p hp).head he c with ⟨hf, hm⟩ | ⟨hf, hm⟩
  · rw [hf]
    have h1 : (if p = [] then s.agfreeid .AGEDGE e.id else s).Inv V := by
      split
      · exact h.agfreeid _ _
      · exact h
    have hk1 : Keeps s (if p = [] then s.agfreeid .AGEDGE e.id else s) := by
      split
      · exact keeps_agfreeid _ _ _
      · exact .refl s
    exact (h1.agapply (hk1.live.2 hp) (deletes_edge h.distinct he c) View.Sub.delEdge hm).imp
      fun r ⟨_, hf, hr⟩ => ⟨hk1.trans hf.keeps, hr⟩
  · rw [hf]
    refine ⟨.refl s, h.congr fun q hq => ?_⟩
    by_cases hpq : p <:+ q
    · rw [Views.below_of_suffix hpq]
      exact (View.delEdge_of_not_mem fun heq => hm ((h.hier.suffix hq hpq).edges heq)).symm
    · rw [Views.below_of_not_suffix hpq]

/-- The deletion of the edges at a node of the root leaves the other edges. -/
theorem Inv.delEdges (h : s.Inv V) (hn : n ∈ (V []).nodes) (c : Cdt) :
    Meets (((s.graphs []).edgesOf n).foldlM (fun s e => Prod.snd <$> s.agdeledge c [] e) s)
      (fun s' => Keeps s s' ∧ ∃ W, s'.Inv W ∧
        ∀ q, (W q).nodes = (V q).nodes ∧ Agraph.away n (W q).edges = Agraph.away n (V q).edges)
      E := by
  have hedges := (h.shows.rep [] trivial).edgesOf h.distinct subset_rfl hn
  refine Meets.foldlM (E := E) (f := fun s e => Prod.snd <$> Store.agdeledge c s [] e)
    (fun rest s' => rest.Nodup ∧ Keeps s s' ∧ ∃ W, s'.Inv W ∧
      (∀ f ∈ rest, f ∈ (W []).edges ∧ (f.tail = n ∨ f.head = n)) ∧
      ∀ q, (W q).nodes = (V q).nodes ∧ Agraph.away n (W q).edges = Agraph.away n (V q).edges)
    (fun e rest s' ⟨hnd, hk, W, hW, hrest, hsame⟩ => ?_) s
    ⟨hedges.nodup, .refl s, V, h, fun f hf => (hedges.mem f).1 hf, fun q => ⟨rfl, rfl⟩⟩
    |>.imp fun s' ⟨_, hk, W, hW, _, hsame⟩ => ⟨hk, W, hW, hsame⟩
  obtain ⟨hne, hnd⟩ := nodup_cons.1 hnd
  obtain ⟨he, hat⟩ := hrest e (by simp)
  refine (hW.agdeledge (p := []) trivial he c).bind fun r ⟨hk', hr⟩ => ?_
  refine ⟨hnd, hk.trans hk', _, hr, fun f hf => ?_, fun q => ?_⟩
  · obtain ⟨hfW, hfat⟩ := hrest f (mem_cons_of_mem e hf)
    rw [Views.below_of_suffix suffix_rfl]
    exact ⟨⟨hfW, fun hfe => hne (hfe ▸ hf)⟩, hfat⟩
  · rw [Views.below_of_suffix nil_suffix, ← (hsame q).1, ← (hsame q).2]
    refine ⟨rfl, Set.ext fun f => ⟨fun hf => ⟨hf.1.1, hf.2⟩, fun hf => ⟨⟨hf.1, ?_⟩, hf.2⟩⟩⟩
    rintro rfl
    exact hat.elim hf.2.1 hf.2.2

/-- `agdelnode` takes the node and its edges from the graph and from those below it. -/
theorem Inv.agdelnode (h : s.Inv V) (hp : s.Live p) (hn : n ∈ (V []).nodes) (c : Cdt) :
    Meets (s.agdelnode c p n) (fun r => Keeps s r.2 ∧ r.2.Inv (V.below (View.delNode n) p)) E := by
  rw [Store.agdelnode]
  by_cases hm : n ∈ (V p).nodes
  · rw [(h.shows.rep p hp).agfindnodeById_mem h.distinct (h.shows.sub p hp).nodes hm]
    dsimp only
    by_cases hp0 : p = []
    · subst hp0
      rw [if_pos rfl]
      refine (h.delEdges hn c).bind fun s1 ⟨hk1, W, h1, hsame⟩ => ?_
      have h2 := h1.agfreeid .AGNODE n.id
      have hk2 := hk1.trans (keeps_agfreeid s1 .AGNODE n.id)
      refine (h2.agapply (p := []) trivial (deletes_node h1.distinct ((hsame []).1 ▸ hn))
        View.Sub.delNode ((hsame []).1 ▸ hn)).imp fun r ⟨_, hf, hr⟩ => ?_
      refine ⟨hk2.trans hf.keeps, hr.congr fun q _ => ?_⟩
      rw [Views.below_of_suffix nil_suffix, Views.below_of_suffix nil_suffix]
      exact View.ext (by rw [View.delNode, (hsame q).1]; rfl) (hsame q).2
    · rw [if_neg hp0]
      exact (h.agapply hp (deletes_node h.distinct hn) View.Sub.delNode hm).imp
        fun r ⟨_, hf, hr⟩ => ⟨hf.keeps, hr⟩
  · rw [(h.shows.rep p hp).agfindnodeById_not_mem h.distinct (h.shows.sub p hp).nodes hn hm]
    refine ⟨.refl s, h.congr fun q hq => ?_⟩
    by_cases hpq : p <:+ q
    · rw [Views.below_of_suffix hpq]
      exact (View.delNode_of_not_mem (h.shows.ends q hq)
        fun hnq => hm ((h.hier.suffix hq hpq).nodes hnq)).symm
    · rw [Views.below_of_not_suffix hpq]

/-! ## Subgraphs -/

/-- A record's nodes and edges do not depend on its subgraphs. -/
theorem rep_subgs {g : Agraph} {v : View} (h : g.Rep v.nodes v.edges v.edges)
    (subgs : List IdType) : Agraph.Rep { g with subgs := subgs } v.nodes v.edges v.edges :=
  ⟨h.nId, h.nSeq, h.holds⟩

/-- The live graphs after a subgraph is opened. -/
theorem live_localsubg {id : IdType} (hnot : ¬ s.Live (id :: p))
    (hself : (s'.graphs (id :: p)).subgs = [])
    (hp : (s'.graphs p).subgs = (s.graphs p).subgs ++ [id])
    (hother : ∀ q, q ≠ p → q ≠ id :: p → (s'.graphs q).subgs = (s.graphs q).subgs) {q : GPath}
    (hq : s'.Live q) : s.Live q ∨ q = id :: p := by
  induction q with
  | nil => exact .inl trivial
  | cons id' q ih =>
    obtain ⟨hlq, hmem⟩ := hq
    by_cases hqc : q = id :: p
    · rw [hqc, hself] at hmem
      cases hmem
    · have hsq := (ih hlq).resolve_right hqc
      by_cases hqp : q = p
      · subst hqp
        rw [hp, mem_append, mem_singleton] at hmem
        obtain hmem | rfl := hmem
        · exact .inl ⟨hsq, hmem⟩
        · exact .inr rfl
      · rw [hother q hqp hqc] at hmem
        exact .inl ⟨hsq, hmem⟩

/-- A new subgraph is empty. -/
theorem Inv.localsubg (h : s.Inv V) (hp : s.Live p) {id : IdType} (hid : id ∉ (s.graphs p).subgs) :
    Meets (s.localsubg p id)
      (fun s' => s'.desc = s.desc ∧ s'.Inv (Function.update V (id :: p) .empty)) s.Overflows := by
  have hpc : p ≠ id :: p := (cons_ne_self id p).symm
  have hnot : ¬ s.Live (id :: p) := fun hl => hid hl.2
  rw [Store.localsubg]
  dsimp only
  rw [assert]
  split
  · set s1 : Store := set { s with seqGraph := s.seqGraph + 1 } (id :: p) .empty with hs1
    have hg1 : s1.graphs p = s.graphs p := set_graphs_of_ne hpc
    set s2 := s1.set p { s1.graphs p with subgs := (s1.graphs p).subgs ++ [id] } with hs2
    have hself : s2.graphs (id :: p) = .empty := by
      rw [hs2, set_graphs_of_ne hpc.symm, hs1, set_graphs_self]
    have hgp : s2.graphs p = { s.graphs p with subgs := (s.graphs p).subgs ++ [id] } := by
      rw [hs2, set_graphs_self, hg1]
    have hother : ∀ q, q ≠ p → q ≠ id :: p → s2.graphs q = s.graphs q := fun q hqp hqc => by
      rw [hs2, set_graphs_of_ne hqp, hs1, set_graphs_of_ne hqc]
    have hlive : ∀ q, s2.Live q → s.Live q ∨ q = id :: p := fun q hq =>
      live_localsubg hnot (by rw [hself]; rfl) (by rw [hgp])
        (fun q hqp hqc => by rw [hother q hqp hqc]) hq
    have hrep : ∀ q, s.Live q → (s2.graphs q).Rep (V q).nodes (V q).edges (V q).edges := by
      intro q hq
      have hqc : q ≠ id :: p := fun he => hnot (he ▸ hq)
      by_cases hqp : q = p
      · rw [hqp, hgp]
        exact rep_subgs (h.shows.rep p hp) _
      · rw [hother q hqp hqc]
        exact h.shows.rep q hq
    have hW : ∀ q, s.Live q → Function.update V (id :: p) .empty q = V q := fun q hq => by
      have hqc : q ≠ id :: p := fun he => hnot (he ▸ hq)
      exact Function.update_of_ne hqc _ _
    have hWc : Function.update V (id :: p) .empty (id :: p) = View.empty :=
      Function.update_self _ _ _
    have hempty : ∀ v : View, View.empty.Sub v := fun v => ⟨Set.empty_subset _, Set.empty_subset _⟩
    have hroot := hW [] trivial
    refine ⟨rfl, ⟨fun q hq => ?_, fun q hq => ?_, fun q hq => ?_⟩, fun id' q hq => ?_, ?_,
      fun q hq => ?_, ?_⟩
    · obtain hq | rfl := hlive q hq
      · rw [hW q hq]
        exact hrep q hq
      · rw [hWc, hself]
        exact .empty
    · rw [hroot]
      obtain hq | rfl := hlive q hq
      · rw [hW q hq]
        exact h.hier.root hq
      · rw [hWc]
        exact hempty _
    · obtain hq | rfl := hlive q hq
      · rw [hW q hq]
        exact h.shows.ends q hq
      · rw [hWc]
        exact ⟨fun f hf => hf.elim, fun f hf => hf.elim⟩
    · obtain hq | he := hlive _ hq
      · rw [hW _ hq, hW _ hq.1]
        exact h.hier id' q hq
      · rw [he, hWc]
        exact hempty _
    · rw [hroot]
      exact h.distinct
    · have hnil : ([] : List IdType).Nodup := nodup_nil
      obtain hq | rfl := hlive q hq
      · obtain ⟨hlen, hnd⟩ := h.shape q hq
        refine ⟨Nat.le_succ_of_le hlen, ?_⟩
        have hqc : q ≠ id :: p := fun he => hnot (he ▸ hq)
        by_cases hqp : q = p
        · subst hqp
          rw [hgp, nodup_append]
          refine ⟨hnd, nodup_singleton _, ?_⟩
          rintro a ha b hb rfl
          exact hid (mem_singleton.1 hb ▸ ha)
        · rw [hother q hqp hqc]
          exact hnd
      · refine ⟨?_, by rw [hself]; exact hnil⟩
        have := (h.shape p hp).1
        rw [List.length_cons]
        exact Nat.succ_le_succ this
    · rw [hroot]
      exact ⟨h.fresh.nodeSeq, h.fresh.edgeSeq, h.fresh.nodeId, h.fresh.edgeId, h.fresh.imapId⟩
  · exact ⟨rfl, .inl (by omega)⟩

/-- `agsubg` finds a subgraph or opens an empty one. -/
theorem Inv.agsubg (h : s.Inv V) (hp : s.Live p) (name : Option CStr) (cflag : Bool) :
    Meets (s.agsubg p name cflag)
      (fun r => r.2.desc = s.desc ∧ ∃ W, r.2.Inv W ∧ (W []).edges = (V []).edges)
      s.Overflows := by
  rw [Store.agsubg]
  split
  · exact ⟨rfl, V, h, rfl⟩
  · split
    · obtain ⟨id, counter, imap, hm, hfr, -⟩ := s.agmapnametoid_true .AGRAPH name
      rw [hm]
      have hk1 : Keeps s { s with counter := counter, imap := imap } :=
        ⟨rfl, fun _ => rfl, rfl⟩
      have h1 : Inv { s with counter := counter, imap := imap } V :=
        h.of_graphs rfl rfl (hfr _ h.fresh).1
      dsimp only
      split
      · exact ⟨rfl, V, h1, rfl⟩
      · rename_i hid
        refine (h1.localsubg (hk1.live.2 hp) hid).bind fun s' ⟨hd, hs'⟩ => ?_
        refine ⟨hd, _, hs', ?_⟩
        rw [Function.update_of_ne (cons_ne_nil id p).symm]
    · exact ⟨rfl, V, h, rfl⟩

/-- What closing a subgraph of `par` leaves: the rest of the hierarchy as it was. -/
structure Closed (s s' : Store) (V W : Views) (id : IdType) (par : GPath) : Prop where
  desc : s'.desc = s.desc
  seqGraph : s'.seqGraph = s.seqGraph
  parent : (s'.graphs par).subgs = (s.graphs par).subgs.erase id
  subgs : ∀ q, q ≠ par → ¬ id :: par <:+ q → (s'.graphs q).subgs = (s.graphs q).subgs
  views : ∀ q, ¬ id :: par <:+ q → W q = V q

/-- Whether a graph is live depends on the subgraphs of the graphs above it. -/
theorem Live.of_above (hp : s.Live p)
    (hsame : ∀ q, q <:+ p → q ≠ p → (s'.graphs q).subgs = (s.graphs q).subgs) : s'.Live p := by
  induction p with
  | nil => trivial
  | cons id p ih =>
    have hself : p ≠ id :: p := (cons_ne_self id p).symm
    refine ⟨ih hp.1 fun q hq hqp => ?_, ?_⟩
    · refine hsame q (hq.trans (suffix_cons id p)) fun he => ?_
      exact Views.not_cons_suffix (he ▸ hq)
    · rw [hsame p (suffix_cons id p) hself]
      exact hp.2

/-- The graphs that are live without a subgraph. -/
theorem live_erase {id : IdType} (hnd : (s.graphs p).subgs.Nodup)
    (hp : (s'.graphs p).subgs = (s.graphs p).subgs.erase id)
    (hother : ∀ q, q ≠ p → (s'.graphs q).subgs = (s.graphs q).subgs) {q : GPath}
    (hq : s'.Live q) : s.Live q ∧ ¬ id :: p <:+ q := by
  have hle : ∀ r, s'.Live r → s.Live r := by
    intro r
    induction r with
    | nil => exact fun _ => trivial
    | cons id' r ih =>
      rintro ⟨hr, hmem⟩
      refine ⟨ih hr, ?_⟩
      by_cases hrp : r = p
      · subst hrp
        rw [hp] at hmem
        exact mem_of_mem_erase hmem
      · rwa [hother r hrp] at hmem
  refine ⟨hle q hq, fun hs => ?_⟩
  have := (hq.suffix hs).2
  rw [hp] at this
  exact hnd.not_mem_erase this

/-- Taking a subgraph without nodes and subgraphs out of its parent. -/
theorem Inv.erase (h : s.Inv V) {id : IdType} (hp : s.Live p) :
    (s.set p { s.graphs p with subgs := (s.graphs p).subgs.erase id }).Inv V := by
  have hgp : ((s.set p { s.graphs p with subgs := (s.graphs p).subgs.erase id }).graphs p) =
      { s.graphs p with subgs := (s.graphs p).subgs.erase id } := set_graphs_self _ _ _
  have hlive := fun q (hq : (s.set p _).Live q) =>
    (live_erase (h.shape p hp).2 (by rw [hgp]) (fun q hq => by rw [set_graphs_of_ne hq]) hq).1
  refine ⟨⟨fun q hq => ?_, fun q hq => h.shows.sub q (hlive q hq),
    fun q hq => h.shows.ends q (hlive q hq)⟩, fun id' q hq => h.hier id' q (hlive _ hq),
    h.distinct, fun q hq => ?_,
    ⟨h.fresh.nodeSeq, h.fresh.edgeSeq, h.fresh.nodeId, h.fresh.edgeId, h.fresh.imapId⟩⟩
  · have hrep := h.shows.rep q (hlive q hq)
    by_cases hqp : q = p
    · subst hqp
      rw [hgp]
      exact rep_subgs hrep _
    · rwa [set_graphs_of_ne hqp]
  · obtain ⟨hlen, hnd⟩ := h.shape q (hlive q hq)
    refine ⟨hlen, ?_⟩
    by_cases hqp : q = p
    · subst hqp
      rw [hgp]
      exact hnd.erase id
    · rwa [set_graphs_of_ne hqp]

/-- Deleting every node of a subgraph leaves it without nodes. -/
theorem Inv.delNodes (h : s.Inv V) (hp : s.Live p) (hp0 : p ≠ []) (c : Cdt) :
    Meets ((s.graphs p).nSeq.foldlM (fun s n => Prod.snd <$> s.agdelnode c p n) s)
      (fun s' => Keeps s s' ∧ ∃ W, s'.Inv W ∧ (W p).nodes = ∅ ∧ ∀ q, ¬ p <:+ q → W q = V q)
      E := by
  have hnodes := (h.shows.rep p hp).nSeq
  refine Meets.foldlM (E := E) (f := fun s n => Prod.snd <$> Store.agdelnode c s p n)
    (fun rest s' => Keeps s s' ∧ ∃ W, s'.Inv W ∧ (∀ m ∈ (W p).nodes, m ∈ rest) ∧
      (∀ m ∈ rest, m ∈ (V []).nodes) ∧ (W []).nodes = (V []).nodes ∧ ∀ q, ¬ p <:+ q → W q = V q)
    (fun n rest s' ⟨hk, W, hW, hsub, hrest, hroot, hsame⟩ => ?_) s
    ⟨.refl s, V, h, fun m hm => (hnodes.mem m).2 hm,
      fun m hm => (h.hier.root hp).nodes ((hnodes.mem m).1 hm), rfl, fun q _ => rfl⟩
    |>.imp fun s' ⟨hk, W, hW, hsub, _, _, hsame⟩ =>
      ⟨hk, W, hW, Set.eq_empty_of_forall_notMem fun m hm => (by cases hsub m hm), hsame⟩
  refine (hW.agdelnode (hk.live.2 hp) (hroot ▸ hrest n (by simp)) c).bind fun r ⟨hk', hr⟩ => ?_
  have hpne : ¬ p <:+ [] := fun hs => hp0 (suffix_nil.1 hs)
  refine ⟨hk.trans hk', _, hr, fun m hm => ?_, fun m hm => hrest m (mem_cons_of_mem n hm),
    ?_, fun q hq => ?_⟩
  · rw [Views.below_of_suffix suffix_rfl] at hm
    obtain rfl | hmem := mem_cons.1 (hsub m hm.1)
    · exact absurd rfl hm.2
    · exact hmem
  · rw [Views.below_of_not_suffix hpne, hroot]
  · rw [Views.below_of_not_suffix hq, hsame q hq]

/-- `agclose` closes a subgraph and everything below it. -/
theorem agclose_meets (c : Cdt) {B : Nat} : ∀ (fuel : Nat) (id : IdType) (par : GPath)
    (s : Store) (V : Views), s.Inv V → s.Live (id :: par) → s.seqGraph ≤ B →
    B < par.length + 1 + fuel →
    Meets (agclose c fuel id par s) (fun s' => ∃ W, s'.Inv W ∧ Closed s s' V W id par) E := by
  intro fuel
  induction fuel with
  | zero =>
    intro id par s V h hp hB hfuel
    have := (h.shape _ hp).1
    rw [List.length_cons] at this
    omega
  | succ fuel ih =>
    intro id par s V h hp hB hfuel
    set p := id :: par with hpdef
    have hparp : ∀ {q : GPath}, ¬ p <:+ q → ∀ sub, ¬ sub :: p <:+ q := fun hq sub hs =>
      hq ((suffix_cons sub p).trans hs)
    have hpself : ∀ sub, ¬ sub :: p <:+ p := fun sub => Views.not_cons_suffix
    have hproper : ∀ {q : GPath}, q <:+ p → q ≠ p → ¬ p <:+ q := fun hq hqp hpq =>
      hqp (hq.eq_of_length_le hpq.length_le)
    have hparne : par ≠ p := (cons_ne_self id par).symm
    have hparnot : ¬ p <:+ par := Views.not_cons_suffix
    -- the subgraphs that are left are those still to be closed
    have loop := Meets.foldlM (E := E) (f := fun s sub => agclose c fuel sub p s)
      (fun rest s' => s'.desc = s.desc ∧ s'.seqGraph = s.seqGraph ∧
        (s'.graphs p).subgs = rest ∧ ∃ W, s'.Inv W ∧ W p = V p ∧
        ∀ q, ¬ p <:+ q → (s'.graphs q).subgs = (s.graphs q).subgs ∧ W q = V q)
      (fun sub rest s' ⟨hd, hseq, hsubgs, W, hW, hWp, hsame⟩ => by
        have hlp : s'.Live p := hp.of_above fun q hq hqp => (hsame q (hproper hq hqp)).1
        have hls : s'.Live (sub :: p) := ⟨hlp, by rw [hsubgs]; simp⟩
        refine (ih sub p s' W hW hls (hseq ▸ hB) (by
          rw [hpdef, List.length_cons]
          omega)).imp fun s'' ⟨W', hW', hcl⟩ => ?_
        refine ⟨hcl.desc.trans hd, hcl.seqGraph.trans hseq, ?_, W', hW',
          (hcl.views p (hpself sub)).trans hWp, fun q hq => ⟨?_, ?_⟩⟩
        · rw [hcl.parent, hsubgs, erase_cons_head]
        · have hqp : q ≠ p := fun he => hq (he ▸ suffix_rfl)
          rw [hcl.subgs q hqp (hparp hq sub), (hsame q hq).1]
        · rw [hcl.views q (hparp hq sub), (hsame q hq).2])
      s ⟨rfl, rfl, rfl, V, h, rfl, fun q _ => ⟨rfl, rfl⟩⟩
    rw [agclose]
    refine loop.bind fun s1 ⟨hd1, hseq1, hsubgs1, W₁, h1, hW₁p, hsame1⟩ => ?_
    have hlp1 : s1.Live p := hp.of_above fun q hq hqp => (hsame1 q (hproper hq hqp)).1
    refine (h1.delNodes hlp1 (cons_ne_nil id par) c).bind
      fun s2 ⟨hk2, W₂, h2, hempty, hsame2⟩ => ?_
    have h3 : s2.aginternalmapclose.Inv W₂ := h2.of_graphs rfl rfl
      ⟨h2.fresh.nodeSeq, h2.fresh.edgeSeq, h2.fresh.nodeId, h2.fresh.edgeId,
        fun ent hent => by cases hent⟩
    have hrep := h2.shows.rep p (hk2.live.2 hlp1)
    rw [hempty] at hrep
    have hnId : (s2.graphs p).nId = [] := map_eq_nil_iff.1
      (eq_nil_iff_forall_not_mem.2 fun m hm => (hrep.nId.mem m).1 hm)
    have hnSeq : (s2.graphs p).nSeq = [] :=
      eq_nil_iff_forall_not_mem.2 fun m hm => (hrep.nSeq.mem m).1 hm
    have hsubgs2 : (s2.graphs p).subgs = [] := (hk2.subgs p).trans hsubgs1
    refine Meets.assert hnId (Meets.assert hnSeq (Meets.assert hsubgs2 ?_))
    have h4 := h3.agfreeid .AGRAPH id
    have hlpar : (s2.aginternalmapclose.agfreeid .AGRAPH id).Live par :=
      (@live_congr s2 (s2.aginternalmapclose.agfreeid .AGRAPH id) rfl par).2 (hk2.live.2 hlp1).1
    refine ⟨W₂, h4.erase hlpar, hk2.desc.trans hd1, hk2.seqGraph.trans hseq1,
      ?_, fun q hqpar hq => ?_, fun q hq => (hsame2 q hq).trans (hsame1 q hq).2⟩
    · rw [set_graphs_self]
      show (s2.graphs par).subgs.erase id = _
      rw [hk2.subgs, (hsame1 par hparnot).1]
    · rw [set_graphs_of_ne hqpar]
      exact (hk2.subgs q).trans (hsame1 q hq).1

end Store

end Graphviz
