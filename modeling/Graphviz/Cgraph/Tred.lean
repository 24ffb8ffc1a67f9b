import Graphviz.Cgraph.AcyclicRun
import Graphviz.Cgraph.Ordered

/-!
# Transitive reduction

`lib/cgraph/tred.c`: from each node a depth-first search with a stack of edges, which notes of each
node whether it is at distance 1 or farther, and then the deletion of the edges to nodes that are
farther and of all but one of the edges to one node. The search leaves the graph alone, so its loops
go through lists. The warnings, the timing and the output are left out.
-/

namespace Graphviz.Tred

open Outcome

/-- `nodeinfo_t`. -/
structure nodeinfo_t where
  on_stack : Bool
  dist : ℕ

/-- The array `ninfo`, with the number of its entries. -/
structure Ninfo where
  infosize : ℕ
  entry : ℕ → nodeinfo_t

/-- `ninfo[AGSEQ(n)]`. -/
def Ninfo.read (ninfo : Ninfo) (n : Agnode) : Except Fault nodeinfo_t :=
  if n.seq < ninfo.infosize then .ok (ninfo.entry n.seq) else .error .segfault

/-- The entry `ninfo[AGSEQ(n)]`, changed. -/
def Ninfo.write (ninfo : Ninfo) (n : Agnode) (info : nodeinfo_t) : Except Fault Ninfo :=
  if n.seq < ninfo.infosize then
    .ok { ninfo with entry := Function.update ninfo.entry n.seq info }
  else .error .segfault

/-- The array as `memset` leaves it. -/
def Ninfo.clear (infosize : ℕ) : Ninfo := { infosize, entry := fun _ => ⟨false, 0⟩ }

/-- An assignment to `ON_STACK`. -/
def setOnStack (ninfo : Ninfo) (n : Agnode) (on_stack : Bool) : Except Fault Ninfo := do
  let info ← ninfo.read n
  ninfo.write n { info with on_stack }

/-- `uchar_min`. -/
def uchar_min (a b : ℕ) : ℕ := if a < b then a else b

/-- The assignment to `DISTANCE` of the head of an edge from `v`. -/
def setDistance (ninfo : Ninfo) (v hd : Agnode) : Except Fault Ninfo := do
  let tail ← ninfo.read v
  let info ← ninfo.read hd
  ninfo.write hd { info with dist := uchar_min 1 tail.dist + 1 }

/-- An edge on the stack: the local `dummy`, which has a head alone, or an edge of the graph. -/
inductive Link where
  | dummy (node : Agnode)
  | edge (e : Agedge)

/-- `aghead` of an edge on the stack. -/
def Link.aghead : Link → Agnode
  | .dummy node => node
  | .edge e => e.head

/-- The local variables of `dfs` that its loop changes. The top of the stack is its first item. -/
structure State where
  ninfo : Ninfo
  estk : List Link
  warn : ℕ

/-- `push`. -/
def push (link : Link) (st : State) : Except Fault State := do
  let ninfo ← setOnStack st.ninfo link.aghead true
  .ok { st with ninfo, estk := link :: st.estk }

/-- `pop`. -/
def pop (st : State) : Except Fault (Option Link × State) :=
  match st.estk with
  | [] => .ok (none, st)
  | link :: estk => do
    let ninfo ← setOnStack st.ninfo link.aghead false
    .ok (some link, { st with ninfo, estk })

/-- The edges that `agnxtout` goes through from `prev` on, or `agfstout` and then `agnxtout` if
there is no `prev`. The `dummy` has no tail. -/
def edgesAfter (g : Agraph) (v : Agnode) : Option Link → Except Fault (List Agedge)
  | none => .ok (g.outSeqOf v)
  | some (.edge e) => .ok (((g.outSeqOf e.tail).dropWhile fun f => f ≠ e).drop 1)
  | some (.dummy _) => .error .segfault

/-- The loop over the out-edges of `v`: the edge it stops at, if any. -/
def nextEdge (v : Agnode) : List Agedge → Ninfo → ℕ → Except Fault (Option Agedge × Ninfo × ℕ)
  | [], ninfo, warn => .ok (none, ninfo, warn)
  | next :: rest, ninfo, warn =>
    let hd := next.head
    if hd = v then nextEdge v rest ninfo warn
    else do
      let info ← ninfo.read hd
      if info.on_stack then nextEdge v rest ninfo (if warn = 0 then warn + 1 else warn)
      else if info.dist = 0 then
        let ninfo ← setDistance ninfo v hd
        .ok (some next, ninfo, warn)
      else if info.dist = 1 then
        let ninfo ← setDistance ninfo v hd
        nextEdge v rest ninfo warn
      else nextEdge v rest ninfo warn

/-- The loop of `dfs`. -/
def search (g : Agraph) : ℕ → Option Link → State → Except Fault State
  | 0, _, _ => .error .fuel
  | fuel + 1, prev, st =>
    match st.estk with
    | [] => .ok st
    | link :: _ => do
      let v := link.aghead
      let rest ← edgesAfter g v prev
      let (next, ninfo, warn) ← nextEdge v rest st.ninfo st.warn
      match next with
      | some e =>
        let st ← push (.edge e) { st with ninfo, warn }
        search g fuel none st
      | none =>
        let (prev, st) ← pop { st with ninfo, warn }
        search g fuel prev st

/-- No search pushes more edges than there are nodes, and then the `dummy`. -/
def fuel (g : Agraph) : ℕ := 2 * g.nSeq.length + 2

/-- `do_delete` of an edge to `hd`. -/
def doDelete (ninfo : Ninfo) (oldhd : Option Agnode) (hd : Agnode) : Except Fault Bool :=
  if oldhd = some hd then .ok true
  else do
    let info ← ninfo.read hd
    .ok (decide (info.dist > 1))

/-- The loop that deletes out-edges. The next edge is read before one goes. -/
def deleteEdges (c : Cdt) (ninfo : Ninfo) :
    List Agedge → Option Agnode → Store → Except Fault Store
  | [], _, s => .ok s
  | e :: f, oldhd, s => do
    let hd := e.head
    let do_delete ← doDelete ninfo oldhd hd
    if do_delete then
      let (_, s) ← s.agdeledge c [] e
      deleteEdges c ninfo f (some hd) s
    else deleteEdges c ninfo f (some hd) s

/-- `dfs`: the warnings given, and the store. The graph is the root of the node's. -/
def dfs (c : Cdt) (n : Agnode) (ninfo : Ninfo) (warn : ℕ) (s : Store) :
    Except Fault (ℕ × Store) := do
  let g := s.graphs []
  let st ← push (.dummy n) { ninfo, estk := [], warn }
  let st ← search g (fuel g) none st
  let s ← deleteEdges c st.ninfo (g.outSeqOf n) none s
  .ok (st.warn, s)

/-- `graphviz_tred`. No node comes or goes. -/
def graphviz_tred (c : Cdt) (g : GPath) (s : Store) : Except Fault (ℕ × Store) :=
  let infosize := (s.graphs g).nId.length + 1
  (s.graphs g).nSeq.foldlM
    (fun (warn, s) n => dfs c n (Ninfo.clear infosize) warn s) (0, s)

end Graphviz.Tred

/-!
## The search of `graphviz_tred`

What holds whenever the search from a node is between two edges. The nodes that the search came to
straight from the source are its children. A child whose distance is raised can be reached from a
later child by a path that does not come back to the source, so the last child keeps its distance,
and what the source reaches it reaches through children that keep theirs.
-/

namespace Graphviz.Tred

open Acyclic Function List Outcome Precedes Relation

variable {N : Set Agnode} {E : Set Agedge} {out : Agnode → List Agedge} {n u v x : Agnode}
  {d d' : Agnode → ℕ} {cs heads : List Agnode} {estk : List Link} {size k : ℕ} {e : Agedge}

/-! ## Distances -/

/-- A step of a path that does not start from the source. -/
def Away (E : Set Agedge) (n u v : Agnode) : Prop := Arc E u v ∧ u ≠ n

/-- What the distances from the source say. The children are those that the search came to straight
from it, the last one first. -/
structure Marks (E : Set Agedge) (n : Agnode) (d : Agnode → ℕ) (cs : List Agnode) : Prop where
  source : d n = 0
  le : ∀ v, d v ≤ 2
  nodup : cs.Nodup
  child : ∀ c ∈ cs, Arc E n c ∧ d c ≠ 0
  reached : ∀ v, d v ≠ 0 → ∃ c ∈ cs, ReflTransGen (Away E n) c v
  near : ∀ v, d v = 1 → v ∈ cs
  far : ∀ v, d v = 2 → ∃ u, d u ≠ 0 ∧ Arc E u v
  raised : ∀ c ∈ cs, d c = 2 → ∃ c', Before cs c' c ∧ ReflTransGen (Away E n) c' c

theorem Marks.init (E : Set Agedge) (n : Agnode) : Marks E n (fun _ => 0) [] :=
  ⟨rfl, fun _ => Nat.zero_le 2, nodup_nil, nofun, fun _ h => absurd rfl h, nofun, nofun, nofun⟩

theorem Marks.ne_source (h : Marks E n d cs) (hv : d v ≠ 0) : v ≠ n := fun hvn =>
  hv (hvn ▸ h.source)

theorem update_ne_zero (hk : k ≠ 0) (hv : d v ≠ 0) : Function.update d x k v ≠ 0 := by
  by_cases hvx : v = x
  · subst hvx
    rwa [update_self]
  · rwa [update_of_ne hvx]

/-- The search comes to one more child. -/
theorem Marks.setNear (h : Marks E n d cs) (harc : Arc E n x) (hx : d x = 0) :
    Marks E n (Function.update d x 1) (x :: cs) where
  source := by
    rw [update_of_ne harc.1]
    exact h.source
  le w := by
    by_cases hwx : w = x
    · subst hwx
      rw [update_self]
      decide
    · rw [update_of_ne hwx]
      exact h.le w
  nodup := nodup_cons.2 ⟨fun hmem => (h.child x hmem).2 hx, h.nodup⟩
  child c hc := by
    obtain rfl | hc := mem_cons.1 hc
    · exact ⟨harc, by simp⟩
    · exact ⟨(h.child c hc).1, update_ne_zero (by decide) (h.child c hc).2⟩
  reached w hw := by
    by_cases hwx : w = x
    · subst hwx
      exact ⟨w, mem_cons_self, .refl⟩
    · rw [update_of_ne hwx] at hw
      obtain ⟨c, hc, hcw⟩ := h.reached w hw
      exact ⟨c, mem_cons_of_mem x hc, hcw⟩
  near w hw := by
    by_cases hwx : w = x
    · subst hwx
      exact mem_cons_self
    · rw [update_of_ne hwx] at hw
      exact mem_cons_of_mem x (h.near w hw)
  far w hw := by
    by_cases hwx : w = x
    · subst hwx
      rw [update_self] at hw
      cases hw
    · rw [update_of_ne hwx] at hw
      obtain ⟨u, hu, huw⟩ := h.far w hw
      exact ⟨u, update_ne_zero (by decide) hu, huw⟩
  raised w hwc hw := by
    by_cases hwx : w = x
    · subst hwx
      rw [update_self] at hw
      cases hw
    · rw [update_of_ne hwx] at hw
      obtain rfl | hwc := mem_cons.1 hwc
      · exact absurd rfl hwx
      · obtain ⟨c, hc, hcw⟩ := h.raised w hwc hw
        exact ⟨c, hc.mono (sublist_cons_self x cs), hcw⟩

/-- A node turns out to be farther, by an edge from another node than the source. If it is a child,
then a later child reaches the other end of the edge. -/
theorem Marks.setFar (h : Marks E n d cs) (hv : d v ≠ 0) (harc : Arc E v x) (hxn : x ≠ n)
    (hlater : x ∈ cs → ∃ c, Before cs c x ∧ ReflTransGen (Away E n) c v) :
    Marks E n (Function.update d x 2) cs where
  source := by
    rw [update_of_ne hxn.symm]
    exact h.source
  le w := by
    by_cases hwx : w = x
    · subst hwx
      rw [update_self]
    · rw [update_of_ne hwx]
      exact h.le w
  nodup := h.nodup
  child c hc := ⟨(h.child c hc).1, update_ne_zero (by decide) (h.child c hc).2⟩
  reached w hw := by
    by_cases hwx : w = x
    · subst hwx
      obtain ⟨c, hc, hcv⟩ := h.reached v hv
      exact ⟨c, hc, hcv.tail ⟨harc, h.ne_source hv⟩⟩
    · rw [update_of_ne hwx] at hw
      exact h.reached w hw
  near w hw := by
    by_cases hwx : w = x
    · subst hwx
      rw [update_self] at hw
      cases hw
    · rw [update_of_ne hwx] at hw
      exact h.near w hw
  far w hw := by
    by_cases hwx : w = x
    · subst hwx
      exact ⟨v, update_ne_zero (by decide) hv, harc⟩
    · rw [update_of_ne hwx] at hw
      obtain ⟨u, hu, huw⟩ := h.far w hw
      exact ⟨u, update_ne_zero (by decide) hu, huw⟩
  raised w hwc hw := by
    by_cases hwx : w = x
    · subst hwx
      obtain ⟨c, hc, hcv⟩ := hlater hwc
      exact ⟨c, hc, hcv.tail ⟨harc, h.ne_source hv⟩⟩
    · rw [update_of_ne hwx] at hw
      exact h.raised w hwc hw

theorem Away.arcs (h : ReflTransGen (Away E n) u v) : ReflTransGen (Arc E) u v :=
  ReflTransGen.mono (fun _ _ h => h.1) _ _ h

/-- The search comes to nothing but what the source reaches. -/
theorem Marks.reach (h : Marks E n d cs) (hv : v = n ∨ d v ≠ 0) : ReflTransGen (Arc E) n v := by
  obtain rfl | hv := hv
  · exact .refl
  · obtain ⟨c, hc, hcv⟩ := h.reached v hv
    exact .head (h.child c hc).1 (Away.arcs hcv)

/-- What the search came to can be reached through a child that kept its distance. -/
theorem Marks.exists_near (h : Marks E n d cs) (hv : d v ≠ 0) :
    ∃ c, Arc E n c ∧ d c = 1 ∧ ReflTransGen (Away E n) c v := by
  have aux : ∀ i, ∀ c ∈ cs, cs.idxOf c = i → ReflTransGen (Away E n) c v →
      ∃ c, Arc E n c ∧ d c = 1 ∧ ReflTransGen (Away E n) c v := by
    intro i
    induction i using Nat.strong_induction_on with
    | _ i ih =>
      intro c hc hi hcv
      have hle := h.le c
      have hne := (h.child c hc).2
      obtain hone | htwo := (show d c = 1 ∨ d c = 2 by omega)
      · exact ⟨c, (h.child c hc).1, hone, hcv⟩
      · obtain ⟨c', hbefore, hcc⟩ := h.raised c hc htwo
        exact ih _ (hi ▸ hbefore.idxOf_lt h.nodup) c' hbefore.mem_left rfl (hcc.trans hcv)
  obtain ⟨c, hc, hcv⟩ := h.reached v hv
  exact aux _ c hc rfl hcv

/-! ## The stack -/

/-- The first child on the stack is the last of the children, and reaches the nodes above it. -/
def Shape (E : Set Agedge) (n : Agnode) (cs heads : List Agnode) : Prop :=
  heads = [n] ∨ ∃ up c cs', heads = up ++ [c, n] ∧ cs = c :: cs' ∧
    ∀ v ∈ up, ReflTransGen (Away E n) c v

/-- A node on the stack can be reached from the last child, which is on the stack. -/
theorem Shape.later (h : Shape E n cs heads) (hv : v ∈ heads) (hvn : v ≠ n) :
    ∃ c cs', cs = c :: cs' ∧ c ∈ heads ∧ ReflTransGen (Away E n) c v := by
  obtain rfl | ⟨up, c, cs', rfl, rfl, hup⟩ := h
  · exact absurd (mem_singleton.1 hv) hvn
  · refine ⟨c, cs', rfl, by simp, ?_⟩
    obtain hv | hv := mem_append.1 hv
    · exact hup v hv
    · obtain rfl | hv := mem_cons.1 hv
      · exact .refl
      · exact absurd (mem_singleton.1 hv) hvn

/-- The source is at the bottom. -/
theorem Shape.eq_of_source (h : Shape E n cs (n :: heads)) (hn : (n :: heads).Nodup) :
    heads = [] := by
  obtain h | ⟨up, c, cs', h, -, -⟩ := h
  · exact (List.cons.inj h).2
  · have hmem : n ∉ heads := (nodup_cons.1 hn).1
    cases up with
    | nil =>
      obtain ⟨rfl, rfl⟩ := List.cons.inj h
      exact absurd mem_cons_self hmem
    | cons u up =>
      obtain ⟨rfl, rfl⟩ := List.cons.inj h
      exact absurd (by simp) hmem

/-- A node comes on the stack from the source. -/
theorem Shape.push_child (cs : List Agnode) (x : Agnode) : Shape E n (x :: cs) [x, n] :=
  .inr ⟨[], x, cs, rfl, rfl, nofun⟩

/-- A node comes on the stack from another node. -/
theorem Shape.push_far (h : Shape E n cs (v :: heads)) (hvn : v ≠ n) (harc : Arc E v x) :
    Shape E n cs (x :: v :: heads) := by
  obtain ⟨c, cs', rfl, -, hcv⟩ := h.later mem_cons_self hvn
  obtain h | ⟨up, c', cs'', h, hcs, hup⟩ := h
  · exact absurd (List.cons.inj h).1 hvn
  · obtain ⟨rfl, rfl⟩ := List.cons.inj hcs
    refine .inr ⟨x :: up, c, cs', by rw [h]; rfl, rfl, fun w hw => ?_⟩
    obtain rfl | hw := mem_cons.1 hw
    · exact hcv.tail ⟨harc, hvn⟩
    · exact hup w hw

/-- A node goes from the stack. -/
theorem Shape.pop (h : Shape E n cs (v :: heads)) : heads = [] ∨ Shape E n cs heads := by
  obtain h | ⟨up, c, cs', h, hcs, hup⟩ := h
  · exact .inl (List.cons.inj h).2
  · cases up with
    | nil => exact .inr (.inl (List.cons.inj h).2)
    | cons u up =>
      exact .inr (.inr ⟨up, c, cs', (List.cons.inj h).2, hcs,
        fun w hw => hup w (mem_cons_of_mem u hw)⟩)

/-- The search has dealt with an edge from `v` to `x`. -/
def Seen (E : Set Agedge) (n : Agnode) (d : Agnode → ℕ) (v x : Agnode) : Prop :=
  x = v ∨ (x = n ∨ d x ≠ 0) ∧ (v ≠ n → d x = 2 ∨ Cyclic E)

/-- Distances only grow. -/
def Grows (d d' : Agnode → ℕ) : Prop := ∀ v, (d v ≠ 0 → d' v ≠ 0) ∧ (d v = 2 → d' v = 2)

theorem Seen.mono (h : Seen E n d v x) (hd : Grows d d') : Seen E n d' v x :=
  h.imp_right fun ⟨h1, h2⟩ =>
    ⟨h1.imp_right (hd x).1, fun hv => (h2 hv).imp_left (hd x).2⟩

theorem Grows.update (hx : d x ≠ 2) (hk : k ≠ 0) : Grows d (Function.update d x k) := by
  intro v
  refine ⟨update_ne_zero hk, fun hv => ?_⟩
  rwa [update_of_ne (fun hvx : v = x => hx (hvx ▸ hv))]

/-- An edge lies on the stack above the edge to its tail, whose node it was found from. -/
def Above (E : Set Agedge) (out : Agnode → List Agedge) (n : Agnode) (d : Agnode → ℕ)
    (link' link : Link) : Prop :=
  ∃ e done rest, link' = .edge e ∧ out link.aghead = done ++ e :: rest ∧ e.head ≠ link.aghead ∧
    ∀ f ∈ done ++ [e], Seen E n d link.aghead f.head

theorem Above.mono {link' link : Link} (h : Above E out n d link' link) (hd : Grows d d') :
    Above E out n d' link' link := by
  obtain ⟨e, done, rest, h1, h2, h3, h4⟩ := h
  exact ⟨e, done, rest, h1, h2, h3, fun f hf => (h4 f hf).mono hd⟩

/-- The lists of the out-edges of the nodes. -/
structure Outs (N : Set Agnode) (E : Set Agedge) (out : Agnode → List Agedge) : Prop where
  nodup : ∀ v ∈ N, (out v).Nodup
  mem : ∀ v ∈ N, ∀ e, e ∈ out v ↔ e ∈ E ∧ e.tail = v
  head : ∀ e ∈ E, e.head ∈ N

/-- The search from a source has the distances `d`, the children `cs` and a stack. -/
structure Searching (N : Set Agnode) (E : Set Agedge) (out : Agnode → List Agedge) (size : ℕ)
    (n : Agnode) (d : Agnode → ℕ) (cs : List Agnode) (estk : List Link) : Prop where
  marks : Marks E n d cs
  nodup : (estk.map Link.aghead).Nodup
  visited : ∀ v ∈ estk.map Link.aghead, v = n ∨ d v ≠ 0
  shape : estk = [] ∨ Shape E n cs (estk.map Link.aghead)
  range : ∀ v, v = n ∨ d v ≠ 0 → v ∈ N ∧ v.seq < size
  finished : ∀ v, v = n ∨ d v ≠ 0 → v ∉ estk.map Link.aghead → ∀ e ∈ out v, Seen E n d v e.head
  path : estk.IsChain (Above E out n d)

/-- The search begins with the `dummy` on the stack. -/
theorem Searching.init (hn : n ∈ N) (hsize : n.seq < size) :
    Searching N E out size n (fun _ => 0) [] [.dummy n] where
  marks := .init E n
  nodup := nodup_singleton n
  visited v hv := .inl (mem_singleton.1 hv)
  shape := .inr (.inl rfl)
  range v hv := by
    obtain rfl := hv.resolve_right fun h => h rfl
    exact ⟨hn, hsize⟩
  finished v hv hmem := by
    obtain rfl := hv.resolve_right fun h => h rfl
    exact absurd mem_cons_self hmem
  path := isChain_singleton _

/-- The distance that the head gets. -/
theorem uchar_min_one (k : ℕ) : uchar_min 1 k + 1 = if k = 0 then 1 else 2 := by
  rw [uchar_min]
  grind

theorem distance_ne_zero (k : ℕ) : uchar_min 1 k + 1 ≠ 0 := Nat.succ_ne_zero _

section Step

variable {link : Link} (ho : Outs N E out)
  (h : Searching N E out size n d cs (link :: estk)) (he : e ∈ out link.aghead)
  (hne : e.head ≠ link.aghead)

include h

/-- The node on the top of the stack. -/
theorem Searching.top : link.aghead = n ∨ d link.aghead ≠ 0 := h.visited _ mem_cons_self

theorem Searching.top_shape : Shape E n cs (link.aghead :: estk.map Link.aghead) :=
  h.shape.resolve_left nofun

theorem Searching.source_mem : n ∈ (link :: estk).map Link.aghead := by
  obtain hs | ⟨up, c, cs', hs, -, -⟩ := h.top_shape
  · rw [map_cons, hs]
    exact mem_cons_self
  · rw [map_cons, hs]
    simp

/-- When the head has got its distance, the search has dealt with the edge. -/
theorem Searching.seen_update (e : Agedge) : Seen E n
    (Function.update d e.head (uchar_min 1 (d link.aghead) + 1)) link.aghead e.head := by
  refine .inr ⟨.inr ?_, fun hn => .inl ?_⟩
  · rw [update_self]
    exact distance_ne_zero _
  · rw [update_self, uchar_min_one, if_neg (h.top.resolve_left hn)]

include ho

theorem Searching.arc_of_above {link₁ link₂ : Link} (hmem : link₂ ∈ link :: estk)
    (habove : Above E out n d link₁ link₂) : Arc E link₂.aghead link₁.aghead := by
  obtain ⟨f, done, rest, rfl, hout, hf, -⟩ := habove
  have hN := (h.range _ (h.visited _ (mem_map_of_mem hmem))).1
  obtain ⟨hfE, htail⟩ := (ho.mem _ hN f).1 (by rw [hout]; simp)
  exact ⟨hf.symm, f, hfE, htail, rfl⟩

include he hne

/-- The edge is an arc. -/
theorem Searching.arc : Arc E link.aghead e.head := by
  obtain ⟨heE, htail⟩ := (ho.mem _ (h.range _ h.top).1 e).1 he
  exact ⟨hne.symm, e, heE, htail, rfl⟩

/-- A node on the stack reaches the top of it. -/
theorem Searching.cyclic (hmem : e.head ∈ (link :: estk).map Link.aghead) : Cyclic E := by
  have harc := h.arc ho he hne
  have hpath : ((link :: estk).map Link.aghead).IsChain fun a b => Arc E b a := by
    rw [isChain_map]
    exact h.path.imp_of_mem_imp fun _ _ _ hmem habove => h.arc_of_above ho hmem habove
  obtain heq | hmem := mem_cons.1 hmem
  · exact absurd heq hne
  · exact ⟨e.head, (transGen_of_path hpath hmem).tail harc⟩

/-- The head was at distance 1. -/
theorem Searching.raise (hoff : e.head ∉ (link :: estk).map Link.aghead) (hone : d e.head = 1) :
    Searching N E out size n (Function.update d e.head (uchar_min 1 (d link.aghead) + 1)) cs
      (link :: estk) := by
  rw [uchar_min_one]
  obtain hn | hv := h.top
  · rw [if_pos (hn ▸ h.marks.source), ← hone, update_eq_self]
    exact h
  · rw [if_neg hv]
    have harc := h.arc ho he hne
    have hgrows : Grows d (Function.update d e.head 2) := .update (by omega) (by decide)
    have hold : ∀ w, w = n ∨ Function.update d e.head 2 w ≠ 0 → w = n ∨ d w ≠ 0 := by
      intro w hw
      refine hw.imp_right fun hw => ?_
      by_cases hwx : w = e.head
      · rw [hwx, hone]
        decide
      · rwa [update_of_ne hwx] at hw
    have hlater : e.head ∈ cs → ∃ c, Before cs c e.head ∧
        ReflTransGen (Away E n) c link.aghead := by
      intro hmem
      obtain ⟨c, cs', rfl, hc, hcv⟩ :=
        h.top_shape.later mem_cons_self (h.marks.ne_source hv)
      refine ⟨c, ?_, hcv⟩
      obtain heq | hmem := mem_cons.1 hmem
      · exact absurd (heq ▸ hc) hoff
      · exact (singleton_sublist.2 hmem).cons_cons c
    exact
      { marks := h.marks.setFar hv harc (fun hn => hoff (hn ▸ h.source_mem)) hlater
        nodup := h.nodup
        visited := fun w hw => (h.visited w hw).imp_right (hgrows w).1
        shape := h.shape
        range := fun w hw => h.range w (hold w hw)
        finished := fun w hw hmem f hf => (h.finished w (hold w hw) hmem f hf).mono hgrows
        path := h.path.imp fun _ _ ha => ha.mono hgrows }

/-- The search comes to the head, and the edge goes on the stack. -/
theorem Searching.push (hoff : e.head ∉ (link :: estk).map Link.aghead) (hzero : d e.head = 0)
    (hsize : e.head.seq < size) {done rest : List Agedge}
    (hout : out link.aghead = done ++ e :: rest)
    (hdone : ∀ f ∈ done, Seen E n d link.aghead f.head) :
    ∃ cs', Searching N E out size n (Function.update d e.head (uchar_min 1 (d link.aghead) + 1)) cs'
      (.edge e :: link :: estk) := by
  have harc := h.arc ho he hne
  have hseen := h.seen_update e
  have hgrows : Grows d (Function.update d e.head (uchar_min 1 (d link.aghead) + 1)) :=
    .update (by omega) (distance_ne_zero _)
  have hmarks : ∃ cs', Marks E n (Function.update d e.head (uchar_min 1 (d link.aghead) + 1)) cs' ∧
      Shape E n cs' (e.head :: (link :: estk).map Link.aghead) := by
    rw [uchar_min_one]
    obtain hn | hv := h.top
    · rw [if_pos (hn ▸ h.marks.source)]
      have hshape := h.top_shape
      rw [hn] at hshape harc
      have hnodup := h.nodup
      rw [map_cons, hn] at hnodup ⊢
      rw [hshape.eq_of_source hnodup]
      exact ⟨_, h.marks.setNear harc hzero, .push_child cs _⟩
    · rw [if_neg hv]
      have hvn := h.marks.ne_source hv
      exact ⟨cs, h.marks.setFar hv harc (fun hn => hoff (hn ▸ h.source_mem))
        fun hmem => absurd hzero (h.marks.child _ hmem).2, h.top_shape.push_far hvn harc⟩
  obtain ⟨cs', hmarks, hshape⟩ := hmarks
  have hold : ∀ w, w = n ∨ Function.update d e.head (uchar_min 1 (d link.aghead) + 1) w ≠ 0 →
      w ≠ e.head → w = n ∨ d w ≠ 0 := fun w hw hwx => by
    rwa [update_of_ne hwx] at hw
  refine ⟨cs', hmarks, nodup_cons.2 ⟨hoff, h.nodup⟩, fun w hw => ?_, .inr hshape,
    fun w hw => ?_, fun w hw hmem f hf => ?_, isChain_cons_cons.2 ⟨?_, ?_⟩⟩
  · obtain rfl | hw := mem_cons.1 hw
    · right
      rw [Link.aghead, update_self]
      exact distance_ne_zero _
    · exact (h.visited w hw).imp_right (hgrows w).1
  · by_cases hwx : w = e.head
    · subst hwx
      exact ⟨ho.head e ((ho.mem _ (h.range _ h.top).1 e).1 he).1, hsize⟩
    · exact h.range w (hold w hw hwx)
  · have hwx : w ≠ e.head := fun hwx => hmem (hwx ▸ mem_cons_self)
    exact (h.finished w (hold w hw hwx) (fun hw => hmem (mem_cons_of_mem _ hw)) f hf).mono
      hgrows
  · refine ⟨e, done, rest, rfl, hout, hne, fun f hf => ?_⟩
    obtain hf | hf := mem_append.1 hf
    · exact (hdone f hf).mono hgrows
    · rw [mem_singleton.1 hf]
      exact hseen
  · exact h.path.imp fun _ _ ha => ha.mono hgrows

end Step

/-- The search is done with a node. -/
theorem Searching.pop {link : Link} (h : Searching N E out size n d cs (link :: estk))
    (hdone : ∀ f ∈ out link.aghead, Seen E n d link.aghead f.head) :
    Searching N E out size n d cs estk where
  marks := h.marks
  nodup := (nodup_cons.1 h.nodup).2
  visited w hw := h.visited w (mem_cons_of_mem _ hw)
  shape := by
    refine h.top_shape.pop.imp_left fun hnil => ?_
    exact map_eq_nil_iff.1 hnil
  range := h.range
  finished w hw hmem f hf := by
    by_cases hwv : w = link.aghead
    · subst hwv
      exact hdone f hf
    · refine h.finished w hw (fun hw => ?_) f hf
      exact (mem_cons.1 hw).elim hwv hmem
  path := h.path.tail

end Graphviz.Tred
