import Graphviz.Cgraph.EdgeOps
import Graphviz.Library.Precedes

/-!
# Making a graph acyclic

`lib/cgraph/acyclic.c`: a depth-first search that deletes each edge to a node on the stack, after it
has added the reverse of the edge where there is none. The search goes on in the sequences it
changes. What carries it is the order in which the nodes are finished, those on the stack last:
every edge that was added goes back in it, and every edge that was deleted went forth.
-/

namespace Graphviz.Acyclic

open Outcome Precedes

/-- `Agnodeinfo_t`. -/
structure Agnodeinfo where
  mark : ℤ
  onstack : Bool

/-- What `graphviz_acyclic` changes: the store, the records `info` of the nodes, and the number it
counts in. -/
structure State where
  store : Store
  info : Agnode → Agnodeinfo
  num_rev : ℕ

/-- The record of a node, changed. -/
def State.setInfo (st : State) (n : Agnode) (info : Agnodeinfo) : State :=
  { st with info := Function.update st.info n info }

/-- `addRevEdge`. The attributes are copied to the edge that `agedge` returns, which is read. -/
def addRevEdge (c : Cdt) (g : GPath) (e : Agedge) (st : State) : Except Fault State := do
  let (f, store) ← st.store.agedge c g e.head e.tail (st.store.agnameof .AGEDGE e.id) true
  match f with
  | none => .error .segfault
  | some _ => .ok { st with store }

/-- The reverse of an edge, unless there is an edge that `agedge` finds. -/
def reverse (c : Cdt) (g : GPath) (t h : Agnode) (name : Option CStr) (e : Agedge) (st : State) :
    Except Fault State := do
  let (f, store) ← st.store.agedge c g h t name false
  if f = none then
    let st ← addRevEdge c g e { st with store }
    .ok { st with num_rev := st.num_rev + 1 }
  else .ok { st with store }

/-- What `dfs` does about an edge to a node on the stack before it deletes the edge. -/
def reverseIfNone (c : Cdt) (g : GPath) (t : Agnode) (e : Agedge) (st : State) :
    Except Fault State :=
  let h := e.head
  if st.store.desc.strict then reverse c g t h none e st
  else
    match st.store.agnameof .AGEDGE e.id with
    | none => do
      let st ← addRevEdge c g e st
      .ok { st with num_rev := st.num_rev + 1 }
    | some key => reverse c g t h (some key) e st

/-- What `dfs` does about an edge to a node on the stack. -/
def backEdge (c : Cdt) (g : GPath) (t : Agnode) (e : Agedge) (st : State) : Except Fault State := do
  let st ← reverseIfNone c g t e st
  let (_, store) ← st.store.agdeledge c g e
  .ok { st with store }

mutual

/-- `dfs`. -/
def dfs (c : Cdt) (g : GPath) : ℕ → Agnode → Bool → State → Except Fault (Bool × State)
  | 0, _, _, _ => .error .fuel
  | fuel + 1, t, hasCycle, st => do
    let st := st.setInfo t { mark := 1, onstack := true }
    let (hasCycle, st) ← dfsFrom c g fuel t ((st.store.graphs g).agfstout t) hasCycle st
    .ok (hasCycle, st.setInfo t { st.info t with onstack := false })

/-- The loop of `dfs` from an edge on. -/
def dfsFrom (c : Cdt) (g : GPath) :
    ℕ → Agnode → Option Agedge → Bool → State → Except Fault (Bool × State)
  | _, _, none, hasCycle, st => .ok (hasCycle, st)
  | 0, _, some _, _, _ => .error .fuel
  | fuel + 1, t, some e, hasCycle, st =>
    let f := (st.store.graphs g).agnxtout e
    let h := e.head
    if e.tail = e.head then dfsFrom c g fuel t f hasCycle st
    else if (st.info h).onstack then do
      let st ← backEdge c g t e st
      dfsFrom c g fuel t f true st
    else if (st.info h).mark = 0 then do
      let (cycle, st) ← dfs c g fuel h hasCycle st
      dfsFrom c g fuel t f (hasCycle || cycle) st
    else dfsFrom c g fuel t f hasCycle st

end

/-- `aginit` of the records, which are zero unless a node has one. -/
def aginit (info : Agnode → Option Agnodeinfo) (n : Agnode) : Agnodeinfo :=
  (info n).getD { mark := 0, onstack := false }

/-- The loop of `graphviz_acyclic` from a node on. -/
def acyclicFrom (c : Cdt) (g : GPath) (fuel : ℕ) :
    ℕ → Option Agnode → Bool → State → Except Fault (Bool × State)
  | _, none, has_cycle, st => .ok (has_cycle, st)
  | 0, some _, _, _ => .error .fuel
  | k + 1, some n, has_cycle, st =>
    if (st.info n).mark = 0 then do
      let (cycle, st) ← dfs c g fuel n false st
      acyclicFrom c g fuel k ((st.store.graphs g).agnxtnode n) (has_cycle || cycle) st
    else acyclicFrom c g fuel k ((st.store.graphs g).agnxtnode n) has_cycle st

/-- `agnedges`. -/
def agnedges (g : Agraph) : ℕ := (g.nSeq.map fun n => (g.outSeqOf n).length).sum

/-- No search visits more nodes than there are, or from one node more edges. -/
def fuel (g : Agraph) : ℕ := g.nSeq.length * (agnedges g + 2)

/-- `graphviz_acyclic`, without the output. -/
def graphviz_acyclic (c : Cdt) (g : GPath) (info : Agnode → Option Agnodeinfo) (num_rev : ℕ)
    (store : Store) : Except Fault (Bool × State) :=
  acyclicFrom c g (fuel (store.graphs g)) (store.graphs g).nSeq.length (store.graphs g).agfstnode
    false { store, info := aginit info, num_rev }

end Graphviz.Acyclic

/-!
## The search of `graphviz_acyclic`

What holds whenever the search of `graphviz_acyclic` is between two edges. The edges that went are
those of the input that go forth in the order in which nodes finish, so that no edge goes twice, no
edge that was added goes, and the edge for whose sake another was dropped stays.
-/

namespace Graphviz.Acyclic

open Function List Outcome Precedes Relation Set

/-! ## Edges that were reversed -/

/-- An edge in the other direction. -/
def Opposite (e f : Agedge) : Prop := f.tail = e.head ∧ f.head = e.tail

/-- An edge from one node to another. -/
def Arc (E : Set Agedge) (u v : Agnode) : Prop := u ≠ v ∧ ∃ e ∈ E, e.tail = u ∧ e.head = v

/-- The edges have a cycle that is not a loop. -/
def Cyclic (E : Set Agedge) : Prop := ∃ n, TransGen (Arc E) n n

/-- An edge may be dropped for the sake of another: in a strict graph, or when it has a key and the
other one has the same. -/
def Stands (s : Store) (e f : Agedge) : Prop :=
  s.desc.strict = true ∨ s.agnameof .AGEDGE e.id ≠ none ∧ f.id = e.id

/-- The edges `E` are the edges `E₀` with those of `R` reversed, and with others dropped for the
sake of opposite edges. -/
structure Reversed (s : Store) (E₀ E R : Set Agedge) (rev : Agedge → Agedge) : Prop where
  sub : R ⊆ E₀ \ E
  bij : BijOn rev R (E \ E₀)
  opposite : ∀ e ∈ R, Opposite e (rev e)
  dropped : ∀ e ∈ E₀ \ E, e ∉ R → ∃ f ∈ E, Opposite e f ∧ Stands s e f

variable {s : Store} {E₀ E R : Set Agedge} {rev : Agedge → Agedge} {e f : Agedge}

theorem Reversed.refl (s : Store) (E : Set Agedge) (rev : Agedge → Agedge) :
    Reversed s E E ∅ rev where
  sub := empty_subset _
  bij := by rw [Set.sdiff_self]; exact bijOn_empty rev
  opposite _ h := h.elim
  dropped _ h := absurd h.1 h.2

open Classical in
/-- One more edge is reversed, that none was dropped for. -/
theorem Reversed.reverse (h : Reversed s E₀ E R rev) (he₀ : e ∈ E₀) (he : e ∈ E) (hf₀ : f ∉ E₀)
    (hf : f ∉ E) (hopp : Opposite e f) (hkeep : ∀ x ∈ E₀, x ∉ E → ¬ Opposite x e) :
    Reversed s E₀ (insert f E \ {e}) (insert e R) (Function.update rev e f) := by
  have heR : e ∉ R := fun hR => (h.sub hR).2 he
  have hupd : ∀ x ∈ R, Function.update rev e f x = rev x := fun x hx =>
    update_of_ne (by rintro rfl; exact heR hx) _ _
  have hfe : f ≠ e := fun hfe => hf (hfe ▸ he)
  have hout : ∀ x ∈ E₀, x ∉ insert f E \ {e} → x ≠ e → x ∉ E := fun x hx hx' hxe hxE =>
    hx' ⟨.inr hxE, hxe⟩
  refine ⟨?_, ?_, ?_, ?_⟩
  · rintro x (rfl | hx)
    · exact ⟨he₀, fun hx => hx.2 rfl⟩
    · refine ⟨(h.sub hx).1, ?_⟩
      rintro ⟨rfl | hxE, -⟩
      · exact hf₀ (h.sub hx).1
      · exact (h.sub hx).2 hxE
  · have hE : (insert f E \ {e}) \ E₀ = insert f (E \ E₀) := by
      ext x
      constructor
      · rintro ⟨⟨rfl | hx, -⟩, hx0⟩
        · exact .inl rfl
        · exact .inr ⟨hx, hx0⟩
      · rintro (rfl | ⟨hx, hx0⟩)
        · exact ⟨⟨.inl rfl, hfe⟩, hf₀⟩
        · exact ⟨⟨.inr hx, fun hxe => hx0 (hxe ▸ he₀)⟩, hx0⟩
    have hold : BijOn (Function.update rev e f) R (E \ E₀) :=
      h.bij.congr fun x hx => (hupd x hx).symm
    rw [hE]
    have hnew := hold.insert (a := e) (by rw [update_self]; exact fun hx => hf hx.1)
    rwa [update_self] at hnew
  · rintro x (rfl | hx)
    · rw [update_self]
      exact hopp
    · rw [hupd x hx]
      exact h.opposite x hx
  · intro x hx hxR
    obtain ⟨g, hg, hgo, hgs⟩ := h.dropped x
      ⟨hx.1, hout x hx.1 hx.2 fun hxe => hxR (.inl hxe)⟩ fun hR => hxR (.inr hR)
    refine ⟨g, ⟨.inr hg, ?_⟩, hgo, hgs⟩
    rintro rfl
    exact hkeep x hx.1 (hout x hx.1 hx.2 fun hxe => hxR (.inl hxe)) hgo

/-- One more edge is dropped, that none was dropped for. -/
theorem Reversed.drop (h : Reversed s E₀ E R rev) (he₀ : e ∈ E₀) (hf : f ∈ E) (hfe : f ≠ e)
    (hopp : Opposite e f) (hst : Stands s e f) (hkeep : ∀ x ∈ E₀, x ∉ E → ¬ Opposite x e) :
    Reversed s E₀ (E \ {e}) R rev := by
  have hout : ∀ x ∈ E₀, x ∉ E \ {e} → x ≠ e → x ∉ E := fun x hx hx' hxe hxE => hx' ⟨hxE, hxe⟩
  refine ⟨fun x hx => ⟨(h.sub hx).1, fun hx' => (h.sub hx).2 hx'.1⟩, ?_, h.opposite, ?_⟩
  · have hE : (E \ {e}) \ E₀ = E \ E₀ := by
      ext x
      exact ⟨fun hx => ⟨hx.1.1, hx.2⟩, fun hx => ⟨⟨hx.1, fun hxe => hx.2 (hxe ▸ he₀)⟩, hx.2⟩⟩
    rw [hE]
    exact h.bij
  · intro x hx hxR
    by_cases hxe : x = e
    · subst hxe
      exact ⟨f, ⟨hf, hfe⟩, hopp, hst⟩
    · obtain ⟨g, hg, hgo, hgs⟩ := h.dropped x ⟨hx.1, hout x hx.1 hx.2 hxe⟩ hxR
      refine ⟨g, ⟨hg, ?_⟩, hgo, hgs⟩
      rintro rfl
      exact hkeep x hx.1 (hout x hx.1 hx.2 hxe) hgo

/-- Two nodes are adjacent by an edge in either direction. -/
def Adjacent (E : Set Agedge) (u v : Agnode) : Prop :=
  ∃ e ∈ E, e.tail = u ∧ e.head = v ∨ e.tail = v ∧ e.head = u

/-- No two nodes gain or lose adjacency. -/
theorem Reversed.adjacent_iff (h : Reversed s E₀ E R rev) (u v : Agnode) :
    Adjacent E u v ↔ Adjacent E₀ u v := by
  constructor
  · rintro ⟨f, hf, hends⟩
    by_cases hf0 : f ∈ E₀
    · exact ⟨f, hf0, hends⟩
    · obtain ⟨e, he, rfl⟩ := h.bij.surjOn ⟨hf, hf0⟩
      obtain ⟨htail, hhead⟩ := h.opposite e he
      rw [htail, hhead] at hends
      exact ⟨e, (h.sub he).1, hends.symm.imp And.symm And.symm⟩
  · rintro ⟨e, he, hends⟩
    by_cases heE : e ∈ E
    · exact ⟨e, heE, hends⟩
    · obtain ⟨f, hf, htail, hhead⟩ : ∃ f ∈ E, Opposite e f := by
        by_cases heR : e ∈ R
        · exact ⟨rev e, (h.bij.mapsTo heR).1, h.opposite e heR⟩
        · obtain ⟨f, hf, hopp, -⟩ := h.dropped e ⟨he, heE⟩ heR
          exact ⟨f, hf, hopp⟩
      refine ⟨f, hf, ?_⟩
      rw [htail, hhead]
      exact hends.symm.imp And.symm And.symm

/-- There are never more edges than at first. -/
theorem Reversed.ncard_le (h : Reversed s E₀ E R rev) (hE₀ : E₀.Finite) :
    E.Finite ∧ E.ncard ≤ E₀.ncard := by
  have hR : R.Finite := hE₀.subset fun e he => (h.sub he).1
  have hnew : (E \ E₀).Finite := h.bij.image_eq ▸ hR.image rev
  have hE : E.Finite := (hnew.union (hE₀.inter_of_right E)).subset fun e he => by
    by_cases he0 : e ∈ E₀
    · exact .inr ⟨he, he0⟩
    · exact .inl ⟨he, he0⟩
  have hle : (E \ E₀).ncard ≤ (E₀ \ E).ncard := by
    rw [← h.bij.image_eq, h.bij.injOn.ncard_image]
    exact ncard_le_ncard h.sub (hE₀.subset sdiff_subset)
  refine ⟨hE, ?_⟩
  have h1 := ncard_inter_add_ncard_sdiff_eq_ncard E E₀ hE
  have h2 := ncard_inter_add_ncard_sdiff_eq_ncard E₀ E hE₀
  rw [inter_comm] at h2
  omega

/-! ## The search -/

variable {s₀ : Store} {V₀ V : Views} {p : GPath} {k : ℕ} {st st' : State} {fin stack : List Agnode}
  {t n : Agnode} {c : Cdt}

/-- The search has finished nodes, in this order, and has others on its stack, the last one
first. -/
structure Searching (s₀ : Store) (V₀ : Views) (p : GPath) (k : ℕ) (st : State) (V : Views)
    (fin stack : List Agnode) (R : Set Agedge) (rev : Agedge → Agedge) : Prop where
  inv : st.store.Inv V
  keeps : s₀.Keeps st.store
  localNames : st.store.LocalNames
  imap : st.store.imap.Sublist s₀.imap
  nodes : (V p).nodes = (V₀ p).nodes
  nSeq : (st.store.graphs p).nSeq = (s₀.graphs p).nSeq
  nodup : (fin ++ stack).Nodup
  mem : ∀ n ∈ fin ++ stack, n ∈ (V₀ p).nodes
  mark : ∀ n ∈ (V₀ p).nodes, (st.info n).mark = 0 ↔ n ∉ fin ++ stack
  onstack : ∀ n ∈ (V₀ p).nodes, (st.info n).onstack = true ↔ n ∈ stack
  path : stack.IsChain fun a b => Arc (V₀ p).edges b a
  closed : ∀ e ∈ (V p).edges, e.tail ∈ fin → e.tail ≠ e.head → Before (fin ++ stack) e.head e.tail
  new : ∀ e ∈ (V p).edges, e ∉ (V₀ p).edges → Before (fin ++ stack) e.head e.tail
  gone : ∀ e ∈ (V₀ p).edges, e ∉ (V p).edges → Before (fin ++ stack) e.tail e.head
  reversed : Reversed s₀ (V₀ p).edges (V p).edges R rev
  num_rev : st.num_rev = k + R.ncard
  seqEdge : st.store.seqEdge ≤ s₀.seqEdge + ((V₀ p).edges \ (V p).edges).ncard

/-- The first edge of a loop, and those after it. The edges before it go back, or are loops. -/
structure Cursor (st : State) (p : GPath) (t : Agnode) (order : List Agnode) (e : Option Agedge)
    (done rest : List Agedge) : Prop where
  out : (st.store.graphs p).outSeqOf t = done ++ rest
  head : e = rest.head?
  back : ∀ x ∈ done, x.tail ≠ x.head → Before order x.head x.tail

/-- What a part of the search leaves to the nodes that were on the stack before. -/
structure Goes (p : GPath) (st : State) (V : Views) (st' : State) (V' : Views)
    (order : List Agnode) (stack : List Agnode) : Prop where
  out : ∀ n ∈ stack, ((st.store.graphs p).outSeqOf n).Sublist ((st'.store.graphs p).outSeqOf n)
  added : ∀ e ∈ (V' p).edges, e ∉ (V p).edges → Before order e.head e.tail

/-- A sequence number does not fit its field. -/
def Overflows (s₀ : Store) (E₀ : Set Agedge) (f : Fault) : Prop :=
  f = .assertion ∧ SEQ_MASK < s₀.seqEdge + E₀.ncard

/-- The search with other edges: those that came go back, and those that went go forth. -/
theorem Searching.change {V' : Views} {R' : Set Agedge} {rev' : Agedge → Agedge}
    (h : Searching s₀ V₀ p k st V fin stack R rev) (hinv : st'.store.Inv V')
    (hkeeps : st.store.Keeps st'.store) (hlocal : st'.store.LocalNames)
    (himap : st'.store.imap.Sublist st.store.imap) (hnodes : (V' p).nodes = (V p).nodes)
    (hnSeq : (st'.store.graphs p).nSeq = (st.store.graphs p).nSeq) (hinfo : st'.info = st.info)
    (hadd : ∀ x ∈ (V' p).edges, x ∉ (V p).edges → Before (fin ++ stack) x.head x.tail)
    (hdel : ∀ x ∈ (V p).edges, x ∉ (V' p).edges → Before (fin ++ stack) x.tail x.head)
    (hrev : Reversed s₀ (V₀ p).edges (V' p).edges R' rev') (hnum : st'.num_rev = k + R'.ncard)
    (hseq : st'.store.seqEdge ≤ s₀.seqEdge + ((V₀ p).edges \ (V' p).edges).ncard) :
    Searching s₀ V₀ p k st' V' fin stack R' rev' where
  inv := hinv
  keeps := h.keeps.trans hkeeps
  localNames := hlocal
  imap := himap.trans h.imap
  nodes := hnodes.trans h.nodes
  nSeq := hnSeq.trans h.nSeq
  nodup := h.nodup
  mem := h.mem
  mark := by rw [hinfo]; exact h.mark
  onstack := by rw [hinfo]; exact h.onstack
  path := h.path
  closed x hx htail hne := by
    by_cases hxE : x ∈ (V p).edges
    · exact h.closed x hxE htail hne
    · exact hadd x hx hxE
  new x hx hx₀ := by
    by_cases hxE : x ∈ (V p).edges
    · exact h.new x hxE hx₀
    · exact hadd x hx hxE
  gone x hx₀ hx := by
    by_cases hxE : x ∈ (V p).edges
    · exact hdel x hxE hx
    · exact h.gone x hx₀ hxE
  reversed := hrev
  num_rev := hnum
  seqEdge := hseq

/-! ## An edge to a node on the stack -/

section BackEdge

variable (h : Searching s₀ V₀ p k st V fin (t :: stack) R rev) (hp : s₀.Live p)
  (hE₀ : (V₀ p).edges.Finite) (hdir : s₀.desc.directed = true)
  (hnamed : Store.Named (V₀ p).edges) (he : e ∈ (V p).edges) (htail : e.tail = t)
  (hhead : e.head ∈ stack)

include hhead in
theorem before_top : Before (fin ++ t :: stack) t e.head :=
  ((singleton_sublist.2 hhead).cons_cons t).trans (sublist_append_right _ _)

include h he htail hhead in
/-- An edge to a node on the stack is one of the input. -/
theorem Searching.old : e ∈ (V₀ p).edges := by
  by_contra he0
  have hnew := h.new e he he0
  rw [htail] at hnew
  exact hnew.asymm h.nodup (before_top hhead)

include h htail hhead in
/-- No edge was dropped for its sake. -/
theorem Searching.keep : ∀ x ∈ (V₀ p).edges, x ∉ (V p).edges → ¬ Opposite x e := by
  rintro x hx hx' ⟨h1, h2⟩
  have hgone := h.gone x hx hx'
  rw [← h1, ← h2, htail] at hgone
  exact hgone.asymm h.nodup (before_top hhead)

include h htail hhead in
/-- An edge in the other direction that is not in the graph was not in the input. -/
theorem Searching.not_old (hf : f ∉ (V p).edges) (hopp : Opposite e f) : f ∉ (V₀ p).edges := by
  intro hf0
  have hgone := h.gone f hf0 hf
  rw [hopp.1, hopp.2, htail] at hgone
  exact hgone.asymm h.nodup (before_top hhead)

include h hE₀ he htail hhead in
/-- When an edge goes, one more is gone. -/
theorem Searching.ncard_gone (E' : Set Agedge)
    (hgone : ∀ x ∈ (V₀ p).edges, x ∉ (V p).edges → x ∉ E') (heE' : e ∉ E') :
    ((V₀ p).edges \ (V p).edges).ncard + 1 ≤ ((V₀ p).edges \ E').ncard := by
  have hfin : ∀ E : Set Agedge, ((V₀ p).edges \ E).Finite := fun E => hE₀.subset sdiff_subset
  have he' : e ∉ (V₀ p).edges \ (V p).edges := fun hx => hx.2 he
  rw [← ncard_insert_of_notMem he' (hfin _)]
  refine ncard_le_ncard ?_ (hfin _)
  rintro x (rfl | hx)
  · exact ⟨h.old he htail hhead, heE'⟩
  · exact ⟨hx.1, hgone x hx.1 hx.2⟩

include h hE₀ he htail hhead in
theorem Searching.overflows {f : Fault} (hf : f = .assertion ∧ SEQ_MASK ≤ st.store.seqEdge) :
    Overflows s₀ (V₀ p).edges f := by
  have hgone := h.ncard_gone hE₀ he htail hhead ∅ (fun _ _ _ => id) id
  rw [sdiff_empty] at hgone
  have hseq := h.seqEdge
  exact ⟨hf.1, by omega⟩

/-- What `addRevEdge` does. -/
structure RevAdded (st : State) (V : Views) (p : GPath) (e f : Agedge) (st' : State) : Prop where
  opposite : Opposite e f
  added : st.store.EdgeAdded V p f st'.store
  info : st'.info = st.info

include h hp hE₀ hdir hnamed he htail hhead in
/-- `addRevEdge` adds an edge, when `agedge` finds none by the name. -/
theorem Searching.addRevEdge (hprobe : st.store.agnameof .AGEDGE e.id ≠ none →
      st.store.probe c p e.head t (some e.id) = none)
    (hstrict : s₀.desc.strict = true → ∀ x ∈ (V p).edges, x.tail = e.head → x.head ≠ t) :
    Meets (addRevEdge c p e st) (fun st' => ∃ f, RevAdded st V p e f st' ∧ st'.num_rev = st.num_rev)
      (Overflows s₀ (V₀ p).edges) := by
  have hlive := h.keeps.live.2 hp
  have hends := h.inv.shows.ends p hlive
  have hne : e.head ≠ e.tail := by
    rw [htail]
    exact ((before_top hhead).ne h.nodup).symm
  have hdir' : st.store.desc.directed = true := by rw [h.keeps.desc]; exact hdir
  have hold := h.old he htail hhead
  have hid : ∀ str, st.store.agnameof .AGEDGE e.id = some str →
      (st.store.agmapnametoid .AGEDGE (some str) false).1 = some e.id := fun str =>
    Store.agmapnametoid_agnameof h.localNames hnamed hold
  rw [Acyclic.addRevEdge]
  refine ((h.inv.agedge_within (c := c) hlive hdir' (hends.head e he) (hends.tail e he) hne
    ?_ ?_ ?_).mono (fun _ => id) fun _ hf => h.overflows hE₀ he htail hhead hf).bind
    fun r hadd => ?_
  · cases hname : st.store.agnameof .AGEDGE e.id with
    | none => exact .inl rfl
    | some str =>
      rw [hid str hname]
      exact .inr (Option.some_ne_none _)
  · intro hprobes
    cases hname : st.store.agnameof .AGEDGE e.id with
    | none =>
      rw [hname] at hprobes
      have hs : st.store.desc.strict = true := by
        rw [Store.probes] at hprobes
        simpa [Store.agmapnametoid] using hprobes
      cases hf : st.store.probe c p e.head e.tail (st.store.agmapnametoid .AGEDGE none false).1 with
      | none => rfl
      | some f =>
        obtain ⟨hmem, hft, hfh, -⟩ :=
          h.inv.of_probe_directed hlive hdir' (hends.head e he) (hends.tail e he) hf
        rw [h.keeps.desc] at hs
        exact absurd (hfh.trans htail) (hstrict hs f hmem hft)
    | some str =>
      rw [hid str hname, htail]
      exact hprobe (by rw [hname]; exact Option.some_ne_none _)
  · intro hs x hx hxt hxh
    rw [h.keeps.desc] at hs
    exact hstrict hs x hx hxt (hxh.trans htail)
  · obtain ⟨r, store⟩ := r
    obtain ⟨f, rfl, hftail, hfhead, hadded⟩ := hadd
    exact ⟨f, ⟨⟨hftail, hfhead⟩, hadded, rfl⟩, rfl⟩

/-- What is done for an edge before it goes: its reverse is added, or an edge that stands for it is
there. -/
def Ready (s₀ : Store) (st : State) (V : Views) (p : GPath) (e : Agedge) (st' : State) : Prop :=
  (∃ f, RevAdded st V p e f st' ∧ st'.num_rev = st.num_rev + 1) ∨
    (∃ f ∈ (V p).edges, Opposite e f ∧ Stands s₀ e f) ∧ st' = st

include h hp hE₀ hdir hnamed he htail hhead in
/-- `reverse`, with a wildcard in a strict graph or with the key of the edge. -/
theorem Searching.reverse {name : Option CStr}
    (hname : name = none ∧ s₀.desc.strict = true ∨
      s₀.desc.strict = false ∧ name ≠ none ∧ name = st.store.agnameof .AGEDGE e.id) :
    Meets (reverse c p t e.head name e st) (Ready s₀ st V p e) (Overflows s₀ (V₀ p).edges) := by
  have hlive := h.keeps.live.2 hp
  have hends := h.inv.shows.ends p hlive
  have hdir' : st.store.desc.directed = true := by rw [h.keeps.desc]; exact hdir
  have ht : t ∈ (V p).nodes := htail ▸ hends.tail e he
  have hh : e.head ∈ (V p).nodes := hends.head e he
  have hkey : (name = none ∧ (st.store.agmapnametoid .AGEDGE name false).1 = none) ∨
      (st.store.agmapnametoid .AGEDGE name false).1 = some e.id := by
    obtain ⟨rfl, -⟩ | ⟨-, hne, hname⟩ := hname
    · exact .inl ⟨rfl, rfl⟩
    · obtain ⟨str, rfl⟩ := Option.ne_none_iff_exists'.1 hne
      exact .inr (Store.agmapnametoid_agnameof h.localNames hnamed (h.old he htail hhead) hname.symm)
  have hif : ¬ (name ≠ none ∧ (st.store.agmapnametoid .AGEDGE name false).1 = none) := by
    rintro ⟨hne, hnone⟩
    obtain hkey | hkey := hkey
    · exact hne hkey.1
    · rw [hnone] at hkey
      cases hkey
  rw [Acyclic.reverse, Store.agedge_false, if_neg hif, ok_bind]
  dsimp only
  cases hf : st.store.probe c p e.head t (st.store.agmapnametoid .AGEDGE name false).1 with
  | some f =>
    rw [if_neg (Option.some_ne_none f)]
    obtain ⟨hmem, hft, hfh, hfid⟩ := h.inv.of_probe_directed hlive hdir' hh ht hf
    refine .inr ⟨⟨f, hmem, ⟨hft, hfh.trans htail.symm⟩, ?_⟩, rfl⟩
    obtain ⟨-, hs⟩ | ⟨-, hne, hname⟩ := hname
    · exact .inl hs
    · refine .inr ⟨Store.agnameof_of_sublist h.imap (hname ▸ hne), hfid _ ?_⟩
      exact hkey.resolve_left fun hk => hne hk.1
  | none =>
    rw [if_pos rfl]
    refine (h.addRevEdge hp hE₀ hdir hnamed he htail hhead ?_ ?_).bind fun st' ⟨f, hadded, hnum⟩ =>
      .inl ⟨f, ⟨hadded.opposite, hadded.added, hadded.info⟩, congrArg (· + 1) hnum⟩
    · intro hnamed'
      obtain ⟨rfl, hs⟩ | ⟨hs, hne, hname⟩ := hname
      · cases hf' : st.store.probe c p e.head t (some e.id) with
        | none => rfl
        | some f =>
          obtain ⟨hmem, hft, hfh, -⟩ := h.inv.of_probe_directed hlive hdir' hh ht hf'
          exact absurd (fun _ hid => by cases hid)
            (h.inv.of_probe_none hlive hf hmem (.inl ⟨hft, hfh⟩))
      · rw [hkey.resolve_left fun hk => hne hk.1] at hf
        exact hf
    · intro hs x hx hxt hxh
      obtain ⟨rfl, -⟩ | ⟨hs', -, -⟩ := hname
      · exact h.inv.of_probe_none hlive hf hx (.inl ⟨hxt, hxh⟩) nofun
      · rw [hs'] at hs
        cases hs

/-- The state with which the edge can go. -/
structure Prepared (s₀ : Store) (V₀ : Views) (p : GPath) (k : ℕ) (st : State) (V : Views)
    (e : Agedge) (st₁ : State) (V₁ : Views) (R' : Set Agedge) (rev' : Agedge → Agedge) : Prop where
  inv : st₁.store.Inv V₁
  keeps : st.store.Keeps st₁.store
  imap : st₁.store.imap = st.store.imap
  nodes : (V₁ p).nodes = (V p).nodes
  grows : (st.store.graphs p).Grows (st₁.store.graphs p)
  info : st₁.info = st.info
  sub : (V p).edges ⊆ (V₁ p).edges
  added : ∀ x ∈ (V₁ p).edges, x ∉ (V p).edges → x ∉ (V₀ p).edges ∧ Opposite e x
  reversed : Reversed s₀ (V₀ p).edges ((V₁ p).edges \ {e}) R' rev'
  num_rev : st₁.num_rev = k + R'.ncard
  seqEdge : st₁.store.seqEdge ≤ st.store.seqEdge + 1

include h hE₀ he htail hhead in
open Classical in
theorem Searching.prepared {st₁ : State} (hready : Ready s₀ st V p e st₁) :
    ∃ V₁ R' rev', Prepared s₀ V₀ p k st V e st₁ V₁ R' rev' := by
  have hold := h.old he htail hhead
  have hkeep := h.keep htail hhead
  obtain ⟨f, ⟨hopp, hadd, hinfo⟩, hnum⟩ | ⟨⟨f, hf, hopp, hst⟩, rfl⟩ := hready
  · have hview : (V.above (View.addEdge f) p) p = (V p).addEdge f :=
      Views.above_of_suffix suffix_rfl
    have hf0 := h.not_old htail hhead hadd.new hopp
    have heR : e ∉ R := fun hR => (h.reversed.sub hR).2 he
    have hR : R.Finite := hE₀.subset fun x hx => (h.reversed.sub hx).1
    refine ⟨_, insert e R, Function.update rev e f, hadd.inv, hadd.keeps, hadd.imap, by rw [hview]; rfl,
      hadd.grows, hinfo, ?_, ?_, ?_, ?_, hadd.seqEdge⟩
    · rw [hview]
      exact Set.subset_insert f _
    · rw [hview]
      rintro x (rfl | hx) hx'
      · exact ⟨hf0, hopp⟩
      · exact absurd hx hx'
    · rw [hview]
      exact h.reversed.reverse hold he hf0 hadd.new hopp hkeep
    · rw [ncard_insert_of_notMem heR hR, hnum, h.num_rev]
      omega
  · have hfe : f ≠ e := by
      rintro rfl
      have htop : Before (fin ++ t :: stack) t f.head := before_top hhead
      exact htop.ne h.nodup (htail.symm.trans hopp.1)
    exact ⟨V, R, rev, h.inv, .refl _, rfl, rfl, .refl _, rfl, subset_rfl,
      fun x hx hx' => absurd hx hx', h.reversed.drop hold hf hfe hopp hst hkeep, h.num_rev,
      Nat.le_succ _⟩

/-- What is left after an edge to a node on the stack has gone. -/
structure WentBack (s₀ : Store) (V₀ : Views) (p : GPath) (k : ℕ) (st : State) (V : Views)
    (fin : List Agnode) (t : Agnode) (stack : List Agnode) (e : Agedge) (st' : State) (V' : Views)
    (R' : Set Agedge) (rev' : Agedge → Agedge) : Prop where
  searching : Searching s₀ V₀ p k st' V' fin (t :: stack) R' rev'
  goes : Goes p st V st' V' (fin ++ t :: stack) stack
  out : ((st'.store.graphs p).outSeqOf t).Sublist ((st.store.graphs p).outSeqOf t)
  mem : ∀ x, x ∈ (st'.store.graphs p).outSeqOf t ↔ x ∈ (st.store.graphs p).outSeqOf t ∧ x ≠ e

include h hp hE₀ he htail hhead in
/-- The edge goes. -/
theorem Searching.wentBack {st₁ : State} {V₁ : Views} {R' : Set Agedge} {rev' : Agedge → Agedge}
    (hprep : Prepared s₀ V₀ p k st V e st₁ V₁ R' rev') {store : Store}
    (hdel : st₁.store.EdgeDeleted V₁ p e store) :
    ∃ V', WentBack s₀ V₀ p k st V fin t stack e { st₁ with store } V' R' rev' := by
  have hlive := h.keeps.live.2 hp
  have hlive1 := hprep.keeps.live.2 hlive
  have hlive2 := hdel.keeps.live.2 hlive1
  have htop : Before (fin ++ t :: stack) t e.head := before_top hhead
  set V₂ := Views.below (View.delEdge e) p V₁ with hV2
  have hview : V₂ p = (V₁ p).delEdge e := Views.below_of_suffix suffix_rfl
  have hedges : (V₂ p).edges = (V₁ p).edges \ {e} := by rw [hview]; rfl
  have hnodes : (V₂ p).nodes = (V p).nodes := by rw [hview]; exact hprep.nodes
  have hadd : ∀ x ∈ (V₂ p).edges, x ∉ (V p).edges → Before (fin ++ t :: stack) x.head x.tail := by
    rw [hedges]
    intro x hx hx'
    obtain ⟨hxt, hxh⟩ := (hprep.added x hx.1 hx').2
    rw [hxt, hxh, htail]
    exact htop
  have hgone := h.ncard_gone hE₀ he htail hhead (V₂ p).edges
    (fun x hx hxE hx' => (hprep.added x (hedges ▸ hx').1 hxE).1 hx) fun hx => (hedges ▸ hx).2 rfl
  have hstack : ∀ n ∈ t :: stack, n ∈ (V p).nodes := fun n hn =>
    h.nodes ▸ h.mem n (mem_append_right fin hn)
  have hset : ∀ n ∈ t :: stack, IsSet ((st.store.graphs p).outSeqOf n)
      {x | x ∈ (V p).edges ∧ x.tail = n} := fun n hn =>
    h.inv.isSet_outSeqOf hlive (hstack n hn)
  have hset1 : ∀ n ∈ t :: stack, IsSet ((st₁.store.graphs p).outSeqOf n)
      {x | x ∈ (V₁ p).edges ∧ x.tail = n} := fun n hn =>
    hprep.inv.isSet_outSeqOf hlive1 (hprep.nodes ▸ hstack n hn)
  have hset2 : ∀ n ∈ t :: stack, IsSet ((store.graphs p).outSeqOf n)
      {x | x ∈ (V₂ p).edges ∧ x.tail = n} := fun n hn =>
    hdel.inv.isSet_outSeqOf hlive2 (hnodes ▸ hstack n hn)
  have hadded : ∀ x ∈ (V₁ p).edges, x ∉ (V p).edges → x.tail ≠ t := by
    intro x hx hx'
    rw [(hprep.added x hx hx').2.1]
    exact (htop.ne h.nodup).symm
  refine ⟨V₂, h.change hdel.inv (hprep.keeps.trans hdel.keeps)
    ((h.localNames.of_imap hprep.imap).sublist hdel.imap) (hprep.imap ▸ hdel.imap) hnodes
    (hdel.grows.nSeq.symm.trans hprep.grows.nSeq) hprep.info hadd ?_ (hedges ▸ hprep.reversed)
    hprep.num_rev ?_, ⟨?_, hadd⟩, ?_, ?_⟩
  · rw [hedges]
    intro x hx hx'
    have hxe : x = e := by_contra fun hxe => hx' ⟨hprep.sub hx, hxe⟩
    rw [hxe, htail]
    exact htop
  · have h1 := hprep.seqEdge
    have h2 := hdel.seqEdge
    have h3 := h.seqEdge
    change store.seqEdge ≤ _
    omega
  · intro n hn
    have hnt : n ≠ t := by
      rintro rfl
      exact (nodup_cons.1 (nodup_append'.1 h.nodup).2.1).1 hn
    have hsame : (st₁.store.graphs p).outSeqOf n = (store.graphs p).outSeqOf n := by
      refine eq_of_sublist (hdel.grows.out n) (hset1 n (.tail _ hn)).nodup fun x hx => ?_
      obtain ⟨hx, hxn⟩ := ((hset1 n (.tail _ hn)).mem x).1 hx
      refine ((hset2 n (.tail _ hn)).mem x).2 ⟨hedges ▸ ⟨hx, ?_⟩, hxn⟩
      rintro rfl
      exact hnt (hxn.symm.trans htail)
    exact hsame ▸ hprep.grows.out n
  · have hsame : (st₁.store.graphs p).outSeqOf t = (st.store.graphs p).outSeqOf t := by
      refine eq_of_sublist (hprep.grows.out t) (hset1 t (.head _)).nodup fun x hx => ?_
      obtain ⟨hx, hxt⟩ := ((hset1 t (.head _)).mem x).1 hx
      refine ((hset t (.head _)).mem x).2 ⟨by_contra fun hx' => ?_, hxt⟩
      exact hadded x hx hx' hxt
    exact hsame ▸ hdel.grows.out t
  · intro x
    rw [(hset2 t (.head _)).mem, (hset t (.head _)).mem, hedges]
    constructor
    · rintro ⟨⟨hx, hxe⟩, hxt⟩
      exact ⟨⟨by_contra fun hx' => hadded x hx hx' hxt, hxt⟩, hxe⟩
    · rintro ⟨⟨hx, hxt⟩, hxe⟩
      exact ⟨⟨hprep.sub hx, hxe⟩, hxt⟩

include h hp hE₀ hdir hnamed he htail hhead in
theorem Searching.reverseIfNone :
    Meets (reverseIfNone c p t e st) (Ready s₀ st V p e) (Overflows s₀ (V₀ p).edges) := by
  rw [Acyclic.reverseIfNone, h.keeps.desc]
  split
  · rename_i hs
    exact h.reverse hp hE₀ hdir hnamed he htail hhead (.inl ⟨rfl, hs⟩)
  · rename_i hs
    have hs' : s₀.desc.strict = false := by simpa using hs
    split
    · rename_i hname
      refine (h.addRevEdge hp hE₀ hdir hnamed he htail hhead (fun hn => absurd hname hn)
        fun hs' => absurd hs' hs).bind fun st' ⟨f, hadded, hnum⟩ =>
          .inl ⟨f, ⟨hadded.opposite, hadded.added, hadded.info⟩, congrArg (· + 1) hnum⟩
    · rename_i key hname
      exact h.reverse hp hE₀ hdir hnamed he htail hhead (.inr ⟨hs', nofun, hname.symm⟩)

include h hp hE₀ hdir hnamed he htail hhead in
/-- An edge to a node on the stack is reversed or dropped. -/
theorem Searching.backEdge :
    Meets (backEdge c p t e st)
      (fun st' => ∃ V' R' rev', WentBack s₀ V₀ p k st V fin t stack e st' V' R' rev')
      (Overflows s₀ (V₀ p).edges) := by
  refine (h.reverseIfNone hp hE₀ hdir hnamed he htail hhead).bind fun st1 hst1 => ?_
  obtain ⟨V₁, R', rev', hprep⟩ := h.prepared hE₀ he htail hhead hst1
  have hlive1 := hprep.keeps.live.2 (h.keeps.live.2 hp)
  refine (hprep.inv.agdeledge_within hlive1 (hprep.sub he) c).bind fun r ⟨_, hdel⟩ => ?_
  obtain ⟨V', hV'⟩ := h.wentBack hp hE₀ he htail hhead hprep hdel
  exact ⟨V', R', rev', hV'⟩

end BackEdge

end Graphviz.Acyclic
