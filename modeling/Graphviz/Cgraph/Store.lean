import Graphviz.Library.Dict
import Graphviz.Util.Libc
import Graphviz.Util.Fault
import Mathlib

/-!
# The graph store

`lib/cgraph`: `id.c`, `imap.c`, `node.c`, `edge.c`, `subg.c`, `apply.c` and the closing of
subgraphs in `graph.c`. A root graph and its subgraphs are named by their paths, so that the
parent of `id :: p` is `p`; each has a record of its own, and the functions of the source that
follow `agparent` recur on the path.

Nodes and edges are values: a node its identifier and sequence number, an edge its end points,
identifier and sequence number, so that two objects are one pointer when they are equal. The
two halves of an edge pair are one `Agedge`; an in-set holds the in-halves, whose `node` is the
tail, and an out-set the out-halves, whose `node` is the head. The identifier of a named object
is the address of its shared string, here the string. Attributes, records, callbacks and
reference counts are left out: none of them decides what the store holds.
-/

namespace Graphviz

/-- `LOCALNAMEPREFIX`, the character `%`. -/
def LOCALNAMEPREFIX : UInt8 := 37

/-- The kinds of objects. -/
inductive ObjType where
  | AGRAPH
  | AGNODE
  | AGEDGE
  deriving DecidableEq, Repr

/-- `IDTYPE`: the address of a shared string, or the odd number `2 * k + 1`. -/
inductive IdType where
  | named (s : CStr)
  | anon (k : Nat)
  deriving DecidableEq, Repr

/-- The fields of `Agdesc_t` the store reads. -/
structure Agdesc where
  directed : Bool
  strict : Bool
  noLoop : Bool
  deriving DecidableEq, Repr

/-- `Agnode_t`. -/
structure Agnode where
  id : IdType
  seq : Nat
  deriving DecidableEq, Repr

/-- `Agedgepair_t`. -/
structure Agedge where
  tail : Agnode
  head : Agnode
  id : IdType
  seq : Nat
  deriving DecidableEq, Repr

/-- `Agsubnode_t`: a node's image in a graph, with its edges there. -/
structure Agsubnode where
  node : Agnode
  inSeq : List Agedge
  outSeq : List Agedge
  inId : List Agedge
  outId : List Agedge
  deriving DecidableEq

/-- `Agraph_t`: the images of its nodes by identifier, its nodes by sequence number and its
subgraphs, in the order of their sequence numbers. -/
structure Agraph where
  nId : List Agsubnode
  nSeq : List Agnode
  subgs : List IdType
  deriving DecidableEq

/-- A graph as the identifiers on the way from it up to the root, which is `[]`. -/
abbrev GPath := List IdType

/-- A root graph with all its subgraphs, and the state of its closure: the counter of anonymous
identifiers, the sequence numbers last given out and the internal map of local names. -/
structure Store where
  desc : Agdesc
  graphs : GPath → Agraph
  counter : Nat
  seqGraph : Nat
  seqNode : Nat
  seqEdge : Nat
  imap : List (ObjType × CStr × IdType)

/-- The search of an ordered dictionary when several items compare equal to the template: one
of them, which one being a matter of the shape of the tree. -/
structure Cdt where
  pick : List Agedge → Option Agedge
  pick_mem : ∀ l e, pick l = some e → e ∈ l
  pick_none : ∀ l, pick l = none → l = []

/-- `SEQ_MASK`. -/
def SEQ_MASK : Nat := 2 ^ 28 - 1

/-! ## Identifiers -/

namespace Store

/-- `aginternalmaplookup`. -/
def aginternalmaplookup (s : Store) (objtype : ObjType) (str : CStr) : Option IdType :=
  (s.imap.find? fun ent => ent.1 = objtype ∧ ent.2.1 = str).map (·.2.2)

/-- `agmapnametoid` with the identifiers of `AgIdDisc`. -/
def agmapnametoid (s : Store) (objtype : ObjType) (str : Option CStr) (createflag : Bool) :
    Option IdType × Store :=
  match str with
  | none =>
    if createflag then (some (.anon s.counter), { s with counter := s.counter + 1 })
    else (none, s)
  | some str =>
    if str.head? ≠ some LOCALNAMEPREFIX then (some (.named str), s)
    else
      match s.aginternalmaplookup objtype str with
      | some id => (some id, s)
      | none =>
        if createflag then
          (some (.anon s.counter),
            { s with counter := s.counter + 1
                     imap := (objtype, str, .anon s.counter) :: s.imap })
        else (none, s)

/-- `agfreeid`. -/
def agfreeid (s : Store) (objtype : ObjType) (id : IdType) : Store :=
  { s with imap := s.imap.filter fun ent => ¬ (ent.1 = objtype ∧ ent.2.2 = id) }

/-- `aginternalmapclose`, which closes the maps of the whole closure. -/
def aginternalmapclose (s : Store) : Store := { s with imap := [] }

end Store

/-! ## One graph -/

/-- `agsubnodeseqcmpf`. -/
def agsubnodeseqcmpf (m n : Agnode) : Ordering := compare m.seq n.seq

/-- `agedgeseqcmpf`, on the halves whose `node` is given. -/
def agedgeseqcmpf (node : Agedge → Agnode) (e f : Agedge) : Ordering :=
  if node e ≠ node f then compare (node e).seq (node f).seq else compare e.seq f.seq

/-- `agedgeidcmpf`, on the halves whose `node` is given. The order of unequal identifiers is
that of addresses and is never observed. -/
def agedgeidcmpf (node : Agedge → Agnode) (e f : Agedge) : Ordering :=
  if (node e).id = (node f).id ∧ e.id = f.id then .eq else .gt

/-- `del`: the deletion of a half-edge that must be there. -/
def del (cmp : Agedge → Agedge → Ordering) (d : List Agedge) (e : Agedge) :
    Except Fault (List Agedge) :=
  match Dict.delete cmp d e with
  | some d => .ok d
  | none => .error .assertion

namespace Agraph

/-- A graph as `agopen1` leaves it. -/
def empty : Agraph := { nId := [], nSeq := [], subgs := [] }

/-- `agsubrep`. The root's images are stored in the nodes themselves. -/
def agsubrep (g : Agraph) (n : Agnode) : Option Agsubnode :=
  g.nId.find? fun sn => sn.node.id = n.id

/-- `agfindnode_by_id`. -/
def agfindnodeById (g : Agraph) (id : IdType) : Option Agnode :=
  (g.nId.find? fun sn => sn.node.id = id).map (·.node)

/-- A write through the pointer `agsubrep` returns. -/
def setSubrep (g : Agraph) (sn : Agsubnode) : Agraph :=
  { g with nId := g.nId.map fun s => if s.node.id = sn.node.id then sn else s }

/-- `agfindedge_by_key`. The key of a wildcard search is `none`. -/
def agfindedgeByKey (c : Cdt) (g : Agraph) (t h : Agnode) (key : Option IdType) :
    Option Agedge :=
  match g.agsubrep h with
  | none => none
  | some sn => c.pick (sn.inId.filter fun e => e.tail.id = t.id ∧ ∀ id ∈ key, e.id = id)

/-- The insertions of `installedge` into the sets of the tail. -/
def insOut (g : Agraph) (e : Agedge) : Except Fault Agraph :=
  match g.agsubrep e.tail with
  | none => .error .segfault
  | some sn => .ok (g.setSubrep
      { sn with outSeq := Dict.insert (agedgeseqcmpf Agedge.head) sn.outSeq e
                outId := Dict.insert (agedgeidcmpf Agedge.head) sn.outId e })

/-- The insertions of `installedge` into the sets of the head. -/
def insIn (g : Agraph) (e : Agedge) : Except Fault Agraph :=
  match g.agsubrep e.head with
  | none => .error .segfault
  | some sn => .ok (g.setSubrep
      { sn with inSeq := Dict.insert (agedgeseqcmpf Agedge.tail) sn.inSeq e
                inId := Dict.insert (agedgeidcmpf Agedge.tail) sn.inId e })

/-- The deletions of `agdeledgeimage` from the sets of the tail. -/
def delOut (g : Agraph) (e : Agedge) : Except Fault Agraph :=
  match g.agsubrep e.tail with
  | none => .error .segfault
  | some sn => do
    let outSeq ← del (agedgeseqcmpf Agedge.head) sn.outSeq e
    let outId ← del (agedgeidcmpf Agedge.head) sn.outId e
    .ok (g.setSubrep { sn with outSeq := outSeq, outId := outId })

/-- The deletions of `agdeledgeimage` from the sets of the head. -/
def delIn (g : Agraph) (e : Agedge) : Except Fault Agraph :=
  match g.agsubrep e.head with
  | none => .error .segfault
  | some sn => do
    let inSeq ← del (agedgeseqcmpf Agedge.tail) sn.inSeq e
    let inId ← del (agedgeidcmpf Agedge.tail) sn.inId e
    .ok (g.setSubrep { sn with inSeq := inSeq, inId := inId })

/-- `agdeledgeimage`. -/
def agdeledgeimage (e : Agedge) (g : Agraph) : Except Fault Agraph := do
  let g ← g.delOut e
  g.delIn e

/-- The edges `agfstedge` and `agnxtedge` go through: the out-edges, then the in-edges that are
not loops. -/
def edgesOf (g : Agraph) (n : Agnode) : List Agedge :=
  match g.agsubrep n with
  | none => []
  | some sn => sn.outSeq ++ sn.inSeq.filter fun e => e.tail ≠ n

/-- `installnode`. -/
def installnode (g : Agraph) (n : Agnode) : Except Fault Agraph := do
  assert (g.nId.length = g.nSeq.length)
  let sn : Agsubnode := { node := n, inSeq := [], outSeq := [], inId := [], outId := [] }
  let g' : Agraph :=
    { g with nId := g.nId ++ [sn], nSeq := Dict.insert agsubnodeseqcmpf g.nSeq n }
  assert (g'.nId.length = g'.nSeq.length)
  assert (g'.nId.length = g.nId.length + 1)
  .ok g'

/-- `agdelnodeimage`. The next edge is read before an edge is deleted, so the loop goes through
the edges there are at its start. -/
def agdelnodeimage (n : Agnode) (g : Agraph) : Except Fault Agraph := do
  let g ← (g.edgesOf n).foldlM (fun g e => g.agdeledgeimage e) g
  .ok { g with nId := g.nId.eraseP fun sn => sn.node.id = n.id
               nSeq := (Dict.delete agsubnodeseqcmpf g.nSeq n).getD g.nSeq }

end Agraph

namespace Store

/-- The record of a graph, changed. -/
def set (s : Store) (p : GPath) (g : Agraph) : Store :=
  { s with graphs := Function.update s.graphs p g }

/-! ## Installing upwards -/

/-- `installnodetoroot`. -/
def installnodetoroot (n : Agnode) : GPath → Store → Except Fault Store
  | [], s => do .ok (s.set [] (← (s.graphs []).installnode n))
  | id :: p, s => do
    let s := s.set (id :: p) (← (s.graphs (id :: p)).installnode n)
    installnodetoroot n p s

/-- `agsubnode`. -/
def agsubnode (n₀ : Agnode) (cflag : Bool) : GPath → Store → Except Fault (Option Agnode × Store)
  | [], s => .ok ((s.graphs []).agfindnodeById n₀.id, s)
  | id :: p, s =>
    match (s.graphs (id :: p)).agfindnodeById n₀.id with
    | some n => .ok (some n, s)
    | none =>
      if cflag then do
        let (n, s) ← agsubnode n₀ cflag p s
        match n with
        | none => .error .segfault
        | some n => .ok (some n, s.set (id :: p) (← (s.graphs (id :: p)).installnode n))
      else .ok (none, s)

/-- `installedge`: the loop stops at the first graph that has the edge. -/
def installedge (c : Cdt) (e : Agedge) (p : GPath) (s : Store) : Except Fault Store :=
  match (s.graphs p).agfindedgeByKey c e.tail e.head (some e.id) with
  | some _ => .ok s
  | none => do
    let g ← (s.graphs p).insOut e
    let g ← g.insIn e
    match p with
    | [] => .ok (s.set p g)
    | _ :: p' => installedge c e p' (s.set p g)

/-! ## Deleting downwards -/

/-- `rec_apply`, in postorder: `fn` on the images of an object in a graph and in the subgraphs
where `objsearch` finds it. -/
def recApply (fn : Agraph → Except Fault Agraph) (objsearch : Agraph → Bool) :
    Nat → GPath → Store → Except Fault Store
  | 0, _, _ => .error .fuel
  | fuel + 1, p, s => do
    let s ← (s.graphs p).subgs.foldlM (fun s id =>
      if objsearch (s.graphs (id :: p)) then recApply fn objsearch fuel (id :: p) s
      else .ok s) s
    .ok (s.set p (← fn (s.graphs p)))

/-- No path is longer than the number of subgraphs made so far. -/
def depth (s : Store) : Nat := s.seqGraph + 1

/-- `agapply`, in postorder: whether the object was found, and the store. The root's search
returns the object itself. -/
def agapply (s : Store) (fn : Agraph → Except Fault Agraph) (objsearch : Agraph → Bool)
    (p : GPath) : Except Fault (Bool × Store) :=
  if p = [] ∨ objsearch (s.graphs p) then do
    .ok (true, ← recApply fn objsearch s.depth p s)
  else .ok (false, s)

/-- `subnode_search`. -/
def subnodeSearch (n : Agnode) (g : Agraph) : Bool := (g.agfindnodeById n.id).isSome

/-- `subedge_search`, which is `agsubedge` without `cflag`. -/
def subedgeSearch (c : Cdt) (e : Agedge) (g : Agraph) : Bool :=
  (g.agfindnodeById e.tail.id).isSome && (g.agfindnodeById e.head.id).isSome &&
    (g.agfindedgeByKey c e.tail e.head (some e.id)).isSome

/-! ## Nodes -/

/-- `newnode`, `installnodetoroot` and the rest of a creation in `agnode`. -/
def newnode (s : Store) (p : GPath) (id : IdType) : Except Fault (Agnode × Store) := do
  let seq := s.seqNode + 1
  let s := { s with seqNode := seq }
  assert (seq ≤ SEQ_MASK)
  let n : Agnode := { id := id, seq := seq }
  let s ← installnodetoroot n p s
  assert (((s.graphs p).agsubrep n).isSome = true)
  .ok (n, s)

/-- The end of `agnode`: a new node, if one is asked for. -/
def agnodeCreate (s : Store) (p : GPath) (name : Option CStr) (cflag : Bool) :
    Except Fault (Option Agnode × Store) :=
  if cflag then
    match s.agmapnametoid .AGNODE name true with
    | (some id, s) => do
      let (n, s) ← s.newnode p id
      .ok (some n, s)
    | (none, s) => .ok (none, s)
  else .ok (none, s)

/-- `agnode`. -/
def agnode (s : Store) (p : GPath) (name : Option CStr) (cflag : Bool) :
    Except Fault (Option Agnode × Store) :=
  match (s.agmapnametoid .AGNODE name false).1 with
  | none => s.agnodeCreate p name cflag
  | some id =>
    match (s.graphs p).agfindnodeById id with
    | some n => .ok (some n, s)
    | none =>
      if cflag ∧ p ≠ [] then
        match (s.graphs []).agfindnodeById id with
        | some n => agsubnode n true p s
        | none => s.agnodeCreate p name cflag
      else s.agnodeCreate p name cflag

/-! ## Edges -/

/-- `newedge`. -/
def newedge (c : Cdt) (s : Store) (p : GPath) (t h : Agnode) (id : IdType) :
    Except Fault (Agedge × Store) := do
  let (_, s) ← agsubnode t true p s
  let (_, s) ← agsubnode h true p s
  let seq := s.seqEdge + 1
  let s := { s with seqEdge := seq }
  assert (seq ≤ SEQ_MASK)
  let e : Agedge := { tail := t, head := h, id := id, seq := seq }
  .ok (e, ← installedge c e p s)

/-- `ok_to_make_edge`. -/
def okToMakeEdge (c : Cdt) (s : Store) (p : GPath) (t h : Agnode) : Bool :=
  ¬ (s.desc.strict ∧ ((s.graphs p).agfindedgeByKey c t h none).isSome) ∧
    ¬ (s.desc.noLoop ∧ t = h)

/-- A probe of a graph for an edge: in an undirected graph in either orientation. -/
def probe (c : Cdt) (s : Store) (p : GPath) (t h : Agnode) (key : Option IdType) :
    Option Agedge :=
  match (s.graphs p).agfindedgeByKey c t h key with
  | some e => some e
  | none => if s.desc.directed then none else (s.graphs p).agfindedgeByKey c h t key

/-- `agidedge`. -/
def agidedge (c : Cdt) (s : Store) (p : GPath) (t h : Agnode) (id : IdType) (cflag : Bool) :
    Except Fault (Option Agedge × Store) :=
  match s.probe c p t h (some id) with
  | some e => .ok (some e, s)
  | none =>
    if cflag ∧ s.okToMakeEdge c p t h ∧ p ≠ [] then
      match (s.graphs []).agfindedgeByKey c t h (some id) with
      | some e => do .ok (some e, ← installedge c e p s)
      | none => .ok (none, s)
    else .ok (none, s)

/-- The end of `agedge`: a new edge, if one is asked for and allowed. -/
def agedgeCreate (c : Cdt) (s : Store) (p : GPath) (t h : Agnode) (name : Option CStr)
    (cflag : Bool) : Except Fault (Option Agedge × Store) :=
  if cflag ∧ s.okToMakeEdge c p t h then
    match s.agmapnametoid .AGEDGE name true with
    | (some id, s) => do
      let (e, s) ← s.newedge c p t h id
      .ok (some e, s)
    | (none, s) => .ok (none, s)
  else .ok (none, s)

/-- Whether `agedge` probes for an existing edge before it makes one. -/
def probes (s : Store) (name : Option CStr) (cflag : Bool) : Bool :=
  (s.agmapnametoid .AGEDGE name false).1.isSome ∨ (name = none ∧ (¬ cflag ∨ s.desc.strict))

/-- `agedge`. -/
def agedge (c : Cdt) (s : Store) (p : GPath) (t h : Agnode) (name : Option CStr)
    (cflag : Bool) : Except Fault (Option Agedge × Store) :=
  -- without an identifier the key is a wildcard
  let key := (s.agmapnametoid .AGEDGE name false).1
  if s.probes name cflag then
    match s.probe c p t h key with
    | some e => .ok (some e, s)
    | none =>
      if cflag then
        match s.probe c [] t h key with
        | some e => do .ok (some e, ← installedge c e p s)
        | none => s.agedgeCreate c p t h name cflag
      else .ok (none, s)
  else s.agedgeCreate c p t h name cflag

/-- `agsubedge`. -/
def agsubedge (c : Cdt) (s : Store) (p : GPath) (e : Agedge) (cflag : Bool) :
    Except Fault (Option Agedge × Store) := do
  let (t, s) ← agsubnode e.tail cflag p s
  if t.isSome ∨ cflag then
    let (h, s) ← agsubnode e.head cflag p s
    match t, h with
    | some t, some h =>
      match (s.graphs p).agfindedgeByKey c t h (some e.id) with
      | some f => .ok (some f, s)
      | none => if cflag then .ok (some e, ← installedge c e p s) else .ok (none, s)
    | _, _ => .ok (none, s)
  else .ok (none, s)

/-- `agdeledge`: whether it succeeded, and the store. -/
def agdeledge (c : Cdt) (s : Store) (p : GPath) (e : Agedge) : Except Fault (Bool × Store) :=
  match (s.graphs p).agfindedgeByKey c e.tail e.head (some e.id) with
  | none => .ok (false, s)
  | some _ =>
    let s := if p = [] then s.agfreeid .AGEDGE e.id else s
    s.agapply (Agraph.agdeledgeimage e) (subedgeSearch c e) p

/-- `agdelnode`: whether it succeeded, and the store. -/
def agdelnode (c : Cdt) (s : Store) (p : GPath) (n : Agnode) : Except Fault (Bool × Store) :=
  match (s.graphs p).agfindnodeById n.id with
  | none => .ok (false, s)
  | some _ => do
    let s ←
      if p = [] then do
        let s ← ((s.graphs []).edgesOf n).foldlM (fun s e => Prod.snd <$> s.agdeledge c [] e) s
        .ok (s.agfreeid .AGNODE n.id)
      else .ok s
    s.agapply (Agraph.agdelnodeimage n) (subnodeSearch n) p

/-! ## Subgraphs -/

/-- `localsubg`, for an identifier that is not yet a subgraph's: `agopen1` of a new record. -/
def localsubg (s : Store) (p : GPath) (id : IdType) : Except Fault Store := do
  let seq := s.seqGraph + 1
  let s := { s with seqGraph := seq }
  assert (seq ≤ SEQ_MASK)
  let s := s.set (id :: p) .empty
  .ok (s.set p { s.graphs p with subgs := (s.graphs p).subgs ++ [id] })

/-- `agsubg`. -/
def agsubg (s : Store) (p : GPath) (name : Option CStr) (cflag : Bool) :
    Except Fault (Option GPath × Store) :=
  let found := (s.agmapnametoid .AGRAPH name false).1.filter fun id => id ∈ (s.graphs p).subgs
  match found with
  | some id => .ok (some (id :: p), s)
  | none =>
    if cflag then
      match s.agmapnametoid .AGRAPH name true with
      | (some id, s) =>
        if id ∈ (s.graphs p).subgs then .ok (some (id :: p), s)
        else do .ok (some (id :: p), ← s.localsubg p id)
      | (none, s) => .ok (none, s)
    else .ok (none, s)

/-- `agclose` of a subgraph. The next subgraph and the next node are read before one goes. -/
def agclose (c : Cdt) : Nat → IdType → GPath → Store → Except Fault Store
  | 0, _, _, _ => .error .fuel
  | fuel + 1, id, par, s => do
    let p := id :: par
    let s ← (s.graphs p).subgs.foldlM (fun s sub => agclose c fuel sub p s) s
    let s ← (s.graphs p).nSeq.foldlM (fun s n => Prod.snd <$> s.agdelnode c p n) s
    let s := s.aginternalmapclose
    assert ((s.graphs p).nId = [])
    assert ((s.graphs p).nSeq = [])
    assert ((s.graphs p).subgs = [])
    let s := s.agfreeid .AGRAPH id
    .ok (s.set par { s.graphs par with subgs := (s.graphs par).subgs.erase id })

/-- `agopen`. -/
def agopen (desc : Agdesc) (name : Option CStr) : Store :=
  (agmapnametoid
    { desc := desc, graphs := fun _ => .empty, counter := 0, seqGraph := 0, seqNode := 0
      seqEdge := 0, imap := [] } .AGRAPH name true).2

end Store

/-! ## Operations -/

/-- The operations on an open graph. A graph argument is a path, `agclose` that of a
subgraph. -/
inductive StoreOp where
  | agsubg (g : GPath) (name : Option CStr) (cflag : Bool)
  | agnode (g : GPath) (name : Option CStr) (cflag : Bool)
  | agsubnode (g : GPath) (n : Agnode) (cflag : Bool)
  | agedge (g : GPath) (t h : Agnode) (name : Option CStr) (cflag : Bool)
  | agsubedge (g : GPath) (e : Agedge) (cflag : Bool)
  | agidedge (g : GPath) (t h : Agnode) (id : IdType) (cflag : Bool)
  | agdeledge (g : GPath) (e : Agedge)
  | agdelnode (g : GPath) (n : Agnode)
  | agclose (id : IdType) (parent : GPath)

/-- The store after an operation. -/
def Store.step (c : Cdt) (s : Store) : StoreOp → Except Fault Store
  | .agsubg g name cflag => Prod.snd <$> s.agsubg g name cflag
  | .agnode g name cflag => Prod.snd <$> s.agnode g name cflag
  | .agsubnode g n cflag => Prod.snd <$> Store.agsubnode n cflag g s
  | .agedge g t h name cflag => Prod.snd <$> s.agedge c g t h name cflag
  | .agsubedge g e cflag => Prod.snd <$> s.agsubedge c g e cflag
  | .agidedge g t h id cflag => Prod.snd <$> s.agidedge c g t h id cflag
  | .agdeledge g e => Prod.snd <$> s.agdeledge c g e
  | .agdelnode g n => Prod.snd <$> s.agdelnode c g n
  | .agclose id parent => Store.agclose c s.depth id parent s

end Graphviz
