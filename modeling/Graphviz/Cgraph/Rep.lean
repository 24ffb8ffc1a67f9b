import Graphviz.Cgraph.Store

/-!
# What the record of a graph holds

A graph is a set of nodes and a set of edges; its record keeps each in several dictionaries.
`Agraph.Rep` ties the two together, with the edges of the out-sets and those of the in-sets
apart, since an installation or a deletion changes them one after the other. Each function on
one record gets one lemma, in the terms of the sets. The comparators tell items apart within a
`View` whose objects are `Distinct`, which the root's are.
-/

namespace Graphviz

open List Outcome

/-- A graph's nodes and edges. -/
@[ext] structure View where
  nodes : Set Agnode
  edges : Set Agedge

namespace View

/-- Identifiers and sequence numbers tell nodes apart, sequence numbers tell edges apart, and
so do identifiers among the edges between two nodes; end points are nodes. -/
structure Distinct (v : View) : Prop where
  node_id : ∀ m ∈ v.nodes, ∀ n ∈ v.nodes, m.id = n.id → m = n
  node_seq : ∀ m ∈ v.nodes, ∀ n ∈ v.nodes, m.seq = n.seq → m = n
  edge_id : ∀ e ∈ v.edges, ∀ f ∈ v.edges, e.tail = f.tail → e.head = f.head → e.id = f.id →
    e = f
  edge_seq : ∀ e ∈ v.edges, ∀ f ∈ v.edges, e.seq = f.seq → e = f
  tail_mem : ∀ e ∈ v.edges, e.tail ∈ v.nodes
  head_mem : ∀ e ∈ v.edges, e.head ∈ v.nodes

/-- One graph's nodes and edges are among another's. -/
structure Sub (v w : View) : Prop where
  nodes : v.nodes ⊆ w.nodes
  edges : v.edges ⊆ w.edges

theorem Sub.refl (v : View) : v.Sub v := ⟨subset_rfl, subset_rfl⟩

theorem Sub.trans {u v w : View} (h : u.Sub v) (h' : v.Sub w) : u.Sub w :=
  ⟨h.nodes.trans h'.nodes, h.edges.trans h'.edges⟩

end View

variable {U : View}

/-! ## Comparators -/

/-- The comparator of the sequence sets tells the edges of a graph apart, by either end. -/
theorem agedgeseqcmpf_eq_iff (hU : U.Distinct) {node : Agedge → Agnode}
    (hnode : ∀ e ∈ U.edges, node e ∈ U.nodes) {e f : Agedge} (he : e ∈ U.edges)
    (hf : f ∈ U.edges) : agedgeseqcmpf node e f = .eq ↔ e = f := by
  rw [agedgeseqcmpf]
  split
  · rename_i hne
    rw [compare_eq_iff_eq]
    constructor
    · intro h
      exact absurd (hU.node_seq _ (hnode e he) _ (hnode f hf) h) hne
    · rintro rfl
      exact absurd rfl hne
  · rw [compare_eq_iff_eq]
    exact ⟨hU.edge_seq e he f hf, fun h => by rw [h]⟩

/-- The comparator of the identifier sets tells the out-edges of a node apart. -/
theorem agedgeidcmpf_head_eq_iff (hU : U.Distinct) {e f : Agedge} (he : e ∈ U.edges)
    (hf : f ∈ U.edges) (ht : e.tail = f.tail) : agedgeidcmpf Agedge.head e f = .eq ↔ e = f := by
  rw [agedgeidcmpf]
  split
  · rename_i h
    have hh := hU.node_id _ (hU.head_mem e he) _ (hU.head_mem f hf) h.1
    exact ⟨fun _ => hU.edge_id e he f hf ht hh h.2, fun _ => rfl⟩
  · rename_i h
    exact ⟨fun hc => (by cases hc), fun hc => absurd (by rw [hc]; exact ⟨rfl, rfl⟩) h⟩

/-- The comparator of the identifier sets tells the in-edges of a node apart. -/
theorem agedgeidcmpf_tail_eq_iff (hU : U.Distinct) {e f : Agedge} (he : e ∈ U.edges)
    (hf : f ∈ U.edges) (hh : e.head = f.head) : agedgeidcmpf Agedge.tail e f = .eq ↔ e = f := by
  rw [agedgeidcmpf]
  split
  · rename_i h
    have ht := hU.node_id _ (hU.tail_mem e he) _ (hU.tail_mem f hf) h.1
    exact ⟨fun _ => hU.edge_id e he f hf ht hh h.2, fun _ => rfl⟩
  · rename_i h
    exact ⟨fun hc => (by cases hc), fun hc => absurd (by rw [hc]; exact ⟨rfl, rfl⟩) h⟩

/-! ## Representation -/

/-- A list without repetitions of the members of a set. -/
structure IsSet {α : Type} (l : List α) (S : Set α) : Prop where
  nodup : l.Nodup
  mem : ∀ x, x ∈ l ↔ x ∈ S

/-- The sets of a node's image hold its edges. -/
structure Agsubnode.Holds (sn : Agsubnode) (outs ins : Set Agedge) : Prop where
  outSeq : IsSet sn.outSeq {e | e ∈ outs ∧ e.tail = sn.node}
  outId : IsSet sn.outId {e | e ∈ outs ∧ e.tail = sn.node}
  inSeq : IsSet sn.inSeq {e | e ∈ ins ∧ e.head = sn.node}
  inId : IsSet sn.inId {e | e ∈ ins ∧ e.head = sn.node}

/-- A record holds nodes and edges: `n_id` and `n_seq` the same nodes, the two out-sets of each
node its edges among `outs`, and the two in-sets its edges among `ins`. -/
structure Agraph.Rep (g : Agraph) (nodes : Set Agnode) (outs ins : Set Agedge) : Prop where
  nId : IsSet (g.nId.map (·.node)) nodes
  nSeq : IsSet g.nSeq nodes
  holds : ∀ sn ∈ g.nId, sn.Holds outs ins

namespace IsSet

variable {α : Type} {l : List α} {S : Set α} {x : α} {cmp : α → α → Ordering}

/-- An insertion into a dictionary inserts into its set. -/
theorem insert (h : IsSet l S) (hs : Dict.Separates cmp l x) (hx : x ∉ S) :
    IsSet (Dict.insert cmp l x) (insert x S) where
  nodup := Dict.nodup_insert hs h.nodup fun hm => hx ((h.mem x).1 hm)
  mem y := by rw [Dict.mem_insert hs, h.mem y]; rfl

/-- A deletion from a dictionary deletes from its set. -/
theorem delete (h : IsSet l S) (hs : Dict.Separates cmp l x) (hx : x ∈ S) :
    ∃ l', Dict.delete cmp l x = some l' ∧ IsSet l' (S \ {x}) := by
  obtain ⟨l', hl, hn, hm⟩ := Dict.delete_eq_some hs h.nodup ((h.mem x).2 hx)
  refine ⟨l', hl, hn, fun y => ?_⟩
  rw [hm y, h.mem y, Set.mem_sdiff, Set.mem_singleton_iff]
  tauto

/-- Erasing by a test that only `x` passes deletes `x`. -/
theorem eraseP (h : IsSet l S) {p : α → Bool} (hp : ∀ y ∈ l, p y = true ↔ x = y) (hx : x ∈ S) :
    IsSet (l.eraseP p) (S \ {x}) where
  nodup := h.nodup.sublist List.eraseP_sublist
  mem y := by
    rw [Dict.mem_eraseP hp h.nodup ((h.mem x).2 hx), h.mem y, Set.mem_sdiff, Set.mem_singleton_iff]
    tauto

theorem congr {T : Set α} (h : IsSet l S) (hST : ∀ x, x ∈ S ↔ x ∈ T) : IsSet l T :=
  ⟨h.nodup, fun x => (h.mem x).trans (hST x)⟩

/-- Two lists of one set are equally long. -/
theorem length_eq {l' : List α} (h : IsSet l S) (h' : IsSet l' S) : l.length = l'.length :=
  ((perm_ext_iff_of_nodup h.nodup h'.nodup).2 fun x =>
    (h.mem x).trans (h'.mem x).symm).length_eq

end IsSet

namespace Agraph

variable {g : Agraph} {N : Set Agnode} {O I : Set Agedge} {n : Agnode} {e : Agedge}

/-- The record of no nodes. -/
theorem Rep.empty : Rep .empty ∅ ∅ ∅ :=
  ⟨⟨nodup_nil, fun x => by simp [Agraph.empty]⟩,
    ⟨nodup_nil, fun x => by simp [Agraph.empty]⟩, fun sn h => by cases h⟩

theorem Rep.node_mem (h : Rep g N O I) {sn : Agsubnode} (hsn : sn ∈ g.nId) : sn.node ∈ N :=
  (h.nId.mem _).1 (mem_map_of_mem hsn)

theorem Rep.exists_image (h : Rep g N O I) (hn : n ∈ N) : ∃ sn ∈ g.nId, sn.node = n :=
  mem_map.1 ((h.nId.mem n).2 hn)

/-! ## Searches -/

/-- `agfindnode_by_id` returns a node with the identifier. -/
theorem Rep.of_agfindnodeById (h : Rep g N O I) {id : IdType}
    (hf : g.agfindnodeById id = some n) : n ∈ N ∧ n.id = id := by
  rw [agfindnodeById, Option.map_eq_some_iff] at hf
  obtain ⟨sn, hs, rfl⟩ := hf
  exact ⟨h.node_mem (mem_of_find?_eq_some hs), by simpa using find?_some hs⟩

/-- `agfindnode_by_id` returns null only when no node has the identifier. -/
theorem Rep.of_agfindnodeById_none (h : Rep g N O I) {id : IdType}
    (hf : g.agfindnodeById id = none) (hn : n ∈ N) : n.id ≠ id := by
  rw [agfindnodeById, Option.map_eq_none_iff, find?_eq_none] at hf
  obtain ⟨sn, hs, rfl⟩ := h.exists_image hn
  simpa using hf sn hs

/-- `agfindnode_by_id` finds a node of the graph. -/
theorem Rep.agfindnodeById_mem (h : Rep g N O I) (hU : U.Distinct) (hN : N ⊆ U.nodes)
    (hn : n ∈ N) : g.agfindnodeById n.id = some n := by
  cases hf : g.agfindnodeById n.id with
  | none => exact absurd rfl (h.of_agfindnodeById_none hf hn)
  | some m =>
    obtain ⟨hm, hid⟩ := h.of_agfindnodeById hf
    rw [hU.node_id m (hN hm) n (hN hn) hid]

/-- `agfindnode_by_id` does not find a node that is elsewhere only. -/
theorem Rep.agfindnodeById_not_mem (h : Rep g N O I) (hU : U.Distinct) (hN : N ⊆ U.nodes)
    (hnU : n ∈ U.nodes) (hn : n ∉ N) : g.agfindnodeById n.id = none := by
  cases hf : g.agfindnodeById n.id with
  | none => rfl
  | some m =>
    obtain ⟨hm, hid⟩ := h.of_agfindnodeById hf
    exact absurd (hU.node_id m (hN hm) n hnU hid ▸ hm) hn

/-- `agsubrep` returns the image of a node of the graph. -/
theorem Rep.agsubrep_mem (h : Rep g N O I) (hU : U.Distinct) (hN : N ⊆ U.nodes)
    (hn : n ∈ N) : ∃ sn ∈ g.nId, sn.node = n ∧ g.agsubrep n = some sn := by
  have hf := h.agfindnodeById_mem hU hN hn
  rw [agfindnodeById, Option.map_eq_some_iff] at hf
  obtain ⟨sn, hs, hsn⟩ := hf
  exact ⟨sn, mem_of_find?_eq_some hs, hsn, hs⟩

/-- `agsubrep` returns null for a node that is elsewhere only. -/
theorem Rep.agsubrep_not_mem (h : Rep g N O I) (hU : U.Distinct) (hN : N ⊆ U.nodes)
    (hnU : n ∈ U.nodes) (hn : n ∉ N) : g.agsubrep n = none := by
  have hf := h.agfindnodeById_not_mem hU hN hnU hn
  rwa [agfindnodeById, Option.map_eq_none_iff] at hf

/-- `agfindedge_by_key` returns an in-edge of the head, from the tail, with the key. -/
theorem Rep.of_agfindedgeByKey (h : Rep g N O I) (hU : U.Distinct) (hN : N ⊆ U.nodes)
    (hI : I ⊆ U.edges) {c : Cdt} {t hd : Agnode} (ht : t ∈ U.nodes) (hh : hd ∈ U.nodes)
    {key : Option IdType} (hf : g.agfindedgeByKey c t hd key = some e) :
    e ∈ I ∧ e.tail = t ∧ e.head = hd ∧ ∀ id ∈ key, e.id = id := by
  by_cases hm : hd ∈ N
  · obtain ⟨sn, hs, hsn, hr⟩ := h.agsubrep_mem hU hN hm
    rw [agfindedgeByKey, hr] at hf
    have := c.pick_mem _ _ hf
    rw [mem_filter, ((h.holds sn hs).inId).mem] at this
    obtain ⟨⟨heI, hhead⟩, hp⟩ := this
    have hp : e.tail.id = t.id ∧ ∀ id ∈ key, e.id = id := by simpa using hp
    exact ⟨heI, hU.node_id _ (hU.tail_mem e (hI heI)) t ht hp.1, hhead.trans hsn, hp.2⟩
  · rw [agfindedgeByKey, h.agsubrep_not_mem hU hN hh hm] at hf
    cases hf

/-- `agfindedge_by_key` returns null only when there is no such edge. -/
theorem Rep.of_agfindedgeByKey_none (h : Rep g N O I) (hU : U.Distinct) (hN : N ⊆ U.nodes)
    {c : Cdt} {key : Option IdType} (hf : g.agfindedgeByKey c e.tail e.head key = none)
    (hh : e.head ∈ N) (he : e ∈ I) : ¬ ∀ id ∈ key, e.id = id := by
  obtain ⟨sn, hs, hsn, hr⟩ := h.agsubrep_mem hU hN hh
  rw [agfindedgeByKey, hr] at hf
  have hnil := c.pick_none _ hf
  intro hkey
  have : e ∈ sn.inId.filter fun f => f.tail.id = e.tail.id ∧ ∀ id ∈ key, f.id = id := by
    rw [mem_filter, ((h.holds sn hs).inId).mem]
    exact ⟨⟨he, hsn.symm⟩, by simpa using hkey⟩
  rw [hnil] at this
  cases this

/-- Searched by its own identifier, an edge is found where it is. -/
theorem Rep.agfindedgeByKey_eq (h : Rep g N O I) (hU : U.Distinct) (hN : N ⊆ U.nodes)
    (hI : I ⊆ U.edges) (hIN : ∀ f ∈ I, f.head ∈ N) (he : e ∈ U.edges) (c : Cdt) :
    g.agfindedgeByKey c e.tail e.head (some e.id) = some e ∧ e ∈ I ∨
      g.agfindedgeByKey c e.tail e.head (some e.id) = none ∧ e ∉ I := by
  cases hf : g.agfindedgeByKey c e.tail e.head (some e.id) with
  | none =>
    refine .inr ⟨rfl, fun hm => ?_⟩
    exact h.of_agfindedgeByKey_none hU hN hf (hIN e hm) hm (by simp)
  | some f =>
    obtain ⟨hfI, ht, hh, hid⟩ := h.of_agfindedgeByKey hU hN hI (hU.tail_mem e he)
      (hU.head_mem e he) hf
    have := hU.edge_id f (hI hfI) e he ht hh (hid _ rfl)
    exact .inl ⟨by rw [this], this ▸ hfI⟩

/-! ## Changing a node's sets -/

/-- Writing one image keeps the nodes; every other image must still hold its edges. -/
theorem Rep.setSubrep (h : Rep g N O I) (hU : U.Distinct) (hN : N ⊆ U.nodes)
    {sn sn' : Agsubnode} (hsn : sn ∈ g.nId) (hnode : sn'.node = sn.node) {O' I' : Set Agedge}
    (hnew : sn'.Holds O' I') (hold : ∀ s ∈ g.nId, s.node ≠ sn.node → s.Holds O' I') :
    Rep (g.setSubrep sn') N O' I' := by
  have hmap : (g.setSubrep sn').nId.map (·.node) = g.nId.map (·.node) := by
    rw [Agraph.setSubrep, map_map]
    refine map_congr_left fun s hs => ?_
    rw [Function.comp_apply]
    split
    · rename_i hid
      rw [hnode] at hid ⊢
      exact (hU.node_id _ (hN (h.node_mem hs)) _ (hN (h.node_mem hsn)) hid).symm
    · rfl
  refine ⟨by rw [hmap]; exact h.nId, h.nSeq, fun s hs => ?_⟩
  obtain ⟨s0, hs0, rfl⟩ := mem_map.1 hs
  split
  · exact hnew
  · rename_i hid
    exact hold s0 hs0 fun he => hid (by rw [he, hnode])

/-- Writing the out-sets of one node changes the out-edges of that node alone. -/
theorem Rep.setOut (h : Rep g N O I) (hU : U.Distinct) (hN : N ⊆ U.nodes) {sn : Agsubnode}
    (hsn : sn ∈ g.nId) {O' : Set Agedge} (hO : ∀ f, f.tail ≠ sn.node → (f ∈ O ↔ f ∈ O'))
    {outSeq outId : List Agedge} (hseq : IsSet outSeq {f | f ∈ O' ∧ f.tail = sn.node})
    (hid : IsSet outId {f | f ∈ O' ∧ f.tail = sn.node}) :
    Rep (g.setSubrep { sn with outSeq := outSeq, outId := outId }) N O' I := by
  have hsets := h.holds sn hsn
  refine h.setSubrep hU hN hsn ?_ ⟨hseq, hid, hsets.inSeq, hsets.inId⟩ fun s hs hne => ?_
  · rfl
  · have hset := h.holds s hs
    have hsame : ∀ x, x ∈ {f | f ∈ O ∧ f.tail = s.node} ↔ x ∈ {f | f ∈ O' ∧ f.tail = s.node} :=
      fun x => and_congr_left fun hx => hO x (hx ▸ hne)
    exact ⟨hset.outSeq.congr hsame, hset.outId.congr hsame, hset.inSeq, hset.inId⟩

/-- Writing the in-sets of one node changes the in-edges of that node alone. -/
theorem Rep.setIn (h : Rep g N O I) (hU : U.Distinct) (hN : N ⊆ U.nodes) {sn : Agsubnode}
    (hsn : sn ∈ g.nId) {I' : Set Agedge} (hI : ∀ f, f.head ≠ sn.node → (f ∈ I ↔ f ∈ I'))
    {inSeq inId : List Agedge} (hseq : IsSet inSeq {f | f ∈ I' ∧ f.head = sn.node})
    (hid : IsSet inId {f | f ∈ I' ∧ f.head = sn.node}) :
    Rep (g.setSubrep { sn with inSeq := inSeq, inId := inId }) N O I' := by
  have hsets := h.holds sn hsn
  refine h.setSubrep hU hN hsn ?_ ⟨hsets.outSeq, hsets.outId, hseq, hid⟩ fun s hs hne => ?_
  · rfl
  · have hset := h.holds s hs
    have hsame : ∀ x, x ∈ {f | f ∈ I ∧ f.head = s.node} ↔ x ∈ {f | f ∈ I' ∧ f.head = s.node} :=
      fun x => and_congr_left fun hx => hI x (hx ▸ hne)
    exact ⟨hset.outSeq, hset.outId, hset.inSeq.congr hsame, hset.inId.congr hsame⟩

theorem mem_insert_ne {S : Set Agedge} {f : Agedge} (hne : f ≠ e) : f ∈ S ↔ f ∈ insert e S := by
  simp [hne]

theorem mem_sdiff_ne {S : Set Agedge} {f : Agedge} (hne : f ≠ e) : f ∈ S ↔ f ∈ S \ {e} := by
  simp [hne]

/-- Inserting an edge into a part of a set it belongs to. -/
theorem mem_insert_part {S : Set Agedge} {p : Agedge → Prop} (he : p e) (f : Agedge) :
    f ∈ insert e {f | f ∈ S ∧ p f} ↔ f ∈ {f | f ∈ insert e S ∧ p f} := by
  constructor
  · rintro (rfl | hf)
    · exact ⟨.inl rfl, he⟩
    · exact ⟨.inr hf.1, hf.2⟩
  · rintro ⟨rfl | hf, hp⟩
    · exact .inl rfl
    · exact .inr ⟨hf, hp⟩

/-- Deleting an edge from a part of a set. -/
theorem mem_sdiff_part {S : Set Agedge} {p : Agedge → Prop} (f : Agedge) :
    f ∈ {f | f ∈ S ∧ p f} \ {e} ↔ f ∈ {f | f ∈ S \ {e} ∧ p f} := by
  show (_ ∧ _) ∧ _ ↔ (_ ∧ _) ∧ _
  tauto

section Sets

variable (h : Rep g N O I) (hU : U.Distinct) (hN : N ⊆ U.nodes) (he : e ∈ U.edges)
  {E : Fault → Prop}

include h hU he

theorem Rep.separates_outSeq (hO : O ⊆ U.edges) {sn : Agsubnode} (hsn : sn ∈ g.nId) :
    Dict.Separates (agedgeseqcmpf Agedge.head) sn.outSeq e := fun f hf =>
  agedgeseqcmpf_eq_iff hU hU.head_mem he (hO (((h.holds sn hsn).outSeq.mem f).1 hf).1)

theorem Rep.separates_outId (hO : O ⊆ U.edges) {sn : Agsubnode} (hsn : sn ∈ g.nId)
    (ht : sn.node = e.tail) : Dict.Separates (agedgeidcmpf Agedge.head) sn.outId e := by
  intro f hf
  obtain ⟨hfO, hft⟩ := ((h.holds sn hsn).outId.mem f).1 hf
  exact agedgeidcmpf_head_eq_iff hU he (hO hfO) (ht.symm.trans hft.symm)

theorem Rep.separates_inSeq (hI : I ⊆ U.edges) {sn : Agsubnode} (hsn : sn ∈ g.nId) :
    Dict.Separates (agedgeseqcmpf Agedge.tail) sn.inSeq e := fun f hf =>
  agedgeseqcmpf_eq_iff hU hU.tail_mem he (hI (((h.holds sn hsn).inSeq.mem f).1 hf).1)

theorem Rep.separates_inId (hI : I ⊆ U.edges) {sn : Agsubnode} (hsn : sn ∈ g.nId)
    (hh : sn.node = e.head) : Dict.Separates (agedgeidcmpf Agedge.tail) sn.inId e := by
  intro f hf
  obtain ⟨hfI, hfh⟩ := ((h.holds sn hsn).inId.mem f).1 hf
  exact agedgeidcmpf_tail_eq_iff hU he (hI hfI) (hh.symm.trans hfh.symm)

include hN

/-- The insertions into the sets of the tail. -/
theorem Rep.insOut (hO : O ⊆ U.edges) (ht : e.tail ∈ N) (heO : e ∉ O) :
    Meets (g.insOut e) (fun g' => Rep g' N (insert e O) I ∧ g'.subgs = g.subgs) E := by
  obtain ⟨sn, hs, hsn, hr⟩ := h.agsubrep_mem hU hN ht
  have hsets := h.holds sn hs
  have hx : e ∉ {f | f ∈ O ∧ f.tail = sn.node} := fun hm => heO hm.1
  rw [Agraph.insOut, hr]
  refine ⟨h.setOut hU hN hs (fun f hf => mem_insert_ne fun hfe => ?_) ?_ ?_, rfl⟩
  · exact hf (by rw [hfe, hsn])
  · exact (hsets.outSeq.insert (h.separates_outSeq hU he hO hs) hx).congr
      (mem_insert_part hsn.symm)
  · exact (hsets.outId.insert (h.separates_outId hU he hO hs hsn) hx).congr
      (mem_insert_part hsn.symm)

/-- The insertions into the sets of the head. -/
theorem Rep.insIn (hI : I ⊆ U.edges) (hh : e.head ∈ N) (heI : e ∉ I) :
    Meets (g.insIn e) (fun g' => Rep g' N O (insert e I) ∧ g'.subgs = g.subgs) E := by
  obtain ⟨sn, hs, hsn, hr⟩ := h.agsubrep_mem hU hN hh
  have hsets := h.holds sn hs
  have hx : e ∉ {f | f ∈ I ∧ f.head = sn.node} := fun hm => heI hm.1
  rw [Agraph.insIn, hr]
  refine ⟨h.setIn hU hN hs (fun f hf => mem_insert_ne fun hfe => ?_) ?_ ?_, rfl⟩
  · exact hf (by rw [hfe, hsn])
  · exact (hsets.inSeq.insert (h.separates_inSeq hU he hI hs) hx).congr
      (mem_insert_part hsn.symm)
  · exact (hsets.inId.insert (h.separates_inId hU he hI hs hsn) hx).congr
      (mem_insert_part hsn.symm)

/-- The deletions from the sets of the tail. -/
theorem Rep.delOut (hO : O ⊆ U.edges) (ht : e.tail ∈ N) (heO : e ∈ O) :
    Meets (g.delOut e) (fun g' => Rep g' N (O \ {e}) I ∧ g'.subgs = g.subgs) E := by
  obtain ⟨sn, hs, hsn, hr⟩ := h.agsubrep_mem hU hN ht
  have hsets := h.holds sn hs
  have hx : e ∈ {f | f ∈ O ∧ f.tail = sn.node} := ⟨heO, hsn.symm⟩
  obtain ⟨l1, hl1, hset1⟩ := hsets.outSeq.delete (h.separates_outSeq hU he hO hs) hx
  obtain ⟨l2, hl2, hset2⟩ := hsets.outId.delete (h.separates_outId hU he hO hs hsn) hx
  simp only [Agraph.delOut, hr, del, hl1, hl2]
  refine ⟨h.setOut hU hN hs (fun f hf => mem_sdiff_ne fun hfe => ?_) (hset1.congr mem_sdiff_part)
    (hset2.congr mem_sdiff_part), rfl⟩
  exact hf (by rw [hfe, hsn])

/-- The deletions from the sets of the head. -/
theorem Rep.delIn (hI : I ⊆ U.edges) (hh : e.head ∈ N) (heI : e ∈ I) :
    Meets (g.delIn e) (fun g' => Rep g' N O (I \ {e}) ∧ g'.subgs = g.subgs) E := by
  obtain ⟨sn, hs, hsn, hr⟩ := h.agsubrep_mem hU hN hh
  have hsets := h.holds sn hs
  have hx : e ∈ {f | f ∈ I ∧ f.head = sn.node} := ⟨heI, hsn.symm⟩
  obtain ⟨l1, hl1, hset1⟩ := hsets.inSeq.delete (h.separates_inSeq hU he hI hs) hx
  obtain ⟨l2, hl2, hset2⟩ := hsets.inId.delete (h.separates_inId hU he hI hs hsn) hx
  simp only [Agraph.delIn, hr, del, hl1, hl2]
  refine ⟨h.setIn hU hN hs (fun f hf => mem_sdiff_ne fun hfe => ?_) (hset1.congr mem_sdiff_part)
    (hset2.congr mem_sdiff_part), rfl⟩
  exact hf (by rw [hfe, hsn])

/-- The insertions of `installedge` into one graph. -/
theorem Rep.install (hO : O ⊆ U.edges) (hI : I ⊆ U.edges) (ht : e.tail ∈ N) (hh : e.head ∈ N)
    (heO : e ∉ O) (heI : e ∉ I) :
    Meets (g.insOut e >>= fun g => g.insIn e)
      (fun g' => Rep g' N (insert e O) (insert e I) ∧ g'.subgs = g.subgs) E := by
  refine (h.insOut hU hN he hO ht heO).bind fun g1 ⟨h1, hs1⟩ => ?_
  exact (h1.insIn hU hN he hI hh heI).imp fun g2 ⟨h2, hs2⟩ => ⟨h2, hs2.trans hs1⟩

/-- `agdeledgeimage` deletes an edge of the graph. -/
theorem Rep.agdeledgeimage (hO : O ⊆ U.edges) (hI : I ⊆ U.edges) (ht : e.tail ∈ N)
    (hh : e.head ∈ N) (heO : e ∈ O) (heI : e ∈ I) :
    Meets (g.agdeledgeimage e) (fun g' => Rep g' N (O \ {e}) (I \ {e}) ∧ g'.subgs = g.subgs) E := by
  refine (h.delOut hU hN he hO ht heO).bind fun g1 ⟨h1, hs1⟩ => ?_
  exact (h1.delIn hU hN he hI hh heI).imp fun g2 ⟨h2, hs2⟩ => ⟨h2, hs2.trans hs1⟩

end Sets

/-! ## Nodes -/

/-- The end points of the edges are nodes. -/
structure Ends (N : Set Agnode) (S : Set Agedge) : Prop where
  tail : ∀ f ∈ S, f.tail ∈ N
  head : ∀ f ∈ S, f.head ∈ N

/-- The edges of a set with neither end at `n`. -/
def away (n : Agnode) (S : Set Agedge) : Set Agedge := {f | f ∈ S ∧ f.tail ≠ n ∧ f.head ≠ n}

theorem separates_nSeq (h : Rep g N O I) (hU : U.Distinct) (hN : N ⊆ U.nodes)
    (hn : n ∈ U.nodes) : Dict.Separates agsubnodeseqcmpf g.nSeq n := by
  intro m hm
  rw [agsubnodeseqcmpf, compare_eq_iff_eq]
  exact ⟨hU.node_seq n hn m (hN ((h.nSeq.mem m).1 hm)), fun he => by rw [he]⟩

/-- `installnode` adds a node, with no edges. -/
theorem Rep.installnode {S : Set Agedge} (h : Rep g N S S) (hU : U.Distinct) (hN : N ⊆ U.nodes)
    (hS : Ends N S) (hnU : n ∈ U.nodes) (hn : n ∉ N) {E : Fault → Prop} :
    Meets (g.installnode n) (fun g' => Rep g' (insert n N) S S ∧ g'.subgs = g.subgs) E := by
  have hlen : g.nId.length = g.nSeq.length := by
    rw [← h.nId.length_eq h.nSeq, length_map]
  have hnSeq : n ∉ g.nSeq := fun hm => hn ((h.nSeq.mem n).1 hm)
  have hsep := separates_nSeq h hU hN hnU
  have hins := Dict.length_insert hsep hnSeq
  rw [Agraph.installnode]
  refine Meets.assert hlen (Meets.assert ?_ (Meets.assert ?_ ⟨⟨?_, ?_, ?_⟩, rfl⟩))
  · rw [hins, length_append, hlen]
    rfl
  · rw [length_append]
    rfl
  · rw [map_append]
    refine ⟨?_, fun x => ?_⟩
    · rw [nodup_append]
      refine ⟨h.nId.nodup, nodup_singleton _, ?_⟩
      rintro a ha b hb rfl
      rw [map_singleton, mem_singleton] at hb
      subst hb
      exact hn ((h.nId.mem _).1 ha)
    · rw [mem_append, h.nId.mem, map_singleton, mem_singleton]
      exact or_comm
  · exact h.nSeq.insert hsep hn
  · intro sn hsn
    obtain hsn | hsn := mem_append.1 hsn
    · exact h.holds sn hsn
    · rw [mem_singleton] at hsn
      subst hsn
      have hout : ∀ x, x ∈ ([] : List Agedge) ↔ x ∈ {f | f ∈ S ∧ f.tail = n} := fun x =>
        ⟨fun hx => (by cases hx), fun hx => absurd (hx.2 ▸ hS.tail x hx.1) hn⟩
      have hin : ∀ x, x ∈ ([] : List Agedge) ↔ x ∈ {f | f ∈ S ∧ f.head = n} := fun x =>
        ⟨fun hx => (by cases hx), fun hx => absurd (hx.2 ▸ hS.head x hx.1) hn⟩
      exact ⟨⟨.nil, hout⟩, ⟨.nil, hout⟩, ⟨.nil, hin⟩, ⟨.nil, hin⟩⟩

/-- `agfstedge` and `agnxtedge` go through the edges at a node, each once. -/
theorem Rep.edgesOf {S : Set Agedge} (h : Rep g N S S) (hU : U.Distinct) (hN : N ⊆ U.nodes)
    (hn : n ∈ N) : IsSet (g.edgesOf n) {f | f ∈ S ∧ (f.tail = n ∨ f.head = n)} := by
  obtain ⟨sn, hs, rfl, hr⟩ := h.agsubrep_mem hU hN hn
  have hsets := h.holds sn hs
  rw [Agraph.edgesOf, hr]
  refine ⟨?_, fun x => ?_⟩
  · rw [nodup_append]
    refine ⟨hsets.outSeq.nodup, hsets.inSeq.nodup.filter _, ?_⟩
    rintro a ha b hb rfl
    rw [mem_filter] at hb
    have ht := ((hsets.outSeq.mem a).1 ha).2
    simp [ht] at hb
  · rw [mem_append, mem_filter, hsets.outSeq.mem, hsets.inSeq.mem]
    simp only [Set.mem_ofPred_eq, decide_eq_true_eq]
    tauto

/-- The edges of a set that are away from `n` or listed in `rest`. -/
def awayExcept (n : Agnode) (S : Set Agedge) (rest : List Agedge) : Set Agedge :=
  {f | f ∈ S ∧ (f.tail = n ∨ f.head = n → f ∈ rest)}

theorem awayExcept_nil (n : Agnode) (S : Set Agedge) : awayExcept n S [] = away n S := by
  ext f
  show _ ∧ (_ → f ∈ []) ↔ _ ∧ _ ∧ _
  simp [not_or]

theorem awayExcept_cons {S : Set Agedge} {rest : List Agedge} (he : e.tail = n ∨ e.head = n)
    (hne : e ∉ rest) : awayExcept n S (e :: rest) \ {e} = awayExcept n S rest := by
  ext f
  show (_ ∧ (_ → f ∈ e :: rest)) ∧ ¬ f = e ↔ _ ∧ (_ → f ∈ rest)
  rw [mem_cons]
  constructor
  · rintro ⟨⟨hf, hr⟩, hfe⟩
    exact ⟨hf, fun hn => (hr hn).resolve_left hfe⟩
  · rintro ⟨hf, hr⟩
    exact ⟨⟨hf, fun hn => .inr (hr hn)⟩, fun hfe => hne (hfe ▸ hr (hfe ▸ he))⟩

/-- `agdelnodeimage` deletes a node with its edges. -/
theorem Rep.agdelnodeimage {S : Set Agedge} (h : Rep g N S S) (hU : U.Distinct)
    (hN : N ⊆ U.nodes) (hSU : S ⊆ U.edges) (hS : Ends N S) (hn : n ∈ N) {E : Fault → Prop} :
    Meets (g.agdelnodeimage n)
      (fun g' => Rep g' (N \ {n}) (away n S) (away n S) ∧ g'.subgs = g.subgs) E := by
  have hedges := h.edgesOf hU hN hn
  have hstart : awayExcept n S (g.edgesOf n) = S := by
    ext f
    exact ⟨And.left, fun hf => ⟨hf, fun hat => (hedges.mem f).2 ⟨hf, hat⟩⟩⟩
  -- what is left of the edges at the node are those still to be deleted
  have loop := Meets.foldlM (E := E) (f := fun (g : Agraph) e => g.agdeledgeimage e)
    (fun rest g' => rest.Nodup ∧ (∀ f ∈ rest, f ∈ S ∧ (f.tail = n ∨ f.head = n)) ∧
      g'.subgs = g.subgs ∧ Rep g' N (awayExcept n S rest) (awayExcept n S rest))
    (fun e rest g' ⟨hnd, hrest, hsub, hrep⟩ => by
      obtain ⟨hne, hnd⟩ := nodup_cons.1 hnd
      obtain ⟨heS, hat⟩ := hrest e (by simp)
      have hsubU : awayExcept n S (e :: rest) ⊆ U.edges := fun f hf => hSU hf.1
      have hmem : e ∈ awayExcept n S (e :: rest) := ⟨heS, fun _ => by simp⟩
      refine (hrep.agdeledgeimage hU hN (hSU heS) hsubU hsubU (hS.tail e heS) (hS.head e heS)
        hmem hmem).imp fun g'' ⟨hrep', hsub'⟩ => ?_
      rw [awayExcept_cons hat hne] at hrep'
      exact ⟨hnd, fun f hf => hrest f (mem_cons_of_mem e hf), hsub'.trans hsub, hrep'⟩)
    g ⟨hedges.nodup, fun f hf => (hedges.mem f).1 hf, rfl, by rwa [hstart]⟩
  rw [Agraph.agdelnodeimage]
  refine loop.bind fun g' ⟨_, _, hsub, hrep⟩ => ?_
  rw [awayExcept_nil] at hrep
  have hnU := hN hn
  have hids : ∀ m ∈ g'.nId.map (·.node), decide (m.id = n.id) = true ↔ n = m := by
    intro m hm
    rw [decide_eq_true_eq]
    exact ⟨fun hid => (hU.node_id m (hN ((hrep.nId.mem m).1 hm)) n hnU hid).symm,
      fun he => by rw [he]⟩
  obtain ⟨nSeq, hdel, hnSeq⟩ := hrep.nSeq.delete (separates_nSeq hrep hU hN hnU) hn
  have hnId := hrep.nId.eraseP hids hn
  rw [eraseP_map] at hnId
  refine ⟨⟨hnId, by rw [hdel]; exact hnSeq, fun sn hsn => ?_⟩, hsub⟩
  exact hrep.holds sn (mem_of_mem_eraseP hsn)

end Agraph

end Graphviz
