import Mathlib.Logic.Relation
import Graphviz.Cgraph.Write

/-!
# An object is written once along each chain of bodies

While a body is being written, the number of the graph that an object was last written with is at
least that of the body's graph exactly when the object has been written in the body or in that of a
subgraph below it: the numbers of a graph and its subgraphs are an interval (`Rose.Numbered`), and
what is written before them has a smaller number (`Before`).
-/

namespace Graphviz.Write

open Function List Rose

variable {pre : ℕ → ℕ} {nd : ℕ → Bool} {st st' : WriteInfo} {S S' : List ℕ} {lo hi : ℕ}
  {x y t : Graph} {ts : List Graph} {g : Body} {o : Obj}

/-- The graphs whose braces are inside those of a graph, and itself. -/
def seqs (x : Graph) : List ℕ := x.subtrees.map fun y => y.label.seq

/-! ## Numbers -/

mutual

theorem subgdfs_fst : ∀ (t : Graph) (pre : ℕ → ℕ) (ix : ℕ), (subgdfs pre ix t).1 = ix + t.size
  | .mk g subgs, pre, ix => by
    rw [subgdfs, size_mk]
    exact congrArg (· + 1) (subgdfsAll_fst subgs _ ix)

theorem subgdfsAll_fst : ∀ (ts : List Graph) (pre : ℕ → ℕ) (ix : ℕ),
    (subgdfsAll pre ix ts).1 = ix + (forest ts).length
  | [], _, _ => by rw [subgdfsAll, forest]; rfl
  | t :: ts, pre, ix => by
    rw [subgdfsAll, subgdfsAll_fst, subgdfs_fst, forest, length_append, size, Nat.add_assoc]

end

mutual

/-- Only the graphs of a tree are numbered with it. -/
theorem subgdfs_other {s : ℕ} : ∀ (t : Graph) (pre : ℕ → ℕ) (ix : ℕ), s ∉ seqs t →
    (subgdfs pre ix t).2 s = pre s
  | .mk g subgs, pre, ix, hs => by
    rw [seqs, subtrees, map_cons, mem_cons, not_or] at hs
    rw [subgdfs]
    exact (subgdfsAll_other subgs _ ix hs.2).trans (update_of_ne hs.1 _ _)

theorem subgdfsAll_other {s : ℕ} : ∀ (ts : List Graph) (pre : ℕ → ℕ) (ix : ℕ),
    s ∉ (forest ts).map (fun y => y.label.seq) → (subgdfsAll pre ix ts).2 s = pre s
  | [], _, _, _ => by rw [subgdfsAll]
  | t :: ts, pre, ix, hs => by
    rw [forest, map_append, mem_append, not_or] at hs
    rw [subgdfsAll, subgdfsAll_other ts _ _ hs.2, subgdfs_other t pre ix hs.1]

end

mutual

/-- `subgdfs` numbers a tree. -/
theorem subgdfs_numbered : ∀ (t : Graph) (pre : ℕ → ℕ) (ix : ℕ), (seqs t).Nodup →
    Numbered (fun g => (subgdfs pre ix t).2 g.seq) ix t
  | .mk g subgs, pre, ix, hnodup => by
    rw [seqs, subtrees, map_cons, nodup_cons] at hnodup
    rw [Numbered, subgdfs]
    refine ⟨?_, subgdfsAll_numbered subgs _ ix hnodup.2⟩
    exact (subgdfsAll_other subgs _ ix hnodup.1).trans (update_self _ _ _)

theorem subgdfsAll_numbered : ∀ (ts : List Graph) (pre : ℕ → ℕ) (ix : ℕ),
    ((forest ts).map fun y => y.label.seq).Nodup →
      NumberedForest (fun g => (subgdfsAll pre ix ts).2 g.seq) ix ts
  | [], _, _, _ => by rw [NumberedForest]; trivial
  | t :: ts, pre, ix, hnodup => by
    rw [forest, map_append, nodup_append] at hnodup
    rw [NumberedForest, subgdfsAll]
    constructor
    · refine Numbered.congr (fun y hy => ?_) (subgdfs_numbered t pre ix hnodup.1)
      exact subgdfsAll_other ts _ _ fun hmem =>
        hnodup.2.2 _ (mem_map_of_mem hy) _ hmem rfl
    · rw [← subgdfs_fst t pre ix]
      exact subgdfsAll_numbered ts _ _ hnodup.2.1

end

/-! ## Steps -/

/-- The graph whose body or braces an event is part of. -/
def Event.graph : Event → ℕ
  | .hdr g | .trl g | .wrote g _ | .tested g _ _ => g

/-- The graph whose body an event is the writing of an object in. -/
def Event.writer : Event → Option ℕ
  | .wrote g _ => some g
  | _ => none

/-- An event that is one of the braces of a graph. -/
def Event.brace : Event → Bool
  | .hdr _ | .trl _ => true
  | _ => false

@[simp] theorem writeObj_self {s : ℕ} : (writeObj pre s st o).last_written o = pre s :=
  update_self ..

theorem writeObj_of_ne {s : ℕ} {o' : Obj} (h : o' ≠ o) :
    (writeObj pre s st o).last_written o' = st.last_written o' :=
  update_of_ne h ..

/-- What the writing of the bodies of the graphs in `S` is made of. -/
inductive Step (pre : ℕ → ℕ) (S : List ℕ) : WriteInfo → WriteInfo → Prop
  | log (a : WriteInfo) (ev : Event) (hev : ev.writer = none) (hS : ev.graph ∈ S) :
    Step pre S a (a.log ev)
  | wrote (a : WriteInfo) (s : ℕ) (o : Obj) (hs : s ∈ S) : Step pre S a (writeObj pre s a o)

/-- Any number of steps. -/
abbrev Steps (pre : ℕ → ℕ) (S : List ℕ) : WriteInfo → WriteInfo → Prop :=
  Relation.ReflTransGen (Step pre S)

theorem Steps.mono (h : Steps pre S st st') (hS : S ⊆ S') : Steps pre S' st st' := by
  refine Relation.ReflTransGen.mono (fun a b hab => ?_) _ _ h
  cases hab with
  | log ev hev hmem => exact .log _ ev hev (hS hmem)
  | wrote s o hs => exact .wrote _ s o (hS hs)

/-- A step adds one event of a graph in `S`. -/
theorem Step.events (h : Step pre S st st') : ∃ ev, st'.events = st.events ++ [ev] ∧
    ev.graph ∈ S := by
  cases h with
  | log ev _ hmem => exact ⟨ev, rfl, hmem⟩
  | wrote s o hs => exact ⟨.wrote s o, rfl, hs⟩

/-- Steps add events of the graphs in `S`. -/
theorem Steps.events (h : Steps pre S st st') : ∃ new, st'.events = st.events ++ new ∧
    ∀ ev ∈ new, ev.graph ∈ S := by
  induction h with
  | refl => exact ⟨[], (append_nil _).symm, nofun⟩
  | tail _ hstep ih =>
    obtain ⟨new, hnew, hS⟩ := ih
    obtain ⟨ev, hev, hmem⟩ := hstep.events
    refine ⟨new ++ [ev], by rw [hev, hnew, append_assoc], fun ev' hev' => ?_⟩
    obtain hev' | hev' := mem_append.1 hev'
    · exact hS ev' hev'
    · rw [mem_singleton.1 hev']
      exact hmem

/-- Steps keep the number of events of a graph that is not theirs. -/
theorem Steps.count (h : Steps pre S st st') (ev : Event) (hev : ev.graph ∉ S) :
    st'.events.count ev = st.events.count ev := by
  obtain ⟨new, hnew, hS⟩ := h.events
  rw [hnew, count_append, count_eq_zero_of_not_mem fun hmem => hev (hS ev hmem),
    Nat.add_zero]

/-- All writing so far was with a number below `hi`. -/
structure Before (pre : ℕ → ℕ) (hi : ℕ) (st : WriteInfo) : Prop where
  last : ∀ o, st.last_written o < hi
  writer : ∀ s o, .wrote s o ∈ st.events → pre s < hi

theorem Before.mono (h : Before pre lo st) (hle : lo ≤ hi) : Before pre hi st :=
  ⟨fun o => Nat.lt_of_lt_of_le (h.last o) hle,
    fun s o ho => Nat.lt_of_lt_of_le (h.writer s o ho) hle⟩

theorem Steps.before (h : Steps pre S st st') (hS : ∀ s ∈ S, pre s < hi) (hst : Before pre hi st) :
    Before pre hi st' := by
  induction h with
  | refl => exact hst
  | tail _ hstep ih =>
    cases hstep with
    | log ev hev =>
      refine ⟨ih.last, fun s o hmem => ?_⟩
      obtain hmem | hmem := mem_append.1 hmem
      · exact ih.writer s o hmem
      · rw [← mem_singleton.1 hmem] at hev
        cases hev
    | wrote s o hs =>
      refine ⟨fun o' => ?_, fun s' o' hmem => ?_⟩
      · by_cases ho : o' = o
        · rw [ho, writeObj_self]; exact hS s hs
        · rw [writeObj_of_ne ho]; exact ih.last o'
      · obtain hmem | hmem := mem_append.1 hmem
        · exact ih.writer s' o' hmem
        · cases mem_singleton.1 hmem
          exact hS s hs

/-- The comparison with `lo` tells what has been written in the bodies of the graphs in `S`. -/
def Tracks (S : List ℕ) (lo : ℕ) (st : WriteInfo) : Prop :=
  ∀ o, lo ≤ st.last_written o ↔ ∃ s ∈ S, .wrote s o ∈ st.events

/-- A new event that writes nothing is not found by a search for writing. -/
theorem mem_log_wrote {ev : Event} {s : ℕ} (hev : ev.writer = none) :
    .wrote s o ∈ (st.log ev).events ↔ .wrote s o ∈ st.events := by
  rw [WriteInfo.log, mem_append, mem_singleton]
  refine ⟨fun h => h.resolve_right fun heq => ?_, Or.inl⟩
  rw [← heq] at hev
  cases hev

theorem Step.tracks (h : Step pre S st st') (hS : S ⊆ S') (hlo : ∀ s ∈ S, lo ≤ pre s)
    (hst : Tracks S' lo st) : Tracks S' lo st' := by
  cases h with
  | log ev hev => exact fun o => by simp only [mem_log_wrote hev]; exact hst o
  | wrote s o hs =>
    intro o'
    by_cases ho : o' = o
    · subst ho
      rw [writeObj_self]
      exact iff_of_true (hlo s hs) ⟨s, hS hs, mem_append_right _ mem_cons_self⟩
    · rw [writeObj_of_ne ho, hst o']
      refine exists_congr fun s' => and_congr_right fun _ =>
        ⟨mem_append_left _, fun h => ?_⟩
      refine (mem_append.1 h).resolve_right fun heq => ho ?_
      cases mem_singleton.1 heq
      rfl

theorem Steps.tracks (h : Steps pre S st st') (hS : S ⊆ S') (hlo : ∀ s ∈ S, lo ≤ pre s)
    (hst : Tracks S' lo st) : Tracks S' lo st' := by
  induction h with
  | refl => exact hst
  | tail _ hstep ih => exact hstep.tracks hS hlo ih

/-- Nothing has been written with the numbers of a graph before the graph is. -/
theorem Before.tracks (h : Before pre lo st) (hlo : ∀ s ∈ S, lo ≤ pre s) : Tracks S lo st := by
  refine fun o => iff_of_false (Nat.not_le_of_lt (h.last o)) ?_
  rintro ⟨s, hs, ho⟩
  exact Nat.not_le_of_lt (h.writer s o ho) (hlo s hs)

/-! ## The loop of a body -/

/-- A property that the tests, the writing of nodes and the rounds of edges keep. -/
structure Kept (pre : ℕ → ℕ) (g : Body) (P : WriteInfo → Prop) : Prop where
  test : ∀ st o, P st → P (testWritten pre g.seq st o).2
  node : ∀ st n, P st → P (writeNode pre g st n)
  edge : ∀ st, ∀ e ∈ g.edges, P st → P (edgeRound pre g st e)

variable {P : WriteInfo → Prop}

theorem Kept.nodeRound (hP : Kept pre g P) (n : ℕ) (hst : P st) :
    P (nodeRound pre nd g st n).2 := by
  have htested : P (writeNodeTest pre nd g st n).2 := hP.test st (.node n) hst
  show P (if (writeNodeTest pre nd g st n).1 then _ else (writeNodeTest pre nd g st n).2)
  cases (writeNodeTest pre nd g st n).1 with
  | true => exact hP.node _ n htested
  | false => exact htested

theorem Kept.outRound (hP : Kept pre g P) {e : OutEdge} (he : e.seq ∈ g.edges) (prev : ℕ)
    (hst : P st) : P (outRound pre nd g (st, prev) e).1 := by
  simp only [Write.outRound]
  refine hP.edge _ e.seq he ?_
  split
  · exact hP.nodeRound e.head hst
  · exact hst

theorem Kept.outs (hP : Kept pre g P) (es : List OutEdge) (hes : ∀ e ∈ es, e.seq ∈ g.edges)
    (prev : ℕ) (hst : P st) : P (es.foldl (Write.outRound pre nd g) (st, prev)).1 := by
  induction es generalizing st prev with
  | nil => exact hst
  | cons e es ih =>
    exact ih (fun e' he' => hes e' (mem_cons_of_mem _ he')) _
      (hP.outRound (hes e mem_cons_self) prev hst)

theorem mem_edges {n : ℕ} {e : OutEdge} (hn : n ∈ g.nodes) (he : e ∈ g.out n) : e.seq ∈ g.edges :=
  mem_map_of_mem (mem_flatMap.2 ⟨n, hn, he⟩)

theorem Kept.nodes (hP : Kept pre g P) (ns : List ℕ) (hns : ∀ n ∈ ns, n ∈ g.nodes) (hst : P st) :
    P (ns.foldl (bodyRound pre nd g) st) := by
  induction ns generalizing st with
  | nil => exact hst
  | cons n ns ih =>
    refine ih (fun n' hn' => hns n' (mem_cons_of_mem _ hn')) ?_
    exact hP.outs _ (fun e he => mem_edges (hns n mem_cons_self) he) n (hP.nodeRound n hst)

/-- The loop of a body keeps the property. -/
theorem Kept.bodyLoop (hP : Kept pre g P) (hst : P st) : P (bodyLoop pre nd g st) :=
  hP.nodes g.nodes (fun _ hn => hn) hst

theorem step_test {s : ℕ} (hs : s ∈ S) : Step pre S st (testWritten pre s st o).2 :=
  .log st _ rfl hs

/-- The round for an edge. -/
theorem edgeRound_eq (e : ℕ) : edgeRound pre g st e =
    if pre g.seq ≤ st.last_written (.edge e) then (testWritten pre g.seq st (.edge e)).2
    else writeEdge pre g (testWritten pre g.seq st (.edge e)).2 e := by
  simp only [edgeRound, writeEdgeTest, testWritten]
  by_cases h : pre g.seq ≤ st.last_written (.edge e) <;> simp [h]

theorem bodyLoop_steps : Steps pre [g.seq] st (bodyLoop pre nd g st) := by
  have hP : Kept pre g (Steps pre [g.seq] st) := by
    refine ⟨fun _ _ h => h.tail (step_test mem_cons_self),
      fun _ _ h => h.tail (.wrote _ _ _ mem_cons_self), fun st1 e _ h => ?_⟩
    rw [edgeRound_eq]
    split
    · exact h.tail (step_test mem_cons_self)
    · exact (h.tail (step_test mem_cons_self)).tail (.wrote _ _ _ mem_cons_self)
  exact hP.bodyLoop .refl

/-- Every comparison made for a graph of `G` so far was right. -/
def TestsOk (G : List Graph) (T : List Event) : Prop :=
  ∀ a s o b c, T = a ++ .tested s o b :: c → ∀ x ∈ G, x.label.seq = s →
    (b = true ↔ ∃ s' ∈ seqs x, .wrote s' o ∈ a)

/-- One more event, which is right if it is a comparison. -/
theorem TestsOk.snoc {G : List Graph} {T : List Event} {ev : Event} (h : TestsOk G T)
    (hev : ∀ s o b, ev = .tested s o b → ∀ x ∈ G, x.label.seq = s →
      (b = true ↔ ∃ s' ∈ seqs x, .wrote s' o ∈ T)) : TestsOk G (T ++ [ev]) := by
  intro a s o b c hT
  obtain rfl | ⟨c, ev', rfl⟩ := eq_nil_or_concat c
  · obtain ⟨rfl, heq⟩ := append_inj' hT rfl
    exact hev s o b (cons.inj heq).1
  · rw [concat_eq_append, ← cons_append, ← append_assoc] at hT
    exact h a s o b c (append_inj' hT rfl).1

/-- The tests of the loop of a body are right. -/
theorem bodyLoop_tests {G : List Graph} (hG : ∀ y ∈ G, y.label.seq = g.seq → seqs y = S)
    (hg : g.seq ∈ S) (ht : Tracks S (pre g.seq) st) (h : TestsOk G st.events) :
    TestsOk G (bodyLoop pre nd g st).events := by
  have hstep : ∀ st st', Step pre [g.seq] st st' → Tracks S (pre g.seq) st →
      Tracks S (pre g.seq) st' := by
    refine fun st st' hstep => hstep.tracks (cons_subset.2 ⟨hg, nil_subset _⟩) ?_
    exact fun s hs => Nat.le_of_eq (congrArg pre (mem_singleton.1 hs)).symm
  have htest : ∀ st o, Tracks S (pre g.seq) st ∧ TestsOk G st.events →
      Tracks S (pre g.seq) (testWritten pre g.seq st o).2 ∧
        TestsOk G (testWritten pre g.seq st o).2.events := by
    rintro st o ⟨ht, h⟩
    refine ⟨hstep _ _ (step_test mem_cons_self) ht, h.snoc ?_⟩
    rintro s o b hev x hx hs
    cases hev
    rw [hG x hx hs, decide_eq_true_eq]
    exact ht _
  have hwrite : ∀ st o, Tracks S (pre g.seq) st ∧ TestsOk G st.events →
      Tracks S (pre g.seq) (writeObj pre g.seq st o) ∧
        TestsOk G (writeObj pre g.seq st o).events := by
    rintro st o ⟨ht, h⟩
    exact ⟨hstep _ _ (.wrote st g.seq o mem_cons_self) ht, h.snoc nofun⟩
  have hP : Kept pre g fun st => Tracks S (pre g.seq) st ∧ TestsOk G st.events := by
    refine ⟨htest, fun st n => hwrite st (.node n), fun st e _ hst => ?_⟩
    rw [edgeRound_eq]
    split
    · exact htest st (.edge e) hst
    · exact hwrite _ (.edge e) (htest st (.edge e) hst)
  exact (hP.bodyLoop ⟨ht, h⟩).2

/-! ## How often an edge is written in a body -/

variable {e : ℕ}

/-- A test writes nothing. -/
theorem count_test (s s' : ℕ) : (testWritten pre s st o).2.events.count (.wrote s' (.edge e)) =
    st.events.count (.wrote s' (.edge e)) := by
  simp [testWritten, WriteInfo.log, count_append]

/-- Writing an object is no writing of another. -/
theorem count_writeObj_of_ne {s s' : ℕ} {o' : Obj} (h : o' ≠ o) :
    (writeObj pre s st o).events.count (.wrote s' o') = st.events.count (.wrote s' o') := by
  have hne : Event.wrote s o ≠ .wrote s' o' := fun heq => h (Event.wrote.inj heq).2.symm
  rw [writeObj, count_append, count_singleton, if_neg (by simpa using hne), Nat.add_zero]

theorem count_writeObj_self {s : ℕ} :
    (writeObj pre s st o).events.count (.wrote s o) = st.events.count (.wrote s o) + 1 := by
  rw [writeObj, count_append, count_singleton_self]

theorem edge_ne_node {n : ℕ} : Obj.edge e ≠ Obj.node n := nofun

/-- Once an edge has been written in a body, it stays so. -/
theorem kept_written (e : ℕ) : Kept pre g fun st => pre g.seq ≤ st.last_written (.edge e) := by
  refine ⟨fun _ _ h => h, fun st n h => ?_, fun st e' _ h => ?_⟩
  · rw [writeNode, writeObj_of_ne edge_ne_node]
    exact h
  · rw [edgeRound_eq]
    split
    · exact h
    · by_cases he : e = e'
      · rw [he, writeEdge]
        exact Nat.le_of_eq writeObj_self.symm
      · rw [writeEdge, writeObj_of_ne fun heq => he (Obj.edge.inj heq)]
        exact h

/-- After its round an edge has been written. -/
theorem edgeRound_written (e : ℕ) : pre g.seq ≤ (edgeRound pre g st e).last_written (.edge e) := by
  rw [edgeRound_eq]
  split
  · rename_i h
    exact h
  · rw [writeEdge]
    exact Nat.le_of_eq writeObj_self.symm

/-- The round of a node does its edges after the node. -/
theorem bodyRound_eq (n : ℕ) : bodyRound pre nd g st n =
    ((g.out n).foldl (outRound pre nd g) ((nodeRound pre nd g st n).2, n)).1 := rfl

/-- After the loop of a body its edges have been written. -/
theorem bodyLoop_written (he : e ∈ g.edges) :
    pre g.seq ≤ (bodyLoop pre nd g st).last_written (.edge e) := by
  obtain ⟨oe, hoe, rfl⟩ := mem_map.1 he
  obtain ⟨n, hn, hout⟩ := mem_flatMap.1 hoe
  obtain ⟨ns, ns', hns⟩ := append_of_mem hn
  obtain ⟨es, es', hes⟩ := append_of_mem hout
  have hP : Kept pre g fun st => pre g.seq ≤ st.last_written (.edge oe.seq) :=
    kept_written oe.seq
  rw [bodyLoop, hns, foldl_append, foldl_cons]
  refine hP.nodes ns' (fun n' hn' => by rw [hns]; simp [hn']) ?_
  rw [bodyRound_eq, hes, foldl_append, foldl_cons]
  refine hP.outs es' (fun e' he' => mem_edges hn (by rw [hes]; simp [he'])) _ ?_
  exact edgeRound_written oe.seq

/-- The loop of a body writes each of its edges that has not been written with one of its numbers,
once. -/
theorem bodyLoop_count (e : ℕ) : (bodyLoop pre nd g st).events.count (.wrote g.seq (.edge e)) =
    st.events.count (.wrote g.seq (.edge e)) +
      if e ∈ g.edges ∧ st.last_written (.edge e) < pre g.seq then 1 else 0 := by
  have hP : Kept pre g fun st' =>
      st'.events.count (.wrote g.seq (.edge e)) = st.events.count (.wrote g.seq (.edge e)) ∧
          st'.last_written (.edge e) = st.last_written (.edge e) ∨
        st'.events.count (.wrote g.seq (.edge e)) =
            st.events.count (.wrote g.seq (.edge e)) + 1 ∧
          pre g.seq ≤ st'.last_written (.edge e) ∧ e ∈ g.edges ∧
          st.last_written (.edge e) < pre g.seq := by
    refine ⟨fun st' o h => by rw [count_test]; exact h, fun st' n h => ?_, fun st' e' he' h => ?_⟩
    · rw [writeNode, writeObj_of_ne edge_ne_node, count_writeObj_of_ne edge_ne_node]
      exact h
    · rw [edgeRound_eq]
      split
      · rw [count_test]
        exact h
      · rename_i hlt
        by_cases he : e = e'
        · subst he
          rw [writeEdge, writeObj_self, count_writeObj_self, count_test]
          obtain ⟨hcount, hlast⟩ | ⟨-, hge, -⟩ := h
          · rw [hlast] at hlt
            exact .inr ⟨by rw [hcount], Nat.le_refl _, he', Nat.lt_of_not_le hlt⟩
          · exact absurd hge hlt
        · have hne : Obj.edge e ≠ .edge e' := fun heq => he (Obj.edge.inj heq)
          rw [writeEdge, writeObj_of_ne hne, count_writeObj_of_ne hne, count_test]
          exact h
  obtain ⟨hcount, hlast⟩ | ⟨hcount, -, he, hlt⟩ := hP.bodyLoop (.inl ⟨rfl, rfl⟩)
  · rw [if_neg, hcount, Nat.add_zero]
    rintro ⟨he, hlt⟩
    have hge : pre g.seq ≤ (bodyLoop pre nd g st).last_written (.edge e) :=
      bodyLoop_written he
    rw [hlast] at hge
    omega
  · rw [if_pos ⟨he, hlt⟩, hcount]

/-- The loop of a body adds no braces. -/
theorem bodyLoop_braces (pre : ℕ → ℕ) (nd : ℕ → Bool) (g : Body) (st : WriteInfo) :
    ∃ new, (bodyLoop pre nd g st).events = st.events ++ new ∧
      ∀ ev ∈ new, ev.graph = g.seq ∧ ev.brace = false := by
  have hsnoc : ∀ (st' : WriteInfo) (ev : Event), ev.graph = g.seq ∧ ev.brace = false →
      (∃ new, st'.events = st.events ++ new ∧ ∀ ev ∈ new, ev.graph = g.seq ∧ ev.brace = false) →
        ∃ new, st'.events ++ [ev] = st.events ++ new ∧
          ∀ ev ∈ new, ev.graph = g.seq ∧ ev.brace = false := by
    rintro st' ev hev ⟨new, hnew, hall⟩
    refine ⟨new ++ [ev], by rw [hnew, append_assoc], fun ev' hev' => ?_⟩
    obtain hev' | hev' := mem_append.1 hev'
    · exact hall ev' hev'
    · rw [mem_singleton.1 hev']
      exact hev
  have hP : Kept pre g fun st' => ∃ new, st'.events = st.events ++ new ∧
      ∀ ev ∈ new, ev.graph = g.seq ∧ ev.brace = false := by
    refine ⟨fun st' o h => hsnoc st' _ ⟨rfl, rfl⟩ h, fun st' n h => hsnoc st' _ ⟨rfl, rfl⟩ h,
      fun st' e _ h => ?_⟩
    rw [edgeRound_eq]
    split
    · exact hsnoc st' _ ⟨rfl, rfl⟩ h
    · exact hsnoc _ _ ⟨rfl, rfl⟩ (hsnoc st' _ ⟨rfl, rfl⟩ h)
  exact hP.bodyLoop ⟨[], (append_nil _).symm, nofun⟩

/-! ## The bodies of a tree -/

/-- The graphs of the trees of a list. -/
abbrev forestSeqs (ts : List Graph) : List ℕ := (forest ts).map fun y => y.label.seq

theorem seqs_mk (subgs : List Graph) : seqs (.mk g subgs) = g.seq :: forestSeqs subgs := by
  rw [seqs, subtrees, map_cons, label]

theorem forestSeqs_cons : forestSeqs (t :: ts) = seqs t ++ forestSeqs ts := by
  rw [forestSeqs, forest, map_append]
  rfl

theorem writeSubg_relevant {subgs : List Graph} (h : g.irrelevant = false) :
    writeSubg pre nd st (.mk g subgs) =
      (bodyLoop pre nd g (writeSubgs pre nd (st.log (.hdr g.seq)) subgs)).log (.trl g.seq) := by
  rw [writeSubg, h]
  rfl

theorem writeSubg_irrelevant {subgs : List Graph} (h : g.irrelevant = true) :
    writeSubg pre nd st (.mk g subgs) = writeSubgs pre nd st subgs := by
  rw [writeSubg, h]
  rfl

mutual

theorem writeSubg_steps : ∀ (t : Graph) (st : WriteInfo),
    Steps pre (seqs t) st (writeSubg pre nd st t)
  | .mk g subgs, st => by
    rw [seqs_mk]
    cases hg : g.irrelevant with
    | true =>
      rw [writeSubg_irrelevant hg]
      exact (writeSubgs_steps subgs st).mono (subset_cons_self _ _)
    | false =>
      have hhdr : Steps pre (g.seq :: forestSeqs subgs) st (st.log (.hdr g.seq)) :=
        .single (.log _ _ rfl mem_cons_self)
      have hsubgs := (writeSubgs_steps subgs (st.log (.hdr g.seq))).mono
        (subset_cons_self g.seq _)
      rw [writeSubg_relevant hg]
      refine ((hhdr.trans hsubgs).trans (bodyLoop_steps.mono ?_)).tail
        (.log _ _ rfl mem_cons_self)
      exact cons_subset_cons _ (nil_subset _)

theorem writeSubgs_steps : ∀ (ts : List Graph) (st : WriteInfo),
    Steps pre (forestSeqs ts) st (writeSubgs pre nd st ts)
  | [], _ => by rw [writeSubgs]
  | t :: ts, st => by
    rw [writeSubgs, forestSeqs_cons]
    exact ((writeSubg_steps t st).mono (subset_append_left _ _)).trans
      ((writeSubgs_steps ts _).mono (subset_append_right _ _))

end

variable {ix : ℕ} {subgs G : List Graph}

theorem seqs_bounds (h : Numbered (fun g => pre g.seq) ix t) :
    ∀ s ∈ seqs t, ix ≤ pre s ∧ pre s < ix + t.size := by
  intro s hs
  obtain ⟨y, hy, rfl⟩ := mem_map.1 hs
  exact h.bounds y hy

theorem Before.log (h : Before pre lo st) {ev : Event} (hev : ev.writer = none) :
    Before pre lo (st.log ev) :=
  ⟨h.last, fun s o ho => h.writer s o ((mem_log_wrote hev).1 ho)⟩

/-- What is written before the first tree of a list is still before the second. -/
theorem Before.writeSubg (h : Before pre ix st) (hnum : Numbered (fun g => pre g.seq) ix t) :
    Before pre (ix + t.size) (writeSubg pre nd st t) :=
  (writeSubg_steps t st).before (fun s hs => (seqs_bounds hnum s hs).2)
    (h.mono (Nat.le_add_right _ _))

/-- Where the loop of a body starts, its comparisons tell what has been written. -/
theorem Before.tracks_subgs (h : Before pre ix st)
    (hnum : Numbered (fun g => pre g.seq) ix (.mk g subgs)) :
    Tracks (seqs (.mk g subgs)) (pre g.seq) (writeSubgs pre nd (st.log (.hdr g.seq)) subgs) := by
  have hlo : ∀ s ∈ seqs (.mk g subgs), ix ≤ pre s := fun s hs => (seqs_bounds hnum s hs).1
  have hix : pre g.seq = ix := by rw [Numbered] at hnum; exact hnum.1
  rw [hix]
  have hsub : forestSeqs subgs ⊆ seqs (.mk g subgs) := by
    rw [seqs_mk]
    exact subset_cons_self _ _
  refine (writeSubgs_steps subgs _).tracks hsub (fun s hs => hlo s (hsub hs)) ?_
  exact (h.log rfl).tracks hlo

mutual

/-- The tests made for a tree are right. -/
theorem writeSubg_tests : ∀ (t : Graph) (ix : ℕ) (st : WriteInfo),
    Numbered (fun g => pre g.seq) ix t →
    (∀ z ∈ t.subtrees, ∀ y ∈ G, y.label.seq = z.label.seq → seqs y = seqs z) →
    Before pre ix st → TestsOk G st.events → TestsOk G (writeSubg pre nd st t).events
  | .mk g subgs, ix, st, hnum, hG, hst, htests => by
    have hforest : ∀ z ∈ forest subgs, ∀ y ∈ G, y.label.seq = z.label.seq → seqs y = seqs z :=
      fun z hz => hG z (mem_subtrees_iff.2 (.inr hz))
    have hnum' := hnum
    rw [Numbered] at hnum'
    cases hg : g.irrelevant with
    | true =>
      rw [writeSubg_irrelevant hg]
      exact writeSubgs_tests subgs ix st hnum'.2 hforest hst htests
    | false =>
      rw [writeSubg_relevant hg]
      refine TestsOk.snoc ?_ nofun
      refine bodyLoop_tests (hG _ mem_subtrees_self) ?_ (hst.tracks_subgs hnum) ?_
      · rw [seqs_mk]
        exact mem_cons_self
      · exact writeSubgs_tests subgs ix _ hnum'.2 hforest (hst.log rfl) (htests.snoc nofun)

theorem writeSubgs_tests : ∀ (ts : List Graph) (ix : ℕ) (st : WriteInfo),
    NumberedForest (fun g => pre g.seq) ix ts →
    (∀ z ∈ forest ts, ∀ y ∈ G, y.label.seq = z.label.seq → seqs y = seqs z) →
    Before pre ix st → TestsOk G st.events → TestsOk G (writeSubgs pre nd st ts).events
  | [], _, _, _, _, _, htests => by
    rw [writeSubgs]
    exact htests
  | t :: ts, ix, st, hnum, hG, hst, htests => by
    rw [NumberedForest] at hnum
    rw [writeSubgs]
    refine writeSubgs_tests ts (ix + t.size) _ hnum.2
      (fun z hz => hG z (mem_forest_cons.2 (.inr hz))) (hst.writeSubg hnum.1) ?_
    exact writeSubg_tests t ix st hnum.1 (fun z hz => hG z (mem_forest_cons.2 (.inl hz))) hst htests

end

/-! ## How often an edge is written -/

/-- A graph whose body is written and has the edge. -/
def Owns (e : ℕ) (x : Graph) : Prop := x.label.irrelevant = false ∧ e ∈ x.label.edges

instance (e : ℕ) (x : Graph) : Decidable (Owns e x) := inferInstanceAs (Decidable (_ ∧ _))

/-- A graph whose body is written and has the edge, and that has no such graph below it. -/
def LastOwner (e : ℕ) (x : Graph) : Prop := Owns e x ∧ ∀ y ∈ forest x.children, ¬ Owns e y

instance (e : ℕ) (x : Graph) : Decidable (LastOwner e x) := inferInstanceAs (Decidable (_ ∧ _))

/-- What is not written yet is counted zero times. -/
theorem Before.count (h : Before pre lo st) {s : ℕ} (hs : lo ≤ pre s) :
    st.events.count (.wrote s o) = 0 :=
  count_eq_zero_of_not_mem fun hmem => Nat.not_le_of_lt (h.writer s o hmem) hs

/-- The graphs of a list of trees write the edge where one of them has it. -/
theorem wrote_iff_owns (hcount : ∀ x ∈ forest ts, st.events.count (.wrote x.label.seq (.edge e)) =
    if LastOwner e x then 1 else 0) :
    (∃ s ∈ forestSeqs ts, .wrote s (.edge e) ∈ st.events) ↔ ∃ x ∈ forest ts, Owns e x := by
  constructor
  · rintro ⟨s, hs, hmem⟩
    obtain ⟨x, hx, rfl⟩ := mem_map.1 hs
    have hpos := count_pos_iff.2 hmem
    rw [hcount x hx] at hpos
    split at hpos
    · rename_i hlast
      exact ⟨x, hx, hlast.1⟩
    · cases hpos
  · intro h
    obtain ⟨x, hx, hlast⟩ := exists_last_forest ts h
    have hlast : LastOwner e x := hlast
    refine ⟨_, mem_map_of_mem hx, count_pos_iff.1 ?_⟩
    rw [hcount x hx, if_pos hlast]
    exact Nat.one_pos

/-- The loop of a body comes to an edge that has not been written with one of its numbers where no
graph below has it. -/
theorem lt_iff_lastOwner (hg : g.irrelevant = false) (ht : Tracks (seqs (.mk g ts)) (pre g.seq) st)
    (hself : .wrote g.seq (.edge e) ∉ st.events)
    (hcount : ∀ x ∈ forest ts, st.events.count (.wrote x.label.seq (.edge e)) =
      if LastOwner e x then 1 else 0) :
    e ∈ g.edges ∧ st.last_written (.edge e) < pre g.seq ↔ LastOwner e (.mk g ts) := by
  have hown : pre g.seq ≤ st.last_written (.edge e) ↔ ∃ x ∈ forest ts, Owns e x := by
    rw [ht (.edge e), ← wrote_iff_owns hcount, seqs_mk]
    simp [hself]
  rw [← Nat.not_le, hown]
  constructor
  · rintro ⟨he, hnone⟩
    exact ⟨⟨hg, he⟩, fun y hy hy' => hnone ⟨y, hy, hy'⟩⟩
  · rintro ⟨⟨-, he⟩, hlast⟩
    exact ⟨he, fun ⟨y, hy, hy'⟩ => hlast y hy hy'⟩

mutual

/-- The edge is written in the bodies of the last graphs that have it, once in each. -/
theorem writeSubg_count : ∀ (t : Graph) (ix : ℕ) (st : WriteInfo),
    Numbered (fun g => pre g.seq) ix t → (seqs t).Nodup → Before pre ix st →
    ∀ x ∈ t.subtrees, (writeSubg pre nd st t).events.count (.wrote x.label.seq (.edge e)) =
      if LastOwner e x then 1 else 0
  | .mk g subgs, ix, st, hnum, hnodup, hst => by
    have hnum' := hnum
    rw [Numbered] at hnum'
    obtain ⟨hix, hnum'⟩ := hnum'
    have hle : ix ≤ pre g.seq := Nat.le_of_eq hix.symm
    rw [seqs_mk, nodup_cons] at hnodup
    intro x hx
    cases hg : g.irrelevant with
    | true =>
      rw [writeSubg_irrelevant hg]
      obtain rfl | hx := mem_subtrees_iff.1 hx
      · rw [label, (writeSubgs_steps subgs st).count (.wrote _ _) hnodup.1, hst.count hle, if_neg]
        rintro ⟨⟨hrel, -⟩, -⟩
        rw [label, hg] at hrel
        cases hrel
      · exact writeSubgs_count subgs ix st hnum' hnodup.2 hst x hx
    | false =>
      have hlog : Before pre ix (st.log (.hdr g.seq)) := hst.log rfl
      rw [writeSubg_relevant hg, WriteInfo.log, count_append, count_singleton,
        if_neg (by simp), Nat.add_zero]
      obtain rfl | hx := mem_subtrees_iff.1 hx
      · have htracks : Tracks _ _ (writeSubgs pre nd (st.log (.hdr g.seq)) subgs) :=
          hst.tracks_subgs hnum
        rw [label, bodyLoop_count, (writeSubgs_steps subgs _).count (.wrote _ _) hnodup.1,
          hlog.count hle, Nat.zero_add]
        refine if_congr (lt_iff_lastOwner hg htracks ?_
          (writeSubgs_count subgs ix _ hnum' hnodup.2 hlog)) rfl rfl
        rw [← count_eq_zero, (writeSubgs_steps subgs _).count (.wrote _ _) hnodup.1, hlog.count hle]
      · have hne : x.label.seq ∉ [g.seq] := by
          rw [mem_singleton]
          rintro heq
          exact hnodup.1 (heq ▸ mem_map_of_mem hx)
        rw [bodyLoop_steps.count (.wrote _ _) hne]
        exact writeSubgs_count subgs ix _ hnum' hnodup.2 hlog x hx

theorem writeSubgs_count : ∀ (ts : List Graph) (ix : ℕ) (st : WriteInfo),
    NumberedForest (fun g => pre g.seq) ix ts → (forestSeqs ts).Nodup → Before pre ix st →
    ∀ x ∈ forest ts, (writeSubgs pre nd st ts).events.count (.wrote x.label.seq (.edge e)) =
      if LastOwner e x then 1 else 0
  | [], _, _, _, _, _ => by
    intro x hx
    rw [forest] at hx
    cases hx
  | t :: ts, ix, st, hnum, hnodup, hst => by
    rw [NumberedForest] at hnum
    rw [forestSeqs_cons, nodup_append] at hnodup
    intro x hx
    rw [writeSubgs]
    obtain hx | hx := mem_forest_cons.1 hx
    · have hne : x.label.seq ∉ forestSeqs ts := fun hmem =>
        hnodup.2.2 _ (mem_map_of_mem hx) _ hmem rfl
      rw [(writeSubgs_steps ts _).count (.wrote _ _) hne]
      exact writeSubg_count t ix st hnum.1 hnodup.1 hst x hx
    · exact writeSubgs_count ts (ix + t.size) _ hnum.2 hnodup.2.1 (hst.writeSubg hnum.1) x hx

end

/-! ## Braces -/

/-- The braces of a graph are opened and closed once, and everything that is done for the graph and
those below it is done between them. -/
def Braced (x : Graph) (T : List Event) (a seg c : List Event) : Prop :=
  T = a ++ .hdr x.label.seq :: (seg ++ .trl x.label.seq :: c) ∧
    (∀ ev ∈ a ++ c, ev.graph ∉ seqs x) ∧
    ∀ ev ∈ seg, ev.graph ∈ seqs x ∧ (ev.graph = x.label.seq → ev.brace = false)

/-- More events of other graphs around the braces. -/
theorem Braced.around {T a seg c : List Event} (h : Braced x T a seg c) (a' c' : List Event)
    (hout : ∀ ev ∈ a' ++ c', ev.graph ∉ seqs x) :
    Braced x (a' ++ (T ++ c')) (a' ++ a) seg (c ++ c') := by
  obtain ⟨rfl, hac, hseg⟩ := h
  refine ⟨by simp only [append_assoc, cons_append], fun ev hev => ?_, hseg⟩
  simp only [mem_append] at hev hout hac
  rcases hev with (h | h) | (h | h)
  · exact hout ev (.inl h)
  · exact hac ev (.inl h)
  · exact hac ev (.inr h)
  · exact hout ev (.inr h)

/-- What is written in the bodies of a graph and those below it is written between its braces. -/
theorem Braced.count {T a seg c : List Event} (h : Braced x T a seg c) (hy : y ∈ x.subtrees) :
    T.count (.wrote y.label.seq o) = seg.count (.wrote y.label.seq o) := by
  obtain ⟨rfl, hout, -⟩ := h
  have hmem : y.label.seq ∈ seqs x := mem_map_of_mem hy
  have ha : a.count (.wrote y.label.seq o) = 0 := count_eq_zero_of_not_mem fun h =>
    hout _ (mem_append_left _ h) hmem
  have hc : c.count (.wrote y.label.seq o) = 0 := count_eq_zero_of_not_mem fun h =>
    hout _ (mem_append_right _ h) hmem
  simp [count_append, ha, hc]

/-- The graphs below a graph of a list of trees are from the list. -/
theorem seqs_subset_forestSeqs (hx : x ∈ forest ts) : ∀ s ∈ seqs x, s ∈ forestSeqs ts := by
  intro s hs
  obtain ⟨y, hy, rfl⟩ := mem_map.1 hs
  exact mem_map_of_mem (mem_forest_trans hx hy)

theorem seqs_subset_seqs (hx : x ∈ t.subtrees) : ∀ s ∈ seqs x, s ∈ seqs t := by
  intro s hs
  obtain ⟨y, hy, rfl⟩ := mem_map.1 hs
  exact mem_map_of_mem (mem_subtrees_trans hx hy)

mutual

/-- Every graph whose body is written has its braces. -/
theorem writeSubg_braces : ∀ (t : Graph) (st : WriteInfo) (new : List Event), (seqs t).Nodup →
    (writeSubg pre nd st t).events = st.events ++ new →
    ∀ x ∈ t.subtrees, x.label.irrelevant = false → ∃ a seg c, Braced x new a seg c
  | .mk g subgs, st, new, hnodup, hnew => by
    rw [seqs_mk, nodup_cons] at hnodup
    intro x hx hrel
    cases hg : g.irrelevant with
    | true =>
      rw [writeSubg_irrelevant hg] at hnew
      obtain rfl | hx := mem_subtrees_iff.1 hx
      · rw [label, hg] at hrel
        cases hrel
      · exact writeSubgs_braces subgs st new hnodup.2 hnew x hx hrel
    | false =>
      have hsteps : Steps pre _ _ (writeSubgs pre nd (st.log (.hdr g.seq)) subgs) :=
        writeSubgs_steps subgs _
      obtain ⟨below, hbelow, hmem⟩ := hsteps.events
      obtain ⟨body, hbody, hself⟩ :=
        bodyLoop_braces pre nd g (writeSubgs pre nd (st.log (.hdr g.seq)) subgs)
      have hall : new = [.hdr g.seq] ++ (below ++ (body ++ [.trl g.seq])) := by
        rw [writeSubg_relevant hg, WriteInfo.log, hbody, hbelow, WriteInfo.log] at hnew
        simpa only [append_assoc, append_cancel_left_eq] using hnew.symm
      obtain rfl | hx := mem_subtrees_iff.1 hx
      · refine ⟨[], below ++ body, [], ?_, nofun, fun ev hev => ?_⟩
        · rw [hall]
          simp [label]
        · rw [seqs_mk, label]
          obtain hev | hev := mem_append.1 hev
          · exact ⟨mem_cons_of_mem _ (hmem ev hev), fun heq => absurd (heq ▸ hmem ev hev) hnodup.1⟩
          · obtain ⟨hgraph, hbrace⟩ := hself ev hev
            exact ⟨hgraph ▸ mem_cons_self, fun _ => hbrace⟩
      · obtain ⟨a, seg, c, h⟩ := writeSubgs_braces subgs _ below hnodup.2 hbelow x hx hrel
        have h := h.around [.hdr g.seq] (body ++ [Event.trl g.seq]) fun ev hev => ?_
        · exact ⟨_, seg, _, hall ▸ h⟩
        have hev : ev.graph = g.seq := by
          simp only [mem_append, mem_singleton] at hev
          obtain rfl | hev | rfl := hev
          · rfl
          · exact (hself ev hev).1
          · rfl
        rw [hev]
        exact fun hs => hnodup.1 (seqs_subset_forestSeqs hx _ hs)

theorem writeSubgs_braces : ∀ (ts : List Graph) (st : WriteInfo) (new : List Event),
    (forestSeqs ts).Nodup → (writeSubgs pre nd st ts).events = st.events ++ new →
    ∀ x ∈ forest ts, x.label.irrelevant = false → ∃ a seg c, Braced x new a seg c
  | [], _, _, _, _ => by
    intro x hx
    rw [forest] at hx
    cases hx
  | t :: ts, st, new, hnodup, hnew => by
    rw [forestSeqs_cons, nodup_append] at hnodup
    have hsteps : Steps pre _ _ (writeSubg pre nd st t) := writeSubg_steps t st
    have hsteps' : Steps pre _ _ (writeSubgs pre nd (writeSubg pre nd st t) ts) :=
      writeSubgs_steps ts _
    obtain ⟨first, hfirst, hmem⟩ := hsteps.events
    obtain ⟨rest, hrest, hmem'⟩ := hsteps'.events
    have hall : new = first ++ rest := by
      rw [writeSubgs, hrest, hfirst, append_assoc] at hnew
      exact (append_cancel_left hnew).symm
    intro x hx hrel
    obtain hx | hx := mem_forest_cons.1 hx
    · obtain ⟨a, seg, c, h⟩ := writeSubg_braces t st first hnodup.1 hfirst x hx hrel
      refine ⟨_, seg, _, hall ▸ h.around [] rest fun ev hev hs => ?_⟩
      exact hnodup.2.2 _ (seqs_subset_seqs hx _ hs) _ (hmem' ev hev) rfl
    · obtain ⟨a, seg, c, h⟩ := writeSubgs_braces ts _ rest hnodup.2.1 hrest x hx hrel
      have h := h.around first [] fun ev hev hs => by
        rw [append_nil] at hev
        exact hnodup.2.2 _ (hmem ev hev) _ (seqs_subset_forestSeqs hx _ hs) rfl
      rw [append_nil] at h
      exact ⟨_, seg, _, hall ▸ h⟩

end

/-! ## `agwrite` -/

/-- A graph with its subgraphs, which have distinct sequence numbers. -/
structure Hierarchy where
  root : Graph
  nodup : (seqs root).Nodup

/-- The hierarchy as it is written: whether the graph is irrelevant is asked of subgraphs only. -/
def Hierarchy.tree (h : Hierarchy) : Graph :=
  .mk { h.root.label with irrelevant := false } h.root.children

theorem Hierarchy.nodup_tree (h : Hierarchy) : (seqs h.tree).Nodup := by
  obtain ⟨⟨g, subgs⟩, hnodup⟩ := h
  rw [tree, seqs_mk]
  rw [seqs_mk] at hnodup
  exact hnodup

/-- Nothing has been written yet. -/
abbrev start : WriteInfo := { last_written := fun _ => 0, events := [] }

/-- `agwrite` writes the graph as `write_subgs` writes a subgraph. -/
theorem agwrite_eq (h : Hierarchy) (nd : ℕ → Bool) : agwrite h.root nd =
    writeSubg (beforeWrite h.root) nd start h.tree := by
  obtain ⟨⟨g, subgs⟩, _⟩ := h
  rw [Hierarchy.tree, writeSubg_relevant rfl]
  rfl

theorem Hierarchy.numbered (h : Hierarchy) :
    Numbered (fun g => beforeWrite h.root g.seq) 1 h.tree := by
  obtain ⟨⟨g, subgs⟩, hnodup⟩ := h
  have hnum := subgdfs_numbered (.mk g subgs) (fun _ => 0) 1 hnodup
  rw [Numbered] at hnum
  rw [tree, Numbered]
  exact hnum

/-- Graphs of the hierarchy with one sequence number are one graph. -/
theorem Hierarchy.seqs_inj (h : Hierarchy) (hx : x ∈ h.tree.subtrees) (hy : y ∈ h.tree.subtrees)
    (heq : y.label.seq = x.label.seq) : seqs y = seqs x := by
  rw [inj_on_of_nodup_map h.nodup_tree hy hx heq]

/-- A graph with an edge between two nodes. -/
def oneEdge (seq : ℕ) : Body :=
  { seq, irrelevant := false, nodes := [1, 2], out := fun n => if n = 1 then [⟨7, 2⟩] else [] }

/-- An edge that a graph shares with its two subgraphs. -/
def sharedEdge : Hierarchy where
  root := .mk (oneEdge 0) [.mk (oneEdge 1) [], .mk (oneEdge 2) []]
  nodup := by decide

end Graphviz.Write
