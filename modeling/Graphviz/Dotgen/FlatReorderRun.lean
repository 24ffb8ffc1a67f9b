import Graphviz.Dotgen.FlatReorder
import Graphviz.Library.Precedes

/-!
# The result of `flat_reorder`

The search lists a node after the nodes that it must come before, so that the list, or its reverse,
is an order that the constraining flat edges follow. Every node of a rank whose constraining edges
have no cycle is listed once: it constrains nothing and nothing constrains it, or the search comes
to it from a node that nothing constrains.
-/

namespace Graphviz

open Function List Nat Outcome Precedes Relation

variable {n : ℕ}

namespace FlatRanks

variable {g g' : FlatRanks n} {r : ℕ} {u v w x : Fin n} {st : Search n}

/-- The constraining flat edges of a rank have a cycle. -/
def Cyclic (g : FlatRanks n) (r : ℕ) : Prop := ∃ v ∈ g.rank r, TransGen g.Constrains v v

/-- No constraining flat edge is at a node. -/
def Isolated (g : FlatRanks n) (v : Fin n) : Prop :=
  ∀ u, ¬ g.Constrains u v ∧ ¬ g.Constrains v u

/-! ## The search -/

/-- The number of nodes without a mark. -/
def unmarked (mark : Fin n → Bool) : ℕ := (Finset.univ.filter fun v => mark v = false).card

theorem unmarked_le (mark : Fin n → Bool) : unmarked mark ≤ n :=
  (Finset.card_filter_le _ _).trans (Finset.card_fin n).le

theorem unmarked_update {mark mark' : Fin n → Bool} (hv : mark v = false) (hv' : mark' v = true)
    (h : ∀ x, mark x = true → mark' x = true) : unmarked mark' < unmarked mark := by
  refine Finset.card_lt_card (Finset.ssubset_iff_of_subset (fun x hx => ?_) |>.2 ⟨v, ?_, ?_⟩)
  · rw [Finset.mem_filter] at hx ⊢
    refine ⟨hx.1, Bool.eq_false_iff.2 fun hm => ?_⟩
    rw [h x hm] at hx
    cases hx.2
  · exact Finset.mem_filter.2 ⟨Finset.mem_univ v, hv⟩
  · rw [Finset.mem_filter, hv']
    exact fun hx => nomatch hx.2

/-- The nodes that a part of the search lists. -/
structure Listed (g : FlatRanks n) (r : ℕ) (v : Fin n) (st st' : Search n)
    (new : List (Fin n)) : Prop where
  temprank : st'.temprank = st.temprank ++ new
  nodup : new.Nodup
  mark : ∀ x, st'.mark x = true ↔ st.mark x = true ∨ x ∈ new
  unmarked : ∀ x ∈ new, st.mark x = false
  reach : ∀ x ∈ new, x ∈ g.rank r ∧ ReflTransGen g.Constrains v x
  after : ¬ g.Cyclic r → ∀ x ∈ new, ∀ y, g.Constrains x y → Before st'.temprank y x

/-- The nodes that are marked and not listed lead to the node that the search is at. -/
def OnPath (g : FlatRanks n) (r : ℕ) (st : Search n) (v : Fin n) : Prop :=
  ∀ x ∈ g.rank r, st.mark x = true → x ∈ st.temprank ∨ TransGen g.Constrains x v

/-- The loop of `postorder` over the flat edges of `v` has come to the edges `rest`. -/
def Searched (g : FlatRanks n) (r : ℕ) (v : Fin n) (st : Search n) (rest : List ℕ)
    (st' : Search n) : Prop :=
  ∃ done new, g.flatOut v = done ++ rest ∧
    Listed g r v { st with mark := update st.mark v true } st' new ∧
    (¬ g.Cyclic r → ∀ e ∈ done, g.constrainingFlatEdge e = true → g.aghead e ∈ st'.temprank)

theorem Listed.refl (g : FlatRanks n) (r : ℕ) (v : Fin n) (st : Search n) :
    Listed g r v st st [] where
  temprank := (List.append_nil _).symm
  nodup := nodup_nil
  mark _ := by simp
  unmarked := nofun
  reach := nofun
  after _ := nofun

/-- A part of the search after another. -/
theorem Listed.append {st₁ st₂ : Search n} {new new' : List (Fin n)}
    (h : Listed g r v st st₁ new) (h' : Listed g r w st₁ st₂ new')
    (hvw : ReflTransGen g.Constrains v w) : Listed g r v st st₂ (new ++ new') where
  temprank := by rw [h'.temprank, h.temprank, List.append_assoc]
  nodup := by
    refine nodup_append'.2 ⟨h.nodup, h'.nodup, fun x hx hx' => ?_⟩
    have hm := h'.unmarked x hx'
    rw [(h.mark x).2 (.inr hx)] at hm
    cases hm
  mark x := by
    rw [h'.mark, h.mark, mem_append, or_assoc]
  unmarked x hx := by
    obtain hx | hx := mem_append.1 hx
    · exact h.unmarked x hx
    · refine Bool.eq_false_iff.2 fun hm => ?_
      have hm' := h'.unmarked x hx
      rw [(h.mark x).2 (.inl hm)] at hm'
      cases hm'
  reach x hx := by
    obtain hx | hx := mem_append.1 hx
    · exact h.reach x hx
    · exact ⟨(h'.reach x hx).1, hvw.trans (h'.reach x hx).2⟩
  after hacyclic x hx y hc := by
    obtain hx | hx := mem_append.1 hx
    · refine (h.after hacyclic x hx y hc).mono ?_
      rw [h'.temprank]
      exact sublist_append_left _ _
    · exact h'.after hacyclic x hx y hc

theorem marked_iff :
    Search.mark { st with mark := update st.mark v true } x = true ↔ x = v ∨ st.mark x = true := by
  by_cases hxv : x = v
  · subst hxv
    simp
  · simp [hxv]

/-- One edge of the loop. -/
theorem Searched.step (h : g.Valid) {fuel : ℕ} {e : ℕ} {rest : List ℕ} {st₁ : Search n}
    (ih : ∀ {w : Fin n} {st : Search n}, w ∈ g.rank r → st.mark w = false → OnPath g r st w →
      unmarked st.mark < fuel → Meets (g.postorder r fuel w st)
        (fun st' => ∃ new, Listed g r w st st' new ∧ w ∈ new) (fun _ => False))
    (hv : v ∈ g.rank r) (hmark : st.mark v = false) (hpath : OnPath g r st v)
    (hfuel : unmarked st.mark < fuel + 1) (hs : Searched g r v st (e :: rest) st₁) :
    Meets (if g.constrainingFlatEdge e then
        if st₁.mark (g.aghead e) then .ok st₁ else g.postorder r fuel (g.aghead e) st₁
      else .ok st₁) (Searched g r v st rest) (fun _ => False) := by
  obtain ⟨done, new, hsplit, hl, hheads⟩ := hs
  have hsplit' : g.flatOut v = (done ++ [e]) ++ rest := by rw [hsplit]; simp
  split
  · rename_i hcon
    have hc : g.Constrains v (g.aghead e) := ⟨e, by rw [hsplit]; simp, hcon, rfl⟩
    have hw : g.aghead e ∈ g.rank r := (h.closed v _ r hc).1 hv
    split
    · rename_i hm
      refine ⟨done ++ [e], new, hsplit', hl, fun hacyclic f hf hfcon => ?_⟩
      obtain hf | hf := mem_append.1 hf
      · exact hheads hacyclic f hf hfcon
      · rw [mem_singleton.1 hf]
        obtain hold | hnew := (hl.mark _).1 hm
        · obtain hwv | hold := marked_iff.1 hold
          · exact absurd ⟨v, hv, .single (hwv ▸ hc)⟩ hacyclic
          · obtain hmem | hreach := hpath _ hw hold
            · rw [hl.temprank]
              exact mem_append_left _ hmem
            · exact absurd ⟨v, hv, .head hc hreach⟩ hacyclic
        · rw [hl.temprank]
          exact mem_append_right _ hnew
    · rename_i hm
      have hmarked : ∀ x, st.mark x = true → st₁.mark x = true := fun x hx =>
        (hl.mark x).2 (.inl (marked_iff.2 (.inr hx)))
      have hvm : st₁.mark v = true := (hl.mark v).2 (.inl (marked_iff.2 (.inl rfl)))
      have hpath' : OnPath g r st₁ (g.aghead e) := by
        intro x hx hxm
        rw [hl.temprank]
        obtain hold | hnew := (hl.mark x).1 hxm
        · obtain hxv | hold := marked_iff.1 hold
          · exact .inr (hxv ▸ .single hc)
          · exact (hpath x hx hold).imp (mem_append_left _) fun hreach => hreach.tail hc
        · exact .inl (mem_append_right _ hnew)
      have hless := unmarked_update hmark hvm hmarked
      refine (ih hw (Bool.eq_false_iff.2 hm) hpath' (by omega)).imp fun st2 ⟨new', hl', hmem⟩ => ?_
      refine ⟨done ++ [e], new ++ new', hsplit', hl.append hl' (.single hc),
        fun hacyclic f hf hfcon => ?_⟩
      rw [hl'.temprank]
      obtain hf | hf := mem_append.1 hf
      · exact mem_append_left _ (hheads hacyclic f hf hfcon)
      · rw [mem_singleton.1 hf]
        exact mem_append_right _ hmem
  · rename_i hcon
    refine ⟨done ++ [e], new, hsplit', hl, fun hacyclic f hf hfcon => ?_⟩
    obtain hf | hf := mem_append.1 hf
    · exact hheads hacyclic f hf hfcon
    · rw [mem_singleton.1 hf] at hfcon
      exact absurd hfcon hcon

/-- `postorder` lists a node, after the nodes that it must come before. -/
theorem Valid.postorder (h : g.Valid) {fuel : ℕ} (hv : v ∈ g.rank r) (hmark : st.mark v = false)
    (hpath : OnPath g r st v) (hfuel : unmarked st.mark < fuel) :
    Meets (g.postorder r fuel v st) (fun st' => ∃ new, Listed g r v st st' new ∧ v ∈ new)
      (fun _ => False) := by
  induction fuel generalizing v st with
  | zero => exact absurd hfuel (not_lt_zero _)
  | succ fuel ih =>
    rw [FlatRanks.postorder]
    refine (Meets.foldlM (Searched g r v st)
      (fun e rest st1 hs => hs.step h ih hv hmark hpath hfuel) _
      ⟨[], [], rfl, .refl g r v _, fun _ => nofun⟩).bind fun st1 ⟨done, new, hsplit, hl, hheads⟩ => ?_
    rw [assert, if_pos (h.nodeRank r v hv), ok_bind]
    have hvnew : v ∉ new := fun hmem => by
      have hm := hl.unmarked v hmem
      rw [marked_iff.2 (.inl rfl)] at hm
      cases hm
    have hlist : st1.temprank ++ [v] = st.temprank ++ (new ++ [v]) := by
      rw [hl.temprank, append_assoc]
    refine ⟨new ++ [v], ⟨hlist, ?_, fun x => ?_, fun x hx => ?_, fun x hx => ?_,
      fun hacyclic x hx y hc => ?_⟩, by simp⟩
    · exact nodup_append'.2 ⟨hl.nodup, nodup_singleton v, disjoint_singleton.2 hvnew⟩
    · rw [hl.mark, marked_iff, mem_append, mem_singleton]
      tauto
    · obtain hx | hx := mem_append.1 hx
      · refine Bool.eq_false_iff.2 fun hm => ?_
        have hm' := hl.unmarked x hx
        rw [marked_iff.2 (.inr hm)] at hm'
        cases hm'
      · rw [mem_singleton.1 hx]
        exact hmark
    · obtain hx | hx := mem_append.1 hx
      · exact hl.reach x hx
      · rw [mem_singleton.1 hx]
        exact ⟨hv, .refl⟩
    · obtain hx | hx := mem_append.1 hx
      · exact (hl.after hacyclic x hx y hc).mono (sublist_append_left _ _)
      · obtain ⟨e, he, hcon, rfl⟩ := hc
        rw [mem_singleton.1 hx] at he ⊢
        rw [hsplit, append_nil] at he
        exact before_append (hheads hacyclic e he hcon) mem_cons_self

/-! ## The nodes of a rank -/

theorem Valid.countP_in (h : g.Valid) :
    (g.flatIn v).countP g.constrainingFlatEdge = 0 ↔ ∀ u, ¬ g.Constrains u v := by
  rw [countP_eq_zero]
  constructor
  · rintro hin u ⟨e, he, hcon, rfl⟩
    exact hin e (h.outIn u e he) hcon
  · intro hnone e he hcon
    exact hnone (g.agtail e) ⟨e, h.inOut v e he, hcon, h.inHead v e he⟩

theorem countP_out : (g.flatOut v).countP g.constrainingFlatEdge = 0 ↔ ∀ u, ¬ g.Constrains v u := by
  rw [countP_eq_zero]
  constructor
  · rintro hout u ⟨e, he, hcon, -⟩
    exact hout e he hcon
  · exact fun hnone e he hcon => hnone _ ⟨e, he, hcon, rfl⟩

/-- The loop that makes `temprank` has gone through some nodes of the rank. -/
structure Scanned (g : FlatRanks n) (r : ℕ) (done : List (Fin n)) (st : Search n) : Prop where
  sub : ∀ x ∈ st.temprank, x ∈ g.rank r
  nodup : st.temprank.Nodup
  mark : ∀ x ∈ g.rank r, st.mark x = true ↔ x ∈ st.temprank ∧ ¬ g.Isolated x
  isolated : ∀ x ∈ st.temprank, g.Isolated x → x ∈ done
  source : ∀ x ∈ done, (∀ u, ¬ g.Constrains u x) → x ∈ st.temprank
  after : ¬ g.Cyclic r → ∀ x ∈ st.temprank, ∀ y, g.Constrains x y → Before st.temprank y x

/-- A node without constraining edges is listed. -/
theorem Scanned.append {done : List (Fin n)} (hs : Scanned g r done st) (hv : v ∈ g.rank r)
    (hnew : v ∉ done) (hiso : g.Isolated v) :
    Scanned g r (done ++ [v]) { st with temprank := st.temprank ++ [v] } where
  sub x hx := by
    obtain hx | hx := mem_append.1 hx
    · exact hs.sub x hx
    · rwa [mem_singleton.1 hx]
  nodup := nodup_append'.2 ⟨hs.nodup, nodup_singleton v,
    disjoint_singleton.2 fun hmem => hnew (hs.isolated v hmem hiso)⟩
  mark x hx := by
    rw [hs.mark x hx, mem_append, mem_singleton]
    refine and_congr_left fun hni => (or_iff_left fun hxv => hni ?_).symm
    rwa [hxv]
  isolated x hx hix := by
    obtain hx | hx := mem_append.1 hx
    · exact mem_append_left _ (hs.isolated x hx hix)
    · exact mem_append_right _ hx
  source x hx hsrc := by
    obtain hx | hx := mem_append.1 hx
    · exact mem_append_left _ (hs.source x hx hsrc)
    · exact mem_append_right _ hx
  after hacyclic x hx y hc := by
    obtain hx | hx := mem_append.1 hx
    · exact (hs.after hacyclic x hx y hc).mono (sublist_append_left _ _)
    · rw [mem_singleton.1 hx] at hc
      exact absurd hc (hiso y).2

/-- The nodes that the search from a node lists. -/
theorem Scanned.search {done new : List (Fin n)} {st' : Search n} (hs : Scanned g r done st)
    (hl : Listed g r v st st' new) (hv : v ∈ new) (hni : ¬ g.Isolated v) :
    Scanned g r (done ++ [v]) st' := by
  have hniso : ∀ x ∈ new, ¬ g.Isolated x := by
    intro x hx hiso
    obtain rfl | ⟨y, -, hc⟩ := ReflTransGen.cases_tail (hl.reach x hx).2
    · exact hni hiso
    · exact (hiso y).1 hc
  have hmem : ∀ x, x ∈ st'.temprank ↔ x ∈ st.temprank ∨ x ∈ new := fun x => by
    rw [hl.temprank, mem_append]
  refine ⟨fun x hx => ?_, ?_, fun x hx => ?_, fun x hx hiso => ?_, fun x hx hsrc => ?_,
    fun hacyclic x hx y hc => ?_⟩
  · exact ((hmem x).1 hx).elim (hs.sub x) fun hx => (hl.reach x hx).1
  · rw [hl.temprank]
    refine nodup_append'.2 ⟨hs.nodup, hl.nodup, fun x hx hx' => ?_⟩
    have hm := (hs.mark x (hs.sub x hx)).2 ⟨hx, hniso x hx'⟩
    rw [hl.unmarked x hx'] at hm
    cases hm
  · rw [hl.mark, hs.mark x hx, hmem]
    constructor
    · rintro (⟨hx, hni⟩ | hx)
      · exact ⟨.inl hx, hni⟩
      · exact ⟨.inr hx, hniso x hx⟩
    · rintro ⟨hx | hx, hni⟩
      · exact .inl ⟨hx, hni⟩
      · exact .inr hx
  · obtain hx | hx := (hmem x).1 hx
    · exact mem_append_left _ (hs.isolated x hx hiso)
    · exact absurd hiso (hniso x hx)
  · rw [hmem]
    obtain hx | hx := mem_append.1 hx
    · exact .inl (hs.source x hx hsrc)
    · rw [mem_singleton.1 hx]
      exact .inr hv
  · obtain hx | hx := (hmem x).1 hx
    · refine (hs.after hacyclic x hx y hc).mono ?_
      rw [hl.temprank]
      exact sublist_append_left _ _
    · exact hl.after hacyclic x hx y hc

/-- A node to which there are constraining edges, or to which the search has come, adds nothing. -/
theorem Scanned.skip {done : List (Fin n)} (hs : Scanned g r done st)
    (hv : (∀ u, ¬ g.Constrains u v) → v ∈ st.temprank) : Scanned g r (done ++ [v]) st where
  sub := hs.sub
  nodup := hs.nodup
  mark := hs.mark
  isolated x hx hiso := mem_append_left _ (hs.isolated x hx hiso)
  source x hx hsrc := by
    obtain hx | hx := mem_append.1 hx
    · exact hs.source x hx hsrc
    · rw [mem_singleton.1 hx] at hsrc ⊢
      exact hv hsrc
  after := hs.after

/-- The loop goes on by one node. -/
theorem Scanned.visit {done : List (Fin n)} (h : g.Valid) (hs : Scanned g r done st)
    (hv : v ∈ g.rank r) (hnew : v ∉ done) :
    Meets (g.visit r st v) (Scanned g r (done ++ [v])) (fun _ => False) := by
  rw [FlatRanks.visit]
  split
  · rename_i hiso
    exact hs.append hv hnew fun u => ⟨h.countP_in.1 hiso.1 u, countP_out.1 hiso.2 u⟩
  · rename_i hni
    have hni' : ¬ g.Isolated v := fun hiso =>
      hni ⟨h.countP_in.2 fun u => (hiso u).1, countP_out.2 fun u => (hiso u).2⟩
    split
    · rename_i hmark
      have hpath : OnPath g r st v := fun x hx hm => .inl ((hs.mark x hx).1 hm).1
      refine (h.postorder hv (Bool.eq_false_iff.2 hmark.1) hpath ?_).imp
        fun st' ⟨new, hl, hmem⟩ => hs.search hl hmem hni'
      exact lt_succ_of_le (unmarked_le _)
    · rename_i hmark
      refine hs.skip fun hsrc => ?_
      have hm : st.mark v = true := by
        by_contra hm
        exact hmark ⟨hm, h.countP_in.2 hsrc⟩
      exact ((hs.mark v hv).1 hm).1

/-- Without a cycle all nodes of the rank are listed. -/
theorem Scanned.mem (hs : Scanned g r (g.rank r) st) (hacyclic : ¬ g.Cyclic r) (h : g.Valid)
    (hv : v ∈ g.rank r) : v ∈ st.temprank := by
  by_contra hnot
  refine RelGraph.not_acyclic_of_pred (r := fun x y => x ∈ g.rank r ∧ g.Constrains x y)
    (S := fun x => x ∈ g.rank r ∧ x ∉ st.temprank) ⟨hv, hnot⟩ ?_ ?_
  · rintro x ⟨hx, hxt⟩
    obtain ⟨u, hc⟩ : ∃ u, g.Constrains u x := by
      by_contra hnone
      exact hxt (hs.source x hx (not_exists.1 hnone))
    have hu := (h.closed u x r hc).2 hx
    exact ⟨u, ⟨hu, fun hut => hxt (hs.after hacyclic u hut x hc).mem_left⟩, hu, hc⟩
  · intro x hx
    obtain ⟨y, ⟨hxr, -⟩, -⟩ := TransGen.head'_iff.1 hx
    exact hacyclic ⟨x, hxr, TransGen.mono (fun _ _ h => h.2) _ _ hx⟩

/-! ## The copy back -/

/-- A rank has its nodes in a new order, numbered from the base order on. -/
structure Copied (g : FlatRanks n) (r baseOrder : ℕ) (t : List (Fin n)) (k : ℕ)
    (g' : FlatRanks n) : Prop where
  le : k ≤ t.length
  eq : ∃ order, g' = { g with rank := update g.rank r (t.take k ++ (g.rank r).drop k), order }
  order : ∀ i < k, ∀ v, t[i]? = some v → g'.order v = i + baseOrder
  other : ∀ v, v ∉ t → g'.order v = g.order v

theorem set_take_append_drop {α : Type} {t l : List α} {k : ℕ} (ht : k < t.length)
    (hl : k < l.length) : (t.take k ++ l.drop k).set k t[k] = t.take (k + 1) ++ l.drop (k + 1) := by
  have hlen : (t.take k).length = k := length_take_of_le ht.le
  rw [set_append_right _ _ hlen.le, hlen, Nat.sub_self, drop_eq_getElem_cons hl,
    set_cons_zero, take_succ_eq_append_getElem ht, append_assoc]
  rfl

/-- The loop copies the list back, unless it is too short. -/
theorem copyBack_spec (g : FlatRanks n) (baseOrder : ℕ) {t : List (Fin n)} (ht : t.Nodup) (m : ℕ)
    (hm : m ≤ (g.rank r).length) :
    Meets ((List.range m).foldlM (copyBack r baseOrder t) g) (Copied g r baseOrder t m)
      (fun _ => t.length < m) := by
  rw [range_eq_range']
  refine Meets.range' _ 0 m (Copied g r baseOrder t) (fun k hk g1 hc => ?_) g ?_
  · rw [copyBack, Nat.zero_add]
    split
    · rename_i hnone
      exact (getElem?_eq_none_iff.1 hnone).trans_lt hk
    · rename_i v hsome
      obtain ⟨hlt, hv⟩ := List.getElem?_eq_some_iff.1 hsome
      obtain ⟨order, rfl⟩ := hc.eq
      refine ⟨hlt, ⟨update order v (k + baseOrder), ?_⟩, fun i hi w hw => ?_, fun w hw => ?_⟩
      · have hset := set_take_append_drop hlt (hk.trans_le hm)
        rw [hv] at hset
        simp only [update_self, update_idem, hset]
      · dsimp only
        obtain hlt' | rfl := Nat.lt_succ_iff_lt_or_eq.1 hi
        · have hwv : w ≠ v := by
            rintro rfl
            exact hlt'.ne ((getElem?_inj (hlt'.trans hlt) ht).1 (hw.trans hsome.symm))
          rw [update_of_ne hwv]
          exact hc.order i hlt' w hw
        · rw [hsome] at hw
          cases hw
          rw [update_self]
      · have hwv : w ≠ v := fun hwv => hw (hwv ▸ hv ▸ getElem_mem hlt)
        dsimp only
        rw [update_of_ne hwv]
        exact hc.other w hw
  · exact ⟨zero_le _, ⟨g.order, by simp⟩, fun i hi => absurd hi (not_lt_zero i),
      fun _ _ => rfl⟩

/-! ## One rank -/

/-- A rank has its nodes in an order that its constraining flat edges follow. -/
structure Reordered (g g' : FlatRanks n) (r : ℕ) : Prop where
  perm : (g'.rank r).Perm (g.rank r)
  order : ∀ first ∈ (g.rank r).head?, ∀ i v, (g'.rank r)[i]? = some v →
    g'.order v = i + g.order first
  side : ∀ u ∈ g.rank r, ∀ v, g.Constrains u v →
    if g.flip then g'.order v < g'.order u else g'.order u < g'.order v

/-- What the work on a rank leaves of the others. -/
structure Framed (g g' : FlatRanks n) (r : ℕ) : Prop where
  valid : g'.Valid
  rank : ∀ q, q ≠ r → g'.rank q = g.rank q
  order : ∀ v, v ∉ g.rank r → g'.order v = g.order v
  flip : g'.flip = g.flip
  same : ∀ e u v, g'.Constraint e u v ↔ g.Constraint e u v

theorem Framed.constrains (h : Framed g g' r) : g'.Constrains u v ↔ g.Constrains u v :=
  exists_congr fun e => h.same e u v

/-- What comes before what in a copied list is numbered less. -/
theorem Copied.lt {baseOrder : ℕ} {t : List (Fin n)} (hc : Copied g r baseOrder t t.length g')
    (ht : t.Nodup) (hb : Before t u v) : g'.order u < g'.order v := by
  have horder : ∀ w ∈ t, g'.order w = t.idxOf w + baseOrder := fun w hw =>
    hc.order _ (idxOf_lt_length_of_mem hw) w (getElem?_idxOf hw)
  rw [horder u hb.mem_left, horder v hb.mem_right]
  exact Nat.add_lt_add_right (hb.idxOf_lt ht) _

/-- The loop over the nodes of a rank makes their edges go the right way. -/
theorem Valid.makeAllLR (h : g.Valid) :
    Meets (g.makeAllLR r) (fun g' => g'.Valid ∧ Kept g g')
      (fun _ => ∃ v ∈ g.rank r, ¬ g.Ordered v) := by
  have hloop : ∀ l ⊆ g.rank r, ∀ g1 : FlatRanks n, g1.Valid → Kept g g1 →
      Meets (l.foldlM (fun g v => FlatRanks.makeLR v ((g.flatOut v).length + 1) 0 g) g1)
        (fun g' => g'.Valid ∧ Kept g g') (fun _ => ∃ v ∈ g.rank r, ¬ g.Ordered v) := by
    intro l hl
    induction l with
    | nil => exact fun g1 hv hk => ⟨hv, hk⟩
    | cons v l ih =>
      intro g1 hv hk
      rw [foldlM_cons]
      refine ((hv.makeLR (v := v) (by omega)).mono (fun _ => id) fun _ hnot => ⟨v, hl (by simp),
        fun hord => hnot (hk.ordered.2 hord)⟩).bind fun g2 ⟨hv2, hk2⟩ =>
          ih (fun x hx => hl (mem_cons_of_mem v hx)) g2 hv2 (hk.trans hk2)
  exact hloop _ (List.Subset.refl _) g h (.refl g)

/-- The whole of a rank in a new order. -/
theorem Copied.framed {baseOrder : ℕ} {t : List (Fin n)} (h : g.Valid)
    (hc : Copied g r baseOrder t t.length g') (hperm : t.Perm (g.rank r)) :
    Framed g g' r ∧ g'.rank r = t := by
  obtain ⟨order, heq⟩ := hc.eq
  rw [take_length, hperm.length_eq, drop_length, append_nil] at heq
  have hsame : ∀ e u v, g'.Constraint e u v ↔ g.Constraint e u v := by
    rw [heq]
    exact fun _ _ _ => .rfl
  have hself : g'.rank r = t := by
    rw [heq]
    exact update_self _ _ _
  have hother : ∀ q, q ≠ r → g'.rank q = g.rank q := by
    rw [heq]
    exact fun q hq => update_of_ne hq _ _
  have hmem : ∀ q x, x ∈ g'.rank q ↔ x ∈ g.rank q := by
    intro q x
    by_cases hq : q = r
    · subst hq
      rw [hself]
      exact hperm.mem_iff
    · rw [hother q hq]
  refine ⟨⟨⟨?_, ?_, ?_, ?_, ?_, ?_, ?_, ?_, fun q => ?_, fun q x hx => ?_, fun u v q huv => ?_⟩,
    hother, fun v hv => hc.other v fun hv' => hv (hperm.mem_iff.1 hv'), ?_, hsame⟩, hself⟩
  · rw [heq]; exact h.outTail
  · rw [heq]; exact h.inHead
  · rw [heq]; exact h.outIn
  · rw [heq]; exact h.inOut
  · rw [heq]; exact h.outNodup
  · rw [heq]; exact h.inNodup
  · rw [heq]; exact h.virt
  · rw [heq]; exact h.fresh
  · by_cases hq : q = r
    · subst hq
      rw [hself]
      exact hperm.nodup_iff.2 (h.rankNodup q)
    · rw [hother q hq]
      exact h.rankNodup q
  · have hnode : g'.nodeRank = g.nodeRank := by rw [heq]
    rw [hnode]
    exact h.nodeRank q x ((hmem q x).1 hx)
  · rw [hmem, hmem]
    exact h.closed u v q (huv.imp fun e => (hsame e u v).1)
  · rw [heq]

theorem Framed.kept {g₁ g₂ : FlatRanks n} (h : Framed g g₁ r) (hv : g₂.Valid) (hk : Kept g₁ g₂) :
    Framed g g₂ r where
  valid := hv
  rank q hq := by rw [hk.rank, h.rank q hq]
  order v hv := by rw [hk.order, h.order v hv]
  flip := hk.flip.trans h.flip
  same e u v := (hk.same e u v).trans (h.same e u v)

theorem Reordered.kept {g₁ g₂ : FlatRanks n} (h : Reordered g g₁ r) (hk : Kept g₁ g₂) :
    Reordered g g₂ r where
  perm := by
    rw [hk.rank]
    exact h.perm
  order := by
    rw [hk.rank, hk.order]
    exact h.order
  side := by
    rw [hk.order]
    exact h.side

theorem Reordered.ordered (h : Reordered g g' r) (hf : Framed g g' r) (hv : v ∈ g.rank r) :
    g'.Ordered v := by
  intro w hw
  have hside := h.side v hv w (hf.constrains.1 hw)
  rw [hf.flip]
  split
  · rename_i hflip
    rw [if_pos hflip] at hside
    exact hside.le
  · rename_i hflip
    rw [if_neg hflip] at hside
    exact hside.le

/-- The list, or its reverse where the layout is not flipped, is an order that the edges follow. -/
theorem Scanned.reordered (h : g.Valid) (hs : Scanned g r (g.rank r) st) {first : Fin n}
    (hfirst : (g.rank r).head? = some first) {t : List (Fin n)}
    (ht : t = if g.flip then st.temprank else st.temprank.reverse) (hperm : t.Perm (g.rank r))
    (hc : Copied g r (g.order first) t t.length g') (hacyclic : ¬ g.Cyclic r) :
    Reordered g g' r := by
  have hrank := (hc.framed h hperm).2
  have hnodup : t.Nodup := hperm.nodup_iff.2 (h.rankNodup r)
  refine ⟨hrank ▸ hperm, fun f hf i v hi => ?_, fun u hu v huv => ?_⟩
  · rw [hfirst] at hf
    cases hf
    rw [hrank] at hi
    exact hc.order i (List.getElem?_eq_some_iff.1 hi).1 v hi
  · have hb := hs.after hacyclic u (hs.mem hacyclic h hu) v huv
    split
    · rename_i hflip
      rw [if_pos hflip] at ht
      exact hc.lt hnodup (ht ▸ hb)
    · rename_i hflip
      rw [if_neg hflip] at ht
      exact hc.lt hnodup (ht ▸ hb.reverse)

/-- A rank takes the order of the list. -/
theorem Scanned.install (h : g.Valid) (hs : Scanned g r (g.rank r) st) {first : Fin n}
    (hfirst : (g.rank r).head? = some first) :
    Meets (g.install r (g.order first) st.temprank)
      (fun g' => Framed g g' r ∧ (¬ g.Cyclic r → Reordered g g' r)) (fun _ => g.Cyclic r) := by
  rw [FlatRanks.install]
  split
  · generalize ht : (if g.flip then st.temprank else st.temprank.reverse) = t
    have hmemt : ∀ x, x ∈ t ↔ x ∈ st.temprank := fun x => by
      rw [← ht]
      split
      · rfl
      · exact mem_reverse
    have hnodup : t.Nodup := by
      rw [← ht]
      split
      · exact hs.nodup
      · exact nodup_reverse.2 hs.nodup
    have hsub : t.Subperm (g.rank r) := hnodup.subperm fun x hx => hs.sub x ((hmemt x).1 hx)
    have hcyclic : t.length < (g.rank r).length → g.Cyclic r := fun hlt => by
      by_contra hacyclic
      have hsub' : g.rank r ⊆ t := fun x hx => (hmemt x).2 (hs.mem hacyclic h hx)
      have := ((h.rankNodup r).subperm hsub').length_le
      omega
    refine ((copyBack_spec g (g.order first) hnodup _ le_rfl).mono (fun _ => id)
      fun _ => hcyclic).bind fun g1 hc => ?_
    have hlen : t.length = (g.rank r).length := le_antisymm hsub.length_le hc.le
    have hperm : t.Perm (g.rank r) := hsub.perm_of_length_le hlen.ge
    rw [← hlen] at hc
    obtain ⟨hframe, hrank⟩ := hc.framed h hperm
    have hre := hs.reordered h hfirst ht.symm hperm hc
    have hfail : (∃ v ∈ g1.rank r, ¬ g1.Ordered v) → g.Cyclic r := by
      rintro ⟨v, hv, hnot⟩
      by_contra hacyclic
      rw [hrank] at hv
      exact hnot ((hre hacyclic).ordered hframe (hperm.mem_iff.1 hv))
    exact (hframe.valid.makeAllLR.mono (fun _ => id) fun _ => hfail).imp fun g2 ⟨hv2, hk2⟩ =>
      ⟨hframe.kept hv2 hk2, fun hacyclic => (hre hacyclic).kept hk2⟩
  · rename_i hnil
    refine ⟨⟨h, fun _ _ => rfl, fun _ _ => rfl, rfl, fun _ _ _ => .rfl⟩, fun hacyclic => ?_⟩
    have hmem := hs.mem hacyclic h (mem_of_mem_head? hfirst)
    rw [not_not.1 hnil] at hmem
    cases hmem

theorem scanned_nil (g : FlatRanks n) (r : ℕ) (mark : Fin n → Bool) :
    Scanned g r [] { mark := fun v => if v ∈ g.rank r then false else mark v, temprank := [] } where
  sub := nofun
  nodup := nodup_nil
  mark x hx := by simp [hx]
  isolated := nofun
  source := nofun
  after _ := nofun

theorem Valid.setMark (h : g.Valid) (mark : Fin n → Bool) : Valid { g with mark } :=
  ⟨h.outTail, h.inHead, h.outIn, h.inOut, h.outNodup, h.inNodup, h.virt, h.fresh, h.rankNodup,
    h.nodeRank, h.closed⟩

theorem Valid.setValid (h : g.Valid) (valid : ℕ → Bool) : Valid { g with valid } :=
  ⟨h.outTail, h.inHead, h.outIn, h.inOut, h.outNodup, h.inNodup, h.virt, h.fresh, h.rankNodup,
    h.nodeRank, h.closed⟩

/-- The body of the loop of `flat_reorder` over the ranks. -/
theorem Valid.reorderRank (h : g.Valid) :
    Meets (g.reorderRank r) (fun g' => Framed g g' r ∧ (¬ g.Cyclic r → Reordered g g' r))
      (fun _ => g.Cyclic r) := by
  rw [FlatRanks.reorderRank]
  split
  · rename_i hnil
    refine ⟨⟨h, fun _ _ => rfl, fun _ _ => rfl, rfl, fun _ _ _ => .rfl⟩, fun _ => ⟨.refl _, ?_, ?_⟩⟩
    · rw [hnil]
      exact nofun
    · rw [hnil]
      exact nofun
  · rename_i first rest hcons
    dsimp only
    set scan := if g.flip then g.rank r else (g.rank r).reverse with hscan
    have hmem : ∀ v, v ∈ scan ↔ v ∈ g.rank r := fun v => by
      rw [hscan]
      split
      · rfl
      · exact mem_reverse
    have hnodup : scan.Nodup := by
      rw [hscan]
      split
      · exact h.rankNodup r
      · exact nodup_reverse.2 (h.rankNodup r)
    have hloop := Meets.foldlM (f := g.visit r) (E := fun _ => False) (l := scan)
      (fun left st => ∃ done, scan = done ++ left ∧ Scanned g r done st)
      (fun v left st ⟨done, hsplit, hs⟩ => by
        have hnew : v ∉ done := fun hd =>
          (nodup_append'.1 (hsplit ▸ hnodup)).2.2 hd mem_cons_self
        exact (hs.visit h ((hmem v).1 (hsplit ▸ by simp)) hnew).imp fun st' hs' =>
          ⟨done ++ [v], by rw [hsplit]; simp, hs'⟩)
      _ ⟨[], rfl, scanned_nil g r g.mark⟩
    refine (hloop.mono (fun _ => id) fun _ => False.elim).bind fun st ⟨done, hsplit, hs⟩ => ?_
    rw [append_nil] at hsplit
    subst hsplit
    have hs' : Scanned { g with mark := st.mark } r (g.rank r) st :=
      ⟨hs.sub, hs.nodup, hs.mark, fun x hx hiso => (hmem x).1 (hs.isolated x hx hiso),
        fun x hx => hs.source x ((hmem x).2 hx), hs.after⟩
    have hfirst : (g.rank r).head? = some first := by rw [hcons]; rfl
    exact (hs'.install (h.setMark st.mark) hfirst).bind fun g' ⟨hf, hr⟩ =>
      ⟨⟨hf.valid.setValid _, hf.rank, hf.order, hf.flip, hf.same⟩, fun hacyclic =>
        ⟨(hr hacyclic).perm, (hr hacyclic).order, (hr hacyclic).side⟩⟩

/-! ## All ranks -/

/-- The loop over the ranks has done `k` of them, from the rank `lo` on. -/
structure Progress (g : FlatRanks n) (lo k : ℕ) (g' : FlatRanks n) : Prop where
  valid : g'.Valid
  flip : g'.flip = g.flip
  same : ∀ e u v, g'.Constraint e u v ↔ g.Constraint e u v
  rank : ∀ q, lo + k ≤ q → g'.rank q = g.rank q
  order : ∀ q, lo + k ≤ q → ∀ v ∈ g.rank q, g'.order v = g.order v
  done : ∀ q, lo ≤ q → q < lo + k → ¬ g.Cyclic q → Reordered g g' q

theorem cyclic_congr (hr : g'.rank r = g.rank r)
    (hsame : ∀ e u v, g'.Constraint e u v ↔ g.Constraint e u v) : g'.Cyclic r ↔ g.Cyclic r := by
  have hc : g'.Constrains = g.Constrains :=
    funext fun u => funext fun v => propext (exists_congr fun e => hsame e u v)
  rw [Cyclic, Cyclic, hr, hc]

/-- Work that leaves the nodes of a rank alone leaves it as it was put in order. -/
theorem Reordered.frame {g'' : FlatRanks n} (h : Reordered g g' r) (hv : g.Valid)
    (hr : g''.rank r = g'.rank r) (ho : ∀ v ∈ g'.rank r, g''.order v = g'.order v) :
    Reordered g g'' r := by
  refine ⟨hr ▸ h.perm, fun f hf i v hi => ?_, fun u hu v huv => ?_⟩
  · rw [hr] at hi
    rw [ho v (mem_of_getElem? hi)]
    exact h.order f hf i v hi
  · rw [ho u (h.perm.mem_iff.2 hu), ho v (h.perm.mem_iff.2 ((hv.closed u v r huv).1 hu))]
    exact h.side u hu v huv

/-- The order that a rank is given depends on the rank, and on the edges that constrain, alone. -/
theorem Reordered.congr {g₁ : FlatRanks n} (h : Reordered g₁ g' r) (hr : g₁.rank r = g.rank r)
    (ho : ∀ v ∈ g.rank r, g₁.order v = g.order v) (hflip : g₁.flip = g.flip)
    (hsame : ∀ e u v, g₁.Constraint e u v ↔ g.Constraint e u v) : Reordered g g' r := by
  refine ⟨hr ▸ h.perm, fun f hf i v hi => ?_, fun u hu v huv => ?_⟩
  · rw [← ho f (mem_of_mem_head? hf)]
    exact h.order f (hr ▸ hf) i v hi
  · rw [← hflip]
    exact h.side u (hr ▸ hu) v (huv.imp fun e => (hsame e u v).2)

/-- One rank more. -/
theorem Progress.step {g₁ : FlatRanks n} {lo k : ℕ} (h : g.Valid) (hp : Progress g lo k g₁) :
    Meets (g₁.reorderRank (lo + k)) (Progress g lo (k + 1)) (fun _ => g.Cyclic (lo + k)) := by
  have hrank := hp.rank (lo + k) le_rfl
  have hcyc : g₁.Cyclic (lo + k) ↔ g.Cyclic (lo + k) := cyclic_congr hrank hp.same
  refine hp.valid.reorderRank.mono (fun g2 ⟨hf, hr⟩ => ?_) fun _ => hcyc.1
  -- a node of another rank is not on this one
  have hother : ∀ q, q ≠ lo + k → ∀ v ∈ g₁.rank q, g2.order v = g₁.order v := fun q hq v hv =>
    hf.order v fun hv' =>
      hq ((hp.valid.nodeRank q v hv).symm.trans (hp.valid.nodeRank (lo + k) v hv'))
  refine ⟨hf.valid, hf.flip.trans hp.flip, fun e u v => (hf.same e u v).trans (hp.same e u v),
    fun q hq => ?_, fun q hq v hv => ?_, fun q hlo hq hacyclic => ?_⟩
  · exact (hf.rank q (by omega)).trans (hp.rank q (by omega))
  · rw [hother q (by omega) v (hp.rank q (by omega) ▸ hv)]
    exact hp.order q (by omega) v hv
  · by_cases hlast : q = lo + k
    · subst hlast
      exact (hr (mt hcyc.1 hacyclic)).congr hrank (hp.order _ le_rfl) hp.flip hp.same
    · exact (hp.done q hlo (by omega) hacyclic).frame h (hf.rank q hlast) (hother q hlast)

/-- The loop over the ranks gives each rank without a cycle an order that its constraining flat
edges follow, and `LIST_GET` fails at a rank with a cycle alone. -/
theorem Valid.reorderRanks (h : g.Valid) (lo k : ℕ) :
    Meets ((List.range' lo k).foldlM FlatRanks.reorderRank g) (Progress g lo k)
      (fun _ => ∃ r, lo ≤ r ∧ r < lo + k ∧ g.Cyclic r) := by
  refine Meets.range' _ lo k (Progress g lo) (fun i hi g1 hp => ?_) g ?_
  · exact (hp.step h).mono (fun _ => id) fun _ hc => ⟨lo + i, by omega, by omega, hc⟩
  · exact ⟨h, rfl, fun _ _ _ => .rfl, fun _ _ => rfl, fun _ _ _ _ => rfl,
      fun q hlo hq => absurd hq (by omega)⟩

/-- `flat_reorder` puts each rank without a cycle in an order that its constraining flat edges
follow, if the graph is known to have flat edges or they are followed already. -/
theorem flatReorder_iff (h : g.Valid)
    (hpos : ∀ r, ∀ first ∈ (g.rank r).head?, ∀ i v, (g.rank r)[i]? = some v →
      g.order v = i + g.order first) :
    Meets g.flatReorder
      (fun g' => (∀ e u v, g'.Constraint e u v ↔ g.Constraint e u v) ∧
        ∀ r, g.minrank ≤ r → r ≤ g.maxrank → ¬ g.Cyclic r → Reordered g g' r)
      (fun _ => ∃ r, g.minrank ≤ r ∧ r ≤ g.maxrank ∧ g.Cyclic r) ↔
    g.hasFlatEdges = true ∨ ∀ r, g.minrank ≤ r → r ≤ g.maxrank → ¬ g.Cyclic r →
      ∀ u ∈ g.rank r, ∀ v, g.Constrains u v →
        if g.flip then g.order v < g.order u else g.order u < g.order v := by
  rw [flatReorder]
  split
  · rename_i hflag
    rw [meets_ok, or_iff_right (by simpa using hflag)]
    constructor
    · rintro ⟨-, hr⟩ r hlo hhi hacyclic
      exact (hr r hlo hhi hacyclic).side
    · exact fun hside => ⟨fun _ _ _ => .rfl, fun r hlo hhi hacyclic =>
        ⟨.refl _, hpos r, hside r hlo hhi hacyclic⟩⟩
  · rename_i hflag
    refine iff_of_true ?_ (.inl (by simpa using hflag))
    refine (h.reorderRanks _ _).mono (fun g' hp => ⟨hp.same, fun r hlo hhi => ?_⟩) ?_
    · exact hp.done r hlo (by omega)
    · rintro _ ⟨r, hlo, hhi, hc⟩
      exact ⟨r, hlo, by omega, hc⟩

/-! ## An ordered node of a cluster -/

attribute [local instance] Instances.neZero_three

/-- A cluster with the nodes `a`, and `b` and `c` below it, and the flat edge from `c` to `b` that
`do_ordering_node` makes for `a`. -/
def orderedCluster (hasFlatEdges : Bool) : FlatRanks 3 where
  edge _ := ⟨2, 1, 1, 1, 1, 1, none, none⟩
  next := 1
  out _ := []
  inn _ := []
  flatOut v := if v = 2 then [0] else []
  flatIn v := if v = 1 then [0] else []
  other _ := []
  edgeType _ := .FLATORDER
  insideCluster _ := true
  flip := false
  hasFlatEdges
  minrank := 0
  maxrank := 1
  rank r := if r = 0 then [0] else if r = 1 then [1, 2] else []
  valid _ := false
  nodeRank v := if v = 0 then 0 else 1
  order v := if v = 2 then 1 else 0
  mark _ := false

section OrderedCluster

variable {flag : Bool} {e : ℕ} {u v : Fin 3}

theorem orderedCluster_flatOut : e ∈ (orderedCluster flag).flatOut v ↔ v = 2 ∧ e = 0 := by
  change e ∈ (if v = 2 then [0] else []) ↔ _
  split <;> simp_all

theorem orderedCluster_flatIn : e ∈ (orderedCluster flag).flatIn v ↔ v = 1 ∧ e = 0 := by
  change e ∈ (if v = 1 then [0] else []) ↔ _
  split <;> simp_all

theorem orderedCluster_rank (flag : Bool) (r : ℕ) : r = 0 ∧ (orderedCluster flag).rank r = [0] ∨
    r = 1 ∧ (orderedCluster flag).rank r = [1, 2] ∨ (orderedCluster flag).rank r = [] := by
  match r with
  | 0 => exact .inl ⟨rfl, rfl⟩
  | 1 => exact .inr (.inl ⟨rfl, rfl⟩)
  | _ + 2 => exact .inr (.inr rfl)

theorem orderedCluster_constrains : (orderedCluster flag).Constrains u v ↔ u = 2 ∧ v = 1 := by
  constructor
  · rintro ⟨e, he, -, rfl⟩
    exact ⟨(orderedCluster_flatOut.1 he).1, rfl⟩
  · rintro ⟨rfl, rfl⟩
    exact ⟨0, orderedCluster_flatOut.2 ⟨rfl, rfl⟩, constrainingFlatEdge_iff.2 ⟨one_ne_zero, rfl, rfl⟩,
      rfl⟩

theorem orderedCluster_acyclic (r : ℕ) : ¬ (orderedCluster flag).Cyclic r := by
  rintro ⟨v, -, hv⟩
  obtain ⟨w, hvw, -⟩ := TransGen.head'_iff.1 hv
  obtain ⟨x, -, hxv⟩ := TransGen.tail'_iff.1 hv
  have htail := (orderedCluster_constrains.1 hvw).1
  have hhead := (orderedCluster_constrains.1 hxv).2
  exact absurd (htail.symm.trans hhead) (by decide)

theorem orderedCluster_valid : (orderedCluster flag).Valid where
  outTail v e he := (orderedCluster_flatOut.1 he).1.symm
  inHead v e he := (orderedCluster_flatIn.1 he).1.symm
  outIn v e he := orderedCluster_flatIn.2 ⟨rfl, (orderedCluster_flatOut.1 he).2⟩
  inOut v e he := orderedCluster_flatOut.2 ⟨rfl, (orderedCluster_flatIn.1 he).2⟩
  outNodup v := by
    change (if v = 2 then [0] else []).Nodup
    split <;> decide
  inNodup v := by
    change (if v = 1 then [0] else []).Nodup
    split <;> decide
  virt _ _ _ := rfl
  fresh v e he := (orderedCluster_flatOut.1 he).2 ▸ zero_lt_one
  rankNodup r := by
    obtain ⟨-, hr⟩ | ⟨-, hr⟩ | hr := orderedCluster_rank flag r
    · rw [hr]; decide
    · rw [hr]; decide
    · rw [hr]; decide
  nodeRank r v hv := by
    obtain ⟨rfl, hr⟩ | ⟨rfl, hr⟩ | hr := orderedCluster_rank flag r
    · rw [hr] at hv
      rw [mem_singleton.1 hv]
      rfl
    · rw [hr, mem_pair] at hv
      obtain rfl | rfl := hv
      · rfl
      · rfl
    · rw [hr] at hv
      cases hv
  closed u v r huv := by
    obtain ⟨rfl, rfl⟩ := orderedCluster_constrains.1 huv
    obtain ⟨-, hr⟩ | ⟨-, hr⟩ | hr := orderedCluster_rank flag r
    · rw [hr]; decide
    · rw [hr]; decide
    · rw [hr]; decide

theorem orderedCluster_order (r : ℕ) : ∀ first ∈ ((orderedCluster flag).rank r).head?, ∀ i v,
    ((orderedCluster flag).rank r)[i]? = some v →
      (orderedCluster flag).order v = i + (orderedCluster flag).order first := by
  intro first hf i v hi
  obtain ⟨-, hr⟩ | ⟨-, hr⟩ | hr := orderedCluster_rank flag r
  · rw [hr] at hf hi
    cases hf
    match i, hi with
    | 0, rfl => rfl
  · rw [hr] at hf hi
    cases hf
    match i, hi with
    | 0, rfl => rfl
    | 1, rfl => rfl
  · rw [hr] at hf
    cases hf

end OrderedCluster

/-- The flat edges of the cluster constrain its order, and it is not told that it has any. -/
theorem flatReorder_orderedCluster : (orderedCluster false).Valid ∧
    ¬ Meets (orderedCluster false).flatReorder
      (fun g' => (∀ e u v, g'.Constraint e u v ↔ (orderedCluster false).Constraint e u v) ∧
        ∀ r, (orderedCluster false).minrank ≤ r → r ≤ (orderedCluster false).maxrank →
          ¬ (orderedCluster false).Cyclic r → Reordered (orderedCluster false) g' r)
      (fun _ => ∃ r, (orderedCluster false).minrank ≤ r ∧ r ≤ (orderedCluster false).maxrank ∧
        (orderedCluster false).Cyclic r) := by
  refine ⟨orderedCluster_valid, fun hmeets => ?_⟩
  have hside := (hmeets.2 1 (by decide) (by decide) (orderedCluster_acyclic 1)).side 2 (by decide) 1
    (orderedCluster_constrains.2 ⟨rfl, rfl⟩)
  exact absurd hside (by decide)

theorem flatReorder_iff_orderedCluster : Meets (orderedCluster true).flatReorder
      (fun g' => (∀ e u v, g'.Constraint e u v ↔ (orderedCluster true).Constraint e u v) ∧
        ∀ r, (orderedCluster true).minrank ≤ r → r ≤ (orderedCluster true).maxrank →
          ¬ (orderedCluster true).Cyclic r → Reordered (orderedCluster true) g' r)
      (fun _ => ∃ r, (orderedCluster true).minrank ≤ r ∧ r ≤ (orderedCluster true).maxrank ∧
        (orderedCluster true).Cyclic r) :=
  (flatReorder_iff orderedCluster_valid orderedCluster_order).2 (.inl rfl)

end FlatRanks

end Graphviz
