import Graphviz.Cgraph.Tred

/-!
# The result of `graphviz_tred`

The search from a node comes to all it reaches, or to a node that the array has no entry for. What
it leaves of the node's edges is one to each child that kept its distance, so the node reaches what
it reached before. In a graph without cycles these are the nodes no longer path leads to.
-/

namespace Graphviz.Tred

open Acyclic Function List Outcome Precedes Relation

variable {N : Set Agnode} {E : Set Agedge} {out : Agnode → List Agedge} {n u v x : Agnode}
  {d d' : Agnode → ℕ} {cs heads : List Agnode} {estk : List Link} {size k : ℕ} {e : Agedge}
  {ninfo : Ninfo} {link : Link}

/-! ## The array -/

/-- The array holds the distances, and marks the nodes on the stack. -/
structure Holds (N : Set Agnode) (ninfo : Ninfo) (size : ℕ) (d : Agnode → ℕ)
    (heads : List Agnode) : Prop where
  infosize : ninfo.infosize = size
  dist : ∀ v ∈ N, (ninfo.entry v.seq).dist = d v
  on_stack : ∀ v ∈ N, (ninfo.entry v.seq).on_stack = true ↔ v ∈ heads

theorem Holds.clear (N : Set Agnode) (size : ℕ) : Holds N (Ninfo.clear size) size (fun _ => 0) [] :=
  ⟨rfl, fun _ _ => rfl, fun _ _ => ⟨nofun, nofun⟩⟩

/-- The nodes have sequence numbers of their own. -/
def OwnSeq (N : Set Agnode) : Prop := ∀ u ∈ N, ∀ v ∈ N, u.seq = v.seq → u = v

theorem Holds.read (h : Holds N ninfo size d heads) (hv : v.seq < size) :
    ninfo.read v = .ok (ninfo.entry v.seq) := by
  rw [Ninfo.read, h.infosize, if_pos hv]

theorem Holds.read_spec (h : Holds N ninfo size d heads) :
    Meets (ninfo.read v) (fun info => v.seq < size ∧ info = ninfo.entry v.seq)
      (fun f => f = .segfault ∧ size ≤ v.seq) := by
  rw [Ninfo.read, h.infosize]
  split
  · rename_i hv
    exact ⟨hv, rfl⟩
  · rename_i hv
    exact ⟨rfl, Nat.le_of_not_lt hv⟩

/-- A write to the entry of a node leaves those of the others. -/
theorem Holds.write (h : Holds N ninfo size d heads) (hseq : OwnSeq N) (hx : x ∈ N)
    (hxs : x.seq < size) (info : nodeinfo_t) (d' : Agnode → ℕ) {heads' : List Agnode}
    (hdist : info.dist = d' x) (hon : info.on_stack = true ↔ x ∈ heads')
    (hrest : ∀ w, w ≠ x → d' w = d w ∧ (w ∈ heads' ↔ w ∈ heads)) :
    ∃ ninfo', ninfo.write x info = .ok ninfo' ∧ Holds N ninfo' size d' heads' := by
  refine ⟨{ ninfo with entry := Function.update ninfo.entry x.seq info }, ?_, h.infosize,
    fun w hw => ?_, fun w hw => ?_⟩
  · rw [Ninfo.write, h.infosize, if_pos hxs]
  · dsimp only
    by_cases hwx : w = x
    · subst hwx
      rw [update_self]
      exact hdist
    · rw [update_of_ne fun hs => hwx (hseq w hw x hx hs), (hrest w hwx).1]
      exact h.dist w hw
  · dsimp only
    by_cases hwx : w = x
    · subst hwx
      rw [update_self]
      exact hon
    · rw [update_of_ne fun hs => hwx (hseq w hw x hx hs), (hrest w hwx).2]
      exact h.on_stack w hw

/-- `setDistance` gives a node its distance. -/
theorem Holds.setDistance (h : Holds N ninfo size d heads) (hseq : OwnSeq N) (hv : v ∈ N)
    (hx : x ∈ N) (hvs : v.seq < size) :
    Meets (setDistance ninfo v x) (fun ninfo' => x.seq < size ∧
        Holds N ninfo' size (Function.update d x (uchar_min 1 (d v) + 1)) heads)
      (fun f => f = .segfault ∧ size ≤ x.seq) := by
  rw [Tred.setDistance, h.read hvs, ok_bind]
  refine h.read_spec.bind fun info ⟨hxs, hinfo⟩ => ?_
  subst hinfo
  obtain ⟨ninfo', hwrite, hh⟩ := h.write hseq hx hxs
    { ninfo.entry x.seq with dist := uchar_min 1 (ninfo.entry v.seq).dist + 1 }
    (Function.update d x (uchar_min 1 (d v) + 1))
    (by rw [update_self, h.dist v hv]) (h.on_stack x hx)
    fun w hwx => ⟨update_of_ne hwx _ _, .rfl⟩
  rw [hwrite]
  exact ⟨hxs, hh⟩

/-- `setOnStack` marks a node, or takes its mark away. -/
theorem Holds.setOnStack (h : Holds N ninfo size d heads) (hseq : OwnSeq N) (hx : x ∈ N) (b : Bool)
    (heads' : List Agnode) (hself : b = true ↔ x ∈ heads')
    (hrest : ∀ w, w ≠ x → (w ∈ heads' ↔ w ∈ heads)) :
    Meets (setOnStack ninfo x b) (fun ninfo' => x.seq < size ∧ Holds N ninfo' size d heads')
      (fun f => f = .segfault ∧ size ≤ x.seq) := by
  rw [Tred.setOnStack]
  refine h.read_spec.bind fun info ⟨hxs, hinfo⟩ => ?_
  subst hinfo
  obtain ⟨ninfo', hwrite, hh⟩ := h.write hseq hx hxs
    { ninfo.entry x.seq with on_stack := b } d (h.dist x hx) hself
    fun w hwx => ⟨rfl, hrest w hwx⟩
  rw [hwrite]
  exact ⟨hxs, hh⟩

/-! ## The search -/

/-- The search reads the entry of a node that it reaches, and there is none. -/
def Beyond (E : Set Agedge) (n : Agnode) (size : ℕ) (f : Fault) : Prop :=
  f = .segfault ∧ ∃ u, ReflTransGen (Arc E) n u ∧ size ≤ u.seq

/-- The edge at which the loop over the out-edges of a node stops, and the array then. -/
def Stopped (N : Set Agnode) (E : Set Agedge) (out : Agnode → List Agedge) (size : ℕ) (n : Agnode)
    (d : Agnode → ℕ) (v : Agnode) (heads : List Agnode) (ninfo : Ninfo) : Option Agedge → Prop
  | none => Holds N ninfo size d heads ∧ ∀ f ∈ out v, Seen E n d v f.head
  | some e => e.head ≠ v ∧ e.head ∉ heads ∧ d e.head = 0 ∧ e.head.seq < size ∧
      Holds N ninfo size (Function.update d e.head (uchar_min 1 (d v) + 1)) heads ∧
      ∃ done rest, out v = done ++ e :: rest ∧ ∀ f ∈ done, Seen E n d v f.head

/-- The loop over the out-edges of the node on the top of the stack. -/
theorem nextEdge_spec (ho : Outs N E out) (hseq : OwnSeq N) {done rest : List Agedge} {warn : ℕ}
    (h : Searching N E out size n d cs (link :: estk))
    (hh : Holds N ninfo size d ((link :: estk).map Link.aghead))
    (hout : out link.aghead = done ++ rest) (hdone : ∀ f ∈ done, Seen E n d link.aghead f.head) :
    Meets (nextEdge link.aghead rest ninfo warn)
      (fun r => ∃ d', Searching N E out size n d' cs (link :: estk) ∧ (∀ w, d' w = 0 ↔ d w = 0) ∧
        Stopped N E out size n d' link.aghead ((link :: estk).map Link.aghead) r.2.1 r.1)
      (Beyond E n size) := by
  induction rest generalizing done d ninfo warn with
  | nil =>
    refine ⟨d, h, fun _ => .rfl, hh, fun f hf => hdone f ?_⟩
    rwa [hout, append_nil] at hf
  | cons e rest ih =>
    have he : e ∈ out link.aghead := by rw [hout]; simp
    have hout' : out link.aghead = (done ++ [e]) ++ rest := by rw [hout]; simp
    have hnext : ∀ {d' : Agnode → ℕ}, Grows d d' → Seen E n d' link.aghead e.head →
        ∀ f ∈ done ++ [e], Seen E n d' link.aghead f.head := by
      intro d' hd hseen f hf
      obtain hf | hf := mem_append.1 hf
      · exact (hdone f hf).mono hd
      · rw [mem_singleton.1 hf]
        exact hseen
    obtain ⟨hvN, hvs⟩ := h.range _ h.top
    rw [nextEdge]
    split
    · rename_i hloop
      exact ih h hh hout' (hnext (fun _ => ⟨id, id⟩) (.inl hloop))
    · rename_i hne
      have harc := h.arc ho he hne
      have hxN := ho.head e ((ho.mem _ hvN e).1 he).1
      have hreach : ReflTransGen (Arc E) n e.head := (h.marks.reach h.top).tail harc
      have hbeyond : ∀ f, f = .segfault ∧ size ≤ e.head.seq → Beyond E n size f :=
        fun f ⟨hf, hle⟩ => ⟨hf, _, hreach, hle⟩
      refine (hh.read_spec.mono (fun _ => id) hbeyond).bind fun info ⟨hxs, hinfo⟩ => ?_
      subst hinfo
      rw [hh.dist _ hxN]
      split
      · rename_i hon
        have hmem := (hh.on_stack _ hxN).1 hon
        exact ih h hh hout' (hnext (fun _ => ⟨id, id⟩)
          (.inr ⟨h.visited _ hmem, fun _ => .inr (h.cyclic ho he hne hmem)⟩))
      · rename_i hon
        have hoff : e.head ∉ (link :: estk).map Link.aghead := fun hmem =>
          hon ((hh.on_stack _ hxN).2 hmem)
        split
        · rename_i hzero
          refine ((hh.setDistance hseq hvN hxN hvs).mono (fun _ => id) hbeyond).bind
            fun ninfo' ⟨hxs, hh'⟩ => ?_
          exact ⟨d, h, fun _ => .rfl, hne, hoff, hzero, hxs, hh', done, rest, hout, hdone⟩
        · rename_i hzero
          split
          · rename_i hone
            refine ((hh.setDistance hseq hvN hxN hvs).mono (fun _ => id) hbeyond).bind
              fun ninfo' ⟨hxs, hh'⟩ => ?_
            have hgrows := Grows.update (d := d) (x := e.head) (k := uchar_min 1 (d link.aghead) + 1)
              (by omega) (distance_ne_zero _)
            refine (ih (h.raise ho he hne hoff hone) hh' hout' (hnext hgrows (h.seen_update e))).imp
              fun r ⟨d', hs, hz, hstop⟩ => ⟨d', hs, fun w => (hz w).trans ?_, hstop⟩
            by_cases hw : w = e.head
            · subst hw
              rw [update_self, hone]
              exact ⟨fun h => absurd h (distance_ne_zero _), nofun⟩
            · rw [update_of_ne hw]
          · rename_i hone
            have hle := h.marks.le e.head
            exact ih h hh hout' (hnext (fun _ => ⟨id, id⟩)
              (.inr ⟨.inr hzero, fun _ => .inl (by omega)⟩))

/-- The number of nodes that the search has not come to. -/
def unvisited (g : Agraph) (d : Agnode → ℕ) : ℕ := g.nSeq.countP fun v => d v = 0

theorem unvisited_update {g : Agraph} (hx : x ∈ g.nSeq) (hzero : d x = 0) (hk : k ≠ 0) :
    unvisited g (Function.update d x k) < unvisited g d := by
  rw [unvisited, unvisited, countP_eq_length_filter, countP_eq_length_filter]
  have hfilter : (g.nSeq.filter fun v => Function.update d x k v = 0) =
      (g.nSeq.filter fun v => d v = 0).filter fun v => v ≠ x := by
    rw [filter_filter]
    refine filter_congr fun v _ => ?_
    by_cases hv : v = x
    · subst hv
      simp [hk]
    · simp [hv]
  rw [hfilter, length_filter_lt_length_iff_exists]
  exact ⟨x, mem_filter.2 ⟨hx, decide_eq_true hzero⟩, by simp⟩

/-- The edges that the loop has still to go through. Those before them it has dealt with. -/
def Cursor (g : Agraph) (E : Set Agedge) (n : Agnode) (d : Agnode → ℕ) (prev : Option Link)
    (v : Agnode) : Prop :=
  ∃ done rest, edgesAfter g v prev = .ok rest ∧ g.outSeqOf v = done ++ rest ∧
    ∀ f ∈ done, Seen E n d v f.head

/-- When an edge goes from the stack, the loop goes on after it. -/
theorem Above.cursor {g : Agraph} (ho : Outs N E g.outSeqOf) {link' : Link} (hN : link.aghead ∈ N)
    (h : Above E g.outSeqOf n d link' link) : Cursor g E n d (some link') link.aghead := by
  obtain ⟨e, done, rest, rfl, hout, -, hseen⟩ := h
  have htail : e.tail = link.aghead := ((ho.mem _ hN e).1 (by rw [hout]; simp)).2
  refine ⟨done ++ [e], rest, ?_, by rw [hout]; simp, hseen⟩
  have hnodup := ho.nodup _ hN
  rw [hout] at hnodup
  have hne : ∀ f ∈ done, decide (f ≠ e) = true := fun f hf => decide_eq_true fun hfe =>
    (nodup_append'.1 hnodup).2.2 hf (hfe ▸ mem_cons_self)
  rw [edgesAfter, htail, hout, dropWhile_append_of_pos hne, dropWhile_cons_of_neg (by simp)]
  rfl

/-- The search from a node comes to its end. -/
theorem search_spec {g : Agraph} (ho : Outs N E g.outSeqOf) (hseq : OwnSeq N)
    (hN : ∀ v ∈ N, v ∈ g.nSeq) {fuel : ℕ} {prev : Option Link} {st : State}
    (h : Searching N E g.outSeqOf size n d cs st.estk)
    (hh : Holds N st.ninfo size d (st.estk.map Link.aghead))
    (hcur : ∀ link ∈ st.estk.head?, Cursor g E n d prev link.aghead)
    (hfuel : 2 * unvisited g d + st.estk.length < fuel) :
    Meets (search g fuel prev st) (fun st' => ∃ d' cs',
      Searching N E g.outSeqOf size n d' cs' [] ∧ Holds N st'.ninfo size d' []) (Beyond E n size) := by
  induction fuel generalizing prev st d cs with
  | zero => exact absurd hfuel (Nat.not_lt_zero _)
  | succ fuel ih =>
    obtain ⟨ninfo, estk, warn⟩ := st
    cases estk with
    | nil => exact ⟨d, cs, h, hh⟩
    | cons link estk =>
      obtain ⟨done, rest, hafter, hout, hdone⟩ := hcur link rfl
      rw [search]
      dsimp only
      rw [hafter, ok_bind]
      refine (nextEdge_spec ho hseq h hh hout hdone).bind
        fun ⟨next, ninfo', warn'⟩ ⟨d', hs, hz, hstop⟩ => ?_
      have hunvisited : unvisited g d' = unvisited g d := by
        rw [unvisited, unvisited]
        exact countP_congr fun v _ => by simp [hz]
      dsimp only at hstop ⊢
      rw [length_cons] at hfuel
      cases next with
      | some e =>
        obtain ⟨hne, hoff, hzero, hxs, hh', done', rest', hout', hdone'⟩ := hstop
        have he : e ∈ g.outSeqOf link.aghead := by rw [hout']; simp
        have hxN := ho.head e ((ho.mem _ (hs.range _ hs.top).1 e).1 he).1
        obtain ⟨cs', hs'⟩ := hs.push ho he hne hoff hzero hxs hout' hdone'
        have hmark := (hh'.setOnStack hseq hxN true
          (e.head :: (link :: estk).map Link.aghead) (by simp)
          (fun w hw => by simp [hw])).mono (F := Beyond E n size) (fun _ => id)
          fun f ⟨_, hle⟩ => absurd hxs (by omega)
        dsimp only
        rw [Tred.push, bind_assoc]
        refine Meets.bind hmark fun ninfo'' ⟨_, hh''⟩ => ih hs' hh'' ?_ ?_
        · rintro link' ⟨⟩
          exact ⟨[], _, rfl, rfl, nofun⟩
        · have hlt := unvisited_update (d := d') (hN _ hxN) hzero
            (distance_ne_zero (d' link.aghead))
          simp only [length_cons]
          omega
      | none =>
        obtain ⟨hh', hdone'⟩ := hstop
        have htop := hs.range _ hs.top
        have hnodup := hs.nodup
        rw [map_cons, nodup_cons] at hnodup
        have hmark := (hh'.setOnStack hseq htop.1 false (estk.map Link.aghead)
          ⟨nofun, fun hmem => absurd hmem hnodup.1⟩ (fun w hw => by simp [hw])).mono
          (F := Beyond E n size) (fun _ => id) fun f ⟨_, hle⟩ => absurd htop.2 (by omega)
        dsimp only [Tred.pop]
        rw [bind_assoc]
        refine Meets.bind hmark fun ninfo'' ⟨_, hh''⟩ => ih (hs.pop hdone') hh'' ?_ ?_
        · intro link' hlink'
          obtain ⟨estk, rfl⟩ : ∃ estk', estk = link' :: estk' := by
            cases estk with
            | nil => cases hlink'
            | cons l estk =>
              cases hlink'
              exact ⟨estk, rfl⟩
          obtain ⟨habove, -⟩ := isChain_cons_cons.1 hs.path
          exact habove.cursor ho (hs.range _ (hs.visited _ (by simp))).1
        · dsimp only
          omega

/-! ## What the search found -/

/-- A path of at least two edges. -/
def LongPath (E : Set Agedge) (u v : Agnode) : Prop :=
  ∃ w, TransGen (Arc E) u w ∧ TransGen (Arc E) w v

/-- The search came to all that the source reaches. -/
theorem Searching.closed (h : Searching N E out size n d cs []) (ho : Outs N E out)
    (hv : ReflTransGen (Arc E) n v) : v = n ∨ d v ≠ 0 := by
  induction hv with
  | refl => exact .inl rfl
  | @tail u v _ harc ih =>
    obtain ⟨hne, e, he, htail, hhead⟩ := harc
    have hmem : e ∈ out u := (ho.mem u (h.range u ih).1 e).2 ⟨he, htail⟩
    have hseen := h.finished u ih not_mem_nil e hmem
    rw [hhead] at hseen
    exact (hseen.resolve_left hne.symm).1

/-- In a graph without cycles the nodes at distance 2 are those that a long path leads to. -/
theorem Searching.far_iff (h : Searching N E out size n d cs []) (ho : Outs N E out)
    (hacyclic : ¬ Cyclic E) : d v = 2 ↔ LongPath E n v := by
  constructor
  · intro hv
    obtain ⟨u, hu, huv⟩ := h.marks.far v hv
    obtain heq | hreach := reflTransGen_iff_eq_or_transGen.1 (h.marks.reach (.inr hu))
    · exact absurd heq (h.marks.ne_source hu)
    · exact ⟨u, hreach, .single huv⟩
  · rintro ⟨w, hnw, hwv⟩
    obtain ⟨u, hwu, hne, e, he, htail, hhead⟩ := TransGen.tail'_iff.1 hwv
    have hnu : TransGen (Arc E) n u := hnw.trans_left hwu
    have hun : u ≠ n := fun hun => hacyclic ⟨n, hun ▸ hnu⟩
    have hu := h.closed ho hnu.to_reflTransGen
    have hseen := h.finished u hu not_mem_nil e ((ho.mem u (h.range u hu).1 e).2 ⟨he, htail⟩)
    rw [hhead] at hseen
    exact ((hseen.resolve_left hne.symm).2 hun).resolve_right hacyclic

/-! ## The deletions -/

/-- The edges that `deleteEdges` leaves. -/
def kept (d : Agnode → ℕ) : Option Agnode → List Agedge → List Agedge
  | _, [] => []
  | oldhd, e :: l =>
    if oldhd = some e.head ∨ d e.head > 1 then kept d (some e.head) l
    else e :: kept d (some e.head) l

variable {oldhd : Option Agnode} {l : List Agedge}

theorem kept_sublist : (kept d oldhd l).Sublist l := by
  induction l generalizing oldhd with
  | nil => exact .refl _
  | cons e l ih =>
    rw [kept]
    split
    · exact ih.cons e
    · exact ih.cons_cons e

theorem near_of_kept (he : e ∈ kept d oldhd l) : d e.head ≤ 1 := by
  induction l generalizing oldhd with
  | nil => cases he
  | cons f l ih =>
    rw [kept] at he
    split at he
    · exact ih he
    · rename_i hkeep
      obtain rfl | he := mem_cons.1 he
      · exact Nat.le_of_not_lt fun hd => hkeep (.inr hd)
      · exact ih he

/-- An edge to each near head is left. -/
theorem exists_kept (oldhd : Option Agnode) (he : e ∈ l) (hd : d e.head ≤ 1)
    (hold : oldhd ≠ some e.head) : ∃ f ∈ kept d oldhd l, f.head = e.head := by
  induction l generalizing oldhd with
  | nil => cases he
  | cons f l ih =>
    rw [kept]
    by_cases hf : f.head = e.head
    · rw [hf, if_neg (not_or.2 ⟨hold, by omega⟩)]
      exact ⟨f, mem_cons_self, hf⟩
    · have he' : e ∈ l := (mem_cons.1 he).resolve_left fun hef => hf (hef ▸ rfl)
      obtain ⟨k, hk, hkh⟩ := ih (some f.head) he' fun h => hf (Option.some.inj h)
      split
      · exact ⟨k, hk, hkh⟩
      · exact ⟨k, mem_cons_of_mem f hk, hkh⟩

/-- Of the edges to one head, which are next to each other, only one is left. -/
theorem kept_pairwise (oldhd : Option Agnode) (hseq : OwnSeq N) (hN : ∀ e ∈ l, e.head ∈ N)
    (hsorted : l.Pairwise fun e f => e.head.seq ≤ f.head.seq)
    (hold : ∀ x ∈ oldhd, x ∈ N ∧ ∀ e ∈ l, x.seq ≤ e.head.seq) :
    (kept d oldhd l).Pairwise (fun e f => e.head.seq < f.head.seq) ∧
      ∀ x ∈ oldhd, ∀ e ∈ kept d oldhd l, x.seq < e.head.seq := by
  induction l generalizing oldhd with
  | nil => exact ⟨List.Pairwise.nil, nofun⟩
  | cons e l ih =>
    obtain ⟨he, hsorted⟩ := pairwise_cons.1 hsorted
    have heN := hN e mem_cons_self
    obtain ⟨hpair, hgt⟩ := ih (some e.head)
      (fun f hf => hN f (mem_cons_of_mem e hf)) hsorted
      (by rintro x ⟨⟩; exact ⟨heN, he⟩)
    have hgt' := hgt _ rfl
    rw [kept]
    split
    · refine ⟨hpair, fun x hx f hf => ?_⟩
      exact ((hold x hx).2 e mem_cons_self).trans_lt (hgt' f hf)
    · rename_i hkeep
      refine ⟨pairwise_cons.2 ⟨hgt', hpair⟩, fun x hx f hf => ?_⟩
      obtain ⟨hxN, hxle⟩ := hold x hx
      have hlt : x.seq < e.head.seq := by
        refine lt_of_le_of_ne (hxle e mem_cons_self) fun heq => hkeep (.inl ?_)
        rw [← hseq x hxN _ heN heq]
        exact hx
      obtain rfl | hf := mem_cons.1 hf
      · exact hlt
      · exact hlt.trans (hgt' f hf)

variable {s s' : Store} {V : Views} {c : Cdt}

/-- What the deletions leave of the root graph. -/
structure Deleted (s : Store) (V : Views) (E : Set Agedge) (s' : Store) (V' : Views) : Prop where
  inv : s'.Inv V'
  keeps : s.Keeps s'
  nodes : (V' []).nodes = (V []).nodes
  edges : (V' []).edges = (V []).edges \ E
  nSeq : (s'.graphs []).nSeq = (s.graphs []).nSeq
  sorted : Store.Each Agraph.OutSorted s'

/-- The deletions leave the edges of `kept`. -/
theorem deleteEdges_spec (hV : s.Inv V) (hsorted : Store.Each Agraph.OutSorted s)
    (hh : Holds N ninfo size d heads) (hN : ∀ e ∈ l, e.head ∈ N ∧ e.head.seq < size)
    (hl : ∀ e ∈ l, e ∈ (V []).edges) (hnodup : l.Nodup) (c : Cdt) (oldhd : Option Agnode) :
    Meets (deleteEdges c ninfo l oldhd s)
      (fun s' => ∃ V', Deleted s V {e | e ∈ l ∧ e ∉ kept d oldhd l} s' V') (fun _ => False) := by
  induction l generalizing s V oldhd with
  | nil =>
    refine ⟨V, hV, .refl s, rfl, ?_, rfl, hsorted⟩
    simp
  | cons e l ih =>
    obtain ⟨heN, hes⟩ := hN e mem_cons_self
    obtain ⟨hel, hnodup⟩ := nodup_cons.1 hnodup
    have hNl : ∀ f ∈ l, f.head ∈ N ∧ f.head.seq < size := fun f hf => hN f (mem_cons_of_mem e hf)
    have hdel : doDelete ninfo oldhd e.head =
        .ok (decide (oldhd = some e.head ∨ d e.head > 1)) := by
      rw [doDelete]
      split
      · rename_i heq
        simp [heq]
      · rename_i hne
        rw [hh.read hes, ok_bind, hh.dist _ heN]
        simp [hne]
    rw [deleteEdges]
    dsimp only
    rw [hdel, ok_bind, kept]
    split
    · rename_i hcond
      rw [if_pos (of_decide_eq_true hcond)]
      refine ((hV.agdeledge_within (p := []) trivial (hl e mem_cons_self) c).and
        (Agraph.OutSorted.recordInvariant.agdeledge hsorted)).bind fun r ⟨⟨_, hr⟩, hsorted'⟩ => ?_
      have hroot : V.below (View.delEdge e) [] [] = (V []).delEdge e :=
        Views.below_of_suffix suffix_rfl
      have hl' : ∀ f ∈ l, f ∈ (V.below (View.delEdge e) [] []).edges := fun f hf => by
        rw [hroot]
        exact ⟨hl f (mem_cons_of_mem e hf), fun hfe => hel (hfe ▸ hf)⟩
      refine (ih hr.inv hsorted' hNl hl' hnodup (some e.head)).imp fun s' ⟨V', hV'⟩ =>
        ⟨V', hV'.inv, hr.keeps.trans hV'.keeps, ?_, ?_, hV'.nSeq.trans hr.grows.nSeq.symm,
          hV'.sorted⟩
      · rw [hV'.nodes, hroot]
        rfl
      · rw [hV'.edges, hroot]
        have hek : e ∉ kept d (some e.head) l := fun hm => hel (kept_sublist.subset hm)
        ext f
        simp only [View.delEdge, Set.mem_sdiff, Set.mem_singleton_iff, Set.mem_ofPred_eq, mem_cons]
        grind
    · rename_i hcond
      rw [if_neg fun h => hcond (decide_eq_true h)]
      refine (ih hV hsorted hNl (fun f hf => hl f (mem_cons_of_mem e hf)) hnodup
        (some e.head)).imp fun s' ⟨V', hV'⟩ => ⟨V', hV'.inv, hV'.keeps, hV'.nodes, ?_, hV'.nSeq,
          hV'.sorted⟩
      rw [hV'.edges]
      ext f
      simp only [Set.mem_sdiff, Set.mem_ofPred_eq, mem_cons]
      grind

/-! ## One source -/

/-- No two edges from a node have the same head. -/
def Simple (E : Set Agedge) (n : Agnode) : Prop :=
  ∀ e ∈ E, ∀ f ∈ E, e.tail = n → f.tail = n → e.head = f.head → e = f

/-- The edges `E` after the search from a source and the deletions. -/
structure ReducedAt (E E' : Set Agedge) (n : Agnode) : Prop where
  sub : E' ⊆ E
  others : ∀ e ∈ E, e.tail ≠ n → e ∈ E'
  reach : ∀ u v, Arc E u v → TransGen (Arc E') u v
  simple : Simple E' n
  exact : ¬ Cyclic E → ∀ v, Arc E' n v ↔ Arc E n v ∧ ¬ LongPath E n v

/-- The edges that are left do what is wanted. -/
theorem Searching.reducedAt (h : Searching N E out size n d cs []) (ho : Outs N E out)
    (hseq : OwnSeq N) (hsorted : (out n).Pairwise fun e f => e.head.seq ≤ f.head.seq) :
    ReducedAt E (E \ {e | e ∈ out n ∧ e ∉ kept d none (out n)}) n := by
  have hout : ∀ e, e ∈ out n ↔ e ∈ E ∧ e.tail = n := ho.mem n (h.range n (.inl rfl)).1
  set E' := E \ {e | e ∈ out n ∧ e ∉ kept d none (out n)} with hE'
  have hothers : ∀ e ∈ E, e.tail ≠ n → e ∈ E' := fun e he hne =>
    ⟨he, fun hdel => hne ((hout e).1 hdel.1).2⟩
  have hkept : ∀ e ∈ E', e.tail = n → e ∈ kept d none (out n) := fun e he htail =>
    by_contra fun hk => he.2 ⟨(hout e).2 ⟨he.1, htail⟩, hk⟩
  have hof : ∀ e ∈ kept d none (out n), e ∈ E' := fun e he =>
    ⟨((hout e).1 (kept_sublist.subset he)).1, fun hdel => hdel.2 he⟩
  have hnear : ∀ v, Arc E n v → d v ≤ 1 → Arc E' n v := by
    rintro v ⟨hne, e, he, htail, rfl⟩ hd
    obtain ⟨f, hf, hfe⟩ := exists_kept none ((hout e).2 ⟨he, htail⟩) hd nofun
    exact ⟨hne, f, hof f hf, ((hout f).1 (kept_sublist.subset hf)).2, hfe⟩
  have haway : ∀ u v, Away E n u v → Arc E' u v := by
    rintro u v ⟨⟨hne, e, he, rfl, hhead⟩, hun⟩
    exact ⟨hne, e, hothers e he hun, rfl, hhead⟩
  refine ⟨Set.sdiff_subset, hothers, fun u v harc => ?_, ?_, fun hacyclic v => ⟨?_, ?_⟩⟩
  · by_cases hun : u = n
    · subst hun
      have hv := (h.closed ho (.single harc)).resolve_left harc.1.symm
      obtain ⟨c, hc, hone, hcv⟩ := h.marks.exists_near hv
      exact .head' (hnear c hc hone.le) (ReflTransGen.mono haway _ _ hcv)
    · exact .single (haway u v ⟨harc, hun⟩)
  · intro e he f hf htail htail' hhead
    have hpair := (kept_pairwise (d := d) none hseq
      (fun e he => ho.head e ((hout e).1 he).1) hsorted nofun).1
    have hnodup : ((kept d none (out n)).map fun e => e.head.seq).Nodup :=
      pairwise_map.2 (hpair.imp fun hlt => hlt.ne)
    exact inj_on_of_nodup_map hnodup (hkept e he htail) (hkept f hf htail') (by rw [hhead])
  · rintro ⟨hne, e, he, htail, rfl⟩
    refine ⟨⟨hne, e, he.1, htail, rfl⟩, fun hlong => ?_⟩
    have hd := near_of_kept (hkept e he htail)
    rw [(h.far_iff ho hacyclic).2 hlong] at hd
    omega
  · rintro ⟨harc, hshort⟩
    have hle := h.marks.le v
    have htwo : d v ≠ 2 := fun htwo => hshort ((h.far_iff ho hacyclic).1 htwo)
    exact hnear v harc (by omega)

/-- The out-edges of the nodes of the root graph. -/
theorem outs_of_inv (hV : s.Inv V) : Outs (V []).nodes (V []).edges (s.graphs []).outSeqOf where
  nodup _ hv := (hV.isSet_outSeqOf (p := []) trivial hv).nodup
  mem _ hv := (hV.isSet_outSeqOf (p := []) trivial hv).mem
  head := hV.distinct.head_mem

/-- `dfs` from a node. -/
theorem dfs_spec (hV : s.Inv V) (hsorted : Store.Each Agraph.OutSorted s) (hn : n ∈ (V []).nodes)
    (c : Cdt) (warn : ℕ) :
    Meets (dfs c n (Ninfo.clear size) warn s)
      (fun r => ∃ V' D, Deleted s V D r.2 V' ∧ ReducedAt (V []).edges (V' []).edges n ∧
        ∀ v, ReflTransGen (Arc (V []).edges) n v → v.seq < size) (Beyond (V []).edges n size) := by
  have ho := outs_of_inv hV
  have hseq : OwnSeq (V []).nodes := hV.distinct.node_seq
  rw [dfs, Tred.push, bind_assoc]
  refine Meets.bind (((Holds.clear (V []).nodes size).setOnStack hseq hn true
    [n] (by simp) (fun w hw => by simp [hw])).mono (F := Beyond (V []).edges n size)
    (fun _ => id) fun f ⟨hf, hle⟩ => ⟨hf, n, .refl, hle⟩) fun ninfo ⟨hns, hh⟩ => ?_
  rw [ok_bind]
  refine (search_spec ho hseq (fun v hv => (hV.mem_nSeq (p := []) trivial).2 hv)
    (Searching.init hn hns) hh ?_ ?_).bind fun st ⟨d, cs, hs, hh'⟩ => ?_
  · rintro link ⟨⟩
    exact ⟨[], _, rfl, rfl, nofun⟩
  · have hle : unvisited (s.graphs []) (fun _ => 0) ≤ (s.graphs []).nSeq.length :=
      countP_le_length
    rw [fuel]
    dsimp only [length_singleton]
    omega
  · have hmem := ho.mem n hn
    have hin : ∀ e ∈ (s.graphs []).outSeqOf n, e.head ∈ (V []).nodes ∧ e.head.seq < size := by
      intro e he
      obtain ⟨heE, htail⟩ := (hmem e).1 he
      by_cases hloop : e.head = n
      · exact hs.range _ (.inl hloop)
      · exact hs.range _ (hs.closed ho (.single ⟨Ne.symm hloop, e, heE, htail, rfl⟩))
    refine ((deleteEdges_spec hV hsorted hh' hin (fun e he => ((hmem e).1 he).1) (ho.nodup n hn) c
      none).mono (fun _ => id) fun _ => False.elim).bind fun s' ⟨V', hdel⟩ => ⟨V', _, hdel, ?_,
        fun v hv => (hs.range v (hs.closed ho hv)).2⟩
    rw [hdel.edges]
    exact hs.reducedAt ho hseq ((hsorted []).outSeqOf n)

/-! ## All sources -/

variable {E₀ E' : Set Agedge} {s₀ : Store} {V₀ V' : Views} {done : List Agnode}

theorem Arc.mono (hE : E ⊆ E') (h : Arc E u v) : Arc E' u v :=
  ⟨h.1, h.2.imp fun _ he => ⟨hE he.1, he.2⟩⟩

/-- Edges may go as long as their ends stay connected. -/
theorem transGen_iff (hE : E' ⊆ E) (h : ∀ u v, Arc E u v → TransGen (Arc E') u v) :
    TransGen (Arc E') u v ↔ TransGen (Arc E) u v :=
  ⟨TransGen.mono (fun _ _ => Arc.mono hE) u v, TransGen.closed h u v⟩

theorem longPath_iff (hE : E' ⊆ E) (h : ∀ u v, Arc E u v → TransGen (Arc E') u v) :
    LongPath E' u v ↔ LongPath E u v :=
  exists_congr fun _ => and_congr (transGen_iff hE h) (transGen_iff hE h)

theorem cyclic_iff (hE : E' ⊆ E) (h : ∀ u v, Arc E u v → TransGen (Arc E') u v) :
    Cyclic E' ↔ Cyclic E :=
  exists_congr fun _ => transGen_iff hE h

theorem reflTransGen_iff (hE : E' ⊆ E) (h : ∀ u v, Arc E u v → TransGen (Arc E') u v) :
    ReflTransGen (Arc E') u v ↔ ReflTransGen (Arc E) u v := by
  rw [reflTransGen_iff_eq_or_transGen, reflTransGen_iff_eq_or_transGen, transGen_iff hE h]

/-- The sources of `done` are done with. -/
structure Progress (s₀ : Store) (E₀ : Set Agedge) (size : ℕ) (done : List Agnode) (s : Store)
    (V : Views) : Prop where
  inv : s.Inv V
  nSeq : (s.graphs []).nSeq = (s₀.graphs []).nSeq
  sorted : Store.Each Agraph.OutSorted s
  sub : (V []).edges ⊆ E₀
  reach : ∀ u v, Arc E₀ u v → TransGen (Arc (V []).edges) u v
  others : ∀ e ∈ E₀, e.tail ∉ done → e ∈ (V []).edges
  simple : ∀ n ∈ done, Simple (V []).edges n
  exact : ¬ Cyclic E₀ → ∀ n ∈ done, ∀ v, Arc (V []).edges n v ↔ Arc E₀ n v ∧ ¬ LongPath E₀ n v
  range : ∀ n ∈ done, ∀ v, ReflTransGen (Arc E₀) n v → v.seq < size

/-- One source more. -/
theorem Progress.step {D : Set Agedge} (h : Progress s₀ E₀ size done s V)
    (hdel : Deleted s V D s' V') (hred : ReducedAt (V []).edges (V' []).edges n) (hn : n ∉ done)
    (hrange : ∀ v, ReflTransGen (Arc (V []).edges) n v → v.seq < size) :
    Progress s₀ E₀ size (done ++ [n]) s' V' := by
  have hreach : ∀ u v, Arc E₀ u v → TransGen (Arc (V' []).edges) u v := fun u v harc =>
    (transGen_iff hred.sub hred.reach).2 (h.reach u v harc)
  have hsame : ∀ m ∈ done, ∀ e, e.tail = m → (e ∈ (V' []).edges ↔ e ∈ (V []).edges) := by
    rintro m hm e rfl
    exact ⟨fun he => hred.sub he, fun he => hred.others e he fun htail => hn (htail ▸ hm)⟩
  have harc : ∀ m ∈ done, ∀ v, Arc (V' []).edges m v ↔ Arc (V []).edges m v := by
    refine fun m hm v => and_congr_right fun _ => exists_congr fun e => ?_
    constructor
    · rintro ⟨he, htail, hhead⟩
      exact ⟨(hsame m hm e htail).1 he, htail, hhead⟩
    · rintro ⟨he, htail, hhead⟩
      exact ⟨(hsame m hm e htail).2 he, htail, hhead⟩
  have hnew : ∀ v, Arc (V []).edges n v ↔ Arc E₀ n v := by
    refine fun v => ⟨Arc.mono h.sub, ?_⟩
    rintro ⟨hne, e, he, rfl, hhead⟩
    exact ⟨hne, e, h.others e he hn, rfl, hhead⟩
  refine ⟨hdel.inv, hdel.nSeq.trans h.nSeq, hdel.sorted, hred.sub.trans h.sub, hreach,
    fun e he htail => ?_, fun m hm => ?_, fun hacyclic m hm v => ?_, fun m hm => ?_⟩
  · rw [mem_append, not_or] at htail
    exact hred.others e (h.others e he htail.1) fun hen => htail.2 (mem_singleton.2 hen)
  · obtain hm | hm := mem_append.1 hm
    · intro e he f hf htail htail'
      exact h.simple m hm e ((hsame m hm e htail).1 he) f ((hsame m hm f htail').1 hf) htail htail'
    · rw [mem_singleton.1 hm]
      exact hred.simple
  · obtain hm | hm := mem_append.1 hm
    · rw [harc m hm v]
      exact h.exact hacyclic m hm v
    · rw [mem_singleton.1 hm,
        hred.exact (fun hcyc => hacyclic ((cyclic_iff h.sub h.reach).1 hcyc)) v, hnew v,
        longPath_iff h.sub h.reach]
  · obtain hm | hm := mem_append.1 hm
    · exact h.range m hm
    · rw [mem_singleton.1 hm]
      exact fun v hv => hrange v ((reflTransGen_iff h.sub h.reach).2 hv)

/-- `graphviz_tred` in a store. -/
theorem graphviz_tred_spec (hV : s.Inv V) (hsorted : Store.Each Agraph.OutSorted s) {g : GPath}
    (hg : s.Live g) (c : Cdt) :
    Meets (graphviz_tred c g s)
      (fun r => ∃ V', Progress s (V []).edges ((s.graphs g).nId.length + 1) (s.graphs g).nSeq r.2 V')
      (fun f => ∃ n ∈ (s.graphs g).nSeq, Beyond (V []).edges n ((s.graphs g).nId.length + 1) f) := by
  have hnodup : (s.graphs g).nSeq.Nodup := (hV.shows.rep g hg).nSeq.nodup
  have hmem : ∀ n ∈ (s.graphs g).nSeq, n ∈ (V []).nodes := fun n hn =>
    (hV.hier.root hg).nodes ((hV.mem_nSeq hg).1 hn)
  refine (Meets.foldlM (fun rest r => ∃ V' done, (s.graphs g).nSeq = done ++ rest ∧
    (V' []).nodes = (V []).nodes ∧
    Progress s (V []).edges ((s.graphs g).nId.length + 1) done r.2 V') ?_ (0, s) ?_).imp ?_
  · rintro n rest ⟨warn, s'⟩ ⟨V', done, hsplit, hnodes, h⟩
    have hn : n ∈ (s.graphs g).nSeq := by rw [hsplit]; simp
    have hnew : n ∉ done := fun hd => by
      rw [hsplit] at hnodup
      exact (nodup_append'.1 hnodup).2.2 hd mem_cons_self
    refine (dfs_spec h.inv h.sorted (hnodes ▸ hmem n hn) c warn).mono ?_ ?_
    · rintro r ⟨V'', D, hdel, hred, hrange⟩
      exact ⟨V'', done ++ [n], by rw [hsplit]; simp, hdel.nodes.trans hnodes,
        h.step hdel hred hnew hrange⟩
    · rintro f ⟨hf, u, hu, hle⟩
      exact ⟨n, hn, hf, u, (reflTransGen_iff h.sub h.reach).1 hu, hle⟩
  · refine ⟨V, [], rfl, rfl, hV, rfl, hsorted, subset_rfl, fun _ _ => .single, fun _ he _ => he,
      nofun, nofun, nofun⟩
  · rintro r ⟨V', done, hsplit, -, h⟩
    rw [hsplit, append_nil]
    exact ⟨V', h⟩

/-- The root graph of `s'` is that of `s` after the transitive reduction of the edges from the nodes
of `g`: what reaches what is as before, and without cycles an edge between two nodes is left, once,
where there was one and no longer path. -/
structure Reduced (s : Store) (g : GPath) (s' : Store) : Prop where
  nSeq : (s'.graphs []).nSeq = (s.graphs []).nSeq
  sub : edges (s'.graphs []) ⊆ edges (s.graphs [])
  reach : ∀ u v, ReflTransGen (Arc (edges (s'.graphs []))) u v ↔
    ReflTransGen (Arc (edges (s.graphs []))) u v
  simple : ¬ Cyclic (edges (s.graphs [])) → ∀ n ∈ (s.graphs g).nSeq, Simple (edges (s'.graphs [])) n
  exact : ¬ Cyclic (edges (s.graphs [])) → ∀ n ∈ (s.graphs g).nSeq, ∀ v,
    Arc (edges (s'.graphs [])) n v ↔
      Arc (edges (s.graphs [])) n v ∧ ¬ LongPath (edges (s.graphs [])) n v

/-- In every reachable store `graphviz_tred` returns, and with the transitive reduction, just when
the array has an entry for every node that a node of the graph reaches. -/
theorem graphviz_tred_run {ok : Cdt → Store → StoreOp → Prop} {desc : Agdesc} {name : Option CStr}
    {ops : List StoreOp} (hrun : Store.Run ok (Store.agopen desc name) ops s) {g : GPath}
    (hg : s.Live g) (c : Cdt) :
    (∃ r, graphviz_tred c g s = .ok r ∧ Reduced s g r.2) ↔
      ∀ n ∈ (s.graphs g).nSeq, ∀ v, ReflTransGen (Arc (edges (s.graphs []))) n v →
        v.seq ≤ (s.graphs g).nId.length := by
  obtain ⟨V, hV⟩ := hrun.inv
  have hedges : ∀ {s : Store} {V : Views}, s.Inv V → edges (s.graphs []) = (V []).edges :=
    fun h => Set.ext fun e => h.hasEdge_iff (p := []) trivial
  have hspec := graphviz_tred_spec hV (Agraph.OutSorted.recordInvariant.run hrun) hg c
  rw [hedges hV]
  constructor
  · rintro ⟨r, hr, -⟩ n hn v hv
    obtain ⟨V', h⟩ := hspec.of_ok hr
    exact Nat.le_of_lt_succ (h.range n hn v hv)
  · intro hrange
    obtain ⟨r, hr, V', h⟩ := (hspec.mono (F := fun _ => False) (fun _ => id)
      fun f ⟨n, hn, hf, u, hu, hle⟩ => by
        have := hrange n hn u hu
        omega).exists_ok
    refine ⟨r, hr, h.nSeq, ?_, fun u v => ?_, fun _ => ?_, fun hacyclic => ?_⟩
    · rw [hedges h.inv, hedges hV]
      exact h.sub
    · rw [hedges h.inv, hedges hV]
      exact reflTransGen_iff h.sub h.reach
    · rw [hedges h.inv]
      exact h.simple
    · rw [hedges h.inv]
      rw [hedges hV] at hacyclic ⊢
      exact h.exact hacyclic

/-- In a root graph every node is reached from itself, and reaches nodes alone. -/
theorem range_of_nSeq (hV : s.Inv V)
    (h : ∀ n ∈ (s.graphs []).nSeq, n.seq ≤ (s.graphs []).nId.length) :
    ∀ n ∈ (s.graphs []).nSeq, ∀ v, ReflTransGen (Arc (edges (s.graphs []))) n v →
      v.seq ≤ (s.graphs []).nId.length := by
  intro n hn v hv
  obtain rfl | ⟨u, -, -, e, he, -, rfl⟩ := ReflTransGen.cases_tail hv
  · exact h v hn
  · refine h e.head ((hV.mem_nSeq (p := []) trivial).2 (hV.distinct.head_mem e ?_))
    exact (hV.hasEdge_iff (p := []) trivial).1 he

/-- The reduction of a graph with two nodes and an edge. -/
theorem graphviz_tred_run_makeEdge :
    ∃ s, Store.Run StoreOp.EndsIn (Store.agopen ⟨true, false, false⟩ none) makeEdge s ∧
      ∃ r, graphviz_tred .first [] s = .ok r ∧ Reduced s [] r.2 := by
  obtain ⟨s, hs, -, -, hnodes⟩ := run_makeEdge
  obtain ⟨V, hV⟩ := hs.inv
  have hrep := hV.shows.rep [] trivial
  have hlength : (s.graphs []).nId.length = 2 := by
    have hlen := hrep.nId.length_eq hrep.nSeq
    rw [length_map, hnodes] at hlen
    exact hlen
  refine ⟨s, hs, (graphviz_tred_run (g := []) hs trivial .first).2 (range_of_nSeq hV ?_)⟩
  rw [hnodes, hlength]
  decide

/-- The operations that make the nodes `a` and `b` and delete `a`. -/
def deleteFirst : List StoreOp :=
  [.agnode [] (some [97]) true, .agnode [] (some [98]) true, .agdelnode [] nodeA]

/-- The node `b` has no entry in the array of a graph that has lost the node `a`. -/
theorem graphviz_tred_deleteFirst :
    ∃ s, Store.Run StoreOp.EndsIn (Store.agopen ⟨true, false, false⟩ none) deleteFirst s ∧
      graphviz_tred .first [] s = .error .segfault ∧
      ¬ ∃ r, graphviz_tred .first [] s = .ok r ∧ Reduced s [] r.2 :=
  ⟨_, .snoc [_, _] .first (.snoc [_] .first (.snoc [] .first .nil trivial trivial rfl)
    trivial trivial rfl) ⟨trivial, by decide⟩ trivial rfl, rfl, fun ⟨_, hr, _⟩ => nomatch hr⟩

end Graphviz.Tred
