import Graphviz.Library.Heap
import Graphviz.Util.Fault

/-!
# The stack of callback disciplines

`agpushdisc` and `agpopdisc` of `lib/cgraph/obj.c`, over the linked list `clos->cb`. A discipline
and a state are pointers that the two functions only compare and store.
-/

namespace Graphviz

open List Nat Outcome

variable {δ σ : Type}

/-! ## The functions -/

/-- `Agcbstack_t`. -/
structure Agcbstack (δ σ : Type) where
  f : δ
  state : σ
  prev : Option ℕ

/-- What `agpushdisc` and `agpopdisc` use of `Agclos_t`: the memory of the entries and `cb`. -/
structure Cbclos (δ σ : Type) where
  mem : Heap (Agcbstack δ σ)
  cb : Option ℕ

/-- The closure that `agclos` allocates. -/
def Cbclos.init : Cbclos δ σ := ⟨Heap.empty, none⟩

/-- The entry a pointer points to. -/
def deref (mem : Heap (Agcbstack δ σ)) : Option ℕ → Except Fault (Agcbstack δ σ)
  | none => .error .segfault
  | some ent =>
    match mem.read ent with
    | none => .error .segfault
    | some e => .ok e

/-- `agpushdisc`. -/
def agpushdisc (g : Cbclos δ σ) (cbd : δ) (state : σ) : Cbclos δ σ :=
  { mem := g.mem.alloc { f := cbd, state, prev := g.cb }, cb := some g.mem.size }

variable [DecidableEq δ]

/-- The loop of `agpopdisc`. -/
def popLoop (mem : Heap (Agcbstack δ σ)) (cbd : δ) : ℕ → Option ℕ → Except Fault (Option ℕ)
  | 0, _ => .error .fuel
  | _ + 1, none => .ok none
  | fuel + 1, some stack_ent => do
    let e ← deref mem (some stack_ent)
    let p ← deref mem e.prev
    if p.f ≠ cbd then popLoop mem cbd fuel e.prev else .ok (some stack_ent)

/-- `if (stack_ent && stack_ent->prev) stack_ent->prev = stack_ent->prev->prev`, for an entry. -/
def unlinkPrev (mem : Heap (Agcbstack δ σ)) (stack_ent : ℕ) :
    Except Fault (Heap (Agcbstack δ σ)) := do
  let e ← deref mem (some stack_ent)
  match e.prev with
  | none => .ok mem
  | some prev => do
    let p ← deref mem (some prev)
    .ok (mem.write stack_ent { e with prev := p.prev })

/-- `agpopdisc`. No walk along the stack is longer than the memory of its entries. -/
def agpopdisc (g : Cbclos δ σ) (cbd : δ) : Except Fault (Status × Cbclos δ σ) :=
  match g.cb with
  | none => .ok (.FAILURE, g)
  | some top => do
    let e ← deref g.mem (some top)
    if e.f = cbd then
      .ok (.SUCCESS, { mem := g.mem.free top, cb := e.prev })
    else
      match ← popLoop g.mem cbd (g.mem.size + 1) (some top) with
      | none => .ok (.FAILURE, g)
      | some stack_ent =>
        let mem ← unlinkPrev g.mem stack_ent
        .ok (.SUCCESS, { g with mem := mem.free stack_ent })

/-- A call of one of the two functions. -/
inductive CbOp (δ σ : Type) where
  | push (cbd : δ) (state : σ)
  | pop (cbd : δ)

/-- A call, and the code it returns. -/
def CbOp.step (g : Cbclos δ σ) : CbOp δ σ → Except Fault (Option Status × Cbclos δ σ)
  | .push cbd state => .ok (none, agpushdisc g cbd state)
  | .pop cbd => do
    let (r, g) ← agpopdisc g cbd
    .ok (some r, g)

/-- A sequence of calls, and the codes they return. -/
def cbRun (g : Cbclos δ σ) : List (CbOp δ σ) → Except Fault (List (Option Status) × Cbclos δ σ)
  | [] => .ok ([], g)
  | op :: ops => do
    let (r, g) ← op.step g
    let (rs, g) ← cbRun g ops
    .ok (r :: rs, g)

/-! ## The reference stack -/

/-- `agpopdisc` is to remove the topmost entry for the discipline. -/
def RefStack.pop (st : List (δ × σ)) (cbd : δ) : Status × List (δ × σ) :=
  if ∃ x ∈ st, x.1 = cbd then (.SUCCESS, st.eraseP (·.1 = cbd)) else (.FAILURE, st)

/-- A call on the reference stack. -/
def RefStack.step (st : List (δ × σ)) : CbOp δ σ → Option Status × List (δ × σ)
  | .push cbd state => (none, (cbd, state) :: st)
  | .pop cbd => ((RefStack.pop st cbd).1, (RefStack.pop st cbd).2)

/-- A sequence of calls on the reference stack. -/
def RefStack.run (st : List (δ × σ)) : List (CbOp δ σ) → List (Option Status) × List (δ × σ)
  | [] => ([], st)
  | op :: ops =>
    let (r, st) := RefStack.step st op
    let (rs, st) := RefStack.run st ops
    (r :: rs, st)

/-- The linked list holds the reference stack, and its entries are the ones that are live. -/
def StackHolds (g : Cbclos δ σ) (st : List (δ × σ)) : Prop :=
  ∃ l, g.mem.Chain Agcbstack.prev g.cb l ∧ l.map (fun x => (x.2.f, x.2.state)) = st ∧
    ∀ a, (g.mem.read a).isSome ↔ a ∈ l.map Prod.fst

/-- The calls return what they do on the reference stack, and leave what it is then. -/
def FollowsRef (g : Cbclos δ σ) (st : List (δ × σ)) (ops : List (CbOp δ σ)) : Prop :=
  ∃ g', cbRun g ops = .ok ((RefStack.run st ops).1, g') ∧ StackHolds g' (RefStack.run st ops).2

/-- Each pop is of the discipline that is on top, or is made while none is on the stack. -/
def PopsTop (st : List (δ × σ)) : List (CbOp δ σ) → Prop
  | [] => True
  | .push cbd state :: ops => PopsTop ((cbd, state) :: st) ops
  | .pop cbd :: ops => (∀ x ∈ st.head?, x.1 = cbd) ∧ PopsTop (RefStack.pop st cbd).2 ops

/-! ## One call -/

variable {g g' : Cbclos δ σ} {st : List (δ × σ)} {cbd : δ} {state : σ}

omit [DecidableEq δ] in
theorem deref_eq {mem : Heap (Agcbstack δ σ)} {a : ℕ} {e : Agcbstack δ σ}
    (h : mem.read a = some e) : deref mem (some a) = .ok e := by
  simp only [deref, h]

omit [DecidableEq δ] in
theorem stackHolds_init : StackHolds (Cbclos.init : Cbclos δ σ) [] :=
  ⟨[], rfl, rfl, fun a => by simp [Cbclos.init]⟩

omit [DecidableEq δ] in
/-- A push puts a live entry on top. -/
theorem StackHolds.push (h : StackHolds g st) :
    StackHolds (agpushdisc g cbd state) ((cbd, state) :: st) := by
  obtain ⟨l, hl, hst, hlive⟩ := h
  have hnew : (g.mem.alloc ⟨cbd, state, g.cb⟩).Chain Agcbstack.prev (some g.mem.size)
      ((g.mem.size, ⟨cbd, state, g.cb⟩) :: l) := hl.push rfl
  refine ⟨_, hnew, by rw [← hst]; rfl, fun a => ?_⟩
  rw [map_cons, mem_cons]
  by_cases ha : a = g.mem.size
  · rw [ha, agpushdisc, Heap.read_alloc_self]
    exact ⟨fun _ => Or.inl rfl, fun _ => rfl⟩
  · rw [agpushdisc, Heap.read_alloc_of_ne ha, hlive]
    exact ⟨Or.inr, fun h => h.resolve_left ha⟩

/-- A pop on the empty stack fails. -/
theorem StackHolds.pop_nil (h : StackHolds g []) : agpopdisc g cbd = .ok (.FAILURE, g) := by
  obtain ⟨l, hl, hst, -⟩ := h
  cases map_eq_nil_iff.1 hst
  have hcb : g.cb = none := hl
  simp only [agpopdisc, hcb]

/-- A pop of the discipline on top removes its entry and frees it. -/
theorem StackHolds.pop_top (h : StackHolds g ((cbd, state) :: st)) :
    ∃ g', agpopdisc g cbd = .ok (.SUCCESS, g') ∧ StackHolds g' st := by
  obtain ⟨l, hl, hst, hlive⟩ := h
  obtain ⟨⟨a, e⟩, l, rfl, he, hrest⟩ := map_eq_cons_iff.1 hst
  obtain ⟨rfl, rfl⟩ := Prod.mk.inj he
  obtain ⟨hcb, hread, -⟩ := id hl
  refine ⟨{ mem := g.mem.free a, cb := e.prev }, ?_, l, hl.pop, hrest, fun b => ?_⟩
  · simp only [agpopdisc, hcb, deref_eq hread, ok_bind, if_pos]
  · have hnodup := nodup_cons.1 hl.nodup
    by_cases hb : b = a
    · rw [hb, Heap.read_free_self]
      exact ⟨nofun, fun h => absurd h hnodup.1⟩
    · rw [Heap.read_free_of_ne hb, hlive, map_cons, mem_cons]
      exact ⟨fun h => h.resolve_left hb, Or.inr⟩

/-- The loop ends above the topmost entry for the discipline below the first, or goes through the
null pointer where there is none. -/
theorem popLoop_spec (cbd : δ) {mem : Heap (Agcbstack δ σ)} {l : List (ℕ × Agcbstack δ σ)}
    {x : ℕ × Agcbstack δ σ} {p : Option ℕ} {fuel : ℕ} (hl : mem.Chain Agcbstack.prev p (x :: l))
    (hfuel : l.length < fuel) :
    popLoop mem cbd fuel (some x.1) = .error .segfault ∨
      ∃ l₁ y z l₂, x :: l = l₁ ++ y :: z :: l₂ ∧
        popLoop mem cbd fuel (some x.1) = .ok (some y.1) := by
  induction l generalizing x p fuel with
  | nil =>
    obtain ⟨-, hx, hnil⟩ := hl
    obtain ⟨fuel, rfl⟩ := Nat.exists_eq_succ_of_ne_zero (Nat.ne_zero_of_lt hfuel)
    have hprev : x.2.prev = none := hnil
    left
    simp only [popLoop, deref_eq hx, ok_bind, hprev]
    rfl
  | cons z l ih =>
    obtain ⟨-, hx, hl⟩ := hl
    obtain ⟨fuel, rfl⟩ := Nat.exists_eq_succ_of_ne_zero (Nat.ne_zero_of_lt hfuel)
    have hprev : x.2.prev = some z.1 := hl.1
    have hz : mem.read z.1 = some z.2 := hl.2.1
    simp only [popLoop, deref_eq hx, deref_eq hz, ok_bind, hprev]
    split
    · obtain herr | ⟨l₁, y, w, l₂, hsplit, hok⟩ := ih hl (lt_of_succ_lt_succ hfuel)
      · exact .inl herr
      · exact .inr ⟨x :: l₁, y, w, l₂, by rw [hsplit]; rfl, hok⟩
    · exact .inr ⟨[], x, z, l, rfl, rfl⟩

/-- A pop of a discipline that is not on top does not return, or leaves a freed entry linked. -/
theorem StackHolds.pop_below {x : δ × σ} {r : Status} {st' : List (δ × σ)}
    (h : StackHolds g (x :: st))
    (hx : x.1 ≠ cbd) (hpop : agpopdisc g cbd = .ok (r, g')) : ¬ StackHolds g' st' := by
  obtain ⟨l, hl, hst, -⟩ := h
  obtain ⟨⟨a, e⟩, l, rfl, rfl, -⟩ := map_eq_cons_iff.1 hst
  obtain ⟨hcb, hread, -⟩ := id hl
  have hfuel : l.length < g.mem.size + 1 := lt_succ_of_le (le_of_succ_le hl.length_le)
  simp only [agpopdisc, hcb, deref_eq hread, ok_bind, if_neg hx] at hpop
  obtain herr | ⟨l1, y, z, l2, hsplit, hok⟩ := popLoop_spec cbd hl hfuel
  · rw [herr] at hpop
    cases hpop
  · rw [hsplit] at hl
    have hchain := hl
    have hy : g.mem.read y.1 = some y.2 := hl.read_eq y (by simp)
    have hz : g.mem.read z.1 = some z.2 := hl.read_eq z (by simp)
    have hprev : y.2.prev = some z.1 := hl.suffix.2.2.1
    simp only [hok, ok_bind, unlinkPrev, deref_eq hy, deref_eq hz, hprev] at hpop
    cases hpop
    rintro ⟨l', hl', -, -⟩
    refine hl.broken (fun w hw => ?_) Heap.read_free_self l' (hcb ▸ hl')
    have hwy : w.1 ≠ y.1 := by
      intro heq
      have hnodup := hl.nodup
      rw [map_append] at hnodup
      exact (nodup_append.1 hnodup).2.2 _ (mem_map_of_mem hw) _
        (mem_map_of_mem mem_cons_self) heq
    rw [Heap.read_free_of_ne hwy, Heap.read_write_of_ne hwy]

/-! ## Runs -/

theorem RefStack.pop_top : RefStack.pop ((cbd, state) :: st) cbd = (.SUCCESS, st) := by
  simp [RefStack.pop]

theorem RefStack.pop_nil : RefStack.pop ([] : List (δ × σ)) cbd = (.FAILURE, []) := by
  simp [RefStack.pop]

/-- What a call and the rest of a run follow. -/
theorem followsRef_cons {op : CbOp δ σ} {ops : List (CbOp δ σ)}
    (h : op.step g = .ok ((RefStack.step st op).1, g')) :
    FollowsRef g st (op :: ops) ↔ FollowsRef g' (RefStack.step st op).2 ops := by
  unfold FollowsRef
  constructor
  · rintro ⟨g1, hrun, hholds⟩
    simp only [cbRun, h, ok_bind, bind_eq_ok] at hrun
    obtain ⟨⟨rs, g2⟩, hrest, heq⟩ := hrun
    cases heq
    exact ⟨_, hrest, hholds⟩
  · rintro ⟨g1, hrun, hholds⟩
    exact ⟨g1, by simp only [cbRun, h, ok_bind, hrun]; rfl, hholds⟩

/-- A call that the stack survives takes the rest of the run to the stack it leaves. -/
theorem forall_prefix_cons {op : CbOp δ σ} {ops : List (CbOp δ σ)}
    (h : op.step g = .ok ((RefStack.step st op).1, g')) (hg : StackHolds g st) :
    (∀ pre, pre <+: op :: ops → FollowsRef g st pre) ↔
      ∀ pre, pre <+: ops → FollowsRef g' (RefStack.step st op).2 pre := by
  constructor
  · intro hall pre hpre
    exact (followsRef_cons h).1 (hall (op :: pre) ((prefix_cons_inj op).2 hpre))
  · intro hall pre hpre
    cases pre with
    | nil => exact ⟨g, rfl, hg⟩
    | cons op' pre =>
      obtain ⟨rfl, hrest⟩ := cons_prefix_cons.1 hpre
      exact (followsRef_cons h).2 (hall pre hrest)

/-- A run follows the reference stack throughout exactly when it pops only what is on top. -/
theorem followsRef_iff (ops : List (CbOp δ σ)) (hg : StackHolds g st) :
    (∀ pre, pre <+: ops → FollowsRef g st pre) ↔ PopsTop st ops := by
  induction ops generalizing g st with
  | nil =>
    refine ⟨fun _ => trivial, fun _ pre hpre => ?_⟩
    cases prefix_nil.1 hpre
    exact ⟨g, rfl, hg⟩
  | cons op ops ih =>
    cases op with
    | push cbd state => rw [forall_prefix_cons rfl hg]; exact ih hg.push
    | pop cbd =>
      cases st with
      | nil =>
        have hpop : (CbOp.pop cbd).step g =
            .ok ((RefStack.step ([] : List (δ × σ)) (.pop cbd)).1, g) := by
          simp only [CbOp.step, hg.pop_nil, ok_bind, RefStack.step, RefStack.pop_nil]
        rw [forall_prefix_cons hpop hg, PopsTop, RefStack.pop_nil]
        simpa [RefStack.step, RefStack.pop_nil] using ih hg
      | cons x st =>
        by_cases hx : x.1 = cbd
        · subst hx
          obtain ⟨g', hg', hholds⟩ := hg.pop_top
          have hpop : (CbOp.pop x.1).step g = .ok ((RefStack.step (x :: st) (.pop x.1)).1, g') := by
            simp only [CbOp.step, hg', ok_bind, RefStack.step]
            rw [show x = (x.1, x.2) from rfl, RefStack.pop_top]
          rw [forall_prefix_cons hpop hg, PopsTop, RefStack.step,
            show x = (x.1, x.2) from rfl, RefStack.pop_top]
          simpa using ih hholds
        · refine iff_of_false (fun hall => ?_) fun hpops => hx (hpops.1 x (by simp))
          obtain ⟨g', hrun, hholds⟩ := hall [.pop cbd] ((prefix_cons_inj _).2 nil_prefix)
          simp only [cbRun, CbOp.step, bind_eq_ok] at hrun
          obtain ⟨⟨r, g1⟩, ⟨⟨r', g2⟩, hpop, heq⟩, ⟨rs, g3⟩, heq', heq''⟩ := hrun
          cases heq
          cases heq'
          cases heq''
          exact hg.pop_below hx hpop hholds

/-- From a new root graph on, the entries linked are the live ones and what the calls return is
right as long as each `agpopdisc` is for the discipline on top, and no longer. -/
theorem callback_stack_iff (ops : List (CbOp δ σ)) :
    (∀ pre, pre <+: ops → FollowsRef Cbclos.init [] pre) ↔ PopsTop [] ops :=
  followsRef_iff ops stackHolds_init

/-- A discipline that is not on the stack, and one below the top. -/
theorem callback_stack_below :
    ¬ FollowsRef (Cbclos.init : Cbclos ℕ ℕ) [] [.push 0 0, .pop 1] ∧
      ¬ FollowsRef (Cbclos.init : Cbclos ℕ ℕ) [] [.push 0 0, .push 1 0, .pop 0] := by
  constructor
  · rintro ⟨g, hrun, -⟩
    cases hrun
  · rintro ⟨g, hrun, hholds⟩
    cases hrun
    have htwo : StackHolds (agpushdisc (agpushdisc (Cbclos.init : Cbclos ℕ ℕ) 0 0) 1 0)
        [(1, 0), (0, 0)] := stackHolds_init.push.push
    have hne : (1 : ℕ) ≠ 0 := by decide
    exact htwo.pop_below hne rfl hholds

end Graphviz
