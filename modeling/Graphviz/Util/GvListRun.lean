import Graphviz.Util.GvListRefine

/-!
# Runs of list operations

A `LIST` is for a sequence of items, and the operations of `list.h` are those of a sequence:
`Seq.Step` says what each replies, which items it hands to the destructor and what it leaves.
From the zero list every run refines a run of sequences, as long as each step is `Faithful`:
`LIST_REMOVE` hands the destructor the slot numbered like the index it found, and `LIST_COPY`
of a list without an allocation keeps whatever pointer `calloc` returns for no bytes.
-/

namespace Graphviz

open List Outcome

variable {n : Nat}

/-! ## Sequences -/

/-- The items a destructor is applied to when it is given `xs`. -/
def Dtor.calls {α : Type} : Dtor → List α → List α
  | .null, _ => []
  | .free, xs => xs
  | .fn, xs => xs

/-- A plain list with a destructor. -/
structure Seq (n : Nat) where
  items : List (Item n)
  dtor : Dtor

/-- The operation's index is within the sequence, and it removes an end only where there is
one. -/
def ListOp.Applicable (items : List (Item n)) : ListOp n → Prop
  | .get index => index < items.length
  | .set index _ => index < items.length
  | .popFront => items ≠ []
  | .popBack => items ≠ []
  | .dropBack => items ≠ []
  | _ => True

/-- One operation on a sequence: its reply, the items handed to the destructor and the
sequence after it. -/
def Seq.Step (s : Seq n) (op : ListOp n) (reply : Reply n) (calls : List (Item n))
    (s' : Seq n) : Prop :=
  s'.dtor = s.dtor ∧
  match op with
  | .append x => reply = .unit ∧ calls = [] ∧ s'.items = s.items ++ [x]
  | .prepend x => reply = .unit ∧ calls = [] ∧ s'.items = x :: s.items
  | .tryAppend x => ∃ b, reply = .bool b ∧ calls = [] ∧
      s'.items = if b then s.items ++ [x] else s.items
  | .get index => ∃ x, s.items[index]? = some x ∧ reply = .item x ∧ calls = [] ∧
      s'.items = s.items
  | .set index x => ∃ y, s.items[index]? = some y ∧ reply = .unit ∧
      calls = s.dtor.calls [y] ∧ s'.items = s.items.set index x
  | .remove x => reply = .unit ∧ calls = (if x ∈ s.items then s.dtor.calls [x] else []) ∧
      s'.items = s.items.erase x
  | .popFront => ∃ x, s.items.head? = some x ∧ reply = .item x ∧ calls = [] ∧
      s'.items = s.items.tail
  | .popBack => ∃ x, s.items.getLast? = some x ∧ reply = .item x ∧ calls = [] ∧
      s'.items = s.items.dropLast
  | .dropBack => ∃ x, s.items.getLast? = some x ∧ reply = .unit ∧
      calls = s.dtor.calls [x] ∧ s'.items = s.items.dropLast
  | .reserve _ => reply = .unit ∧ calls = [] ∧ s'.items = s.items
  | .sync => reply = .unit ∧ calls = [] ∧ s'.items = s.items
  | .sort cmp => reply = .unit ∧ calls = [] ∧ s'.items.Perm s.items ∧
      (cmp.Valid → s'.items.Pairwise fun a b => cmp a b ≤ 0)
  | .reverse => reply = .unit ∧ calls = [] ∧ s'.items = s.items.reverse
  | .copy => reply = .unit ∧ calls = [] ∧ s'.items = s.items
  | .shrinkToFit => reply = .unit ∧ calls = [] ∧ s'.items = s.items
  | .clear => reply = .unit ∧ calls = s.dtor.calls s.items ∧ s'.items = []
  | .detach => ∃ data, reply = .array data s.items.length ∧
      data.take s.items.length = s.items ∧ calls = [] ∧ s'.items = []
  | .free => reply = .unit ∧ calls = s.dtor.calls s.items ∧ s'.items = []

/-- What an operation shows: itself, its reply and the destructor's calls. -/
abbrev Event (n : Nat) := ListOp n × Reply n × List (Item n)

/-- A run of operations on a sequence. -/
inductive Seq.Run (s : Seq n) : List (Event n) → Seq n → Prop
  | nil : Run s [] s
  | snoc (events) {s' s'' op reply calls} : Run s events s' → s'.Step op reply calls s'' →
      Run s (events ++ [(op, reply, calls)]) s''

/-- The last step of a run. -/
theorem Seq.Run.last {s s'' : Seq n} (events : List (Event n)) {e : Event n}
    (h : s.Run (events ++ [e]) s'') : ∃ s', s.Run events s' ∧ s'.Step e.1 e.2.1 e.2.2 s'' := by
  generalize hes : events ++ [e] = es at h
  cases h with
  | nil => simp at hes
  | snoc _ hr hs =>
    obtain ⟨rfl, he⟩ := append_inj' hes rfl
    cases he
    exact ⟨_, hr, hs⟩

namespace LIST

variable {c : Libc n} {l : LIST n}

/-- The sequence a list stands for. -/
def seq (l : LIST n) : Seq n := { items := l.impl.items, dtor := l.dtor }

/-- The ways an operation may end without returning: no memory, or a destructor `free` for
items that are not of pointer size. -/
def Exits (n : Nat) (dtor : Dtor) (e : Fault) : Prop :=
  e = .exitFailure ∨ (e = .abort ∧ dtor = .free ∧ n ≠ 8)

/-! ## The macros with a destructor -/

/-- The destructor is applied to the item in the slot it is given. -/
theorem listDtor_meets {slot : Nat} {x : Item n} (hx : l.impl.readSlot slot = .ok x) :
    Meets (l.listDtor slot) (· = l.dtor.calls [x]) (Exits n l.dtor) := by
  unfold listDtor
  cases hd : l.dtor with
  | null => rfl
  | fn => rw [hx]; rfl
  | free =>
    dsimp only
    split
    · rw [hx]; rfl
    · exact .inr ⟨rfl, rfl, ‹_›⟩

/-- `LIST_SET` destroys and replaces the item of the index. -/
theorem listSet_meets (h : l.impl.Rep) (hn : 0 < n) {i : Nat} (hi : i < l.impl.items.length)
    (x : Item n) :
    Meets (l.listSet i x)
      (fun r => r.1 = l.dtor.calls [l.impl.items[i]] ∧ r.2.impl.Rep ∧
        r.2.impl.items = l.impl.items.set i x ∧ r.2.dtor = l.dtor) (Exits n l.dtor) := by
  have hi' : i < l.impl.size := by rwa [← h.length_items]
  rw [listSet, ListT.gvListGet_eq h hn hi']
  refine (listDtor_meets (ListT.readSlot_eq h hi)).bind fun calls hc => ?_
  refine (ListT.writeSlot_slotOf h hi' x).bind fun impl ⟨hr, hit, _⟩ => ?_
  exact ⟨hc, hr, hit, rfl⟩

/-- `LIST_REMOVE` removes the first item with the bytes of its argument. It destroys that item
when the slot numbered like its index holds the same bytes. -/
theorem listRemove_meets (h : l.impl.Rep) (hn : 0 < n) (x : Item n)
    (hslot : l.dtor = .null ∨ x ∉ l.impl.items ∨ l.impl.slots[l.impl.items.idxOf x]? = some x) :
    Meets (l.listRemove x)
      (fun r => r.1 = (if x ∈ l.impl.items then l.dtor.calls [x] else []) ∧ r.2.impl.Rep ∧
        r.2.impl.items = l.impl.items.erase x ∧ r.2.dtor = l.dtor) (Exits n l.dtor) := by
  rw [listRemove, ListT.gvListFind_eq h hn]
  show Meets (if _ then _ else _) _ _
  by_cases hx : x ∈ l.impl.items
  · have hlt := idxOf_lt_length_of_mem hx
    have hsz := h.length_items
    have hcap := h.capacity_lt hn
    have hle := h.size_le
    rw [if_pos hx, if_neg (by unfold SIZE_MAX; omega)]
    have hd : Meets (l.listDtor (l.impl.items.idxOf x)) (· = l.dtor.calls [x])
        (Exits n l.dtor) := by
      obtain hnull | hno | hs := hslot
      · rw [listDtor, hnull]; rfl
      · exact absurd hx hno
      · exact listDtor_meets (by rw [ListT.readSlot, hs])
    refine hd.bind fun calls hc => ?_
    refine (ListT.gvListRemove_meets h hn (by omega)).bind fun impl himpl => ?_
    obtain ⟨hr, hit⟩ := himpl
    refine ⟨by rw [if_pos hx]; exact hc, hr, ?_, rfl⟩
    rw [hit, erase_eq_eraseIdx_of_idxOf]
    rfl
  · rw [if_neg hx, if_pos rfl]
    exact ⟨by rw [if_neg hx], h, (erase_of_not_mem hx).symm, rfl⟩

/-- `LIST_CLEAR` destroys every item, first to last. -/
theorem listClear_meets (h : l.impl.Rep) (hn : 0 < n) :
    Meets l.listClear
      (fun r => r.1 = l.dtor.calls l.impl.items ∧ r.2.impl.Rep ∧ r.2.impl.items = [] ∧
        r.2.dtor = l.dtor) (Exits n l.dtor) := by
  have hlen := h.length_items
  have hcat : ∀ xs ys : List (Item n),
      l.dtor.calls xs ++ l.dtor.calls ys = l.dtor.calls (xs ++ ys) := by
    intro xs ys; cases l.dtor <;> rfl
  have loop := Meets.range' (E := Exits n l.dtor) l.dtorAll 0 l.impl.size
    (fun k calls => calls = l.dtor.calls (l.impl.items.take k))
    (fun k hk calls hc => by
      have hk' : k < l.impl.items.length := by omega
      rw [Nat.zero_add, dtorAll, ListT.gvListGet_eq h hn hk]
      refine (listDtor_meets (ListT.readSlot_eq h hk')).bind fun ys hys => ?_
      show _ = _
      rw [hc, hys, hcat, take_add_one, getElem?_eq_getElem hk']
      rfl)
    [] (by cases l.dtor <;> rfl)
  rw [listClear, range_eq_range']
  refine loop.bind fun calls hc => ?_
  refine ⟨?_, h.clear.1, h.clear.2, rfl⟩
  rw [hc, ← hlen, take_length]

/-- `LIST_FREE` destroys every item and leaves the zero list. -/
theorem listFree_meets (h : l.impl.Rep) (hn : 0 < n) :
    Meets l.listFree
      (fun r => r.1 = l.dtor.calls l.impl.items ∧ r.2.impl.Rep ∧ r.2.impl.items = [] ∧
        r.2.dtor = l.dtor) (Exits n l.dtor) := by
  rw [listFree]
  refine (listClear_meets h hn).bind fun r ⟨hc, _, _, hd⟩ => ?_
  exact ⟨hc, .zero, ListT.items_zero, hd⟩

/-- `LIST_DROP_BACK` destroys and removes the last item. -/
theorem listDropBack_meets (h : l.impl.Rep) (hn : 0 < n) (hne : l.impl.items ≠ []) :
    Meets l.listDropBack
      (fun r => r.1 = l.dtor.calls [l.impl.items.getLast hne] ∧ r.2.impl.Rep ∧
        r.2.impl.items = l.impl.items.dropLast ∧ r.2.dtor = l.dtor) (Exits n l.dtor) := by
  have hpos := length_pos_of_ne_nil hne
  have hlen := h.length_items
  rw [listDropBack, if_neg (by omega), ListT.gvListGet_eq h hn (by omega)]
  have hread : l.impl.readSlot (l.impl.slotOf (l.impl.size - 1)) =
      .ok (l.impl.items.getLast hne) := by
    rw [getLast_eq_getElem, ← ListT.readSlot_eq h, hlen]
  refine (listDtor_meets hread).bind fun calls hc => ?_
  refine (ListT.gvListPopBack_meets h hn hne).bind fun r ⟨_, hr, hit⟩ => ?_
  exact ⟨hc, hr, hit, rfl⟩

/-! ## One step -/

/-- The steps that do what `list.h` says. A removal destroys the item it removes: there is no
destructor, nothing to remove, or the slot numbered like the index found holds the same bytes.
A copy of a list without an allocation is one too: `calloc` of no bytes returns null. -/
def Faithful (c : Libc n) (l : LIST n) : ListOp n → Prop
  | .remove x => l.dtor = .null ∨ x ∉ l.impl.items ∨
      l.impl.slots[l.impl.items.idxOf x]? = some x
  | .copy => l.impl.capacity = 0 → c.callocZero = false
  | _ => True

/-- The simulation: a faithful step keeps the invariant and is a step of the sequence. -/
theorem step_refines (h : l.impl.Rep) (hn : 0 < n) {op : ListOp n}
    (happ : op.Applicable l.seq.items) (hf : Faithful c l op) :
    Meets (l.step c op) (fun r => r.2.2.impl.Rep ∧ l.seq.Step op r.1 r.2.1 r.2.2.seq)
      (Exits n l.dtor) := by
  have hexit : ∀ e, e = Fault.exitFailure → Exits n l.dtor e := fun e he => .inl he
  cases op with
  | append x =>
    refine Meets.bind (P := fun l' => l'.impl.Rep ∧ l'.impl.items = l.impl.items ++ [x] ∧
      l'.dtor = l.dtor) ?_ fun l' ⟨hr, hit, hd⟩ => ⟨hr, hd, rfl, rfl, hit⟩
    rw [listAppend, ← bind_assoc]
    exact ((ListT.appendSlot_meets h hn x).mono (fun _ => id) hexit).bind
      fun impl ⟨hr, hit⟩ => ⟨hr, hit, rfl⟩
  | prepend x =>
    refine Meets.bind (P := fun l' => l'.impl.Rep ∧ l'.impl.items = x :: l.impl.items ∧
      l'.dtor = l.dtor) ?_ fun l' ⟨hr, hit, hd⟩ => ⟨hr, hd, rfl, rfl, hit⟩
    rw [listPrepend, ← bind_assoc]
    exact ((ListT.prependSlot_meets h hn x).mono (fun _ => id) hexit).bind
      fun impl ⟨hr, hit⟩ => ⟨hr, hit, rfl⟩
  | tryAppend x =>
    exact (ListT.gvListTryAppend_meets h hn x).bind
      fun r ⟨hr, hit⟩ => ⟨hr, rfl, r.1, rfl, rfl, hit⟩
  | get i =>
    have hi : i < l.impl.items.length := happ
    have hg : l.listGet i = .ok l.impl.items[i] := by
      rw [listGet, ListT.gvListGet_eq h hn (by rwa [← h.length_items])]
      exact ListT.readSlot_eq h hi
    rw [step, hg]
    exact ⟨h, rfl, _, getElem?_eq_getElem hi, rfl, rfl, rfl⟩
  | set i x =>
    have hi : i < l.impl.items.length := happ
    exact (listSet_meets h hn hi x).bind fun r ⟨hc, hr, hit, hd⟩ =>
      ⟨hr, hd, _, getElem?_eq_getElem hi, rfl, hc, hit⟩
  | remove x =>
    exact (listRemove_meets h hn x hf).bind fun r ⟨hc, hr, hit, hd⟩ => ⟨hr, hd, rfl, hc, hit⟩
  | popFront =>
    have hne : l.impl.items ≠ [] := happ
    exact (ListT.gvListPopFront_meets h hn hne).bind fun r ⟨hx, hr, hit⟩ =>
      ⟨hr, rfl, r.1, by rw [hx]; exact head?_eq_some_head hne, rfl, rfl, hit⟩
  | popBack =>
    have hne : l.impl.items ≠ [] := happ
    exact (ListT.gvListPopBack_meets h hn hne).bind fun r ⟨hx, hr, hit⟩ =>
      ⟨hr, rfl, r.1, by rw [hx]; exact getLast?_eq_some_getLast hne, rfl, rfl, hit⟩
  | dropBack =>
    have hne : l.impl.items ≠ [] := happ
    exact (listDropBack_meets h hn hne).bind fun r ⟨hc, hr, hit, hd⟩ =>
      ⟨hr, hd, _, getLast?_eq_some_getLast hne, rfl, hc, hit⟩
  | reserve cap =>
    exact ((ListT.gvListReserve_meets h hn cap).mono (fun _ => id) hexit).bind
      fun impl ⟨hr, hit, _⟩ => ⟨hr, rfl, rfl, rfl, hit⟩
  | sync =>
    exact (ListT.gvListSync_meets h hn).bind fun impl ⟨hr, hit, _⟩ => ⟨hr, rfl, rfl, rfl, hit⟩
  | sort cmp =>
    exact (ListT.gvListSort_meets h hn cmp).bind fun impl ⟨hr, hp, hs⟩ =>
      ⟨hr, rfl, rfl, rfl, hp, hs⟩
  | reverse =>
    exact (ListT.gvListReverse_meets h hn).bind fun impl ⟨hr, hit⟩ => ⟨hr, rfl, rfl, rfl, hit⟩
  | copy =>
    exact ((ListT.gvListCopy_meets h hn hf).mono (fun _ => id) hexit).bind
      fun impl ⟨hr, hit⟩ => ⟨hr, rfl, rfl, rfl, hit⟩
  | shrinkToFit =>
    exact ((ListT.gvListShrinkToFit_meets h hn).mono (fun _ => id) hexit).bind
      fun impl ⟨hr, hit⟩ => ⟨hr, rfl, rfl, rfl, hit⟩
  | clear =>
    exact (listClear_meets h hn).bind fun r ⟨hc, hr, hit, hd⟩ => ⟨hr, hd, rfl, hc, hit⟩
  | detach =>
    refine (ListT.gvListDetach_meets h hn).bind fun r ⟨ht, hz, hl⟩ => ?_
    refine ⟨by rw [hl]; exact .zero, rfl, r.1, by rw [hz]; rfl, ?_, rfl, ?_⟩
    · show r.1.take l.impl.items.length = l.impl.items
      rw [← hz, ht]
    · rw [hl]; exact ListT.items_zero
  | free =>
    exact (listFree_meets h hn).bind fun r ⟨hc, hr, hit, hd⟩ => ⟨hr, hd, rfl, hc, hit⟩

/-- `gv_list_get_` stops at an index past the last item. -/
theorem gvListGet_assertion {i : Nat} (hi : l.impl.size ≤ i) :
    l.impl.gvListGet i = .error .assertion := by
  rw [ListT.gvListGet, assert, if_neg (by omega)]
  rfl

/-- An operation that does not apply stops at an assertion. -/
theorem step_assertion (h : l.impl.Rep) {op : ListOp n}
    (happ : ¬ op.Applicable l.seq.items) : l.step c op = .error .assertion := by
  have hlen := h.length_items
  have hempty : l.impl.items = [] → l.impl.size = 0 := fun he => by rw [← hlen, he]; rfl
  cases op with
  | get i =>
    have hi : ¬ i < l.impl.items.length := happ
    rw [step, listGet, gvListGet_assertion (by omega)]
    rfl
  | set i x =>
    have hi : ¬ i < l.impl.items.length := happ
    rw [step, listSet, gvListGet_assertion (by omega)]
    rfl
  | popFront =>
    have h0 := hempty (not_not.1 happ)
    rw [step, ListT.gvListPopFront, assert, if_neg (by omega)]
    rfl
  | popBack =>
    have h0 := hempty (not_not.1 happ)
    rw [step, ListT.gvListPopBack, assert, if_neg (by omega)]
    rfl
  | dropBack =>
    have h0 := hempty (not_not.1 happ)
    rw [step, listDropBack, if_pos h0, gvListGet_assertion (by omega)]
    rfl
  | _ => exact absurd trivial happ

/-! ## Runs -/

/-- A run of operations on a list, each a step that `ok` admits under some behaviour of the C
library. -/
inductive Run (ok : Libc n → LIST n → ListOp n → Prop) (l : LIST n) :
    List (Event n) → LIST n → Prop
  | nil : Run ok l [] l
  | snoc (events) {l' l'' op reply calls} (c : Libc n) : Run ok l events l' → ok c l' op →
      l'.step c op = .ok (reply, calls, l'') → Run ok l (events ++ [(op, reply, calls)]) l''

/-- An operation that returns was applicable. -/
theorem applicable_of_step (h : l.impl.Rep) {op : ListOp n}
    {r : Reply n × List (Item n) × LIST n} (hs : l.step c op = .ok r) :
    op.Applicable l.seq.items := by
  by_contra happ
  rw [step_assertion h happ] at hs
  cases hs

/-- A run of faithful steps from a list that satisfies the invariant ends in one, and is a run
of its sequence. -/
theorem Run.refines (hn : 0 < n) {l₀ : LIST n} (h₀ : l₀.impl.Rep) {events : List (Event n)}
    (hrun : Run Faithful l₀ events l) : l.impl.Rep ∧ l₀.seq.Run events l.seq := by
  induction hrun with
  | nil => exact ⟨h₀, .nil⟩
  | snoc events c _ hok hs ih =>
    have hstep := (step_refines ih.1 hn (applicable_of_step ih.1 hs) hok).of_ok hs
    exact ⟨hstep.1, .snoc _ ih.2 hstep.2⟩

/-- From the zero list every run of faithful steps keeps the invariant and is a run of the
empty sequence, with the same replies and the same calls of the destructor. The next faithful
step returns unless it exits, or asserts because it does not apply. -/
theorem run_refines_seq (hn : 0 < n) (dtor : Dtor) {events : List (Event n)} {l : LIST n}
    (hrun : Run Faithful (init dtor) events l) :
    l.impl.Rep ∧ Seq.Run { items := [], dtor := dtor } events l.seq ∧
      ∀ c op, Faithful c l op →
        Meets (l.step c op) (fun r => r.2.2.impl.Rep ∧ l.seq.Step op r.1 r.2.1 r.2.2.seq)
          (fun e => Exits n l.dtor e ∨ (e = .assertion ∧ ¬ op.Applicable l.seq.items)) := by
  have hinit : (init dtor : LIST n).seq = { items := [], dtor := dtor } := by
    rw [seq, init, ListT.items_zero]
  obtain ⟨hr, hs⟩ := Run.refines hn ListT.Rep.zero hrun
  rw [hinit] at hs
  refine ⟨hr, hs, fun c op hf => ?_⟩
  by_cases happ : op.Applicable l.seq.items
  · exact (step_refines hr hn happ hf).mono (fun _ => id) fun e => .inl
  · rw [step_assertion hr happ]
    exact .inr ⟨rfl, happ⟩

end LIST

/-- A C library with memory for every object, the `calloc` of the GNU C library and a stable
sort. -/
def Libc.gnu (n : Nat) : Libc n where
  grants b := b ≤ PTRDIFF_MAX
  grants_le b hb := of_decide_eq_true hb
  callocZero := true
  qsort cmp l := l.mergeSort fun a b => cmp a b ≤ 0
  qsort_perm cmp l := List.mergeSort_perm l _
  qsort_sorted cmp l h := by
    have := @List.pairwise_mergeSort _ (fun a b => decide (cmp a b ≤ 0))
      (fun a b c hab hbc => decide_eq_true
        (h.trans a b c (of_decide_eq_true hab) (of_decide_eq_true hbc)))
      (fun a b => by simpa using h.total a b) l
    exact this.imp fun h => of_decide_eq_true h

/-- The one-byte item. -/
def byteItem (b : UInt8) : Item 1 := ⟨[b], rfl⟩

namespace LIST

/-- Three appends around a pop leave the items in slots 1 and 0; all are faithful. -/
theorem run_refines_seq_wrapped :
    ∃ (events : List (Event 1)) (l : LIST 1), Run Faithful (init .fn) events l ∧
      l.impl.head = 1 ∧ l.impl.Rep ∧
      Seq.Run { items := [], dtor := .fn } events l.seq := by
  have hrun : ∃ l : LIST 1, Run Faithful (init .fn)
      [(.append (byteItem 97), .unit, []), (.append (byteItem 98), .unit, []),
        (.popFront, .item (byteItem 97), []), (.append (byteItem 99), .unit, [])] l ∧
      l.impl.head = 1 :=
    ⟨⟨⟨some [byteItem 99, byteItem 98], 1, 2, 2⟩, .fn⟩,
      .snoc [_, _, _] (Libc.gnu 1) (.snoc [_, _] (Libc.gnu 1)
        (.snoc [_] (Libc.gnu 1) (.snoc [] (Libc.gnu 1) .nil trivial rfl)
          trivial rfl) trivial rfl) trivial rfl, rfl⟩
  obtain ⟨l, hl, hh⟩ := hrun
  obtain ⟨hr, hs, _⟩ := run_refines_seq (by decide) .fn hl
  exact ⟨_, l, hl, hh, hr, hs⟩

/-- Removing the first of those two items applies the destructor to the second, which stays in
the list. -/
theorem listRemove_destroys_other :
    ∃ l : LIST 1,
      Run (fun _ _ _ => True) (init .fn)
        [(.append (byteItem 97), .unit, []), (.append (byteItem 98), .unit, []),
          (.popFront, .item (byteItem 97), []), (.append (byteItem 99), .unit, []),
          (.remove (byteItem 98), .unit, [byteItem 99])] l ∧
      l.seq.items = [byteItem 99] ∧
      ¬ Seq.Run { items := [], dtor := .fn }
        [(.append (byteItem 97), .unit, []), (.append (byteItem 98), .unit, []),
          (.popFront, .item (byteItem 97), []), (.append (byteItem 99), .unit, []),
          (.remove (byteItem 98), .unit, [byteItem 99])] l.seq := by
  refine ⟨⟨⟨some [byteItem 99, byteItem 99], 1, 1, 2⟩, .fn⟩,
    .snoc [_, _, _, _] (Libc.gnu 1) (.snoc [_, _, _] (Libc.gnu 1)
      (.snoc [_, _] (Libc.gnu 1) (.snoc [_] (Libc.gnu 1)
        (.snoc [] (Libc.gnu 1) .nil trivial rfl) trivial rfl) trivial rfl)
      trivial rfl) trivial rfl, rfl, fun h => ?_⟩
  obtain ⟨s, -, hd, -, hcalls, -⟩ := Seq.Run.last [_, _, _, _] h
  -- whatever the sequence holds, its removal destroys nothing or the item removed
  have hne : ∀ d : Dtor, d.calls [byteItem 98] ≠ [byteItem 99] := by
    intro d
    cases d <;> decide
  split at hcalls
  · exact hne _ hcalls.symm
  · cases hcalls

end LIST

end Graphviz
