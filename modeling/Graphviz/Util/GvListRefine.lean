import Graphviz.Library.RingBuffer
import Graphviz.Util.GvList

/-!
# The generic list refines a sequence

`ListT.Rep` is the invariant `list-private.h` documents for `list_t_`, with the size of the
allocation, and `ListT.items` reads the list's items in order. Each function of `list.c` gets
one lemma: from a list that satisfies the invariant it returns one that does, with the items a
sequence would have, or it leaves through `graphviz_exit`.
-/

namespace Graphviz

open List Nat Outcome

namespace ListT

variable {n : Nat} {c : Libc n} {l : ListT n}

/-- The items of a list, first to last. -/
def items (l : ListT n) : List (Item n) := RingBuffer.view l.slots l.head l.size

/-- The documented invariant of `list_t_`, and the size of its allocation. -/
structure Rep (l : ListT n) : Prop where
  base_iff : l.base = none ↔ l.capacity = 0
  head_ok : (l.capacity = 0 ∧ l.head = 0) ∨ (0 < l.capacity ∧ l.head < l.capacity)
  size_le : l.size ≤ l.capacity
  length_slots : l.slots.length = l.capacity
  bytes_le : l.capacity * n ≤ PTRDIFF_MAX

/-- The zero list satisfies the invariant and has no items. -/
theorem Rep.zero : Rep (zero : ListT n) := by
  constructor <;> simp [ListT.zero, slots]

@[simp] theorem items_zero : (zero : ListT n).items = [] := by simp [items, ListT.zero]

theorem Rep.size_le_slots (h : Rep l) : l.size ≤ l.slots.length := by
  rw [h.length_slots]; exact h.size_le

theorem Rep.length_items (h : Rep l) : l.items.length = l.size :=
  RingBuffer.length_view h.size_le_slots

theorem Rep.head_lt (h : Rep l) (hc : 0 < l.capacity) : l.head < l.capacity := by
  rcases h.head_ok with h | h <;> omega

/-- No allocation has `2 ^ 63` slots, so the arithmetic on slot numbers does not wrap. -/
theorem Rep.capacity_lt (h : Rep l) (hn : 0 < n) : l.capacity < 2 ^ 63 := by
  have h1 : l.capacity ≤ l.capacity * n := Nat.le_mul_of_pos_right _ hn
  have h2 := h.bytes_le
  unfold PTRDIFF_MAX at h2
  omega

theorem Rep.szAdd_head (h : Rep l) (hn : 0 < n) {i : Nat} (hi : i ≤ l.capacity) :
    szAdd l.head i = l.head + i := by
  have h1 := h.capacity_lt hn
  have h2 := h.head_ok
  exact mod_eq_of_lt (by omega)

/-- The slot of an index below the size. -/
def slotOf (l : ListT n) (index : Nat) : Nat := (l.head + index) % l.capacity

/-- The item of an index is in the index's slot. -/
theorem Rep.getElem?_items (h : Rep l) {i : Nat} (hi : i < l.size) :
    l.items[i]? = l.slots[l.slotOf i]? := by
  rw [items, RingBuffer.getElem?_view hi h.size_le_slots, slotOf, h.length_slots]

theorem Rep.slotOf_lt (_ : Rep l) {i : Nat} (hi : i < l.capacity) : l.slotOf i < l.capacity :=
  mod_lt _ (by omega)

/-- `gv_list_get_` returns the slot of an index below the size. -/
theorem gvListGet_eq (h : Rep l) (hn : 0 < n) {i : Nat} (hi : i < l.size) :
    l.gvListGet i = .ok (l.slotOf i) := by
  have := h.size_le
  simp only [gvListGet, assert, if_pos hi, h.szAdd_head hn (by omega : i ≤ l.capacity)]
  rfl

/-- The slot of an index below the size holds the index's item. -/
theorem readSlot_eq (h : Rep l) {i : Nat} (hi : i < l.items.length) :
    l.readSlot (l.slotOf i) = .ok l.items[i] := by
  have hs := h.getElem?_items (by rwa [h.length_items] at hi)
  rw [getElem?_eq_getElem hi] at hs
  simp [readSlot, ← hs]

/-! ## Writing slots -/

/-- A list with an allocation satisfies the invariant when its head is below the capacity, its
size up to it and its slots as many. -/
theorem Rep.ofSlots {slots : List (Item n)} {head size capacity : Nat} (hc : 0 < capacity)
    (hlen : slots.length = capacity) (hh : head < capacity) (hs : size ≤ capacity)
    (hb : capacity * n ≤ PTRDIFF_MAX) :
    Rep { base := some slots, head := head, size := size, capacity := capacity } := by
  refine ⟨?_, .inr ⟨hc, hh⟩, hs, hlen, hb⟩
  have : capacity ≠ 0 := by omega
  simp [this]

/-- Over the same allocation any slots, head below it and size up to it will do. -/
theorem Rep.update (h : Rep l) (hc : 0 < l.capacity) {slots' : List (Item n)}
    {head' size' : Nat} (hlen : slots'.length = l.capacity) (hh : head' < l.capacity)
    (hs : size' ≤ l.capacity) :
    Rep { base := some slots', head := head', size := size', capacity := l.capacity } :=
  .ofSlots hc hlen hh hs h.bytes_le

theorem writeSlot_eq {slot : Nat} (hs : slot < l.slots.length) (x : Item n) :
    l.writeSlot slot x = .ok { l with base := some (l.slots.set slot x) } := by
  rw [writeSlot, if_pos hs]

/-- Writing the slot of an index writes the item. -/
theorem writeSlot_slotOf (h : Rep l) {i : Nat} (hi : i < l.size) (x : Item n) {E : Fault → Prop} :
    Meets (l.writeSlot (l.slotOf i) x)
      (fun l' => Rep l' ∧ l'.items = l.items.set i x ∧ l'.head = l.head ∧
        l'.size = l.size ∧ l'.capacity = l.capacity) E := by
  have hz := h.size_le
  have hhd := h.head_lt (by omega)
  rw [writeSlot_eq (by rw [h.length_slots]; exact h.slotOf_lt (by omega))]
  refine ⟨h.update (by omega) (by simp [h.length_slots]) hhd hz, ?_, rfl, rfl, rfl⟩
  have := RingBuffer.view_set (x := x) hi h.size_le_slots (by rwa [h.length_slots])
  rwa [h.length_slots] at this

/-! ## Growing -/

/-- `try_reserve` keeps the items, wherever the head is, and provides the capacity. -/
theorem tryReserve_meets (h : Rep l) (hn : 0 < n) (cap : Nat) :
    Meets (tryReserve c l cap)
      (fun l' => Rep l' ∧ l'.items = l.items ∧ l'.size = l.size ∧
        l'.capacity = max l.capacity cap) (fun _ => True) := by
  have hz := h.size_le
  have hhd := h.head_ok
  have hlen := h.length_slots
  unfold tryReserve
  split
  · exact ⟨h, rfl, rfl, (max_eq_left ‹_›).symm⟩
  split
  · trivial
  split
  · trivial
  rename_i h1 h2 h3
  have hg := c.grants_le (cap * n) (by simpa using h3)
  have hlong : (l.slots ++ replicate (cap - l.capacity) (zeroItem n)).length = cap := by
    simp [hlen]; omega
  rw [h.szAdd_head hn hz]
  split
  · rename_i hw
    have hmlen : (memmoveSlots (l.slots ++ replicate (cap - l.capacity) (zeroItem n))
        (cap - (l.capacity - l.head)) l.head (l.capacity - l.head)).length = cap := by
      simp only [memmoveSlots, length_append, length_take, length_drop, length_replicate, hlen]
      omega
    refine ⟨.ofSlots (by omega) hmlen (by omega) (by omega) hg, ?_, rfl, by dsimp only; omega⟩
    refine Eq.trans (congrArg (fun k => RingBuffer.view _ k l.size) ?_)
      (@RingBuffer.view_grow_wrap _ l.slots l.head l.size
        (memmoveSlots (l.slots ++ replicate (cap - l.capacity) (zeroItem n))
          (cap - (l.capacity - l.head)) l.head (l.capacity - l.head))
        (by omega) (by omega) (by omega) (by omega) (fun i hi => ?_) (fun i hi => ?_))
    · rw [hmlen, hlen]
    · rw [memmoveSlots, append_assoc, getElem?_append_left (by rw [length_take, hlong]; omega),
        getElem?_take_of_lt (by omega), getElem?_append_left (by omega)]
    · have htake : ((l.slots ++ replicate (cap - l.capacity) (zeroItem n)).take
          (cap - (l.capacity - l.head))).length = cap - (l.capacity - l.head) := by
        rw [length_take, hlong]
        omega
      rw [hlen] at hi
      rw [hmlen, hlen, memmoveSlots, append_assoc, getElem?_append_right (by omega),
        htake, Nat.add_sub_cancel_left,
        getElem?_append_left (by rw [length_take, length_drop, hlong]; omega),
        getElem?_take_of_lt hi, getElem?_drop, getElem?_append_left (by omega)]
  · exact ⟨.ofSlots (by omega) hlong (by omega) (by omega) hg,
      @RingBuffer.view_grow _ l.slots l.head l.size _ (by omega), rfl,
      by dsimp only; omega⟩

/-- What a growth step leaves: the same items, and room for one more. -/
def Grown (l l' : ListT n) : Prop :=
  Rep l' ∧ l'.items = l.items ∧ l'.size = l.size ∧ l'.size < l'.capacity

/-- `gv_list_reserve_` keeps the items, or exits. -/
theorem gvListReserve_meets (h : Rep l) (hn : 0 < n) (cap : Nat) :
    Meets (gvListReserve c l cap)
      (fun l' => Rep l' ∧ l'.items = l.items ∧ l'.size = l.size ∧
        l'.capacity = max l.capacity cap) (· = .exitFailure) := by
  have := tryReserve_meets (c := c) h hn cap
  unfold gvListReserve
  cases hr : tryReserve c l cap with
  | ok l' => rw [hr] at this; exact this
  | error e => rfl

theorem Rep.lt_doubled (h : Rep l) (hn : 0 < n) : l.capacity < l.doubled := by
  have := h.capacity_lt hn
  unfold doubled szMul
  split
  · omega
  · rw [mod_eq_of_lt (by omega)]; omega

/-- The growth step before an append or a prepend makes room, or exits. -/
theorem growIfFull_meets (h : Rep l) (hn : 0 < n) :
    Meets (growIfFull c l) (Grown l) (· = .exitFailure) := by
  have hz := h.size_le
  unfold growIfFull
  split
  · refine (gvListReserve_meets h hn _).imp fun l' ⟨hr, hi, hs, hc⟩ => ⟨hr, hi, hs, ?_⟩
    have := h.lt_doubled hn
    omega
  · exact ⟨h, rfl, rfl, by omega⟩

/-- A successful growth attempt of `gv_list_try_append_` makes room. -/
theorem tryGrow_grown (h : Rep l) (hn : 0 < n) (hfull : l.size = l.capacity) {l' : ListT n}
    (hg : tryGrow c l = some l') : Grown l l' := by
  have key : ∀ cap, l.capacity < cap → ∀ l', (tryReserve c l cap).toOption = some l' →
      Grown l l' := by
    intro cap hcap l' hl'
    have hm := tryReserve_meets (c := c) h hn cap
    cases hr : tryReserve c l cap with
    | error e => rw [hr] at hl'; cases hl'
    | ok l'' =>
      rw [hr] at hl' hm
      cases hl'
      obtain ⟨h1, h2, h3, h4⟩ := hm
      exact ⟨h1, h2, h3, by omega⟩
  have conservative : ∀ l', (if SIZE_MAX - 1 ≥ l.capacity
      then (tryReserve c l (l.capacity + 1)).toOption else none) = some l' → Grown l l' := by
    intro l' hl'
    split at hl'
    · exact key _ (by omega) l' hl'
    · cases hl'
  unfold tryGrow at hg
  dsimp only at hg
  split at hg
  · split at hg
    · rename_i l'' hr
      cases hg
      exact key _ (h.lt_doubled hn) l' (by rw [hr]; rfl)
    · exact conservative l' hg
  · exact conservative l' hg

/-! ## Adding at the ends -/

/-- A list grown for an append, with the slot after its last item written and counted. -/
theorem Grown.append {l' : ListT n} (hg : Grown l l') (x : Item n) :
    let r : ListT n := { l' with base := some (l'.slots.set (l'.slotOf l'.size) x)
                                 size := l'.size + 1 }
    Rep r ∧ r.items = l.items ++ [x] := by
  obtain ⟨hr, hi, -, hlt⟩ := hg
  have hhd := hr.head_lt (by omega)
  refine ⟨hr.update (by omega) (by simp [hr.length_slots]) hhd (by omega), ?_⟩
  have := @RingBuffer.view_append _ l'.slots l'.head l'.size x
    (by rwa [hr.length_slots]) (by rwa [hr.length_slots])
  rw [hr.length_slots] at this
  rw [← hi]
  exact this

/-- A list grown for a prepend, with the slot before its head written and made the head. -/
theorem Grown.prepend {l' : ListT n} (hg : Grown l l') (x : Item n) :
    let head := (l'.head + (l'.capacity - 1)) % l'.capacity
    let r : ListT n := { base := some (l'.slots.set head x), head := head
                         size := l'.size + 1, capacity := l'.capacity }
    Rep r ∧ r.items = x :: l.items := by
  obtain ⟨hr, hi, -, hlt⟩ := hg
  have hhd := hr.head_lt (by omega)
  refine ⟨hr.update (by omega) (by simp [hr.length_slots]) (mod_lt _ (by omega))
    (by omega), ?_⟩
  have := @RingBuffer.view_prepend _ l'.slots l'.head l'.size x
    (by rwa [hr.length_slots]) (by rwa [hr.length_slots])
  rw [hr.length_slots] at this
  rw [← hi]
  exact this

/-- `gv_list_append_slot_` followed by the write of the slot it returns appends. -/
theorem appendSlot_meets (h : Rep l) (hn : 0 < n) (x : Item n) :
    Meets (do let (slot, impl) ← l.gvListAppendSlot c; impl.writeSlot slot x)
      (fun l' => Rep l' ∧ l'.items = l.items ++ [x]) (· = .exitFailure) := by
  rw [gvListAppendSlot]
  simp only [bind_assoc]
  refine (growIfFull_meets h hn).bind fun l' hg => ?_
  have hlt := hg.2.2.2
  refine Meets.assert (by omega) ?_
  refine Meets.assert hlt ?_
  have hs : l'.slotOf l'.size < l'.slots.length := by
    rw [hg.1.length_slots]; exact hg.1.slotOf_lt hlt
  rw [hg.1.szAdd_head hn hlt.le]
  show Meets (writeSlot { l' with size := l'.size + 1 } (l'.slotOf l'.size) x) _ _
  rw [writeSlot_eq (by exact hs)]
  exact hg.append x

/-- `gv_list_prepend_slot_` followed by the write of the slot it returns prepends. -/
theorem prependSlot_meets (h : Rep l) (hn : 0 < n) (x : Item n) :
    Meets (do let (slot, impl) ← l.gvListPrependSlot c; impl.writeSlot slot x)
      (fun l' => Rep l' ∧ l'.items = x :: l.items) (· = .exitFailure) := by
  rw [gvListPrependSlot]
  simp only [bind_assoc]
  refine (growIfFull_meets h hn).bind fun l' hg => ?_
  have hlt := hg.2.2.2
  refine Meets.assert (by omega) ?_
  refine Meets.assert hlt ?_
  rw [hg.1.szAdd_head hn (by omega : l'.capacity - 1 ≤ l'.capacity)]
  have hs : (l'.head + (l'.capacity - 1)) % l'.capacity < l'.slots.length := by
    rw [hg.1.length_slots]; exact mod_lt _ (by omega)
  show Meets (writeSlot { l' with head := _, size := l'.size + 1 } _ x) _ _
  rw [writeSlot_eq (by exact hs)]
  exact hg.prepend x

/-- `gv_list_try_append_` appends, or leaves the list as it is. -/
theorem gvListTryAppend_meets (h : Rep l) (hn : 0 < n) (x : Item n) {E : Fault → Prop} :
    Meets (l.gvListTryAppend c x)
      (fun r => Rep r.2 ∧ r.2.items = if r.1 then l.items ++ [x] else l.items) E := by
  have hroom : ∀ l', (if l.size = l.capacity then tryGrow c l else some l) = some l' →
      Grown l l' := by
    intro l' hl'
    split at hl'
    · exact tryGrow_grown h hn ‹_› hl'
    · cases hl'
      exact ⟨h, rfl, rfl, by have := h.size_le; omega⟩
  unfold gvListTryAppend
  split
  · exact ⟨h, rfl⟩
  · rename_i l' hl'
    have hg := hroom l' hl'
    have hlt := hg.2.2.2
    refine Meets.assert hlt ?_
    rw [hg.1.szAdd_head hn hlt.le]
    show Meets (l'.writeSlot (l'.slotOf l'.size) x >>= _) _ _
    rw [writeSlot_eq (by rw [hg.1.length_slots]; exact hg.1.slotOf_lt hlt)]
    exact hg.append x

/-! ## Removing at the ends -/

/-- Clearing keeps the allocation and drops every item. -/
theorem Rep.clear (h : Rep l) : Rep l.gvListClear ∧ l.gvListClear.items = [] := by
  have := h.head_ok
  refine ⟨⟨h.base_iff, ?_, zero_le _, h.length_slots, h.bytes_le⟩, by
    simp [items, gvListClear]⟩
  show (l.capacity = 0 ∧ 0 = 0) ∨ (0 < l.capacity ∧ 0 < l.capacity)
  omega

/-- `gv_list_pop_front_` returns the first item and keeps the rest. -/
theorem gvListPopFront_meets (h : Rep l) (hn : 0 < n) (hne : l.items ≠ []) {E : Fault → Prop} :
    Meets l.gvListPopFront
      (fun r => r.1 = l.items.head hne ∧ Rep r.2 ∧ r.2.items = l.items.tail) E := by
  have hpos : 0 < l.size := by rw [← h.length_items]; exact length_pos_of_ne_nil hne
  have hz := h.size_le
  have hi : 0 < l.items.length := by rwa [h.length_items]
  rw [gvListPopFront]
  refine Meets.assert hpos ?_
  rw [gvListGet_eq h hn hpos]
  show Meets (l.readSlot (l.slotOf 0) >>= _) _ _
  rw [readSlot_eq h hi, h.szAdd_head hn (by omega)]
  have hlt : (l.head + 1) % l.capacity < l.capacity := mod_lt _ (by omega)
  refine ⟨(head_eq_getElem hne).symm, ⟨h.base_iff, .inr ⟨?_, hlt⟩, ?_, h.length_slots,
    h.bytes_le⟩, ?_⟩
  · show 0 < l.capacity
    omega
  · show l.size - 1 ≤ l.capacity
    omega
  · have := @RingBuffer.view_tail _ l.slots l.head l.size h.size_le_slots
    rwa [h.length_slots] at this

/-- Dropping the last item off the count keeps the others. -/
theorem Rep.dropLast (h : Rep l) :
    Rep { l with size := l.size - 1 } ∧
      ({ l with size := l.size - 1 } : ListT n).items = l.items.dropLast := by
  have := h.size_le
  refine ⟨⟨h.base_iff, h.head_ok, ?_, h.length_slots, h.bytes_le⟩,
    RingBuffer.view_dropLast h.size_le_slots⟩
  show l.size - 1 ≤ l.capacity
  omega

/-- `gv_list_pop_back_` returns the last item and keeps the rest. -/
theorem gvListPopBack_meets (h : Rep l) (hn : 0 < n) (hne : l.items ≠ []) {E : Fault → Prop} :
    Meets l.gvListPopBack
      (fun r => r.1 = l.items.getLast hne ∧ Rep r.2 ∧ r.2.items = l.items.dropLast) E := by
  have hlen := h.length_items
  have hpos : 0 < l.size := by rw [← hlen]; exact length_pos_of_ne_nil hne
  rw [gvListPopBack]
  refine Meets.assert hpos ?_
  rw [gvListGet_eq h hn (by omega)]
  show Meets (l.readSlot (l.slotOf (l.size - 1)) >>= _) _ _
  rw [readSlot_eq h (by omega)]
  refine ⟨?_, h.dropLast⟩
  rw [getLast_eq_getElem]
  simp only [hlen]

/-! ## Searching and removing -/

/-- The search from index `i` finds the first item from there on with the given bytes. -/
theorem gvListFindFrom_eq (h : Rep l) (hn : 0 < n) (x : Item n) :
    ∀ fuel i, i + fuel = l.size → l.gvListFindFrom x i fuel =
      .ok (if x ∈ l.items.drop i then i + (l.items.drop i).idxOf x else SIZE_MAX) := by
  intro fuel
  induction fuel with
  | zero =>
    intro i hi
    have : l.items.drop i = [] := drop_eq_nil_of_le (by rw [h.length_items]; omega)
    simp [gvListFindFrom, this]
  | succ fuel ih =>
    intro i hi
    have hlt : i < l.items.length := by rw [h.length_items]; omega
    rw [gvListFindFrom, gvListGet_eq h hn (by omega)]
    show (l.readSlot (l.slotOf i) >>= _) = _
    rw [readSlot_eq h hlt]
    show (if x = l.items[i] then Except.ok i else l.gvListFindFrom x (i + 1) fuel) = _
    rw [ih (i + 1) (by omega), drop_eq_getElem_cons hlt]
    by_cases hx : x = l.items[i]
    · rw [if_pos hx, ← hx]; simp
    · rw [if_neg hx, idxOf_cons_ne _ (Ne.symm hx)]
      simp only [mem_cons, hx, false_or]
      congr 2
      omega

/-- `gv_list_find_` returns the index of the first item with the given bytes. -/
theorem gvListFind_eq (h : Rep l) (hn : 0 < n) (x : Item n) :
    l.gvListFind x = .ok (if x ∈ l.items then l.items.idxOf x else SIZE_MAX) := by
  rw [gvListFind]
  simpa using gvListFindFrom_eq h hn x l.size 0 (by omega)

/-- One step of the removal loop copies an item to the index before it. -/
theorem shiftDown_meets (h : Rep l) (hn : 0 < n) {i : Nat} (hlt : i + 1 < l.items.length)
    {E : Fault → Prop} :
    Meets (l.shiftDown (i + 1))
      (fun l' => Rep l' ∧ l'.size = l.size ∧ l'.items = l.items.set i l.items[i + 1]) E := by
  have hi : i + 1 < l.size := by rwa [← h.length_items]
  rw [shiftDown, Nat.add_sub_cancel, gvListGet_eq h hn (by omega)]
  show Meets (l.gvListGet (i + 1) >>= _) _ _
  rw [gvListGet_eq h hn hi]
  show Meets (l.readSlot (l.slotOf (i + 1)) >>= _) _ _
  rw [readSlot_eq h hlt]
  exact (writeSlot_slotOf h (by omega) _).imp fun l' ⟨hr, hit, _, hz, _⟩ => ⟨hr, hz, hit⟩

/-- `gv_list_remove_` removes the item at an index, wherever the head is. -/
theorem gvListRemove_meets (h : Rep l) (hn : 0 < n) {index : Nat} (hi : index < l.size)
    {E : Fault → Prop} :
    Meets (l.gvListRemove index) (fun l' => Rep l' ∧ l'.items = l.items.eraseIdx index) E := by
  have hlen := h.length_items
  -- after `k` steps the items from `index` on have moved down, `k` of them
  have loop := Meets.range' (E := E) shiftDown (index + 1) (l.size - (index + 1))
    (fun k l' => Rep l' ∧ l'.size = l.size ∧ ∀ j, l'.items[j]? =
      if index ≤ j ∧ j < index + k then l.items[j + 1]? else l.items[j]?)
    (fun k hk l' ⟨hr, hz, hit⟩ => by
      rw [show index + 1 + k = index + k + 1 by omega]
      have hlen' := hr.length_items
      refine (shiftDown_meets hr hn (by omega)).imp fun l'' ⟨hr', hz', hit'⟩ =>
        ⟨hr', hz'.trans hz, fun j => ?_⟩
      have hnext := hit (index + k + 1)
      rw [if_neg (by omega), getElem?_eq_getElem (by omega)] at hnext
      rw [hit', getElem?_set, hnext]
      by_cases hj : index + k = j
      · subst hj
        rw [if_pos rfl, if_pos (by omega), if_pos (by omega)]
      · rw [if_neg hj, hit j]
        by_cases hin : index ≤ j ∧ j < index + k
        · rw [if_pos hin, if_pos (by omega)]
        · rw [if_neg hin, if_neg (by omega)])
    l ⟨h, rfl, fun j => by rw [if_neg (by omega)]⟩
  rw [gvListRemove]
  refine Meets.assert hi (loop.bind fun l' ⟨hr, hz, hit⟩ => ?_)
  refine ⟨hr.dropLast.1, hr.dropLast.2.trans (ext_getElem? fun j => ?_)⟩
  have hlen' := hr.length_items
  rw [getElem?_dropLast, getElem?_eraseIdx, hit j]
  obtain hj | hj := lt_or_ge j (l.size - 1)
  · rw [if_pos (by omega)]
    by_cases hj' : j < index
    · rw [if_neg (by omega), if_pos hj']
    · rw [if_pos (by omega), if_neg hj']
  · rw [if_neg (by omega)]
    by_cases hj' : j < index
    · omega
    · rw [if_neg hj', getElem?_eq_none (by omega)]

/-! ## Reordering -/

/-- One step of the reversal swaps an item with its mirror. -/
theorem swapMirror_meets (h : Rep l) (hn : 0 < n) {i : Nat} (hi : i < l.size) {E : Fault → Prop} :
    Meets (l.swapMirror i)
      (fun l' => Rep l' ∧ l'.size = l.size ∧ ∀ j, l'.items[j]? =
        if j = i ∨ j = l.size - i - 1 then l.items[l.size - j - 1]? else l.items[j]?) E := by
  have hlen := h.length_items
  rw [swapMirror, gvListGet_eq h hn hi]
  show Meets (l.gvListGet (l.size - i - 1) >>= _) _ _
  rw [gvListGet_eq h hn (by omega)]
  show Meets (l.readSlot (l.slotOf i) >>= _) _ _
  rw [readSlot_eq h (by omega)]
  show Meets (l.readSlot (l.slotOf (l.size - i - 1)) >>= _) _ _
  rw [readSlot_eq h (by omega)]
  refine (writeSlot_slotOf h hi _).bind fun l' ⟨hr, hit, hh, hz, hc⟩ => ?_
  have hslot : l.slotOf (l.size - i - 1) = l'.slotOf (l.size - i - 1) := by
    rw [slotOf, slotOf, hh, hc]
  rw [hslot]
  refine (writeSlot_slotOf hr (by omega) _).imp fun l'' ⟨hr', hit', _, hz', _⟩ =>
    ⟨hr', hz'.trans hz, fun j => ?_⟩
  rw [hit', hit, getElem?_set, getElem?_set, length_set]
  by_cases h1 : l.size - i - 1 = j
  · rw [if_pos h1, if_pos (by omega), if_pos (by omega),
      getElem?_eq_getElem (by omega : l.size - j - 1 < _)]
    congr 2
    omega
  · rw [if_neg h1]
    by_cases h2 : i = j
    · subst h2
      rw [if_pos rfl, if_pos (by omega), if_pos (.inl rfl), getElem?_eq_getElem]
    · rw [if_neg h2, if_neg (by omega)]

/-- `gv_list_reverse_` reverses the items. -/
theorem gvListReverse_meets (h : Rep l) (hn : 0 < n) {E : Fault → Prop} :
    Meets l.gvListReverse (fun l' => Rep l' ∧ l'.items = l.items.reverse) E := by
  have hlen := h.length_items
  -- after `k` steps the first `k` items and the last `k` have changed places
  have loop := Meets.range' (E := E) swapMirror 0 (l.size / 2)
    (fun k l' => Rep l' ∧ l'.size = l.size ∧ ∀ j, l'.items[j]? =
      if (j < k ∨ l.size - k ≤ j) ∧ j < l.size then l.items[l.size - j - 1]? else l.items[j]?)
    (fun k hk l' ⟨hr, hz, hit⟩ => by
      rw [Nat.zero_add]
      refine (swapMirror_meets hr hn (by omega)).imp fun l'' ⟨hr', hz', hit'⟩ =>
        ⟨hr', hz'.trans hz, fun j => ?_⟩
      rw [hit' j, hit, hit, hz]
      by_cases hj : j = k ∨ j = l.size - k - 1
      · rw [if_pos hj, if_neg (by omega), if_pos (by omega)]
      · rw [if_neg hj]
        by_cases hin : (j < k ∨ l.size - k ≤ j) ∧ j < l.size
        · rw [if_pos hin, if_pos (by omega)]
        · rw [if_neg hin, if_neg (by omega)])
    l ⟨h, rfl, fun j => by rw [if_neg (by omega)]⟩
  rw [gvListReverse, range_eq_range']
  refine loop.imp fun l' ⟨hr, hz, hit⟩ => ⟨hr, ext_getElem? fun j => ?_⟩
  rw [hit j]
  obtain hj | hj := lt_or_ge j l.size
  · rw [getElem?_reverse (by omega), hlen]
    split
    · congr 1; omega
    · congr 1; omega
  · rw [if_neg (by omega), getElem?_eq_none (by omega),
      getElem?_eq_none (by simp [hlen, hj])]

/-- Cutting the bytes of an allocation into slots gives its slots. -/
theorem slotsOf_bytesOf (slots : List (Item n)) :
    slotsOf n slots.length (bytesOf slots) = slots := by
  induction slots with
  | nil => rfl
  | cons x slots ih =>
    have ht : (x.1 ++ bytesOf slots).take n = x.1 := by
      rw [take_append_of_le_length x.2.ge, take_of_length_le x.2.le]
    have hd : (x.1 ++ bytesOf slots).drop n = bytesOf slots := by
      rw [drop_append_of_le_length x.2.ge, drop_eq_nil_of_le x.2.le, nil_append]
    rw [show bytesOf (x :: slots) = x.1 ++ bytesOf slots from rfl, length_cons, slotsOf,
      dif_pos (by rw [ht, x.2]), hd, ih]
    congr 1
    exact Subtype.ext ht

/-- Moving the lowest byte to the end `item_size` times moves the first slot to the end. -/
theorem shuffleBytes_bytesOf (slots : List (Item n)) :
    shuffleBytes n (bytesOf slots) = bytesOf (slots.rotate 1) := by
  have iter : ∀ (k : Nat) (b : List UInt8), (List.rotate · 1)^[k] b = b.rotate k := by
    intro k
    induction k with
    | zero => intro b; simp
    | succ k ih => intro b; rw [Function.iterate_succ_apply, ih, rotate_rotate, Nat.add_comm]
  rw [shuffleBytes, iter]
  cases slots with
  | nil => simp [bytesOf]
  | cons x slots =>
    rw [rotate_cons_succ, rotate_zero]
    have key : ∀ a b : List UInt8, a.length = n → (a ++ b).rotate n = b ++ a := by
      rintro a b rfl
      exact rotate_append_length_eq a b
    simp only [bytesOf, flatMap_cons, flatMap_append, flatMap_nil, append_nil]
    exact key _ _ x.2

/-- The synchronisation loop rotates the slots by the head. -/
theorem syncLoop_eq : ∀ (head : Nat) (slots : List (Item n)), (head = 0 ∨ 0 < slots.length) →
    syncLoop slots.length head slots = .ok (slots.rotate head) := by
  intro head
  induction head with
  | zero => intro slots _; simp [syncLoop]
  | succ head ih =>
    intro slots hh
    have hpos : 0 < slots.length := by omega
    have hlen : (slots.rotate 1).length = slots.length := by simp
    have h1 : slotsOf n slots.length (shuffleBytes n (bytesOf slots)) = slots.rotate 1 := by
      rw [shuffleBytes_bytesOf, ← hlen, slotsOf_bytesOf]
    rw [syncLoop, assert, if_pos hpos]
    show syncLoop slots.length head _ = _
    rw [h1, ← hlen, ih _ (by omega), rotate_rotate, Nat.add_comm]

/-- `gv_list_sync_` makes slot 0 the head and keeps the items. -/
theorem gvListSync_meets (h : Rep l) (hn : 0 < n) {E : Fault → Prop} :
    Meets l.gvListSync
      (fun l' => Rep l' ∧ l'.items = l.items ∧ l'.head = 0 ∧ l'.size = l.size ∧
        l'.capacity = l.capacity) E := by
  have hlen := h.length_slots
  have hhd := h.head_ok
  have hz := h.size_le
  have hcap := h.capacity_lt hn
  have hloop := syncLoop_eq l.head l.slots (by omega)
  rw [hlen] at hloop
  rw [gvListSync, hloop]
  have hbase := h.base_iff
  show Meets (assert _ >>= _) _ _
  refine Meets.assert ?_ ?_
  · show decide (szAdd 0 l.size ≤ l.capacity) = true
    rw [decide_eq_true_eq, szAdd, mod_eq_of_lt (by omega)]
    omega
  · cases hb : l.base with
    | none =>
      have hc : l.capacity = 0 := hbase.1 hb
      have hs0 : l.size = 0 := by omega
      refine ⟨⟨by simp [hc], .inl ⟨hc, rfl⟩, hz, by simp [slots, hc], h.bytes_le⟩, ?_, rfl,
        rfl, rfl⟩
      simp [items, hs0]
    | some b =>
      have hc : 0 < l.capacity := by
        obtain h0 | h0 := Nat.eq_zero_or_pos l.capacity
        · rw [hbase.2 h0] at hb; cases hb
        · exact h0
      exact ⟨h.update hc (by simp [hlen]) hc hz, RingBuffer.view_rotate, rfl, rfl, rfl⟩

/-- A synchronised list's items are its first slots. -/
theorem items_of_head_eq_zero (h₀ : l.head = 0) : l.items = l.slots.take l.size := by
  rw [items, h₀, RingBuffer.view_zero_head]

/-- `gv_list_sort_` leaves the items in an order `qsort` may leave them in. -/
theorem gvListSort_meets (h : Rep l) (hn : 0 < n) (cmp : Cmp n) {E : Fault → Prop} :
    Meets (l.gvListSort c cmp)
      (fun l' => Rep l' ∧ l'.items.Perm l.items ∧
        (cmp.Valid → l'.items.Pairwise fun a b => cmp a b ≤ 0)) E := by
  rw [gvListSort]
  refine (gvListSync_meets h hn).bind fun l' ⟨hr, hit, hh, hz, hc⟩ => ?_
  have hlen := hr.length_slots
  have hle := hr.size_le
  split
  · rename_i h0
    have : l'.items = [] := by rw [items_of_head_eq_zero hh, h0, take_zero]
    exact ⟨hr, by rw [hit], fun _ => by rw [this]; exact .nil⟩
  · have hql : (c.qsort cmp (l'.slots.take l'.size)).length = l'.size := by
      rw [(c.qsort_perm _ _).length_eq, length_take, hlen, min_eq_left hle]
    have hitems : ({ l' with base := some (c.qsort cmp (l'.slots.take l'.size) ++
        l'.slots.drop l'.size) } : ListT n).items = c.qsort cmp l'.items := by
      rw [items_of_head_eq_zero (by exact hh), items_of_head_eq_zero hh]
      show (c.qsort cmp (l'.slots.take l'.size) ++ _).take l'.size = _
      rw [take_append_of_le_length hql.ge, take_of_length_le hql.le]
    refine ⟨hr.update (by omega) (by simp [hql, hlen]; omega) (by omega) hle, ?_, ?_⟩
    · rw [hitems, ← hit]; exact c.qsort_perm _ _
    · rw [hitems]; exact c.qsort_sorted _ _

/-! ## Changing the allocation -/

/-- Copying one item more. -/
theorem copyItem_meets (h : Rep l) (hn : 0 < n) {ret : ListT n} {k : Nat}
    (hlt : k < l.items.length) (hlen : ret.slots.length = l.capacity) (hz : ret.size = k)
    (hc : ret.capacity = l.capacity) {E : Fault → Prop} :
    Meets (l.copyItem ret k)
      (fun ret' => ret'.base = some (ret.slots.set k l.items[k]) ∧
        ret'.head = ret.head ∧ ret'.size = k + 1 ∧ ret'.capacity = ret.capacity) E := by
  have hle := h.size_le
  have hk : k < l.size := by rwa [← h.length_items]
  rw [copyItem, gvListGet_eq h hn hk]
  show Meets (l.readSlot (l.slotOf k) >>= _) _ _
  rw [readSlot_eq h hlt]
  refine Meets.assert (by omega) ?_
  rw [hz, writeSlot_eq (by omega)]
  exact ⟨rfl, rfl, congrArg (· + 1) hz, rfl⟩

/-- `gv_list_copy_` gives a synchronised list with the same items, or exits. Only for a list
without an allocation does the copy's `base` depend on the C library. -/
theorem gvListCopy_meets (h : Rep l) (hn : 0 < n) (h₀ : l.capacity = 0 → c.callocZero = false) :
    Meets (l.gvListCopy c) (fun l' => Rep l' ∧ l'.items = l.items) (· = .exitFailure) := by
  have hle := h.size_le
  have hlen := h.length_items
  have hb := h.bytes_le
  rw [gvListCopy, gvCalloc]
  by_cases hcap : l.capacity = 0
  · have hs : l.size = 0 := by omega
    have hit : l.items = [] := eq_nil_of_length_eq_zero (by omega)
    rw [if_neg (by omega), if_pos (by simp [hcap]), h₀ hcap, hit, hs, hcap]
    exact ⟨.zero, by simp [items]⟩
  · split
    · rfl
    rw [if_neg (Nat.mul_ne_zero hcap hn.ne')]
    split
    · -- after `k` steps the first `k` slots of the copy are the first `k` items
      have loop := Meets.range' (E := (· = .exitFailure)) (copyItem l) 0 l.size
        (fun k ret => ret.slots.length = l.capacity ∧ ret.base ≠ none ∧ ret.head = 0 ∧
          ret.size = k ∧ ret.capacity = l.capacity ∧
          ∀ j < k, ret.slots[j]? = l.items[j]?)
        (fun k hk ret ⟨h1, h2, h3, h4, h5, h6⟩ => by
          have hlt : k < l.items.length := by omega
          rw [Nat.zero_add]
          refine (copyItem_meets h hn hlt h1 h4 h5).imp fun ret' ⟨g1, g2, g3, g4⟩ => ?_
          have hs : ret'.slots = ret.slots.set k l.items[k] := by
            rw [slots, g1]; rfl
          refine ⟨by rw [hs, length_set, h1], by simp [g1], g2.trans h3, g3,
            g4.trans h5, fun j hj => ?_⟩
          rw [hs, getElem?_set]
          by_cases hjk : k = j
          · subst hjk
            rw [if_pos rfl, if_pos (by omega), getElem?_eq_getElem]
          · rw [if_neg hjk, h6 j (by omega)])
        { base := some (replicate l.capacity (zeroItem n)), head := 0, size := 0
          capacity := l.capacity }
        ⟨by simp [slots], by simp, rfl, rfl, rfl, fun j hj => by omega⟩
      show Meets ((List.range l.size).foldlM (copyItem l) _) _ _
      rw [range_eq_range']
      refine loop.imp fun ret ⟨h1, h2, h3, h4, h5, h6⟩ => ⟨⟨?_, ?_, ?_, ?_, ?_⟩, ?_⟩
      · simp [h2, h5, hcap]
      · omega
      · omega
      · rw [h1, h5]
      · rwa [h5]
      · rw [items_of_head_eq_zero h3, h4]
        refine ext_getElem? fun j => ?_
        obtain hj | hj := lt_or_ge j l.size
        · rw [getElem?_take_of_lt hj, h6 j hj]
        · rw [getElem?_eq_none (by rw [length_take]; omega),
            getElem?_eq_none (by omega)]
    · rfl

/-- `gv_list_shrink_to_fit_` keeps the items and as many slots, or exits. -/
theorem gvListShrinkToFit_meets (h : Rep l) (hn : 0 < n) :
    Meets (l.gvListShrinkToFit c) (fun l' => Rep l' ∧ l'.items = l.items) (· = .exitFailure) := by
  rw [gvListShrinkToFit]
  refine (gvListSync_meets h hn).bind fun l' ⟨hr, hit, hh, hz, hc⟩ => ?_
  have hlen := hr.length_slots
  have hb := hr.bytes_le
  have hle := hr.size_le
  split
  · rename_i hgt
    have hroom : l'.capacity < SIZE_MAX / n := by
      rw [lt_div_iff_mul_lt hn]
      have : n ≤ l'.capacity * n := Nat.le_mul_of_pos_left _ (by omega)
      unfold PTRDIFF_MAX at hb
      unfold SIZE_MAX
      omega
    rw [gvRecallocDown]
    simp only [bind_assoc]
    refine Meets.assert hn (Meets.assert hroom ?_)
    rw [if_neg (by omega)]
    split
    · rename_i hs0
      have hs0 : l'.size = 0 := by
        rcases Nat.mul_eq_zero.1 hs0 with h | h <;> omega
      refine ⟨⟨by simp [hs0], .inl ⟨hs0, hh⟩, le_rfl, by simp [slots, hs0], by simp [hs0]⟩, ?_⟩
      rw [← hit, items_of_head_eq_zero hh, items_of_head_eq_zero (by exact hh), hs0]
      simp
    · rename_i hs0
      have hs0 : 0 < l'.size := by
        obtain h | h := Nat.eq_zero_or_pos l'.size
        · simp [h] at hs0
        · exact h
      split
      · refine ⟨.ofSlots hs0 (by rw [length_take]; omega) (by omega) le_rfl
          ((mul_le_mul_right n hle).trans hb), ?_⟩
        rw [← hit, items_of_head_eq_zero hh, items_of_head_eq_zero (by exact hh)]
        show (l'.slots.take l'.size).take l'.size = _
        rw [take_take, min_self]
      · rfl
  · exact ⟨hr, hit⟩

/-- `gv_list_detach_` hands out an array that starts with the items and leaves the zero
list. -/
theorem gvListDetach_meets (h : Rep l) (hn : 0 < n) {E : Fault → Prop} :
    Meets l.gvListDetach
      (fun r => r.1.take r.2.1 = l.items ∧ r.2.1 = l.items.length ∧ r.2.2 = ListT.zero) E := by
  rw [gvListDetach]
  refine (gvListSync_meets h hn).bind fun l' ⟨_, hit, hh, hz, _⟩ => ⟨?_, ?_, rfl⟩
  · rw [← hit, items_of_head_eq_zero hh]
  · rw [h.length_items]; exact hz

end ListT

end Graphviz
