import Mathlib.Data.List.Rotate

/-!
# Ring buffers

A ring buffer keeps `size` items in a list of slots, starting at the slot `head` and
wrapping past the last one. `view` reads the items in order. Every operation on the slots is
described by what it does to the view: writing the slot of an index, writing the slot after
the last item or before the first one, dropping an end, rotating the slots, and enlarging
them with the items in place or with the part before the wrap moved to the new end.
-/

namespace RingBuffer

open List Nat

variable {α : Type _} {slots : List α} {head size i : Nat} {x : α}

/-- The items of a ring buffer, first to last. -/
def view (slots : List α) (head size : Nat) : List α :=
  (slots.rotate head).take size

theorem length_view (hs : size ≤ slots.length) : (view slots head size).length = size := by
  simp [view, hs]

@[simp] theorem view_zero_size : view slots head 0 = [] := by simp [view]

/-- The item at an index is in the slot `index` places after the head. -/
theorem getElem?_view (hi : i < size) (hs : size ≤ slots.length) :
    (view slots head size)[i]? = slots[(head + i) % slots.length]? := by
  rw [view, getElem?_take_of_lt hi, getElem?_rotate (by omega), Nat.add_comm]

/-- Past its size a view holds nothing. -/
theorem getElem?_view_of_le (hi : size ≤ i) : (view slots head size)[i]? = none := by
  rw [view, getElem?_eq_none]
  exact (length_take_le _ _).trans hi

/-- The views of two buffers agree when their slots do, index by index. -/
theorem view_congr {slots' : List α} {head' : Nat} (hs : size ≤ slots.length)
    (hs' : size ≤ slots'.length)
    (h : ∀ i < size, slots[(head + i) % slots.length]? = slots'[(head' + i) % slots'.length]?) :
    view slots head size = view slots' head' size := by
  refine ext_getElem? fun i => ?_
  obtain hi | hi := lt_or_ge i size
  · rw [getElem?_view hi hs, getElem?_view hi hs', h i hi]
  · rw [getElem?_view_of_le hi, getElem?_view_of_le hi]

/-- A sum of a slot number and an offset wraps at most once. -/
theorem add_mod_cases {a n : Nat} (ha : a < n) (hi : i < n) :
    a + i < n ∧ (a + i) % n = a + i ∨ n ≤ a + i ∧ (a + i) % n = a + i - n := by
  obtain h | h := lt_or_ge (a + i) n
  · exact .inl ⟨h, mod_eq_of_lt h⟩
  · refine .inr ⟨h, ?_⟩
    rw [mod_eq_sub_mod h, mod_eq_of_lt (by omega)]

/-- Two indices below the capacity have different slots. -/
theorem slot_inj {n j : Nat} (hh : head < n) (hi : i < n) (hj : j < n)
    (h : (head + i) % n = (head + j) % n) : i = j := by
  rcases add_mod_cases hh hi with ⟨_, h1⟩ | ⟨_, h1⟩ <;>
    rcases add_mod_cases hh hj with ⟨_, h2⟩ | ⟨_, h2⟩ <;> omega

/-- The slot before the head, written `(head + (n - 1)) % n`, is where index `i + 1` of the
longer buffer is index `i` of the shorter one. -/
theorem slot_pred {n : Nat} (hi : i < n) :
    ((head + (n - 1)) % n + (i + 1)) % n = (head + i) % n := by
  rw [mod_add_mod, show head + (n - 1) + (i + 1) = head + i + n by omega,
    add_mod_right]

/-- Writing the slot of an index writes the item at that index. -/
theorem view_set (hi : i < size) (hs : size ≤ slots.length) (hh : head < slots.length) :
    view (slots.set ((head + i) % slots.length) x) head size = (view slots head size).set i x := by
  refine ext_getElem? fun j => ?_
  rw [getElem?_set, length_view hs]
  obtain hj | hj := lt_or_ge j size
  · rw [getElem?_view hj (by simpa using hs), getElem?_view hj hs, length_set,
      getElem?_set]
    obtain rfl | hij := eq_or_ne i j
    · have : (head + i) % slots.length < slots.length := mod_lt _ (by omega)
      simp [this, hi]
    · rw [if_neg (fun h => hij (slot_inj hh (by omega) (by omega) h)), if_neg hij]
  · rw [getElem?_view_of_le hj, getElem?_view_of_le hj, if_neg (by omega)]

/-- Writing the slot after the last item appends. -/
theorem view_append (hs : size < slots.length) (hh : head < slots.length) :
    view (slots.set ((head + size) % slots.length) x) head (size + 1) =
      view slots head size ++ [x] := by
  refine ext_getElem? fun j => ?_
  obtain hj | rfl | hj := lt_trichotomy j size
  · rw [getElem?_view (by omega) (by rw [length_set]; omega), length_set,
      getElem?_set,
      if_neg (fun h => by have := slot_inj hh (by omega) (by omega) h; omega),
      getElem?_append_left (by rwa [length_view (by omega)]), getElem?_view hj (by omega)]
  · have : (head + j) % slots.length < slots.length := mod_lt _ (by omega)
    rw [getElem?_view (by omega) (by rw [length_set]; omega), length_set,
      getElem?_set,
      if_pos rfl, if_pos this, getElem?_append_right (by rw [length_view (by omega)]),
      length_view (by omega)]
    simp
  · rw [getElem?_view_of_le (by omega), getElem?_eq_none]
    simp [length_view hs.le]
    omega

/-- Writing the slot before the head, and making it the head, prepends. -/
theorem view_prepend (hs : size < slots.length) (hh : head < slots.length) :
    view (slots.set ((head + (slots.length - 1)) % slots.length) x)
        ((head + (slots.length - 1)) % slots.length) (size + 1) =
      x :: view slots head size := by
  have hlt : (head + (slots.length - 1)) % slots.length < slots.length :=
    mod_lt _ (by omega)
  refine ext_getElem? fun j => ?_
  obtain hj | hj := lt_or_ge j (size + 1)
  · rw [getElem?_view hj (by rw [length_set]; omega), length_set, getElem?_set]
    cases j with
    | zero => simp [hlt, mod_eq_of_lt hlt]
    | succ j =>
      rw [slot_pred (by omega), getElem?_cons_succ, getElem?_view (by omega) hs.le]
      refine if_neg fun h => ?_
      have := slot_inj hh (by omega : slots.length - 1 < slots.length) (by omega) h
      omega
  · rw [getElem?_view_of_le hj, getElem?_eq_none]
    simp [length_view hs.le]
    omega

/-- Advancing the head drops the first item. -/
theorem view_tail (hs : size ≤ slots.length) :
    view slots ((head + 1) % slots.length) (size - 1) = (view slots head size).tail := by
  refine ext_getElem? fun j => ?_
  rw [getElem?_tail]
  obtain hj | hj := lt_or_ge j (size - 1)
  · rw [getElem?_view hj (by omega), getElem?_view (by omega) hs, mod_add_mod]
    congr 2
    omega
  · rw [getElem?_view_of_le hj, getElem?_view_of_le (by omega)]

/-- A smaller size drops the last item. -/
theorem view_dropLast (hs : size ≤ slots.length) :
    view slots head (size - 1) = (view slots head size).dropLast := by
  rw [dropLast_eq_take, length_view hs, view, view, take_take]
  congr 1
  omega

/-- Rotating the slots by the head makes slot 0 the head. -/
theorem view_rotate : view (slots.rotate head) 0 size = view slots head size := by
  simp [view]

/-- With its head at slot 0 a buffer's items are its first slots. -/
theorem view_zero_head : view slots 0 size = slots.take size := by
  simp [view]

/-- New slots after the last one do not touch a buffer that does not wrap. -/
theorem view_grow {more : List α} (h : head + size ≤ slots.length) :
    view (slots ++ more) head size = view slots head size := by
  refine view_congr (by rw [length_append]; omega) (by omega) fun i hi => ?_
  rw [mod_eq_of_lt (by rw [length_append]; omega), mod_eq_of_lt (by omega),
    getElem?_append_left (by omega)]

/-- In a buffer that wraps, the slots from the head on may move to the end of the enlarged
slots. -/
theorem view_grow_wrap {slots' : List α} (hs : size ≤ slots.length) (hh : head < slots.length)
    (hw : slots.length < head + size) (hle : slots.length ≤ slots'.length)
    (hlow : ∀ i < head + size - slots.length, slots'[i]? = slots[i]?)
    (hhigh : ∀ i < slots.length - head,
      slots'[slots'.length - (slots.length - head) + i]? = slots[head + i]?) :
    view slots' (slots'.length - (slots.length - head)) size = view slots head size := by
  refine view_congr (by omega) hs fun i hi => ?_
  obtain hlt | hge := lt_or_ge i (slots.length - head)
  · rw [mod_eq_of_lt (by omega), mod_eq_of_lt (by omega), hhigh i hlt]
  · have h1 : slots'.length - (slots.length - head) + i =
        (i - (slots.length - head)) + slots'.length := by omega
    have h2 : head + i = (i - (slots.length - head)) + slots.length := by omega
    rw [h1, h2, add_mod_right, add_mod_right, mod_eq_of_lt (by omega),
      mod_eq_of_lt (by omega), hlow _ (by omega)]

end RingBuffer
