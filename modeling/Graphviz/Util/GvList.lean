import Graphviz.Util.Fault
import Mathlib

/-!
# The generic list

`lib/util/list.h`, `list-private.h` and `list.c`. A list is a ring buffer of slots of
`item_size` bytes: `head` is the slot of the first item and the items wrap past the last
slot. The functions of `list.c` work on a `list_t_`, the macros of `list.h` on a typed
`LIST` that adds the destructor. A macro's result is its value, the items it handed to the
destructor, in order, and the list after it.

What the C library decides is an argument of type `Libc`: which allocations succeed, what
`calloc` of no bytes returns, and the order `qsort` leaves. The scratch element of a `LIST`
is a temporary of its macros and the ASAN annotations have no effect on a list, so neither is
modelled.
-/

namespace Graphviz

/-- `SIZE_MAX`, for a 64-bit `size_t`. -/
def SIZE_MAX : Nat := 2 ^ 64 - 1

/-- The largest object the allocator can return. -/
def PTRDIFF_MAX : Nat := 2 ^ 63 - 1

/-- `size_t` addition. -/
def szAdd (a b : Nat) : Nat := (a + b) % 2 ^ 64

/-- `size_t` multiplication. -/
def szMul (a b : Nat) : Nat := a * b % 2 ^ 64

/-- An item: the `item_size` bytes of a slot. -/
abbrev Item (n : Nat) := { bytes : List UInt8 // bytes.length = n }

/-- Memory as `memset(_, 0, _)` leaves it. -/
def zeroItem (n : Nat) : Item n := ⟨List.replicate n 0, by simp⟩

/-- A comparator of `LIST_SORT`: negative, zero or positive. -/
abbrev Cmp (n : Nat) := Item n → Item n → Int

/-- A comparator that `qsort` may be given: a total preorder. -/
structure Cmp.Valid {n : Nat} (cmp : Cmp n) : Prop where
  total : ∀ a b, cmp a b ≤ 0 ∨ cmp b a ≤ 0
  trans : ∀ a b c, cmp a b ≤ 0 → cmp b c ≤ 0 → cmp a c ≤ 0

/-- The C library as the list uses it: whether `realloc` or `calloc` of a number of bytes
succeeds, whether `calloc` of no bytes returns a pointer, and `qsort`. -/
structure Libc (n : Nat) where
  grants : Nat → Bool
  grants_le : ∀ b, grants b = true → b ≤ PTRDIFF_MAX
  callocZero : Bool
  qsort : Cmp n → List (Item n) → List (Item n)
  qsort_perm : ∀ cmp l, (qsort cmp l).Perm l
  qsort_sorted : ∀ cmp l, cmp.Valid → (qsort cmp l).Pairwise fun a b => cmp a b ≤ 0

/-- `list_t_`. A null `base` is `none`; otherwise it holds the slots of the allocation. -/
structure ListT (n : Nat) where
  base : Option (List (Item n))
  head : Nat
  size : Nat
  capacity : Nat
  deriving DecidableEq

namespace ListT

variable {n : Nat}

/-- `(list_t_){0}`. -/
def zero : ListT n := { base := none, head := 0, size := 0, capacity := 0 }

/-- The slots of the allocation. -/
def slots (l : ListT n) : List (Item n) := l.base.getD []

/-- A read through `INDEX_TO(list, slot, item_size)`. -/
def readSlot (l : ListT n) (slot : Nat) : Except Fault (Item n) :=
  match l.slots[slot]? with
  | some x => .ok x
  | none => .error .segfault

/-- A write through `INDEX_TO(list, slot, item_size)`. -/
def writeSlot (l : ListT n) (slot : Nat) (x : Item n) : Except Fault (ListT n) :=
  if slot < l.slots.length then .ok { l with base := some (l.slots.set slot x) }
  else .error .segfault

/-- `memmove` of `count` slots within an allocation. -/
def memmoveSlots (slots : List (Item n)) (dst src count : Nat) : List (Item n) :=
  slots.take dst ++ (slots.drop src).take count ++ slots.drop (dst + count)

/-- The error codes of `try_reserve`. -/
inductive Errno where
  | EOVERFLOW
  | ENOMEM
  deriving DecidableEq, Repr

/-- `try_reserve`. -/
def tryReserve (c : Libc n) (l : ListT n) (capacity : Nat) : Except Errno (ListT n) :=
  if l.capacity ≥ capacity then .ok l
  else if SIZE_MAX / capacity < n then .error .EOVERFLOW
  else if ¬ c.grants (capacity * n) then .error .ENOMEM
  else
    let base := l.slots ++ List.replicate (capacity - l.capacity) (zeroItem n)
    -- does the list wrap, so that its part from `head` on must move to the new end?
    if szAdd l.head l.size > l.capacity then
      let pre := l.capacity - l.head
      let newHead := capacity - pre
      .ok { l with base := some (memmoveSlots base newHead l.head pre)
                   head := newHead, capacity := capacity }
    else .ok { l with base := some base, capacity := capacity }

/-- `gv_list_reserve_`. -/
def gvListReserve (c : Libc n) (l : ListT n) (capacity : Nat) : Except Fault (ListT n) :=
  match tryReserve c l capacity with
  | .ok l => .ok l
  | .error _ => .error .exitFailure

/-- The capacity to grow to: `list->capacity == 0 ? 1 : (list->capacity * 2)`. -/
def doubled (l : ListT n) : Nat := if l.capacity = 0 then 1 else szMul l.capacity 2

/-- The growth step of the appending and prepending functions. -/
def growIfFull (c : Libc n) (l : ListT n) : Except Fault (ListT n) :=
  if l.size = l.capacity then gvListReserve c l l.doubled else .ok l

/-- `gv_list_append_slot_`: the new slot and the list. -/
def gvListAppendSlot (c : Libc n) (l : ListT n) : Except Fault (Nat × ListT n) := do
  let l ← growIfFull c l
  assert (l.capacity > 0)
  assert (l.size < l.capacity)
  .ok (szAdd l.head l.size % l.capacity, { l with size := l.size + 1 })

/-- `gv_list_prepend_slot_`: the new slot and the list. -/
def gvListPrependSlot (c : Libc n) (l : ListT n) : Except Fault (Nat × ListT n) := do
  let l ← growIfFull c l
  assert (l.capacity > 0)
  assert (l.size < l.capacity)
  let head := szAdd l.head (l.capacity - 1) % l.capacity
  .ok (head, { l with head := head, size := l.size + 1 })

/-- The growth attempts of `gv_list_try_append_`: doubling, then one more slot. -/
def tryGrow (c : Libc n) (l : ListT n) : Option (ListT n) :=
  let conservative :=
    if SIZE_MAX - 1 ≥ l.capacity then (tryReserve c l (l.capacity + 1)).toOption else none
  if SIZE_MAX / 2 ≥ l.capacity then
    match tryReserve c l l.doubled with
    | .ok l => some l
    | .error _ => conservative
  else conservative

/-- `gv_list_try_append_`. -/
def gvListTryAppend (c : Libc n) (l : ListT n) (item : Item n) :
    Except Fault (Bool × ListT n) :=
  match if l.size = l.capacity then tryGrow c l else some l with
  | none => .ok (false, l)
  | some l => do
    assert (l.size < l.capacity)
    let l ← l.writeSlot (szAdd l.head l.size % l.capacity) item
    .ok (true, { l with size := l.size + 1 })

/-- `gv_list_get_`: the slot of an index. -/
def gvListGet (l : ListT n) (index : Nat) : Except Fault Nat := do
  assert (index < l.size)
  .ok (szAdd l.head index % l.capacity)

/-- `gv_list_find_`: the index of the first item with the bytes of `needle`, or
`SIZE_MAX`. The search is the loop of the source from index `i` on. -/
def gvListFindFrom (l : ListT n) (needle : Item n) (i : Nat) : Nat → Except Fault Nat
  | 0 => .ok SIZE_MAX
  | fuel + 1 => do
    let slot ← l.gvListGet i
    let candidate ← l.readSlot slot
    if needle = candidate then .ok i else l.gvListFindFrom needle (i + 1) fuel

@[inherit_doc gvListFindFrom]
def gvListFind (l : ListT n) (needle : Item n) : Except Fault Nat :=
  l.gvListFindFrom needle 0 l.size

/-- The loop body of `gv_list_remove_`: the item at `i` moves down by one index. -/
def shiftDown (l : ListT n) (i : Nat) : Except Fault (ListT n) := do
  let dst ← l.gvListGet (i - 1)
  let src ← l.gvListGet i
  let x ← l.readSlot src
  l.writeSlot dst x

/-- `gv_list_remove_`. -/
def gvListRemove (l : ListT n) (index : Nat) : Except Fault (ListT n) := do
  assert (index < l.size)
  let l ← (List.range' (index + 1) (l.size - (index + 1))).foldlM shiftDown l
  .ok { l with size := l.size - 1 }

/-- `gv_list_clear_`. -/
def gvListClear (l : ListT n) : ListT n := { l with size := 0, head := 0 }

/-- `gv_calloc`. -/
def gvCalloc (c : Libc n) (nmemb : Nat) : Except Fault (Option (List (Item n))) :=
  if nmemb > 0 ∧ SIZE_MAX / nmemb < n then .error .exitFailure
  else if nmemb * n = 0 then .ok (if c.callocZero then some [] else none)
  else if c.grants (nmemb * n) then .ok (some (List.replicate nmemb (zeroItem n)))
  else .error .exitFailure

/-- The loop body of `gv_list_copy_`: the item at `i` of `l` becomes the next of `ret`. -/
def copyItem (l : ListT n) (ret : ListT n) (i : Nat) : Except Fault (ListT n) := do
  let slot ← l.gvListGet i
  let x ← l.readSlot slot
  assert (ret.size < ret.capacity)
  let ret ← ret.writeSlot ret.size x
  .ok { ret with size := ret.size + 1 }

/-- `gv_list_copy_`. -/
def gvListCopy (c : Libc n) (l : ListT n) : Except Fault (ListT n) := do
  let base ← gvCalloc c l.capacity
  (List.range l.size).foldlM (copyItem l)
    { base := base, head := 0, size := 0, capacity := l.capacity }

/-- `gv_list_is_contiguous_`. -/
def gvListIsContiguous (l : ListT n) : Bool := szAdd l.head l.size ≤ l.capacity

/-- The bytes of an allocation. -/
def bytesOf (slots : List (Item n)) : List UInt8 := slots.flatMap (·.1)

/-- The first `k` slots of an allocation's bytes. -/
def slotsOf (n : Nat) : Nat → List UInt8 → List (Item n)
  | 0, _ => []
  | k + 1, bytes =>
    if h : (bytes.take n).length = n then ⟨bytes.take n, h⟩ :: slotsOf n k (bytes.drop n)
    else []

/-- Moving the lowest byte to the end, `item_size` times: one leftward shuffle of
`gv_list_sync_`. -/
def shuffleBytes (n : Nat) (bytes : List UInt8) : List UInt8 := (List.rotate · 1)^[n] bytes

/-- The loop of `gv_list_sync_`, which runs until `head` is 0. -/
def syncLoop (capacity : Nat) : Nat → List (Item n) → Except Fault (List (Item n))
  | 0, slots => .ok slots
  | head + 1, slots => do
    assert (capacity > 0)
    syncLoop capacity head (slotsOf n capacity (shuffleBytes n (bytesOf slots)))

/-- `gv_list_sync_`. -/
def gvListSync (l : ListT n) : Except Fault (ListT n) := do
  let slots ← syncLoop l.capacity l.head l.slots
  let l := { l with base := l.base.map fun _ => slots, head := 0 }
  assert (l.gvListIsContiguous = true)
  .ok l

/-- `gv_list_sort_`. -/
def gvListSort (c : Libc n) (cmp : Cmp n) (l : ListT n) : Except Fault (ListT n) := do
  let l ← l.gvListSync
  if l.size = 0 then .ok l
  else
    .ok { l with base := some (c.qsort cmp (l.slots.take l.size) ++ l.slots.drop l.size) }

/-- The loop body of `gv_list_reverse_`: the items at `i` and at its mirror index swap. -/
def swapMirror (l : ListT n) (i : Nat) : Except Fault (ListT n) := do
  let a ← l.gvListGet i
  let b ← l.gvListGet (l.size - i - 1)
  let x ← l.readSlot a
  let y ← l.readSlot b
  let l ← l.writeSlot a y
  l.writeSlot b x

/-- `gv_list_reverse_`. -/
def gvListReverse (l : ListT n) : Except Fault (ListT n) :=
  (List.range (l.size / 2)).foldlM swapMirror l

/-- `gv_recalloc` to a smaller number of slots. -/
def gvRecallocDown (c : Libc n) (slots : List (Item n)) (oldNmemb newNmemb : Nat) :
    Except Fault (Option (List (Item n))) := do
  assert (n > 0)
  assert (oldNmemb < SIZE_MAX / n)
  if newNmemb > SIZE_MAX / n then .error .exitFailure
  else if newNmemb * n = 0 then .ok none
  else if c.grants (newNmemb * n) then .ok (some (slots.take newNmemb))
  else .error .exitFailure

/-- `gv_list_shrink_to_fit_`. -/
def gvListShrinkToFit (c : Libc n) (l : ListT n) : Except Fault (ListT n) := do
  let l ← l.gvListSync
  if l.capacity > l.size then
    let base ← gvRecallocDown c l.slots l.capacity l.size
    .ok { l with base := base, capacity := l.size }
  else .ok l

/-- `gv_list_free_`. -/
def gvListFree (_ : ListT n) : ListT n := zero

/-- `gv_list_pop_front_`. -/
def gvListPopFront (l : ListT n) : Except Fault (Item n × ListT n) := do
  assert (l.size > 0)
  let slot ← l.gvListGet 0
  let x ← l.readSlot slot
  .ok (x, { l with head := szAdd l.head 1 % l.capacity, size := l.size - 1 })

/-- `gv_list_pop_back_`. -/
def gvListPopBack (l : ListT n) : Except Fault (Item n × ListT n) := do
  assert (l.size > 0)
  let slot ← l.gvListGet (l.size - 1)
  let x ← l.readSlot slot
  .ok (x, { l with size := l.size - 1 })

/-- `gv_list_detach_`: the bare array with its number of items, and the emptied list. -/
def gvListDetach (l : ListT n) : Except Fault (List (Item n) × Nat × ListT n) := do
  let l ← l.gvListSync
  .ok (l.slots, l.size, zero)

end ListT

/-- The `dtor` of a `LIST`: null, `LIST_DTOR_FREE` or a function. -/
inductive Dtor where
  | null
  | free
  | fn
  deriving DecidableEq, Repr

/-- `LIST(type)`. -/
structure LIST (n : Nat) where
  impl : ListT n
  dtor : Dtor
  deriving DecidableEq

/-- The value of a macro of `list.h`. -/
inductive Reply (n : Nat) where
  | unit
  | bool (b : Bool)
  | item (x : Item n)
  | array (data : List (Item n)) (size : Nat)
  deriving DecidableEq

/-- The operations of `list.h` that change a list or read an item of it. `copy` continues
with the destination of `LIST_COPY`. -/
inductive ListOp (n : Nat) where
  | append (x : Item n)
  | prepend (x : Item n)
  | tryAppend (x : Item n)
  | get (index : Nat)
  | set (index : Nat) (x : Item n)
  | remove (x : Item n)
  | popFront
  | popBack
  | dropBack
  | reserve (capacity : Nat)
  | sync
  | sort (cmp : Cmp n)
  | reverse
  | copy
  | shrinkToFit
  | clear
  | detach
  | free

namespace LIST

variable {n : Nat}

/-- `{.dtor = dtor}`: the zero list. -/
def init (dtor : Dtor) : LIST n := { impl := ListT.zero, dtor := dtor }

/-- `LIST_DTOR_`: the items handed to the destructor. `free` needs items of pointer size. -/
def listDtor (l : LIST n) (slot : Nat) : Except Fault (List (Item n)) :=
  match l.dtor with
  | .null => .ok []
  | .free => if n = 8 then (fun x => [x]) <$> l.impl.readSlot slot else .error .abort
  | .fn => (fun x => [x]) <$> l.impl.readSlot slot

/-- `LIST_APPEND`. -/
def listAppend (c : Libc n) (l : LIST n) (x : Item n) : Except Fault (LIST n) := do
  let (slot, impl) ← l.impl.gvListAppendSlot c
  let impl ← impl.writeSlot slot x
  .ok { l with impl := impl }

/-- `LIST_PREPEND`. -/
def listPrepend (c : Libc n) (l : LIST n) (x : Item n) : Except Fault (LIST n) := do
  let (slot, impl) ← l.impl.gvListPrependSlot c
  let impl ← impl.writeSlot slot x
  .ok { l with impl := impl }

/-- `LIST_GET`. -/
def listGet (l : LIST n) (index : Nat) : Except Fault (Item n) := do
  l.impl.readSlot (← l.impl.gvListGet index)

/-- `LIST_SET`. -/
def listSet (l : LIST n) (index : Nat) (x : Item n) :
    Except Fault (List (Item n) × LIST n) := do
  let slot ← l.impl.gvListGet index
  let calls ← l.listDtor slot
  let impl ← l.impl.writeSlot slot x
  .ok (calls, { l with impl := impl })

/-- `LIST_REMOVE`. The destructor is given the slot numbered like the index found. -/
def listRemove (l : LIST n) (x : Item n) : Except Fault (List (Item n) × LIST n) := do
  let found ← l.impl.gvListFind x
  if found = SIZE_MAX then .ok ([], l)
  else
    let calls ← l.listDtor found
    let impl ← l.impl.gvListRemove found
    .ok (calls, { l with impl := impl })

/-- The loop of `LIST_CLEAR`. -/
def dtorAll (l : LIST n) (calls : List (Item n)) (i : Nat) : Except Fault (List (Item n)) := do
  let slot ← l.impl.gvListGet i
  return calls ++ (← l.listDtor slot)

/-- `LIST_CLEAR`. -/
def listClear (l : LIST n) : Except Fault (List (Item n) × LIST n) := do
  let calls ← (List.range l.impl.size).foldlM l.dtorAll []
  .ok (calls, { l with impl := l.impl.gvListClear })

/-- `LIST_FREE`. -/
def listFree (l : LIST n) : Except Fault (List (Item n) × LIST n) := do
  let (calls, l) ← l.listClear
  .ok (calls, { l with impl := l.impl.gvListFree })

/-- `LIST_DROP_BACK`. -/
def listDropBack (l : LIST n) : Except Fault (List (Item n) × LIST n) := do
  -- on an empty list the index is `SIZE_MAX` and `gv_list_get_` asserts
  let slot ← l.impl.gvListGet (if l.impl.size = 0 then SIZE_MAX else l.impl.size - 1)
  let calls ← l.listDtor slot
  let (_, impl) ← l.impl.gvListPopBack
  .ok (calls, { l with impl := impl })

/-- One operation: its value, the destructor's calls and the list after it. -/
def step (c : Libc n) (l : LIST n) : ListOp n → Except Fault (Reply n × List (Item n) × LIST n)
  | .append x => do .ok (.unit, [], ← l.listAppend c x)
  | .prepend x => do .ok (.unit, [], ← l.listPrepend c x)
  | .tryAppend x => do
    let (b, impl) ← l.impl.gvListTryAppend c x
    .ok (.bool b, [], { l with impl := impl })
  | .get index => do .ok (.item (← l.listGet index), [], l)
  | .set index x => do
    let (calls, l) ← l.listSet index x
    .ok (.unit, calls, l)
  | .remove x => do
    let (calls, l) ← l.listRemove x
    .ok (.unit, calls, l)
  | .popFront => do
    let (x, impl) ← l.impl.gvListPopFront
    .ok (.item x, [], { l with impl := impl })
  | .popBack => do
    let (x, impl) ← l.impl.gvListPopBack
    .ok (.item x, [], { l with impl := impl })
  | .dropBack => do
    let (calls, l) ← l.listDropBack
    .ok (.unit, calls, l)
  | .reserve capacity => do
    .ok (.unit, [], { l with impl := ← l.impl.gvListReserve c capacity })
  | .sync => do .ok (.unit, [], { l with impl := ← l.impl.gvListSync })
  | .sort cmp => do .ok (.unit, [], { l with impl := ← l.impl.gvListSort c cmp })
  | .reverse => do .ok (.unit, [], { l with impl := ← l.impl.gvListReverse })
  | .copy => do .ok (.unit, [], { impl := ← l.impl.gvListCopy c, dtor := l.dtor })
  | .shrinkToFit => do .ok (.unit, [], { l with impl := ← l.impl.gvListShrinkToFit c })
  | .clear => do
    let (calls, l) ← l.listClear
    .ok (.unit, calls, l)
  | .detach => do
    let (data, size, impl) ← l.impl.gvListDetach
    .ok (.array data size, [], { l with impl := impl })
  | .free => do
    let (calls, l) ← l.listFree
    .ok (.unit, calls, l)

end LIST

end Graphviz
