import Graphviz.Library.Bytes
import Graphviz.Util.Fault
import Graphviz.Util.Libc

/-!
# String buffers (`util/agxbuf.h`)

A short string is kept in the bytes of the buffer itself, where the pointer to a longer one and its
size and capacity have their place; the last byte of the buffer tells which, and is the length of a
short string. Memory is a heap of blocks. `calloc`, `realloc` and `strndup` get their blocks from a
parameter, which may refuse; sizes are those of blocks, and do not overflow.
-/

namespace Graphviz

open List Outcome

namespace Agxb

/-! ## Memory -/

/-- The blocks of the heap, by their addresses. -/
abbrev Heap := Nat → Option CStr

/-- Where the next block of a size is placed, if there is room: clear of the blocks that are there.
Addresses are 64 bits wide, and no block is larger than `PTRDIFF_MAX`. -/
structure Malloc where
  place : Heap → Nat → Option Nat
  fresh {heap : Heap} {n a : Nat} : place heap n = some a → heap a = none
  small {heap : Heap} {n a : Nat} : place heap n = some a → a < 2 ^ 64 ∧ n < 2 ^ 63

/-- A block gets its bytes. -/
def Malloc.alloc (A : Malloc) (heap : Heap) (block : CStr) : Except Fault (Nat × Heap) :=
  match A.place heap block.length with
  | some a => .ok (a, Function.update heap a (some block))
  | none => .error .exitFailure

/-- `gv_calloc`, for bytes. -/
def gv_calloc (A : Malloc) (heap : Heap) (nmemb : Nat) : Except Fault (Nat × Heap) :=
  A.alloc heap (replicate nmemb 0)

/-- `gv_recalloc`, for bytes. -/
def gv_recalloc (A : Malloc) (heap : Heap) (ptr old_nmemb new_nmemb : Nat) :
    Except Fault (Nat × Heap) := do
  assert (old_nmemb < 2 ^ 64 - 1)
  match heap ptr with
  | none => .error .segfault
  | some block =>
    A.alloc (Function.update heap ptr none)
      (block.take (min old_nmemb new_nmemb) ++ replicate (new_nmemb - old_nmemb) 0)

/-- `gv_strndup`, of bytes that can be read. -/
def gv_strndup (A : Malloc) (heap : Heap) (original : CStr) : Except Fault (Nat × Heap) :=
  A.alloc heap (original.takeWhile (· ≠ 0) ++ [0])

/-! ## The buffer -/

/-- `AGXBUF_ON_HEAP`. -/
def AGXBUF_ON_HEAP : UInt8 := 255

/-- `BUFSIZ`. -/
def BUFSIZ : Nat := 8192

/-- `agxbuf`. The fields `buf`, `size` and `capacity` lie in the bytes of `store`. -/
structure agxbuf where
  store : CStr
  located : UInt8
  length_store : store.length = 31

/-- The 8 bytes of a field. -/
def agxbuf.word (xb : agxbuf) (i : Nat) : Nat :=
  Bytes.toNum (Bytes.slice xb.store i 8)

def agxbuf.buf (xb : agxbuf) : Nat := xb.word 0

def agxbuf.size (xb : agxbuf) : Nat := xb.word 8

def agxbuf.capacity (xb : agxbuf) : Nat := xb.word 16

/-- Bytes of the store are written over. -/
def agxbuf.write (xb : agxbuf) (i : Nat) (w : CStr) (h : i + w.length ≤ 31) : agxbuf :=
  { xb with
    store := Bytes.splice xb.store i w
    length_store := by rw [Bytes.length_splice (by rw [xb.length_store]; exact h), xb.length_store] }

/-- A field is written. -/
def agxbuf.setWord (xb : agxbuf) (i x : Nat) (h : i + 8 ≤ 31) : agxbuf :=
  xb.write i (Bytes.ofNum 8 x) (by rw [Bytes.length_ofNum]; exact h)

def agxbuf.setBuf (xb : agxbuf) (x : Nat) : agxbuf := xb.setWord 0 x (by decide)

def agxbuf.setSize (xb : agxbuf) (x : Nat) : agxbuf := xb.setWord 8 x (by decide)

def agxbuf.setCapacity (xb : agxbuf) (x : Nat) : agxbuf := xb.setWord 16 x (by decide)

/-- `{0}`. -/
def agxbuf.zero : agxbuf := ⟨replicate 31 0, 0, length_replicate⟩

/-- A buffer and the heap. -/
structure State where
  xb : agxbuf
  heap : Heap

/-- A place in memory. -/
inductive Pointer where
  | store (offset : Nat)
  | block (addr offset : Nat)
  deriving DecidableEq

/-- The bytes from a place on. After the store comes the byte `located`. -/
def State.bytes (st : State) : Pointer → Option CStr
  | .store offset => some ((st.xb.store ++ [st.xb.located]).drop offset)
  | .block addr offset => (st.heap addr).map fun block => block.drop offset

/-- `memcpy`, to the store or to a block. -/
def State.memcpy (st : State) (p : Pointer) (w : CStr) : Except Fault State :=
  match p with
  | .store offset =>
    if h : offset + w.length ≤ 31 then .ok { st with xb := st.xb.write offset w h }
    else .error .segfault
  | .block addr offset =>
    match st.heap addr with
    | none => .error .segfault
    | some block =>
      if offset + w.length ≤ block.length then
        .ok { st with heap := Function.update st.heap addr (some (Bytes.splice block offset w)) }
      else .error .segfault

/-- A byte is read. -/
def State.read (st : State) (p : Pointer) : Except Fault UInt8 :=
  match (st.bytes p).bind head? with
  | some c => .ok c
  | none => .error .segfault

/-- `agxbuf_is_inline`. -/
def agxbuf_is_inline (xb : agxbuf) : Except Fault Bool := do
  assert (xb.located = AGXBUF_ON_HEAP ∨ xb.located.toNat ≤ xb.store.length)
  return xb.located < AGXBUF_ON_HEAP

/-- `agxbstart`. -/
def agxbstart (st : State) : Except Fault Pointer := do
  if ← agxbuf_is_inline st.xb then return .store 0 else return .block st.xb.buf 0

/-- `agxblen`. -/
def agxblen (st : State) : Except Fault Nat := do
  if ← agxbuf_is_inline st.xb then return st.xb.located.toNat else return st.xb.size

/-- `agxbsizeof`. -/
def agxbsizeof (st : State) : Except Fault Nat := do
  if ← agxbuf_is_inline st.xb then return st.xb.store.length else return st.xb.capacity

/-- The value of a `char` as an `int`. -/
def charInt (c : UInt8) : Int := c.toBitVec.toInt

/-- `agxbpop`. -/
def agxbpop (st : State) : Except Fault (Int × State) := do
  let len ← agxblen st
  if len = 0 then return (-1, st)
  if ← agxbuf_is_inline st.xb then
    assert (0 < st.xb.located)
    let c ← st.read (.store (len - 1))
    return (charInt c, { st with xb := { st.xb with located := st.xb.located - 1 } })
  else
    let c ← st.read (.block st.xb.buf (st.xb.size - 1))
    return (charInt c, { st with xb := st.xb.setSize (st.xb.size - 1) })

/-- The end of `agxbmore`. -/
def agxbmoved (xb : agxbuf) (nbuf nsize : Nat) (heap : Heap) : State :=
  ⟨{ (xb.setBuf nbuf).setCapacity nsize with located := AGXBUF_ON_HEAP }, heap⟩

/-- `agxbmore`. -/
def agxbmore (A : Malloc) (st : State) (ssz : Nat) : Except Fault State := do
  let size ← agxbsizeof st
  let nsize := if size = 0 then BUFSIZ else 2 * size
  let nsize := if nsize < size + ssz then size + ssz else nsize
  let cnt ← agxblen st
  if st.xb.located = AGXBUF_ON_HEAP then
    let (nbuf, heap) ← gv_recalloc A st.heap st.xb.buf size nsize
    return agxbmoved st.xb nbuf nsize heap
  else
    let (nbuf, heap) ← gv_calloc A st.heap nsize
    let st ← State.memcpy ⟨st.xb, heap⟩ (.block nbuf 0) (st.xb.store.take cnt)
    return agxbmoved (st.xb.setSize cnt) nbuf nsize st.heap

/-- `agxbnext`. -/
def agxbnext (st : State) : Except Fault Pointer := do
  let len ← agxblen st
  if ← agxbuf_is_inline st.xb then return .store len else return .block st.xb.buf len

/-- What `vsnprintf` does for a format and its arguments: it returns `rc` when it is asked how many
bytes there are, and then, with room for them and a NUL, it writes some bytes and returns
`result`. -/
structure Formatted where
  rc : Int
  written : CStr
  result : Int
  length_written : 0 ≤ rc → (written.length : Int) ≤ rc + 1
  result_eq : 0 ≤ rc → 0 ≤ result → result = rc ∧ ∃ text, written = text ++ [0] ∧ text.length = rc

/-- How `vagxbprint` makes room for `size` bytes: it expands the buffer, or says that it prints to a
stage. -/
def vagxbprint_room (A : Malloc) (st : State) (size : Nat) : Except Fault (Bool × State) := do
  let unused_space := (← agxbsizeof st) - (← agxblen st)
  if unused_space < size then
    let extra := size - unused_space
    if (← agxbuf_is_inline st.xb) ∧ extra = 1 then return (true, st)
    else return (false, ← agxbmore A st extra)
  else return (false, st)

/-- How `vagxbprint` takes note of what it printed. -/
def vagxbprint_add (st : State) (use_stage : Bool) (stage : CStr) (result : Int) :
    Except Fault State := do
  if 0 < result then
    if ← agxbuf_is_inline st.xb then
      assert (result ≤ 255)
      let st ← if use_stage then do st.memcpy (← agxbnext st) (stage.take result.toNat) else pure st
      let st := { st with xb := { st.xb with
        located := st.xb.located + UInt8.ofNat result.toNat } }
      assert ((← agxblen st) ≤ st.xb.store.length)
      return st
    else
      assert (¬ use_stage)
      return { st with xb := st.xb.setSize (st.xb.size + result.toNat) }
  else return st

/-- `vagxbprint`. -/
def vagxbprint (A : Malloc) (st : State) (f : Formatted) : Except Fault (Int × State) := do
  if f.rc < 0 then return (f.rc, st)
  let size := f.rc.toNat + 1
  let (use_stage, st) ← vagxbprint_room A st size
  assert (use_stage → size ≤ st.xb.store.length + 1)
  if use_stage then
    assert (f.result = (size : Int) - 1 ∨ f.result < 0)
    let stage := Bytes.splice (replicate (st.xb.store.length + 1) 0) 0 f.written
    return (f.result, ← vagxbprint_add st true stage f.result)
  else
    let st ← st.memcpy (← agxbnext st) f.written
    assert (f.result = (size : Int) - 1 ∨ f.result < 0)
    return (f.result, ← vagxbprint_add st false [] f.result)

/-- How `agxbput_n` makes room. -/
def agxbput_n_room (A : Malloc) (st : State) (ssz : Nat) : Except Fault State := do
  if (← agxbsizeof st) - (← agxblen st) < ssz then agxbmore A st ssz else return st

/-- `agxbput_n`, of the bytes that it appends. -/
def agxbput_n (A : Malloc) (st : State) (s : CStr) : Except Fault (Nat × State) := do
  let ssz := s.length
  if ssz = 0 then return (0, st)
  let st ← agxbput_n_room A st ssz
  let len ← agxblen st
  if ← agxbuf_is_inline st.xb then
    let st ← st.memcpy (.store len) s
    assert (ssz ≤ 255)
    let st := { st with xb := { st.xb with located := st.xb.located + UInt8.ofNat ssz } }
    assert ((← agxblen st) ≤ st.xb.store.length)
    return (ssz, st)
  else
    let st ← st.memcpy (.block st.xb.buf len) s
    return (ssz, { st with xb := st.xb.setSize (st.xb.size + ssz) })

/-- `agxbput`. The string ends at the first NUL. -/
def agxbput (A : Malloc) (st : State) (s : CStr) : Except Fault (Nat × State) :=
  agxbput_n A st (s.takeWhile (· ≠ 0))

/-- How `agxbputc` makes room. -/
def agxbputc_room (A : Malloc) (st : State) : Except Fault State := do
  if (← agxbsizeof st) ≤ (← agxblen st) then agxbmore A st 1 else return st

/-- `agxbputc`. -/
def agxbputc (A : Malloc) (st : State) (c : UInt8) : Except Fault (Int × State) := do
  let st ← agxbputc_room A st
  let len ← agxblen st
  if ← agxbuf_is_inline st.xb then
    let st ← st.memcpy (.store len) [c]
    let st := { st with xb := { st.xb with located := st.xb.located + 1 } }
    assert ((← agxblen st) ≤ st.xb.store.length)
    return (0, st)
  else
    let st ← st.memcpy (.block st.xb.buf len) [c]
    return (0, { st with xb := st.xb.setSize (st.xb.size + 1) })

/-- `agxbclear`. -/
def agxbclear (st : State) : Except Fault State := do
  if ← agxbuf_is_inline st.xb then return { st with xb := { st.xb with located := 0 } }
  else return { st with xb := st.xb.setSize 0 }

/-- How `agxbuse` terminates the string. -/
def agxbuse_end (A : Malloc) (st : State) : Except Fault State := do
  if !(← agxbuf_is_inline st.xb) ∨ (← agxblen st) ≠ st.xb.store.length then
    return (← agxbputc A st 0).2
  else return st

/-- `agxbuse`. -/
def agxbuse (A : Malloc) (st : State) : Except Fault (Pointer × State) := do
  let st ← agxbuse_end A st
  let st ← agxbclear st
  return (← agxbstart st, st)

/-- `agxbdisown`. -/
def agxbdisown (A : Malloc) (st : State) : Except Fault (Pointer × State) := do
  if ← agxbuf_is_inline st.xb then
    let (buf, heap) ← gv_strndup A st.heap (st.xb.store.take (← agxblen st))
    return (.block buf 0, ⟨.zero, heap⟩)
  else
    let (_, st) ← agxbputc A st 0
    return (.block st.xb.buf 0, { st with xb := .zero })

end Agxb

end Graphviz
