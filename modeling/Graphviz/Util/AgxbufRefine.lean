import Graphviz.Util.Agxbuf

/-!
# String buffers hold strings

`Stores st n bytes` ties the buffer to what its memory begins with, wherever that is. Every
operation of the buffer is one of a plain string of bytes: it returns what the string has, nothing
is written outside of the memory that is there, and the blocks that are not the buffer's are kept.
The string that a run returns is there to be read, with a NUL after it.
-/

namespace Graphviz

open Function List Nat Outcome

namespace Agxb

/-! ## What a buffer stores -/

/-- The buffer has the length `n`, and its memory begins with some bytes, at least the `n` of its
content. -/
inductive Stores (st : State) (n : Nat) (bytes : CStr) : Prop
  | inline : st.xb.located.toNat = n → n ≤ bytes.length → bytes <+: st.xb.store → Stores st n bytes
  | heap {block : CStr} : st.xb.located = AGXBUF_ON_HEAP → st.heap st.xb.buf = some block →
      block.length = st.xb.capacity → block.length < 2 ^ 63 → st.xb.size = n → n ≤ bytes.length →
      bytes <+: block → Stores st n bytes

/-- The content of the buffer. -/
def Holds (st : State) (content : CStr) : Prop :=
  Stores st content.length content

/-- The block at an address belongs to the buffer. -/
def State.Owns (st : State) (a : Nat) : Prop :=
  st.xb.located = AGXBUF_ON_HEAP ∧ a = st.xb.buf

/-- The other blocks are still there. -/
def Kept (st st' : State) : Prop :=
  ∀ a block, st.heap a = some block → ¬ st.Owns a → st'.heap a = some block ∧ ¬ st'.Owns a

/-- The only way not to return is that memory is exhausted. -/
def Exhausted (f : Fault) : Prop :=
  f = .exitFailure

/-- The capacity. -/
def State.room (st : State) : Nat :=
  if st.xb.located = AGXBUF_ON_HEAP then st.xb.capacity else 31

variable {A : Malloc} {st st' st'' : State} {xb : agxbuf} {heap : Heap} {n i j x ssz : Nat}
  {bytes content s w block : CStr} {c : UInt8}

theorem Kept.refl : Kept st st :=
  fun _ _ h hno => ⟨h, hno⟩

theorem Kept.trans (h : Kept st st') (h' : Kept st' st'') : Kept st st'' := fun a block ha hno =>
  h' a block (h a block ha hno).1 (h a block ha hno).2

/-! ### Fields -/

theorem word_setWord (h : i + 8 ≤ 31) (hx : x < 2 ^ 64) : (xb.setWord i x h).word i = x := by
  have hslice := Bytes.slice_splice (w := Bytes.ofNum 8 x)
    (show i ≤ xb.store.length by rw [xb.length_store]; omega)
  rw [Bytes.length_ofNum] at hslice
  rw [agxbuf.word, agxbuf.setWord, agxbuf.write, hslice, Bytes.toNum_ofNum hx]

theorem word_setWord_ne (h : i + 8 ≤ 31) (hj : j + 8 ≤ i ∨ i + 8 ≤ j) :
    (xb.setWord i x h).word j = xb.word j := by
  rw [agxbuf.word, agxbuf.setWord, agxbuf.write, Bytes.slice_splice_of_disjoint
    (by rw [Bytes.length_ofNum, xb.length_store]; exact h) (by rw [Bytes.length_ofNum]; exact hj)]
  rfl

@[simp] theorem buf_setSize : (xb.setSize x).buf = xb.buf :=
  word_setWord_ne (by decide) (by decide)

@[simp] theorem capacity_setSize : (xb.setSize x).capacity = xb.capacity :=
  word_setWord_ne (by decide) (by decide)

theorem size_setSize (hx : x < 2 ^ 64) : (xb.setSize x).size = x :=
  word_setWord (by decide) hx

@[simp] theorem size_setBuf : (xb.setBuf x).size = xb.size :=
  word_setWord_ne (by decide) (by decide)

theorem buf_setBuf (hx : x < 2 ^ 64) : (xb.setBuf x).buf = x :=
  word_setWord (by decide) hx

@[simp] theorem buf_setCapacity : (xb.setCapacity x).buf = xb.buf :=
  word_setWord_ne (by decide) (by decide)

@[simp] theorem size_setCapacity : (xb.setCapacity x).size = xb.size :=
  word_setWord_ne (by decide) (by decide)

theorem capacity_setCapacity (hx : x < 2 ^ 64) : (xb.setCapacity x).capacity = x :=
  word_setWord (by decide) hx

/-! ### Accessors -/

theorem is_inline_of_le (h : xb.located.toNat ≤ 31) : agxbuf_is_inline xb = .ok true := by
  have hlt : xb.located < AGXBUF_ON_HEAP := UInt8.lt_iff_toNat_lt.2 (lt_of_le_of_lt h (by decide))
  rw [agxbuf_is_inline, assert, if_pos (.inr (by rw [xb.length_store]; exact h)), ok_bind,
    decide_eq_true hlt]
  rfl

theorem is_inline_of_eq (h : xb.located = AGXBUF_ON_HEAP) : agxbuf_is_inline xb = .ok false := by
  rw [agxbuf_is_inline, assert, if_pos (.inl h), ok_bind, h]
  rfl

theorem Stores.le_length (h : Stores st n bytes) : n ≤ bytes.length := by
  cases h with
  | inline _ hle _ => exact hle
  | heap _ _ _ _ _ hle _ => exact hle

theorem inline_le (hle : n ≤ bytes.length) (hpre : bytes <+: xb.store) : n ≤ 31 := by
  have := hpre.length_le
  rw [xb.length_store] at this
  omega

theorem ne_heap (hloc : xb.located.toNat = n) (hn : n ≤ 31) : xb.located ≠ AGXBUF_ON_HEAP := by
  intro h
  rw [h] at hloc
  rw [← hloc] at hn
  exact absurd hn (by decide)

theorem Stores.agxblen (h : Stores st n bytes) : agxblen st = .ok n := by
  cases h with
  | inline hloc hle hpre =>
    rw [Agxb.agxblen, is_inline_of_le (hloc ▸ inline_le hle hpre), ok_bind, if_pos rfl, hloc]
    rfl
  | heap hloc _ _ _ hsize _ _ =>
    rw [Agxb.agxblen, is_inline_of_eq hloc, ok_bind, if_neg (by decide), hsize]
    rfl

theorem Stores.agxbsizeof (h : Stores st n bytes) : agxbsizeof st = .ok st.room := by
  cases h with
  | inline hloc hle hpre =>
    rw [Agxb.agxbsizeof, is_inline_of_le (hloc ▸ inline_le hle hpre), ok_bind, if_pos rfl,
      st.xb.length_store, State.room, if_neg (ne_heap hloc (inline_le hle hpre))]
    rfl
  | heap hloc =>
    rw [Agxb.agxbsizeof, is_inline_of_eq hloc, ok_bind, if_neg (by decide), State.room,
      if_pos hloc]
    rfl

theorem Stores.length_le (h : Stores st n bytes) : bytes.length ≤ st.room := by
  cases h with
  | inline hloc hle hpre =>
    rw [State.room, if_neg (ne_heap hloc (inline_le hle hpre)), ← st.xb.length_store]
    exact hpre.length_le
  | heap hloc _ hlen _ _ _ hpre =>
    rw [State.room, if_pos hloc, ← hlen]
    exact hpre.length_le

/-! ### Writing -/

/-- The length is changed. -/
theorem Stores.located (h : Stores st n bytes) (hn : st.xb.located.toNat ≤ 31) {d : UInt8}
    (hd : d.toNat ≤ bytes.length) :
    Stores { st with xb := { st.xb with located := d } } d.toNat bytes := by
  cases h with
  | inline hloc hle hpre => exact .inline rfl hd hpre
  | heap hloc =>
    rw [hloc] at hn
    exact absurd hn (by decide)

theorem Stores.setSize (h : Stores st n bytes) (hloc : st.xb.located = AGXBUF_ON_HEAP) {m : Nat}
    (hm : m ≤ bytes.length) : Stores { st with xb := st.xb.setSize m } m bytes := by
  cases h with
  | inline hloc' hle hpre => exact absurd hloc (ne_heap hloc' (inline_le hle hpre))
  | heap _ hheap hlen hlt hsize hle hpre =>
    have hlen' := hpre.length_le
    refine .heap hloc ?_ ?_ hlt (size_setSize (by omega)) hm hpre
    · rw [buf_setSize]
      exact hheap
    · rw [capacity_setSize, hlen]

theorem Kept.of_buf (h : xb.located = AGXBUF_ON_HEAP →
    st.xb.located = AGXBUF_ON_HEAP ∧ xb.buf = st.xb.buf) : Kept st { st with xb := xb } := by
  intro a block ha hno
  refine ⟨ha, fun hown => hno ?_⟩
  obtain ⟨hloc, hbuf⟩ := h hown.1
  exact ⟨hloc, hown.2.trans hbuf⟩

/-- The place after the content. -/
def State.next (st : State) (n : Nat) : Pointer :=
  if st.xb.located = AGXBUF_ON_HEAP then .block st.xb.buf n else .store n

theorem Stores.agxbnext (h : Stores st n bytes) : agxbnext st = .ok (st.next n) := by
  have hlen := h.agxblen
  cases h with
  | inline hloc hle hpre =>
    rw [Agxb.agxbnext, hlen, ok_bind, is_inline_of_le (hloc ▸ inline_le hle hpre), ok_bind,
      if_pos rfl, State.next, if_neg (ne_heap hloc (inline_le hle hpre))]
    rfl
  | heap hloc =>
    rw [Agxb.agxbnext, hlen, ok_bind, is_inline_of_eq hloc, ok_bind, if_neg (by decide),
      State.next, if_pos hloc]
    rfl

/-- Bytes are written after the content, where there is room. -/
theorem Holds.memcpy (h : Holds st content) (hroom : content.length + w.length ≤ st.room) :
    ∃ st', st.memcpy (st.next content.length) w = .ok st' ∧ Stores st' content.length (content ++ w) ∧
      Kept st st' ∧ st'.xb.located = st.xb.located := by
  have hle : content.length ≤ (content ++ w).length := by
    rw [length_append]
    exact le_add_right _ _
  cases h with
  | inline hloc hle' hpre =>
    have hne := ne_heap hloc (inline_le hle' hpre)
    rw [State.room, if_neg hne] at hroom
    rw [State.next, if_neg hne, State.memcpy, dif_pos hroom]
    exact ⟨_, rfl, .inline hloc hle (Bytes.prefix_splice hpre), .of_buf fun h => absurd h hne, rfl⟩
  | @heap block hloc hheap hlen hlt hsize _ hpre =>
    rw [State.room, if_pos hloc, ← hlen] at hroom
    rw [State.next, if_pos hloc, State.memcpy, hheap]
    refine ⟨_, if_pos hroom, .heap hloc (update_self ..) ?_ ?_ hsize hle
      (Bytes.prefix_splice hpre), ?_, rfl⟩
    · rw [Bytes.length_splice hroom, hlen]
    · rwa [Bytes.length_splice hroom]
    · intro a b ha hno
      refine ⟨?_, hno⟩
      rw [← ha]
      exact update_of_ne (fun heq => hno ⟨hloc, heq⟩) _ _

/-! ### Growing -/

theorem Malloc.meets_alloc (A : Malloc) (heap : Heap) (block : CStr) :
    Meets (A.alloc heap block) (fun r => heap r.1 = none ∧ r.1 < 2 ^ 64 ∧ block.length < 2 ^ 63 ∧
      r.2 = Function.update heap r.1 (some block)) Exhausted := by
  rw [Malloc.alloc]
  split
  next a ha => exact ⟨A.fresh ha, (A.small ha).1, (A.small ha).2, rfl⟩
  next => exact rfl

/-- The buffer has moved to a new block. -/
theorem stores_moved (xb : agxbuf) (heap : Heap) {nbuf : Nat} (hbuf : nbuf < 2 ^ 64)
    (hheap : heap nbuf = some block)
    (hlt : block.length < 2 ^ 63) (hsize : xb.size = n) (hle : n ≤ bytes.length)
    (hpre : bytes <+: block) : Stores (agxbmoved xb nbuf block.length heap) n bytes := by
  refine .heap rfl ?_ ?_ hlt ?_ hle hpre
  · change heap ((xb.setBuf nbuf).setCapacity block.length).buf = some block
    rw [buf_setCapacity, buf_setBuf hbuf, hheap]
  · exact (capacity_setCapacity (by omega)).symm
  · change ((xb.setBuf nbuf).setCapacity block.length).size = n
    rw [size_setCapacity, size_setBuf, hsize]

theorem owns_moved {nbuf a k : Nat} (hbuf : nbuf < 2 ^ 64)
    (h : (agxbmoved xb nbuf k heap).Owns a) : a = nbuf := by
  rw [h.2]
  change ((xb.setBuf nbuf).setCapacity k).buf = nbuf
  rw [buf_setCapacity, buf_setBuf hbuf]

theorem room_moved {nbuf k : Nat} (hk : k < 2 ^ 64) : (agxbmoved xb nbuf k heap).room = k := by
  rw [State.room]
  exact (if_pos rfl).trans (capacity_setCapacity hk)

/-- The buffer is expanded. -/
theorem Holds.agxbmore (h : Holds st content) (A : Malloc) (ssz : Nat) :
    Meets (agxbmore A st ssz) (fun st' => Holds st' content ∧ Kept st st' ∧
      st.room + ssz ≤ st'.room ∧ st'.xb.located = AGXBUF_ON_HEAP) Exhausted := by
  have hlen := h.agxblen
  have hroom := h.length_le
  rw [Agxb.agxbmore, h.agxbsizeof, ok_bind]
  dsimp only
  generalize hns : (if (if st.room = 0 then BUFSIZ else 2 * st.room) < st.room + ssz then
    st.room + ssz else if st.room = 0 then BUFSIZ else 2 * st.room) = nsize
  have hge : st.room + ssz ≤ nsize := by
    have hmax : ∀ a b : Nat, b ≤ if a < b then b else a := fun a b => by split <;> omega
    rw [← hns]
    exact hmax _ _
  rw [hlen, ok_bind]
  cases h with
  | inline hloc hle hpre =>
    have hne := ne_heap hloc (inline_le hle hpre)
    rw [if_neg hne]
    refine (A.meets_alloc _ _).bind fun r hr => ?_
    obtain ⟨hfree, hbuf, hlt, hheap⟩ := hr
    rw [length_replicate] at hlt
    rw [← prefix_iff_eq_take.1 hpre]
    have hfits : 0 + content.length ≤ (replicate nsize (0 : UInt8)).length := by
      rw [length_replicate]
      omega
    rw [State.memcpy]
    dsimp only
    rw [hheap, update_self]
    dsimp only
    rw [if_pos hfits, ok_bind, update_idem]
    have hblock : (Bytes.splice (replicate nsize (0 : UInt8)) 0 content).length = nsize := by
      rw [Bytes.length_splice hfits, length_replicate]
    have hmoved := stores_moved (st.xb.setSize content.length)
      (Function.update st.heap r.1
        (some (Bytes.splice (replicate nsize (0 : UInt8)) 0 content))) hbuf
      (update_self ..) (hblock.symm ▸ hlt)
      (size_setSize (by have := hpre.length_le; rw [st.xb.length_store] at this; omega))
      (le_refl _) (Bytes.prefix_splice (v := []) (w := content) nil_prefix)
    rw [hblock] at hmoved
    refine ⟨hmoved, ?_, ?_⟩
    · intro a b ha _
      have hane : a ≠ r.1 := by
        rintro rfl
        rw [hfree] at ha
        cases ha
      exact ⟨(update_of_ne hane _ _).trans ha, fun hown => hane (owns_moved hbuf hown)⟩
    · rw [room_moved (by omega)]
      exact ⟨hge, rfl⟩
  | @heap block hloc hheap hcap hlt hsize hle hpre =>
    have hcapacity : st.room = block.length := by rw [State.room, if_pos hloc, hcap]
    rw [hcapacity] at hge ⊢
    rw [if_pos hloc, gv_recalloc, assert, if_pos (by omega), ok_bind, hheap,
      min_eq_left (by omega)]
    dsimp only
    rw [take_length]
    refine (A.meets_alloc _ _).bind fun r hr => ?_
    obtain ⟨hfree, hbuf, hlt', hheap'⟩ := hr
    have hblock : (block ++ replicate (nsize - block.length) 0).length = nsize := by
      rw [length_append, length_replicate]
      omega
    have hmoved := stores_moved st.xb r.2 hbuf
      (by rw [hheap', update_self]) hlt' hsize hle (hpre.trans (prefix_append _ _))
    rw [hblock] at hmoved hlt'
    refine ⟨hmoved, ?_, ?_⟩
    · intro a b ha hno
      have hane : a ≠ st.xb.buf := fun heq => hno ⟨hloc, heq⟩
      have hane' : a ≠ r.1 := by
        rintro rfl
        rw [update_of_ne hane, ha] at hfree
        cases hfree
      refine ⟨?_, fun hown => hane' (owns_moved hbuf hown)⟩
      change r.2 a = some b
      rw [hheap', update_of_ne hane', update_of_ne hane, ha]
    · rw [room_moved (by omega)]
      exact ⟨hge, rfl⟩

/-! ## Operations -/

theorem Stores.holds_take (h : Stores st n bytes) : Holds st (bytes.take n) := by
  have hlen : (bytes.take n).length = n := by rw [length_take, min_eq_left h.le_length]
  rw [Holds, hlen]
  cases h with
  | inline hloc hle hpre => exact .inline hloc hlen.ge (( take_prefix n bytes).trans hpre)
  | heap hloc hheap hcap hlt hsize hle hpre =>
    exact .heap hloc hheap hcap hlt hsize hlen.ge (( take_prefix n bytes).trans hpre)

theorem Stores.is_inline (h : Stores st n bytes) (hne : st.xb.located ≠ AGXBUF_ON_HEAP) :
    agxbuf_is_inline st.xb = .ok true ∧ st.xb.located.toNat = n ∧ bytes.length ≤ 31 := by
  have hle := h.length_le
  rw [State.room, if_neg hne] at hle
  cases h with
  | inline hloc hle' hpre => exact ⟨is_inline_of_le (hloc ▸ inline_le hle' hpre), hloc, hle⟩
  | heap hloc => exact absurd hloc hne

theorem Kept.setSize : Kept st { st with xb := st.xb.setSize x } :=
  .of_buf fun h => ⟨h, buf_setSize⟩

/-- The length of a short string grows. -/
theorem Stores.located_add (h : Stores st n bytes) (hne : st.xb.located ≠ AGXBUF_ON_HEAP)
    {k : Nat} (hk : n + k ≤ bytes.length) :
    let st' : State := { st with xb := { st.xb with located := st.xb.located + UInt8.ofNat k } }
    Stores st' (n + k) bytes ∧ Kept st st' ∧ st'.xb.located ≠ AGXBUF_ON_HEAP := by
  obtain ⟨-, hloc, hle⟩ := h.is_inline hne
  have hadd : (st.xb.located + UInt8.ofNat k).toNat = n + k := by
    rw [UInt8.toNat_add, UInt8.toNat_ofNat', hloc]
    omega
  have hstores := h.located (by omega) (hadd ▸ hk)
  rw [hadd] at hstores
  have hne' : st.xb.located + UInt8.ofNat k ≠ AGXBUF_ON_HEAP := by
    intro hno
    rw [hno] at hadd
    have : AGXBUF_ON_HEAP.toNat = 255 := rfl
    omega
  exact ⟨hstores, .of_buf fun hno => absurd hno hne', hne'⟩

/-- The length of a long string grows. -/
theorem Stores.size_add (h : Stores st n bytes) (hloc : st.xb.located = AGXBUF_ON_HEAP)
    {k : Nat} (hk : n + k ≤ bytes.length) :
    Stores { st with xb := st.xb.setSize (st.xb.size + k) } (n + k) bytes := by
  have hsize : st.xb.size = n := by
    cases h with
    | inline hloc' hle hpre => exact absurd hloc (ne_heap hloc' (inline_le hle hpre))
    | heap _ _ _ _ hsize => exact hsize
  rw [hsize]
  exact h.setSize hloc hk

/-- Bytes are appended to a short string. -/
theorem Holds.append_inline (h : Holds st content) (hne : st.xb.located ≠ AGXBUF_ON_HEAP)
    (hroom : content.length + s.length ≤ st.room) :
    agxbuf_is_inline st.xb = .ok true ∧ s.length ≤ 255 ∧
    ∃ st₁, st.memcpy (.store content.length) s = .ok st₁ ∧
      let st' : State := { st₁ with xb := { st₁.xb with
        located := st₁.xb.located + UInt8.ofNat s.length } }
      (agxblen st' >>= fun len => assert (len ≤ st'.xb.store.length)) = .ok () ∧
      Holds st' (content ++ s) ∧ Kept st st' := by
  obtain ⟨st₁, hcopy, hstores, hkept, hloc⟩ := h.memcpy hroom
  rw [State.next, if_neg hne] at hcopy
  have hne₁ : st₁.xb.located ≠ AGXBUF_ON_HEAP := fun hno => hne (hloc.symm.trans hno)
  have hadd : content.length + s.length ≤ (content ++ s).length := by rw [length_append]
  obtain ⟨hafter, hkept', -⟩ := hstores.located_add hne₁ hadd
  obtain ⟨-, -, hle⟩ := hstores.is_inline hne₁
  refine ⟨(h.is_inline hne).1, by omega, st₁, hcopy, ?_, ?_, hkept.trans hkept'⟩
  · dsimp only
    rw [hafter.agxblen, ok_bind]
    exact if_pos (by rw [st₁.xb.length_store]; omega)
  · rwa [Holds, length_append]

/-- Bytes are appended to a long string. -/
theorem Holds.append_heap (h : Holds st content) (hheap : st.xb.located = AGXBUF_ON_HEAP)
    (hroom : content.length + s.length ≤ st.room) :
    ∃ st₁, st.memcpy (.block st.xb.buf content.length) s = .ok st₁ ∧
      let st' : State := { st₁ with xb := st₁.xb.setSize (st₁.xb.size + s.length) }
      Holds st' (content ++ s) ∧ Kept st st' ∧ st'.xb.located = AGXBUF_ON_HEAP := by
  obtain ⟨st₁, hcopy, hstores, hkept, hloc⟩ := h.memcpy hroom
  rw [State.next, if_pos hheap] at hcopy
  have hafter := hstores.size_add (hloc.trans hheap) (k := s.length) (by rw [length_append])
  refine ⟨st₁, hcopy, ?_, hkept.trans .setSize, hloc.trans hheap⟩
  rwa [Holds, length_append]

theorem Holds.agxbput_n_room (h : Holds st content) (A : Malloc) (ssz : Nat) :
    Meets (agxbput_n_room A st ssz) (fun st' => Holds st' content ∧ Kept st st' ∧
      content.length + ssz ≤ st'.room) Exhausted := by
  have hle := h.length_le
  rw [Agxb.agxbput_n_room, h.agxbsizeof, ok_bind, h.agxblen, ok_bind]
  split
  next => exact (h.agxbmore A ssz).imp fun st' h' =>
    ⟨h'.1, h'.2.1, Nat.le_trans (Nat.add_le_add_right hle _) h'.2.2.1⟩
  next hno => exact ⟨h, .refl, by omega⟩

/-- Bytes are appended. -/
theorem Holds.agxbput_n (h : Holds st content) (A : Malloc) (s : CStr) :
    Meets (agxbput_n A st s) (fun r => r.1 = s.length ∧ Holds r.2 (content ++ s) ∧ Kept st r.2)
      Exhausted := by
  rw [Agxb.agxbput_n]
  dsimp only
  split
  next hnil =>
    rw [length_eq_zero_iff.1 hnil, append_nil]
    exact ⟨rfl, h, .refl⟩
  refine (h.agxbput_n_room A s.length).bind fun st1 h1 => ?_
  obtain ⟨h1, hkept, hroom⟩ := h1
  rw [h1.agxblen, ok_bind]
  by_cases hheap : st1.xb.located = AGXBUF_ON_HEAP
  · obtain ⟨st2, hcopy, hholds, hkept2, -⟩ := h1.append_heap hheap hroom
    rw [is_inline_of_eq hheap, ok_bind, if_neg (by decide), hcopy, ok_bind]
    exact ⟨rfl, hholds, hkept.trans hkept2⟩
  · obtain ⟨hinline, h255, st2, hcopy, hassert, hholds, hkept2⟩ := h1.append_inline hheap hroom
    rw [hinline, ok_bind, if_pos rfl, hcopy, ok_bind, assert, if_pos h255, ok_bind,
      ← bind_assoc, hassert, ok_bind]
    exact ⟨rfl, hholds, hkept.trans hkept2⟩

theorem Holds.agxbputc_room (h : Holds st content) (A : Malloc) :
    Meets (agxbputc_room A st) (fun st' => Holds st' content ∧ Kept st st' ∧
      content.length + 1 ≤ st'.room ∧
      (st.xb.located = AGXBUF_ON_HEAP → st'.xb.located = AGXBUF_ON_HEAP)) Exhausted := by
  have hle := h.length_le
  rw [Agxb.agxbputc_room, h.agxbsizeof, ok_bind, h.agxblen, ok_bind]
  split
  next => exact (h.agxbmore A 1).imp fun st' h' =>
    ⟨h'.1, h'.2.1, Nat.le_trans (Nat.add_le_add_right hle _) h'.2.2.1, fun _ => h'.2.2.2⟩
  next hno => exact ⟨h, .refl, by omega, id⟩

/-- A byte is appended. -/
theorem Holds.agxbputc (h : Holds st content) (A : Malloc) (c : UInt8) :
    Meets (agxbputc A st c) (fun r => r.1 = 0 ∧ Holds r.2 (content ++ [c]) ∧ Kept st r.2 ∧
      (st.xb.located = AGXBUF_ON_HEAP → r.2.xb.located = AGXBUF_ON_HEAP)) Exhausted := by
  rw [Agxb.agxbputc]
  refine (h.agxbputc_room A).bind fun st1 h1 => ?_
  obtain ⟨h1, hkept, hroom, hstays⟩ := h1
  rw [h1.agxblen, ok_bind]
  by_cases hheap : st1.xb.located = AGXBUF_ON_HEAP
  · obtain ⟨st2, hcopy, hholds, hkept2, hheap2⟩ := h1.append_heap (s := [c]) hheap hroom
    rw [is_inline_of_eq hheap, ok_bind, if_neg (by decide), hcopy, ok_bind]
    exact ⟨rfl, hholds, hkept.trans hkept2, fun _ => hheap2⟩
  · obtain ⟨hinline, -, st2, hcopy, hassert, hholds, hkept2⟩ :=
      h1.append_inline (s := [c]) hheap hroom
    rw [hinline, ok_bind, if_pos rfl, hcopy, ok_bind, ← bind_assoc]
    refine Meets.bind (P := fun _ => True) ?_ fun _ _ =>
      ⟨rfl, hholds, hkept.trans hkept2, fun hno => absurd (hstays hno) hheap⟩
    exact (congrArg (Meets · _ _) hassert).mpr trivial

/-- The string is emptied, and stays in memory. -/
theorem Stores.agxbclear (h : Stores st n bytes) :
    ∃ st', agxbclear st = .ok st' ∧ Stores st' 0 bytes ∧ Kept st st' := by
  by_cases hheap : st.xb.located = AGXBUF_ON_HEAP
  · rw [Agxb.agxbclear, is_inline_of_eq hheap, ok_bind, if_neg (by decide)]
    exact ⟨_, rfl, h.setSize hheap (zero_le _), .setSize⟩
  · obtain ⟨hinline, hloc, hle⟩ := h.is_inline hheap
    have hn := h.le_length
    rw [Agxb.agxbclear, hinline, ok_bind, if_pos rfl]
    exact ⟨_, rfl, h.located (by omega) (zero_le _), .of_buf fun hno =>
      absurd hno (ne_heap rfl (zero_le 31))⟩

/-- Where the string is. -/
theorem Stores.agxbstart (h : Stores st n bytes) :
    ∃ p m, agxbstart st = .ok p ∧ st.bytes p = some m ∧ bytes <+: m ∧
      (st.xb.located ≠ AGXBUF_ON_HEAP → m = st.xb.store ++ [st.xb.located]) := by
  cases h with
  | inline hloc hle hpre =>
    rw [Agxb.agxbstart, is_inline_of_le (hloc ▸ inline_le hle hpre), ok_bind, if_pos rfl]
    exact ⟨_, _, rfl, rfl, hpre.trans (prefix_append _ _), fun _ => rfl⟩
  | @heap block hloc hheap _ _ _ _ hpre =>
    rw [Agxb.agxbstart, is_inline_of_eq hloc, ok_bind, if_neg (by decide)]
    refine ⟨_, block, rfl, ?_, hpre, fun hno => absurd hloc hno⟩
    rw [State.bytes, hheap]
    rfl

/-- The last byte of the content is removed. -/
theorem Holds.agxbpop (h : Holds st content) :
    ∃ st', agxbpop st = .ok (content.getLast?.elim (-1) charInt, st') ∧
      Holds st' content.dropLast ∧ Kept st st' := by
  have hlen := h.agxblen
  rw [Agxb.agxbpop, hlen, ok_bind]
  obtain rfl | ⟨init, c, rfl⟩ := content.eq_nil_or_concat'
  · exact ⟨st, rfl, h, .refl⟩
  rw [length_append, length_singleton, if_neg (succ_ne_zero _), getLast?_concat, dropLast_concat]
  have hbytes : ∀ {m t : CStr}, m = init ++ [c] ++ t → (m.drop init.length).head? = some c := by
    rintro m t rfl
    rw [append_assoc, drop_left]
    rfl
  have hdrop : ∀ {st'}, Stores st' init.length (init ++ [c]) → Holds st' init := fun h => by
    have := h.holds_take
    rwa [take_left] at this
  have hle : init.length ≤ (init ++ [c]).length := by
    rw [length_append]
    exact le_add_right _ _
  by_cases hheap : st.xb.located = AGXBUF_ON_HEAP
  · rw [is_inline_of_eq hheap, ok_bind, if_neg (by decide)]
    have hsize := h.setSize hheap hle
    cases h with
    | inline hloc hle hpre => exact absurd hheap (ne_heap hloc (inline_le hle hpre))
    | @heap block _ hblock _ _ hn _ hpre =>
      obtain ⟨t, rfl⟩ := hpre
      rw [hn, length_append, length_singleton, Nat.add_sub_cancel]
      have hread : st.read (.block st.xb.buf init.length) = .ok c := by
        rw [State.read, State.bytes, hblock, Option.map_some, Option.bind_some, hbytes rfl]
      rw [hread, ok_bind]
      exact ⟨_, rfl, hdrop hsize, .setSize⟩
  · obtain ⟨hinline, hloc, hle'⟩ := h.is_inline hheap
    rw [length_append, length_singleton] at hloc hle'
    have hpos : 0 < st.xb.located := UInt8.lt_iff_toNat_lt.2 (by rw [hloc]; exact succ_pos _)
    have hsub : (st.xb.located - 1).toNat = init.length := by
      rw [UInt8.toNat_sub_of_le _ _ (UInt8.le_iff_toNat_le.2 (by rw [hloc]; exact succ_pos _)),
        hloc]
      rfl
    have hafter := h.located (d := st.xb.located - 1) (by omega) (by rw [hsub]; exact hle)
    rw [hsub] at hafter
    rw [hinline, ok_bind, if_pos rfl, assert, if_pos hpos, ok_bind, Nat.add_sub_cancel]
    have hread : st.read (.store init.length) = .ok c := by
      cases h with
      | heap hloc' => exact absurd hloc' hheap
      | inline _ _ hpre =>
        obtain ⟨t, ht⟩ := hpre
        rw [State.read, State.bytes, Option.bind_some, ← ht, append_assoc, hbytes rfl]
    rw [hread, ok_bind]
    exact ⟨_, rfl, hdrop hafter, .of_buf fun hno => absurd hno (ne_heap hsub (by omega))⟩

/-- The string is returned with a NUL, and the buffer is empty. -/
theorem Holds.agxbuse (h : Holds st content) (A : Malloc) :
    Meets (agxbuse A st) (fun r => Holds r.2 [] ∧ Kept st r.2 ∧
      ∃ m, r.2.bytes r.1 = some m ∧ content ++ [0] <+: m) Exhausted := by
  have hempty : ∀ {st' : State} {bytes : CStr}, Stores st' 0 bytes → Holds st' [] := fun h =>
    h.holds_take
  -- the string with its NUL is in the buffer, and the buffer is cleared
  have hputc : Meets (do
      let r ← Agxb.agxbputc A st 0
      let st ← Agxb.agxbclear r.2
      return (← Agxb.agxbstart st, st)) (fun r => Holds r.2 [] ∧ Kept st r.2 ∧
      ∃ m, r.2.bytes r.1 = some m ∧ content ++ [0] <+: m) Exhausted := by
    refine (h.agxbputc A 0).bind fun r hr => ?_
    obtain ⟨-, hholds, hkept, -⟩ := hr
    obtain ⟨st2, hclear, hstores, hkept2⟩ := Stores.agxbclear hholds
    obtain ⟨p, m, hstart, hm, hpre, -⟩ := hstores.agxbstart
    rw [hclear, ok_bind, hstart, ok_bind]
    exact ⟨hempty hstores, hkept.trans hkept2, m, hm, hpre⟩
  rw [Agxb.agxbuse, agxbuse_end]
  by_cases hheap : st.xb.located = AGXBUF_ON_HEAP
  · rw [is_inline_of_eq hheap, ok_bind, h.agxblen, ok_bind, if_pos (.inl rfl), bind_assoc]
    exact hputc
  · obtain ⟨hinline, hloc, hle⟩ := h.is_inline hheap
    rw [hinline, ok_bind, h.agxblen, ok_bind]
    by_cases hfull : content.length = 31
    · rw [if_neg (by rw [st.xb.length_store, hfull]; decide)]
      have hcleared : Stores ⟨{ st.xb with located := 0 }, st.heap⟩ 0 content :=
        h.located (by omega) (zero_le _)
      have hne : (0 : UInt8) ≠ AGXBUF_ON_HEAP := by decide
      obtain ⟨p, m, hstart, hm, hpre, hm'⟩ := hcleared.agxbstart
      rw [pure_bind, Agxb.agxbclear, hinline, ok_bind, if_pos rfl, pure_bind, hstart, ok_bind]
      refine ⟨hempty hcleared, .of_buf fun hno => absurd hno hne, m, hm, ?_⟩
      rw [hm' hne] at hpre ⊢
      -- the whole store is content, and `located` is its NUL
      have hstore : content = st.xb.store := by
        refine (prefix_of_prefix_length_le hpre (prefix_append _ _) ?_).eq_of_length ?_
        · rw [hfull, st.xb.length_store]
        · rw [hfull, st.xb.length_store]
      rw [hstore]
    · rw [if_pos (.inr (by rw [st.xb.length_store]; exact hfull)), bind_assoc]
      exact hputc

/-- A string up to its first NUL, and a NUL. -/
theorem takeWhile_terminated (s : CStr) : s.takeWhile (· ≠ 0) ++ [0] <+: s ++ [0] := by
  induction s with
  | nil => exact prefix_refl _
  | cons c s ih =>
    by_cases hc : c = 0
    · rw [takeWhile_cons, if_neg (by rw [hc]; decide), hc]
      exact prefix_append [0] (s ++ [0])
    · rw [takeWhile_cons, if_pos (decide_eq_true hc)]
      exact (prefix_cons_inj c).2 ih

/-- The string is handed over in a block of its own, and the buffer is empty. -/
theorem Holds.agxbdisown (h : Holds st content) (A : Malloc) :
    Meets (agxbdisown A st) (fun r => Holds r.2 [] ∧ Kept st r.2 ∧
      ∃ a m, r.1 = .block a 0 ∧ r.2.heap a = some m ∧ ¬ r.2.Owns a ∧
        content.takeWhile (· ≠ 0) ++ [0] <+: m) Exhausted := by
  have hzero : ∀ heap, Holds ⟨.zero, heap⟩ [] := fun heap =>
    .inline rfl (le_refl 0) nil_prefix
  have hfree : ∀ heap a, ¬ (State.mk .zero heap).Owns a := fun heap a hown =>
    absurd hown.1 (ne_heap rfl (zero_le 31))
  rw [Agxb.agxbdisown]
  by_cases hheap : st.xb.located = AGXBUF_ON_HEAP
  · rw [is_inline_of_eq hheap, ok_bind, if_neg (by decide)]
    refine (h.agxbputc A 0).bind fun r hr => ?_
    obtain ⟨-, hholds, hkept, hstays⟩ := hr
    cases hholds with
    | inline hloc hle hpre => exact absurd (hstays hheap) (ne_heap hloc (inline_le hle hpre))
    | @heap block hloc hblock _ _ _ _ hpre =>
      refine ⟨hzero _, hkept.trans (.of_buf fun hno => absurd hno (ne_heap rfl (zero_le 31))),
        _, block, rfl, hblock, hfree _ _, (takeWhile_terminated content).trans hpre⟩
  · obtain ⟨hinline, -, -⟩ := h.is_inline hheap
    rw [hinline, ok_bind, if_pos rfl, h.agxblen, ok_bind, gv_strndup]
    cases h with
    | heap hloc => exact absurd hloc hheap
    | inline _ _ hpre =>
      rw [← prefix_iff_eq_take.1 hpre]
      refine (A.meets_alloc _ _).bind fun r hr => ?_
      obtain ⟨hnone, -, -, hheap'⟩ := hr
      refine ⟨hzero _, fun a b ha _ => ⟨?_, hfree _ _⟩, r.1, _, rfl, ?_, hfree _ _,
        prefix_refl _⟩
      · change r.2 a = some b
        rw [hheap', update_of_ne, ha]
        rintro rfl
        rw [hnone] at ha
        cases ha
      · change r.2 r.1 = some _
        rw [hheap', update_self]

/-- What is printed. -/
def Formatted.text (f : Formatted) : CStr :=
  if f.rc < 0 then [] else f.written.take f.result.toNat

/-- What printing returns. -/
def Formatted.value (f : Formatted) : Int :=
  if f.rc < 0 then f.rc else f.result

/-- There is room for what `vsnprintf` writes, or it is one byte too much for a short string and
goes to a stage. -/
theorem Holds.vagxbprint_room (h : Holds st content) (A : Malloc) (size : Nat) :
    Meets (vagxbprint_room A st size) (fun r => Holds r.2 content ∧ Kept st r.2 ∧
      (r.1 = true ∧ r.2.xb.located ≠ AGXBUF_ON_HEAP ∧ content.length + size = 32 ∨
        r.1 = false ∧ content.length + size ≤ r.2.room)) Exhausted := by
  have hle := h.length_le
  rw [Agxb.vagxbprint_room, h.agxbsizeof, ok_bind, h.agxblen, ok_bind]
  dsimp only
  split
  next hlt =>
    by_cases hheap : st.xb.located = AGXBUF_ON_HEAP
    · rw [is_inline_of_eq hheap, ok_bind, if_neg (fun hno => absurd hno.1 (by decide))]
      refine (h.agxbmore A _).bind fun st' h' => ?_
      exact ⟨h'.1, h'.2.1, .inr ⟨rfl, le_trans (by omega) h'.2.2.1⟩⟩
    · obtain ⟨hinline, -, -⟩ := h.is_inline hheap
      rw [hinline, ok_bind]
      split
      next hone =>
        have hroom : st.room = 31 := by rw [State.room, if_neg hheap]
        exact ⟨h, .refl, .inl ⟨rfl, hheap, by omega⟩⟩
      next =>
        refine (h.agxbmore A _).bind fun st' h' => ?_
        exact ⟨h'.1, h'.2.1, .inr ⟨rfl, le_trans (by omega) h'.2.2.1⟩⟩
  next hno =>
    exact ⟨h, .refl, .inr ⟨rfl, show content.length + size ≤ st.room by omega⟩⟩

/-- What was printed becomes content. -/
theorem Stores.vagxbprint_add (h : Stores st content.length (content ++ w)) (result : Int)
    (hle : result.toNat ≤ w.length) :
    ∃ st', vagxbprint_add st false [] result = .ok st' ∧ Holds st' (content ++ w.take result.toNat) ∧
      Kept st st' := by
  have hdone : ∀ {st'}, Stores st' (content.length + result.toNat) (content ++ w) →
      Holds st' (content ++ w.take result.toNat) := fun h => by
    have := h.holds_take
    rwa [take_length_add_append] at this
  have hadd : content.length + result.toNat ≤ (content ++ w).length := by
    rw [length_append]
    omega
  rw [Agxb.vagxbprint_add]
  by_cases hpos : 0 < result
  · rw [if_pos hpos]
    by_cases hheap : st.xb.located = AGXBUF_ON_HEAP
    · rw [is_inline_of_eq hheap, ok_bind, if_neg (by decide), assert, if_pos (by decide), ok_bind]
      exact ⟨_, rfl, hdone (h.size_add hheap hadd), .setSize⟩
    · obtain ⟨hinline, -, h31⟩ := h.is_inline hheap
      obtain ⟨hafter, hkept, -⟩ := h.located_add hheap hadd
      rw [hinline, ok_bind, if_pos rfl, assert, if_pos (by omega), ok_bind, if_neg (by decide),
        pure_bind]
      dsimp only
      rw [hafter.agxblen, ok_bind, assert, if_pos (by rw [st.xb.length_store]; omega), ok_bind]
      exact ⟨_, rfl, hdone hafter, hkept⟩
  · rw [if_neg hpos]
    have h0 : result.toNat = 0 := by omega
    rw [h0, take_zero, append_nil]
    refine ⟨st, rfl, ?_, .refl⟩
    have := h.holds_take
    rwa [take_left] at this

/-- What went to a stage becomes content of a short string. -/
theorem Holds.vagxbprint_add (h : Holds st content) (hne : st.xb.located ≠ AGXBUF_ON_HEAP)
    (result : Int) (hle : result.toNat ≤ w.length) (hroom : content.length + result.toNat ≤ 31) :
    ∃ st', vagxbprint_add st true (Bytes.splice (replicate (st.xb.store.length + 1) 0) 0 w)
        result = .ok st' ∧ Holds st' (content ++ w.take result.toNat) ∧ Kept st st' := by
  rw [Agxb.vagxbprint_add]
  by_cases hpos : 0 < result
  · have hlen : (w.take result.toNat).length = result.toNat := by
      rw [length_take, min_eq_left hle]
    obtain ⟨hinline, h255, st1, hcopy, hassert, hholds, hkept⟩ :=
      h.append_inline (s := w.take result.toNat) hne (by rw [State.room, if_neg hne, hlen]; exact hroom)
    rw [hlen] at h255 hassert hholds hkept
    have hstage : (Bytes.splice (replicate (st.xb.store.length + 1) 0) 0 w).take
        result.toNat = w.take result.toNat := by
      rw [Bytes.splice, take_zero, nil_append, take_append_of_le_length hle]
    rw [if_pos hpos, hinline, ok_bind, if_pos rfl, assert, if_pos (by omega), ok_bind, if_pos rfl,
      h.agxbnext, ok_bind, State.next, if_neg hne, hstage, hcopy, ok_bind]
    dsimp only
    rw [← bind_assoc, hassert, ok_bind]
    exact ⟨_, rfl, hholds, hkept⟩
  · rw [if_neg hpos]
    have h0 : result.toNat = 0 := by omega
    rw [h0, take_zero, append_nil]
    exact ⟨st, rfl, h, .refl⟩

theorem Formatted.result_le (f : Formatted) (hrc : 0 ≤ f.rc) :
    f.result.toNat ≤ f.written.length ∧ f.result.toNat ≤ f.rc.toNat := by
  obtain hneg | hge := Int.lt_or_le f.result 0
  · exact ⟨by omega, by omega⟩
  · obtain ⟨heq, text, hwritten, hlen⟩ := f.result_eq hrc hge
    rw [hwritten, length_append]
    exact ⟨by omega, by omega⟩

/-- The formatted text is appended. -/
theorem Holds.vagxbprint (h : Holds st content) (A : Malloc) (f : Formatted) :
    Meets (vagxbprint A st f) (fun r => r.1 = f.value ∧ Holds r.2 (content ++ f.text) ∧ Kept st r.2)
      Exhausted := by
  rw [Agxb.vagxbprint, Formatted.text, Formatted.value]
  by_cases hrc : f.rc < 0
  · rw [if_pos hrc, if_pos hrc, if_pos hrc, append_nil]
    exact ⟨rfl, h, .refl⟩
  rw [if_neg hrc, if_neg hrc, if_neg hrc]
  have hwritten := f.length_written (by omega)
  have hle := f.result_le (by omega)
  have hresult : f.result = ((f.rc.toNat + 1 : Nat) : Int) - 1 ∨ f.result < 0 := by
    obtain hneg | hge := Int.lt_or_le f.result 0
    · exact .inr hneg
    · exact .inl (by have := (f.result_eq (by omega) hge).1; omega)
  refine (h.vagxbprint_room A _).bind fun r hr => ?_
  obtain ⟨use_stage, st1⟩ := r
  obtain ⟨h1, hkept, ⟨huse, hne, hsize⟩ | ⟨huse, hroom⟩⟩ := hr
  · obtain rfl : use_stage = true := huse
    dsimp only
    obtain ⟨st2, hadd, hholds, hkept2⟩ := h1.vagxbprint_add hne (w := f.written)
      f.result hle.1 (by omega)
    rw [assert, if_pos (fun _ => by rw [st1.xb.length_store]; omega), ok_bind, if_pos rfl, assert,
      if_pos hresult, ok_bind, hadd, ok_bind]
    exact ⟨rfl, hholds, hkept.trans hkept2⟩
  · obtain rfl : use_stage = false := huse
    obtain ⟨st2, hcopy, hstores, hkept2, -⟩ := h1.memcpy (w := f.written)
      (Nat.le_trans (Nat.add_le_add_left (by omega) _) hroom)
    obtain ⟨st3, hadd, hholds, hkept3⟩ := hstores.vagxbprint_add f.result hle.1
    dsimp only
    rw [assert, if_pos (fun hno => absurd hno (by decide)), ok_bind, if_neg (by decide),
      h1.agxbnext, ok_bind, hcopy, ok_bind, assert, if_pos hresult, ok_bind, hadd, ok_bind]
    exact ⟨rfl, hholds, (hkept.trans hkept2).trans hkept3⟩

end Agxb

end Graphviz

/-!
## Runs of buffer operations

A string buffer is for a string of bytes: `Op.plain` says what each operation shows of the string
and what it makes of it. Every run from the zero buffer, on any allocator, shows what the same run
of plain strings does, unless memory is exhausted. A string that was handed over stays where it is.
-/

namespace Graphviz

open Outcome

namespace Agxb

/-- The operations. -/
inductive Op where
  | put (s : CStr)
  | put_n (s : CStr)
  | putc (c : UInt8)
  | print (f : Formatted)
  | pop
  | clear
  | use
  | disown

/-- What an operation returns. -/
inductive Reply where
  | size (n : Nat)
  | int (i : Int)
  | unit
  | pointer (p : Pointer)

/-- One operation. -/
def step (A : Malloc) (st : State) : Op → Except Fault (Reply × State)
  | .put s => (fun r => (.size r.1, r.2)) <$> agxbput A st s
  | .put_n s => (fun r => (.size r.1, r.2)) <$> agxbput_n A st s
  | .putc c => (fun r => (.int r.1, r.2)) <$> agxbputc A st c
  | .print f => (fun r => (.int r.1, r.2)) <$> vagxbprint A st f
  | .pop => (fun r => (.int r.1, r.2)) <$> agxbpop st
  | .clear => (fun st => (.unit, st)) <$> agxbclear st
  | .use => (fun r => (.pointer r.1, r.2)) <$> agxbuse A st
  | .disown => (fun r => (.pointer r.1, r.2)) <$> agxbdisown A st

/-- A run: what each operation returns, and the state after it. -/
def run (A : Malloc) : List Op → State → Except Fault (List (Reply × State))
  | [], _ => .ok []
  | op :: ops, st => do
    let r ← step A st op
    return r :: (← run A ops r.2)

/-- What an operation on a string of bytes shows: a number, or a string. -/
inductive Shown where
  | size (n : Nat)
  | int (i : Int)
  | unit
  | string (s : CStr)
  | own (s : CStr)

/-- The operations on a string of bytes. -/
def Op.plain (content : CStr) : Op → Shown × CStr
  | .put s => (.size (s.takeWhile (· ≠ 0)).length, content ++ s.takeWhile (· ≠ 0))
  | .put_n s => (.size s.length, content ++ s)
  | .putc c => (.int 0, content ++ [c])
  | .print f => (.int f.value, content ++ f.text)
  | .pop => (.int (content.getLast?.elim (-1) charInt), content.dropLast)
  | .clear => (.unit, [])
  | .use => (.string content, [])
  | .disown => (.own content, [])

/-- A run of strings: what each operation shows, and the string after it. -/
def plainRun : List Op → CStr → List (Shown × CStr)
  | [], _ => []
  | op :: ops, content => op.plain content :: plainRun ops (op.plain content).2

/-- An operation returns what is shown. A string is at the place that is returned, and a NUL is
after it. A string of its own is not in the buffer, and is read up to its first NUL. -/
def Shows (r : Reply × State) : Shown → Prop
  | .size n => r.1 = .size n
  | .int i => r.1 = .int i
  | .unit => r.1 = .unit
  | .string s => ∃ p m, r.1 = .pointer p ∧ r.2.bytes p = some m ∧ s ++ [0] <+: m
  | .own s => ∃ a m, r.1 = .pointer (.block a 0) ∧ r.2.heap a = some m ∧ ¬ r.2.Owns a ∧
      s.takeWhile (· ≠ 0) ++ [0] <+: m

/-- One operation does what it does on a string. -/
theorem step_refines {st : State} {content : CStr} (h : Holds st content) (A : Malloc) (op : Op) :
    Meets (step A st op) (fun r => Shows r (op.plain content).1 ∧ Holds r.2 (op.plain content).2 ∧
      Kept st r.2) Exhausted := by
  cases op with
  | put s =>
    refine (Meets.imp (h.agxbput_n A _) fun r hr => ?_).map
    exact ⟨congrArg Reply.size hr.1, hr.2⟩
  | put_n s =>
    refine (Meets.imp (h.agxbput_n A s) fun r hr => ?_).map
    exact ⟨congrArg Reply.size hr.1, hr.2⟩
  | putc c =>
    refine (Meets.imp (h.agxbputc A c) fun r hr => ?_).map
    exact ⟨congrArg Reply.int hr.1, hr.2.1, hr.2.2.1⟩
  | print f =>
    refine (Meets.imp (h.vagxbprint A f) fun r hr => ?_).map
    exact ⟨congrArg Reply.int hr.1, hr.2⟩
  | pop =>
    obtain ⟨st', hpop, hholds, hkept⟩ := h.agxbpop
    rw [step, hpop]
    exact ⟨rfl, hholds, hkept⟩
  | clear =>
    obtain ⟨st', hclear, hstores, hkept⟩ := Stores.agxbclear h
    rw [step, hclear]
    exact ⟨rfl, hstores.holds_take, hkept⟩
  | use =>
    refine (Meets.imp (h.agxbuse A) fun r hr => ?_).map
    obtain ⟨hholds, hkept, m, hm, hpre⟩ := hr
    exact ⟨⟨r.1, m, rfl, hm, hpre⟩, hholds, hkept⟩
  | disown =>
    refine (Meets.imp (h.agxbdisown A) fun r hr => ?_).map
    obtain ⟨hholds, hkept, a, m, ha, hm, hown, hpre⟩ := hr
    exact ⟨⟨a, m, congrArg Reply.pointer ha, hm, hown, hpre⟩, hholds, hkept⟩

/-- A run does what it does on strings, and keeps the blocks that are not the buffer's. -/
theorem run_refines {st : State} {content : CStr} (h : Holds st content) (A : Malloc)
    (ops : List Op) : Meets (run A ops st) (fun trace =>
      List.Forall₂ (fun r x => Shows r x.1 ∧ Holds r.2 x.2) trace (plainRun ops content) ∧
      (∀ r ∈ trace, Kept st r.2) ∧ trace.Pairwise fun r r' => Kept r.2 r'.2) Exhausted := by
  induction ops generalizing st content with
  | nil => exact ⟨.nil, nofun, .nil⟩
  | cons op ops ih =>
    refine (step_refines h A op).bind fun r hr => ?_
    obtain ⟨hshows, hholds, hkept⟩ := hr
    refine (ih hholds).bind fun trace htrace => ?_
    obtain ⟨hall, hfirst, hpair⟩ := htrace
    refine ⟨.cons ⟨hshows, hholds⟩ hall, fun r' hr' => ?_, .cons hfirst hpair⟩
    obtain rfl | hr' := List.mem_cons.1 hr'
    · exact hkept
    · exact hkept.trans (hfirst r' hr')

theorem holds_zero (heap : Heap) : Holds ⟨.zero, heap⟩ [] :=
  .inline rfl (le_refl 0) List.nil_prefix

end Agxb

end Graphviz
