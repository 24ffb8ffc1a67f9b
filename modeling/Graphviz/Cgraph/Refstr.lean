import Graphviz.Library.Heap
import Graphviz.Library.OpenAddressing
import Graphviz.Util.Libc
import Graphviz.Util.Fault

/-!
# Reference-counted strings

The string dictionary of a graph, `lib/cgraph/refstr.c`. An entry is a cell of memory, named by its
address, and the buckets of the dictionary hold addresses. A string that a function is given is the
text of an entry, or lies elsewhere; where it is an entry's, the pointer returned for it is compared
with it.
-/

namespace Graphviz

open Function OpenAddressing Outcome

/-! ## Hashing -/

/-- The little-endian number in the first eight bytes. -/
def load64 (data : CStr) : UInt64 :=
  (data.take 8).foldr (fun b k => k <<< 8 ||| b.toUInt64) 0

/-- The loop of `hash`, over `n` words. -/
def hashWords (m : UInt64) (r : UInt64) : ℕ → CStr → UInt64 → CStr × UInt64
  | 0, data, h => (data, h)
  | n + 1, data, h =>
    let k := load64 data * m
    let k := (k ^^^ k >>> r) * m
    hashWords m r n (data.drop 8) ((h ^^^ k) * m)

/-- `hash`. -/
def hash (key : CStr) (extra : UInt8) : UInt64 :=
  let m : UInt64 := 0xc6a4a7935bd1e995
  let r : UInt64 := 47
  let (data2, h) := hashWords m r (key.length / 8) key (key.length.toUInt64 * m)
  let h := h ^^^ extra.toUInt64 <<< 56
  let h := data2.zipIdx.foldl (fun h (b, i) => h ^^^ b.toUInt64 <<< (8 * i).toUInt64) h
  let h := h * m
  let h := (h ^^^ h >>> r) * m
  h ^^^ h >>> r

/-! ## The dictionary -/

/-- What makes a string one of the dictionary: its text, and whether it is HTML-like. -/
abbrev Ident := CStr × Bool

/-- `refstr_t`. -/
structure Refstr where
  refcnt : ℕ
  is_html : Bool
  s : CStr
  deriving DecidableEq

/-- What `refstr_eq` compares. -/
def Refstr.ident (r : Refstr) : Ident := (r.s, r.is_html)

/-- `strdict_hash`. -/
def strdictHash (id : Ident) : UInt64 := hash id.1 (if id.2 then 1 else 0)

/-- A bucket's entry is found by its text and kind. -/
def strdictConfig (mem : Heap Refstr) : Config ℕ (Option Ident) Unit where
  key := fun r => (mem.read r).map Refstr.ident
  hash := fun id => (id.map strdictHash).elim 0 UInt64.toNat
  init := ()
  note := fun _ _ => ()
  Covers := fun _ _ => True
  covers_note := fun _ _ => trivial
  covers_keep := fun _ _ _ _ => trivial

/-- A graph's `strdict_t`, with the memory its entries are in. -/
structure Strdict where
  mem : Heap Refstr
  dict : Table ℕ Unit

/-- `strdict_new`. -/
def strdictNew : Strdict := { mem := Heap.empty, dict := Table.new (strdictConfig Heap.empty) }

/-- The failed assertions of the hash table, and its `UNREACHABLE`. -/
def Fault.ofFailure : Failure → Fault
  | .full | .noItem => .assertion
  | .noSlot => .abort
  | .deep => .fuel

/-- The entry at an address. -/
def Strdict.entry (d : Strdict) (r : ℕ) : Except Fault Refstr :=
  match d.mem.read r with
  | some e => .ok e
  | none => .error .segfault

/-- `strdict_add`. -/
def strdictAdd (d : Strdict) (r : ℕ) : Except Fault Strdict := do
  let dict ← (d.dict.add (strdictConfig d.mem) r).mapError Fault.ofFailure
  .ok { d with dict }

/-- `strdict_find`. -/
def strdictFind (d : Strdict) (s : CStr) (is_html : Bool) : Option ℕ :=
  (d.dict.find (strdictConfig d.mem) (some (s, is_html))).map Prod.snd

/-- `strdict_remove`. -/
def strdictRemove (d : Strdict) (key : ℕ) : Except Fault Strdict := do
  let k ← d.entry key
  let found := strdictFind d k.s k.is_html
  let dict ← (d.dict.remove (strdictConfig d.mem) (some k.ident)).mapError Fault.ofFailure
  .ok { mem := found.elim d.mem d.mem.free, dict }

/-! ## Strings of a graph -/

/-- A `const char *`: null, the text of an entry, or a string elsewhere. -/
inductive CharPtr where
  | null
  | entry (r : ℕ)
  | other (s : CStr)
  deriving DecidableEq

/-- The text a pointer points to. -/
def Strdict.text (d : Strdict) : CharPtr → Except Fault CStr
  | .null => .error .assertion
  | .entry r => do
    let e ← d.entry r
    .ok e.s
  | .other s => .ok s

/-- `refstrbind`. An entry's text is named by the entry. -/
def refstrbind (d : Strdict) (s : CharPtr) (is_html : Bool) : Except Fault (Option ℕ) := do
  let text ← d.text s
  .ok (strdictFind d text is_html)

/-- `agstrbind_html`. -/
def agstrbindHtml (d : Strdict) (s : CharPtr) : Except Fault (Option ℕ) := refstrbind d s true

/-- `agstrbind_text`. -/
def agstrbindText (d : Strdict) (s : CharPtr) : Except Fault (Option ℕ) := refstrbind d s false

/-- The test that a string originated from `agstrdup_html`. -/
def Strdict.fromHtml (d : Strdict) (s : CharPtr) : Except Fault Bool :=
  match s with
  | .null => .ok false
  | s => do
    let text ← d.text s
    match strdictFind d text true with
    | some ref => .ok (s = .entry ref)
    | none => .ok false

/-- `agstrbind`. -/
def agstrbind (d : Strdict) (s : CharPtr) : Except Fault (Option ℕ) := do
  if ← d.fromHtml s then agstrbindHtml d s else agstrbindText d s

/-- `agstrdup_internal`, for a graph. -/
def agstrdupInternal (d : Strdict) (s : CharPtr) (is_html : Bool) :
    Except Fault (Option ℕ × Strdict) :=
  match s with
  | .null => .ok (none, d)
  | s => do
    let text ← d.text s
    match strdictFind d text is_html with
    | some r =>
      let e ← d.entry r
      .ok (some r, { d with mem := d.mem.write r { e with refcnt := e.refcnt + 1 } })
    | none =>
      let r := d.mem.size
      let d ← strdictAdd { d with mem := d.mem.alloc { refcnt := 1, is_html, s := text } } r
      .ok (some r, d)

/-- `agstrdup_text`. -/
def agstrdupText (d : Strdict) (s : CharPtr) : Except Fault (Option ℕ × Strdict) :=
  agstrdupInternal d s false

/-- `agstrdup_html`. -/
def agstrdupHtml (d : Strdict) (s : CharPtr) : Except Fault (Option ℕ × Strdict) :=
  agstrdupInternal d s true

/-- `agstrdup`. -/
def agstrdup (d : Strdict) (s : CharPtr) : Except Fault (Option ℕ × Strdict) := do
  if ← d.fromHtml s then agstrdupHtml d s else agstrdupText d s

/-- `agstrfree`. -/
def agstrfree (d : Strdict) (s : CharPtr) (is_html : Bool) : Except Fault (Status × Strdict) :=
  match s with
  | .null => .ok (.FAILURE, d)
  | s => do
    let text ← d.text s
    match strdictFind d text is_html with
    | none => .ok (.FAILURE, d)
    | some r =>
      if s = .entry r then
        let e ← d.entry r
        let refcnt := e.refcnt - 1
        let d := { d with mem := d.mem.write r { e with refcnt } }
        if refcnt = 0 then
          let d ← strdictRemove d r
          .ok (.SUCCESS, d)
        else .ok (.SUCCESS, d)
      else .ok (.SUCCESS, d)

/-! ## What the strings are to be -/

/-- For each string the number of times it has been duplicated and not freed, and the entry made
for it last; for each entry made the string that it was made for. -/
structure Strings where
  count : Ident → ℕ
  ptr : Ident → ℕ
  owner : ℕ → Ident
  allocs : ℕ

/-- No string. -/
def Strings.init : Strings :=
  { count := fun _ => 0, ptr := fun _ => 0, owner := fun _ => ([], false), allocs := 0 }

/-- An address at which an entry is to be. -/
def Strings.Live (st : Strings) (a : ℕ) : Prop :=
  0 < st.count (st.owner a) ∧ st.ptr (st.owner a) = a

instance (st : Strings) (a : ℕ) : Decidable (st.Live a) := inferInstanceAs (Decidable (_ ∧ _))

/-- What is to be at an address. -/
def Strings.cell (st : Strings) (a : ℕ) : Option Refstr :=
  if st.Live a then
    some { refcnt := st.count (st.owner a), is_html := (st.owner a).2, s := (st.owner a).1 }
  else none

/-- The text of a string argument. -/
def Strings.text (st : Strings) : CharPtr → CStr
  | .null => []
  | .entry r => (st.owner r).1
  | .other s => s

/-- The kind of a string argument: only an entry's can be HTML-like. -/
def Strings.kind (st : Strings) : CharPtr → Bool
  | .entry r => (st.owner r).2
  | _ => false

/-- A string is findable while it has duplicates. -/
def Strings.find (st : Strings) (id : Ident) : Option ℕ :=
  if 0 < st.count id then some (st.ptr id) else none

/-- One more duplicate, in the entry of the string or a new one. -/
def Strings.dup (st : Strings) (id : Ident) : ℕ × Strings :=
  if 0 < st.count id then
    (st.ptr id, { st with count := Function.update st.count id (st.count id + 1) })
  else
    (st.allocs, { count := Function.update st.count id 1
                  ptr := Function.update st.ptr id st.allocs
                  owner := Function.update st.owner st.allocs id
                  allocs := st.allocs + 1 })

/-- One duplicate fewer. -/
def Strings.free (st : Strings) (id : Ident) : Strings :=
  { st with count := Function.update st.count id (st.count id - 1) }

/-- A call. -/
inductive StrOp where
  | agstrdup_text (s : CharPtr)
  | agstrdup_html (s : CharPtr)
  | agstrdup (s : CharPtr)
  | agstrbind_text (s : CharPtr)
  | agstrbind_html (s : CharPtr)
  | agstrbind (s : CharPtr)
  | agstrfree (s : CharPtr) (is_html : Bool)

/-- What a call returns. -/
inductive StrResult where
  | str (r : Option ℕ)
  | code (c : Status)

/-- A call, by the functions. -/
def StrOp.step (d : Strdict) : StrOp → Except Fault (StrResult × Strdict)
  | .agstrdup_text s => do
    let (r, d) ← agstrdupText d s
    .ok (.str r, d)
  | .agstrdup_html s => do
    let (r, d) ← agstrdupHtml d s
    .ok (.str r, d)
  | .agstrdup s => do
    let (r, d) ← Graphviz.agstrdup d s
    .ok (.str r, d)
  | .agstrbind_text s => do
    let r ← agstrbindText d s
    .ok (.str r, d)
  | .agstrbind_html s => do
    let r ← agstrbindHtml d s
    .ok (.str r, d)
  | .agstrbind s => do
    let r ← Graphviz.agstrbind d s
    .ok (.str r, d)
  | .agstrfree s is_html => do
    let (r, d) ← Graphviz.agstrfree d s is_html
    .ok (.code r, d)

/-- A sequence of calls, and what they return. -/
def strRun (d : Strdict) : List StrOp → Except Fault (List StrResult × Strdict)
  | [] => .ok ([], d)
  | op :: ops => do
    let (r, d) ← op.step d
    let (rs, d) ← strRun d ops
    .ok (r :: rs, d)

/-- What a duplication is to do. -/
def Strings.dupArg (st : Strings) (s : CharPtr) (is_html : Bool) : StrResult × Strings :=
  if s = .null then (.str none, st)
  else (.str (some (st.dup (st.text s, is_html)).1), (st.dup (st.text s, is_html)).2)

/-- What a call is to do. -/
def Strings.step (st : Strings) : StrOp → StrResult × Strings
  | .agstrdup_text s => st.dupArg s false
  | .agstrdup_html s => st.dupArg s true
  | .agstrdup s => st.dupArg s (st.kind s)
  | .agstrbind_text s => (.str (st.find (st.text s, false)), st)
  | .agstrbind_html s => (.str (st.find (st.text s, true)), st)
  | .agstrbind s => (.str (st.find (st.text s, st.kind s)), st)
  | .agstrfree s is_html =>
    if s = .null then (.code .FAILURE, st) else (.code .SUCCESS, st.free (st.text s, is_html))

/-- What a sequence of calls is to do. -/
def Strings.run (st : Strings) : List StrOp → List StrResult × Strings
  | [] => ([], st)
  | op :: ops => ((st.step op).1 :: ((st.step op).2.run ops).1, ((st.step op).2.run ops).2)

/-- A string that a function can read: an entry that it lies in has not been freed. -/
def Strings.Readable (st : Strings) (s : CharPtr) : Prop := ∀ r, s = .entry r → st.Live r

/-- The calls that a program makes: none of a freed string, and a free only of what a duplication
has returned, as the kind of string that it was. -/
def Strings.Allowed (st : Strings) : StrOp → Prop
  | .agstrdup_text s | .agstrdup_html s | .agstrdup s => st.Readable s
  | .agstrbind_text s | .agstrbind_html s | .agstrbind s => s ≠ .null ∧ st.Readable s
  | .agstrfree s is_html =>
    s = .null ∨ ∃ r, s = .entry r ∧ st.Live r ∧ is_html = (st.owner r).2

/-- A sequence of such calls. -/
def Strings.AllAllowed (st : Strings) : List StrOp → Prop
  | [] => True
  | op :: ops => st.Allowed op ∧ (st.step op).2.AllAllowed ops

/-! ## The dictionary holds the strings -/

/-- Memory has the entries that are to be there, and the dictionary has all of them. -/
structure Stored (st : Strings) (d : Strdict) : Prop where
  size : d.mem.size = st.allocs
  read : ∀ a, d.mem.read a = st.cell a
  owner : ∀ id, 0 < st.count id → st.owner (st.ptr id) = id
  table : ∃ l, Holds (strdictConfig d.mem) d.dict l ∧ ∀ a, a ∈ l ↔ st.Live a

variable {st : Strings} {d : Strdict} {id : Ident} {a : ℕ} {s : CharPtr} {is_html : Bool}

theorem Stored.init : Stored Strings.init strdictNew where
  size := rfl
  read := fun a => by simp [Strings.cell, Strings.Live, Strings.init, strdictNew]
  owner := fun id h => absurd h (Nat.lt_irrefl 0)
  table := ⟨[], holds_new, fun a => by simp [Strings.Live, Strings.init]⟩

theorem Strings.cell_of_live (h : st.Live a) : st.cell a =
    some { refcnt := st.count (st.owner a), is_html := (st.owner a).2, s := (st.owner a).1 } :=
  if_pos h

theorem Strings.cell_of_not_live (h : ¬ st.Live a) : st.cell a = none := if_neg h

/-- The entry of a string that has duplicates. -/
theorem Stored.live_ptr (h : Stored st d) (hid : 0 < st.count id) : st.Live (st.ptr id) := by
  rw [Strings.Live, h.owner id hid]
  exact ⟨hid, rfl⟩

theorem Stored.entry (h : Stored st d) (ha : st.Live a) : d.entry a =
    .ok { refcnt := st.count (st.owner a), is_html := (st.owner a).2, s := (st.owner a).1 } := by
  rw [Strdict.entry, h.read a, Strings.cell_of_live ha]

/-- The key of a live entry is the string that it was made for. -/
theorem Stored.key (h : Stored st d) (ha : st.Live a) :
    (strdictConfig d.mem).key a = some (st.owner a) := by
  have hread := h.read a
  rw [Strings.cell_of_live ha] at hread
  exact congrArg (Option.map Refstr.ident) hread

/-- The dictionary finds exactly the strings that have duplicates. -/
theorem Stored.find (h : Stored st d) (id : Ident) : strdictFind d id.1 id.2 = st.find id := by
  obtain ⟨l, hl, hlive⟩ := h.table
  rw [strdictFind, Strings.find]
  split
  · rename_i hid
    have hptr := h.live_ptr hid
    obtain ⟨j, hj⟩ := hl.find_eq_some.2 ⟨(hlive _).2 hptr, h.key hptr⟩
    rw [h.owner id hid] at hj
    rw [hj]
    rfl
  · rename_i hid
    cases hf : d.dict.find (strdictConfig d.mem) (some (id.1, id.2)) with
    | none => rfl
    | some r =>
      obtain ⟨hmem, hkey⟩ := hl.find_eq_some.1 ⟨r.1, hf⟩
      have hr := (hlive _).1 hmem
      rw [h.key hr] at hkey
      have howner : st.owner r.2 = id := Option.some.inj hkey
      exact absurd (howner ▸ hr.1) hid

/-- The text of an argument is read. -/
theorem Stored.text (h : Stored st d) (hs : st.Readable s) (hnull : s ≠ .null) :
    d.text s = .ok (st.text s) := by
  cases s with
  | null => exact absurd rfl hnull
  | entry r => simp only [Strdict.text, h.entry (hs r rfl), ok_bind, Strings.text]
  | other s => rfl

/-! ## Changes of the dictionary -/

/-- The table does not see a change of memory that leaves the strings of its entries. -/
theorem holds_of_mem {mem : Heap Refstr} (mem' : Heap Refstr) {t : Table ℕ Unit} {l : List ℕ}
    (h : Holds (strdictConfig mem) t l)
    (hmem : ∀ a ∈ l, (mem'.read a).map Refstr.ident = (mem.read a).map Refstr.ident) :
    Holds (strdictConfig mem') t l :=
  h.congr hmem rfl fun _ _ _ => trivial

/-- The entry of a string, as it is in memory. -/
theorem Stored.read_ptr (h : Stored st d) (hid : 0 < st.count id) :
    d.mem.read (st.ptr id) = some { refcnt := st.count id, is_html := id.2, s := id.1 } := by
  rw [h.read, Strings.cell_of_live (h.live_ptr hid), h.owner id hid]

/-- A new number of duplicates in an entry leaves its string. -/
theorem Stored.ident_write {n : ℕ} (h : Stored st d) (hid : 0 < st.count id) (a : ℕ) :
    ((d.mem.write (st.ptr id) { refcnt := n, is_html := id.2, s := id.1 }).read a).map
      Refstr.ident = (d.mem.read a).map Refstr.ident := by
  by_cases ha : a = st.ptr id
  · rw [ha, Heap.read_write_self (h.read_ptr hid), h.read_ptr hid]
    rfl
  · rw [Heap.read_write_of_ne ha]

/-- Another number of duplicates, not zero, is written into the entry. -/
theorem Stored.setCount {n : ℕ} (h : Stored st d) (hid : 0 < st.count id) (hn : 0 < n) :
    Stored { st with count := Function.update st.count id n }
      { d with mem := d.mem.write (st.ptr id) { refcnt := n, is_html := id.2, s := id.1 } } := by
  have hptr := h.live_ptr hid
  have howner := h.owner id hid
  have hpos : ∀ id', 0 < Function.update st.count id n id' ↔ 0 < st.count id' := by
    intro id'
    by_cases hid' : id' = id
    · subst hid'
      rw [update_self]
      exact ⟨fun _ => hid, fun _ => hn⟩
    · rw [update_of_ne hid']
  have hlive : ∀ a, ({ st with count := Function.update st.count id n } : Strings).Live a ↔
      st.Live a := fun a => and_congr_left fun _ => hpos (st.owner a)
  refine ⟨Heap.size_write.trans h.size, fun a => ?_,
    fun id' hid' => h.owner id' ((hpos id').1 hid'), ?_⟩
  · by_cases ha : a = st.ptr id
    · subst ha
      rw [Heap.read_write_self (h.read_ptr hid), Strings.cell_of_live ((hlive _).2 hptr)]
      simp only [howner, update_self]
    · rw [Heap.read_write_of_ne ha, h.read]
      by_cases hl : st.Live a
      · have hne : st.owner a ≠ id := fun heq => ha (hl.2.symm.trans (congrArg st.ptr heq))
        rw [Strings.cell_of_live hl, Strings.cell_of_live ((hlive a).2 hl)]
        simp only [update_of_ne hne]
      · rw [Strings.cell_of_not_live hl, Strings.cell_of_not_live (mt (hlive a).1 hl)]
  · obtain ⟨l, hl, hmem⟩ := h.table
    exact ⟨l, holds_of_mem _ hl fun a _ => h.ident_write hid a,
      fun a => (hmem a).trans (hlive a).symm⟩

/-- A string without duplicates gets a new entry, which the dictionary has room for. -/
theorem Stored.add (h : Stored st d) (hid : ¬ 0 < st.count id) :
    ∃ d', strdictAdd { d with mem := d.mem.alloc { refcnt := 1, is_html := id.2, s := id.1 } }
        d.mem.size = .ok d' ∧ Stored (st.dup id).2 d' := by
  obtain ⟨l, hl, hmem⟩ := h.table
  have hnew : ∀ a ∈ l, a ≠ d.mem.size := by
    intro a ha heq
    have hread := h.read a
    rw [Strings.cell_of_live ((hmem a).1 ha), heq, Heap.read_size] at hread
    cases hread
  have hl' := holds_of_mem (d.mem.alloc { refcnt := 1, is_html := id.2, s := id.1 }) hl
    fun a ha => by rw [Heap.read_alloc_of_ne (hnew a ha)]
  have hkey : (strdictConfig (d.mem.alloc { refcnt := 1, is_html := id.2, s := id.1 })).key
      d.mem.size = some id := congrArg (Option.map Refstr.ident) Heap.read_alloc_self
  have hfresh : some id ∉ l.map (strdictConfig
      (d.mem.alloc { refcnt := 1, is_html := id.2, s := id.1 })).key := by
    intro hin
    obtain ⟨a, ha, hka⟩ := List.mem_map.1 hin
    have hlive := (hmem a).1 ha
    have hold : (strdictConfig (d.mem.alloc { refcnt := 1, is_html := id.2, s := id.1 })).key a =
        (strdictConfig d.mem).key a :=
      congrArg (Option.map Refstr.ident) (Heap.read_alloc_of_ne (hnew a ha))
    rw [hold, h.key hlive] at hka
    exact hid (Option.some.inj hka ▸ hlive.1)
  obtain ⟨t, hadd, ht⟩ := hl'.add (a := d.mem.size) (hkey ▸ hfresh)
  have hdup : (st.dup id).2 =
      { count := Function.update st.count id 1, ptr := Function.update st.ptr id st.allocs,
        owner := Function.update st.owner st.allocs id, allocs := st.allocs + 1 } := by
    rw [Strings.dup, if_neg hid]
  have hself : (st.dup id).2.Live st.allocs := by
    simp [hdup, Strings.Live]
  have hother : ∀ a, a ≠ st.allocs → ((st.dup id).2.Live a ↔ st.Live a) := by
    intro a ha
    simp only [hdup, Strings.Live, update_of_ne ha]
    by_cases howner : st.owner a = id
    · rw [howner, update_self, update_self]
      exact ⟨fun hlive => absurd hlive.2.symm ha, fun hlive => absurd hlive.1 hid⟩
    · rw [update_of_ne howner, update_of_ne howner]
  refine ⟨{ mem := d.mem.alloc { refcnt := 1, is_html := id.2, s := id.1 }, dict := t }, ?_,
    ⟨?_, fun a => ?_, fun id' hid' => ?_, d.mem.size :: l, ht, fun a => ?_⟩⟩
  · simp only [strdictAdd, hadd]
    rfl
  · rw [Heap.size_alloc, h.size, hdup]
  · by_cases ha : a = st.allocs
    · rw [ha, Strings.cell_of_live hself, ← h.size, Heap.read_alloc_self, h.size]
      simp [hdup]
    · rw [Heap.read_alloc_of_ne (h.size ▸ ha), h.read]
      by_cases hlive : st.Live a
      · have howner : st.owner a ≠ id := fun heq => hid (heq ▸ hlive.1)
        rw [Strings.cell_of_live hlive, Strings.cell_of_live ((hother a ha).2 hlive)]
        simp only [hdup, update_of_ne ha, update_of_ne howner]
      · rw [Strings.cell_of_not_live hlive, Strings.cell_of_not_live (mt (hother a ha).1 hlive)]
  · rw [hdup] at hid' ⊢
    by_cases heq : id' = id
    · simp only [heq, update_self]
    · simp only [update_of_ne heq] at hid' ⊢
      have hne : st.ptr id' ≠ st.allocs := by
        intro hptr
        have hread := h.read (st.ptr id')
        rw [Strings.cell_of_live (h.live_ptr hid'), hptr, ← h.size, Heap.read_size] at hread
        cases hread
      rw [update_of_ne hne, h.owner id' hid']
  · by_cases ha : a = st.allocs
    · rw [ha, h.size]
      exact iff_of_true List.mem_cons_self hself
    · rw [hother a ha, ← hmem a, List.mem_cons, h.size]
      exact ⟨fun hor => hor.resolve_left ha, Or.inr⟩

/-- The entry of a string that is no longer used leaves the dictionary and memory. -/
theorem Stored.remove (h : Stored st d) (hid : st.count id = 1) :
    ∃ d', strdictRemove
        { d with mem := d.mem.write (st.ptr id) { refcnt := 0, is_html := id.2, s := id.1 } }
        (st.ptr id) = .ok d' ∧ Stored (st.free id) d' := by
  have hpos : 0 < st.count id := by omega
  have hptr := h.live_ptr hpos
  obtain ⟨l, hl, hmem⟩ := h.table
  have hl₁ := holds_of_mem _ hl fun a _ => h.ident_write (n := 0) hpos a
  have hkey₁ : ∀ a, st.Live a → (strdictConfig (d.mem.write (st.ptr id)
      { refcnt := 0, is_html := id.2, s := id.1 })).key a = some (st.owner a) := by
    intro a ha
    rw [← h.key ha]
    exact h.ident_write hpos a
  obtain ⟨j, hfind⟩ := hl₁.find_eq_some.2
    ⟨(hmem _).2 hptr, by rw [hkey₁ _ hptr, h.owner id hpos]⟩
  obtain ⟨t, hremove, ht⟩ := hl₁.remove (k := some id)
  have hgone : ∀ a, (st.free id).Live a ↔ st.Live a ∧ a ≠ st.ptr id := by
    intro a
    by_cases howner : st.owner a = id
    · simp only [Strings.Live, Strings.free, howner, update_self, hid]
      exact ⟨fun hlive => absurd hlive.1 (Nat.lt_irrefl 0),
        fun hlive => absurd hlive.1.2.symm hlive.2⟩
    · simp only [Strings.Live, Strings.free, update_of_ne howner]
      refine ⟨fun hlive => ⟨hlive, fun ha => howner ?_⟩, And.left⟩
      rw [ha, h.owner id hpos]
  have hleft : ∀ a, a ∈ l.filter (fun a => (strdictConfig (d.mem.write (st.ptr id)
      { refcnt := 0, is_html := id.2, s := id.1 })).key a ≠ some id) ↔ (st.free id).Live a := by
    intro a
    rw [List.mem_filter, hmem, hgone, decide_eq_true_eq]
    refine and_congr_right fun hlive => ?_
    rw [hkey₁ a hlive]
    refine not_congr ⟨fun heq => ?_, fun heq => ?_⟩
    · exact hlive.2.symm.trans (congrArg st.ptr (Option.some.inj heq))
    · rw [heq, h.owner id hpos]
  refine ⟨{ mem := (d.mem.write (st.ptr id)
      { refcnt := 0, is_html := id.2, s := id.1 }).free (st.ptr id), dict := t }, ?_,
    ⟨?_, fun a => ?_, fun id' hid' => ?_, _, holds_of_mem _ ht fun a ha => ?_, hleft⟩⟩
  · simp only [strdictRemove, Strdict.entry, Heap.read_write_self (h.read_ptr hpos), ok_bind,
      strdictFind, Refstr.ident, Prod.mk.eta, hfind, hremove]
    rfl
  · rw [Heap.size_free, Heap.size_write, h.size]
    rfl
  · by_cases ha : a = st.ptr id
    · rw [ha, Heap.read_free_self, Strings.cell_of_not_live fun hlive => ((hgone _).1 hlive).2 rfl]
    · rw [Heap.read_free_of_ne ha, Heap.read_write_of_ne ha, h.read]
      by_cases hlive : st.Live a
      · have howner : st.owner a ≠ id := fun heq => ha (hlive.2.symm.trans (congrArg st.ptr heq))
        rw [Strings.cell_of_live hlive, Strings.cell_of_live ((hgone a).2 ⟨hlive, ha⟩)]
        simp only [Strings.free, update_of_ne howner]
      · rw [Strings.cell_of_not_live hlive,
          Strings.cell_of_not_live fun h' => hlive ((hgone a).1 h').1]
  · by_cases heq : id' = id
    · subst heq
      exact h.owner _ hpos
    · simp only [Strings.free, update_of_ne heq] at hid' ⊢
      exact h.owner id' hid'
  · have hne : a ≠ st.ptr id := ((hgone a).1 ((hleft a).1 ha)).2
    rw [Heap.read_free_of_ne hne]

/-! ## The calls -/

/-- Whether an argument originated from `agstrdup_html`. -/
theorem Stored.fromHtml (h : Stored st d) (hs : st.Readable s) :
    d.fromHtml s = .ok (st.kind s) := by
  cases hnull : s with
  | null => rfl
  | other t =>
    simp only [Strdict.fromHtml, Strdict.text, ok_bind]
    split <;> rfl
  | entry r =>
    subst hnull
    have hr := hs r rfl
    have hfind := h.find ((st.owner r).1, true)
    have htext : d.text (.entry r) = .ok (st.owner r).1 := h.text hs nofun
    simp only [Strdict.fromHtml, htext, ok_bind, hfind, Strings.find, Strings.kind]
    cases hkind : (st.owner r).2 with
    | true =>
      have howner : ((st.owner r).1, true) = st.owner r := by rw [← hkind]
      rw [howner, if_pos hr.1, hr.2]
      simp
    | false =>
      split
      · rename_i ref href
        split at href
        · rename_i hpos
          cases href
          refine congrArg Except.ok (decide_eq_false fun heq => ?_)
          have howner := h.owner _ hpos
          rw [← CharPtr.entry.inj heq] at howner
          rw [howner] at hkind
          cases hkind
        · cases href
      · rfl

/-- A search by text and kind. -/
theorem Stored.bind (h : Stored st d) (hs : st.Readable s) (hnull : s ≠ .null) (is_html : Bool) :
    refstrbind d s is_html = .ok (st.find (st.text s, is_html)) := by
  simp only [refstrbind, h.text hs hnull, ok_bind, h.find (st.text s, is_html)]

/-- A duplication by text and kind. -/
theorem Stored.dup (h : Stored st d) (hs : st.Readable s) (is_html : Bool) :
    ∃ r d', agstrdupInternal d s is_html = .ok (r, d') ∧ (.str r) = (st.dupArg s is_html).1 ∧
      Stored (st.dupArg s is_html).2 d' := by
  by_cases hnull : s = .null
  · subst hnull
    exact ⟨none, d, rfl, rfl, h⟩
  · have hfind := h.find (st.text s, is_html)
    rw [Strings.dupArg, if_neg hnull]
    by_cases hid : 0 < st.count (st.text s, is_html)
    · have hd' := h.setCount hid (Nat.succ_pos (st.count (st.text s, is_html)))
      have hentry := h.entry (h.live_ptr hid)
      rw [h.owner _ hid] at hentry
      rw [Strings.find, if_pos hid] at hfind
      rw [Strings.dup, if_pos hid]
      refine ⟨some (st.ptr (st.text s, is_html)), _, ?_, rfl, hd'⟩
      simp only [agstrdupInternal, h.text hs hnull, ok_bind, hfind, hentry]
    · obtain ⟨d', hadd, hd'⟩ := h.add hid
      refine ⟨some d.mem.size, d', ?_, by rw [Strings.dup, if_neg hid, h.size], hd'⟩
      rw [Strings.find, if_neg hid] at hfind
      simp only [agstrdupInternal, h.text hs hnull, ok_bind, hfind, hadd]

/-- A free of what a duplication has returned. -/
theorem Stored.free (h : Stored st d) (ha : st.Live a) :
    ∃ d', agstrfree d (.entry a) (st.owner a).2 = .ok (.SUCCESS, d') ∧
      Stored (st.free (st.owner a)) d' := by
  have hfind := h.find (st.owner a)
  rw [Strings.find, if_pos ha.1, ha.2] at hfind
  have htext : d.text (.entry a) = .ok (st.owner a).1 :=
    h.text (fun r hr => CharPtr.entry.inj hr ▸ ha) nofun
  have hentry := h.entry ha
  by_cases hone : st.count (st.owner a) = 1
  · obtain ⟨d', hremove, hd'⟩ := h.remove hone
    rw [ha.2] at hremove
    refine ⟨d', ?_, hd'⟩
    simp only [agstrfree, htext, ok_bind, hfind, if_true, hentry, hone, Nat.sub_self, hremove]
  · have hpos := ha.1
    have hset := h.setCount hpos (n := st.count (st.owner a) - 1) (by omega)
    rw [ha.2] at hset
    refine ⟨_, ?_, hset⟩
    have hne : st.count (st.owner a) - 1 ≠ 0 := by omega
    simp only [agstrfree, htext, ok_bind, hfind, if_true, hentry, hne, if_false]

/-- A call does what it is to do. -/
theorem Stored.step {op : StrOp} (h : Stored st d) (hop : st.Allowed op) :
    ∃ d', op.step d = .ok ((st.step op).1, d') ∧ Stored (st.step op).2 d' := by
  cases op with
  | agstrdup_text s =>
    obtain ⟨r, d', hdup, hr, hd'⟩ := h.dup hop false
    exact ⟨d', by simp only [StrOp.step, agstrdupText, hdup, ok_bind, hr, Strings.step], hd'⟩
  | agstrdup_html s =>
    obtain ⟨r, d', hdup, hr, hd'⟩ := h.dup hop true
    exact ⟨d', by simp only [StrOp.step, agstrdupHtml, hdup, ok_bind, hr, Strings.step], hd'⟩
  | agstrdup s =>
    obtain ⟨r, d', hdup, hr, hd'⟩ := h.dup hop (st.kind s)
    have heq : Graphviz.agstrdup d s = agstrdupInternal d s (st.kind s) := by
      simp only [Graphviz.agstrdup, h.fromHtml hop, ok_bind]
      cases st.kind s <;> rfl
    exact ⟨d', by simp only [StrOp.step, heq, hdup, ok_bind, hr, Strings.step], hd'⟩
  | agstrbind_text s =>
    have hbind := h.bind hop.2 hop.1 false
    exact ⟨d, by simp only [StrOp.step, agstrbindText, hbind, ok_bind, Strings.step], h⟩
  | agstrbind_html s =>
    have hbind := h.bind hop.2 hop.1 true
    exact ⟨d, by simp only [StrOp.step, agstrbindHtml, hbind, ok_bind, Strings.step], h⟩
  | agstrbind s =>
    have hbind := h.bind hop.2 hop.1 (st.kind s)
    have heq : Graphviz.agstrbind d s = refstrbind d s (st.kind s) := by
      simp only [Graphviz.agstrbind, h.fromHtml hop.2, ok_bind]
      cases st.kind s <;> rfl
    exact ⟨d, by simp only [StrOp.step, heq, hbind, ok_bind, Strings.step], h⟩
  | agstrfree s is_html =>
    obtain rfl | ⟨r, rfl, hr, rfl⟩ := hop
    · exact ⟨d, rfl, h⟩
    · obtain ⟨d', hfree, hd'⟩ := h.free hr
      exact ⟨d', by simp only [StrOp.step, hfree, ok_bind]; rfl, hd'⟩

/-- A sequence of calls does what it is to do. -/
theorem Stored.run {ops : List StrOp} (h : Stored st d) (hops : st.AllAllowed ops) :
    ∃ d', strRun d ops = .ok ((st.run ops).1, d') ∧ Stored (st.run ops).2 d' := by
  induction ops generalizing st d with
  | nil => exact ⟨d, rfl, h⟩
  | cons op ops ih =>
    obtain ⟨d1, hstep, h1⟩ := h.step hops.1
    obtain ⟨d2, hrun, h2⟩ := ih h1 hops.2
    exact ⟨d2, by simp only [strRun, hstep, ok_bind, hrun, Strings.run], h2⟩

/-- The buckets in use are the entries of the strings that have duplicates. -/
theorem Stored.mem_items (h : Stored st d) :
    a ∈ items d.dict.slots ↔ ∃ id, 0 < st.count id ∧ st.ptr id = a := by
  obtain ⟨l, hl, hmem⟩ := h.table
  rw [hl.perm.mem_iff, hmem]
  constructor
  · exact fun ha => ⟨st.owner a, ha⟩
  · rintro ⟨id, hid, rfl⟩
    exact h.live_ptr hid

/-- Whatever is duplicated, looked up and freed, the functions return what they are to return: a
string is found, at one address, while its duplicates outnumber its frees, and no two strings share
an entry. The dictionary has each entry once, and memory no other. -/
theorem refstr_correct {ops : List StrOp} (hops : Strings.init.AllAllowed ops) :
    ∃ d, strRun strdictNew ops = .ok ((Strings.init.run ops).1, d) ∧
      (∀ id, strdictFind d id.1 id.2 = (Strings.init.run ops).2.find id) ∧
      (∀ id id', (Strings.init.run ops).2.find id = (Strings.init.run ops).2.find id' →
        0 < (Strings.init.run ops).2.count id → id = id') ∧ (items d.dict.slots).Nodup ∧
      (∀ a, a ∈ items d.dict.slots ↔
        ∃ id, 0 < (Strings.init.run ops).2.count id ∧ (Strings.init.run ops).2.ptr id = a) ∧
      ∀ a, (d.mem.read a).isSome ↔ a ∈ items d.dict.slots := by
  obtain ⟨d, hrun, h⟩ := Stored.init.run hops
  refine ⟨d, hrun, h.find, fun id id' hfind hid => ?_, ?_, fun a => h.mem_items,
    fun a => ?_⟩
  · rw [Strings.find, Strings.find, if_pos hid] at hfind
    split at hfind
    · rename_i hid'
      rw [← h.owner id hid, Option.some.inj hfind, h.owner id' hid']
    · cases hfind
  · obtain ⟨l, hl, -⟩ := h.table
    exact hl.perm.nodup_iff.2 hl.nodup.of_map
  · rw [h.mem_items, h.read]
    constructor
    · intro ha
      by_cases hlive : (Strings.init.run ops).2.Live a
      · exact ⟨_, hlive⟩
      · rw [Strings.cell_of_not_live hlive] at ha
        cases ha
    · rintro ⟨id, hid, rfl⟩
      rw [Strings.cell_of_live (h.live_ptr hid)]
      rfl

/-- A text string and an HTML-like one of the same bytes, the first duplicated twice and freed. -/
theorem refstr_correct_two_kinds :
    ∃ d, strRun strdictNew [.agstrdup_text (.other [97]), .agstrdup_html (.entry 0),
        .agstrdup (.entry 0), .agstrfree (.entry 0) false, .agstrfree (.entry 0) false,
        .agstrbind (.entry 1)] =
      .ok ([.str (some 0), .str (some 1), .str (some 0), .code .SUCCESS, .code .SUCCESS,
        .str (some 1)], d) := by
  have hops : Strings.init.AllAllowed [.agstrdup_text (.other [97]), .agstrdup_html (.entry 0),
      .agstrdup (.entry 0), .agstrfree (.entry 0) false, .agstrfree (.entry 0) false,
      .agstrbind (.entry 1)] := by
    simp [Strings.AllAllowed, Strings.Allowed, Strings.Readable, Strings.step, Strings.dupArg,
      Strings.dup, Strings.Live, Strings.init, Strings.text, Strings.kind, Strings.free]
  obtain ⟨d, hrun, -⟩ := refstr_correct hops
  exact ⟨d, hrun⟩

end Graphviz
