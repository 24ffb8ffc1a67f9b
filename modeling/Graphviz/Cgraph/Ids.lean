import Graphviz.Cgraph.Refstr
import Graphviz.Cgraph.Store
import Graphviz.Util.Numeral

/-!
# Identifiers as numbers

`lib/cgraph/id.c` and `lib/cgraph/imap.c`, for the names of graphs. The identifier of a named object
is the address of a string, and `place` tells which address an entry of the string dictionary has
got. The string dictionary is what it is to be (`Strings`).
-/

namespace Graphviz

open Function List Nat

/-- A value of `IDTYPE`: a null pointer, the address of an entry, or the odd number `2 * k + 1`. -/
inductive IdValue where
  | null
  | str (r : ℕ)
  | odd (k : ℕ)
  deriving DecidableEq

/-- An identifier as a number. -/
def IdValue.val (place : ℕ → ℕ) : IdValue → ℕ
  | .null => 0
  | .str r => place r
  | .odd k => 2 * k + 1

/-! ## Strings -/

namespace Strings

/-- `agstrbind`. -/
def agstrbind (st : Strings) (s : CharPtr) : Option ℕ := st.find (st.text s, st.kind s)

/-- `agstrdup`. -/
def agstrdup (st : Strings) (s : CharPtr) : ℕ × Strings := st.dup (st.text s, st.kind s)

/-- `agstrfree` of an entry. As a string of the other kind it is not found. -/
def agstrfree (st : Strings) (r : ℕ) (is_html : Bool) : Strings :=
  if (st.owner r).2 = is_html then st.free (st.owner r) else st

end Strings

/-! ## The closure -/

/-- `IMapEntry_t`, with the entry that holds its text. -/
structure IMapEntry where
  id : IdValue
  str : ℕ

/-- What names go through in `Agclos_t`: the strings, `counter` of `state_t`, and the internal map
of graphs, as the set of its entries. -/
structure Clos where
  strs : Strings
  counter : ℕ
  imap : List IMapEntry

namespace Clos

variable (place : ℕ → ℕ)

/-- `idmap`. -/
def idmap (c : Clos) (str : CharPtr) (createflag : Bool) : IdValue × Clos :=
  match str with
  | .null => (.odd c.counter, { c with counter := c.counter + 1 })
  | str =>
    if createflag then
      let (r, strs) := c.strs.agstrdup str
      (.str r, { c with strs })
    else ((c.strs.agstrbind str).elim .null .str, c)

/-- `aginternalmaplookup`. -/
def aginternalmaplookup (c : Clos) (str : CharPtr) : Option IdValue :=
  match c.strs.agstrbind str with
  | none => none
  | some search_str => (c.imap.find? fun sym => sym.str = search_str).map IMapEntry.id

/-- `aginternalmapinsert`. -/
def aginternalmapinsert (c : Clos) (str : CharPtr) (id : IdValue) : Clos :=
  let (r, strs) := c.strs.agstrdup str
  { c with strs, imap := { id, str := r } :: c.imap }

/-- `find_isym`. -/
def findIsym (c : Clos) (id : IdValue) : Option IMapEntry :=
  c.imap.find? fun isym => isym.id.val place = id.val place

/-- `aginternalmapprint`. -/
def aginternalmapprint (c : Clos) (id : IdValue) : Option ℕ :=
  (c.findIsym place id).map IMapEntry.str

/-- `aginternalmapdelete`. -/
def aginternalmapdelete (c : Clos) (id : IdValue) : Clos :=
  match c.findIsym place id with
  | none => c
  | some isym =>
    { c with strs := c.strs.agstrfree isym.str false
             imap := c.imap.filter fun ent => ent.id.val place ≠ id.val place }

/-- Whether a string is a name for the discipline: not null and not a local name. -/
def Global (c : Clos) (str : CharPtr) : Prop :=
  str ≠ .null ∧ (c.strs.text str).head? ≠ some LOCALNAMEPREFIX

instance (c : Clos) (str : CharPtr) : Decidable (c.Global str) :=
  inferInstanceAs (Decidable (_ ∧ _))

/-- `agmapnametoid`, for a graph. -/
def agmapnametoid (c : Clos) (str : CharPtr) (createflag : Bool) : Option IdValue × Clos :=
  if c.Global str then
    let (id, c) := c.idmap str createflag
    (some id, c)
  else
    match if str = .null then none else c.aginternalmaplookup str with
    | some id => (some id, c)
    | none =>
      if createflag then
        let (id, c) := c.idmap .null createflag
        (some id, if str = .null then c else c.aginternalmapinsert str id)
      else (none, c)

/-- `idfree`. -/
def idfree (c : Clos) : IdValue → Clos
  | .str r => { c with strs := c.strs.agstrfree r false }
  | _ => c

/-- `agfreeid`. -/
def agfreeid (c : Clos) (id : IdValue) : Clos := (c.aginternalmapdelete place id).idfree id

/-- `agnameof`, for a graph. -/
def agnameof (c : Clos) (id : IdValue) : CharPtr :=
  match c.aginternalmapprint place id with
  | some r => .entry r
  | none =>
    match id with
    | .str r => .entry r
    | id => .other (LOCALNAMEPREFIX :: decimal (id.val place))

end Clos

/-! ## Names in memory -/

/-- The entries of the dictionary are in memory blocks of their own. -/
structure Placed (place : ℕ → ℕ) (st : Strings) : Prop where
  owner : ∀ id, 0 < st.count id → st.owner (st.ptr id) = id
  lt : ∀ id, 0 < st.count id → st.ptr id < st.allocs
  even : ∀ r, st.Live r → place r % 2 = 0 ∧ 0 < place r
  inj : ∀ r r', st.Live r → st.Live r' → place r = place r' → r = r'

/-- The block that the next entry gets is even and in no one's use. -/
structure Allocates (place : ℕ → ℕ) (st : Strings) : Prop where
  even : place st.allocs % 2 = 0 ∧ 0 < place st.allocs
  fresh : ∀ r, st.Live r → place r ≠ place st.allocs

/-- The internal map has odd identifiers for local names, which are in the dictionary. -/
structure Clos.Sound (place : ℕ → ℕ) (c : Clos) : Prop where
  placed : Placed place c.strs
  imap : ∀ ent ∈ c.imap, (∃ k, ent.id = .odd k) ∧ c.strs.Live ent.str ∧
    (c.strs.owner ent.str).1.head? = some LOCALNAMEPREFIX
  nodup : (c.imap.map IMapEntry.str).Nodup

/-- An identifier that an object has: an odd one, or that of a global name in the dictionary. -/
def Clos.HoldsId (c : Clos) (id : IdValue) : Prop :=
  (∃ k, id = .odd k) ∨ ∃ r, id = .str r ∧ c.strs.Live r ∧
    (c.strs.owner r).1.head? ≠ some LOCALNAMEPREFIX

variable {place : ℕ → ℕ} {st st' : Strings} {c c' : Clos} {s : CharPtr} {id i old : IdValue} {r : ℕ}
  {a : Ident}

theorem Strings.find_eq_some : st.find a = some r ↔ 0 < st.count a ∧ st.ptr a = r := by
  rw [Strings.find]
  split
  · rename_i h
    rw [Option.some.injEq]
    exact ⟨fun heq => ⟨h, heq⟩, fun heq => heq.2⟩
  · rename_i h
    exact ⟨by rintro ⟨⟩, fun heq => absurd heq.1 h⟩

theorem Strings.find_owner (hr : st.Live r) : st.find (st.owner r) = some r :=
  Strings.find_eq_some.2 hr

theorem Placed.live_lt (h : Placed place st) (hr : st.Live r) : r < st.allocs := by
  have hlt := h.lt _ hr.1
  rw [hr.2] at hlt
  exact hlt

/-! ## Strings that stay -/

/-- Entries keep their strings, and the strings that `P` holds of are found where they were. -/
structure Strings.Agrees (P : Ident → Prop) (st st' : Strings) : Prop where
  owner : ∀ r, st.Live r → st'.owner r = st.owner r
  find : ∀ a r, P a → st.find a = some r → st'.find a = some r

/-- A string that can be read is the same. -/
theorem Strings.Agrees.text_kind {P : Ident → Prop} (h : Strings.Agrees P st st')
    (hs : st.Readable s) : st'.text s = st.text s ∧ st'.kind s = st.kind s := by
  cases s with
  | entry r =>
    have howner := h.owner r (hs r rfl)
    exact ⟨congrArg Prod.fst howner, congrArg Prod.snd howner⟩
  | null | other t => exact ⟨rfl, rfl⟩

theorem Strings.Agrees.live {P : Ident → Prop} (h : Strings.Agrees P st st') (hr : st.Live r)
    (hP : P (st.owner r)) : st'.Live r := by
  have hfind := Strings.find_eq_some.1 (h.find _ r hP (Strings.find_owner hr))
  rw [Strings.Live, h.owner r hr]
  exact hfind

theorem Strings.dup_of_pos (h : 0 < st.count a) : st.dup a =
    (st.ptr a, { st with count := Function.update st.count a (st.count a + 1) }) := by
  rw [Strings.dup, if_pos h]

theorem Strings.dup_of_zero (h : ¬ 0 < st.count a) : st.dup a =
    (st.allocs, { count := Function.update st.count a 1
                  ptr := Function.update st.ptr a st.allocs
                  owner := Function.update st.owner st.allocs a
                  allocs := st.allocs + 1 }) := by
  rw [Strings.dup, if_neg h]

/-- A duplication makes its own string findable. -/
theorem Strings.count_dup {b : Ident} : 0 < (st.dup a).2.count b ↔ b = a ∨ 0 < st.count b := by
  by_cases hab : b = a
  · subst hab
    refine iff_of_true ?_ (.inl rfl)
    by_cases h : 0 < st.count b
    · simp [Strings.dup_of_pos h]
    · simp [Strings.dup_of_zero h]
  · rw [or_iff_right hab]
    by_cases h : 0 < st.count a
    · simp [Strings.dup_of_pos h, update_of_ne hab]
    · simp [Strings.dup_of_zero h, update_of_ne hab]

theorem Strings.ptr_dup_self : (st.dup a).2.ptr a = (st.dup a).1 := by
  by_cases h : 0 < st.count a
  · simp [Strings.dup_of_pos h]
  · simp [Strings.dup_of_zero h]

theorem Strings.ptr_dup {b : Ident} (hb : 0 < st.count b) : (st.dup a).2.ptr b = st.ptr b := by
  by_cases h : 0 < st.count a
  · simp [Strings.dup_of_pos h]
  · have hab : b ≠ a := fun hab => h (hab ▸ hb)
    simp [Strings.dup_of_zero h, update_of_ne hab]

theorem Strings.owner_dup (hr : r < st.allocs) : (st.dup a).2.owner r = st.owner r := by
  by_cases h : 0 < st.count a
  · simp [Strings.dup_of_pos h]
  · simp [Strings.dup_of_zero h, update_of_ne (Nat.ne_of_lt hr)]

/-- What a duplication finds or makes. -/
theorem Strings.find_dup (st : Strings) (a : Ident) : (st.dup a).2.find a = some (st.dup a).1 :=
  Strings.find_eq_some.2 ⟨Strings.count_dup.2 (.inl rfl), Strings.ptr_dup_self⟩

/-- A duplication leaves every string where it is. -/
theorem Placed.dup_agrees (h : Placed place st) (a : Ident) :
    Strings.Agrees (fun _ => True) st (st.dup a).2 := by
  refine ⟨fun r hr => Strings.owner_dup (h.live_lt hr), fun b r _ hb => ?_⟩
  obtain ⟨hpos, rfl⟩ := Strings.find_eq_some.1 hb
  exact Strings.find_eq_some.2 ⟨Strings.count_dup.2 (.inr hpos), Strings.ptr_dup hpos⟩

/-- A duplication is counted. -/
theorem Strings.dup_ne (st : Strings) (a : Ident) : (st.dup a).2 ≠ st := by
  intro heq
  have hcount := congrFun (congrArg Strings.count heq) a
  by_cases h : 0 < st.count a
  · rw [Strings.dup_of_pos h] at hcount
    simp only [update_self] at hcount
    omega
  · rw [Strings.dup_of_zero h] at hcount
    simp only [update_self] at hcount
    omega

/-- A free leaves the other strings where they are. -/
theorem Strings.free_agrees (st : Strings) (a : Ident) : Strings.Agrees (· ≠ a) st (st.free a) := by
  refine ⟨fun _ _ => rfl, fun b r hba hb => ?_⟩
  obtain ⟨hpos, rfl⟩ := Strings.find_eq_some.1 hb
  refine Strings.find_eq_some.2 ⟨?_, rfl⟩
  simp only [Strings.free, update_of_ne hba]
  exact hpos

theorem Strings.agstrfree_agrees (st : Strings) (r : ℕ) (is_html : Bool) :
    Strings.Agrees (· ≠ st.owner r) st (st.agstrfree r is_html) := by
  rw [Strings.agstrfree]
  split
  · exact st.free_agrees _
  · exact ⟨fun _ _ => rfl, fun _ _ _ h => h⟩

/-- After a duplication an entry is live if it was, or if it is the one that has been made. -/
theorem Strings.live_dup (hr : (st.dup a).2.Live r) : st.Live r ∨ r = st.allocs := by
  obtain ⟨hcount, hptr⟩ := hr
  rw [Strings.count_dup] at hcount
  by_cases ha : 0 < st.count a
  · have howner : (st.dup a).2.owner r = st.owner r := by rw [Strings.dup_of_pos ha]
    have hpos : 0 < st.count (st.owner r) := by
      rw [howner] at hcount
      obtain heq | hpos := hcount
      · rw [heq]
        exact ha
      · exact hpos
    rw [howner, Strings.ptr_dup hpos] at hptr
    exact .inl ⟨hpos, hptr⟩
  · rw [or_iff_not_imp_right]
    intro hne
    have howner : (st.dup a).2.owner r = st.owner r := by
      simp [Strings.dup_of_zero ha, update_of_ne hne]
    rw [howner] at hcount hptr
    obtain heq | hpos := hcount
    · rw [heq, Strings.ptr_dup_self, Strings.dup_of_zero ha] at hptr
      exact absurd hptr.symm hne
    · rw [Strings.ptr_dup hpos] at hptr
      exact ⟨hpos, hptr⟩

/-- The entry of a duplicated string. -/
theorem Placed.owner_dup_self (h : Placed place st) (a : Ident) :
    (st.dup a).2.owner (st.dup a).1 = a := by
  by_cases ha : 0 < st.count a
  · rw [Strings.dup_of_pos ha]
    exact h.owner a ha
  · simp [Strings.dup_of_zero ha]

/-- A new entry is in a block of its own, too. -/
theorem Placed.dup (h : Placed place st) (hnext : Allocates place st) (a : Ident) :
    Placed place (st.dup a).2 := by
  have hlt : st.allocs ≤ (st.dup a).2.allocs ∧ (st.dup a).1 < (st.dup a).2.allocs := by
    by_cases ha : 0 < st.count a
    · rw [Strings.dup_of_pos ha]
      exact ⟨le_refl _, h.lt a ha⟩
    · rw [Strings.dup_of_zero ha]
      exact ⟨le_succ _, lt_succ_self _⟩
  refine ⟨fun b hb => ?_, fun b hb => ?_, fun r hr => ?_, fun r r' hr hr' heq => ?_⟩
  · by_cases hab : b = a
    · rw [hab, Strings.ptr_dup_self]
      exact h.owner_dup_self a
    · have hpos := (Strings.count_dup.1 hb).resolve_left hab
      rw [Strings.ptr_dup hpos, Strings.owner_dup (h.lt b hpos)]
      exact h.owner b hpos
  · by_cases hab : b = a
    · rw [hab, Strings.ptr_dup_self]
      exact hlt.2
    · have hpos := (Strings.count_dup.1 hb).resolve_left hab
      rw [Strings.ptr_dup hpos]
      exact lt_of_lt_of_le (h.lt b hpos) hlt.1
  · obtain hr | rfl := Strings.live_dup hr
    · exact h.even r hr
    · exact hnext.even
  · obtain hr | rfl := Strings.live_dup hr
    · obtain hr' | rfl := Strings.live_dup hr'
      · exact h.inj r r' hr hr' heq
      · exact absurd heq (hnext.fresh r hr)
    · obtain hr' | rfl := Strings.live_dup hr'
      · exact absurd heq.symm (hnext.fresh r' hr')
      · rfl

/-! ## Names that stay -/

theorem Clos.agmapnametoid_global (hg : c.Global s) : c.agmapnametoid s false =
    (some ((c.strs.agstrbind s).elim .null .str), c) := by
  cases s with
  | null => exact absurd rfl hg.1
  | entry r | other t => rw [agmapnametoid, if_pos hg]; rfl

theorem Clos.agmapnametoid_create (hg : c.Global s) : c.agmapnametoid s true =
    (some (.str (c.strs.agstrdup s).1), { c with strs := (c.strs.agstrdup s).2 }) := by
  cases s with
  | null => exact absurd rfl hg.1
  | entry r | other t => rw [agmapnametoid, if_pos hg]; rfl

theorem Clos.agmapnametoid_local (hg : ¬ c.Global s) (hnull : s ≠ .null) :
    c.agmapnametoid s false = (c.aginternalmaplookup s, c) := by
  rw [agmapnametoid, if_neg hg, if_neg hnull]
  cases c.aginternalmaplookup s with
  | none => rfl
  | some id => rfl

theorem Clos.agmapnametoid_found (hg : ¬ c.Global s) (hnull : s ≠ .null)
    (hid : c.aginternalmaplookup s = some id) (createflag : Bool) :
    c.agmapnametoid s createflag = (some id, c) := by
  rw [agmapnametoid, if_neg hg, if_neg hnull, hid]

/-- A name that the internal map has: its string, and its entry. -/
theorem Clos.aginternalmaplookup_eq_some : c.aginternalmaplookup s = some i ↔
    ∃ r ent, c.strs.agstrbind s = some r ∧
      c.imap.find? (fun sym => sym.str = r) = some ent ∧ ent.id = i := by
  rw [aginternalmaplookup]
  cases c.strs.agstrbind s with
  | none => simp
  | some r => simp

/-- What a name stands for stays so when the string and its entry in the internal map do. -/
theorem Clos.agmapnametoid_agrees {P : Ident → Prop} (hs : c.strs.Readable s) (hnull : s ≠ .null)
    (hagree : Strings.Agrees P c.strs c'.strs) (hP : P (c.strs.text s, c.strs.kind s))
    (himap : ∀ r ent, c.imap.find? (fun sym => sym.str = r) = some ent → ent.id = i →
      c'.imap.find? (fun sym => sym.str = r) = some ent)
    (hi : (c.agmapnametoid s false).1 = some i) (hne : i ≠ .null) :
    (c'.agmapnametoid s false).1 = some i := by
  obtain ⟨htext, hkind⟩ := hagree.text_kind hs
  have hbind : ∀ r, c.strs.agstrbind s = some r → c'.strs.agstrbind s = some r := by
    intro r hr
    rw [Strings.agstrbind, htext, hkind]
    exact hagree.find _ r hP hr
  have hglobal : c'.Global s ↔ c.Global s := by rw [Global, Global, htext]
  by_cases hg : c.Global s
  · rw [agmapnametoid_global hg, Option.some.injEq] at hi
    rw [agmapnametoid_global (hglobal.2 hg), Option.some.injEq]
    cases hb : c.strs.agstrbind s with
    | none =>
      rw [hb] at hi
      exact absurd hi.symm hne
    | some r =>
      rw [hbind r hb, ← hi, hb]
  · rw [agmapnametoid_local hg hnull] at hi
    rw [agmapnametoid_local (mt hglobal.1 hg) hnull]
    obtain ⟨r, ent, hb, hfind, hid⟩ := aginternalmaplookup_eq_some.1 hi
    exact aginternalmaplookup_eq_some.2 ⟨r, ent, hbind r hb, himap r ent hfind hid, hid⟩

/-- A search that finds an object finds it among those that a test keeps, too. -/
theorem find?_filter_of_find? {β : Type} {l : List β} {p q : β → Bool} {x : β}
    (h : l.find? p = some x) (hq : q x = true) : (l.filter q).find? p = some x := by
  induction l with
  | nil => cases h
  | cons y l ih =>
    cases hp : p y with
    | true =>
      rw [find?_cons_of_pos hp] at h
      cases h
      rw [filter_cons_of_pos hq, find?_cons_of_pos hp]
    | false =>
      rw [find?_cons_of_neg (by rw [hp]; exact Bool.false_ne_true)] at h
      rw [filter_cons]
      split
      · rw [find?_cons_of_neg (by rw [hp]; exact Bool.false_ne_true)]
        exact ih h
      · exact ih h

/-- The string of a name with an identifier. -/
theorem Clos.bound_of_agmapnametoid (hnull : s ≠ .null)
    (hi : (c.agmapnametoid s false).1 = some i) (hne : i ≠ .null) :
    ∃ r, c.strs.agstrbind s = some r ∧ (c.Global s ∧ i = .str r ∨ ¬ c.Global s ∧
      ∃ ent, c.imap.find? (fun sym => sym.str = r) = some ent ∧ ent.id = i) := by
  by_cases hg : c.Global s
  · rw [agmapnametoid_global hg, Option.some.injEq] at hi
    cases hb : c.strs.agstrbind s with
    | none =>
      rw [hb] at hi
      exact absurd hi.symm hne
    | some r =>
      rw [hb] at hi
      exact ⟨r, rfl, .inl ⟨hg, hi.symm⟩⟩
  · rw [agmapnametoid_local hg hnull] at hi
    obtain ⟨r, ent, hb, hent⟩ := aginternalmaplookup_eq_some.1 hi
    exact ⟨r, hb, .inr ⟨hg, ent, hent⟩⟩

/-- The text of a name that is not global. -/
theorem Clos.head?_of_not_global (hg : ¬ c.Global s) (hnull : s ≠ .null) :
    (c.strs.text s).head? = some LOCALNAMEPREFIX := by
  rw [Global, not_and, not_not] at hg
  exact hg hnull

/-- The internal map has no identifier of a string. -/
theorem Clos.Sound.findIsym_str (h : c.Sound place) (hr : c.strs.Live r) :
    c.findIsym place (.str r) = none := by
  rw [findIsym, find?_eq_none]
  intro ent hent
  obtain ⟨⟨k, hk⟩, -⟩ := h.imap ent hent
  have heven := (h.placed.even r hr).1
  rw [hk, decide_eq_true_eq, IdValue.val, IdValue.val]
  omega

/-- Freeing an identifier leaves the names of others. -/
theorem Clos.Sound.agfreeid (h : c.Sound place) (hold : c.HoldsId old) (hs : c.strs.Readable s)
    (hnull : s ≠ .null) (hi : (c.agmapnametoid s false).1 = some i) (hne : i ≠ .null)
    (hval : i.val place ≠ old.val place) :
    ((c.agfreeid place old).agmapnametoid s false).1 = some i := by
  obtain ⟨b, hb, hname⟩ := bound_of_agmapnametoid hnull hi hne
  obtain ⟨k, rfl⟩ | ⟨r, rfl, hr, hglobal⟩ := hold
  · cases hsym : c.findIsym place (.odd k) with
    | none =>
      rw [Clos.agfreeid, aginternalmapdelete, hsym]
      exact hi
    | some isym =>
      have hmem := mem_of_find?_eq_some hsym
      have hkey : isym.id.val place = (IdValue.odd k).val place := by
        simpa using find?_some hsym
      obtain ⟨-, hlive, hlocal⟩ := h.imap isym hmem
      rw [Clos.agfreeid, aginternalmapdelete, hsym]
      refine agmapnametoid_agrees hs hnull (c.strs.agstrfree_agrees isym.str false) ?_ ?_ hi hne
      · intro heq
        obtain ⟨hg, -⟩ | ⟨-, ent, hent, hid⟩ := hname
        · rw [← heq] at hlocal
          exact hg.2 hlocal
        · have hstr : ent.str = b := by simpa using find?_some hent
          rw [Strings.agstrbind, heq, Strings.find_owner hlive, Option.some.injEq] at hb
          have hsame := inj_on_of_nodup_map h.nodup (mem_of_find?_eq_some hent) hmem
            (hstr.trans hb.symm)
          rw [← hid, hsame] at hval
          exact hval hkey
      · intro r ent hent hid
        refine find?_filter_of_find? hent (decide_eq_true ?_)
        rw [hid]
        exact hval
  · rw [Clos.agfreeid, aginternalmapdelete, h.findIsym_str hr]
    refine agmapnametoid_agrees hs hnull (c.strs.agstrfree_agrees r false) ?_
      (fun _ _ hent _ => hent) hi hne
    intro heq
    obtain ⟨-, rfl⟩ | ⟨hg, -⟩ := hname
    · rw [Strings.agstrbind, heq, Strings.find_owner hr, Option.some.injEq] at hb
      rw [hb] at hval
      exact hval rfl
    · rw [← heq] at hglobal
      exact hglobal (head?_of_not_global hg hnull)

/-! ## Reserving a name -/

/-- An identifier that an object has stays one while no string goes. -/
theorem Clos.HoldsId.agrees (h : c.HoldsId id)
    (hagree : Strings.Agrees (fun _ => True) c.strs c'.strs) : c'.HoldsId id := by
  obtain ⟨k, rfl⟩ | ⟨r, rfl, hr, hglobal⟩ := h
  · exact .inl ⟨k, rfl⟩
  · refine .inr ⟨r, rfl, hagree.live hr trivial, ?_⟩
    rw [hagree.owner r hr]
    exact hglobal

theorem Clos.Sound.agstrdup (h : c.Sound place) (hnext : Allocates place c.strs) (s : CharPtr) :
    ({ c with strs := (c.strs.agstrdup s).2 } : Clos).Sound place := by
  have hagree := h.placed.dup_agrees (c.strs.text s, c.strs.kind s)
  refine ⟨h.placed.dup hnext _, fun ent hent => ?_, h.nodup⟩
  obtain ⟨hodd, hlive, hlocal⟩ := h.imap ent hent
  refine ⟨hodd, hagree.live hlive trivial, ?_⟩
  show ((c.strs.dup _).2.owner ent.str).1.head? = _
  rw [hagree.owner _ hlive]
  exact hlocal

/-- A second call with `createflag` gives a name its identifier: a global name is duplicated, and a
local one has its identifier already. -/
theorem Clos.Sound.reserve (h : c.Sound place) (hnext : Allocates place c.strs)
    (hs : c.strs.Readable s) (hi : (c.agmapnametoid s false).1 = some i) :
    s ≠ .null ∧ ∃ id c', c.agmapnametoid s true = (some id, c') ∧ c'.Sound place ∧
      Strings.Agrees (fun _ => True) c.strs c'.strs ∧ c'.imap = c.imap ∧ id ≠ .null ∧
      (c'.agmapnametoid s false).1 = some id ∧ (c' = c ↔ ¬ c.Global s) := by
  by_cases hg : c.Global s
  · have hagree := h.placed.dup_agrees (c.strs.text s, c.strs.kind s)
    refine ⟨hg.1, _, _, agmapnametoid_create hg, h.agstrdup hnext s, hagree, rfl, nofun, ?_,
      iff_of_false (fun heq => ?_) (not_not.2 hg)⟩
    · obtain ⟨htext, hkind⟩ := hagree.text_kind hs
      have hg' : ({ c with strs := (c.strs.agstrdup s).2 } : Clos).Global s := by
        rw [Global, Strings.agstrdup, htext]
        exact hg
      rw [agmapnametoid_global hg', Strings.agstrbind, Strings.agstrdup, htext, hkind,
        Strings.find_dup]
      rfl
    · exact Strings.dup_ne _ _ (congrArg Clos.strs heq)
  · have hnull : s ≠ .null := by
      rintro rfl
      rw [agmapnametoid, if_neg hg, if_pos rfl] at hi
      cases hi
    rw [agmapnametoid_local hg hnull] at hi
    refine ⟨hnull, i, c, agmapnametoid_found hg hnull hi true, h, ⟨fun _ _ => rfl,
      fun _ _ _ h => h⟩, rfl, ?_, by rw [agmapnametoid_local hg hnull, hi],
      iff_of_true rfl hg⟩
    obtain ⟨r, ent, -, hent, rfl⟩ := aginternalmaplookup_eq_some.1 hi
    obtain ⟨⟨k, hk⟩, -⟩ := h.imap ent (mem_of_find?_eq_some hent)
    rw [hk]
    nofun

/-- The name of an object can be read. -/
theorem Clos.Sound.readable_agnameof (h : c.Sound place) (hid : c.HoldsId id) :
    c.strs.Readable (c.agnameof place id) ∧ c.agnameof place id ≠ .null := by
  unfold agnameof aginternalmapprint
  cases hsym : c.findIsym place id with
  | some isym =>
    refine ⟨fun r hr => ?_, nofun⟩
    cases hr
    exact (h.imap isym (mem_of_find?_eq_some hsym)).2.1
  | none =>
    obtain ⟨k, rfl⟩ | ⟨r, rfl, hr, -⟩ := hid
    · exact ⟨nofun, nofun⟩
    · exact ⟨fun a ha => CharPtr.entry.inj ha ▸ hr, nofun⟩

/-! ## Creating and freeing an identifier -/

/-- What a call with `createflag` does: no string goes, what names stand for stays so, and the name
that is given stands for the identifier. -/
structure Clos.Creates (place : ℕ → ℕ) (c : Clos) (s : CharPtr) (id : IdValue) (c' : Clos) :
    Prop where
  sound : c'.Sound place
  strs : Strings.Agrees (fun _ => True) c.strs c'.strs
  live : ∀ r, c'.strs.Live r → c.strs.Live r ∨ r = c.strs.allocs
  count : ∀ a, c.strs.count a ≤ c'.strs.count a
  imap : ∀ ent ∈ c'.imap, ent ∈ c.imap ∨ ent.id = id
  find : ∀ r ent, c.imap.find? (fun sym => sym.str = r) = some ent →
    c'.imap.find? (fun sym => sym.str = r) = some ent
  holds : c'.HoldsId id
  resolves : (c'.agmapnametoid s false).1 = some id

theorem Strings.count_le_dup : ∀ b, st.count b ≤ (st.dup a).2.count b := by
  intro b
  by_cases h : 0 < st.count a
  · rw [Strings.dup_of_pos h]
    by_cases hab : b = a
    · simp [hab]
    · simp [update_of_ne hab]
  · rw [Strings.dup_of_zero h]
    by_cases hab : b = a
    · simp [hab, Nat.eq_zero_of_not_pos h]
    · simp [update_of_ne hab]

theorem Clos.HoldsId.ne_null (h : c.HoldsId id) : id ≠ .null := by
  obtain ⟨k, rfl⟩ | ⟨r, rfl, -⟩ := h
  · nofun
  · nofun

/-- Every name can be given an identifier. -/
theorem Clos.Sound.create (h : c.Sound place) (hnext : Allocates place c.strs)
    (hs : c.strs.Readable s) (hnull : s ≠ .null) :
    ∃ id c', c.agmapnametoid s true = (some id, c') ∧ Clos.Creates place c s id c' := by
  have hagree := h.placed.dup_agrees (c.strs.text s, c.strs.kind s)
  obtain ⟨htext, hkind⟩ := hagree.text_kind hs
  have howner := h.placed.owner_dup_self (c.strs.text s, c.strs.kind s)
  have hbind : (c.strs.dup (c.strs.text s, c.strs.kind s)).2.agstrbind s =
      some (c.strs.dup (c.strs.text s, c.strs.kind s)).1 := by
    rw [Strings.agstrbind, htext, hkind]
    exact c.strs.find_dup _
  have hlive : (c.strs.dup (c.strs.text s, c.strs.kind s)).2.Live
      (c.strs.dup (c.strs.text s, c.strs.kind s)).1 := by
    rw [Strings.Live, howner]
    exact ⟨Strings.count_dup.2 (.inl rfl), Strings.ptr_dup_self⟩
  by_cases hg : c.Global s
  · have hg' : ({ c with strs := (c.strs.agstrdup s).2 } : Clos).Global s := by
      rw [Global, Strings.agstrdup, htext]
      exact hg
    refine ⟨_, _, agmapnametoid_create hg, h.agstrdup hnext s, hagree,
      fun r hr => Strings.live_dup hr, Strings.count_le_dup, fun ent hent => .inl hent,
      fun r ent hent => hent, ?_, ?_⟩
    · refine .inr ⟨_, rfl, hlive, ?_⟩
      show ((c.strs.dup _).2.owner (c.strs.dup _).1).1.head? ≠ _
      rw [howner]
      exact hg.2
    · rw [agmapnametoid_global hg', Option.some.injEq]
      show ((c.strs.dup _).2.agstrbind s).elim _ _ = _
      rw [hbind]
      rfl
  · have hlocal := head?_of_not_global hg hnull
    cases hlook : c.aginternalmaplookup s with
    | some id =>
      obtain ⟨r, ent, -, hent, rfl⟩ := aginternalmaplookup_eq_some.1 hlook
      obtain ⟨hodd, -⟩ := h.imap ent (mem_of_find?_eq_some hent)
      refine ⟨ent.id, c, agmapnametoid_found hg hnull hlook true, h, ⟨fun _ _ => rfl,
        fun _ _ _ h => h⟩, fun r hr => .inl hr, fun _ => le_refl _,
        fun ent hent => .inl hent, fun r ent hent => hent, .inl hodd, ?_⟩
      rw [agmapnametoid_local hg hnull, hlook]
    | none =>
      have hfresh : ∀ ent ∈ c.imap,
          ent.str ≠ (c.strs.dup (c.strs.text s, c.strs.kind s)).1 := by
        intro ent hent heq
        have hown := hagree.owner _ (h.imap ent hent).2.1
        rw [heq, howner] at hown
        have hb : c.strs.agstrbind s = some ent.str := by
          rw [Strings.agstrbind, hown, ← heq]
          exact Strings.find_owner (h.imap ent hent).2.1
        have hno := hlook
        rw [aginternalmaplookup, hb, Option.map_eq_none_iff] at hno
        simpa using find?_eq_none.1 hno ent hent
      have hcreate : c.agmapnametoid s true = (some (.odd c.counter),
          ({ c with counter := c.counter + 1 } : Clos).aginternalmapinsert s (.odd c.counter)) := by
        rw [agmapnametoid, if_neg hg, if_neg hnull, hlook]
        exact congrArg (Prod.mk _) (if_neg hnull)
      have hsound : (({ c with counter := c.counter + 1 } : Clos).aginternalmapinsert s
          (.odd c.counter)).Sound place := by
        refine ⟨h.placed.dup hnext _, fun ent hent => ?_, ?_⟩
        · obtain rfl | hent := mem_cons.1 hent
          · refine ⟨⟨_, rfl⟩, hlive, ?_⟩
            show ((c.strs.dup _).2.owner (c.strs.dup _).1).1.head? = _
            rw [howner]
            exact hlocal
          · exact (h.agstrdup hnext s).imap ent hent
        · refine nodup_cons.2 ⟨fun hmem => ?_, h.nodup⟩
          obtain ⟨ent, hent, heq⟩ := mem_map.1 hmem
          exact hfresh ent hent heq
      refine ⟨_, _, hcreate, hsound, hagree, fun r hr => Strings.live_dup hr,
        Strings.count_le_dup, fun ent hent => ?_, fun r ent hent => ?_, .inl ⟨_, rfl⟩, ?_⟩
      · obtain rfl | hent := mem_cons.1 hent
        · exact .inr rfl
        · exact .inl hent
      · have hstr : ent.str = r := by simpa using find?_some hent
        have hne := hfresh ent (mem_of_find?_eq_some hent)
        refine (find?_cons_of_neg fun heq => ?_).trans hent
        rw [← hstr, decide_eq_true_eq] at heq
        exact hne heq.symm
      · have hg' : ¬ (({ c with counter := c.counter + 1 } : Clos).aginternalmapinsert s
            (.odd c.counter)).Global s := by
          rw [Global]
          show ¬ (s ≠ .null ∧ ((c.strs.dup _).2.text s).head? ≠ _)
          rw [htext]
          exact hg
        rw [agmapnametoid_local hg' hnull]
        exact aginternalmaplookup_eq_some.2
          ⟨_, ⟨.odd c.counter, _⟩, hbind, find?_cons_of_pos (decide_eq_true rfl), rfl⟩

theorem Strings.find_of_free {b : Ident} (h : (st.free a).find b = some r) :
    st.find b = some r := by
  obtain ⟨hpos, hptr⟩ := Strings.find_eq_some.1 h
  refine Strings.find_eq_some.2 ⟨?_, hptr⟩
  by_cases hab : b = a
  · subst hab
    simp only [Strings.free, update_self] at hpos
    omega
  · simpa only [Strings.free, update_of_ne hab] using hpos

/-- A string that has been taken twice is still there when it is freed. -/
theorem Strings.agstrfree_agrees_of_two (h : 2 ≤ st.count (st.owner r)) (is_html : Bool) :
    Strings.Agrees (fun _ => True) st (st.agstrfree r is_html) := by
  rw [Strings.agstrfree]
  split
  · refine ⟨fun _ _ => rfl, fun b r' _ hb => ?_⟩
    by_cases hab : b = st.owner r
    · subst hab
      obtain ⟨-, hptr⟩ := Strings.find_eq_some.1 hb
      refine Strings.find_eq_some.2 ⟨?_, hptr⟩
      simp only [Strings.free, update_self]
      omega
    · exact (st.free_agrees _).find b r' hab hb
  · exact ⟨fun _ _ => rfl, fun _ _ _ h => h⟩

/-- What freeing an identifier frees: nothing, or the string of the name. -/
theorem Clos.Sound.agfreeid_eq (h : c.Sound place) (hold : c.HoldsId old) :
    c.agfreeid place old = c ∨ ∃ r imap, c.agfreeid place old =
        { c with strs := c.strs.agstrfree r false, imap } ∧ imap.Sublist c.imap ∧
      (old = .str r ∨ ∃ isym ∈ c.imap, isym.str = r ∧ isym.id.val place = old.val place) := by
  obtain ⟨k, rfl⟩ | ⟨r, rfl, hr, -⟩ := hold
  · cases hsym : c.findIsym place (.odd k) with
    | none =>
      rw [Clos.agfreeid, aginternalmapdelete, hsym]
      exact .inl rfl
    | some isym =>
      rw [Clos.agfreeid, aginternalmapdelete, hsym]
      exact .inr ⟨isym.str, _, rfl, filter_sublist, .inr ⟨isym,
        mem_of_find?_eq_some hsym, rfl, by simpa using find?_some hsym⟩⟩
  · rw [Clos.agfreeid, aginternalmapdelete, h.findIsym_str hr]
    exact .inr ⟨r, c.imap, rfl, List.Sublist.refl _, .inl rfl⟩

/-- In a list of distinct strings the first entry of a string is the only one. -/
theorem find?_str_of_sublist {l l' : List IMapEntry} (hnodup : (l.map IMapEntry.str).Nodup)
    (hsub : l'.Sublist l) {ent : IMapEntry} (h : l'.find? (fun sym => sym.str = r) = some ent) :
    l.find? (fun sym => sym.str = r) = some ent := by
  have hmem := hsub.mem (mem_of_find?_eq_some h)
  have hstr : ent.str = r := by simpa using find?_some h
  cases hfind : l.find? (fun sym => sym.str = r) with
  | none => simpa [hstr] using find?_eq_none.1 hfind ent hmem
  | some ent' =>
    have hstr' : ent'.str = r := by simpa using find?_some hfind
    rw [inj_on_of_nodup_map hnodup (mem_of_find?_eq_some hfind) hmem (hstr'.trans hstr.symm)]

/-- After an identifier has been freed a name stands for what it did, or for nothing. -/
theorem Clos.Sound.agmapnametoid_agfreeid (h : c.Sound place) (hold : c.HoldsId old)
    (hi : ((c.agfreeid place old).agmapnametoid s false).1 = some i) :
    i = .null ∨ (c.agmapnametoid s false).1 = some i := by
  obtain heq | ⟨r, imap, heq, hsub, -⟩ := h.agfreeid_eq hold
  · rw [heq] at hi
    exact .inr hi
  · rw [heq] at hi
    have howner : (c.strs.agstrfree r false).owner = c.strs.owner := by
      rw [Strings.agstrfree]
      split <;> rfl
    have hfind : ∀ a r', (c.strs.agstrfree r false).find a = some r' →
        c.strs.find a = some r' := by
      intro a r' ha
      rw [Strings.agstrfree] at ha
      split at ha
      · exact Strings.find_of_free ha
      · exact ha
    have htext : ∀ s, (c.strs.agstrfree r false).text s = c.strs.text s ∧
        (c.strs.agstrfree r false).kind s = c.strs.kind s := by
      intro s
      cases s with
      | entry r' => exact ⟨congrArg Prod.fst (congrFun howner r'),
          congrArg Prod.snd (congrFun howner r')⟩
      | null | other t => exact ⟨rfl, rfl⟩
    have hbind : ∀ r', (c.strs.agstrfree r false).agstrbind s = some r' →
        c.strs.agstrbind s = some r' := by
      intro r' hr'
      rw [Strings.agstrbind, (htext s).1, (htext s).2] at hr'
      exact hfind _ _ hr'
    have hglobal : ({ c with strs := c.strs.agstrfree r false, imap } : Clos).Global s ↔
        c.Global s := by
      rw [Global, Global, (htext s).1]
    by_cases hg : c.Global s
    · rw [agmapnametoid_global (hglobal.2 hg), Option.some.injEq] at hi
      rw [agmapnametoid_global hg]
      cases hb : (c.strs.agstrfree r false).agstrbind s with
      | none =>
        rw [hb] at hi
        exact .inl hi.symm
      | some r' =>
        rw [hb] at hi
        rw [hbind r' hb, ← hi]
        exact .inr rfl
    · by_cases hnull : s = .null
      · rw [agmapnametoid, if_neg (mt hglobal.1 hg), if_pos hnull] at hi
        cases hi
      · rw [agmapnametoid_local (mt hglobal.1 hg) hnull] at hi
        rw [agmapnametoid_local hg hnull]
        obtain ⟨r', ent, hb, hent, hid⟩ := aginternalmaplookup_eq_some.1 hi
        exact .inr (aginternalmaplookup_eq_some.2
          ⟨r', ent, hbind r' hb, find?_str_of_sublist h.nodup hsub hent, hid⟩)

end Graphviz
