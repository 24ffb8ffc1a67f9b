import Graphviz.Library.RingBuffer
import Mathlib

/-!
# Hash tables with open addressing

The items lie in slots. The search for a key goes from the slot of its hash on, past slots with
other items and past the tombstones that removed items leave, and ends at the key or at an empty
slot. A table that fills up is copied, item by item, to one with twice as many slots. Beside the
slots a table keeps a summary of the items that it has been given, made anew when it is copied.

`Holds` relates a table to the list of its items; each operation is specified by what it does to
that list.
-/

namespace OpenAddressing

open List Nat

universe u

/-- What a slot holds. -/
inductive Slot (α : Type u) where
  | empty
  | tombstone
  | item (a : α)
  deriving DecidableEq

/-- The item of a slot. -/
def Slot.item? {α : Type u} : Slot α → Option α
  | .item a => some a
  | _ => none

/-- How a table treats its items: their keys, the hashes of keys, and the summary. -/
structure Config (α κ ε : Type u) where
  key : α → κ
  hash : κ → ℕ
  /-- The summary of no item. -/
  init : ε
  /-- The summary after one more item. -/
  note : ε → α → ε
  /-- What a summary tells of an item it has been given. -/
  Covers : ε → α → Prop
  covers_note : ∀ e a, Covers (note e a) a
  covers_keep : ∀ e a b, Covers e b → Covers (note e a) b

/-- A table. It has `2 ^ capacity_exp` slots once the first item has been added. -/
structure Table (α ε : Type u) where
  slots : List (Slot α)
  size : ℕ
  capacity_exp : ℕ
  summary : ε

/-- How an operation fails: an assertion that a slot is free, or that an item is there to be
removed, a search for a free slot in vain, and a copy that would have to grow itself. -/
inductive Failure where
  | full
  | noItem
  | noSlot
  | deep
  deriving DecidableEq, Repr

variable {α κ ε : Type u} (c : Config α κ ε)

/-! ## The operations -/

/-- The table without slots. -/
def Table.new : Table α ε := { slots := [], size := 0, capacity_exp := 0, summary := c.init }

/-- The number of slots. -/
def Table.capacity (t : Table α ε) : ℕ := if t.slots.isEmpty then 0 else 2 ^ t.capacity_exp

/-- The items, in the order of the slots. -/
def items (slots : List (Slot α)) : List α := slots.filterMap Slot.item?

/-- The first slot without an item, with `n` slots to go from the one `i` places after that of
the hash. -/
def freeLoop (slots : List (Slot α)) (capacity h : ℕ) : ℕ → ℕ → Option ℕ
  | 0, _ => none
  | n + 1, i =>
    match slots[(h + i) % capacity]? with
    | some (.item _) => freeLoop slots capacity h n (i + 1)
    | _ => some ((h + i) % capacity)

/-- Puts an item into a table that has room. -/
def Table.place (t : Table α ε) (a : α) : Except Failure (Table α ε) :=
  let t := { t with summary := c.note t.summary a }
  if t.capacity > t.size then
    match freeLoop t.slots t.capacity (c.hash (c.key a)) t.capacity 0 with
    | some j => .ok { t with slots := t.slots.set j (.item a), size := t.size + 1 }
    | none => .error .noSlot
  else .error .full

/-- A table is to grow when it is seven tenths full. -/
def Table.mustGrow (t : Table α ε) : Bool := 100 * t.size ≥ 70 * t.capacity

/-- A table without items that has twice as many slots, or as many as the first one has. -/
def Table.larger (t : Table α ε) : Table α ε :=
  let new_c := if t.capacity = 0 then 10 else t.capacity_exp + 1
  { slots := replicate (2 ^ new_c) .empty, size := 0, capacity_exp := new_c,
    summary := c.init }

/-- Adds an item, by an addition for the copies that is itself to `depth` levels. -/
def Table.addDepth : ℕ → Table α ε → α → Except Failure (Table α ε)
  | 0, _, _ => .error .deep
  | depth + 1, t, a => do
    let t ←
      if t.mustGrow then (items t.slots).foldlM (Table.addDepth depth) (t.larger c) else .ok t
    t.place c a

/-- Adds an item. No copy grows while it is made. -/
def Table.add (t : Table α ε) (a : α) : Except Failure (Table α ε) := t.addDepth c 2 a

section Find

variable [DecidableEq κ]

/-- The slot and the item at which the search for a key ends, with `n` slots to go. -/
def findLoop (slots : List (Slot α)) (capacity : ℕ) (k : κ) : ℕ → ℕ → Option (ℕ × α)
  | 0, _ => none
  | n + 1, i =>
    match slots[(c.hash k + i) % capacity]? with
    | some (.item a) =>
      if c.key a = k then some ((c.hash k + i) % capacity, a)
      else findLoop slots capacity k n (i + 1)
    | some .tombstone => findLoop slots capacity k n (i + 1)
    | _ => none

/-- The item with a key, with its slot. -/
def Table.find (t : Table α ε) (k : κ) : Option (ℕ × α) :=
  findLoop c t.slots t.capacity k t.capacity 0

/-- Removes the item with a key. -/
def Table.remove (t : Table α ε) (k : κ) : Except Failure (Table α ε) :=
  match t.find c k with
  | some (j, _) =>
    if t.size > 0 then .ok { t with slots := t.slots.set j .tombstone, size := t.size - 1 }
    else .error .noItem
  | none => .ok t

end Find

/-! ## Tables and their items -/

/-- An item can be found: no slot before its own is empty on the way from the slot of its hash. -/
def Reached (slots : List (Slot α)) (j : ℕ) (a : α) : Prop :=
  ∃ i < slots.length, (c.hash (c.key a) + i) % slots.length = j ∧
    ∀ i' < i, ∃ s, slots[(c.hash (c.key a) + i') % slots.length]? = some s ∧ s ≠ .empty

/-- The table holds the items of the list, whose keys are distinct, each where a search finds
it. -/
structure Holds (t : Table α ε) (l : List α) : Prop where
  capacity : t.capacity = t.slots.length
  perm : (items t.slots).Perm l
  size : t.size = l.length
  nodup : (l.map c.key).Nodup
  reach : ∀ j a, t.slots[j]? = some (.item a) → Reached c t.slots j a
  covered : ∀ a ∈ l, c.Covers t.summary a

variable {c} {t : Table α ε} {l l' : List α} {slots : List (Slot α)} {a b : α} {k : κ} {n i j h : ℕ}

theorem mem_items : a ∈ items slots ↔ ∃ j : ℕ, slots[j]? = some (Slot.item a) := by
  rw [items, mem_filterMap]
  constructor
  · rintro ⟨s, hs, ha⟩
    obtain ⟨j, hj⟩ := mem_iff_getElem?.1 hs
    cases s with
    | item b => cases ha; exact ⟨j, hj⟩
    | empty | tombstone => cases ha
  · rintro ⟨j, hj⟩
    exact ⟨_, mem_iff_getElem?.2 ⟨j, hj⟩, rfl⟩

/-- The slots around one of them. -/
theorem split_slot {s : Slot α} (hj : slots[j]? = some s) : ∃ l₁ l₂, slots = l₁ ++ s :: l₂ ∧
    ∀ s', slots.set j s' = l₁ ++ s' :: l₂ := by
  obtain ⟨hlt, rfl⟩ := List.getElem?_eq_some_iff.1 hj
  refine ⟨slots.take j, slots.drop (j + 1), ?_, fun s' => ?_⟩
  · rw [getElem_cons_drop, take_append_drop]
  · exact set_eq_take_append_cons_drop .. |>.trans (if_pos hlt)

theorem items_append {l₁ l₂ : List (Slot α)} : items (l₁ ++ l₂) = items l₁ ++ items l₂ :=
  filterMap_append

/-- A slot without an item adds none. -/
theorem items_cons_none {s : Slot α} (hs : s.item? = none) : items (s :: slots) = items slots := by
  rw [items, filterMap_cons, hs]; rfl

/-- Only the number of items, not their order, is kept. -/
theorem Holds.of_perm (ht : Holds c t l) (hl : l.Perm l') : Holds c t l' where
  capacity := ht.capacity
  perm := ht.perm.trans hl
  size := ht.size.trans hl.length_eq
  nodup := (hl.map c.key).nodup_iff.1 ht.nodup
  reach := ht.reach
  covered := fun a ha => ht.covered a (hl.mem_iff.2 ha)

/-- Only the keys and the hashes of the items count. -/
theorem Holds.congr {c' : Config α κ ε} (ht : Holds c t l) (hkey : ∀ a ∈ l, c'.key a = c.key a)
    (hhash : c'.hash = c.hash) (hcov : ∀ a ∈ l, c.Covers t.summary a → c'.Covers t.summary a) :
    Holds c' t l where
  capacity := ht.capacity
  perm := ht.perm
  size := ht.size
  nodup := by
    rw [map_congr_left hkey]
    exact ht.nodup
  reach := by
    intro j a hj
    have ha : a ∈ l := ht.perm.mem_iff.1 (mem_items.2 ⟨j, hj⟩)
    rw [Reached, hkey a ha, hhash]
    exact ht.reach j a hj
  covered := fun a ha => hcov a ha (ht.covered a ha)

theorem holds_new : Holds c (Table.new c) [] where
  capacity := rfl
  perm := Perm.nil
  size := rfl
  nodup := nodup_nil
  reach := nofun
  covered := nofun

theorem items_replicate : items (replicate n (Slot.empty : Slot α)) = [] := by
  induction n with
  | zero => rfl
  | succ n ih => rw [replicate_succ, items, filterMap_cons, ← items, ih]; rfl

theorem capacity_larger :
    (t.larger c).capacity = 2 ^ (if t.capacity = 0 then 10 else t.capacity_exp + 1) := by
  have hne : (t.larger c).slots.isEmpty = false := by
    rw [Table.larger, isEmpty_replicate, decide_eq_false_iff_not]
    exact Nat.ne_of_gt (Nat.two_pow_pos _)
  rw [Table.capacity, if_neg (by rw [hne]; exact Bool.false_ne_true)]
  rfl

theorem holds_larger : Holds c (t.larger c) [] where
  capacity := by rw [capacity_larger, Table.larger, length_replicate]
  perm := by rw [Table.larger, items_replicate]
  size := rfl
  nodup := nodup_nil
  reach := by
    intro j a hj
    have hmem : (Slot.item a) ∈ replicate _ Slot.empty := mem_iff_getElem?.2 ⟨j, hj⟩
    cases eq_of_mem_replicate hmem
  covered := nofun

/-- There are at least as many slots as items. -/
theorem length_items_le : (items slots).length ≤ slots.length := length_filterMap_le _ _

/-! ## Searching -/

/-- A search comes by every slot. -/
theorem exists_offset (hj : j < n) : ∃ i < n, (h + i) % n = j := by
  have hr : h % n < n := mod_lt _ (by omega)
  have hwrap : ∀ i, (h + i) % n = (h % n + i) % n := fun i => (mod_add_mod h n i).symm
  obtain hlt | hge := lt_or_ge j (h % n)
  · have hcases := RingBuffer.add_mod_cases (i := j + n - h % n) hr (by omega)
    exact ⟨j + n - h % n, by omega, by rw [hwrap]; omega⟩
  · have hcases := RingBuffer.add_mod_cases (i := j - h % n) hr (by omega)
    exact ⟨j - h % n, by omega, by rw [hwrap]; omega⟩

/-- The search for a free slot passes items only. -/
theorem freeLoop_some {cap : ℕ} (hf : freeLoop slots cap h n i = some j) :
    ∃ m, i ≤ m ∧ m < i + n ∧ (h + m) % cap = j ∧ (∀ a, slots[j]? ≠ some (.item a)) ∧
      ∀ m', i ≤ m' → m' < m → ∃ a, slots[(h + m') % cap]? = some (.item a) := by
  induction n generalizing i with
  | zero => cases hf
  | succ n ih =>
    rw [freeLoop] at hf
    split at hf
    · rename_i b hb
      obtain ⟨m, him, hmn, hj, hfree, hpass⟩ := ih hf
      refine ⟨m, by omega, by omega, hj, hfree, fun m' him' hm' => ?_⟩
      obtain rfl | hlt := eq_or_lt_of_le him'
      · exact ⟨b, hb⟩
      · exact hpass m' hlt hm'
    · rename_i hno
      cases hf
      exact ⟨i, le_refl _, by omega, rfl, hno, fun m' h1 h2 => by omega⟩

theorem freeLoop_none {cap : ℕ} (hf : freeLoop slots cap h n i = none) :
    ∀ m, i ≤ m → m < i + n → ∃ a, slots[(h + m) % cap]? = some (.item a) := by
  induction n generalizing i with
  | zero => intro m h1 h2; omega
  | succ n ih =>
    intro m him hmn
    rw [freeLoop] at hf
    split at hf
    · rename_i b hb
      obtain rfl | hlt := eq_or_lt_of_le him
      · exact ⟨b, hb⟩
      · exact ih hf m hlt (by omega)
    · cases hf

/-- Slots with an item each have as many items. -/
theorem length_items_eq (hall : ∀ s ∈ slots, ∃ a, s = Slot.item a) :
    (items slots).length = slots.length := by
  induction slots with
  | nil => rfl
  | cons s slots ih =>
    obtain ⟨a, rfl⟩ := hall s mem_cons_self
    have hrest := ih fun s hs => hall s (mem_cons_of_mem _ hs)
    rw [items, filterMap_cons, ← items]
    simp only [Slot.item?, length_cons, hrest]

/-- A search for a free slot finds one where items are fewer than slots. -/
theorem freeLoop_ne_none (hlen : (items slots).length < slots.length) :
    freeLoop slots slots.length h slots.length 0 ≠ none := by
  intro hf
  refine hlen.ne (length_items_eq fun s hs => ?_)
  obtain ⟨j, hj⟩ := mem_iff_getElem?.1 hs
  obtain ⟨i, hi, rfl⟩ := exists_offset (h := h) (List.getElem?_eq_some_iff.1 hj).1
  obtain ⟨a, ha⟩ := freeLoop_none hf i (zero_le _) (by omega)
  exact ⟨a, Option.some.inj (hj.symm.trans ha)⟩

section Find

variable [DecidableEq κ]

/-- What a search finds is an item with the key. -/
theorem findLoop_some {cap : ℕ} (hf : findLoop c slots cap k n i = some (j, a)) :
    slots[j]? = some (.item a) ∧ c.key a = k := by
  induction n generalizing i with
  | zero => cases hf
  | succ n ih =>
    rw [findLoop] at hf
    split at hf
    · rename_i b hb
      split at hf
      · rename_i hk
        cases hf
        exact ⟨hb, hk⟩
      · exact ih hf
    · exact ih hf
    · cases hf

/-- A search that finds nothing meets an empty slot before any item with the key. -/
theorem findLoop_none {cap : ℕ} (hf : findLoop c slots cap k n i = none) (hc : c.key a = k)
    {m : ℕ} (him : i ≤ m) (hm : m < i + n) (ha : slots[(c.hash k + m) % cap]? = some (.item a)) :
    ∃ m' < m, ∀ s, slots[(c.hash k + m') % cap]? = some s → s = .empty := by
  induction n generalizing i with
  | zero => omega
  | succ n ih =>
    rw [findLoop] at hf
    obtain rfl | hlt := eq_or_lt_of_le him
    · rw [ha] at hf
      simp only [hc, if_pos, reduceCtorEq] at hf
    · split at hf
      · split at hf
        · cases hf
        · exact ih hf hlt (by omega)
      · exact ih hf hlt (by omega)
      · rename_i hitem htomb
        refine ⟨i, hlt, fun s hs => ?_⟩
        cases s with
        | empty => rfl
        | tombstone => exact absurd hs htomb
        | item b => exact absurd hs (hitem b)

/-- A search that finds an item has passed no empty slot. -/
theorem findLoop_path {cap : ℕ} (hf : findLoop c slots cap k n i = some (j, a)) :
    ∃ m, i ≤ m ∧ m < i + n ∧ (c.hash k + m) % cap = j ∧
      ∀ m', i ≤ m' → m' < m → ∃ s, slots[(c.hash k + m') % cap]? = some s ∧ s ≠ .empty := by
  induction n generalizing i with
  | zero => cases hf
  | succ n ih =>
    have hnext : ∀ s : Slot α, slots[(c.hash k + i) % cap]? = some s → s ≠ .empty →
        findLoop c slots cap k n (i + 1) = some (j, a) →
        ∃ m, i ≤ m ∧ m < i + (n + 1) ∧ (c.hash k + m) % cap = j ∧
          ∀ m', i ≤ m' → m' < m → ∃ s, slots[(c.hash k + m') % cap]? = some s ∧ s ≠ .empty := by
      intro s hs hne hf
      obtain ⟨m, him, hmn, hj, hpass⟩ := ih hf
      refine ⟨m, by omega, by omega, hj, fun m' him' hm' => ?_⟩
      obtain rfl | hlt := eq_or_lt_of_le him'
      · exact ⟨s, hs, hne⟩
      · exact hpass m' hlt hm'
    rw [findLoop] at hf
    split at hf
    · rename_i b hb
      split at hf
      · cases hf
        exact ⟨i, le_refl _, by omega, rfl, fun m' h1 h2 => by omega⟩
      · exact hnext _ hb nofun hf
    · rename_i htomb
      exact hnext _ htomb nofun hf
    · cases hf

/-- A search for the key of an item that can be found finds some item with the key. -/
theorem exists_find_of_reached (hcap : t.capacity = t.slots.length)
    (hj : t.slots[j]? = some (.item a)) (hr : Reached c t.slots j a) :
    ∃ r, t.find c (c.key a) = some r := by
  obtain ⟨i, hi, hij, hpass⟩ := hr
  cases hf : t.find c (c.key a) with
  | none =>
    rw [Table.find, hcap] at hf
    obtain ⟨m, hm, hempty⟩ := findLoop_none hf rfl (zero_le i) (by omega) (by rw [hij, hj])
    obtain ⟨s, hs, hne⟩ := hpass m hm
    exact absurd (hempty s hs) hne
  | some r => exact ⟨r, rfl⟩

/-- An item that no other item shares its key with is found exactly if it can be found. -/
theorem find_iff_reached (hcap : t.capacity = t.slots.length)
    (honly : ∀ b ∈ items t.slots, c.key b = c.key a → b = a) :
    (t.find c (c.key a)).map Prod.snd = some a ↔
      ∃ j, t.slots[j]? = some (.item a) ∧ Reached c t.slots j a := by
  constructor
  · intro hf
    obtain ⟨⟨j, b⟩, hfind, hb⟩ := Option.map_eq_some_iff.1 hf
    obtain rfl : b = a := hb
    obtain ⟨hj, -⟩ := findLoop_some hfind
    rw [Table.find, hcap] at hfind
    obtain ⟨m, -, hm, hmj, hpass⟩ := findLoop_path hfind
    exact ⟨j, hj, m, by omega, hmj, fun m' hm' => hpass m' (zero_le _) hm'⟩
  · rintro ⟨j, hj, hr⟩
    obtain ⟨⟨j', b⟩, hfind⟩ := exists_find_of_reached hcap hj hr
    obtain ⟨hj', hb⟩ := findLoop_some hfind
    rw [hfind, ← honly b (mem_items.2 ⟨j', hj'⟩) hb]
    rfl

/-- Only which items have the key matters to a search. -/
theorem findLoop_congr {c' : Config α κ ε} {cap : ℕ} (hhash : c'.hash k = c.hash k)
    (hkey : ∀ b ∈ items slots, (c'.key b = k ↔ c.key b = k)) :
    findLoop c' slots cap k n i = findLoop c slots cap k n i := by
  induction n generalizing i with
  | zero => rfl
  | succ n ih =>
    rw [findLoop, findLoop, hhash]
    split
    · rename_i b hb
      simp only [hkey b (mem_items.2 ⟨_, hb⟩), ih]
    · exact ih
    · rfl

/-- A search finds the item with a key, and nothing when there is none. -/
theorem Holds.find_eq_some (ht : Holds c t l) :
    (∃ j, t.find c k = some (j, a)) ↔ a ∈ l ∧ c.key a = k := by
  constructor
  · rintro ⟨j, hf⟩
    obtain ⟨hj, hk⟩ := findLoop_some hf
    exact ⟨ht.perm.mem_iff.1 (mem_items.2 ⟨j, hj⟩), hk⟩
  · rintro ⟨ha, rfl⟩
    obtain ⟨j, hj⟩ := mem_items.1 (ht.perm.mem_iff.2 ha)
    obtain ⟨⟨j', b⟩, hf⟩ := exists_find_of_reached ht.capacity hj (ht.reach j a hj)
    obtain ⟨hj', hb⟩ := findLoop_some hf
    have hmem : b ∈ l := ht.perm.mem_iff.1 (mem_items.2 ⟨j', hj'⟩)
    have hab : b = a := inj_on_of_nodup_map ht.nodup hmem ha hb
    exact ⟨j', by rw [hf, hab]⟩

/-- The item found is the one of the list. -/
theorem Holds.find_eq (ht : Holds c t l) :
    (t.find c k).map Prod.snd = l.find? (fun a => c.key a = k) := by
  cases hf : t.find c k with
  | some r =>
    obtain ⟨hr, hk⟩ := ht.find_eq_some.1 ⟨r.1, hf⟩
    cases hl : l.find? (fun a => c.key a = k) with
    | none => exact absurd hk (by simpa using find?_eq_none.1 hl r.2 hr)
    | some b =>
      have hb : c.key b = k := by simpa using find?_some hl
      rw [inj_on_of_nodup_map ht.nodup (mem_of_find?_eq_some hl) hr (hb.trans hk.symm)]
      rfl
  | none =>
    refine (find?_eq_none.2 fun a ha => ?_).symm
    intro hk
    obtain ⟨j, hj⟩ := ht.find_eq_some.2 ⟨ha, by simpa using hk⟩
    exact absurd (hf.symm.trans hj) nofun

end Find

/-! ## Adding -/

/-- An item can still be found when a slot is filled or marked with a tombstone. -/
theorem Reached.set {s : Slot α} (hr : Reached c slots i a) (hs : s ≠ .empty) :
    Reached c (slots.set j s) i a := by
  obtain ⟨m, hm, hmi, hpass⟩ := hr
  refine ⟨m, by rwa [length_set], by rwa [length_set], fun m' hm' => ?_⟩
  obtain ⟨s', hs', hne⟩ := hpass m' hm'
  rw [length_set]
  by_cases hj : j = (c.hash (c.key a) + m') % slots.length
  · exact ⟨s, by rw [getElem?_set, if_pos hj, if_pos (hj ▸ mod_lt _ (by omega))], hs⟩
  · exact ⟨s', by rw [getElem?_set, if_neg hj, hs'], hne⟩

theorem capacity_set {s : Slot α} {e : ε} :
    ({ t with slots := t.slots.set j s, size := n, summary := e } : Table α ε).capacity =
      t.capacity := by
  simp [Table.capacity]

/-- An item with a new key finds its place where there is room. -/
theorem Holds.place (ht : Holds c t l) (ha : c.key a ∉ l.map c.key) (hroom : t.size < t.capacity) :
    ∃ t', t.place c a = .ok t' ∧ Holds c t' (a :: l) ∧ t'.slots.length = t.slots.length := by
  have hlen : (items t.slots).length < t.slots.length := by
    rw [ht.perm.length_eq, ← ht.size, ← ht.capacity]; exact hroom
  cases hf : freeLoop t.slots t.slots.length (c.hash (c.key a)) t.slots.length 0 with
  | none => exact absurd hf (freeLoop_ne_none hlen)
  | some j =>
    obtain ⟨m, -, hm, hj, hfree, hpass⟩ := freeLoop_some hf
    have hjlt : j < t.slots.length := hj ▸ mod_lt _ (by omega)
    obtain ⟨l1, l2, hsplit, hset⟩ := split_slot (getElem?_eq_getElem hjlt)
    have hnone : (t.slots[j]).item? = none := by
      cases hs : t.slots[j] with
      | item b => exact absurd (by rw [getElem?_eq_getElem hjlt, hs]) (hfree b)
      | empty | tombstone => rfl
    refine ⟨{ t with
        slots := t.slots.set j (.item a), size := t.size + 1, summary := c.note t.summary a },
      ?_, ⟨?_, ?_, ?_, ?_, ?_, ?_⟩, length_set⟩
    · have hcap : ({ t with summary := c.note t.summary a } : Table α ε).capacity =
          t.slots.length := ht.capacity
      simp only [Table.place, hcap, hf]
      rw [if_pos (ht.capacity ▸ hroom)]
    · rw [capacity_set, length_set, ht.capacity]
    · have hold : (items l1 ++ items l2).Perm l := by
        have hperm := ht.perm
        rwa [hsplit, items_append, items_cons_none hnone] at hperm
      rw [hset, items_append]
      exact perm_middle.trans (hold.cons a)
    · exact congrArg (· + 1) ht.size
    · exact nodup_cons.2 ⟨ha, ht.nodup⟩
    · intro i b hi
      rw [getElem?_set] at hi
      split at hi
      · rename_i hji
        cases hi
        subst hji
        refine ⟨m, by rw [length_set]; omega, by rw [length_set, hj], fun m' hm' => ?_⟩
        obtain ⟨b, hb⟩ := hpass m' (zero_le _) hm'
        rw [length_set]
        have hne : j ≠ (c.hash (c.key a) + m') % t.slots.length := fun hjm => hfree b (hjm ▸ hb)
        exact ⟨.item b, by rw [getElem?_set, if_neg hne, hb], nofun⟩
      · exact (ht.reach i b hi).set nofun
    · intro b hb
      cases hb with
      | head => exact c.covers_note t.summary a
      | tail _ hb => exact c.covers_keep t.summary a b (ht.covered b hb)

/-- An addition to a table that need not grow puts the item in its place. -/
theorem addDepth_of_room (hgrow : t.mustGrow = false) : t.addDepth c (n + 1) a = t.place c a := by
  rw [Table.addDepth, hgrow]
  rfl

/-- Items can be copied to a table with twice as many slots, which does not grow by that. -/
theorem Holds.copy {as : List α} (ht : Holds c t l) (has : ((as ++ l).map c.key).Nodup)
    (hroom : 2 * (as.length + l.length) ≤ t.slots.length) :
    ∃ t', as.foldlM (Table.addDepth c (n + 1)) t = .ok t' ∧ Holds c t' (as.reverse ++ l) ∧
      t'.slots.length = t.slots.length := by
  induction as generalizing t l with
  | nil => exact ⟨t, rfl, ht, rfl⟩
  | cons a as ih =>
    rw [length_cons] at hroom
    have hsmall : 2 * t.size < t.capacity := by rw [ht.size, ht.capacity]; omega
    have hgrow : t.mustGrow = false := by
      rw [Table.mustGrow, decide_eq_false_iff_not]; omega
    have hnew : c.key a ∉ l.map c.key := by
      rw [cons_append, map_cons, nodup_cons, map_append] at has
      exact fun h => has.1 (mem_append_right _ h)
    obtain ⟨t1, hplace, ht1, hlen1⟩ := ht.place hnew (by omega)
    have has1 : ((as ++ a :: l).map c.key).Nodup :=
      ((perm_middle.map c.key).nodup_iff).2 has
    obtain ⟨t2, hcopy, ht2, hlen2⟩ := ih ht1 has1 (by rw [hlen1, length_cons]; omega)
    refine ⟨t2, ?_, ?_, hlen2.trans hlen1⟩
    · rw [foldlM_cons, addDepth_of_room hgrow, hplace]
      exact hcopy
    · rw [reverse_cons, append_assoc]
      exact ht2

theorem le_capacity_larger :
    0 < (t.larger c).capacity ∧ 2 * t.capacity ≤ (t.larger c).capacity := by
  rw [capacity_larger]
  refine ⟨Nat.two_pow_pos _, ?_⟩
  split
  · omega
  · rename_i hcap
    rw [Table.capacity] at hcap ⊢
    split <;> rw [Nat.pow_succ] <;> omega

/-- An item with a new key can be added: there is room for it in the table, or in the one that it
grows to. -/
theorem Holds.add (ht : Holds c t l) (ha : c.key a ∉ l.map c.key) :
    ∃ t', t.add c a = .ok t' ∧ Holds c t' (a :: l) := by
  cases hgrow : t.mustGrow with
  | false =>
    have hroom : t.size < t.capacity := by
      rw [Table.mustGrow, decide_eq_false_iff_not] at hgrow; omega
    obtain ⟨t1, hplace, ht1, -⟩ := ht.place ha hroom
    exact ⟨t1, by rw [Table.add, addDepth_of_room hgrow, hplace], ht1⟩
  | true =>
    obtain ⟨hpos, htwice⟩ := le_capacity_larger (c := c) (t := t)
    have hitems : (items t.slots).length ≤ t.capacity := by
      rw [ht.capacity]; exact length_items_le
    have hlarge : (t.larger c).capacity = (t.larger c).slots.length := holds_larger.capacity
    have hnodup : ((items t.slots ++ []).map c.key).Nodup := by
      rw [append_nil]
      exact (ht.perm.map c.key).nodup_iff.2 ht.nodup
    obtain ⟨t1, hcopy, ht1, hlen⟩ := holds_larger.copy (n := 0) hnodup
      (by rw [← hlarge, length_nil]; omega)
    have ht1 : Holds c t1 l := ht1.of_perm <| by
      rw [append_nil]; exact (reverse_perm _).trans ht.perm
    have hroom : t1.size < t1.capacity := by
      rw [ht1.size, ht1.capacity, hlen, ← hlarge, ← ht.perm.length_eq]; omega
    obtain ⟨t2, hplace, ht2, -⟩ := ht1.place ha hroom
    refine ⟨t2, ?_, ht2⟩
    rw [Table.add, Table.addDepth, hgrow, if_pos rfl, hcopy]
    exact hplace

/-! ## Removing -/

/-- A removal leaves the items with other keys. -/
theorem Holds.remove [DecidableEq κ] (ht : Holds c t l) :
    ∃ t', t.remove c k = .ok t' ∧ Holds c t' (l.filter fun a => c.key a ≠ k) := by
  cases hf : t.find c k with
  | none =>
    have hall : l.filter (fun a => c.key a ≠ k) = l := by
      refine filter_eq_self.2 fun a ha => decide_eq_true fun hk => ?_
      obtain ⟨j, hj⟩ := ht.find_eq_some.2 ⟨ha, hk⟩
      exact absurd (hf.symm.trans hj) nofun
    exact ⟨t, by rw [Table.remove, hf], by rwa [hall]⟩
  | some r =>
    obtain ⟨j, a⟩ := r
    obtain ⟨hj, hk⟩ := findLoop_some hf
    obtain ⟨l1, l2, hsplit, hset⟩ := split_slot hj
    have hitems : items t.slots = items l1 ++ a :: items l2 := by
      rw [hsplit, items_append]; rfl
    have hnodup : ((items l1 ++ a :: items l2).map c.key).Nodup := by
      rw [← hitems]; exact (ht.perm.map c.key).nodup_iff.2 ht.nodup
    have hother : ∀ b ∈ items l1 ++ items l2, c.key b ≠ k := by
      intro b hb hbk
      have hmiddle : (items l1 ++ a :: items l2).Perm (a :: (items l1 ++ items l2)) :=
        perm_middle
      have hcons := nodup_cons.1 ((hmiddle.map c.key).nodup_iff.1 hnodup)
      exact hcons.1 (mem_map.2 ⟨b, hb, hbk.trans hk.symm⟩)
    have hrest : (items l1 ++ items l2).Perm (l.filter fun a => c.key a ≠ k) := by
      have hperm := (hitems ▸ ht.perm).filter fun a => decide (c.key a ≠ k)
      rw [filter_append, filter_cons, if_neg (by simp [hk]), ← filter_append,
        filter_eq_self.2 fun b hb => decide_eq_true (hother b hb)] at hperm
      exact hperm
    have hlen := ht.perm.length_eq
    rw [hitems, length_append, length_cons, ← ht.size] at hlen
    refine ⟨{ t with slots := t.slots.set j .tombstone, size := t.size - 1 }, ?_,
      ⟨?_, ?_, ?_, ?_, ?_, ?_⟩⟩
    · rw [Table.remove, hf]
      exact if_pos (by omega)
    · rw [capacity_set, length_set, ht.capacity]
    · rw [hset, items_append]
      exact hrest
    · rw [← hrest.length_eq, length_append]
      show t.size - 1 = _
      omega
    · exact ht.nodup.sublist (filter_sublist.map c.key)
    · intro i b hi
      rw [getElem?_set] at hi
      split at hi
      · split at hi <;> cases hi
      · exact (ht.reach i b hi).set nofun
    · exact fun b hb => ht.covered b (mem_of_mem_filter hb)

end OpenAddressing
