import Mathlib.Data.List.Chain
import Graphviz.Util.Libc

/-!
# Strings in canonical form

`agstrcanon` of `lib/cgraph/write.c`, which quotes a string for output, with what it stores into
the buffer that `agstrcanon_bytes` of `lib/cgraph/agstrcanon.h` gives the size of.
-/

namespace Graphviz

open List Nat

/-! ## The functions -/

/-- `agstrcanon_bytes`. -/
def agstrcanonBytes (str : CStr) : ℕ := 2 * str.length + 2

/-- `is_id_char`. -/
def isIdChar (c : UInt8) : Bool := gv_isalnum c || c == 46 || c == 45 || !isascii c

/-- `is_escape`, of the first two characters of a string. -/
def isEscape (c next : UInt8) : Bool :=
  c == 92 && ([69, 71, 72, 76, 78, 84, 108, 110, 114, 92, 34] : CStr).contains next

/-- The local variables of `_agstrcanon`, with what has been stored into `buf`. -/
structure Canon where
  buf : CStr
  cnt : ℕ
  dotcnt : ℕ
  needs_quotes : Bool
  part_of_escape : Bool
  maybe_num : Bool
  backslash_pending : Bool

/-- The part of the loop of `_agstrcanon` before the character `uc` is stored. -/
def Canon.classify (st : Canon) (uc next : UInt8) : Canon :=
  if uc == 34 && !st.part_of_escape then
    { st with buf := st.buf ++ [92], needs_quotes := true }
  else if !st.part_of_escape && isEscape uc next then
    { st with needs_quotes := true, part_of_escape := true }
  else if st.maybe_num then
    let st :=
      if uc == 45 then
        if st.cnt ≠ 0 then { st with maybe_num := false, needs_quotes := true } else st
      else if uc == 46 then
        if st.dotcnt ≠ 0 then
          { st with dotcnt := st.dotcnt + 1, maybe_num := false, needs_quotes := true }
        else { st with dotcnt := st.dotcnt + 1 }
      else if !gv_isdigit uc then { st with maybe_num := false, needs_quotes := true }
      else st
    { st with part_of_escape := false }
  else if !(gv_isalnum uc || uc == 95 || !isascii uc) then
    { st with needs_quotes := true, part_of_escape := false }
  else { st with part_of_escape := false }

/-- Stores a character. -/
def Canon.store (st : Canon) (uc : UInt8) : Canon :=
  { st with buf := st.buf ++ [uc], cnt := st.cnt + 1 }

/-- Where a line may be broken: after a character that is not of an identifier and no backslash,
before one that is. -/
def breakable (last next : UInt8) : Bool := !(isIdChar last || last == 92) && isIdChar next

/-- Stores a backslash and a line feed. -/
def Canon.breakLine (st : Canon) : Canon :=
  { st with buf := st.buf ++ [92, 10], needs_quotes := true, cnt := 0 }

/-- The part of the loop after `last` has been stored, where a long line is broken. -/
def Canon.wrap (Max_outputline : ℤ) (st : Canon) (last next : UInt8) : Canon :=
  if Max_outputline ≠ 0 then
    if next ≠ 0 && st.backslash_pending && breakable last next then
      { st.breakLine with backslash_pending := false }
    else if next ≠ 0 && st.cnt ≥ Max_outputline then
      if breakable last next then st.breakLine else { st with backslash_pending := true }
    else st
  else st

/-- The loop of `_agstrcanon`. -/
def canonLoop (Max_outputline : ℤ) (st : Canon) : CStr → Canon
  | [] => st
  | uc :: s =>
    let next := s.headD 0
    canonLoop Max_outputline (((st.classify uc next).store uc).wrap Max_outputline uc next) s

/-- The local variables before the loop, whose first character is `uc`. -/
def Canon.init (uc : UInt8) : Canon :=
  { buf := [34], cnt := 0, dotcnt := 0, needs_quotes := false, part_of_escape := false
    maybe_num := gv_isdigit uc || uc == 46 || uc == 45, backslash_pending := false }

/-- `tokenlist`. -/
def tokenlist : List CStr :=
  [lit "node", lit "edge", lit "strict", lit "graph", lit "digraph", lit "subgraph"]

/-- `_agstrcanon`: what it stores into the buffer, and the string it returns. -/
def agstrcanonText (Max_outputline : ℤ) (arg : CStr) : CStr × CStr :=
  if arg.isEmpty then ([], lit "\"\"")
  else
    let st := canonLoop Max_outputline (Canon.init (arg.headD 0)) arg
    let quoted := st.buf ++ [34]
    let result :=
      if st.needs_quotes || (st.cnt == 1 && (arg.head? == some 46 || arg.head? == some 45)) then
        quoted
      else if tokenlist.any fun tok => strcasecmpEq tok arg then quoted
      else arg
    (quoted ++ [0], result)

/-- `agcanonhtmlstr`: what it stores into the buffer, and the string it returns. -/
def agcanonhtmlstr (arg : CStr) : CStr × CStr :=
  ([60] ++ arg ++ [62] ++ [0], [60] ++ arg ++ [62])

/-- `agstrcanon`: what it stores into the buffer, and the string it returns. -/
def agstrcanon (Max_outputline : ℤ) (html : Bool) (arg : CStr) : CStr × CStr :=
  if html then agcanonhtmlstr arg else agstrcanonText Max_outputline arg

/-! ## What fits -/

/-- The quotes of a string that are not the second character of an escape sequence. -/
def unescapedQuotes : CStr → ℕ
  | [] => 0
  | [c] => if c = 34 then 1 else 0
  | c :: d :: s =>
    if isEscape c d then unescapedQuotes s else (if c = 34 then 1 else 0) + unescapedQuotes (d :: s)

/-- The place of a break, by the number of characters before it. -/
def BreakPlace (s : CStr) (p : ℕ) : Prop :=
  ∃ c d, s[p - 1]? = some c ∧ s[p]? = some d ∧ breakable c d = true

/-- Where a break may follow another one: the line between them has no less than `Max_outputline`
characters. -/
def LongLine (Max_outputline : ℤ) (p q : ℕ) : Prop := p < q ∧ Max_outputline ≤ (q : ℤ) - p

/-- A choice of places to break a string into lines. -/
structure LineBreaks (Max_outputline : ℤ) (s : CStr) (ps : List ℕ) : Prop where
  on : ps ≠ [] → Max_outputline ≠ 0
  places : ∀ p ∈ ps, BreakPlace s p
  spaced : (0 :: ps).IsChain (LongLine Max_outputline)

/-- The strings that the buffer is large enough for: the empty one and those in which, however they
are broken into lines, the characters other than unescaped quotes are more than twice as many as
the breaks; of the HTML-like strings those that are not empty. -/
def FitsBuffer (Max_outputline : ℤ) (html : Bool) (s : CStr) : Prop :=
  if html then s ≠ []
  else s = [] ∨ ∀ ps, LineBreaks Max_outputline s ps → unescapedQuotes s + 2 * ps.length < s.length

/-! ## One character -/

variable {M : ℤ} {st : Canon} {c d : UInt8} {s t : CStr}

/-- A quote that is not part of an escape sequence is escaped. -/
theorem classify_spec (st : Canon) (uc next : UInt8) :
    (st.classify uc next).buf.length =
        st.buf.length + (if uc == 34 && !st.part_of_escape then 1 else 0) ∧
      (st.classify uc next).part_of_escape = (!st.part_of_escape && isEscape uc next) ∧
      (st.classify uc next).cnt = st.cnt ∧
      (st.classify uc next).backslash_pending = st.backslash_pending := by
  unfold Canon.classify
  split
  · rename_i hquote
    rw [Bool.and_eq_true, beq_iff_eq, Bool.not_eq_true'] at hquote
    have hesc : isEscape uc next = false := by rw [hquote.1]; rfl
    exact ⟨by simp, by simp [hquote.2, hesc], rfl, rfl⟩
  · split
    · rename_i hesc
      exact ⟨rfl, hesc.symm, rfl, rfl⟩
    · rename_i hesc
      rw [Bool.not_eq_true] at hesc
      rw [hesc]
      split
      · refine ⟨?_, rfl, ?_, ?_⟩ <;> split <;> (try split) <;> (try split) <;> rfl
      · split <;> exact ⟨rfl, rfl, rfl, rfl⟩

/-- Nothing is broken before the end of the string. -/
theorem breakable_zero : breakable c 0 = false := by
  rw [breakable, show isIdChar 0 = false by decide, Bool.and_false]

/-- A line is broken where it may be, once it is long enough. A break that is pending is for a
line that is long enough. -/
theorem wrap_spec (last next : UInt8) (hpend : st.backslash_pending = true → M ≤ st.cnt) :
    (st.wrap M last next).part_of_escape = st.part_of_escape ∧
      ((st.wrap M last next).backslash_pending = true → M ≤ (st.wrap M last next).cnt) ∧
      if M ≠ 0 ∧ breakable last next = true ∧ M ≤ st.cnt then
        (st.wrap M last next).buf.length = st.buf.length + 2 ∧ (st.wrap M last next).cnt = 0
      else (st.wrap M last next).buf.length = st.buf.length ∧
        (st.wrap M last next).cnt = st.cnt := by
  unfold Canon.wrap
  by_cases hM : M ≠ 0
  · rw [if_pos hM]
    cases hb : breakable last next with
    | false =>
      have hno : ¬ (M ≠ 0 ∧ false = true ∧ M ≤ st.cnt) := fun h => nomatch h.2.1
      rw [Bool.and_false, if_neg Bool.false_ne_true, if_neg hno]
      split
      · rename_i hlong
        simp only [ge_iff_le, Bool.and_eq_true, decide_eq_true_eq] at hlong
        exact ⟨rfl, fun _ => hlong.2, rfl, rfl⟩
      · exact ⟨rfl, hpend, rfl, rfl⟩
    | true =>
      have hnext : next ≠ 0 := by
        intro h
        rw [h, breakable_zero] at hb
        cases hb
      simp only [hnext, hM, ne_eq, not_false_eq_true, decide_true, Bool.true_and, Bool.and_true,
        true_and, ge_iff_le, decide_eq_true_eq, if_true]
      split
      · rename_i hp
        rw [if_pos (hpend hp)]
        exact ⟨rfl, nofun, by simp [Canon.breakLine], rfl⟩
      · rename_i hp
        split
        · exact ⟨rfl, fun h => absurd h hp, by simp [Canon.breakLine], rfl⟩
        · exact ⟨rfl, hpend, rfl, rfl⟩
  · rw [if_neg hM, if_neg fun h => hM h.1]
    exact ⟨rfl, hpend, rfl, rfl⟩

/-! ## The loop -/

/-- The unescaped quotes of the rest of a string, of which the first character may be the second
one of an escape sequence. -/
def quotesFrom : Bool → CStr → ℕ
  | _, [] => 0
  | part_of_escape, c :: s => (if c == 34 && !part_of_escape then 1 else 0) +
      quotesFrom (!part_of_escape && isEscape c (s.headD 0)) s

/-- The places at which the rest of a string is broken, after `i` characters of which the last
`cnt` are on the line. -/
def greedyBreaks (M : ℤ) : ℕ → ℕ → CStr → List ℕ
  | _, _, [] => []
  | i, cnt, c :: s =>
    if M ≠ 0 ∧ breakable c (s.headD 0) = true ∧ M ≤ (cnt + 1 : ℕ) then
      (i + 1) :: greedyBreaks M (i + 1) 0 s
    else greedyBreaks M (i + 1) (cnt + 1) s

/-- After the backslash of an escape sequence its second character is not a quote to escape. -/
theorem quotesFrom_eq (s : CStr) : quotesFrom false s = unescapedQuotes s := by
  fun_induction unescapedQuotes s with
  | case1 => rfl
  | case2 => rfl
  | case3 c hc => simp [quotesFrom, hc]
  | case4 c d s hesc ih =>
    have hc : c = 92 := by
      rw [isEscape, Bool.and_eq_true, beq_iff_eq] at hesc
      exact hesc.1
    subst hc
    simp [quotesFrom, hesc, ih]
  | case5 c d s hesc ih =>
    rw [quotesFrom, ← ih]
    simp [hesc]

/-- What the loop stores: the characters, a backslash for each unescaped quote, and two characters
for each break. -/
theorem canonLoop_length (s : CStr) (i : ℕ) (hpend : st.backslash_pending = true → M ≤ st.cnt) :
    (canonLoop M st s).buf.length = st.buf.length + s.length +
      quotesFrom st.part_of_escape s + 2 * (greedyBreaks M i st.cnt s).length := by
  induction s generalizing st i with
  | nil => simp [canonLoop, quotesFrom, greedyBreaks]
  | cons c s ih =>
    obtain ⟨hbuf, hesc, hcnt, hback⟩ := classify_spec st c (s.headD 0)
    have hlen : ((st.classify c (s.headD 0)).store c).buf.length =
        (st.classify c (s.headD 0)).buf.length + 1 := by
      rw [Canon.store, length_append]; rfl
    have hcount : ((st.classify c (s.headD 0)).store c).cnt = st.cnt + 1 :=
      congrArg (· + 1) hcnt
    have hstored : ((st.classify c (s.headD 0)).store c).backslash_pending = true →
        M ≤ ((st.classify c (s.headD 0)).store c).cnt := by
      intro h
      have hlong := hpend (hback ▸ h)
      rw [hcount]
      omega
    obtain ⟨hesc', hpend', hwrap⟩ := wrap_spec c (s.headD 0) hstored
    have hpart : ((st.classify c (s.headD 0)).store c).part_of_escape =
        (!st.part_of_escape && isEscape c (s.headD 0)) := hesc
    rw [canonLoop, ih (i + 1) hpend', hesc', hpart, quotesFrom, greedyBreaks, length_cons]
    rw [hcount] at hwrap
    split at hwrap
    · rename_i hbreak
      rw [if_pos hbreak, hwrap.1, hwrap.2, hlen, hbuf, length_cons]
      omega
    · rename_i hbreak
      rw [if_neg hbreak, hwrap.1, hwrap.2, hlen, hbuf]
      omega

/-! ## Breaking lines -/

/-- Where a string breaks next to its first character, that is followed by another one. -/
theorem breakPlace_succ {i : ℕ} (ht : ∀ j, t[i + j]? = (c :: s)[j]?) :
    BreakPlace t (i + 1) ↔ breakable c (s.headD 0) = true := by
  have hc : t[i]? = some c := ht 0
  have hd : t[i + 1]? = s[0]? := ht 1
  cases s with
  | nil =>
    refine iff_of_false ?_ (by rw [headD_nil, breakable_zero]; exact Bool.false_ne_true)
    rintro ⟨c', d, -, hd', -⟩
    rw [hd] at hd'
    cases hd'
  | cons d s =>
    constructor
    · rintro ⟨c', d', hc', hd', hb⟩
      cases hc.symm.trans hc'
      cases hd.symm.trans hd'
      exact hb
    · exact fun hb => ⟨c, d, hc, hd, hb⟩

/-- The rest of a string after one more character. -/
theorem getElem?_succ {i : ℕ} (ht : ∀ j, t[i + j]? = (c :: s)[j]?) (j : ℕ) :
    t[i + 1 + j]? = s[j]? := by
  rw [Nat.add_assoc, Nat.add_comm 1 j, ht (j + 1)]
  rfl

/-- The breaks are at places where the string may be broken. -/
theorem greedyBreaks_places {i cnt : ℕ} (ht : ∀ j, t[i + j]? = s[j]?) :
    ∀ p ∈ greedyBreaks M i cnt s, BreakPlace t p := by
  induction s generalizing i cnt with
  | nil => nofun
  | cons c s ih =>
    intro p hp
    rw [greedyBreaks] at hp
    split at hp
    · rename_i hbreak
      cases hp with
      | head => exact (breakPlace_succ ht).2 hbreak.2.1
      | tail _ hp => exact ih (getElem?_succ ht) p hp
    · exact ih (getElem?_succ ht) p hp

/-- The lines are long enough. -/
theorem greedyBreaks_spaced {i cnt : ℕ} (hcnt : cnt ≤ i) :
    ((i - cnt) :: greedyBreaks M i cnt s).IsChain (LongLine M) := by
  induction s generalizing i cnt with
  | nil => exact List.IsChain.singleton _
  | cons c s ih =>
    rw [greedyBreaks]
    split
    · rename_i hbreak
      refine List.IsChain.cons_cons ⟨by omega, ?_⟩ (ih (i := i + 1) (zero_le _))
      have := hbreak.2.2
      omega
    · have hle : cnt + 1 ≤ i + 1 := by omega
      have hrest := ih hle
      rwa [Nat.add_sub_add_right] at hrest

/-- Breaks follow each other. -/
theorem lt_of_isChain {p : ℕ} {ps : List ℕ} (h : (p :: ps).IsChain (LongLine M)) :
    ∀ q ∈ ps, p < q := by
  have hlt : (p :: ps).IsChain (· < ·) := h.imp fun _ _ hab => hab.1
  exact (pairwise_cons.1 (isChain_iff_pairwise.1 hlt)).1

/-- No choice of breaks has more of them, as a break that comes as early as it may leaves the most
room for the next one: where another choice is not behind in breaks, its last one is no earlier. -/
theorem length_le_greedyBreaks {i cnt l k : ℕ} {ps : List ℕ} (ht : ∀ j, t[i + j]? = s[j]?)
    (hcnt : cnt ≤ i) (hl : l ≤ i) (hon : ps ≠ [] → M ≠ 0)
    (hps : ∀ p ∈ ps, i < p ∧ BreakPlace t p) (hchain : (l :: ps).IsChain (LongLine M))
    (hahead : 0 < k ∨ i - cnt ≤ l) : ps.length ≤ k + (greedyBreaks M i cnt s).length := by
  induction s generalizing i cnt l k ps with
  | nil =>
    cases ps with
    | nil => exact zero_le _
    | cons p ps =>
      obtain ⟨hip, c, d, -, hd, -⟩ := hps p mem_cons_self
      have hend := ht (p - i)
      rw [Nat.add_sub_cancel' hip.le, hd] at hend
      cases hend
  | cons c s ih =>
    have hrest := getElem?_succ ht
    cases ps with
    | nil => exact zero_le _
    | cons p ps =>
      have hM : M ≠ 0 := hon (cons_ne_nil _ _)
      obtain ⟨hip, hplace⟩ := hps p mem_cons_self
      have hafter := lt_of_isChain hchain.of_cons
      rw [greedyBreaks]
      obtain rfl | hlater := eq_or_lt_of_le (succ_le_of_lt hip)
      · have hline := (isChain_cons_cons.1 hchain).1
        have hb := (breakPlace_succ ht).1 hplace
        have hps' : ∀ q ∈ ps, i + 1 < q ∧ BreakPlace t q := fun q hq =>
          ⟨hafter q hq, (hps q (mem_cons_of_mem _ hq)).2⟩
        split
        · have := ih (l := i + 1) (k := k) hrest (zero_le _) le_rfl (fun _ => hM) hps'
            hchain.of_cons (.inr le_rfl)
          simp only [length_cons]
          omega
        · rename_i hbreak
          have hk : 0 < k := by
            have := hline.2
            obtain hk | hle := hahead
            · exact hk
            · exact absurd ⟨hM, hb, by omega⟩ hbreak
          have hle : cnt + 1 ≤ i + 1 := by omega
          have := ih (l := i + 1) (k := k - 1) hrest hle le_rfl
            (fun _ => hM) hps' hchain.of_cons (.inr (by omega))
          simp only [length_cons]
          omega
      · have hps' : ∀ q ∈ p :: ps, i + 1 < q ∧ BreakPlace t q := by
          intro q hq
          refine ⟨?_, (hps q hq).2⟩
          cases hq with
          | head => exact hlater
          | tail _ hq => exact hlater.trans (hafter q hq)
        split
        · have := ih (l := l) (k := k + 1) hrest (zero_le _) (by omega) (fun _ => hM) hps' hchain
            (.inl (succ_pos k))
          simp only [length_cons] at this ⊢
          omega
        · exact ih hrest (by omega) (by omega) (fun _ => hM) hps' hchain
            (hahead.imp_right fun h => by omega)

/-! ## The buffer -/

/-- What is stored for a text that is not empty. -/
theorem agstrcanonText_length (hs : s ≠ []) : (agstrcanonText M s).1.length =
    s.length + 3 + unescapedQuotes s + 2 * (greedyBreaks M 0 0 s).length := by
  have hloop : (canonLoop M (Canon.init (s.headD 0)) s).buf.length =
      1 + s.length + quotesFrom false s + 2 * (greedyBreaks M 0 0 s).length :=
    canonLoop_length s 0 nofun
  have hempty : s.isEmpty = false := isEmpty_eq_false_iff.2 hs
  rw [quotesFrom_eq] at hloop
  simp only [agstrcanonText, hempty, Bool.false_eq_true, if_false, length_append, hloop,
    length_cons, length_nil]
  omega

/-- The breaks of the function are the most that there can be. -/
theorem lineBreaks_greedy (hM : M ≠ 0) : LineBreaks M s (greedyBreaks M 0 0 s) where
  on := fun _ => hM
  places := greedyBreaks_places fun j => by rw [Nat.zero_add]
  spaced := greedyBreaks_spaced (zero_le 0)

theorem greedyBreaks_zero {i cnt : ℕ} : greedyBreaks 0 i cnt s = [] := by
  induction s generalizing i cnt with
  | nil => rfl
  | cons c s ih => rw [greedyBreaks, if_neg fun h => h.1 rfl, ih]

theorem LineBreaks.length_le {ps : List ℕ} (h : LineBreaks M s ps) :
    ps.length ≤ (greedyBreaks M 0 0 s).length := by
  have hps : ∀ p ∈ ps, 0 < p ∧ BreakPlace s p := fun p hp =>
    ⟨lt_of_isChain h.spaced p hp, h.places p hp⟩
  have hle := length_le_greedyBreaks (k := 0) (fun j => by rw [Nat.zero_add]) (Nat.zero_le 0)
    le_rfl h.on hps h.spaced (.inr le_rfl)
  rwa [Nat.zero_add] at hle

/-- The buffer is large enough exactly for the strings that fit. -/
theorem agstrcanon_bytes_iff (M : ℤ) (html : Bool) (s : CStr) :
    (agstrcanon M html s).1.length ≤ agstrcanonBytes s ↔ FitsBuffer M html s := by
  unfold agstrcanon FitsBuffer agstrcanonBytes
  cases html with
  | true =>
    have hpos := length_pos_iff (l := s)
    rw [if_pos rfl, if_pos rfl, ← hpos]
    simp only [agcanonhtmlstr, length_append, length_cons, length_nil]
    omega
  | false =>
    rw [if_neg Bool.false_ne_true, if_neg Bool.false_ne_true]
    by_cases hs : s = []
    · subst hs
      exact iff_of_true (zero_le _) (.inl rfl)
    · rw [agstrcanonText_length hs]
      refine ⟨fun hle => .inr fun ps hps => ?_, fun hfit => ?_⟩
      · have := hps.length_le
        omega
      · have hgreedy : LineBreaks M s (greedyBreaks M 0 0 s) := by
          by_cases hM : M = 0
          · subst hM
            rw [greedyBreaks_zero]
            exact ⟨fun h => absurd rfl h, nofun, List.IsChain.singleton 0⟩
          · exact lineBreaks_greedy hM
        have := hfit.resolve_left hs _ hgreedy
        omega

/-- A string that is one quote, and the empty HTML-like string. -/
theorem agstrcanon_bytes_quote :
    ¬ (agstrcanon 128 false [34]).1.length ≤ agstrcanonBytes [34] ∧
      ¬ (agstrcanon 128 true []).1.length ≤ agstrcanonBytes [] := by
  decide

end Graphviz
