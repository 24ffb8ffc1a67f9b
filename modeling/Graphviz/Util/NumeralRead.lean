import Graphviz.Util.Numeral
import Mathlib

/-!
# Reading printed numbers

What is printed is read back: digits give their number, and a fixed-point text, with its zeros
trimmed or not, gives the value that was printed. A text that is cut short is read to its end or
not at all.
-/

namespace Graphviz

open List Nat Option Prod

variable {s rest ds ip : CStr} {n m p : Nat} {P : UInt8 → Bool}

/-! ## Digits -/

/-- Bytes that are digits. -/
def Digits (ds : CStr) : Prop :=
  ∀ c ∈ ds, gv_isdigit c = true

/-- What may follow a number. -/
def NumeralEnd (rest : CStr) : Prop :=
  ∀ c ∈ rest.head?, c = 32 ∨ c = 93 ∨ c = 41

theorem NumeralEnd.nil : NumeralEnd [] := nofun

theorem NumeralEnd.space : NumeralEnd (32 :: rest) := fun c hc => by
  rw [head?_cons, mem_some_iff] at hc
  exact .inl hc.symm

theorem NumeralEnd.cut (h : NumeralEnd rest) (hs : s <+: rest) : NumeralEnd s := by
  cases s with
  | nil => exact .nil
  | cons c s =>
    obtain ⟨w, rfl⟩ := hs
    exact h

theorem NumeralEnd.not_digit (h : NumeralEnd rest) : ∀ c ∈ rest.head?, gv_isdigit c = false := by
  intro c hc
  obtain rfl | rfl | rfl := h c hc <;> rfl

theorem takeWhile_append (hds : ∀ c ∈ ds, P c = true) (hrest : ∀ c ∈ rest.head?, P c = false) :
    (ds ++ rest).takeWhile P = ds := by
  rw [takeWhile_append_of_pos hds]
  cases rest with
  | nil => rw [takeWhile_nil, append_nil]
  | cons c rest =>
    rw [takeWhile_cons_of_neg (by rw [hrest c rfl]; exact Bool.false_ne_true), append_nil]

theorem dropWhile_append (hds : ∀ c ∈ ds, P c = true) (hrest : ∀ c ∈ rest.head?, P c = false) :
    (ds ++ rest).dropWhile P = rest := by
  rw [dropWhile_append_of_pos hds]
  cases rest with
  | nil => rfl
  | cons c rest => exact dropWhile_cons_of_neg (by rw [hrest c rfl]; exact Bool.false_ne_true)

/-- The digit of a number below ten. -/
def digit (d : Nat) : UInt8 :=
  48 + d.toUInt8

theorem digit_spec {d : Nat} (h : d < 10) :
    gv_isdigit (digit d) = true ∧ digitVal (digit d) = d ∧
      d.digitChar.toNat.toUInt8 = digit d ∧ (digit d = 48 ↔ d = 0) := by
  have all : ∀ d : Fin 10, gv_isdigit (digit d) = true ∧ digitVal (digit d) = d ∧
      d.val.digitChar.toNat.toUInt8 = digit d ∧ (digit d = 48 ↔ d.val = 0) := by decide
  exact all ⟨d, h⟩

theorem decimal_of_lt (h : n < 10) : decimal n = [digit n] := by
  rw [decimal, toDigits_of_lt_base h, map_singleton, (digit_spec h).2.2.1]

theorem decimal_of_le (h : 10 ≤ n) : decimal n = decimal (n / 10) ++ [digit (n % 10)] := by
  have hmod : n % 10 < 10 := mod_lt n (by decide)
  rw [decimal, toDigits_eq_if (by decide), if_neg (by omega), map_append,
    map_singleton, (digit_spec hmod).2.2.1, decimal]

theorem natOf_concat (c : UInt8) : natOf 10 (ds ++ [c]) = 10 * natOf 10 ds + digitVal c := by
  rw [natOf, foldl_append, foldl_cons, foldl_nil, natOf]

/-- The digits of a number, and what they are read as. -/
theorem decimal_spec (n : Nat) : Digits (decimal n) ∧ decimal n ≠ [] ∧ natOf 10 (decimal n) = n := by
  induction n using Nat.strong_induction_on with
  | _ n ih =>
    obtain h | h := lt_or_ge n 10
    · obtain ⟨hd, hv, -, -⟩ := digit_spec h
      rw [decimal_of_lt h]
      exact ⟨fun c hc => mem_singleton.1 hc ▸ hd, cons_ne_nil _ _, by simp [natOf, hv]⟩
    · obtain ⟨hd, hv, -, -⟩ := digit_spec (mod_lt n (show 10 > 0 by decide))
      obtain ⟨ih1, -, ih2⟩ := ih (n / 10) (by omega)
      rw [decimal_of_le h]
      refine ⟨fun c hc => ?_, by simp, ?_⟩
      · obtain hc | hc := mem_append.1 hc
        · exact ih1 c hc
        · exact mem_singleton.1 hc ▸ hd
      · rw [natOf_concat, ih2, hv]
        omega

theorem lastDigits_spec (p m : Nat) : Digits (lastDigits p m) ∧ (lastDigits p m).length = p ∧
    natOf 10 (lastDigits p m) = m % 10 ^ p := by
  induction p generalizing m with
  | zero => exact ⟨nofun, rfl, by simp [lastDigits, natOf, mod_one]⟩
  | succ p ih =>
    obtain ⟨hd, hv, -, -⟩ := digit_spec (mod_lt m (show 10 > 0 by decide))
    obtain ⟨ih1, ih2, ih3⟩ := ih (m / 10)
    rw [lastDigits]
    refine ⟨fun c hc => ?_, by simp [ih2], ?_⟩
    · obtain hc | hc := mem_append.1 hc
      · exact ih1 c hc
      · exact mem_singleton.1 hc ▸ hd
    · have h : natOf 10 (lastDigits p (m / 10) ++ [digit (m % 10)]) = _ := natOf_concat _
      rw [ih3, hv] at h
      refine h.trans ?_
      rw [pow_succ, mul_comm (10 ^ p), mod_mul]
      omega

/-! ## Texts of numbers -/

/-- The text of a number: a space, a sign, digits, and a point with digits. -/
def numText (sp neg : Bool) (ip : CStr) (fr : Option CStr) : CStr :=
  (if sp then [32] else []) ++ ((if neg then [45] else []) ++ (ip ++ fr.elim [] (46 :: ·)))

/-- The value of a text. -/
def textVal (neg : Bool) (ip : CStr) (fr : Option CStr) : ℚ :=
  let v := (natOf 10 ip : ℚ) + fr.elim 0 fun fp => (natOf 10 fp : ℚ) / 10 ^ fp.length
  if neg then -v else v

theorem digit_bounds {c : UInt8} (h : gv_isdigit c = true) :
    isspace c = false ∧ c ≠ 45 ∧ c ≠ 43 ∧ c ≠ 46 ∧ tolower c ≠ 105 ∧ tolower c ≠ 110 ∧
      tolower c ≠ 120 := by
  have all : ∀ c : UInt8, gv_isdigit c = true → isspace c = false ∧ c ≠ 45 ∧ c ≠ 43 ∧ c ≠ 46 ∧
      tolower c ≠ 105 ∧ tolower c ≠ 110 ∧ tolower c ≠ 120 := by decide +kernel
  exact all c h

theorem takeSign_append (neg : Bool) (hs : ∀ c ∈ s.head?, c ≠ 45 ∧ c ≠ 43) :
    takeSign ((if neg then [45] else []) ++ s) = (neg, s) := by
  cases neg with
  | true => rfl
  | false =>
    cases s with
    | nil => rfl
    | cons c s =>
      obtain ⟨h1, h2⟩ := hs c rfl
      simp only [Bool.false_eq_true, if_false, nil_append]
      unfold takeSign
      split
      next heq => exact absurd (cons.inj heq).1 h1
      next heq => exact absurd (cons.inj heq).1 h2
      next => rfl

/-- White space before a text is skipped. -/
theorem dropWhile_space (sp : Bool) (hs : ∀ c ∈ s.head?, isspace c = false) :
    ((if sp then [32] else []) ++ s).dropWhile isspace = s := by
  refine dropWhile_append (fun c hc => ?_) hs
  cases sp with
  | true => exact mem_singleton.1 hc ▸ rfl
  | false => exact absurd hc not_mem_nil

theorem dropWord_none {w : UInt8} {ws : CStr} (hs : ∀ c ∈ s.head?, tolower c ≠ w) :
    dropWord (w :: ws) s = none := by
  refine if_neg fun h => ?_
  cases s with
  | nil => exact absurd h (cons_ne_nil _ _).symm
  | cons c s => exact hs c rfl (cons.inj h).1

/-! ## Integers -/

/-- Digits after a space and a sign. -/
theorem readDigits_eq (sp neg : Bool) (hds : Digits ds) (hne : ds ≠ [])
    (hrest : ∀ c ∈ rest.head?, gv_isdigit c = false) :
    readDigits ((if sp then [32] else []) ++ ((if neg then [45] else []) ++ (ds ++ rest))) =
      some (neg, natOf 10 ds, rest) := by
  obtain ⟨c, ds', rfl⟩ := exists_cons_of_ne_nil hne
  obtain ⟨hspace, hminus, hplus, -⟩ := digit_bounds (hds c mem_cons_self)
  have hhead : ∀ b ∈ ((if neg then [45] else []) ++ (c :: ds' ++ rest) : CStr).head?,
      isspace b = false := by
    intro b hb
    cases neg with
    | true => obtain rfl : 45 = b := some.inj hb; rfl
    | false => obtain rfl : c = b := some.inj hb; exact hspace
  have hsign : ∀ b ∈ (c :: ds' ++ rest : CStr).head?, b ≠ 45 ∧ b ≠ 43 := by
    intro b hb
    obtain rfl : c = b := some.inj hb
    exact ⟨hminus, hplus⟩
  rw [readDigits, dropWhile_space sp hhead, takeSign_append neg hsign]
  simp only [takeWhile_append hds hrest, dropWhile_append hds hrest]
  rw [if_neg hne]

theorem strtol_decimal (hrest : ∀ c ∈ rest.head?, gv_isdigit c = false) :
    strtol (32 :: (decimal n ++ rest)) = some (min (n : Int) (2 ^ 63 - 1), rest) := by
  obtain ⟨hd, hne, hv⟩ := decimal_spec n
  have h := readDigits_eq true false hd hne hrest
  rw [hv] at h
  refine (congrArg _ h).trans ?_
  simp only [map_some, Bool.false_eq_true, if_false]

theorem strtoul_decimal (hn : n < 2 ^ 64) (hrest : ∀ c ∈ rest.head?, gv_isdigit c = false) :
    strtoul (32 :: (decimal n ++ rest)) = some (n, rest) := by
  obtain ⟨hd, hne, hv⟩ := decimal_spec n
  have h := readDigits_eq true false hd hne hrest
  rw [hv] at h
  refine (congrArg _ h).trans ?_
  simp only [map_some, Bool.false_eq_true, if_false]
  rw [if_neg (by omega)]

/-! ## What is left of a text -/

theorem takeSign_suffix (s : CStr) : (takeSign s).2 <:+ s := by
  unfold takeSign
  split
  · exact suffix_cons _ _
  · exact suffix_cons _ _
  · exact suffix_refl _

theorem readDigits_suffix {neg : Bool} {r : CStr} (h : readDigits s = some (neg, n, r)) :
    r <:+ s := by
  rw [readDigits] at h
  split at h
  next neg' s' hsign =>
    simp only at h
    split at h
    · exact nomatch h
    · obtain ⟨-, -, rfl⟩ := (some.inj h : (_, _, _) = _)
      have hs := takeSign_suffix (s.dropWhile isspace)
      rw [hsign] at hs
      exact (dropWhile_suffix _).trans (hs.trans (dropWhile_suffix _))

theorem strtol_suffix {x : Int} {r : CStr} (h : strtol s = some (x, r)) : r <:+ s := by
  obtain ⟨⟨neg, n, r'⟩, hread, heq⟩ := map_eq_some_iff.1 h
  obtain ⟨-, rfl⟩ := mk.inj heq
  exact readDigits_suffix hread

theorem strtoul_suffix {x : Nat} {r : CStr} (h : strtoul s = some (x, r)) : r <:+ s := by
  obtain ⟨⟨neg, n, r'⟩, hread, heq⟩ := map_eq_some_iff.1 h
  obtain ⟨-, rfl⟩ := mk.inj heq
  exact readDigits_suffix hread

theorem mantissa_suffix {base : Nat} {q : ℚ} {r : CStr} (h : mantissa base P s = some (q, r)) :
    r <:+ s := by
  have hrest := dropWhile_suffix (l := s) P
  rw [mantissa] at h
  simp only at h
  split at h
  next r' hr =>
    split at h
    · exact nomatch h
    · obtain ⟨-, rfl⟩ := mk.inj (some.inj h)
      rw [hr] at hrest
      exact (dropWhile_suffix _).trans ((suffix_cons _ _).trans hrest)
  next =>
    split at h
    · exact nomatch h
    · obtain ⟨-, rfl⟩ := mk.inj (some.inj h)
      exact hrest

theorem exponent_suffix (letter : UInt8) (s : CStr) : (exponent letter s).2 <:+ s := by
  cases s with
  | nil => exact suffix_refl _
  | cons c s =>
    have hs := takeSign_suffix s
    rw [exponent]
    simp only
    split
    · exact (dropWhile_suffix _).trans (hs.trans (suffix_cons _ _))
    · exact suffix_refl _

theorem dropWord_suffix {w r : CStr} (h : dropWord w s = some r) : r <:+ s := by
  rw [dropWord] at h
  split at h
  · exact some.inj h ▸ drop_suffix _ _
  · exact nomatch h

theorem dropPayload_suffix (s : CStr) : dropPayload s <:+ s := by
  unfold dropPayload
  split
  next r =>
    split
    next r' hr =>
      have hdrop := dropWhile_suffix (l := r) fun c => gv_isalnum c || decide (c = 95)
      rw [hr] at hdrop
      exact (suffix_cons _ _).trans (hdrop.trans (suffix_cons _ _))
    · exact suffix_refl _
  · exact suffix_refl _

theorem readValue_suffix {v : Value} {r : CStr} (h : readValue s = some (v, r)) : r <:+ s := by
  have hs := (takeSign_suffix (s.dropWhile isspace)).trans (dropWhile_suffix _)
  rw [readValue] at h
  split at h
  next neg s' hsign =>
    rw [hsign] at hs
    split at h
    next r' hr =>
      obtain ⟨-, rfl⟩ := mk.inj (some.inj h)
      have hr' := (dropWord_suffix hr).trans hs
      cases hw : dropWord [105, 110, 105, 116, 121] r' with
      | none => exact hr'
      | some r'' => exact (dropWord_suffix hw).trans hr'
    next =>
      split at h
      next r' hr =>
        obtain ⟨-, rfl⟩ := mk.inj (some.inj h)
        exact (dropPayload_suffix r').trans ((dropWord_suffix hr).trans hs)
      next =>
        obtain ⟨⟨q, r'⟩, hnum, heq⟩ := map_eq_some_iff.1 h
        obtain ⟨-, rfl⟩ := mk.inj heq
        cases hhex : hexNumber s' with
        | none =>
          rw [hhex, orElse_none] at hnum
          obtain ⟨⟨m, t⟩, hm, heq⟩ := map_eq_some_iff.1 hnum
          obtain ⟨-, rfl⟩ := mk.inj heq
          exact (exponent_suffix 101 t).trans ((mantissa_suffix hm).trans hs)
        | some x =>
          rw [hhex, orElse_some] at hnum
          obtain rfl := some.inj hnum
          rw [hexNumber] at hhex
          split at hhex
          next => exact nomatch hhex
          next t ht =>
            obtain ⟨⟨m, t'⟩, hm, heq⟩ := map_eq_some_iff.1 hhex
            obtain ⟨-, rfl⟩ := mk.inj heq
            exact (exponent_suffix 112 t').trans ((mantissa_suffix hm).trans
              ((dropWord_suffix ht).trans hs))

/-! ## Fixed-point numbers -/

theorem mantissa_text (hip : Digits ip) {fr : Option CStr} (hfr : ∀ fp ∈ fr, Digits fp)
    (hrest : NumeralEnd rest) :
    mantissa 10 gv_isdigit (ip ++ (fr.elim [] (46 :: ·) ++ rest)) =
      if ip = [] ∧ fr.getD [] = [] then none else some (textVal false ip fr, rest) := by
  have hstop : ∀ r : CStr, ∀ c ∈ (46 :: r).head?, gv_isdigit c = false := fun r c hc =>
    some.inj hc ▸ rfl
  cases fr with
  | none =>
    have hdrop := dropWhile_append hip hrest.not_digit
    rw [mantissa, elim_none, nil_append, takeWhile_append hip hrest.not_digit]
    split
    next r heq =>
      obtain h | h | h := hrest 46 (hdrop.symm.trans heq ▸ rfl) <;> exact absurd h (by decide)
    next =>
      rw [hdrop]
      simp [textVal]
  | some fp =>
    have hfp := hfr fp rfl
    rw [mantissa, elim_some, cons_append, takeWhile_append hip (hstop _),
      dropWhile_append hip (hstop _)]
    simp only [takeWhile_append hfp hrest.not_digit, dropWhile_append hfp hrest.not_digit]
    simp [textVal]

theorem exponent_ends (hrest : NumeralEnd rest) : exponent 101 rest = (0, rest) := by
  cases rest with
  | nil => rfl
  | cons c r =>
    have hc : tolower c ≠ 101 := by
      obtain rfl | rfl | rfl := hrest c rfl <;> decide
    exact if_neg fun h => hc h.1

/-- A byte that a body of a number starts with, or what comes after it. -/
theorem body_head {fr : Option CStr} (hip : Digits ip) :
    ∀ c ∈ (ip ++ (fr.elim [] (46 :: ·) ++ rest)).head?,
      gv_isdigit c = true ∨ c = 46 ∨ c ∈ rest.head? := by
  intro c hc
  cases ip with
  | nil =>
    cases fr with
    | none => exact .inr (.inr hc)
    | some fp => exact .inr (.inl (some.inj hc).symm)
  | cons d ip => exact .inl (some.inj hc ▸ hip d mem_cons_self)

/-- A body of a number is not a hexadecimal one. -/
theorem hexNumber_none {fr : Option CStr} (hip : Digits ip) (hfr : ∀ fp ∈ fr, Digits fp)
    (hrest : NumeralEnd rest) : hexNumber (ip ++ (fr.elim [] (46 :: ·) ++ rest)) = none := by
  have hx : ∀ c, gv_isdigit c = true ∨ c = 46 ∨ c ∈ rest.head? → tolower c ≠ 120 := by
    rintro c (hc | rfl | hc)
    · exact (digit_bounds hc).2.2.2.2.2.2
    · decide
    · obtain rfl | rfl | rfl := hrest c hc <;> decide
  have hsecond : ∀ a b t, ip ++ (fr.elim [] (46 :: ·) ++ rest) = a :: b :: t → a = 48 →
      tolower b ≠ 120 := by
    rintro a b t heq rfl
    cases ip with
    | nil =>
      cases fr with
      | none =>
        rcases hrest 48 (by rw [show rest = 48 :: b :: t from heq]; rfl) with h | h | h <;>
          exact absurd h (by decide)
      | some fp => exact absurd (cons.inj heq).1 (by decide)
    | cons d ip =>
      have htail : ip ++ (fr.elim [] (46 :: ·) ++ rest) = b :: t := (cons.inj heq).2
      have hip' : Digits ip := fun c hc => hip c (mem_cons_of_mem _ hc)
      exact hx b (body_head hip' b (by rw [htail]; rfl))
  have hword : dropWord [48, 120] (ip ++ (fr.elim [] (46 :: ·) ++ rest)) = none := by
    refine if_neg fun h => ?_
    match htext : ip ++ (fr.elim [] (46 :: ·) ++ rest) with
    | [] => exact absurd (htext ▸ h) (by decide)
    | [a] => rw [htext] at h; exact absurd (congrArg List.length h) (by simp)
    | a :: b :: t =>
      rw [htext] at h
      obtain ⟨ha, hb⟩ := cons.inj h
      have ha' : a = 48 := by
        have all : ∀ a : UInt8, tolower a = 48 → a = 48 := by decide +kernel
        exact all a ha
      exact hsecond a b t htext ha' (cons.inj hb).1
  rw [hexNumber, hword]

/-- A text of a number is read to its end; without digits it is not read. -/
theorem readValue_text (sp neg : Bool) {fr : Option CStr} (hip : Digits ip)
    (hfr : ∀ fp ∈ fr, Digits fp) (hrest : NumeralEnd rest) (hne : ip ≠ [] ∨ rest = []) :
    readValue (numText sp neg ip fr ++ rest) =
      if ip = [] ∧ fr.getD [] = [] then none else some (.finite (textVal neg ip fr), rest) := by
  have hhead : ∀ c ∈ (ip ++ (fr.elim [] (46 :: ·) ++ rest)).head?,
      isspace c = false ∧ c ≠ 45 ∧ c ≠ 43 ∧ tolower c ≠ 105 ∧ tolower c ≠ 110 := by
    intro c hc
    obtain h | rfl | h := body_head hip c hc
    · obtain ⟨h1, h2, h3, -, h4, h5, -⟩ := digit_bounds h
      exact ⟨h1, h2, h3, h4, h5⟩
    · decide
    · obtain hne | rfl := hne
      · obtain ⟨d, ip, rfl⟩ := exists_cons_of_ne_nil hne
        obtain ⟨h1, h2, h3, -, h4, h5, -⟩ := digit_bounds (hip d mem_cons_self)
        obtain rfl : d = c := some.inj hc
        exact ⟨h1, h2, h3, h4, h5⟩
      · exact absurd h (by simp)
  have hspace : ∀ c ∈ ((if neg then [45] else []) ++ (ip ++ (fr.elim [] (46 :: ·) ++ rest)) :
      CStr).head?, isspace c = false := by
    intro c hc
    cases neg with
    | true => obtain rfl : 45 = c := some.inj hc; rfl
    | false => exact (hhead c hc).1
  rw [numText, append_assoc, append_assoc, append_assoc, readValue,
    dropWhile_space sp hspace, takeSign_append neg fun c hc => ⟨(hhead c hc).2.1, (hhead c hc).2.2.1⟩]
  simp only
  rw [dropWord_none fun c hc => (hhead c hc).2.2.2.1]
  simp only
  rw [dropWord_none fun c hc => (hhead c hc).2.2.2.2]
  simp only
  rw [hexNumber_none hip hfr hrest, decimalNumber, mantissa_text hip hfr hrest]
  obtain hnone | hsome := Decidable.em (ip = [] ∧ fr.getD [] = [])
  · rw [if_pos hnone, if_pos hnone]
    rfl
  · rw [if_neg hsome, if_neg hsome]
    simp only [orElse_none, map_some, exponent_ends hrest, zpow_zero, mul_one]
    cases neg <;> rfl

/-! ## Printed numbers -/

theorem dropPoint_ne {c : UInt8} (hc : c ≠ 46) : dropPoint (c :: s) = c :: s := by
  unfold dropPoint
  split
  next heq => exact absurd (cons.inj heq).1 hc
  next heq => exact absurd (cons.inj heq).1 hc
  next => rfl

theorem dropPoint_point (hs : ∀ t, s ≠ 48 :: 45 :: t) : dropPoint (46 :: s) = s := by
  unfold dropPoint
  split
  next heq => exact absurd (cons.inj heq).2 (hs _)
  next heq => exact (cons.inj heq).2.symm
  next h1 h2 => exact absurd rfl (h2 s)

/-- The digits of a number do not end a text in `-0`, but for a negative zero. -/
theorem not_minus_zero (sp neg : Bool) (hn : neg = true → n ≠ 0) (t : CStr) :
    ((if sp then [32] else []) ++ ((if neg then [45] else []) ++ decimal n)).reverse ≠
      48 :: 45 :: t := by
  intro heq
  rw [reverse_append, reverse_append] at heq
  obtain h | h := lt_or_ge n 10
  · rw [decimal_of_lt h] at heq
    obtain ⟨hd, heq⟩ := cons.inj heq
    have hzero := (digit_spec h).2.2.2.1 hd
    cases neg with
    | true => exact hn rfl hzero
    | false =>
      cases sp with
      | true => exact absurd (cons.inj heq).1 (by decide)
      | false => exact absurd heq (cons_ne_nil _ _).symm
  · rw [decimal_of_le h, reverse_append] at heq
    obtain ⟨-, heq⟩ := cons.inj heq
    obtain ⟨hdigits, hne, -⟩ := decimal_spec (n / 10)
    obtain ⟨c, l, hl⟩ := exists_cons_of_ne_nil (reverse_ne_nil_iff.2 hne)
    have hc : gv_isdigit c = true := hdigits c (mem_reverse.1 (hl ▸ mem_cons_self))
    replace heq : (decimal (n / 10)).reverse ++ _ ++ _ = 45 :: t := heq
    rw [hl] at heq
    exact (digit_bounds hc).2.1 (cons.inj heq).1

/-- Zeros after the point are trimmed, and the value stays. -/
theorem trim_text (sp neg : Bool) (m : Nat) :
    ∃ neg' n fr, agxbuf_trim_zeros ((if sp then [32] else []) ++ fixedPoint 2 neg m) =
        numText sp neg' (decimal n) fr ∧ (∀ fp ∈ fr, fp ≠ [] ∧ Digits fp) ∧
      textVal neg' (decimal n) fr = if neg then -(m / 100 : ℚ) else m / 100 := by
  obtain ⟨-, -, hval⟩ := decimal_spec (m / 100)
  obtain ⟨ha, hav, -, ha0⟩ := digit_spec (mod_lt (m / 10) (show 10 > 0 by decide))
  obtain ⟨hb, hbv, -, hb0⟩ := digit_spec (mod_lt m (show 10 > 0 by decide))
  have hm : (m : ℚ) = 100 * (m / 100 : Nat) + 10 * (m / 10 % 10 : Nat) + (m % 10 : Nat) := by
    exact_mod_cast (by omega : m = 100 * (m / 100) + 10 * (m / 10 % 10) + m % 10)
  have htext : (if sp then [32] else []) ++ fixedPoint 2 neg m =
      ((if sp then [32] else []) ++ ((if neg then [45] else []) ++ decimal (m / 100))) ++
        [46, digit (m / 10 % 10), digit (m % 10)] := by
    rw [fixedPoint, if_neg (show ¬2 = 0 by decide), append_assoc, append_assoc,
      append_assoc]
    rfl
  rw [htext, agxbuf_trim_zeros, if_pos (by simp), reverse_append]
  simp only [reverse_cons, reverse_nil, nil_append, cons_append]
  obtain hy | hy := eq_or_ne (m % 10) 0
  · rw [dropWhile_cons_of_pos (by simpa using hb0.2 hy)]
    obtain hx | hx := eq_or_ne (m / 10 % 10) 0
    · rw [dropWhile_cons_of_pos (by simpa using ha0.2 hx),
        dropWhile_cons_of_neg (by decide)]
      rw [hx, hy] at hm
      obtain ⟨rfl, hz⟩ | hnz := Decidable.em (neg = true ∧ m / 100 = 0)
      · refine ⟨false, 0, none, ?_, nofun, ?_⟩
        · rw [hz]
          cases sp <;> rfl
        · rw [hz] at hm
          rw [hm, textVal, show natOf 10 (decimal 0) = 0 from rfl]
          simp
      · rw [dropPoint_point (not_minus_zero sp neg fun h hz => hnz ⟨h, hz⟩), reverse_reverse]
        refine ⟨neg, m / 100, none, by simp [numText], nofun, ?_⟩
        rw [textVal, hval, hm]
        cases neg <;> simp
    · rw [dropWhile_cons_of_neg (by simpa using fun h => hx (ha0.1 h)),
        dropPoint_ne (digit_bounds ha).2.2.2.1]
      refine ⟨neg, m / 100, some [digit (m / 10 % 10)], by simp [numText], fun fp hfp => ?_, ?_⟩
      · obtain rfl := some.inj hfp
        exact ⟨cons_ne_nil _ _, fun c hc => mem_singleton.1 hc ▸ ha⟩
      · rw [hy] at hm
        rw [textVal, hval, hm]
        simp only [elim_some, natOf, foldl_cons, foldl_nil, hav, length_singleton]
        cases neg <;> simp <;> ring
  · rw [dropWhile_cons_of_neg (by simpa using fun h => hy (hb0.1 h)),
      dropPoint_ne (digit_bounds hb).2.2.2.1]
    refine ⟨neg, m / 100, some [digit (m / 10 % 10), digit (m % 10)], by simp [numText],
      fun fp hfp => ?_, ?_⟩
    · obtain rfl := some.inj hfp
      refine ⟨cons_ne_nil _ _, fun c hc => ?_⟩
      obtain rfl | hc := mem_cons.1 hc
      · exact ha
      · exact mem_singleton.1 hc ▸ hb
    · rw [textVal, hval, hm]
      simp only [elim_some, natOf, foldl_cons, foldl_nil, hav, hbv, length_cons, length_nil]
      cases neg <;> simp <;> ring

theorem roundHalfEven_cases (q : ℚ) : roundHalfEven q = ⌊q⌋ ∨
    (roundHalfEven q = ⌊q⌋ + 1 ∧ (⌊q⌋ : ℚ) < q) := by
  have hle := Int.floor_le q
  rw [roundHalfEven]
  split
  · exact .inl rfl
  next h =>
    have hlt : (⌊q⌋ : ℚ) < q := by linarith
    split
    · exact .inr ⟨rfl, hlt⟩
    · split
      · exact .inl rfl
      · exact .inr ⟨rfl, hlt⟩

/-- Rounding keeps the sign. -/
theorem roundHalfEven_sign (q : ℚ) :
    (if q < 0 then -((roundHalfEven q).natAbs : ℚ) else (roundHalfEven q).natAbs) =
      roundHalfEven q := by
  split
  next h =>
    have hfloor : ⌊q⌋ < 0 := Int.floor_lt.2 (by simpa using h)
    have hle : roundHalfEven q ≤ 0 := by
      rcases roundHalfEven_cases q with heq | ⟨heq, -⟩ <;> omega
    have habs : ((roundHalfEven q).natAbs : Int) = -roundHalfEven q := by omega
    rw [← Int.cast_natCast, habs, Int.cast_neg, neg_neg]
  next h =>
    have hfloor : 0 ≤ ⌊q⌋ := Int.floor_nonneg.2 (not_lt.1 h)
    have hle : 0 ≤ roundHalfEven q := by
      rcases roundHalfEven_cases q with heq | ⟨heq, -⟩ <;> omega
    rw [← Int.cast_natCast, Int.natAbs_of_nonneg hle]

variable {D : Type} [Double D] {d : D}

/-- Printed with `p` decimals, the number is read back. -/
def Representable (p : Nat) (d : D) : Prop :=
  ∃ q, Double.value d = .finite q ∧
    Double.read (.finite (roundHalfEven (q * 10 ^ p) / 10 ^ p)) = d

/-- A text of a number that is read as `d`. -/
def IsText (sp : Bool) (d : D) (t : CStr) : Prop :=
  ∃ neg ip fr, t = numText sp neg ip fr ∧ Digits ip ∧ ip ≠ [] ∧ (∀ fp ∈ fr, Digits fp) ∧
    Double.read (.finite (textVal neg ip fr)) = d

/-- A printed number with trimmed zeros. -/
theorem isText_trim (sp : Bool) (h : Representable 2 d) :
    IsText sp d (agxbuf_trim_zeros ((if sp then [32] else []) ++ toFixed 2 d)) := by
  obtain ⟨q, hq, hd⟩ := h
  obtain ⟨neg, n, fr, heq, hfr, hval⟩ :=
    trim_text sp (q < 0) (roundHalfEven (q * 10 ^ 2)).natAbs
  obtain ⟨hip, hne, -⟩ := decimal_spec n
  refine ⟨neg, decimal n, fr, ?_, hip, hne, fun fp hfp => (hfr fp hfp).2, ?_⟩
  · rw [toFixed, hq]
    exact heq
  · have hsign := roundHalfEven_sign (q * 10 ^ 2)
    have hneg : q * 10 ^ 2 < 0 ↔ q < 0 := by constructor <;> intro h <;> linarith
    rw [hval, ← hd, ← hsign]
    congr 2
    simp only [decide_eq_true_eq, hneg]
    split
    next => norm_num; ring
    next => norm_num

/-- A printed integer. -/
theorem isText_integer (h : Representable 0 d) : IsText true d (32 :: toFixed 0 d) := by
  obtain ⟨q, hq, hd⟩ := h
  obtain ⟨hip, hne, hval⟩ := decimal_spec (roundHalfEven (q * 10 ^ 0)).natAbs
  refine ⟨q < 0, decimal (roundHalfEven (q * 10 ^ 0)).natAbs, none, ?_, hip, hne, nofun, ?_⟩
  · rw [toFixed, hq]
    simp [numText, fixedPoint]
  · have hsign := roundHalfEven_sign (q * 10 ^ 0)
    have hneg : q * 10 ^ 0 < 0 ↔ q < 0 := by rw [pow_zero, mul_one]
    rw [← hd, ← hsign, textVal, hval]
    congr 2
    simp only [decide_eq_true_eq, hneg]
    simp

theorem strtod_suffix {r : CStr} (h : strtod s = some (d, r)) : r <:+ s := by
  obtain ⟨⟨v, r'⟩, hread, heq⟩ := map_eq_some_iff.1 h
  obtain ⟨-, rfl⟩ := mk.inj heq
  exact readValue_suffix hread

/-- The text of a number is read back. -/
theorem IsText.strtod {sp : Bool} {t : CStr} (h : IsText sp d t) (hrest : NumeralEnd rest) :
    strtod (t ++ rest) = some (d, rest) := by
  obtain ⟨neg, ip, fr, rfl, hip, hne, hfr, hd⟩ := h
  rw [Graphviz.strtod, readValue_text sp neg hip hfr hrest (.inl hne), if_neg fun h => hne h.1]
  exact congrArg (fun x => some (x, rest)) hd

/-- Where a text of two parts is cut. -/
theorem prefix_append_cases {t a b : CStr} (h : t <+: a ++ b) :
    t <+: a ∨ ∃ u, u <+: b ∧ t = a ++ u := by
  obtain ht | ⟨u, rfl⟩ := prefix_or_prefix_of_prefix h (prefix_append a b)
  · exact .inl ht
  · exact .inr ⟨u, (prefix_append_right_inj a).1 h, rfl⟩

theorem prefix_optional {t : CStr} {b : Bool} {c : UInt8} (h : t <+: if b then [c] else []) :
    ∃ b' : Bool, t = if b' then [c] else [] := by
  cases b with
  | false => exact ⟨false, prefix_nil.1 h⟩
  | true =>
    obtain rfl | ⟨u, rfl, hu⟩ := prefix_cons_iff.1 h
    · exact ⟨false, rfl⟩
    · rw [prefix_nil.1 hu]
      exact ⟨true, rfl⟩

theorem numText_cut {t : CStr} {sp neg : Bool} {fr : Option CStr} (hip : Digits ip)
    (hfr : ∀ fp ∈ fr, Digits fp) (h : t <+: numText sp neg ip fr) :
    ∃ sp' neg' ip' fr', t = numText sp' neg' ip' fr' ∧ Digits ip' ∧ ∀ fp ∈ fr', Digits fp := by
  obtain hsp | ⟨u, hu, rfl⟩ := prefix_append_cases h
  · obtain ⟨sp', rfl⟩ := prefix_optional hsp
    exact ⟨sp', false, [], none, (append_nil _).symm, nofun, nofun⟩
  obtain hneg | ⟨v, hv, rfl⟩ := prefix_append_cases hu
  · obtain ⟨neg', rfl⟩ := prefix_optional hneg
    exact ⟨sp, neg', [], none, by rw [numText, elim_none, append_nil, append_nil],
      nofun, nofun⟩
  obtain hcut | ⟨w, hw, rfl⟩ := prefix_append_cases hv
  · exact ⟨sp, neg, v, none, by rw [numText, elim_none, append_nil],
      fun c hc => hip c (hcut.subset hc), nofun⟩
  cases fr with
  | none => exact ⟨sp, neg, ip, none, by rw [prefix_nil.1 hw]; rfl, hip, nofun⟩
  | some fp =>
    obtain rfl | ⟨x, rfl, hx⟩ := prefix_cons_iff.1 hw
    · exact ⟨sp, neg, ip, none, rfl, hip, nofun⟩
    · exact ⟨sp, neg, ip, some x, rfl, hip, fun y hy => some.inj hy ▸ fun c hc =>
        hfr fp rfl c (hx.subset hc)⟩

/-- A text of a number that is cut short is read to its end, or not at all. -/
theorem IsText.strtod_cut {sp : Bool} {t t' : CStr} (h : IsText sp d t) (ht : t' <+: t) :
    (Graphviz.strtod t' : Option (D × CStr)) = none ∨
      ∃ d' : D, Graphviz.strtod t' = some (d', []) := by
  obtain ⟨neg, ip, fr, rfl, hip, -, hfr, -⟩ := h
  obtain ⟨sp', neg', ip', fr', rfl, hip', hfr'⟩ := numText_cut hip hfr ht
  have hread := readValue_text sp' neg' hip' hfr' NumeralEnd.nil (.inr rfl)
  rw [append_nil] at hread
  rw [Graphviz.strtod, hread]
  split
  · exact .inl rfl
  · exact .inr ⟨_, rfl⟩

end Graphviz
