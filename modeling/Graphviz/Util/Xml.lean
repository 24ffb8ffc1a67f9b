import Graphviz.Library.Utf8
import Graphviz.Util.Fault
import Graphviz.Util.Numeral

/-!
# Escaping XML

`lib/util/xml.c`. The string is gone through from its start; at each place some bytes are consumed
and a text is emitted: an entity, or the byte itself. What has been emitted is looked at again when
the output is escaped once more.
-/

namespace Graphviz

open List Nat Outcome Prod

/-- `xml_flags_t`. -/
structure xml_flags_t where
  raw : Bool
  dash : Bool
  nbsp : Bool
  utf8 : Bool
  deriving DecidableEq

/-- `xml_isentity`, for a string that starts with `&`. -/
def xml_isentity (s : CStr) : Bool :=
  match s.tail with
  | 59 :: _ => false
  | 35 :: 120 :: t => (t.dropWhile gv_isxdigit).head? == some 59
  | 35 :: 88 :: t => (t.dropWhile gv_isxdigit).head? == some 59
  | 35 :: t => (t.dropWhile gv_isdigit).head? == some 59
  | t => (t.dropWhile gv_isalpha).head? == some 59

/-- `%x`. -/
def hexadecimal (n : Nat) : CStr :=
  (Nat.toDigits 16 n).map fun c => c.toNat.toUInt8

/-- The number of bytes of a character, by its first byte; 0 if no character starts with it. -/
def utf8_length (uc : UInt8) : Nat :=
  if uc.toNat >>> 5 = 6 then 2
  else if uc.toNat >>> 4 = 14 then 3
  else if uc.toNat >>> 3 = 30 then 4
  else 0

/-- The character of the given length at the start of a string. -/
def utf8_char (length : Nat) (s : CStr) : Nat :=
  let byte := fun i => (s.getD i 0).toNat
  match length with
  | 2 => (byte 1 &&& 63) ||| ((byte 0 &&& 31) <<< 6)
  | 3 => (byte 2 &&& 63) ||| ((byte 1 &&& 63) <<< 6) ||| ((byte 0 &&& 15) <<< 12)
  | _ => (byte 3 &&& 63) ||| ((byte 2 &&& 63) <<< 6) ||| ((byte 1 &&& 63) <<< 12) |||
      ((byte 0 &&& 7) <<< 18)

/-- `xml_core`, at a string that is not empty: the text that is emitted, and how many bytes are
consumed. -/
def xml_core (previous : UInt8) (s : CStr) (flags : xml_flags_t) : Except Fault (CStr × Nat) :=
  let c := s.headD 0
  if c = 38 ∧ (flags.raw ∨ !xml_isentity s) then .ok (lit "&amp;", 1)
  else if c = 60 then .ok (lit "&lt;", 1)
  else if c = 62 then .ok (lit "&gt;", 1)
  else if c = 45 ∧ flags.dash then .ok (lit "&#45;", 1)
  else if c = 32 ∧ previous = 32 ∧ flags.nbsp then .ok (lit "&#160;", 1)
  else if c = 34 then .ok (lit "&quot;", 1)
  else if c = 39 then .ok (lit "&#39;", 1)
  else if c = 10 ∧ flags.raw then .ok (lit "&#10;", 1)
  else if c = 13 ∧ flags.raw then .ok (lit "&#13;", 1)
  else if 127 < c ∧ flags.utf8 then
    let length := utf8_length c
    if length = 0 ∨ (List.range' 1 (length - 1)).any fun l => s.getD l 0 == 0 then
      .error .exitFailure
    else .ok (lit "&#x" ++ hexadecimal (utf8_char length s) ++ lit ";", length)
  else .ok ([c], 1)

/-- The loop of `gv_xml_escape`. -/
def xml_loop {σ : Type} (flags : xml_flags_t) (cb : σ → CStr → Int × σ) (previous : UInt8)
    (rc : Int) :
    CStr → σ → Except Fault (Int × σ)
  | [], state => .ok (rc, state)
  | c :: s, state =>
    if c = 0 then .ok (rc, state)
    else match xml_core previous (c :: s) flags with
      | .error e => .error e
      | .ok (text, used) =>
        let (rc, state) := cb state text
        if rc < 0 then .ok (rc, state)
        else xml_loop flags cb c rc (s.drop (used - 1)) state
termination_by s => s.length
decreasing_by
  rw [List.length_drop, List.length_cons]
  omega

/-- `gv_xml_escape`. -/
def gv_xml_escape {σ : Type} (s : CStr) (flags : xml_flags_t) (cb : σ → CStr → Int × σ)
    (state : σ) :
    Except Fault (Int × σ) :=
  xml_loop flags cb 0 0 s state

/-- A callback that collects the output. -/
def collect (out text : CStr) : Int × CStr :=
  (0, out ++ text)

/-! ## Entities -/

/-- The text of an entity between `&` and `;`. -/
inductive IsEntityBody : CStr → Prop
  | name {body : CStr} : body ≠ [] → (∀ c ∈ body, gv_isalpha c) → IsEntityBody body
  | decimal {ds : CStr} : (∀ c ∈ ds, gv_isdigit c) → IsEntityBody (35 :: ds)
  | hexadecimal {x : UInt8} {ds : CStr} : x = 120 ∨ x = 88 → (∀ c ∈ ds, gv_isxdigit c) →
      IsEntityBody (35 :: x :: ds)

/-- What follows an `&` is the rest of an entity. -/
def StartsEntity (s : CStr) : Prop :=
  ∃ body rest, s = body ++ 59 :: rest ∧ IsEntityBody body

/-- No character that has to be escaped is left. -/
def Escaped (out : CStr) : Prop :=
  (∀ c ∈ out, c ≠ 60 ∧ c ≠ 62 ∧ c ≠ 34 ∧ c ≠ 39) ∧ ∀ s, 38 :: s <:+ out → StartsEntity s

/-- The character of an entity that is emitted, by its body. -/
def entityChar (body : CStr) : Option CStr :=
  if body = lit "amp" then some [38]
  else if body = lit "lt" then some [60]
  else if body = lit "gt" then some [62]
  else if body = lit "quot" then some [34]
  else match body with
    | 35 :: 120 :: ds => some (String.utf8EncodeChar (Char.ofNat (natOf 16 ds)))
    | 35 :: ds => some (String.utf8EncodeChar (Char.ofNat (natOf 10 ds)))
    | _ => none

/-- The text with each entity that stands for a character replaced by it. -/
def unescape : CStr → CStr
  | [] => []
  | c :: s =>
    if c = 38 then
      match entityChar (s.takeWhile (· != 59)), _h : s.dropWhile (· != 59) with
      | some t, _ :: rest => t ++ unescape rest
      | _, _ => c :: unescape s
    else c :: unescape s
termination_by s => s.length
decreasing_by
  · have hle := (List.dropWhile_suffix (· != 59) (l := s)).length_le
    rw [_h] at hle
    simp at hle ⊢
    omega
  · simp
  · simp

/-- With `nbsp` the second of two spaces and those after it are no-break spaces. -/
def noBreakSpaces (nbsp : Bool) (previous : UInt8) : CStr → CStr
  | [] => []
  | c :: s => (if c = 32 ∧ previous = 32 ∧ nbsp then String.utf8EncodeChar (Char.ofNat 160) else [c]) ++
      noBreakSpaces nbsp c s

variable {flags : xml_flags_t} {p p' c : UInt8} {s t body rest out : CStr} {k : Nat}

/-! ## What is an entity -/

theorem dropWhile_head {P : UInt8 → Bool} (hP : P 59 = false) :
    ((s.dropWhile P).head? == some 59) = true ↔
      ∃ ds rest, s = ds ++ 59 :: rest ∧ ∀ c ∈ ds, P c = true := by
  rw [beq_iff_eq]
  constructor
  · intro h
    obtain ⟨rest, hrest⟩ := head?_eq_some_iff.1 h
    exact ⟨s.takeWhile P, rest, by rw [← hrest, takeWhile_append_dropWhile],
      fun c hc => all_eq_true.1 all_takeWhile c hc⟩
  · rintro ⟨ds, rest, rfl, hds⟩
    rw [dropWhile_append_of_pos hds, dropWhile_cons_of_neg (by rw [hP]; decide),
      head?_cons]

theorem xml_isentity_iff : xml_isentity (38 :: s) = true ↔ StartsEntity s := by
  rw [xml_isentity, tail_cons]
  constructor
  · split
    next => exact fun h => (nomatch h)
    next t =>
      intro h
      obtain ⟨ds, rest, rfl, hds⟩ := (dropWhile_head (by decide)).1 h
      exact ⟨35 :: 120 :: ds, rest, rfl, .hexadecimal (.inl rfl) hds⟩
    next t =>
      intro h
      obtain ⟨ds, rest, rfl, hds⟩ := (dropWhile_head (by decide)).1 h
      exact ⟨35 :: 88 :: ds, rest, rfl, .hexadecimal (.inr rfl) hds⟩
    next t _ _ =>
      intro h
      obtain ⟨ds, rest, rfl, hds⟩ := (dropWhile_head (by decide)).1 h
      exact ⟨35 :: ds, rest, rfl, .decimal hds⟩
    next hsemi _ _ _ =>
      intro h
      obtain ⟨ds, rest, rfl, hds⟩ := (dropWhile_head (by decide)).1 h
      refine ⟨ds, rest, rfl, .name ?_ hds⟩
      rintro rfl
      exact hsemi rest rfl
  · rintro ⟨body, rest, rfl, hname⟩
    cases hname with
    | @name body hne hall =>
      cases body with
      | nil => exact absurd rfl hne
      | cons b bs =>
        have hb : gv_isalpha b = true := hall b mem_cons_self
        have h59 : b ≠ 59 := by rintro rfl; exact absurd hb (by decide)
        have h35 : b ≠ 35 := by rintro rfl; exact absurd hb (by decide)
        split
        next heq => exact absurd (cons.inj heq).1 h59
        next heq => exact absurd (cons.inj heq).1 h35
        next heq => exact absurd (cons.inj heq).1 h35
        next heq => exact absurd (cons.inj heq).1 h35
        next => exact (dropWhile_head (by decide)).2 ⟨b :: bs, rest, rfl, hall⟩
    | @decimal ds hall =>
      have hhead : ∀ x t, ds ++ 59 :: rest = x :: t → x = 59 ∨ gv_isdigit x = true := by
        intro x t heq
        cases ds with
        | nil => exact .inl (cons.inj heq).1.symm
        | cons d ds => exact .inr ((cons.inj heq).1 ▸ hall d mem_cons_self)
      split
      next heq => exact absurd (cons.inj heq).1 (by decide)
      next heq => exact absurd (hhead _ _ (cons.inj heq).2) (by decide)
      next heq => exact absurd (hhead _ _ (cons.inj heq).2) (by decide)
      next heq =>
        rw [← (cons.inj heq).2]
        exact (dropWhile_head (by decide)).2 ⟨ds, rest, rfl, hall⟩
      next h => exact absurd rfl (h (ds ++ 59 :: rest))
    | @hexadecimal x ds hx hall =>
      obtain rfl | rfl := hx
      · exact (dropWhile_head (by decide)).2 ⟨ds, rest, rfl, hall⟩
      · exact (dropWhile_head (by decide)).2 ⟨ds, rest, rfl, hall⟩

/-- Letters, digits, `#` and `;`. -/
def calm (c : UInt8) : Bool :=
  gv_isalnum c || c = 35 || c = 59

/-- The bytes of the body of an entity are letters, digits and `#`. -/
theorem IsEntityBody.bytes (h : IsEntityBody body) : ∀ c ∈ body, gv_isalnum c || c = 35 := by
  have halpha : ∀ c, gv_isalpha c = true → (gv_isalnum c || c = 35) = true := by decide +kernel
  have hdigit : ∀ c, gv_isdigit c = true → (gv_isalnum c || c = 35) = true := by decide +kernel
  have hxdigit : ∀ c, gv_isxdigit c = true → (gv_isalnum c || c = 35) = true := by decide +kernel
  intro c hc
  cases h with
  | name _ hall => exact halpha c (hall c hc)
  | decimal hall =>
    obtain rfl | hc := mem_cons.1 hc
    · decide
    · exact hdigit c (hall c hc)
  | hexadecimal hx hall =>
    obtain rfl | hc := mem_cons.1 hc
    · decide
    obtain rfl | hc := mem_cons.1 hc
    · rcases hx with rfl | rfl <;> decide
    · exact hxdigit c (hall c hc)

theorem IsEntityBody.ne_semi (h : IsEntityBody body) : ∀ c ∈ body, c ≠ 59 := by
  rintro c hc rfl
  exact absurd (h.bytes 59 hc) (by decide)

/-- The rest of an entity after `&`. -/
theorem IsEntityBody.calm_semi (h : IsEntityBody body) : ∀ c ∈ body ++ [59], calm c = true := by
  intro c hc
  obtain hc | hc := mem_append.1 hc
  · rw [calm, h.bytes c hc, Bool.true_or]
  · rw [mem_singleton.1 hc]
    decide

/-! ## One step -/

/-- A byte that is emitted as it is. -/
structure Plain (flags : xml_flags_t) (previous c : UInt8) (s : CStr) : Prop where
  marks : c ≠ 60 ∧ c ≠ 62 ∧ c ≠ 34 ∧ c ≠ 39
  amp : c = 38 → flags.raw = false ∧ StartsEntity s
  dash : c = 45 → flags.dash = false
  space : c = 32 → previous = 32 → flags.nbsp = false
  newline : c = 10 ∨ c = 13 → flags.raw = false
  long : 127 < c → flags.utf8 = false

/-- What is emitted for a byte: an entity that stands for it, the entity of a longer character, or
the byte itself. -/
inductive Core (flags : xml_flags_t) (previous c : UInt8) (s : CStr) : CStr → Nat → Prop
  | entity {body : CStr} : IsEntityBody body →
      entityChar body = some (if c = 32 then String.utf8EncodeChar (Char.ofNat 160) else [c]) →
      (c = 32 → previous = 32 ∧ flags.nbsp = true) → c ≤ 127 →
      Core flags previous c s (38 :: body ++ [59]) 1
  | long : 127 < c → flags.utf8 = true → utf8_length c ≠ 0 →
      (∀ l, 1 ≤ l → l < utf8_length c → s.getD (l - 1) 0 ≠ 0) →
      Core flags previous c s (lit "&#x" ++
        hexadecimal (utf8_char (utf8_length c) (c :: s)) ++ lit ";") (utf8_length c)
  | plain : Plain flags previous c s → Core flags previous c s [c] 1

theorem xml_core_plain (h : Plain flags p c s) : xml_core p (c :: s) flags = .ok ([c], 1) := by
  obtain ⟨⟨h60, h62, h34, h39⟩, hamp, hdash, hspace, hnl, hlong⟩ := h
  rw [xml_core, headD_cons, if_neg, if_neg h60, if_neg h62, if_neg, if_neg, if_neg h34,
    if_neg h39, if_neg, if_neg, if_neg]
  · rintro ⟨hc, hutf8⟩
    rw [hlong hc] at hutf8
    exact absurd hutf8 (by decide)
  · rintro ⟨hc, hraw⟩
    rw [hnl (.inr hc)] at hraw
    exact absurd hraw (by decide)
  · rintro ⟨hc, hraw⟩
    rw [hnl (.inl hc)] at hraw
    exact absurd hraw (by decide)
  · rintro ⟨hc, hp, hnbsp⟩
    rw [hspace hc hp] at hnbsp
    exact absurd hnbsp (by decide)
  · rintro ⟨hc, hd⟩
    rw [hdash hc] at hd
    exact absurd hd (by decide)
  · rintro ⟨rfl, hor⟩
    obtain ⟨hraw, hentity⟩ := hamp rfl
    rw [hraw, xml_isentity_iff.2 hentity] at hor
    exact absurd hor (by decide)

theorem xml_core_long (hc : 127 < c) (hutf8 : flags.utf8 = true) (hlen : utf8_length c ≠ 0)
    (hnul : ∀ l, 1 ≤ l → l < utf8_length c → s.getD (l - 1) 0 ≠ 0) :
    xml_core p (c :: s) flags = .ok (lit "&#x" ++
      hexadecimal (utf8_char (utf8_length c) (c :: s)) ++ lit ";", utf8_length c) := by
  have hne : ∀ d : UInt8, d ≤ 127 → c ≠ d := by
    rintro d hd rfl
    exact absurd hc (UInt8.not_lt.2 hd)
  have hany : ¬ (utf8_length c = 0 ∨
      ((List.range' 1 (utf8_length c - 1)).any fun l => (c :: s).getD l 0 == 0) = true) := by
    rintro (h | h)
    · exact hlen h
    · obtain ⟨l, hl, h0⟩ := any_eq_true.1 h
      rw [mem_range'_1] at hl
      obtain ⟨l, rfl⟩ := exists_eq_succ_of_ne_zero (show l ≠ 0 by omega)
      exact hnul (l + 1) (by omega) (by omega) (beq_iff_eq.1 h0)
  rw [xml_core, headD_cons, if_neg fun h => hne 38 (by decide) h.1,
    if_neg (hne 60 (by decide)),
    if_neg (hne 62 (by decide)), if_neg fun h => hne 45 (by decide) h.1,
    if_neg fun h => hne 32 (by decide) h.1, if_neg (hne 34 (by decide)),
    if_neg (hne 39 (by decide)), if_neg fun h => hne 10 (by decide) h.1,
    if_neg fun h => hne 13 (by decide) h.1, if_pos ⟨hc, hutf8⟩]
  exact if_neg hany

theorem ite_eq_ok {P : Prop} [Decidable P] {x y : Except Fault (CStr × Nat)}
    (h : (if P then x else y) = .ok (t, k)) :
    (P ∧ x = .ok (t, k)) ∨ (¬ P ∧ y = .ok (t, k)) := by
  split at h
  next hP => exact .inl ⟨hP, h⟩
  next hP => exact .inr ⟨hP, h⟩

/-- An entity for a byte that is not a space. -/
theorem Core.of_text (hbody : IsEntityBody body) (hchar : entityChar body = some [c])
    (hc : c ≤ 127 ∧ c ≠ 32) (htext : (.ok (t, k) : Except Fault (CStr × Nat)) =
      .ok (38 :: body ++ [59], 1)) : Core flags p c s t k := by
  obtain ⟨rfl, rfl⟩ := mk.inj (Except.ok.inj htext)
  refine .entity hbody ?_ (fun h32 => absurd h32 hc.2) hc.1
  rw [if_neg hc.2, hchar]

theorem xml_core_cases (h : xml_core p (c :: s) flags = .ok (t, k)) : Core flags p c s t k := by
  have hname : ∀ body : CStr, (body ≠ [] ∧ ∀ c ∈ body, gv_isalpha c = true) → IsEntityBody body :=
    fun body hb => .name hb.1 hb.2
  have hdec : ∀ ds : CStr, (∀ c ∈ ds, gv_isdigit c = true) → IsEntityBody (35 :: ds) :=
    fun ds hds => .decimal hds
  rw [xml_core, headD_cons] at h
  obtain ⟨⟨rfl, -⟩, hok⟩ | ⟨hamp, h⟩ := ite_eq_ok h
  · exact .of_text (hname (lit "amp") (by decide +kernel)) (by decide +kernel) (by decide) hok.symm
  obtain ⟨rfl, hok⟩ | ⟨hlt, h⟩ := ite_eq_ok h
  · exact .of_text (hname (lit "lt") (by decide +kernel)) (by decide +kernel) (by decide) hok.symm
  obtain ⟨rfl, hok⟩ | ⟨hgt, h⟩ := ite_eq_ok h
  · exact .of_text (hname (lit "gt") (by decide +kernel)) (by decide +kernel) (by decide) hok.symm
  obtain ⟨⟨rfl, -⟩, hok⟩ | ⟨hdash, h⟩ := ite_eq_ok h
  · exact .of_text (hdec (lit "45") (by decide +kernel)) (by decide +kernel) (by decide) hok.symm
  obtain ⟨⟨rfl, hp, hnbsp⟩, hok⟩ | ⟨hspace, h⟩ := ite_eq_ok h
  · obtain ⟨rfl, rfl⟩ := mk.inj (Except.ok.inj hok)
    exact .entity (hdec (lit "160") (by decide +kernel)) (by decide +kernel)
      (fun _ => ⟨hp, hnbsp⟩) (by decide)
  obtain ⟨rfl, hok⟩ | ⟨hquot, h⟩ := ite_eq_ok h
  · exact .of_text (hname (lit "quot") (by decide +kernel)) (by decide +kernel) (by decide) hok.symm
  obtain ⟨rfl, hok⟩ | ⟨happ, h⟩ := ite_eq_ok h
  · exact .of_text (hdec (lit "39") (by decide +kernel)) (by decide +kernel) (by decide) hok.symm
  obtain ⟨⟨rfl, -⟩, hok⟩ | ⟨hnl, h⟩ := ite_eq_ok h
  · exact .of_text (hdec (lit "10") (by decide +kernel)) (by decide +kernel) (by decide) hok.symm
  obtain ⟨⟨rfl, -⟩, hok⟩ | ⟨hcr, h⟩ := ite_eq_ok h
  · exact .of_text (hdec (lit "13") (by decide +kernel)) (by decide +kernel) (by decide) hok.symm
  obtain ⟨⟨hc, hutf8⟩, h⟩ | ⟨hlong, h⟩ := ite_eq_ok h
  · obtain ⟨-, h⟩ | ⟨hany, h⟩ := ite_eq_ok h
    · exact absurd h nofun
    · obtain ⟨rfl, rfl⟩ := mk.inj (Except.ok.inj h)
      rw [not_or] at hany
      refine .long hc hutf8 hany.1 fun l hl hlt h0 => hany.2 (any_eq_true.2 ⟨l, ?_, ?_⟩)
      · rw [mem_range'_1]
        omega
      · obtain ⟨l, rfl⟩ := exists_eq_succ_of_ne_zero (show l ≠ 0 by omega)
        exact beq_iff_eq.2 h0
  · obtain ⟨rfl, rfl⟩ := mk.inj (Except.ok.inj h)
    refine .plain ⟨⟨hlt, hgt, hquot, happ⟩, ?_, ?_, ?_, ?_, ?_⟩
    · rintro rfl
      rw [not_and_or, not_or, Bool.not_eq_true, Bool.not_eq_true', Bool.not_eq_false] at hamp
      obtain ⟨hraw, hentity⟩ := hamp.resolve_left fun h => h rfl
      exact ⟨hraw, xml_isentity_iff.1 hentity⟩
    · exact fun hc => Bool.eq_false_iff.2 fun hd => hdash ⟨hc, hd⟩
    · exact fun hc hp => Bool.eq_false_iff.2 fun hd => hspace ⟨hc, hp, hd⟩
    · rintro (hc | hc)
      · exact Bool.eq_false_iff.2 fun hd => hnl ⟨hc, hd⟩
      · exact Bool.eq_false_iff.2 fun hd => hcr ⟨hc, hd⟩
    · exact fun hc => Bool.eq_false_iff.2 fun hd => hlong ⟨hc, hd⟩

/-! ## The whole string -/

/-- The output for a string, after the byte `previous`. -/
inductive Escapes (flags : xml_flags_t) : UInt8 → CStr → CStr → Prop
  | stop {previous : UInt8} {s : CStr} : (∀ c ∈ s.head?, c = 0) → Escapes flags previous s []
  | step {previous c : UInt8} {s text out : CStr} {used : Nat} : c ≠ 0 →
      xml_core previous (c :: s) flags = .ok (text, used) →
      Escapes flags c (s.drop (used - 1)) out → Escapes flags previous (c :: s) (text ++ out)

theorem xml_loop_iff {acc : CStr} {rc : Int} : xml_loop flags collect p 0 s acc = .ok (rc, out) ↔
    rc = 0 ∧ ∃ o, out = acc ++ o ∧ Escapes flags p s o := by
  induction hn : s.length using Nat.strong_induction_on generalizing p s acc with
  | _ n ih =>
  cases s with
  | nil =>
    rw [xml_loop, Except.ok.injEq, mk.injEq]
    constructor
    · rintro ⟨rfl, rfl⟩
      exact ⟨rfl, [], (append_nil _).symm, .stop nofun⟩
    · rintro ⟨rfl, o, rfl, ho⟩
      cases ho with
      | stop => exact ⟨rfl, (append_nil _).symm⟩
  | cons c s =>
    rw [xml_loop]
    split
    next h0 =>
      rw [Except.ok.injEq, mk.injEq]
      constructor
      · rintro ⟨rfl, rfl⟩
        exact ⟨rfl, [], (append_nil _).symm, .stop fun d hd => by
          rw [← Option.some_inj.1 hd, h0]⟩
      · rintro ⟨rfl, o, rfl, ho⟩
        cases ho with
        | stop => exact ⟨rfl, (append_nil _).symm⟩
        | step hc => exact absurd h0 hc
    next h0 =>
      split
      next e he =>
        refine ⟨nofun, ?_⟩
        rintro ⟨-, o, -, ho⟩
        cases ho with
        | stop hs => exact absurd (hs c rfl) h0
        | step _ hcore => exact absurd (he.symm.trans hcore) nofun
      next text used hcore =>
        have hlt : (s.drop (used - 1)).length < n := by
          rw [← hn, length_drop, length_cons]
          omega
        refine (ih _ hlt rfl).trans (and_congr_right fun _ => ?_)
        constructor
        · rintro ⟨o, rfl, ho⟩
          exact ⟨text ++ o, append_assoc .., .step h0 hcore ho⟩
        · rintro ⟨o, rfl, ho⟩
          cases ho with
          | stop hs => exact absurd (hs c rfl) h0
          | step _ hcore' ho =>
            obtain ⟨rfl, rfl⟩ := mk.inj (Except.ok.inj (hcore.symm.trans hcore'))
            exact ⟨_, (append_assoc ..).symm, ho⟩

theorem gv_xml_escape_iff {rc : Int} : gv_xml_escape s flags collect [] = .ok (rc, out) ↔
    rc = 0 ∧ Escapes flags 0 s out := by
  rw [gv_xml_escape, xml_loop_iff]
  refine and_congr_right fun _ => ⟨?_, fun h => ⟨out, rfl, h⟩⟩
  rintro ⟨o, rfl, h⟩
  exact h

/-! ## Entities that are looked at again -/

theorem plain_of_calm (hc : calm c = true) : Plain flags p c s := by
  have hmarks : ∀ c, calm c = true → (c ≠ 60 ∧ c ≠ 62 ∧ c ≠ 34 ∧ c ≠ 39) ∧ c ≠ 38 ∧ c ≠ 45 ∧
      c ≠ 32 ∧ (c ≠ 10 ∧ c ≠ 13) ∧ ¬ 127 < c := by decide +kernel
  obtain ⟨hm, h38, h45, h32, hnl, hlong⟩ := hmarks c hc
  exact ⟨hm, fun h => absurd h h38, fun h => absurd h h45, fun h => absurd h h32,
    fun h => h.elim (fun h => absurd h hnl.1) fun h => absurd h hnl.2, fun h => absurd h hlong⟩

theorem calm_ne_zero (hc : calm c = true) : c ≠ 0 := by
  rintro rfl
  exact absurd hc (by decide)

/-- A plain byte is emitted as it is. -/
theorem Escapes.plain (hc : c ≠ 0) (h : Plain flags p c s) (hs : Escapes flags c s out) :
    Escapes flags p (c :: s) (c :: out) :=
  .step hc (xml_core_plain h) hs

/-- Letters, digits, `#` and `;` are emitted as they are. -/
theorem Escapes.calm (hbody : ∀ c ∈ body, calm c = true) (hp : p ≠ 32)
    (hs : ∀ p, p ≠ 32 → Escapes flags p s out) : Escapes flags p (body ++ s) (body ++ out) := by
  induction body generalizing p with
  | nil => exact hs p hp
  | cons c body ih =>
    have hc := hbody c mem_cons_self
    refine .plain (calm_ne_zero hc) (plain_of_calm hc)
      (ih (fun d hd => hbody d (mem_cons_of_mem c hd)) ?_)
    rintro rfl
    exact absurd hc (by decide)

theorem Escapes.of_calm (hbody : ∀ c ∈ body, Graphviz.calm c = true)
    (h : Escapes flags p (body ++ s) out) : ∃ rest, out = body ++ rest := by
  induction body generalizing p out with
  | nil => exact ⟨out, rfl⟩
  | cons c body ih =>
    have hc := hbody c mem_cons_self
    cases h with
    | stop hs => exact absurd (hs c rfl) (calm_ne_zero hc)
    | step _ hcore hs =>
      rw [xml_core_plain (plain_of_calm hc)] at hcore
      obtain ⟨rfl, rfl⟩ := mk.inj (Except.ok.inj hcore)
      obtain ⟨rest, rfl⟩ := ih (fun d hd => hbody d (mem_cons_of_mem c hd)) hs
      exact ⟨rest, rfl⟩

/-- An entity in the string is an entity in the output. -/
theorem Escapes.startsEntity (hs : StartsEntity s) (h : Escapes flags p s out) :
    StartsEntity out := by
  obtain ⟨body, rest, rfl, hbody⟩ := hs
  rw [← singleton_append, ← append_assoc] at h
  obtain ⟨rest', rfl⟩ := h.of_calm hbody.calm_semi
  exact ⟨body, rest', by rw [append_assoc, singleton_append], hbody⟩

/-! ## Hexadecimal digits -/

theorem digitChar_spec {d : Nat} (h : d < 16) : gv_isxdigit (d.digitChar).toNat.toUInt8 = true ∧
    digitVal (d.digitChar).toNat.toUInt8 = d := by
  have hall : ∀ d : Fin 16, gv_isxdigit (d.val.digitChar).toNat.toUInt8 = true ∧
      digitVal (d.val.digitChar).toNat.toUInt8 = d := by decide
  exact hall ⟨d, h⟩

theorem hexadecimal_spec (n : Nat) : (∀ c ∈ hexadecimal n, gv_isxdigit c = true) ∧
    natOf 16 (hexadecimal n) = n := by
  induction n using Nat.strong_induction_on with
  | _ n ih =>
  obtain hlt | hge := lt_or_ge n 16
  · obtain ⟨hdigit, hval⟩ := digitChar_spec hlt
    rw [hexadecimal, toDigits_of_lt_base hlt, map_singleton]
    refine ⟨fun c hc => mem_singleton.1 hc ▸ hdigit, ?_⟩
    rw [natOf, foldl_cons, hval, foldl_nil]
    omega
  · obtain ⟨hdigits, hval⟩ := ih (n / 16) (by omega)
    obtain ⟨hdigit, hlast⟩ := digitChar_spec (show n % 16 < 16 by omega)
    have heq : hexadecimal n = hexadecimal (n / 16) ++ [((n % 16).digitChar).toNat.toUInt8] := by
      rw [hexadecimal, toDigits_of_base_le (by decide) hge, map_append, map_singleton,
        hexadecimal]
    rw [heq]
    refine ⟨fun c hc => (mem_append.1 hc).elim (hdigits c)
      fun hc => mem_singleton.1 hc ▸ hdigit, ?_⟩
    rw [natOf, foldl_append, foldl_cons, foldl_nil, hlast]
    rw [natOf] at hval
    rw [hval]
    omega

theorem hexBody (n : Nat) : IsEntityBody (35 :: 120 :: hexadecimal n) :=
  .hexadecimal (.inl rfl) (hexadecimal_spec n).1

/-- What is emitted is an entity or a plain byte. -/
theorem Core.text (h : Core flags p c s t k) :
    (∃ body, t = 38 :: body ++ [59] ∧ IsEntityBody body) ∨ Plain flags p c s ∧ t = [c] ∧ k = 1 := by
  cases h with
  | entity hbody _ _ _ => exact .inl ⟨_, rfl, hbody⟩
  | long _ _ _ _ => exact .inl ⟨_, rfl, hexBody _⟩
  | plain hplain => exact .inr ⟨hplain, rfl, rfl⟩

/-! ## The properties of the output -/

/-- The output has nothing that has to be escaped. -/
theorem Escapes.escaped (h : Escapes flags p s out) : Escaped out := by
  induction h with
  | stop => exact ⟨nofun, fun s hs => absurd (suffix_nil.1 hs) nofun⟩
  | @step previous c s text out used hc hcore hout ih =>
    obtain ⟨hmarks, hamp⟩ := ih
    obtain ⟨body, rfl, hbody⟩ | ⟨hplain, rfl, rfl⟩ := (xml_core_cases hcore).text
    · refine ⟨fun d hd => ?_, fun s' hs' => ?_⟩
      · obtain hd | hd := mem_append.1 hd
        · obtain hd | hd := mem_append.1 hd
          · obtain rfl | hd := mem_cons.1 hd
            · decide
            · have hplain : Plain flags 0 d [] :=
                plain_of_calm (hbody.calm_semi d (mem_append_left [59] hd))
              exact hplain.marks
          · rw [mem_singleton.1 hd]
            decide
        · exact hmarks d hd
      · have hsplit : ∀ w : CStr, (∀ d ∈ w, Graphviz.calm d = true) → 38 :: s' <:+ w ++ out →
            38 :: s' <:+ out := by
          intro w
          induction w with
          | nil => exact fun _ h => h
          | cons d w ihw =>
            intro hw h
            rw [cons_append, suffix_cons_iff] at h
            obtain h | h := h
            · have hd := hw d mem_cons_self
              rw [← (cons.inj h).1] at hd
              exact absurd hd (by decide)
            · exact ihw (fun d hd => hw d (mem_cons_of_mem _ hd)) h
        rw [cons_append, cons_append, suffix_cons_iff] at hs'
        obtain heq | hs' := hs'
        · rw [(cons.inj heq).2, append_assoc, singleton_append]
          exact ⟨body, out, rfl, hbody⟩
        · exact hamp s' (hsplit (body ++ [59]) hbody.calm_semi hs')
    · refine ⟨fun d hd => ?_, fun s' hs' => ?_⟩
      · obtain rfl | hd := mem_cons.1 hd
        · exact hplain.marks
        · exact hmarks d hd
      · rw [singleton_append, suffix_cons_iff] at hs'
        obtain heq | hs' := hs'
        · obtain ⟨rfl, rfl⟩ := cons.inj heq
          exact hout.startsEntity (hplain.amp rfl).2
        · exact hamp s' hs'

/-- Without `raw` the output is escaped to itself. -/
theorem Escapes.again (hraw : flags.raw = false) (h : Escapes flags p s out)
    (hp : p' = 32 → p = 32) : Escapes flags p' out out := by
  induction h generalizing p' with
  | stop => exact .stop nofun
  | @step previous c s text out used hc hcore hout ih =>
    obtain ⟨body, rfl, hbody⟩ | ⟨hplain, rfl, rfl⟩ := (xml_core_cases hcore).text
    · have hout : ∀ q, q ≠ 32 → Escapes flags q out out := fun q hq => ih fun h => absurd h hq
      have hrest := Escapes.calm hbody.calm_semi (show (38 : UInt8) ≠ 32 by decide) hout
      refine .plain (by decide) ⟨by decide, fun _ => ⟨hraw, body, out, ?_, hbody⟩,
        fun h => absurd h (by decide), fun h => absurd h (by decide),
        fun h => absurd h (by decide), fun h => absurd h (by decide)⟩ hrest
      exact append_assoc body [59] out
    · refine .plain hc ⟨hplain.marks, fun h => ⟨hraw, hout.startsEntity (hplain.amp h).2⟩,
        hplain.dash, fun h32 hp' => hplain.space h32 (hp hp'), hplain.newline, hplain.long⟩
        (ih id)

/-! ## Reading the entities back -/

theorem unescape_cons (hc : c ≠ 38) : unescape (c :: s) = c :: unescape s := by
  rw [unescape, if_neg hc]

theorem unescape_entity (hbody : ∀ c ∈ body, c ≠ 59) (ht : entityChar body = some t) :
    unescape (38 :: body ++ [59] ++ s) = t ++ unescape s := by
  have hne : ∀ c ∈ body, (c != 59) = true := fun c hc => bne_iff_ne.2 (hbody c hc)
  have htake : (body ++ 59 :: s).takeWhile (· != 59) = body := by
    rw [takeWhile_append_of_pos hne, takeWhile_cons_of_neg (by decide), append_nil]
  have hdrop : (body ++ 59 :: s).dropWhile (· != 59) = 59 :: s := by
    rw [dropWhile_append_of_pos hne, dropWhile_cons_of_neg (by decide)]
  rw [append_assoc, cons_append, singleton_append, unescape, if_pos rfl]
  split
  next t' b rest ht' hrest =>
    rw [htake, ht, Option.some_inj] at ht'
    rw [hdrop] at hrest
    rw [ht', (cons.inj hrest).2]
  next hno => exact absurd hdrop (hno t 59 s (by rw [htake, ht]))

/-- A byte that can be escaped on its own is escaped and read back. -/
theorem unescape_byte (hraw : flags.raw = true) (hlong : 127 < c → flags.utf8 = false) :
    ∃ text, xml_core p (c :: s) flags = .ok (text, 1) ∧ ∀ rest, unescape (text ++ rest) =
      (if c = 32 ∧ p = 32 ∧ flags.nbsp then String.utf8EncodeChar (Char.ofNat 160) else [c]) ++
        unescape rest := by
  have hite : ∀ {P : Prop} [Decidable P] {x y : Except Fault (CStr × Nat)},
      (∃ r, x = .ok r) → (∃ r, y = .ok r) → ∃ r, (if P then x else y) = .ok r := by
    intro P _ x y hx hy
    split
    · exact hx
    · exact hy
  have hreturns : ∃ r, xml_core p (c :: s) flags = .ok r := by
    rw [xml_core, headD_cons]
    refine hite ⟨_, rfl⟩ (hite ⟨_, rfl⟩ (hite ⟨_, rfl⟩ (hite ⟨_, rfl⟩ (hite ⟨_, rfl⟩
      (hite ⟨_, rfl⟩ (hite ⟨_, rfl⟩ (hite ⟨_, rfl⟩ (hite ⟨_, rfl⟩ ?_))))))))
    rw [if_neg]
    · exact ⟨_, rfl⟩
    · rintro ⟨hc, hutf8⟩
      rw [hlong hc] at hutf8
      exact absurd hutf8 (by decide)
  obtain ⟨⟨text, used⟩, hcore⟩ := hreturns
  cases xml_core_cases hcore with
  | @entity body hbody hchar hspace hle =>
    refine ⟨_, hcore, fun rest => ?_⟩
    rw [unescape_entity hbody.ne_semi hchar]
    by_cases h32 : c = 32
    · rw [if_pos h32, if_pos ⟨h32, hspace h32⟩]
    · rw [if_neg h32, if_neg fun h => h32 h.1]
  | long hc hutf8 _ _ =>
    rw [hlong hc] at hutf8
    exact absurd hutf8 (by decide)
  | plain hplain =>
    refine ⟨_, hcore, fun rest => ?_⟩
    rw [singleton_append, unescape_cons, if_neg]
    · rfl
    · rintro ⟨h32, hp, hnbsp⟩
      rw [hplain.space h32 hp] at hnbsp
      exact absurd hnbsp (by decide)
    · intro h38
      rw [(hplain.amp h38).1] at hraw
      exact absurd hraw (by decide)

/-! ## Characters of several bytes -/

theorem low_or_high {low high k : Nat} (h : low < 2 ^ k) :
    low ||| (high <<< k) = low + high * 2 ^ k := by
  rw [Nat.or_comm, ← Nat.shiftLeft_add_eq_or_of_lt h, Nat.shiftLeft_eq, Nat.add_comm]

theorem utf8_length_eq (b : UInt8) : utf8_length b =
    if b.toNat / 32 = 6 then 2 else if b.toNat / 16 = 14 then 3
    else if b.toNat / 8 = 30 then 4 else 0 := by
  simp only [utf8_length, shiftRight_eq_div_pow, Nat.reducePow]

/-- The code point of a character is computed from its bytes. -/
theorem utf8_char_encode (ch : Char) (h : 128 ≤ ch.toNat) :
    ∃ b bs, String.utf8EncodeChar ch = b :: bs ∧ 128 ≤ b.toNat ∧ utf8_length b = bs.length + 1 ∧
      (∀ s, utf8_char (utf8_length b) (b :: (bs ++ s)) = ch.toNat) ∧
      ∀ d ∈ bs, 128 ≤ d.toNat := by
  have hmask : ∀ k x, x &&& (2 ^ k - 1) = x % 2 ^ k := fun k x => and_two_pow_sub_one_eq_mod x k
  have h3 := hmask 3
  have h4 := hmask 4
  have h5 := hmask 5
  have h6 := hmask 6
  simp only [Nat.reducePow, Nat.reduceSub] at h3 h4 h5 h6
  obtain ⟨hc, heq⟩ | ⟨hc, heq⟩ | ⟨hc, heq⟩ | ⟨hc, heq⟩ := Utf8.encode_cases ch
  · omega
  · have hb := Utf8.toNat_ofNat (show ch.toNat / 64 + 0xc0 < 256 by omega)
    have hd := Utf8.toNat_ofNat (show ch.toNat % 64 + 0x80 < 256 by omega)
    have hlen : utf8_length (.ofNat (ch.toNat / 64 + 0xc0)) = 2 := by
      rw [utf8_length_eq, hb, if_pos (by omega)]
    refine ⟨_, _, heq, by omega, hlen, fun s => ?_,
      by rw [forall_mem_singleton, hd]; omega⟩
    rw [hlen]
    simp only [utf8_char, getD_cons_zero, getD_cons_succ, cons_append, hb, hd, h5, h6]
    rw [low_or_high (k := 6) (by omega)]
    omega
  · have hb := Utf8.toNat_ofNat (show ch.toNat / 4096 + 0xe0 < 256 by omega)
    have hd := Utf8.toNat_ofNat (show ch.toNat / 64 % 64 + 0x80 < 256 by omega)
    have he := Utf8.toNat_ofNat (show ch.toNat % 64 + 0x80 < 256 by omega)
    have hlen : utf8_length (.ofNat (ch.toNat / 4096 + 0xe0)) = 3 := by
      rw [utf8_length_eq, hb, if_neg (by omega), if_pos (by omega)]
    refine ⟨_, _, heq, by omega, hlen, fun s => ?_,
      by rw [forall_mem_cons, forall_mem_singleton, hd, he]; omega⟩
    rw [hlen]
    simp only [utf8_char, getD_cons_zero, getD_cons_succ, cons_append, hb, hd, he, h4, h6]
    rw [low_or_high (k := 6) (by omega), low_or_high (k := 12) (by omega)]
    omega
  · have hb := Utf8.toNat_ofNat (show ch.toNat / 262144 + 0xf0 < 256 by omega)
    have hd := Utf8.toNat_ofNat (show ch.toNat / 4096 % 64 + 0x80 < 256 by omega)
    have he := Utf8.toNat_ofNat (show ch.toNat / 64 % 64 + 0x80 < 256 by omega)
    have hf := Utf8.toNat_ofNat (show ch.toNat % 64 + 0x80 < 256 by omega)
    have hlen : utf8_length (.ofNat (ch.toNat / 262144 + 0xf0)) = 4 := by
      rw [utf8_length_eq, hb, if_neg (by omega), if_neg (by omega), if_pos (by omega)]
    refine ⟨_, _, heq, by omega, hlen, fun s => ?_, by
      rw [forall_mem_cons, forall_mem_cons, forall_mem_singleton, hd, he, hf]; omega⟩
    rw [hlen]
    simp only [utf8_char, getD_cons_zero, getD_cons_succ, cons_append, hb, hd, he, hf, h3, h6]
    rw [low_or_high (k := 6) (by omega), low_or_high (k := 12) (by omega),
      low_or_high (k := 18) (by omega)]
    omega

theorem noBreakSpaces_congr {b : Bool} (h : p = 32 ↔ p' = 32) :
    noBreakSpaces b p s = noBreakSpaces b p' s := by
  cases s with
  | nil => rfl
  | cons c s => simp only [noBreakSpaces, h]

/-- A string that has no space keeps what follows it. -/
theorem noBreakSpaces_append {b : Bool} (ht : ∀ c ∈ t, c ≠ 32) (hp : p ≠ 32) :
    noBreakSpaces b p (t ++ s) = t ++ noBreakSpaces b p s := by
  induction t generalizing p with
  | nil => rfl
  | cons c t ih =>
    have hc := ht c mem_cons_self
    have hsame : noBreakSpaces b c s = noBreakSpaces b p s :=
      noBreakSpaces_congr ⟨fun h => absurd h hc, fun h => absurd h hp⟩
    rw [cons_append, noBreakSpaces, if_neg fun h => hc h.1, ih
      (fun d hd => ht d (mem_cons_of_mem c hd)) hc, singleton_append, hsame,
      cons_append]

theorem byte_ne {d n : UInt8} (hd : 128 ≤ d.toNat) (hn : n.toNat < 128) : d ≠ n := by
  rintro rfl
  omega

/-- A character of several bytes is escaped and read back. -/
theorem unescape_char (hutf8 : flags.utf8 = true) (ch : Char) (hch : 128 ≤ ch.toNat)
    (hs : ∀ p, p ≠ 32 → ∃ out, Escapes flags p s out ∧ unescape out = noBreakSpaces flags.nbsp p s) :
    ∃ out, Escapes flags p (String.utf8EncodeChar ch ++ s) out ∧ unescape out =
      noBreakSpaces flags.nbsp p (String.utf8EncodeChar ch ++ s) := by
  obtain ⟨b, bs, heq, hb, hlen, hchar, hbs⟩ := utf8_char_encode ch hch
  have h32 : b ≠ 32 := byte_ne hb (by decide)
  obtain ⟨out, hout, hread⟩ := hs b h32
  have h127 : (127 : UInt8).toNat < b.toNat := lt_of_lt_of_le (by decide) hb
  have hnul : ∀ l, 1 ≤ l → l < utf8_length b → (bs ++ s).getD (l - 1) 0 ≠ 0 := by
    intro l hl hlt
    have hlt : l - 1 < bs.length := by omega
    rw [getD_eq_getElem?_getD, getElem?_append_left hlt, getElem?_eq_getElem hlt, Option.getD_some]
    exact byte_ne (hbs _ (getElem_mem hlt)) (by decide)
  have hcore := @xml_core_long flags p b (bs ++ s) (UInt8.lt_iff_toNat_lt.2 h127) hutf8
    (by omega) hnul
  have hdrop : (bs ++ s).drop (utf8_length b - 1) = s := by
    rw [hlen, Nat.add_sub_cancel, drop_left]
  rw [heq, cons_append]
  refine ⟨_, .step (byte_ne hb (by decide)) hcore (hdrop.symm ▸ hout), ?_⟩
  have hbody := hexBody (utf8_char (utf8_length b) (b :: (bs ++ s)))
  have hentity : entityChar (35 :: 120 :: hexadecimal (utf8_char (utf8_length b) (b :: (bs ++ s)))) =
      some (b :: bs) := by
    rw [hchar, ← heq]
    change some (String.utf8EncodeChar (Char.ofNat (natOf 16 (hexadecimal ch.toNat)))) = _
    rw [(hexadecimal_spec ch.toNat).2, Char.ofNat_toNat]
  refine (unescape_entity hbody.ne_semi hentity).trans ?_
  rw [hread, noBreakSpaces, if_neg fun h => h32 h.1, noBreakSpaces_append
    (fun d hd => byte_ne (hbs d hd) (by decide)) h32]
  rfl

/-- With `raw` the output is read back. -/
theorem exists_escapes_bytes (hraw : flags.raw = true) (hutf8 : flags.utf8 = false)
    (hs : 0 ∉ s) : ∃ out, Escapes flags p s out ∧ unescape out = noBreakSpaces flags.nbsp p s := by
  induction s generalizing p with
  | nil => exact ⟨[], .stop nofun, by rw [unescape, noBreakSpaces]⟩
  | cons c s ih =>
    rw [mem_cons, not_or] at hs
    obtain ⟨out, hout, hread⟩ := ih (p := c) hs.2
    obtain ⟨text, hcore, htext⟩ := unescape_byte (p := p) (c := c) (s := s) hraw fun _ => hutf8
    exact ⟨text ++ out, .step (Ne.symm hs.1) hcore hout, by rw [htext, hread, noBreakSpaces]⟩

theorem exists_escapes_chars (hraw : flags.raw = true) (hutf8 : flags.utf8 = true) (cs : List Char)
    (hs : 0 ∉ cs.flatMap String.utf8EncodeChar) :
    ∃ out, Escapes flags p (cs.flatMap String.utf8EncodeChar) out ∧
      unescape out = noBreakSpaces flags.nbsp p (cs.flatMap String.utf8EncodeChar) := by
  induction cs generalizing p with
  | nil => exact ⟨[], .stop nofun, by rw [flatMap_nil, unescape, noBreakSpaces]⟩
  | cons ch cs ih =>
    rw [flatMap_cons, mem_append, not_or] at hs
    rw [flatMap_cons]
    obtain hlt | hge := lt_or_ge ch.toNat 128
    · obtain ⟨hc, heq⟩ | ⟨hc, heq⟩ | ⟨hc, heq⟩ | ⟨hc, heq⟩ := Utf8.encode_cases ch
      · have hnat := Utf8.toNat_ofNat (show ch.toNat < 256 by omega)
        rw [heq, mem_singleton] at hs
        rw [heq, singleton_append]
        obtain ⟨out, hout, hread⟩ := ih (p := .ofNat ch.toNat) hs.2
        obtain ⟨text, hcore, htext⟩ := unescape_byte (p := p) (c := .ofNat ch.toNat)
          (s := cs.flatMap String.utf8EncodeChar) hraw fun hlong => by
            rw [UInt8.lt_iff_toNat_lt, hnat] at hlong
            exact absurd hlong (not_lt.2 (le_of_lt_succ hlt))
        exact ⟨text ++ out, .step (Ne.symm hs.1) hcore hout, by rw [htext, hread, noBreakSpaces]⟩
      · omega
      · omega
      · omega
    · exact unescape_char hutf8 ch hge fun _ _ => ih hs.2

/-- **Escaping.** The output has no character that has to be escaped. With `raw` it is read back to
the string, but for the spaces that `nbsp` makes no-break spaces; the string is well-formed if
`utf8` is set. Without `raw` the output is escaped to itself. -/
theorem gv_xml_escape_spec (flags : xml_flags_t) (s : CStr) :
    (∀ out, gv_xml_escape s flags collect [] = .ok (0, out) → Escaped out) ∧
    (flags.raw = true → 0 ∉ s → (flags.utf8 = true → Utf8.WellFormed s) →
      ∃ out, gv_xml_escape s flags collect [] = .ok (0, out) ∧
        unescape out = noBreakSpaces flags.nbsp 0 s) ∧
    (flags.raw = false → ∀ out, gv_xml_escape s flags collect [] = .ok (0, out) →
      gv_xml_escape out flags collect [] = .ok (0, out)) := by
  refine ⟨fun out h => (gv_xml_escape_iff.1 h).2.escaped, fun hraw hs hwell => ?_,
    fun hraw out h => gv_xml_escape_iff.2 ⟨rfl, (gv_xml_escape_iff.1 h).2.again hraw id⟩⟩
  cases hutf8 : flags.utf8 with
  | false =>
    obtain ⟨out, hout, hread⟩ := exists_escapes_bytes (p := 0) hraw hutf8 hs
    exact ⟨out, gv_xml_escape_iff.2 ⟨rfl, hout⟩, hread⟩
  | true =>
    obtain ⟨cs, rfl⟩ := hwell hutf8
    obtain ⟨out, hout, hread⟩ := exists_escapes_chars (p := 0) hraw hutf8 cs hs
    exact ⟨out, gv_xml_escape_iff.2 ⟨rfl, hout⟩, hread⟩

/-- Two spaces, with a no-break space for the second. -/
theorem gv_xml_escape_nbsp : ∃ out, gv_xml_escape [32, 32] ⟨true, false, true, false⟩ collect [] =
    .ok (0, out) ∧ unescape out ≠ [32, 32] := by
  obtain ⟨out, hout, hread⟩ := @exists_escapes_bytes ⟨true, false, true, false⟩ 0 [32, 32] rfl rfl
    (by decide)
  refine ⟨out, gv_xml_escape_iff.2 ⟨rfl, hout⟩, ?_⟩
  rw [hread]
  decide

end Graphviz
