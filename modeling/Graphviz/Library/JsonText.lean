import Graphviz.Library.Json
import Mathlib

/-!
# Texts made of JSON values

Texts of numbers, of strings with their quotes and backslashes escaped, of arrays and of objects of
one member: what each is read as, and when it is not JSON at all.
-/

namespace Json

open List Nat Option

variable {s t w rest : List UInt8} {c : UInt8} {k : Nat} {v : Value}

/-! ## Texts of values -/

/-- What may follow a value: a comma, a closing bracket or brace, white space, or nothing. -/
def Stop (rest : List UInt8) : Prop :=
  ∀ c ∈ rest.head?, c = 44 ∨ c = 93 ∨ c = 125 ∨ isWs c = true

/-- What comes of a text of one value, wherever it stands: its value, or none where it is not
JSON. Its own length is enough fuel. -/
def Parses (t : List UInt8) (o : Option Value) : Prop :=
  ∀ k > t.length, ∀ rest, Stop rest → value k (t ++ rest) = o.map (·, rest)

/-- After white space, the text begins with another byte than a closing bracket. -/
def Begins (t : List UInt8) : Prop :=
  ∃ w c u, t = w ++ c :: u ∧ (∀ b ∈ w, isWs b = true) ∧ isWs c = false ∧ c ≠ 93

theorem Begins.of_cons (hc : isWs c = false) (h93 : c ≠ 93) : Begins (c :: s) :=
  ⟨[], c, s, rfl, nofun, hc, h93⟩

theorem Begins.append (h : Begins t) (s : List UInt8) : Begins (t ++ s) := by
  obtain ⟨w, c, u, rfl, hw, hc, h93⟩ := h
  exact ⟨w, c, u ++ s, by rw [append_assoc, cons_append], hw, hc, h93⟩

theorem Begins.ws (h : Begins t) (hw : ∀ b ∈ w, isWs b = true) : Begins (w ++ t) := by
  obtain ⟨w', c, u, rfl, hw', hc, h93⟩ := h
  exact ⟨w ++ w', c, u, (append_assoc _ _ _).symm,
    fun b hb => (mem_append.1 hb).elim (hw b) (hw' b), hc, h93⟩

theorem Begins.length_pos (h : Begins t) : 0 < t.length := by
  obtain ⟨w, c, u, rfl, -⟩ := h
  rw [length_append, length_cons]
  omega

theorem Begins.skipWs_eq (h : Begins t) : ∃ c u, skipWs t = c :: u ∧ c ≠ 93 := by
  obtain ⟨w, c, u, rfl, hw, hc, h93⟩ := h
  exact ⟨c, u, (skipWs_append hw).trans (skipWs_cons hc), h93⟩

theorem Parses.ws {o : Option Value} (h : Parses t o) (hw : ∀ b ∈ w, isWs b = true) :
    Parses (w ++ t) o := by
  intro k hk rest hrest
  rw [length_append] at hk
  rw [append_assoc, value_skipWs (skipWs_append hw)]
  exact h k (by omega) rest hrest

/-! ## Numbers -/

theorem takeWhile_digits {ds : List UInt8} (hds : ∀ c ∈ ds, isDigit c = true)
    (hrest : ∀ c ∈ rest.head?, isDigit c = false) :
    (ds ++ rest).takeWhile isDigit = ds ∧ (ds ++ rest).dropWhile isDigit = rest := by
  induction ds with
  | nil =>
    cases rest with
    | nil => exact ⟨rfl, rfl⟩
    | cons c rest =>
      have hc : ¬isDigit c = true := by rw [hrest c rfl]; exact Bool.false_ne_true
      exact ⟨takeWhile_cons_of_neg hc, dropWhile_cons_of_neg hc⟩
  | cons c ds ih =>
    obtain ⟨htake, hdrop⟩ := ih fun c hc => hds c (mem_cons_of_mem _ hc)
    rw [cons_append, takeWhile_cons_of_pos (hds c mem_cons_self),
      dropWhile_cons_of_pos (hds c mem_cons_self), htake]
    exact ⟨rfl, hdrop⟩

theorem digits_append {ds : List UInt8} (hds : ∀ c ∈ ds, isDigit c = true) (hne : ds ≠ [])
    (hrest : ∀ c ∈ rest.head?, isDigit c = false) : digits (ds ++ rest) = some (ds, rest) := by
  obtain ⟨htake, hdrop⟩ := takeWhile_digits hds hrest
  rw [digits, htake, hdrop, if_neg hne]

/-- The digits before a point: a zero, or digits that begin with another one. -/
def IntDigits (ip : List UInt8) : Prop :=
  ip = [48] ∨ ip ≠ [] ∧ ip.head? ≠ some 48 ∧ ∀ c ∈ ip, isDigit c = true

theorem intPart_append {ip : List UInt8} (hip : IntDigits ip)
    (hrest : ∀ c ∈ rest.head?, isDigit c = false) : intPart (ip ++ rest) = some (ip, rest) := by
  obtain rfl | ⟨hne, hhead, hdigits⟩ := hip
  · rfl
  · obtain ⟨c, ds, rfl⟩ := exists_cons_of_ne_nil hne
    rw [cons_append, intPart, ← cons_append, digits_append hdigits hne hrest]
    intro s h
    exact hhead (by rw [(cons.inj h).1]; rfl)

theorem Stop.not_digit (h : Stop rest) : ∀ c ∈ rest.head?, isDigit c = false := by
  intro c hc
  obtain rfl | rfl | rfl | hc := h c hc
  · rfl
  · rfl
  · rfl
  · rcases isWs_cases hc with rfl | rfl | rfl | rfl <;> rfl

/-- A number of JSON: a sign, digits, and a point with digits. -/
def numberText (neg : Bool) (ip : List UInt8) (fr : Option (List UInt8)) : List UInt8 :=
  (if neg then [45] else []) ++ (ip ++ fr.elim [] (46 :: ·))

theorem unsigned_append {ip : List UInt8} {fr : Option (List UInt8)} (hip : IntDigits ip)
    (hfr : ∀ ds ∈ fr, ds ≠ [] ∧ ∀ c ∈ ds, isDigit c = true) (hrest : Stop rest) :
    unsigned (ip ++ (fr.elim [] (46 :: ·) ++ rest)) = some (ip ++ fr.elim [] (46 :: ·), rest) := by
  have hexp : expPart rest = some ([], rest) := by
    cases rest with
    | nil => rfl
    | cons c rest =>
      refine if_neg ?_
      rintro (rfl | rfl)
      all_goals exact absurd (hrest _ rfl) (by decide)
  cases fr with
  | none =>
    have hfrac : fracPart rest = some ([], rest) := by
      rw [fracPart]
      rintro s rfl
      exact absurd (hrest 46 rfl) (by decide)
    simp only [unsigned, elim_none, nil_append, intPart_append hip hrest.not_digit,
      bind_eq_bind, bind_some, hfrac, hexp, append_nil]
  | some ds =>
    obtain ⟨hne, hds⟩ := hfr ds rfl
    have hpoint : ∀ c ∈ (46 :: (ds ++ rest)).head?, isDigit c = false := fun c hc =>
      some.inj hc ▸ rfl
    simp only [unsigned, elim_some, cons_append, intPart_append hip hpoint,
      bind_eq_bind, bind_some, fracPart, digits_append hds hne hrest.not_digit,
      map_some, hexp, append_nil]

/-- A byte that begins a number. -/
def NumberHead (c : UInt8) : Prop :=
  c = 45 ∨ isDigit c = true

theorem NumberHead.spec (h : NumberHead c) : isWs c = false ∧ c ≠ 123 ∧ c ≠ 91 ∧ c ≠ 93 ∧
    c ≠ 34 ∧ c ≠ 110 ∧ c ≠ 116 ∧ c ≠ 102 := by
  obtain rfl | h := h
  · decide
  · refine ⟨Bool.eq_false_iff.2 fun hws => ?_, ?_⟩
    · rcases isWs_cases hws with rfl | rfl | rfl | rfl <;> exact absurd h (by decide)
    · refine ⟨?_, ?_, ?_, ?_, ?_, ?_, ?_⟩
      all_goals
        rintro rfl
        exact absurd h (by decide)

theorem IntDigits.head {ip : List UInt8} (h : IntDigits ip) :
    ∃ c ds, ip = c :: ds ∧ isDigit c = true := by
  obtain rfl | ⟨hne, -, hdigits⟩ := h
  · exact ⟨48, [], rfl, rfl⟩
  · obtain ⟨c, ds, rfl⟩ := exists_cons_of_ne_nil hne
    exact ⟨c, ds, rfl, hdigits c mem_cons_self⟩

/-- Where no other value begins, there is a number. -/
theorem value_number (h : NumberHead c) :
    value (k + 1) (c :: s) = (number (c :: s)).map fun (n, r) => (.number n, r) := by
  obtain ⟨hws, h1, h2, h3, h4, h5, h6, h7⟩ := h.spec
  rw [value, skipWs_cons hws]
  split
  next heq => exact absurd (cons.inj heq).1 h1
  next heq => exact absurd (cons.inj heq).1 h2
  next heq => exact absurd (cons.inj heq).1 h4
  next heq => exact absurd (cons.inj heq).1 h5
  next heq => exact absurd (cons.inj heq).1 h6
  next heq => exact absurd (cons.inj heq).1 h7
  next => rfl

theorem number_append (neg : Bool) {ip : List UInt8} {fr : Option (List UInt8)} (hip : IntDigits ip)
    (hfr : ∀ ds ∈ fr, ds ≠ [] ∧ ∀ c ∈ ds, isDigit c = true) (hrest : Stop rest) :
    number (numberText neg ip fr ++ rest) = some (numberText neg ip fr, rest) := by
  have hunsigned := unsigned_append hip hfr hrest
  rw [numberText, append_assoc, append_assoc]
  cases neg with
  | true =>
    change (unsigned (ip ++ _)).map _ = _
    rw [hunsigned]
    rfl
  | false =>
    obtain ⟨c, ds, rfl, hc⟩ := hip.head
    change number (c :: (ds ++ _)) = _
    rw [number]
    · exact hunsigned
    · intro s heq
      obtain rfl := (cons.inj heq).1
      exact absurd hc (by decide)

theorem numberText_head (neg : Bool) {ip : List UInt8} (fr : Option (List UInt8))
    (hip : IntDigits ip) : ∃ c u, numberText neg ip fr = c :: u ∧ NumberHead c := by
  obtain ⟨c, ds, rfl, hc⟩ := hip.head
  cases neg with
  | true => exact ⟨45, _, rfl, .inl rfl⟩
  | false => exact ⟨c, _, rfl, .inr hc⟩

theorem isDigit_ascii (h : isDigit c = true) : c.toNat < 0x80 := by
  have hle : c ≤ 57 := of_decide_eq_true (Bool.and_eq_true_iff.1 h).2
  exact Nat.lt_of_le_of_lt (UInt8.le_iff_toNat_le.1 hle) (by decide)

theorem isWs_ascii (h : isWs c = true) : c.toNat < 0x80 := by
  rcases isWs_cases h with rfl | rfl | rfl | rfl <;> decide

theorem numberText_ascii (neg : Bool) {ip : List UInt8} {fr : Option (List UInt8)}
    (hip : IntDigits ip) (hfr : ∀ ds ∈ fr, ds ≠ [] ∧ ∀ c ∈ ds, isDigit c = true) :
    ∀ c ∈ numberText neg ip fr, c.toNat < 0x80 := by
  intro c hc
  obtain hc | hc := mem_append.1 hc
  · cases neg with
    | true => exact mem_singleton.1 hc ▸ by decide
    | false => exact absurd hc not_mem_nil
  obtain hc | hc := mem_append.1 hc
  · obtain rfl | ⟨-, -, hdigits⟩ := hip
    · exact mem_singleton.1 hc ▸ by decide
    · exact isDigit_ascii (hdigits c hc)
  · cases fr with
    | none => exact absurd hc not_mem_nil
    | some ds =>
      obtain rfl | hc := mem_cons.1 hc
      · decide
      · exact isDigit_ascii ((hfr ds rfl).2 c hc)

theorem Parses.number (neg : Bool) {ip : List UInt8} {fr : Option (List UInt8)} (hip : IntDigits ip)
    (hfr : ∀ ds ∈ fr, ds ≠ [] ∧ ∀ c ∈ ds, isDigit c = true) :
    Parses (numberText neg ip fr) (some (.number (numberText neg ip fr))) := by
  intro k hk rest hrest
  obtain ⟨k, rfl⟩ := exists_eq_add_one_of_ne_zero (Nat.ne_of_gt (zero_lt_of_lt hk))
  obtain ⟨c, u, htext, hc⟩ := numberText_head neg fr hip
  have hnumber := number_append neg hip hfr hrest
  rw [htext, cons_append] at hnumber
  rw [htext, cons_append, value_number hc, hnumber]
  rfl

/-- A text of a number that is none. -/
theorem Parses.none_of_number (h : ∀ rest, Json.number (t ++ rest) = none)
    (hvalue : ∀ k rest, value (k + 1) (t ++ rest) =
      (Json.number (t ++ rest)).map fun (n, r) => (.number n, r)) : Parses t none := by
  intro k hk rest _
  obtain ⟨k, rfl⟩ := exists_eq_add_one_of_ne_zero (Nat.ne_of_gt (zero_lt_of_lt hk))
  rw [hvalue, h]
  rfl

/-! ## Strings -/

/-- Quotes and backslashes, escaped. -/
def escape (p : List UInt8) : List UInt8 :=
  p.flatMap fun c => if c = 34 then [92, 34] else if c = 92 then [92, 92] else [c]

theorem chars_escape (p rest : List UInt8) : chars (escape p ++ 34 :: rest) =
    if ∀ c ∈ p, 32 ≤ c then some (p, rest) else none := by
  induction p with
  | nil => simp [escape, chars]
  | cons c p ih =>
    have hcons : escape (c :: p) = (if c = 34 then [92, 34] else if c = 92 then [92, 92] else [c]) ++
        escape p := flatMap_cons
    have hall : (∀ b ∈ c :: p, 32 ≤ b) ↔ 32 ≤ c ∧ ∀ b ∈ p, 32 ≤ b := forall_mem_cons
    rw [hcons, append_assoc]
    simp only [hall]
    obtain rfl | h34 := eq_or_ne c 34
    · change (chars (escape p ++ 34 :: rest)).map _ = _
      rw [ih]
      simp only [show (32 : UInt8) ≤ 34 from by decide, true_and]
      split <;> rfl
    obtain rfl | h92 := eq_or_ne c 92
    · change (chars (escape p ++ 34 :: rest)).map _ = _
      rw [ih]
      simp only [show (32 : UInt8) ≤ 92 from by decide, true_and]
      split <;> rfl
    rw [if_neg h34, if_neg h92, cons_append, nil_append, chars]
    · rw [ih]
      obtain hc | hc := Decidable.em (c < 32)
      · rw [if_pos (.inl hc), if_neg fun h => absurd h.1 (UInt8.not_le.2 hc)]
      · rw [if_neg fun h => h.elim hc h92]
        simp only [UInt8.not_lt.1 hc, true_and]
        split <;> rfl
    · exact h34
    · exact fun _ _ _ _ _ h => absurd h h92
    · exact fun _ _ h => absurd h h92

/-- A string in quotes. -/
def stringText (p : List UInt8) : List UInt8 :=
  34 :: (escape p ++ [34])

theorem Parses.string (p : List UInt8) :
    Parses (stringText p) (if ∀ c ∈ p, 32 ≤ c then some (.string p) else none) := by
  intro k hk rest _
  obtain ⟨k, rfl⟩ := exists_eq_add_one_of_ne_zero (Nat.ne_of_gt (zero_lt_of_lt hk))
  rw [stringText, cons_append, append_assoc]
  change (chars (escape p ++ 34 :: rest)).map _ = _
  rw [chars_escape]
  split <;> rfl

/-- Escaping changes nothing about the characters of a string. -/
theorem wellFormed_escape (p : List UInt8) : Utf8.WellFormed (escape p) ↔ Utf8.WellFormed p := by
  suffices h : ∀ a, Utf8.WellFormed (a ++ escape p) ↔ Utf8.WellFormed (a ++ p) from h []
  induction p with
  | nil => exact fun a => Iff.rfl
  | cons c p ih =>
    intro a
    have hcons : escape (c :: p) = (if c = 34 then [92, 34] else if c = 92 then [92, 92] else [c]) ++
        escape p := flatMap_cons
    have hplain := ih []
    rw [hcons]
    obtain rfl | h34 := eq_or_ne c 34
    · rw [if_pos rfl, cons_append, Utf8.wellFormed_append_cons (by decide),
        cons_append, Utf8.wellFormed_cons (by decide), Utf8.wellFormed_append_cons (by decide)]
      exact and_congr_right fun _ => hplain
    obtain rfl | h92 := eq_or_ne c 92
    · rw [if_neg h34, if_pos rfl, cons_append, Utf8.wellFormed_append_cons (by decide),
        cons_append, Utf8.wellFormed_cons (by decide), Utf8.wellFormed_append_cons (by decide)]
      exact and_congr_right fun _ => hplain
    rw [if_neg h34, if_neg h92, singleton_append, append_cons, ih, ← append_cons]

/-! ## The strings of a value -/

mutual

/-- The string literals of a value, in order, without the keys of its objects. -/
def Value.strings : Value → List (List UInt8)
  | .string s => [s]
  | .array vs => stringsOf vs
  | .object ms => memberStrings ms
  | .null | .bool _ | .number _ => []

/-- The string literals of the entries of an array. -/
def stringsOf : List Value → List (List UInt8)
  | [] => []
  | v :: vs => v.strings ++ stringsOf vs

/-- The string literals of the members of an object. -/
def memberStrings : List (List UInt8 × Value) → List (List UInt8)
  | [] => []
  | (_, v) :: ms => v.strings ++ memberStrings ms

end

/-! ## Pieces -/

/-- A text that is put together from texts of values, with what it is read as and its strings. -/
structure Piece where
  text : List UInt8
  value : Option Value
  strings : List (List UInt8)
  parses : Parses text value
  begins : Begins text
  strings_eq : ∀ v ∈ value, v.strings = strings
  utf8 : Utf8.WellFormed text ↔ ∀ p ∈ strings, Utf8.WellFormed p

namespace Piece

/-- The piece after white space. -/
def ws (w : List UInt8) (hw : ∀ b ∈ w, isWs b = true) (p : Piece) : Piece where
  text := w ++ p.text
  value := p.value
  strings := p.strings
  parses := p.parses.ws hw
  begins := p.begins.ws hw
  strings_eq := p.strings_eq
  utf8 := (Utf8.wellFormed_ascii_append fun b hb => isWs_ascii (hw b hb)).trans p.utf8

/-- A number. -/
def number (neg : Bool) (ip : List UInt8) (fr : Option (List UInt8)) (hip : IntDigits ip)
    (hfr : ∀ ds ∈ fr, ds ≠ [] ∧ ∀ c ∈ ds, isDigit c = true) : Piece where
  text := numberText neg ip fr
  value := some (.number (numberText neg ip fr))
  strings := []
  parses := .number neg hip hfr
  begins := by
    obtain ⟨c, u, htext, hc⟩ := numberText_head neg fr hip
    rw [htext]
    exact .of_cons hc.spec.1 hc.spec.2.2.2.1
  strings_eq := fun v hv => Option.some.inj hv ▸ rfl
  utf8 := ⟨fun _ => nofun, fun _ => .ascii (numberText_ascii neg hip hfr)⟩

/-- A text of single-byte characters that is no value. -/
def bad (t : List UInt8) (hparses : Parses t none) (hbegins : Begins t)
    (hascii : ∀ b ∈ t, b.toNat < 0x80) : Piece where
  text := t
  value := none
  strings := []
  parses := hparses
  begins := hbegins
  strings_eq := nofun
  utf8 := ⟨fun _ => nofun, fun _ => .ascii hascii⟩

/-- A string. -/
def string (p : List UInt8) : Piece where
  text := stringText p
  value := if ∀ c ∈ p, 32 ≤ c then some (.string p) else none
  strings := [p]
  parses := .string p
  begins := .of_cons rfl (by decide)
  strings_eq := fun v hv => by
    obtain ⟨-, heq⟩ := Option.ite_none_right_eq_some.1 hv
    obtain rfl := Option.some.inj heq
    rfl
  utf8 := by
    rw [stringText, Utf8.wellFormed_cons (by decide), Utf8.wellFormed_append_cons (by decide),
      wellFormed_escape, forall_mem_singleton]
    exact and_iff_left .nil

end Piece

/-! ## Arrays -/

/-- Pieces with commas between them. -/
def commas : List Piece → List UInt8
  | [] => []
  | [p] => p.text
  | p :: q :: ps => p.text ++ 44 :: commas (q :: ps)

variable {ps : List Piece}

theorem Stop.cons (h : c = 44 ∨ c = 93 ∨ c = 125 ∨ isWs c = true) : Stop (c :: rest) :=
  fun _ hb => some.inj hb ▸ h

/-- White space and a closing byte. -/
theorem Stop.ws_cons (hw : ∀ b ∈ w, isWs b = true) (h : c = 44 ∨ c = 93 ∨ c = 125) :
    Stop (w ++ c :: rest) := by
  cases w with
  | nil => exact .cons (h.imp_right (Or.imp_right .inl))
  | cons _ w => exact .cons (.inr (.inr (.inr (hw _ mem_cons_self))))

/-- The entries of an array up to its closing bracket. -/
theorem elements_commas {p : Piece} (hw : ∀ b ∈ w, isWs b = true) {n : Nat} (hn : ps.length < n)
    (hk : (commas (p :: ps)).length < k) :
    elements (Json.value k) n (commas (p :: ps) ++ (w ++ 93 :: rest)) =
      ((p :: ps).mapM Piece.value).map fun vs => (vs, rest) := by
  induction ps generalizing p n with
  | nil =>
    obtain ⟨n, rfl⟩ := exists_eq_add_one_of_ne_zero (Nat.ne_of_gt (zero_lt_of_lt hn))
    rw [commas, elements, p.parses k hk _ (.ws_cons hw (by decide)), mapM_cons]
    cases p.value with
    | none => rfl
    | some v =>
      simp only [map_some, skipWs_append hw, skipWs_cons (show isWs 93 = false from rfl)]
      rfl
  | cons q ps ih =>
    obtain ⟨n, rfl⟩ := exists_eq_add_one_of_ne_zero (Nat.ne_of_gt (zero_lt_of_lt hn))
    rw [commas, length_append, length_cons] at hk
    rw [commas, append_assoc, cons_append, elements,
      p.parses k (by omega) _ (.cons (.inl rfl)), mapM_cons]
    cases p.value with
    | none => rfl
    | some v =>
      simp only [map_some, skipWs_cons (show isWs 44 = false from rfl)]
      rw [ih (lt_of_succ_lt_succ hn) (by omega)]
      simp only [bind_eq_bind, bind_some]
      cases (q :: ps).mapM Piece.value with
      | none => rfl
      | some vs => rfl

theorem commas_begins (p : Piece) (ps : List Piece) : Begins (commas (p :: ps)) := by
  cases ps with
  | nil => exact p.begins
  | cons q ps => exact p.begins.append _

theorem length_le_commas (ps : List Piece) : ps.length ≤ (commas ps).length := by
  induction ps with
  | nil => exact Nat.le_refl 0
  | cons p ps ih =>
    have hp := p.begins.length_pos
    cases ps with
    | nil => exact hp
    | cons q ps =>
      have hcomma : (44 :: commas (q :: ps)).length = (commas (q :: ps)).length + 1 := rfl
      rw [commas, length_append, hcomma, length_cons]
      omega

theorem Parses.array (ps : List Piece) (hw : ∀ b ∈ w, isWs b = true) :
    Parses (91 :: (commas ps ++ (w ++ [93]))) ((ps.mapM Piece.value).map Value.array) := by
  intro k hk rest _
  obtain ⟨k, rfl⟩ := exists_eq_add_one_of_ne_zero (Nat.ne_of_gt (zero_lt_of_lt hk))
  rw [length_cons, length_append] at hk
  have htext : 91 :: (commas ps ++ (w ++ [93])) ++ rest =
      91 :: (commas ps ++ (w ++ 93 :: rest)) := by
    rw [cons_append, append_assoc, append_assoc, singleton_append]
  rw [htext, value, skipWs_cons (show isWs 91 = false from rfl)]
  cases ps with
  | nil =>
    simp only [commas, nil_append, skipWs_append hw, skipWs_cons (show isWs 93 = false from rfl)]
    rfl
  | cons p ps =>
    obtain ⟨c, u, hskip, h93⟩ := ((commas_begins p ps).append (w ++ 93 :: rest)).skipWs_eq
    have hlen := length_le_commas (p :: ps)
    rw [length_cons] at hlen
    have helements : elements (value k) (k + 1) (commas (p :: ps) ++ (w ++ 93 :: rest)) =
        ((p :: ps).mapM Piece.value).map fun vs => (vs, rest) :=
      elements_commas hw (by omega) (by omega)
    simp only [hskip]
    split
    next heq => exact absurd (cons.inj heq).1 h93
    next =>
      rw [helements]
      cases (p :: ps).mapM Piece.value with
      | none => rfl
      | some vs => rfl

theorem mapM_value_eq_some {vs : List Value} :
    ps.mapM Piece.value = some vs ↔ Forall₂ (fun p v => Piece.value p = some v) ps vs := by
  induction ps generalizing vs with
  | nil => exact ⟨fun h => some.inj h ▸ .nil, fun h => by cases h; rfl⟩
  | cons p ps ih =>
    rw [mapM_cons]
    refine ⟨fun h => ?_, fun h => ?_⟩
    · obtain ⟨v, hv, h⟩ := bind_eq_some_iff.1 h
      obtain ⟨vs', hvs, h⟩ := bind_eq_some_iff.1 h
      obtain rfl := some.inj h
      exact .cons hv (ih.1 hvs)
    · cases h with
      | cons hv hvs =>
        rw [hv, ih.2 hvs]
        rfl

theorem mapM_value_isSome : (ps.mapM Piece.value).isSome ↔ ∀ p ∈ ps, p.value.isSome := by
  induction ps with
  | nil => exact ⟨fun _ => nofun, fun _ => rfl⟩
  | cons p ps ih =>
    rw [mapM_cons, forall_mem_cons, ← ih]
    cases p.value with
    | none => exact ⟨nofun, fun h => nomatch h.1⟩
    | some v =>
      cases ps.mapM Piece.value with
      | none => exact ⟨nofun, fun h => nomatch h.2⟩
      | some vs => exact ⟨fun _ => ⟨rfl, rfl⟩, fun _ => rfl⟩

theorem strings_of_mapM {vs : List Value} (h : ps.mapM Piece.value = some vs) :
    stringsOf vs = ps.flatMap Piece.strings := by
  induction ps generalizing vs with
  | nil => obtain rfl := some.inj h; rfl
  | cons p ps ih =>
    rw [mapM_cons] at h
    obtain ⟨v, hv, h⟩ := bind_eq_some_iff.1 h
    obtain ⟨vs', hvs, h⟩ := bind_eq_some_iff.1 h
    obtain rfl := some.inj h
    rw [stringsOf, p.strings_eq v hv, ih hvs, flatMap_cons]

theorem utf8_commas (ps : List Piece) :
    Utf8.WellFormed (commas ps) ↔ ∀ p ∈ ps.flatMap Piece.strings, Utf8.WellFormed p := by
  induction ps with
  | nil => exact ⟨fun _ => nofun, fun _ => .nil⟩
  | cons p ps ih =>
    rw [flatMap_cons, forall_mem_append, ← p.utf8, ← ih]
    cases ps with
    | nil => exact (and_iff_left .nil).symm
    | cons q ps => rw [commas, Utf8.wellFormed_append_cons (by decide)]

/-- An array, with white space before its closing bracket. -/
def Piece.array (ps : List Piece) (w : List UInt8) (hw : ∀ b ∈ w, isWs b = true) : Piece where
  text := 91 :: (commas ps ++ (w ++ [93]))
  value := (ps.mapM Piece.value).map Value.array
  strings := ps.flatMap Piece.strings
  parses := .array ps hw
  begins := .of_cons rfl (by decide)
  strings_eq := fun v hv => by
    obtain ⟨vs, hvs, rfl⟩ := Option.map_eq_some_iff.1 hv
    exact strings_of_mapM hvs
  utf8 := by
    have hend : ∀ b ∈ w ++ [93], b.toNat < 0x80 := by
      intro b hb
      obtain hb | hb := mem_append.1 hb
      · exact isWs_ascii (hw b hb)
      · exact mem_singleton.1 hb ▸ by decide
    rw [Utf8.wellFormed_cons (by decide), ← utf8_commas, Utf8.wellFormed_append_ascii hend]

theorem Piece.array_isSome (ps : List Piece) (hw : ∀ b ∈ w, isWs b = true) :
    (Piece.array ps w hw).value.isSome ↔ ∀ p ∈ ps, p.value.isSome := by
  rw [← mapM_value_isSome]
  exact Bool.eq_iff_iff.1 isSome_map

/-! ## Objects -/

/-- A key: single bytes that need no escape. -/
def PlainKey (key : List UInt8) : Prop :=
  ∀ c ∈ key, 32 ≤ c ∧ c ≠ 34 ∧ c ≠ 92 ∧ c.toNat < 0x80

theorem escape_plain {key : List UInt8} (h : PlainKey key) : escape key = key := by
  induction key with
  | nil => rfl
  | cons c key ih =>
    obtain ⟨-, h34, h92, -⟩ := h c mem_cons_self
    rw [escape, flatMap_cons, if_neg h34, if_neg h92, singleton_append]
    exact congrArg _ (ih fun b hb => h b (mem_cons_of_mem _ hb))

/-- An object of one member, with white space before its colon. -/
def objectText (key w : List UInt8) (p : Piece) : List UInt8 :=
  123 :: 34 :: (key ++ 34 :: (w ++ 58 :: (p.text ++ [125])))

theorem Parses.object {key : List UInt8} (hkey : PlainKey key) (hw : ∀ b ∈ w, isWs b = true)
    (p : Piece) : Parses (objectText key w p) (p.value.map fun v => .object [(key, v)]) := by
  intro k hk rest _
  obtain ⟨k, rfl⟩ := exists_eq_add_one_of_ne_zero (Nat.ne_of_gt (zero_lt_of_lt hk))
  have htext : objectText key w p ++ rest =
      123 :: 34 :: (escape key ++ 34 :: (w ++ 58 :: (p.text ++ 125 :: rest))) := by
    rw [escape_plain hkey, objectText]
    simp only [cons_append, append_assoc, nil_append]
  have hlen : p.text.length < k := by
    simp only [objectText, length_cons, length_append] at hk
    omega
  rw [htext, value, skipWs_cons (show isWs 123 = false from rfl)]
  simp only [skipWs_cons (show isWs 34 = false from rfl), members, chars_escape,
    if_pos fun c hc => (hkey c hc).1, skipWs_append hw, skipWs_cons (show isWs 58 = false from rfl)]
  rw [p.parses k hlen _ (.cons (by decide))]
  cases p.value with
  | none => rfl
  | some v =>
    simp only [map_some, skipWs_cons (show isWs 125 = false from rfl)]
    rfl

/-- An object of one member. -/
def Piece.object (key w : List UInt8) (hkey : PlainKey key) (hw : ∀ b ∈ w, isWs b = true)
    (p : Piece) : Piece where
  text := objectText key w p
  value := p.value.map fun v => .object [(key, v)]
  strings := p.strings
  parses := .object hkey hw p
  begins := .of_cons rfl (by decide)
  strings_eq := fun v hv => by
    obtain ⟨v', hv', rfl⟩ := Option.map_eq_some_iff.1 hv
    rw [Value.strings, memberStrings, memberStrings, append_nil]
    exact p.strings_eq v' hv'
  utf8 := by
    rw [objectText, Utf8.wellFormed_cons (by decide), Utf8.wellFormed_cons (by decide),
      Utf8.wellFormed_append_cons (by decide), Utf8.wellFormed_append_cons (by decide),
      Utf8.wellFormed_append_ascii fun b hb => mem_singleton.1 hb ▸ by decide, ← p.utf8]
    have hkey : Utf8.WellFormed key := .ascii fun c hc => (hkey c hc).2.2.2
    have hw : Utf8.WellFormed w := .ascii fun c hc => isWs_ascii (hw c hc)
    exact ⟨fun h => h.2.2, fun h => ⟨hkey, hw, h⟩⟩

/-- A text that ends after a piece is JSON when the piece has a value and its strings are
UTF-8. -/
theorem Piece.reads (p : Piece) (hw : ∀ b ∈ w, isWs b = true) {v : Value} :
    Reads (p.text ++ w) v ↔ p.value = some v ∧ ∀ s ∈ p.strings, Utf8.WellFormed s := by
  have hstop : Stop w := by
    cases w with
    | nil => exact nofun
    | cons b w => exact .cons (.inr (.inr (.inr (hw _ mem_cons_self))))
  have hskip : skipWs w = [] := (append_nil w ▸ skipWs_append hw : skipWs w = skipWs [])
  have hlen : (p.text ++ w).length + 1 > p.text.length := by
    rw [length_append]
    omega
  have hparse : parse (p.text ++ w) = p.value := by
    rw [parse, p.parses _ hlen w hstop]
    cases p.value with
    | none => rfl
    | some v => exact if_pos hskip
  rw [Reads, hparse, Utf8.wellFormed_append_ascii fun b hb => isWs_ascii (hw b hb), p.utf8]
  exact and_comm

end Json
