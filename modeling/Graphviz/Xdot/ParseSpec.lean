import Graphviz.Util.NumeralRead
import Graphviz.Xdot.Xdot

/-!
# Strings with a length

`parseString` reads as many characters as the length says, and does not count a backslash unless it
follows another one. `printString` writes the length of the string, backslashes included.
-/

namespace Graphviz.XDot

open List Nat Outcome

variable {D : Type} [Double D] {left n : Nat} {esc : Bool} {p q r s rest : CStr}

/-- The characters that `parseString` counts. -/
def accounted (esc : Bool) : CStr → Nat
  | [] => 0
  | c :: s => (if c ≠ 92 ∨ esc then 1 else 0) + accounted (c = 92) s

/-- A string without backslashes. -/
def Plain (s : CStr) : Prop :=
  92 ∉ s

instance : DecidablePred Plain := fun s => inferInstanceAs (Decidable (92 ∉ s))

theorem plain_cons {c : UInt8} : Plain (c :: s) ↔ c ≠ 92 ∧ Plain s := by
  rw [Plain, mem_cons, not_or, eq_comm, Plain]

theorem accounted_le : accounted esc p ≤ p.length := by
  induction p generalizing esc with
  | nil => exact le_refl 0
  | cons c p ih =>
    have := @ih (c = 92)
    rw [accounted, length_cons]
    split <;> omega

theorem accounted_plain (h : Plain p) : accounted false p = p.length := by
  induction p with
  | nil => rfl
  | cons c p ih =>
    obtain ⟨hc, hp⟩ := plain_cons.1 h
    rw [accounted, if_pos (.inl hc), decide_eq_false hc, ih hp, length_cons, add_comm]

/-- The first backslash is not counted. -/
theorem accounted_lt (h : ¬Plain p) : accounted false p < p.length := by
  induction p with
  | nil => exact absurd not_mem_nil h
  | cons c p ih =>
    rw [accounted, length_cons]
    obtain rfl | hc := eq_or_ne c 92
    · have : accounted true p ≤ p.length := accounted_le
      rw [if_neg (by simp)]
      exact lt_succ_of_le (by rw [zero_add]; exact this)
    · have hp : ¬Plain p := fun hp => h (plain_cons.2 ⟨hc, hp⟩)
      have := ih hp
      rw [if_pos (.inl hc), decide_eq_false hc]
      omega

/-- What `readChars` reads: a character that is not counted comes before one that is. -/
theorem readChars_spec (h : readChars left esc s = .ok (q, r)) :
    s = q ++ r ∧ accounted esc q = left ∧ q.length ≤ 2 * left ∧
      (esc = true → 0 < left → q.length + 1 ≤ 2 * left) := by
  induction s generalizing left esc q r with
  | nil =>
    rw [readChars] at h
    split at h
    next hleft =>
      obtain ⟨rfl, rfl⟩ := Prod.mk.inj (Except.ok.inj h)
      exact ⟨rfl, hleft.symm, zero_le _, fun _ hpos => absurd hleft hpos.ne'⟩
    next => exact nomatch h
  | cons c s ih =>
    rw [readChars] at h
    split at h
    next hleft =>
      obtain ⟨rfl, rfl⟩ := Prod.mk.inj (Except.ok.inj h)
      exact ⟨rfl, hleft.symm, zero_le _, fun _ hpos => absurd hleft hpos.ne'⟩
    next hleft =>
      obtain ⟨⟨q', r'⟩, hq', heq⟩ := bind_eq_ok.1 h
      obtain ⟨rfl, rfl⟩ := Prod.mk.inj (Except.ok.inj heq)
      obtain ⟨hs, hacc, hlen, hesc⟩ := ih hq'
      rw [accounted, length_cons]
      refine ⟨congrArg _ hs, ?_⟩
      split at hacc
      next hc =>
        rw [if_pos hc] at hlen ⊢
        omega
      next hc =>
        obtain ⟨rfl, rfl⟩ : c = 92 ∧ esc = false := by simpa using hc
        rw [if_neg hc] at hlen hesc ⊢
        have := hesc rfl (pos_of_ne_zero hleft)
        exact ⟨by omega, by omega, nofun⟩

theorem readChars_plain (h : Plain p) : readChars p.length false (p ++ rest) = .ok (p, rest) := by
  induction p with
  | nil => cases rest <;> rfl
  | cons c p ih =>
    obtain ⟨hc, hp⟩ := plain_cons.1 h
    rw [cons_append, readChars, if_neg (length_cons ▸ succ_ne_zero _),
      if_pos (.inl hc), decide_eq_false hc, length_cons,
      Nat.add_sub_cancel, ih hp]
    rfl

/-! ## Lengths -/

theorem orNull_eq_ok {α : Type} {x : Option α} {a : α} : orNull x = .ok a ↔ x = some a := by
  cases x with
  | none => exact ⟨nofun, nofun⟩
  | some b => exact ⟨fun h => congrArg some (Except.ok.inj h), fun h => congrArg _ (Option.some.inj h)⟩

theorem toInt32_eq {x : Int} (h : 0 ≤ x) (h' : x < 2 ^ 31) : toInt32 x = x := by
  rw [toInt32]
  omega

/-- A printed number as an `int`. -/
theorem parseInt_decimal (hrest : ∀ c ∈ rest.head?, gv_isdigit c = false) :
    parseInt (32 :: (decimal n ++ rest)) = .ok (toInt32 (min n (2 ^ 63 - 1)), rest) := by
  rw [parseInt, strtol_decimal hrest]
  rfl

/-- How a printed string is read. -/
theorem parseString_print (p rest : CStr) :
    parseString (printString p ++ rest) =
      if toInt32 (min p.length (2 ^ 63 - 1)) ≤ 0 then .error .null
      else readChars (toInt32 (min p.length (2 ^ 63 - 1))).toNat false (p ++ rest) := by
  have hstop : ∀ c ∈ (32 :: 45 :: (p ++ rest) : CStr).head?, gv_isdigit c = false := fun c hc =>
    Option.some.inj hc ▸ rfl
  rw [parseString, printString, append_assoc (32 :: decimal p.length)]
  refine (congrArg (· >>= _) (parseInt_decimal (n := p.length) hstop)).trans ?_
  rfl

theorem parseString_plain (hp : Plain p) (hne : p ≠ []) (hlen : p.length < 2 ^ 31) :
    parseString (printString p ++ rest) = .ok (p, rest) := by
  have hpos := length_pos_of_ne_nil hne
  have hi : toInt32 (min p.length (2 ^ 63 - 1)) = p.length := by
    rw [min_eq_left (by omega), toInt32_eq (by omega) (by omega)]
  rw [parseString_print, hi, if_neg (by omega), Int.toNat_natCast, readChars_plain hp]

/-- A string that `parseString` returns. -/
structure Parsed (q : CStr) : Prop where
  pos : 0 < accounted false q
  lt : accounted false q < 2 ^ 31
  length_le : q.length ≤ 2 * accounted false q

theorem toInt32_lt (x : Int) : toInt32 x < 2 ^ 31 := by
  rw [toInt32]
  omega

theorem parseString_spec (h : parseString s = .ok (q, r)) : Parsed q ∧ r <:+ s := by
  obtain ⟨⟨i, s1⟩, hi, h⟩ := bind_eq_ok.1 h
  obtain ⟨⟨x, s2⟩, hx, heq⟩ := bind_eq_ok.1 hi
  obtain ⟨rfl, rfl⟩ := Prod.mk.inj (Except.ok.inj heq)
  simp only at h
  split at h
  · exact nomatch h
  next hpos =>
    split at h
    · exact nomatch h
    next c s3 hs =>
      obtain ⟨rfl, hacc, hlen, -⟩ := readChars_spec h
      have hlt := toInt32_lt x
      refine ⟨⟨by omega, by omega, by omega⟩, ?_⟩
      have hsuffix : q ++ r <:+ s2 :=
        (suffix_cons c _).trans (hs ▸ dropWhile_suffix _)
      exact (suffix_append q r).trans (hsuffix.trans (strtol_suffix (orNull_eq_ok.1 hx)))

end Graphviz.XDot

/-!
## What the parser returns

The operations that come out of `parseXDot`, and that each of them uses up some text, so that the
bound on their number is never met.
-/

namespace Graphviz.XDot

open Outcome Prod

variable {D : Type} [Double D] {s r : CStr}

/-- The stops of a gradient. -/
def XdotColor.stops : XdotColor D → List (XdotColorStop D)
  | .xd_none _ => []
  | .xd_linear _ _ _ _ stops => stops
  | .xd_radial _ _ _ _ _ _ stops => stops

/-- A gradient that is parsed. -/
def XdotColor.IsGradient : XdotColor D → Prop
  | .xd_none _ => False
  | c => c.stops.length < 2 ^ 31 ∧ ∀ st ∈ c.stops, Parsed st.color

/-- A plain color that is parsed. -/
def IsPlainColor (c : CStr) : Prop :=
  Parsed c ∧ ∃ b t, c = b :: t ∧ (b = 35 ∨ b = 47 ∨ gv_isalnum b = true)

/-- Points that are parsed. -/
def IsPolyline (p : List (XdotPoint D)) : Prop :=
  p.length < 2 ^ 32 ∧ ∀ pt ∈ p, pt.z = Double.read (.finite 0)

/-- An operation that is parsed. -/
def XdotOp.IsParsed : XdotOp D → Prop
  | .xd_filled_ellipse _ | .xd_unfilled_ellipse _ => True
  | .xd_filled_polygon p | .xd_unfilled_polygon p | .xd_filled_bezier p | .xd_unfilled_bezier p
  | .xd_polyline p => IsPolyline p
  | .xd_pen_color c | .xd_fill_color c => IsPlainColor c
  | .xd_grad_pen_color g | .xd_grad_fill_color g => g.IsGradient
  | .xd_text _ _ _ _ t => Parsed t
  | .xd_font _ n => Parsed n
  | .xd_style t => Parsed t
  | .xd_image _ n => Parsed n
  | .xd_fontchar n => n < 2 ^ 32

/-! ## The parse functions -/

theorem parseReal_suffix {d : D} (h : parseReal s = .ok (d, r)) : r <:+ s :=
  strtod_suffix (orNull_eq_ok.1 h)

theorem parseInt_spec {i : Int} (h : parseInt s = .ok (i, r)) : i < 2 ^ 31 ∧ r <:+ s := by
  obtain ⟨⟨x, s1⟩, hx, heq⟩ := bind_eq_ok.1 h
  obtain ⟨rfl, rfl⟩ := mk.inj (Except.ok.inj heq)
  exact ⟨toInt32_lt x, strtol_suffix (orNull_eq_ok.1 hx)⟩

theorem parseUInt_spec {n : Nat} (h : parseUInt s = .ok (n, r)) : n < 2 ^ 32 ∧ r <:+ s := by
  obtain ⟨⟨x, s1⟩, hx, heq⟩ := bind_eq_ok.1 h
  obtain ⟨rfl, rfl⟩ := mk.inj (Except.ok.inj heq)
  exact ⟨Nat.mod_lt _ (by decide), strtoul_suffix (orNull_eq_ok.1 hx)⟩

theorem parseRect_suffix {a : XdotRect D} (h : parseRect s = .ok (a, r)) : r <:+ s := by
  obtain ⟨⟨x, s1⟩, hx, h⟩ := bind_eq_ok.1 h
  obtain ⟨⟨y, s2⟩, hy, h⟩ := bind_eq_ok.1 h
  obtain ⟨⟨w, s3⟩, hw, h⟩ := bind_eq_ok.1 h
  obtain ⟨⟨t, s4⟩, ht, h⟩ := bind_eq_ok.1 h
  obtain ⟨rfl, rfl⟩ := mk.inj (Except.ok.inj h)
  exact (parseReal_suffix ht).trans ((parseReal_suffix hw).trans
    ((parseReal_suffix hy).trans (parseReal_suffix hx)))

theorem parsePoints_spec {n : Nat} {p : List (XdotPoint D)} (h : parsePoints n s = .ok (p, r)) :
    p.length = n ∧ (∀ pt ∈ p, pt.z = Double.read (.finite 0)) ∧ r <:+ s := by
  induction n generalizing s p with
  | zero =>
    obtain ⟨rfl, rfl⟩ := mk.inj (Except.ok.inj h)
    exact ⟨rfl, nofun, List.suffix_refl _⟩
  | succ n ih =>
    obtain ⟨⟨x, s1⟩, hx, h⟩ := bind_eq_ok.1 h
    obtain ⟨⟨y, s2⟩, hy, h⟩ := bind_eq_ok.1 h
    obtain ⟨⟨ps, s3⟩, hps, h⟩ := bind_eq_ok.1 h
    obtain ⟨rfl, rfl⟩ := mk.inj (Except.ok.inj h)
    obtain ⟨hlen, hz, hr⟩ := ih hps
    refine ⟨congrArg _ hlen, fun pt hpt => ?_,
      hr.trans ((parseReal_suffix hy).trans (parseReal_suffix hx))⟩
    obtain rfl | hpt := List.mem_cons.1 hpt
    · rfl
    · exact hz pt hpt

theorem parsePolyline_spec {p : List (XdotPoint D)} (h : parsePolyline s = .ok (p, r)) :
    IsPolyline p ∧ r <:+ s := by
  obtain ⟨⟨n, s1⟩, hn, h⟩ := bind_eq_ok.1 h
  obtain ⟨hlt, hs1⟩ := parseUInt_spec hn
  obtain ⟨hlen, hz, hr⟩ := parsePoints_spec h
  exact ⟨⟨hlen ▸ hlt, hz⟩, hr.trans hs1⟩

theorem parseAlign_suffix {a : XdotAlign} (h : parseAlign s = .ok (a, r)) : r <:+ s := by
  obtain ⟨⟨i, s1⟩, hi, h⟩ := bind_eq_ok.1 h
  obtain ⟨-, rfl⟩ := mk.inj (Except.ok.inj h)
  exact (parseInt_spec hi).2

theorem parseStops_spec {n : Nat} {stops : List (XdotColorStop D)}
    (h : parseStops n s = .ok (stops, r)) : stops.length = n ∧ ∀ st ∈ stops, Parsed st.color := by
  induction n generalizing s stops with
  | zero =>
    obtain ⟨rfl, rfl⟩ := mk.inj (Except.ok.inj h)
    exact ⟨rfl, nofun⟩
  | succ n ih =>
    obtain ⟨⟨d, s1⟩, hd, h⟩ := bind_eq_ok.1 h
    obtain ⟨⟨c, s2⟩, hc, h⟩ := bind_eq_ok.1 h
    obtain ⟨⟨ps, s3⟩, hps, h⟩ := bind_eq_ok.1 h
    obtain ⟨rfl, rfl⟩ := mk.inj (Except.ok.inj h)
    obtain ⟨hlen, hparsed⟩ := ih hps
    refine ⟨congrArg _ hlen, fun st hst => ?_⟩
    obtain rfl | hst := List.mem_cons.1 hst
    · exact (parseString_spec hc).1
    · exact hparsed st hst

theorem parseStopList_spec {stops : List (XdotColorStop D)} (h : parseStopList s = .ok (stops, r)) :
    stops.length < 2 ^ 31 ∧ ∀ st ∈ stops, Parsed st.color := by
  obtain ⟨⟨n, s1⟩, hn, h⟩ := bind_eq_ok.1 h
  have hlt := (parseInt_spec hn).1
  simp only at h
  split at h
  · exact nomatch h
  · obtain ⟨hlen, hparsed⟩ := parseStops_spec h
    exact ⟨by omega, hparsed⟩

/-- A gradient, or a plain color, as its first character says. -/
theorem parseXDotColor_spec {cp : CStr} {c : XdotColor D} (hcp : Parsed cp)
    (h : parseXDotColor cp = .ok c) : (c = .xd_none cp ∧ IsPlainColor cp) ∨ c.IsGradient := by
  cases cp with
  | nil => cases h
  | cons b t =>
    rw [parseXDotColor] at h
    split at h
    · obtain ⟨⟨x0, s1⟩, -, h⟩ := bind_eq_ok.1 h
      obtain ⟨⟨y0, s2⟩, -, h⟩ := bind_eq_ok.1 h
      obtain ⟨⟨x1, s3⟩, -, h⟩ := bind_eq_ok.1 h
      obtain ⟨⟨y1, s4⟩, -, h⟩ := bind_eq_ok.1 h
      obtain ⟨⟨stops, s5⟩, hstops, h⟩ := bind_eq_ok.1 h
      obtain rfl := Except.ok.inj h
      exact .inr (parseStopList_spec hstops)
    · split at h
      · obtain ⟨⟨x0, s1⟩, -, h⟩ := bind_eq_ok.1 h
        obtain ⟨⟨y0, s2⟩, -, h⟩ := bind_eq_ok.1 h
        obtain ⟨⟨r0, s3⟩, -, h⟩ := bind_eq_ok.1 h
        obtain ⟨⟨x1, s4⟩, -, h⟩ := bind_eq_ok.1 h
        obtain ⟨⟨y1, s5⟩, -, h⟩ := bind_eq_ok.1 h
        obtain ⟨⟨r1, s6⟩, -, h⟩ := bind_eq_ok.1 h
        obtain ⟨⟨stops, s7⟩, hstops, h⟩ := bind_eq_ok.1 h
        obtain rfl := Except.ok.inj h
        exact .inr (parseStopList_spec hstops)
      · split at h
        next hb => exact .inl ⟨(Except.ok.inj h).symm, hcp, b, t, rfl, hb⟩
        next => cases h

/-! ## Operations -/

omit [Double D] in
theorem parseAs_spec {α : Type} {p : Parser α} {f : α → XdotOp D} {P : α → Prop} {op : XdotOp D}
    (hp : ∀ {a}, p s = .ok (a, r) → P a ∧ r <:+ s) (h : parseAs p f s = .ok (op, r)) :
    ∃ a, op = f a ∧ P a ∧ r <:+ s := by
  obtain ⟨⟨a, s1⟩, ha, h⟩ := bind_eq_ok.1 h
  obtain ⟨rfl, rfl⟩ := mk.inj (Except.ok.inj h)
  exact ⟨a, rfl, hp ha⟩

theorem parseColorOp_spec {plain : CStr → XdotOp D} {grad : XdotColor D → XdotOp D} {op : XdotOp D}
    (h : parseColorOp plain grad s = .ok (op, r)) :
    ((∃ c, op = plain c ∧ IsPlainColor c) ∨ ∃ g, op = grad g ∧ g.IsGradient) ∧ r <:+ s := by
  obtain ⟨⟨cs, s1⟩, hcs, h⟩ := bind_eq_ok.1 h
  obtain ⟨clr, hclr, h⟩ := bind_eq_ok.1 h
  obtain ⟨hparsed, hs⟩ := parseString_spec hcs
  obtain ⟨rfl, hplain⟩ | hgrad := parseXDotColor_spec hparsed hclr
  · obtain ⟨rfl, rfl⟩ := mk.inj (Except.ok.inj h)
    exact ⟨.inl ⟨cs, rfl, hplain⟩, hs⟩
  · cases clr with
    | xd_none c => exact hgrad.elim
    | xd_linear =>
      obtain ⟨rfl, rfl⟩ := mk.inj (Except.ok.inj h)
      exact ⟨.inr ⟨_, rfl, hgrad⟩, hs⟩
    | xd_radial =>
      obtain ⟨rfl, rfl⟩ := mk.inj (Except.ok.inj h)
      exact ⟨.inr ⟨_, rfl, hgrad⟩, hs⟩

theorem map_some_eq_ok {α ε : Type} {x : Except ε α} {a : α} :
    some <$> x = .ok (some a) ↔ x = .ok a := by
  cases x with
  | error e => exact ⟨nofun, nofun⟩
  | ok b => exact ⟨fun h => congrArg _ (Option.some.inj (Except.ok.inj h)), fun h =>
      congrArg _ (congrArg some (Except.ok.inj h))⟩

/-- An operation uses up its letter at least. -/
theorem length_lt_of_letter {c : UInt8} {t : CStr} (hs : s.dropWhile isspace = c :: t)
    (hr : r <:+ t) : r.length < s.length := by
  have hdrop := (List.dropWhile_suffix (l := s) isspace).length_le
  have hle := hr.length_le
  rw [hs, List.length_cons] at hdrop
  omega

theorem parseOp_spec {op : XdotOp D} (h : parseOp s = .ok (some (op, r))) :
    op.IsParsed ∧ r.length < s.length := by
  rw [parseOp] at h
  split at h
  case h_1 => exact nomatch h
  case h_16 => exact nomatch h
  case h_2 t hs | h_3 t hs =>
    obtain ⟨a, rfl, -, hr⟩ := parseAs_spec (P := fun _ => True) (fun h => ⟨trivial, parseRect_suffix h⟩)
      (map_some_eq_ok.1 h)
    exact ⟨trivial, length_lt_of_letter hs hr⟩
  case h_4 t hs | h_5 t hs | h_6 t hs | h_7 t hs | h_10 t hs =>
    obtain ⟨a, rfl, hp, hr⟩ := parseAs_spec parsePolyline_spec (map_some_eq_ok.1 h)
    exact ⟨hp, length_lt_of_letter hs hr⟩
  case h_8 t hs | h_9 t hs =>
    obtain ⟨⟨c, rfl, hc⟩ | ⟨g, rfl, hg⟩, hr⟩ := parseColorOp_spec (map_some_eq_ok.1 h)
    · exact ⟨hc, length_lt_of_letter hs hr⟩
    · exact ⟨hg, length_lt_of_letter hs hr⟩
  case h_11 t hs =>
    obtain ⟨⟨x, s1⟩, hx, h⟩ := bind_eq_ok.1 (map_some_eq_ok.1 h)
    obtain ⟨⟨y, s2⟩, hy, h⟩ := bind_eq_ok.1 h
    obtain ⟨⟨a, s3⟩, ha, h⟩ := bind_eq_ok.1 h
    obtain ⟨⟨w, s4⟩, hw, h⟩ := bind_eq_ok.1 h
    obtain ⟨⟨q, s5⟩, hq, h⟩ := bind_eq_ok.1 h
    obtain ⟨rfl, rfl⟩ := mk.inj (Except.ok.inj h)
    obtain ⟨hparsed, hr⟩ := parseString_spec hq
    exact ⟨hparsed, length_lt_of_letter hs (hr.trans ((parseReal_suffix hw).trans
      ((parseAlign_suffix ha).trans ((parseReal_suffix hy).trans (parseReal_suffix hx)))))⟩
  case h_12 t hs =>
    obtain ⟨⟨x, s1⟩, hx, h⟩ := bind_eq_ok.1 (map_some_eq_ok.1 h)
    obtain ⟨⟨q, s2⟩, hq, h⟩ := bind_eq_ok.1 h
    obtain ⟨rfl, rfl⟩ := mk.inj (Except.ok.inj h)
    obtain ⟨hparsed, hr⟩ := parseString_spec hq
    exact ⟨hparsed, length_lt_of_letter hs (hr.trans (parseReal_suffix hx))⟩
  case h_13 t hs =>
    obtain ⟨a, rfl, hp, hr⟩ := parseAs_spec parseString_spec (map_some_eq_ok.1 h)
    exact ⟨hp, length_lt_of_letter hs hr⟩
  case h_14 t hs =>
    obtain ⟨⟨x, s1⟩, hx, h⟩ := bind_eq_ok.1 (map_some_eq_ok.1 h)
    obtain ⟨⟨q, s2⟩, hq, h⟩ := bind_eq_ok.1 h
    obtain ⟨rfl, rfl⟩ := mk.inj (Except.ok.inj h)
    obtain ⟨hparsed, hr⟩ := parseString_spec hq
    exact ⟨hparsed, length_lt_of_letter hs (hr.trans (parseRect_suffix hx))⟩
  case h_15 t hs =>
    obtain ⟨a, rfl, hp, hr⟩ := parseAs_spec parseUInt_spec (map_some_eq_ok.1 h)
    exact ⟨hp, length_lt_of_letter hs hr⟩

/-- The operations of a text, and that the bound on their number is not met. -/
theorem parseOps_spec {fuel : Nat} (hfuel : s.length < fuel) :
    Meets (parseOps (D := D) fuel s) (fun x => ∀ op ∈ x.ops, op.IsParsed) (· ≠ .fuel) := by
  induction fuel generalizing s with
  | zero => exact absurd hfuel (Nat.not_lt_zero _)
  | succ fuel ih =>
    rw [parseOps]
    split
    · exact nofun
    next op t hop =>
      obtain ⟨hparsed, hlt⟩ := parseOp_spec hop
      refine (ih (by omega)).bind fun x hx op' hop' => ?_
      obtain rfl | hmem := List.mem_cons.1 hop'
      · exact hparsed
      · exact hx op' hmem
    · exact nofun
    · exact nofun

/-- The parser runs to its end, and returns operations that can be parsed. -/
theorem parseXDot_spec (s : CStr) :
    Meets (parseXDot (D := D) s) (fun x => ∀ y ∈ x, ∀ op ∈ y.ops, op.IsParsed) (· ≠ .fuel) := by
  refine (parseOps_spec (Nat.lt_succ_self s.length)).bind fun x hx => ?_
  rw [meets_ok]
  split
  · exact nofun
  · exact fun y hy => Option.some.inj hy ▸ hx

end Graphviz.XDot
