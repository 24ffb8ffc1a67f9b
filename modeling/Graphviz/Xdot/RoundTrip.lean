import Graphviz.Xdot.ParseSpec

/-!
# The round trip of xdot operations

What is printed and parsed again is the same as long as no string has a backslash and no gradient
is so long that its length does not fit in an `int`.
-/

namespace Graphviz.XDot

open List Nat Outcome Prod

variable {D : Type} [Double D] {d : D} {p r rest t u v : CStr} {sp : Bool}

/-! ## Numbers and strings -/

theorem parseReal_text (ht : IsText sp d t) (hrest : NumeralEnd rest) :
    parseReal (t ++ rest) = .ok (d, rest) := by
  rw [parseReal, ht.strtod hrest]
  rfl

theorem parseReal_bind {β : Type} {k : D × CStr → Except Stop β} (ht : IsText sp d t)
    (hrest : NumeralEnd rest) : parseReal (t ++ rest) >>= k = k (d, rest) := by
  rw [parseReal_text ht hrest]
  rfl

/-- A number that starts a text that may be cut: nothing that follows can be parsed unless it is
there as a whole. -/
theorem parseReal_inv {β : Type} {k : D × CStr → Except Stop β} {x : β} (ht : IsText sp d t)
    (hr : r <+: t ++ u) (hu : NumeralEnd u) (hk : ∀ d', k (d', []) = .error .null)
    (h : parseReal r >>= k = .ok x) : ∃ v, v <+: u ∧ r = t ++ v ∧ k (d, v) = .ok x := by
  obtain hcut | ⟨v, hv, rfl⟩ := prefix_append_cases hr
  · obtain ⟨⟨d', s⟩, hd', h⟩ := bind_eq_ok.1 h
    obtain hnone | ⟨d'', hsome⟩ := ht.strtod_cut hcut
    · rw [parseReal, hnone] at hd'
      exact nomatch hd'
    · rw [parseReal, hsome] at hd'
      obtain ⟨rfl, rfl⟩ := mk.inj (Except.ok.inj hd')
      exact nomatch (hk _).symm.trans h
  · rw [parseReal_text ht (hu.cut hv)] at h
    exact ⟨v, hv, rfl, h⟩

theorem decimal_no_minus (n : Nat) : 45 ∉ (32 :: decimal n : CStr) := by
  intro h
  obtain h | h := mem_cons.1 h
  · exact absurd h (by decide)
  · exact (digit_bounds ((decimal_spec n).1 45 h)).2.1 rfl

/-- A string that is read back from a text that may be cut is there as a whole, and has no
backslash. -/
theorem parseString_inv (hp : Parsed p) (hu : u <+: printString p ++ t)
    (h : parseString u = .ok (p, r)) : Plain p ∧ u = printString p ++ r := by
  have hlen := hp.length_le
  have hlt := hp.lt
  have hwhole : ∀ v, u = printString p ++ v → Plain p ∧ u = printString p ++ r := by
    rintro v rfl
    rw [parseString_print] at h
    split at h
    · exact nomatch h
    next hpos =>
      obtain ⟨heq, hacc, -, -⟩ := readChars_spec h
      refine ⟨not_not.1 fun hplain => ?_, congrArg _ (append_cancel_left heq)⟩
      have := accounted_lt hplain
      rw [min_eq_left (by omega), toInt32] at hacc hpos
      omega
  obtain hcut | ⟨v, -, rfl⟩ := prefix_append_cases hu
  · obtain ⟨⟨i, s1⟩, hi, h'⟩ := bind_eq_ok.1 h
    simp only at h'
    split at h'
    · exact nomatch h'
    split at h'
    · exact nomatch h'
    next c s2 hs =>
      -- a minus sign has been found, so the text goes on after the length
      have hminus : 45 ∈ s1 := by
        refine Decidable.byContradiction fun hno => ?_
        have hnil : s1.dropWhile (· ≠ 45) = [] := dropWhile_eq_nil_iff.2 fun b hb => by
          simpa using fun hb' : b = 45 => hno (hb' ▸ hb)
        exact absurd (hs.symm.trans hnil) (cons_ne_nil _ _)
      rcases prefix_append_cases (a := 32 :: decimal p.length) (b := 32 :: 45 :: p) hcut with
        hshort | ⟨w, hw, rfl⟩
      · exact absurd (hshort.subset ((parseInt_spec hi).2.subset hminus)) (decimal_no_minus _)
      · have hends : NumeralEnd w := (NumeralEnd.space : NumeralEnd (32 :: 45 :: p)).cut hw
        have hs1 := (parseInt_decimal (n := p.length) hends.not_digit).symm.trans hi
        obtain ⟨-, rfl⟩ := mk.inj (Except.ok.inj hs1)
        obtain rfl | ⟨w', rfl, hw'⟩ := prefix_cons_iff.1 hw
        · exact absurd hminus not_mem_nil
        obtain rfl | ⟨q, rfl, hq⟩ := prefix_cons_iff.1 hw'
        · exact absurd hminus (by decide)
        obtain ⟨-, rfl⟩ := cons.inj (hs : 45 :: q = c :: s2)
        obtain ⟨rfl, -⟩ := readChars_spec h'
        exact hwhole r (by simp [printString])
  · exact hwhole v rfl

/-! ## Gradients -/

/-- The text of a stop. -/
def stopText (st : XdotColorStop D) : CStr :=
  printFloat st.frac true ++ printString st.color

/-- A stop that is parsed, with a number that can be printed. -/
def StopOk (st : XdotColorStop D) : Prop :=
  Representable 2 st.frac ∧ Parsed st.color

theorem isText_coord (h : Representable 2 d) : IsText true d (printCoord d) :=
  isText_trim true h

theorem isText_float (h : Representable 2 d) (space : Bool) :
    IsText space d (printFloat d space) := by
  cases space with
  | true => exact isText_trim true h
  | false => exact isText_trim false h

theorem Parsed.ne_nil (hp : Parsed p) : p ≠ [] := fun h => by
  have := hp.pos
  rw [h] at this
  exact absurd this (by decide)

theorem Parsed.length_lt (hp : Parsed p) (hplain : Plain p) : p.length < 2 ^ 31 :=
  accounted_plain hplain ▸ hp.lt

theorem ends_printString : NumeralEnd (printString p ++ rest) :=
  NumeralEnd.space

theorem parseStops_reads {stops : List (XdotColorStop D)} (hok : ∀ st ∈ stops, StopOk st)
    (hplain : ∀ st ∈ stops, Plain st.color) :
    parseStops stops.length (stops.flatMap stopText ++ rest) = .ok (stops, rest) := by
  induction stops with
  | nil => rfl
  | cons st stops ih =>
    obtain ⟨hrep, hparsed⟩ := hok st mem_cons_self
    have hst := hplain st mem_cons_self
    have hrest := ih (fun x hx => hok x (mem_cons_of_mem _ hx))
      fun x hx => hplain x (mem_cons_of_mem _ hx)
    rw [flatMap_cons, stopText, append_assoc, append_assoc, length_cons,
      parseStops, parseReal_text (isText_float hrep true) ends_printString]
    simp only [ok_bind]
    rw [parseString_plain hst hparsed.ne_nil (hparsed.length_lt hst)]
    simp only [ok_bind]
    rw [hrest]
    rfl

/-- Stops that are read back from a text that may be cut are there as a whole. -/
theorem parseStops_inv {stops : List (XdotColorStop D)} (hok : ∀ st ∈ stops, StopOk st)
    (hu : u <+: stops.flatMap stopText ++ t) (h : parseStops stops.length u = .ok (stops, r)) :
    stops.flatMap stopText <+: u ∧ ∀ st ∈ stops, Plain st.color := by
  induction stops generalizing u with
  | nil => exact ⟨⟨u, rfl⟩, nofun⟩
  | cons st stops ih =>
    obtain ⟨hrep, hparsed⟩ := hok st mem_cons_self
    rw [flatMap_cons, stopText, append_assoc, append_assoc] at hu
    obtain ⟨v, hv, rfl, hread⟩ := parseReal_inv (isText_float hrep true) hu ends_printString
      (fun _ => rfl) h
    obtain ⟨⟨c, s1⟩, hc, hread⟩ := bind_eq_ok.1 hread
    obtain ⟨⟨ps, s2⟩, hps, hread⟩ := bind_eq_ok.1 hread
    obtain ⟨hlist, rfl⟩ := mk.inj (Except.ok.inj hread)
    obtain ⟨hst, rfl⟩ := cons.inj hlist
    obtain rfl : c = st.color := congrArg XdotColorStop.color hst
    obtain ⟨hplain, rfl⟩ := parseString_inv hparsed hv hc
    have hs1 := (prefix_append_right_inj _).1 hv
    obtain ⟨hpre, hrest⟩ := ih (fun x hx => hok x (mem_cons_of_mem _ hx)) hs1 hps
    refine ⟨?_, fun x hx => ?_⟩
    · rw [flatMap_cons, stopText, append_assoc, prefix_append_right_inj, prefix_append_right_inj]
      exact hpre
    · obtain rfl | hx := mem_cons.1 hx
      · exact hplain
      · exact hrest x hx

theorem isText_ends (ht : IsText true d t) : NumeralEnd (t ++ rest) := by
  obtain ⟨neg, ip, fr, rfl, -⟩ := ht
  exact NumeralEnd.space

theorem ends_stops {stops : List (XdotColorStop D)} (hok : ∀ st ∈ stops, StopOk st)
    (hrest : NumeralEnd rest) : NumeralEnd (stops.flatMap stopText ++ rest) := by
  cases stops with
  | nil => exact hrest
  | cons st stops =>
    rw [flatMap_cons, stopText, append_assoc, append_assoc]
    exact isText_ends (isText_float (hok st mem_cons_self).1 true)

theorem printStops_append (stops : List (XdotColorStop D)) :
    printStops stops ++ rest =
      32 :: (decimal stops.length ++ (stops.flatMap stopText ++ rest)) :=
  append_assoc (32 :: decimal stops.length) _ _

theorem parseInt_length {n : Nat} (hn : n < 2 ^ 31) (hrest : NumeralEnd rest) :
    parseInt (32 :: (decimal n ++ rest)) = .ok ((n : Int), rest) := by
  rw [parseInt_decimal hrest.not_digit, min_eq_left (by omega), toInt32_eq (by omega) (by omega)]

theorem parseStopList_reads {stops : List (XdotColorStop D)} (hlen : stops.length < 2 ^ 31)
    (hok : ∀ st ∈ stops, StopOk st) (hplain : ∀ st ∈ stops, Plain st.color)
    (hrest : NumeralEnd rest) : parseStopList (printStops stops ++ rest) = .ok (stops, rest) := by
  rw [printStops_append, parseStopList, parseInt_length hlen (ends_stops hok hrest)]
  simp only [ok_bind]
  rw [if_neg (by omega), Int.toNat_natCast, parseStops_reads hok hplain]

/-- A number of stops that is cut short. -/
theorem parseStopList_cut {n : Nat} {stops : List (XdotColorStop D)} (hu : u <+: 32 :: decimal n)
    (h : parseStopList u = .ok (stops, r)) : stops = [] ∧ 2 ≤ u.length := by
  obtain rfl | ⟨ds, rfl, hds⟩ := prefix_cons_iff.1 hu
  · exact nomatch h
  have hdigits : Digits ds := fun c hc => (decimal_spec n).1 c (hds.subset hc)
  obtain rfl | ⟨ds', c, rfl⟩ := eq_nil_or_concat ds
  · exact nomatch h
  have hread := readDigits_eq true false hdigits (by simp) NumeralEnd.nil.not_digit
  rw [append_nil] at hread
  obtain ⟨⟨i, s1⟩, hi, h⟩ := bind_eq_ok.1 h
  obtain ⟨⟨x, s2⟩, hx, heq⟩ := bind_eq_ok.1 hi
  obtain ⟨rfl, rfl⟩ := mk.inj (Except.ok.inj heq)
  have hs2 : s2 = [] := by
    obtain ⟨⟨neg, k, r'⟩, hk, heq'⟩ := Option.map_eq_some_iff.1 (orNull_eq_ok.1 hx)
    obtain ⟨-, rfl⟩ := mk.inj heq'
    obtain ⟨-, -, rfl⟩ := (Option.some.inj (hk.symm.trans hread) : (_, _, _) = _)
    rfl
  subst hs2
  simp only at h
  split at h
  · exact nomatch h
  · cases hn : (toInt32 x).toNat with
    | zero =>
      rw [hn] at h
      exact ⟨(mk.inj (Except.ok.inj h)).1.symm, by simp⟩
    | succ k =>
      rw [hn] at h
      exact nomatch h

theorem parseStopList_inv {stops : List (XdotColorStop D)} (hlen : stops.length < 2 ^ 31)
    (hok : ∀ st ∈ stops, StopOk st) (ht : NumeralEnd t) (hu : u <+: printStops stops ++ t)
    (h : parseStopList u = .ok (stops, r)) :
    printStops stops <+: u ∧ ∀ st ∈ stops, Plain st.color := by
  rw [printStops_append] at hu
  obtain hcut | ⟨v, hv, rfl⟩ := prefix_append_cases (a := 32 :: decimal stops.length) hu
  · obtain ⟨rfl, hu2⟩ := parseStopList_cut hcut h
    refine ⟨?_, nofun⟩
    have hzero : decimal 0 = [48] := decimal_of_lt (by decide)
    rw [length_nil, hzero] at hcut
    rw [hcut.eq_of_length_le hu2, printStops, length_nil, hzero]
    exact prefix_refl _
  · have hends : NumeralEnd v := (ends_stops hok ht).cut hv
    have hread : parseStopList (D := D) (32 :: decimal stops.length ++ v) =
        parseStops stops.length v := by
      rw [parseStopList]
      refine (congrArg (· >>= _) (parseInt_length hlen hends)).trans ?_
      simp only [ok_bind]
      rw [if_neg (by omega), Int.toNat_natCast]
    obtain ⟨hpre, hplain⟩ := parseStops_inv hok hv (hread ▸ h)
    exact ⟨(prefix_append_right_inj (32 :: decimal stops.length)).2 hpre, hplain⟩

/-- The coordinates of a gradient. -/
def XdotColor.coords : XdotColor D → List D
  | .xd_none _ => []
  | .xd_linear x0 y0 x1 y1 _ => [x0, y0, x1, y1]
  | .xd_radial x0 y0 r0 x1 y1 r1 _ => [x0, y0, r0, x1, y1, r1]

/-- A gradient that is parsed, with numbers that can be printed. -/
structure GradientOk (g : XdotColor D) : Prop where
  gradient : g.IsGradient
  coords : ∀ d ∈ g.coords, Representable 2 d
  fracs : ∀ st ∈ g.stops, Representable 2 st.frac

theorem GradientOk.stops {g : XdotColor D} (h : GradientOk g) :
    g.stops.length < 2 ^ 31 ∧ ∀ st ∈ g.stops, StopOk st := by
  cases g with
  | xd_none => exact h.gradient.elim
  | xd_linear => exact ⟨h.gradient.1, fun st hst => ⟨h.fracs st hst, h.gradient.2 st hst⟩⟩
  | xd_radial => exact ⟨h.gradient.1, fun st hst => ⟨h.fracs st hst, h.gradient.2 st hst⟩⟩

/-- The text of a gradient without its closing bracket. -/
def gradientBody : XdotColor D → CStr
  | .xd_none _ => []
  | .xd_linear x0 y0 x1 y1 stops =>
    91 :: (printFloat x0 false ++ (printFloat y0 true ++ (printFloat x1 true ++
      (printFloat y1 true ++ printStops stops))))
  | .xd_radial x0 y0 r0 x1 y1 r1 stops =>
    40 :: (printFloat x0 false ++ (printFloat y0 true ++ (printFloat r0 true ++
      (printFloat x1 true ++ (printFloat y1 true ++ (printFloat r1 true ++ printStops stops))))))

theorem toGradString_eq {g : XdotColor D} (hg : g.IsGradient) :
    ∃ c, (c = 93 ∨ c = 41) ∧ toGradString g = gradientBody g ++ [c] := by
  cases g with
  | xd_none => exact hg.elim
  | xd_linear => exact ⟨93, Or.inl rfl, by simp [toGradString, gradientBody]⟩
  | xd_radial => exact ⟨41, Or.inr rfl, by simp [toGradString, gradientBody]⟩

theorem ends_printStops {stops : List (XdotColorStop D)} : NumeralEnd (printStops stops ++ rest) :=
  NumeralEnd.space

theorem parseXDotColor_reads {g : XdotColor D} (hg : GradientOk g)
    (hplain : ∀ st ∈ g.stops, Plain st.color) (hrest : NumeralEnd rest) :
    parseXDotColor (gradientBody g ++ rest) = .ok g := by
  have hstops := parseStopList_reads hg.stops.1 hg.stops.2 hplain hrest
  have htext (sp : Bool) {d : D} (hd : Representable 2 d) := isText_float hd sp
  have hends {d : D} {t : CStr} (hd : Representable 2 d) : NumeralEnd (printFloat d true ++ t) :=
    isText_ends (htext true hd)
  have hcoords := hg.coords
  cases g with
  | xd_none => exact hg.gradient.elim
  | xd_linear x0 y0 x1 y1 stops =>
    simp only [XdotColor.coords, forall_mem_cons] at hcoords
    obtain ⟨hx0, hy0, hx1, hy1, -⟩ := hcoords
    rw [gradientBody, cons_append, parseXDotColor, if_pos rfl]
    simp only [append_assoc]
    refine (parseReal_bind (htext false hx0) (hends hy0)).trans ?_
    refine (parseReal_bind (htext true hy0) (hends hx1)).trans ?_
    refine (parseReal_bind (htext true hx1) (hends hy1)).trans ?_
    refine (parseReal_bind (htext true hy1) ends_printStops).trans ?_
    exact congrArg (· >>= _) hstops
  | xd_radial x0 y0 r0 x1 y1 r1 stops =>
    simp only [XdotColor.coords, forall_mem_cons] at hcoords
    obtain ⟨hx0, hy0, hr0, hx1, hy1, hr1, -⟩ := hcoords
    rw [gradientBody, cons_append, parseXDotColor, if_neg (by decide), if_pos rfl]
    simp only [append_assoc]
    refine (parseReal_bind (htext false hx0) (hends hy0)).trans ?_
    refine (parseReal_bind (htext true hy0) (hends hr0)).trans ?_
    refine (parseReal_bind (htext true hr0) (hends hx1)).trans ?_
    refine (parseReal_bind (htext true hx1) (hends hy1)).trans ?_
    refine (parseReal_bind (htext true hy1) (hends hr1)).trans ?_
    refine (parseReal_bind (htext true hr1) ends_printStops).trans ?_
    exact congrArg (· >>= _) hstops

/-- A gradient that is read back from a text that may be cut is there up to its bracket. -/
theorem parseXDotColor_inv {g : XdotColor D} (hg : GradientOk g) (ht : NumeralEnd t)
    (hu : u <+: gradientBody g ++ t) (h : parseXDotColor u = .ok g) :
    gradientBody g <+: u ∧ ∀ st ∈ g.stops, Plain st.color := by
  have hstops {v r : CStr} := parseStopList_inv (u := v) (r := r) hg.stops.1 hg.stops.2 ht
  have htext (sp : Bool) {d : D} (hd : Representable 2 d) := isText_float hd sp
  have hends {d : D} {t : CStr} (hd : Representable 2 d) : NumeralEnd (printFloat d true ++ t) :=
    isText_ends (htext true hd)
  have hcoords := hg.coords
  cases g with
  | xd_none => exact hg.gradient.elim
  | xd_linear x0 y0 x1 y1 stops =>
    simp only [XdotColor.coords, forall_mem_cons] at hcoords
    obtain ⟨hx0, hy0, hx1, hy1, -⟩ := hcoords
    rw [gradientBody, cons_append] at hu
    simp only [append_assoc] at hu
    obtain rfl | ⟨v, rfl, hv⟩ := prefix_cons_iff.1 hu
    · cases h
    rw [parseXDotColor, if_pos rfl] at h
    obtain ⟨v1, hv1, rfl, h1⟩ := parseReal_inv (htext false hx0) hv (hends hy0) (fun _ => rfl) h
    obtain ⟨v2, hv2, rfl, h2⟩ := parseReal_inv (htext true hy0) hv1 (hends hx1) (fun _ => rfl) h1
    obtain ⟨v3, hv3, rfl, h3⟩ := parseReal_inv (htext true hx1) hv2 (hends hy1) (fun _ => rfl) h2
    obtain ⟨v4, hv4, rfl, h4⟩ := parseReal_inv (htext true hy1) hv3 ends_printStops (fun _ => rfl) h3
    obtain ⟨⟨stops', s⟩, hread, h5⟩ := bind_eq_ok.1 h4
    obtain rfl : stops' = stops := congrArg XdotColor.stops (Except.ok.inj h5)
    obtain ⟨hpre, hplain⟩ := hstops hv4 hread
    refine ⟨?_, hplain⟩
    simpa only [gradientBody, cons_prefix_cons, prefix_append_right_inj, true_and,
      XdotColor.stops] using hpre
  | xd_radial x0 y0 r0 x1 y1 r1 stops =>
    simp only [XdotColor.coords, forall_mem_cons] at hcoords
    obtain ⟨hx0, hy0, hr0, hx1, hy1, hr1, -⟩ := hcoords
    rw [gradientBody, cons_append] at hu
    simp only [append_assoc] at hu
    obtain rfl | ⟨v, rfl, hv⟩ := prefix_cons_iff.1 hu
    · cases h
    rw [parseXDotColor, if_neg (by decide), if_pos rfl] at h
    obtain ⟨v1, hv1, rfl, h1⟩ := parseReal_inv (htext false hx0) hv (hends hy0) (fun _ => rfl) h
    obtain ⟨v2, hv2, rfl, h2⟩ := parseReal_inv (htext true hy0) hv1 (hends hr0) (fun _ => rfl) h1
    obtain ⟨v3, hv3, rfl, h3⟩ := parseReal_inv (htext true hr0) hv2 (hends hx1) (fun _ => rfl) h2
    obtain ⟨v4, hv4, rfl, h4⟩ := parseReal_inv (htext true hx1) hv3 (hends hy1) (fun _ => rfl) h3
    obtain ⟨v5, hv5, rfl, h5⟩ := parseReal_inv (htext true hy1) hv4 (hends hr1) (fun _ => rfl) h4
    obtain ⟨v6, hv6, rfl, h6⟩ := parseReal_inv (htext true hr1) hv5 ends_printStops (fun _ => rfl) h5
    obtain ⟨⟨stops', s⟩, hread, h7⟩ := bind_eq_ok.1 h6
    obtain rfl : stops' = stops := congrArg XdotColor.stops (Except.ok.inj h7)
    obtain ⟨hpre, hplain⟩ := hstops hv6 hread
    refine ⟨?_, hplain⟩
    simpa only [gradientBody, cons_prefix_cons, prefix_append_right_inj, true_and,
      XdotColor.stops] using hpre

theorem plain_append : Plain (t ++ u) ↔ Plain t ∧ Plain u := by
  rw [Plain, mem_append, not_or, Plain, Plain]

theorem plain_digits (h : Digits t) : Plain t := fun hc => absurd (h 92 hc) (by decide)

theorem isText_plain (ht : IsText sp d t) : Plain t := by
  obtain ⟨neg, ip, fr, rfl, hip, -, hfr, -⟩ := ht
  refine plain_append.2 ⟨?_, plain_append.2 ⟨?_, plain_append.2 ⟨plain_digits hip, ?_⟩⟩⟩
  · cases sp <;> decide
  · cases neg <;> decide
  · cases fr with
    | none => exact not_mem_nil
    | some fp => exact plain_cons.2 ⟨by decide, plain_digits (hfr fp rfl)⟩

theorem plain_decimal (n : Nat) : Plain (32 :: decimal n) :=
  plain_cons.2 ⟨by decide, plain_digits (decimal_spec n).1⟩

theorem plain_printStops {stops : List (XdotColorStop D)} (hok : ∀ st ∈ stops, StopOk st)
    (hplain : ∀ st ∈ stops, Plain st.color) : Plain (printStops stops) := by
  refine plain_append.2 ⟨plain_decimal _, fun hmem => ?_⟩
  obtain ⟨st, hst, hmem⟩ := mem_flatMap.1 hmem
  have hp : Plain (printString st.color) :=
    plain_append.2 ⟨plain_decimal _, plain_cons.2 ⟨by decide, plain_cons.2 ⟨by decide,
      hplain st hst⟩⟩⟩
  exact plain_append.2 ⟨isText_plain (isText_float (hok st hst).1 true), hp⟩ hmem

theorem plain_gradient {g : XdotColor D} (hg : GradientOk g)
    (hplain : ∀ st ∈ g.stops, Plain st.color) : Plain (toGradString g) := by
  have hstops := plain_printStops hg.stops.2 hplain
  have htext (sp : Bool) {d : D} (hd : d ∈ g.coords) : Plain (printFloat d sp) :=
    isText_plain (isText_float (hg.coords d hd) sp)
  have hbody : Plain (gradientBody g) := by
    cases g with
    | xd_none => exact hg.gradient.elim
    | xd_linear =>
      simp only [gradientBody, plain_cons, plain_append]
      exact ⟨by decide, htext _ (by simp [XdotColor.coords]), htext _ (by simp [XdotColor.coords]),
        htext _ (by simp [XdotColor.coords]), htext _ (by simp [XdotColor.coords]), hstops⟩
    | xd_radial =>
      simp only [gradientBody, plain_cons, plain_append]
      exact ⟨by decide, htext _ (by simp [XdotColor.coords]), htext _ (by simp [XdotColor.coords]),
        htext _ (by simp [XdotColor.coords]), htext _ (by simp [XdotColor.coords]),
        htext _ (by simp [XdotColor.coords]), htext _ (by simp [XdotColor.coords]), hstops⟩
  obtain ⟨c, hc, heq⟩ := toGradString_eq hg.gradient
  rw [heq]
  refine plain_append.2 ⟨hbody, plain_cons.2 ⟨?_, not_mem_nil⟩⟩
  rcases hc with rfl | rfl <;> decide

/-- What a gradient must be like for the round trip. -/
def GoodGradient (g : XdotColor D) : Prop :=
  (∀ st ∈ g.stops, Plain st.color) ∧ (toGradString g).length < 2 ^ 31

theorem parseColorOp_reads {plain : CStr → XdotOp D} {grad : XdotColor D → XdotOp D}
    {g : XdotColor D} (hg : GradientOk g) (hgood : GoodGradient g) :
    parseColorOp plain grad (printString (toGradString g) ++ rest) = .ok (grad g, rest) := by
  obtain ⟨c, hc, heq⟩ := toGradString_eq hg.gradient
  have hends : NumeralEnd [c] := fun b hb => by
    obtain rfl : c = b := Option.some.inj hb
    exact Or.inr hc
  have hread := parseXDotColor_reads hg hgood.1 hends
  rw [← heq] at hread
  rw [parseColorOp, parseString_plain (plain_gradient hg hgood.1) (by rw [heq]; simp) hgood.2]
  simp only [ok_bind]
  rw [hread]
  cases g with
  | xd_none => exact hg.gradient.elim
  | xd_linear => rfl
  | xd_radial => rfl

theorem parseColorOp_inv {plain : CStr → XdotOp D} {grad : XdotColor D → XdotOp D}
    (hgrad : Function.Injective grad) (hne : ∀ c g, plain c ≠ grad g) {g : XdotColor D}
    (hg : GradientOk g)
    (h : parseColorOp plain grad (printString (toGradString g) ++ rest) = .ok (grad g, r)) :
    GoodGradient g := by
  obtain ⟨⟨q, s1⟩, hq, h⟩ := bind_eq_ok.1 h
  obtain ⟨clr, hclr, h⟩ := bind_eq_ok.1 h
  obtain rfl : clr = g := by
    cases clr with
    | xd_none c => exact absurd (mk.inj (Except.ok.inj h)).1 (hne c g)
    | xd_linear => exact hgrad (mk.inj (Except.ok.inj h)).1
    | xd_radial => exact hgrad (mk.inj (Except.ok.inj h)).1
  obtain ⟨c, hc, heq⟩ := toGradString_eq hg.gradient
  have hends : NumeralEnd (c :: rest) := fun b hb => by
    obtain rfl : c = b := Option.some.inj hb
    exact Or.inr hc
  rw [parseString_print] at hq
  split at hq
  · exact nomatch hq
  next hpos =>
    obtain ⟨hread, hacc, hlen, -⟩ := readChars_spec hq
    have hpre : q <+: gradientBody clr ++ c :: rest := by
      refine ⟨s1, ?_⟩
      rw [← hread, heq, append_assoc]
      rfl
    obtain ⟨hbody, hplain⟩ := parseXDotColor_inv hg hends hpre hclr
    have hbodylen := hbody.length_le
    have htotal : (toGradString clr).length = (gradientBody clr).length + 1 := by
      rw [heq, length_append, length_singleton]
    -- a length that wraps around is smaller by `2 ^ 32` at least
    refine ⟨hplain, not_le.1 fun hbig => ?_⟩
    simp only [toInt32] at hpos hlen
    omega

/-! ## Operations -/

/-- A rectangle whose numbers can be printed. -/
def XdotRect.Representable (a : XdotRect D) : Prop :=
  Graphviz.Representable 2 a.x ∧ Graphviz.Representable 2 a.y ∧ Graphviz.Representable 2 a.w ∧
    Graphviz.Representable 2 a.h

/-- Points whose numbers can be printed. -/
def PointsRepresentable (ps : List (XdotPoint D)) : Prop :=
  ∀ pt ∈ ps, Graphviz.Representable 2 pt.x ∧ Graphviz.Representable 2 pt.y

/-- An operation whose numbers can be printed: with two decimals, those of a text without. -/
def XdotOp.Representable : XdotOp D → Prop
  | .xd_filled_ellipse a | .xd_unfilled_ellipse a => a.Representable
  | .xd_filled_polygon p | .xd_unfilled_polygon p | .xd_filled_bezier p | .xd_unfilled_bezier p
  | .xd_polyline p => PointsRepresentable p
  | .xd_pen_color _ | .xd_fill_color _ => True
  | .xd_grad_pen_color g | .xd_grad_fill_color g =>
    (∀ d ∈ g.coords, Graphviz.Representable 2 d) ∧ ∀ st ∈ g.stops, Graphviz.Representable 2 st.frac
  | .xd_text x y _ width _ =>
    Graphviz.Representable 0 x ∧ Graphviz.Representable 0 y ∧ Graphviz.Representable 0 width
  | .xd_font size _ => Graphviz.Representable 2 size
  | .xd_style _ => True
  | .xd_image pos _ => pos.Representable
  | .xd_fontchar _ => True

/-- The strings of an operation have no backslash, and a gradient is not too long. -/
def XdotOp.Good : XdotOp D → Prop
  | .xd_pen_color c | .xd_fill_color c => Plain c
  | .xd_grad_pen_color g | .xd_grad_fill_color g => GoodGradient g
  | .xd_text _ _ _ _ t => Plain t
  | .xd_font _ n => Plain n
  | .xd_style t => Plain t
  | .xd_image _ n => Plain n
  | _ => True

theorem ends_coord (h : Representable 2 d) : NumeralEnd (printCoord d ++ rest) :=
  isText_ends (isText_coord h)

theorem parseRect_reads {a : XdotRect D} (h : a.Representable) (hrest : NumeralEnd rest) :
    parseRect (printRect a ++ rest) = .ok (a, rest) := by
  obtain ⟨hx, hy, hw, hh⟩ := h
  rw [printRect, append_assoc, append_assoc, append_assoc]
  refine (parseReal_bind (isText_coord hx) (ends_coord hy)).trans ?_
  refine (parseReal_bind (isText_coord hy) (ends_coord hw)).trans ?_
  refine (parseReal_bind (isText_coord hw) (ends_coord hh)).trans ?_
  exact parseReal_bind (isText_coord hh) hrest

/-- The text of the points of a polyline. -/
def pointsText (ps : List (XdotPoint D)) : CStr :=
  ps.flatMap fun pt => printCoord pt.x ++ printCoord pt.y

theorem ends_points {ps : List (XdotPoint D)} (h : PointsRepresentable ps)
    (hrest : NumeralEnd rest) : NumeralEnd (pointsText ps ++ rest) := by
  cases ps with
  | nil => exact hrest
  | cons pt ps =>
    rw [pointsText, flatMap_cons, append_assoc, append_assoc]
    exact ends_coord (h pt mem_cons_self).1

theorem parsePoints_reads {ps : List (XdotPoint D)} (h : PointsRepresentable ps)
    (hz : ∀ pt ∈ ps, pt.z = Double.read (.finite 0)) (hrest : NumeralEnd rest) :
    parsePoints ps.length (pointsText ps ++ rest) = .ok (ps, rest) := by
  induction ps with
  | nil => rfl
  | cons pt ps ih =>
    obtain ⟨hx, hy⟩ := h pt mem_cons_self
    have hps : PointsRepresentable ps := fun p hp => h p (mem_cons_of_mem _ hp)
    have ih := ih hps fun p hp => hz p (mem_cons_of_mem _ hp)
    rw [pointsText, flatMap_cons, append_assoc, append_assoc]
    refine (parseReal_bind (isText_coord hx) (ends_coord hy)).trans ?_
    refine (parseReal_bind (isText_coord hy) (ends_points hps hrest)).trans ?_
    refine (congrArg (· >>= _) ih).trans ?_
    simp only [ok_bind, ← hz pt mem_cons_self]

theorem parsePolyline_reads {ps : List (XdotPoint D)} (h : PointsRepresentable ps)
    (hparsed : IsPolyline ps) (hrest : NumeralEnd rest) :
    parsePolyline (printPolyline ps ++ rest) = .ok (ps, rest) := by
  have hends := ends_points h hrest
  have hcnt : parseUInt (32 :: (decimal ps.length ++ (pointsText ps ++ rest))) =
      .ok (ps.length, pointsText ps ++ rest) := by
    rw [parseUInt, strtoul_decimal (hparsed.1.trans (by decide)) hends.not_digit, orNull]
    simp only [ok_bind, mod_eq_of_lt hparsed.1]
  refine (congrArg parsePolyline (append_assoc (32 :: decimal ps.length) _ _)).trans ?_
  refine (congrArg (· >>= _) hcnt).trans ?_
  exact parsePoints_reads h hparsed.2 hrest

theorem parseAlign_reads (a : XdotAlign) (hrest : NumeralEnd rest) :
    parseAlign (printAlign a ++ rest) = .ok (a, rest) := by
  have hone : Digits [49] := fun c hc => mem_singleton.1 hc ▸ rfl
  cases a with
  | xd_left =>
    have h := readDigits_eq true true hone (by decide) hrest.not_digit
    rw [parseAlign, parseInt, strtol]
    rw [show readDigits (printAlign .xd_left ++ rest) = _ from h]
    rfl
  | xd_center => exact congrArg (· >>= _) (parseInt_length (n := 0) (by decide) hrest)
  | xd_right => exact congrArg (· >>= _) (parseInt_length (n := 1) (by decide) hrest)

omit [Double D] in
theorem parseAs_reads {α : Type} {f : Parser α} {op : α → XdotOp D} {a : α}
    (h : f t = .ok (a, rest)) : some <$> parseAs f op t = .ok (some (op a, rest)) := by
  rw [parseAs, h]
  rfl

theorem printXDot_Op_text {x y width : D} {align : XdotAlign} {q : CStr} :
    printXDot_Op (.xd_text x y align width q) ++ rest = 84 :: (32 :: toFixed 0 x ++
      (32 :: toFixed 0 y ++ (printAlign align ++ (32 :: toFixed 0 width ++
        (printString q ++ rest))))) := by
  simp [printXDot_Op]

/-- A printed operation is read back. -/
theorem parseOp_reads {op : XdotOp D} (hparsed : op.IsParsed) (hrep : op.Representable)
    (hgood : op.Good) (hrest : NumeralEnd rest) :
    parseOp (printXDot_Op op ++ rest) = .ok (some (op, rest)) := by
  have hstring {q : CStr} (hq : Parsed q) (hplain : Plain q) :
      parseString (printString q ++ rest) = .ok (q, rest) :=
    parseString_plain hplain hq.ne_nil (hq.length_lt hplain)
  have hcolor {plain : CStr → XdotOp D} {grad : XdotColor D → XdotOp D} {c : CStr}
      (hc : IsPlainColor c) (hplain : Plain c) :
      parseColorOp plain grad (printString c ++ rest) = .ok (plain c, rest) := by
    obtain ⟨hc, b, t, rfl, hb⟩ := hc
    have h91 : b ≠ 91 := by rintro rfl; revert hb; decide
    have h40 : b ≠ 40 := by rintro rfl; revert hb; decide
    rw [parseColorOp, hstring hc hplain]
    simp only [ok_bind]
    rw [parseXDotColor, if_neg h91, if_neg h40, if_pos hb]
    rfl
  cases op with
  | xd_filled_ellipse a => exact parseAs_reads (parseRect_reads hrep hrest)
  | xd_unfilled_ellipse a => exact parseAs_reads (parseRect_reads hrep hrest)
  | xd_filled_polygon p => exact parseAs_reads (parsePolyline_reads hrep hparsed hrest)
  | xd_unfilled_polygon p => exact parseAs_reads (parsePolyline_reads hrep hparsed hrest)
  | xd_filled_bezier p => exact parseAs_reads (parsePolyline_reads hrep hparsed hrest)
  | xd_unfilled_bezier p => exact parseAs_reads (parsePolyline_reads hrep hparsed hrest)
  | xd_pen_color c => exact map_some_eq_ok.2 (hcolor hparsed hgood)
  | xd_grad_pen_color g =>
    exact map_some_eq_ok.2 (parseColorOp_reads ⟨hparsed, hrep.1, hrep.2⟩ hgood)
  | xd_fill_color c => exact map_some_eq_ok.2 (hcolor hparsed hgood)
  | xd_grad_fill_color g =>
    exact map_some_eq_ok.2 (parseColorOp_reads ⟨hparsed, hrep.1, hrep.2⟩ hgood)
  | xd_polyline p => exact parseAs_reads (parsePolyline_reads hrep hparsed hrest)
  | xd_text x y align width q =>
    obtain ⟨hx, hy, hw⟩ := hrep
    have halign : NumeralEnd
        (printAlign align ++ (32 :: toFixed 0 width ++ (printString q ++ rest))) := by
      cases align <;> exact NumeralEnd.space
    have htext : parseText (32 :: toFixed 0 x ++ (32 :: toFixed 0 y ++ (printAlign align ++
        (32 :: toFixed 0 width ++ (printString q ++ rest))))) =
        .ok (.xd_text x y align width q, rest) := by
      refine (parseReal_bind (isText_integer hx) NumeralEnd.space).trans ?_
      refine (parseReal_bind (isText_integer hy) halign).trans ?_
      refine (congrArg (· >>= _) (parseAlign_reads align NumeralEnd.space)).trans ?_
      refine (parseReal_bind (isText_integer hw) ends_printString).trans ?_
      exact congrArg (· >>= _) (hstring hparsed hgood)
    rw [printXDot_Op_text]
    exact map_some_eq_ok.2 htext
  | xd_font size n =>
    have hfont : parseFont (printFloat size true ++ (printString n ++ rest)) =
        .ok (.xd_font size n, rest) := by
      refine (parseReal_bind (isText_float hrep true) ends_printString).trans ?_
      exact congrArg (· >>= _) (hstring hparsed hgood)
    rw [printXDot_Op, cons_append, cons_append, append_assoc]
    exact map_some_eq_ok.2 hfont
  | xd_style q => exact parseAs_reads (hstring hparsed hgood)
  | xd_image pos n =>
    have himage : parseImage (printRect pos ++ (printString n ++ rest)) =
        .ok (.xd_image pos n, rest) := by
      rw [parseImage, parseRect_reads hrep ends_printString]
      simp only [ok_bind]
      rw [hstring hparsed hgood]
      rfl
    rw [printXDot_Op, cons_append, cons_append, append_assoc]
    exact map_some_eq_ok.2 himage
  | xd_fontchar n =>
    refine parseAs_reads ?_
    refine (congrArg (· >>= _) (congrArg orNull (strtoul_decimal (n := n)
      (lt_trans hparsed (by decide)) hrest.not_digit))).trans ?_
    exact congrArg (fun k => Except.ok (k, rest)) (mod_eq_of_lt hparsed)

/-- An operation that is read back as it was has good strings. -/
theorem parseOp_inv {op : XdotOp D} (hparsed : op.IsParsed) (hrep : op.Representable)
    (h : parseOp (printXDot_Op op ++ rest) = .ok (some (op, r))) : op.Good := by
  have hstring {q s : CStr} (hq : Parsed q) (hread : parseString (printString q ++ rest) = .ok (q, s)) :
      Plain q := (parseString_inv hq (prefix_refl _) hread).1
  have hcolor {plain : CStr → XdotOp D} {grad : XdotColor D → XdotOp D} {c : CStr}
      (hplain : Function.Injective plain) (hne : ∀ c g, plain c ≠ grad g) (hc : IsPlainColor c)
      (hread : parseColorOp plain grad (printString c ++ rest) = .ok (plain c, r)) : Plain c := by
    obtain ⟨⟨q, s1⟩, hq, hread⟩ := bind_eq_ok.1 hread
    obtain ⟨clr, hclr, hread⟩ := bind_eq_ok.1 hread
    cases clr with
    | xd_none c' =>
      obtain rfl : c' = c := hplain (mk.inj (Except.ok.inj hread)).1
      obtain ⟨heq, -⟩ | hgrad := parseXDotColor_spec (parseString_spec hq).1 hclr
      · obtain rfl : c' = q := XdotColor.xd_none.inj heq
        exact hstring hc.1 hq
      · exact hgrad.elim
    | xd_linear => exact absurd (mk.inj (Except.ok.inj hread)).1.symm (hne _ _)
    | xd_radial => exact absurd (mk.inj (Except.ok.inj hread)).1.symm (hne _ _)
  cases op with
  | xd_filled_ellipse => trivial
  | xd_unfilled_ellipse => trivial
  | xd_filled_polygon => trivial
  | xd_unfilled_polygon => trivial
  | xd_filled_bezier => trivial
  | xd_unfilled_bezier => trivial
  | xd_pen_color c =>
    exact hcolor (fun _ _ => XdotOp.xd_pen_color.inj) (fun _ _ => by simp) hparsed (map_some_eq_ok.1 h)
  | xd_grad_pen_color g =>
    exact parseColorOp_inv (fun _ _ => XdotOp.xd_grad_pen_color.inj) (fun _ _ => by simp)
      ⟨hparsed, hrep.1, hrep.2⟩ (map_some_eq_ok.1 h)
  | xd_fill_color c =>
    exact hcolor (fun _ _ => XdotOp.xd_fill_color.inj) (fun _ _ => by simp) hparsed (map_some_eq_ok.1 h)
  | xd_grad_fill_color g =>
    exact parseColorOp_inv (fun _ _ => XdotOp.xd_grad_fill_color.inj) (fun _ _ => by simp)
      ⟨hparsed, hrep.1, hrep.2⟩ (map_some_eq_ok.1 h)
  | xd_polyline => trivial
  | xd_text x y align width q =>
    obtain ⟨hx, hy, hw⟩ := hrep
    have halign : NumeralEnd
        (printAlign align ++ (32 :: toFixed 0 width ++ (printString q ++ rest))) := by
      cases align <;> exact NumeralEnd.space
    rw [printXDot_Op_text] at h
    have h1 := (parseReal_bind (isText_integer hx) NumeralEnd.space).symm.trans (map_some_eq_ok.1 h)
    have h2 := (parseReal_bind (isText_integer hy) halign).symm.trans h1
    have h3 := (congrArg (· >>= _) (parseAlign_reads align NumeralEnd.space)).symm.trans h2
    have h4 := (parseReal_bind (isText_integer hw) ends_printString).symm.trans h3
    obtain ⟨⟨q', s⟩, hq, h5⟩ := bind_eq_ok.1 h4
    obtain rfl : q' = q := (XdotOp.xd_text.inj (mk.inj (Except.ok.inj h5)).1).2.2.2.2
    exact hstring hparsed hq
  | xd_font size n =>
    rw [printXDot_Op, cons_append, cons_append, append_assoc] at h
    have h1 := (parseReal_bind (isText_float hrep true) ends_printString).symm.trans
      (map_some_eq_ok.1 h)
    obtain ⟨⟨n', s⟩, hn, h2⟩ := bind_eq_ok.1 h1
    obtain rfl : n' = n := (XdotOp.xd_font.inj (mk.inj (Except.ok.inj h2)).1).2
    exact hstring hparsed hn
  | xd_style q =>
    obtain ⟨⟨q', s⟩, hq, h⟩ := bind_eq_ok.1 (map_some_eq_ok.1 h)
    obtain rfl : q' = q := XdotOp.xd_style.inj (mk.inj (Except.ok.inj h)).1
    exact hstring hparsed hq
  | xd_image pos n =>
    rw [printXDot_Op, cons_append, cons_append, append_assoc] at h
    obtain ⟨⟨pos', s'⟩, hpos, h1⟩ := bind_eq_ok.1 (map_some_eq_ok.1 h)
    have hread := (parseRect_reads hrep ends_printString).symm.trans hpos
    obtain ⟨rfl, rfl⟩ := mk.inj (Except.ok.inj hread)
    obtain ⟨⟨n', s⟩, hn, h2⟩ := bind_eq_ok.1 h1
    obtain rfl : n' = n := (XdotOp.xd_image.inj (mk.inj (Except.ok.inj h2)).1).2
    exact hstring hparsed hn
  | xd_fontchar => trivial

/-! ## Lists of operations -/

theorem ends_next (ops : List (XdotOp D)) (op : XdotOp D) :
    ∃ rest, NumeralEnd rest ∧ sprintXDot (op :: ops) = printXDot_Op op ++ rest ∧
      (ops = [] ∧ rest = [] ∨ ops ≠ [] ∧ rest = 32 :: sprintXDot ops) := by
  cases ops with
  | nil => exact ⟨[], .nil, (append_nil _).symm, Or.inl ⟨rfl, rfl⟩⟩
  | cons op' ops => exact ⟨_, .space, rfl, Or.inr ⟨cons_ne_nil _ _, rfl⟩⟩

theorem length_le_sprintXDot (ops : List (XdotOp D)) : ops.length ≤ (sprintXDot ops).length := by
  induction ops with
  | nil => exact zero_le _
  | cons op ops ih =>
    have hop : 0 < (printXDot_Op op).length := by
      cases op <;> exact succ_pos _
    obtain ⟨rest, -, heq, ⟨rfl, rfl⟩ | ⟨-, rfl⟩⟩ := ends_next ops op
    · rw [heq, append_nil]
      exact hop
    · rw [heq, length_append, length_cons, length_cons]
      omega

theorem parseOps_reads {ops : List (XdotOp D)}
    (h : ∀ op ∈ ops, op.IsParsed ∧ op.Representable ∧ op.Good) {fuel : Nat}
    (hfuel : ops.length < fuel) : parseOps fuel (sprintXDot ops) = .ok ⟨ops, false⟩ := by
  induction ops generalizing fuel with
  | nil =>
    obtain ⟨fuel, rfl⟩ := exists_eq_succ_of_ne_zero hfuel.ne'
    rfl
  | cons op ops ih =>
    obtain ⟨fuel, rfl⟩ := exists_eq_succ_of_ne_zero (ne_zero_of_lt hfuel)
    obtain ⟨hparsed, hrep, hgood⟩ := h op mem_cons_self
    have hlt : ops.length < fuel := succ_lt_succ_iff.1 hfuel
    have ih := ih (fun x hx => h x (mem_cons_of_mem _ hx)) hlt
    obtain ⟨rest, hends, heq, hrest⟩ := ends_next ops op
    have hnext : parseOps fuel rest = .ok ⟨ops, false⟩ := by
      obtain ⟨rfl, rfl⟩ | ⟨-, rfl⟩ := hrest
      · exact ih
      · obtain ⟨fuel, rfl⟩ := exists_eq_succ_of_ne_zero (ne_zero_of_lt hlt)
        exact ih
    rw [heq, parseOps, parseOp_reads hparsed hrep hgood hends]
    simp only [hnext, ok_bind]

/-- Operations that are read back as they were have good strings. -/
theorem parseOps_inv {ops : List (XdotOp D)} (h : ∀ op ∈ ops, op.IsParsed ∧ op.Representable)
    {fuel : Nat} {e : Bool} (hread : parseOps fuel (sprintXDot ops) = .ok ⟨ops, e⟩) :
    ∀ op ∈ ops, op.Good := by
  induction ops generalizing fuel with
  | nil => simp
  | cons op ops ih =>
    obtain ⟨hparsed, hrep⟩ := h op mem_cons_self
    obtain ⟨rest, hends, heq, hrest⟩ := ends_next ops op
    cases fuel with
    | zero => cases hread
    | succ fuel =>
      rw [heq, parseOps] at hread
      split at hread
      next => cases (Xdot.mk.inj (Except.ok.inj hread)).1
      next op' s hop =>
        obtain ⟨x, hx, hlist⟩ := bind_eq_ok.1 hread
        obtain ⟨hops, rfl⟩ := Xdot.mk.inj (Except.ok.inj hlist)
        obtain ⟨rfl, rfl⟩ := cons.inj hops
        have hgood := parseOp_inv hparsed hrep hop
        have hs := (parseOp_reads hparsed hrep hgood hends).symm.trans hop
        obtain rfl : rest = s := (mk.inj (Option.some.inj (Except.ok.inj hs))).2
        have hnext : ∀ op ∈ x.ops, op.Good := by
          obtain ⟨hnil, -⟩ | ⟨-, rfl⟩ := hrest
          · simp [hnil]
          · cases fuel with
            | zero => cases hx
            | succ fuel =>
              have hx : parseOps (fuel + 1) (sprintXDot x.ops) = .ok x := hx
              exact ih (fun y hy => h y (mem_cons_of_mem _ hy)) hx
        intro y hy
        obtain rfl | hy := mem_cons.1 hy
        · exact hgood
        · exact hnext y hy
      next => cases (Xdot.mk.inj (Except.ok.inj hread)).1
      next => cases hread

/-- Printed and parsed again, operations are the same if and only if no string has a backslash and
no gradient is too long. -/
theorem round_trip_iff {s : CStr} {x : Xdot D} (h : parseXDot s = .ok (some x))
    (hflag : x.parseError = false) (hrep : ∀ op ∈ x.ops, op.Representable) :
    parseXDot (sprintXDot x.ops) = .ok (some x) ↔ ∀ op ∈ x.ops, op.Good := by
  have hparsed : ∀ op ∈ x.ops, op.IsParsed := (parseXDot_spec s).of_ok h x rfl
  obtain ⟨ops, flag⟩ := x
  subst hflag
  have hne : ops ≠ [] := by
    obtain ⟨y, -, hy⟩ := bind_eq_ok.1 h
    have hy := Except.ok.inj hy
    split at hy
    · exact nomatch hy
    next hne =>
      obtain rfl := Option.some.inj hy
      exact hne
  refine ⟨fun hread => ?_, fun hgood => ?_⟩
  · obtain ⟨y, hy, heq⟩ := bind_eq_ok.1 hread
    have heq := Except.ok.inj heq
    split at heq
    · exact nomatch heq
    · obtain rfl := Option.some.inj heq
      exact parseOps_inv (fun op hop => ⟨hparsed op hop, hrep op hop⟩) hy
  · have hfuel := lt_succ_of_le (length_le_sprintXDot ops)
    have hread := parseOps_reads (fun op hop => ⟨hparsed op hop, hrep op hop, hgood op hop⟩) hfuel
    rw [parseXDot, hread]
    exact congrArg Except.ok (if_neg hne)

/-- A font of 14 points. -/
def timesFont : XdotOp Value :=
  .xd_font (.finite 14) (lit "Times")

/-- A font that is printed and parsed again. -/
theorem round_trip_font :
    parseXDot (lit "F 14 5 -Times") = .ok (some ⟨[timesFont], false⟩) ∧
      parseXDot (sprintXDot [timesFont]) = .ok (some ⟨[timesFont], false⟩) := by
  have hparse : parseXDot (lit "F 14 5 -Times") = .ok (some ⟨[timesFont], false⟩) := by
    decide +kernel
  have hrep : ∀ op ∈ [timesFont], op.Representable := by
    intro op hop
    obtain rfl := mem_singleton.1 hop
    exact ⟨14, rfl, by decide +kernel⟩
  refine ⟨hparse, (round_trip_iff hparse rfl hrep).2 fun op hop => ?_⟩
  obtain rfl := mem_singleton.1 hop
  exact (by decide : Plain (lit "Times"))

/-- A string with a backslash: its length is printed as two, and the parser looks for one more
character. -/
theorem round_trip_backslash :
    parseXDot (D := Value) (lit "S 1 -\\a") = .ok (some ⟨[.xd_style (lit "\\a")], false⟩) ∧
      parseXDot (D := Value) (sprintXDot (D := Value) [.xd_style (lit "\\a")]) = .ok none := by
  decide +kernel

end Graphviz.XDot
