import Graphviz.Library.JsonText
import Graphviz.Util.NumeralRead
import Graphviz.Xdot.Xdot

/-!
# Xdot as JSON

`lib/xdot/xdot.c`: `jsonXDot` prints an array with one object for each operation. `jsonString`
escapes quotes and backslashes and no other byte, and a number that is not finite is printed as
`inf` or `nan`; without these the text is JSON, and its literals are the strings of the operations.
-/

namespace Graphviz.XDot

open List Option

open Json (Piece)

variable {D : Type} [Double D]

/-! ## The printer -/

/-- `jsonRect`. -/
def jsonRect (r : XdotRect D) : CStr :=
  91 :: toFixed 6 r.x ++ 44 :: toFixed 6 r.y ++ 44 :: toFixed 6 r.w ++ 44 :: toFixed 6 r.h ++ [93]

/-- The loop of `jsonPolyline`. -/
def jsonPoints : List (XdotPoint D) → CStr
  | [] => []
  | [pt] => toFixed 6 pt.x ++ 44 :: toFixed 6 pt.y
  | pt :: pt' :: pts => toFixed 6 pt.x ++ 44 :: toFixed 6 pt.y ++ 44 :: jsonPoints (pt' :: pts)

/-- `jsonPolyline`. -/
def jsonPolyline (p : List (XdotPoint D)) : CStr :=
  91 :: jsonPoints p ++ [93]

/-- The loop of `jsonString`. -/
def jsonChars : CStr → CStr
  | [] => []
  | c :: p =>
    if c = 34 then 92 :: 34 :: jsonChars p
    else if c = 92 then 92 :: 92 :: jsonChars p
    else c :: jsonChars p

/-- `jsonString`. -/
def jsonString (p : CStr) : CStr :=
  34 :: jsonChars p ++ [34]

/-- The beginning of an operation: a brace, the letter of its kind in quotes, and a colon. -/
def jsonKey (c : UInt8) : CStr :=
  [123, 34, c, 34, 32, 58]

/-- `jsonXDot_Op` up to the closing brace. -/
def jsonOp : XdotOp D → CStr
  | .xd_filled_ellipse r => jsonKey 69 ++ 32 :: jsonRect r
  | .xd_unfilled_ellipse r => jsonKey 101 ++ 32 :: jsonRect r
  | .xd_filled_polygon p => jsonKey 80 ++ 32 :: jsonPolyline p
  | .xd_unfilled_polygon p => jsonKey 112 ++ 32 :: jsonPolyline p
  | .xd_filled_bezier p => jsonKey 98 ++ 32 :: jsonPolyline p
  | .xd_unfilled_bezier p => jsonKey 66 ++ 32 :: jsonPolyline p
  | .xd_pen_color c => jsonKey 99 ++ 32 :: jsonString c
  | .xd_grad_pen_color c => jsonKey 99 ++ 32 :: jsonString (toGradString c)
  | .xd_fill_color c => jsonKey 67 ++ 32 :: jsonString c
  | .xd_grad_fill_color c => jsonKey 67 ++ 32 :: jsonString (toGradString c)
  | .xd_polyline p => jsonKey 76 ++ jsonPolyline p
  | .xd_text x y align width text =>
    jsonKey 84 ++ 32 :: 91 :: 32 :: toFixed 0 x ++ 44 :: 32 :: toFixed 0 y ++ 44 :: printAlign align ++
      44 :: 32 :: toFixed 0 width ++ 44 :: jsonString text ++ [93]
  | .xd_font size name =>
    jsonKey 70 ++ 32 :: 91 :: printFloat size true ++ 44 :: jsonString name ++ [93]
  | .xd_fontchar n => jsonKey 116 ++ 32 :: 32 :: decimal n
  | .xd_style s => jsonKey 83 ++ 32 :: jsonString s
  | .xd_image pos name => jsonKey 73 ++ 32 :: 91 :: jsonRect pos ++ 44 :: jsonString name ++ [93]

/-- `jsonXDot_Op`. -/
def jsonXDot_Op (op : XdotOp D) (more : Bool) : CStr :=
  jsonOp op ++ if more then [125, 44, 10] else [125, 10]

/-- `_printXDot`, where each operation is told whether there are more. -/
def printOps (ofn : XdotOp D → Bool → CStr) : List (XdotOp D) → CStr
  | [] => []
  | [op] => ofn op false
  | op :: op' :: ops => ofn op true ++ printOps ofn (op' :: ops)

/-- `jsonXDot`. -/
def jsonXDot (ops : List (XdotOp D)) : CStr :=
  [91, 10] ++ printOps jsonXDot_Op ops ++ [93, 10]

/-! ## What the text should hold -/

/-- The letter of an operation. -/
def XdotOp.letter : XdotOp D → UInt8
  | .xd_filled_ellipse _ => 69
  | .xd_unfilled_ellipse _ => 101
  | .xd_filled_polygon _ => 80
  | .xd_unfilled_polygon _ => 112
  | .xd_filled_bezier _ => 98
  | .xd_unfilled_bezier _ => 66
  | .xd_pen_color _ | .xd_grad_pen_color _ => 99
  | .xd_fill_color _ | .xd_grad_fill_color _ => 67
  | .xd_polyline _ => 76
  | .xd_text .. => 84
  | .xd_font .. => 70
  | .xd_style _ => 83
  | .xd_image .. => 73
  | .xd_fontchar _ => 116

/-- The strings of an operation; a gradient is the string of its text. -/
def XdotOp.strings : XdotOp D → List CStr
  | .xd_pen_color c | .xd_fill_color c => [c]
  | .xd_grad_pen_color c | .xd_grad_fill_color c => [toGradString c]
  | .xd_text _ _ _ _ text => [text]
  | .xd_font _ name => [name]
  | .xd_style s => [s]
  | .xd_image _ name => [name]
  | _ => []

/-- The coordinates of a rectangle. -/
def XdotRect.numbers (r : XdotRect D) : List D :=
  [r.x, r.y, r.w, r.h]

/-- The coordinates of points. -/
def polylineNumbers (p : List (XdotPoint D)) : List D :=
  p.flatMap fun pt => [pt.x, pt.y]

/-- The numbers that are printed outside of strings. -/
def XdotOp.numbers : XdotOp D → List D
  | .xd_filled_ellipse r | .xd_unfilled_ellipse r => r.numbers
  | .xd_filled_polygon p | .xd_unfilled_polygon p | .xd_filled_bezier p | .xd_unfilled_bezier p
  | .xd_polyline p => polylineNumbers p
  | .xd_text x y _ width _ => [x, y, width]
  | .xd_font size _ => [size]
  | .xd_image pos _ => pos.numbers
  | _ => []

/-- A number that is neither infinite nor `nan`. -/
def Finite (d : D) : Prop :=
  ∃ q, Double.value d = .finite q

/-- An operation with finite numbers, and strings in UTF-8 without control characters. -/
def XdotOp.Printable (op : XdotOp D) : Prop :=
  (∀ d ∈ op.numbers, Finite d) ∧ ∀ s ∈ op.strings, Utf8.WellFormed s ∧ ∀ c ∈ s, 32 ≤ c

/-- An object of JSON for the operation: its letter, and its strings as literals. -/
def XdotOp.Rendered (op : XdotOp D) (v : Json.Value) : Prop :=
  ∃ body, v = .object [([op.letter], body)] ∧ body.strings = op.strings

/-! ## Numbers -/

variable {d : D}

/-- A decimal has no zero in front of other digits. -/
theorem intDigits_decimal (n : Nat) : Json.IntDigits (decimal n) := by
  obtain ⟨hdigits, hne, -⟩ := decimal_spec n
  obtain rfl | hn := Nat.eq_zero_or_pos n
  · exact Or.inl rfl
  · refine Or.inr ⟨hne, ?_, hdigits⟩
    induction n using Nat.strong_induction_on with
    | _ n ih =>
      obtain h | h := Nat.lt_or_ge n 10
      · rw [decimal_of_lt h]
        intro heq
        have hzero := (digit_spec h).2.2.2.1 (Option.some.inj heq)
        omega
      · obtain ⟨hdigits', hne', -⟩ := decimal_spec (n / 10)
        obtain ⟨c, ds, hcons⟩ := exists_cons_of_ne_nil hne'
        have hhead := ih (n / 10) (by omega) hdigits' hne' (by omega)
        rw [hcons] at hhead
        rw [decimal_of_le h, hcons]
        exact hhead

/-- The digits after the point. -/
def decimals (p m : Nat) : Option CStr :=
  if p = 0 then none else some (lastDigits p m)

theorem decimals_spec (p m : Nat) :
    ∀ ds ∈ decimals p m, ds ≠ [] ∧ ∀ c ∈ ds, Json.isDigit c = true := by
  intro ds hds
  obtain ⟨hp, heq⟩ := ite_none_left_eq_some.1 hds
  obtain rfl := Option.some.inj heq
  obtain ⟨hdigits, hlen, -⟩ := lastDigits_spec p m
  exact ⟨ne_nil_of_length_pos (by omega), hdigits⟩

theorem fixedPoint_eq (p : Nat) (neg : Bool) (m : Nat) :
    fixedPoint p neg m = Json.numberText neg (decimal (m / 10 ^ p)) (decimals p m) := by
  rw [fixedPoint, Json.numberText, decimals, append_assoc]
  obtain hp | hp := eq_or_ne p 0
  · rw [if_pos hp, if_pos hp, elim_none]
  · rw [if_neg hp, if_neg hp, elim_some]

/-- `inf`. -/
def infPiece (neg : Bool) : Piece :=
  Piece.bad ((if neg then [45] else []) ++ [105, 110, 102])
    (by cases neg <;> exact .none_of_number (fun _ => rfl) fun _ _ => rfl)
    (by cases neg <;> exact .of_cons rfl (by decide)) (by cases neg <;> simp)

/-- `nan`. -/
def nanPiece (neg : Bool) : Piece :=
  Piece.bad ((if neg then [45] else []) ++ [110, 97, 110])
    (by cases neg <;> exact .none_of_number (fun _ => rfl) fun _ _ => rfl)
    (by cases neg <;> exact .of_cons rfl (by decide)) (by cases neg <;> simp)

/-- A printed number. -/
def numberPiece (p : Nat) (d : D) : Piece :=
  match Double.value d with
  | .finite q =>
    .number (q < 0) (decimal ((roundHalfEven (q * 10 ^ p)).natAbs / 10 ^ p))
      (decimals p (roundHalfEven (q * 10 ^ p)).natAbs) (intDigits_decimal _) (decimals_spec _ _)
  | .inf neg => infPiece neg
  | .nan neg => nanPiece neg

theorem numberPiece_spec (p : Nat) (d : D) : (numberPiece p d).text = toFixed p d ∧
    (numberPiece p d).strings = [] ∧ ((numberPiece p d).value.isSome ↔ Finite d) := by
  rw [numberPiece, toFixed, Finite]
  cases Double.value d with
  | finite q => exact ⟨(fixedPoint_eq _ _ _).symm, rfl, fun _ => ⟨q, rfl⟩, fun _ => rfl⟩
  | inf neg => exact ⟨rfl, rfl, by rintro ⟨⟩, by rintro ⟨_, ⟨⟩⟩⟩
  | nan neg => exact ⟨rfl, rfl, by rintro ⟨⟩, by rintro ⟨_, ⟨⟩⟩⟩

/-! ## Texts of pieces -/

/-- Finite numbers, and strings without control characters. -/
def Clean (nums : List D) (strs : List CStr) : Prop :=
  (∀ d ∈ nums, Finite d) ∧ ∀ s ∈ strs, ∀ c ∈ s, 32 ≤ c

theorem clean_append {nums nums' : List D} {strs strs' : List CStr} :
    Clean (nums ++ nums') (strs ++ strs') ↔ Clean nums strs ∧ Clean nums' strs' := by
  rw [Clean, forall_mem_append, forall_mem_append]
  exact and_and_and_comm

/-- The text is a piece with these strings, and has a value when these numbers and its strings are
clean. -/
def Prints (t : CStr) (nums : List D) (strs : List CStr) : Prop :=
  ∃ p : Piece, p.text = t ∧ p.strings = strs ∧ (p.value.isSome ↔ Clean nums strs)

/-- The text is pieces with commas between them, at least one. -/
def PrintsRow (t : CStr) (nums : List D) (strs : List CStr) : Prop :=
  ∃ p ps, Json.commas (p :: ps) = t ∧ (p :: ps).flatMap Piece.strings = strs ∧
    ((∀ q ∈ p :: ps, q.value.isSome) ↔ Clean nums strs)

variable {t u w : CStr} {nums nums' : List D} {strs strs' : List CStr}

theorem Prints.ws (hw : ∀ b ∈ w, Json.isWs b = true) (h : Prints t nums strs) :
    Prints (w ++ t) nums strs := by
  obtain ⟨p, rfl, hstrings, hvalue⟩ := h
  exact ⟨p.ws w hw, rfl, hstrings, hvalue⟩

theorem Prints.space (h : Prints t nums strs) : Prints (32 :: t) nums strs :=
  h.ws fun _ hb => mem_singleton.1 hb ▸ rfl

theorem PrintsRow.single (h : Prints t nums strs) : PrintsRow t nums strs := by
  obtain ⟨p, rfl, hstrings, hvalue⟩ := h
  refine ⟨p, [], rfl, ?_, ?_⟩
  · rw [flatMap_singleton, hstrings]
  · rw [forall_mem_singleton, hvalue]

theorem PrintsRow.cons (h : Prints t nums strs) (hrow : PrintsRow u nums' strs') :
    PrintsRow (t ++ 44 :: u) (nums ++ nums') (strs ++ strs') := by
  obtain ⟨p, rfl, hstrings, hvalue⟩ := h
  obtain ⟨q, ps, rfl, hstrings', hvalue'⟩ := hrow
  refine ⟨p, q :: ps, rfl, ?_, ?_⟩
  · rw [flatMap_cons, hstrings, hstrings']
  · rw [forall_mem_cons, hvalue, hvalue', clean_append]

theorem PrintsRow.array (h : PrintsRow t nums strs) : Prints (91 :: (t ++ [93])) nums strs := by
  obtain ⟨p, ps, rfl, hstrings, hvalue⟩ := h
  exact ⟨.array (p :: ps) [] nofun, rfl, hstrings, (Piece.array_isSome _ _).trans hvalue⟩

theorem Prints.emptyArray : Prints (D := D) [91, 93] [] [] :=
  ⟨.array [] [] nofun, rfl, rfl, fun _ => ⟨nofun, nofun⟩, fun _ => rfl⟩

/-- A piece without strings and with no number but a finite one. -/
theorem Prints.constant (p : Piece) (hstrings : p.strings = []) (hvalue : p.value.isSome) :
    Prints (D := D) p.text [] [] :=
  ⟨p, rfl, hstrings, fun _ => ⟨nofun, nofun⟩, fun _ => hvalue⟩

theorem clean_singleton : Clean [d] [] ↔ Finite d :=
  ⟨fun h => h.1 d mem_cons_self, fun h => ⟨fun _ hd => mem_singleton.1 hd ▸ h, nofun⟩⟩

theorem prints_toFixed (p : Nat) (d : D) : Prints (toFixed p d) [d] [] := by
  obtain ⟨htext, hstrings, hvalue⟩ := numberPiece_spec p d
  exact ⟨numberPiece p d, htext, hstrings, hvalue.trans clean_singleton.symm⟩

theorem prints_decimal (n : Nat) : Prints (D := D) (decimal n) [] [] := by
  have h := Prints.constant (D := D) (.number false (decimal n) none (intDigits_decimal n) nofun) rfl rfl
  rwa [show (Piece.number false (decimal n) none (intDigits_decimal n) nofun).text = decimal n from
    append_nil _] at h

theorem prints_align (align : XdotAlign) : Prints (D := D) (printAlign align) [] [] := by
  cases align with
  | xd_left =>
    exact (Prints.constant (.number true (decimal 1) none (intDigits_decimal 1) nofun) rfl rfl).space
  | xd_right => exact (prints_decimal 1).space
  | xd_center => exact (prints_decimal 0).space

/-- A piece that is a number or none at all. -/
theorem Prints.number {o : Bool} (p : Piece) (htext : p.text = t) (hstrings : p.strings = [])
    (hvalue : p.value.isSome = o) (ho : o = true ↔ Finite d) : Prints t [d] [] :=
  ⟨p, htext, hstrings, by rw [hvalue, ho, clean_singleton]⟩

theorem prints_printFloat (d : D) : Prints (printFloat d true) [d] [] := by
  have htext : printFloat d true = agxbuf_trim_zeros (32 :: toFixed 2 d) := rfl
  rw [htext, toFixed]
  cases hv : Double.value d with
  | finite q =>
    obtain ⟨neg, n, fr, heq, hfr, -⟩ :=
      trim_text true (q < 0) (roundHalfEven (q * 10 ^ 2)).natAbs
    have h : Prints (Json.numberText neg (decimal n) fr) [d] [] :=
      .number (.number neg (decimal n) fr (intDigits_decimal n) hfr) rfl rfl rfl
        (iff_of_true rfl ⟨q, hv⟩)
    exact heq ▸ h.space
  | inf neg =>
    have h : Prints (infPiece neg).text [d] [] :=
      .number _ rfl rfl rfl ⟨by rintro ⟨⟩, fun hq => by cases hv.symm.trans hq.choose_spec⟩
    cases neg <;> exact h.space
  | nan neg =>
    have h : Prints (nanPiece neg).text [d] [] :=
      .number _ rfl rfl rfl ⟨by rintro ⟨⟩, fun hq => by cases hv.symm.trans hq.choose_spec⟩
    cases neg <;> exact h.space

theorem jsonChars_eq (p : CStr) : jsonChars p = Json.escape p := by
  induction p with
  | nil => rfl
  | cons c p ih =>
    rw [jsonChars, Json.escape, flatMap_cons, ih]
    split
    · rfl
    · split <;> rfl

theorem clean_string {s : CStr} : Clean (D := D) [] [s] ↔ ∀ c ∈ s, 32 ≤ c := by
  rw [Clean, forall_mem_singleton]
  exact and_iff_right nofun

theorem prints_jsonString (s : CStr) : Prints (D := D) (jsonString s) [] [s] := by
  refine ⟨.string s, ?_, rfl, ?_⟩
  · rw [jsonString, jsonChars_eq]
    rfl
  · rw [clean_string]
    exact isSome_ite

theorem printsRow_jsonPoints (pt : XdotPoint D) (pts : List (XdotPoint D)) :
    PrintsRow (jsonPoints (pt :: pts)) (polylineNumbers (pt :: pts)) [] := by
  induction pts generalizing pt with
  | nil => exact .cons (prints_toFixed 6 pt.x) (.single (prints_toFixed 6 pt.y))
  | cons pt' pts ih =>
    have h := PrintsRow.cons (prints_toFixed 6 pt.x) (.cons (prints_toFixed 6 pt.y) (ih pt'))
    rwa [← cons_append, ← append_assoc] at h

theorem prints_jsonRect (r : XdotRect D) : Prints (jsonRect r) r.numbers [] := by
  have h := (PrintsRow.cons (prints_toFixed 6 r.x) (.cons (prints_toFixed 6 r.y)
    (.cons (prints_toFixed 6 r.w) (.single (prints_toFixed 6 r.h))))).array
  rw [jsonRect, XdotRect.numbers]
  simpa only [append_assoc, cons_append, nil_append] using h

theorem prints_jsonPolyline (p : List (XdotPoint D)) :
    Prints (jsonPolyline p) (polylineNumbers p) [] := by
  cases p with
  | nil => exact .emptyArray
  | cons pt pts => exact (printsRow_jsonPoints pt pts).array

/-! ## Operations -/

/-- The text is a piece for the operation. -/
def PrintsOp (op : XdotOp D) (t : CStr) : Prop :=
  ∃ p : Piece, p.text = t ∧ p.strings = op.strings ∧
    (p.value.isSome ↔ Clean op.numbers op.strings) ∧ ∀ v ∈ p.value, op.Rendered v

/-- What the braces and the letter make of the body of an operation. -/
theorem printsOp_of_body {op : XdotOp D} {body : CStr}
    (htext : jsonOp op = jsonKey op.letter ++ body)
    (hkey : Json.PlainKey [op.letter]) (h : Prints body op.numbers op.strings) :
    PrintsOp op (jsonOp op ++ [125]) := by
  obtain ⟨p, rfl, hstrings, hvalue⟩ := h
  refine ⟨.object [op.letter] [32] hkey (fun _ hb => mem_singleton.1 hb ▸ rfl) p, ?_,
    hstrings, ?_, ?_⟩
  · rw [htext, append_assoc]
    rfl
  · rw [← hvalue]
    exact Bool.eq_iff_iff.1 isSome_map
  · intro v hv
    obtain ⟨body, hbody, rfl⟩ := map_eq_some_iff.1 hv
    exact ⟨body, rfl, (p.strings_eq body hbody).trans hstrings⟩

omit [Double D] in
theorem plainKey_letter (op : XdotOp D) : Json.PlainKey [op.letter] := by
  intro c hc
  obtain rfl := mem_singleton.1 hc
  cases op <;> simp [XdotOp.letter]

theorem prints_op (op : XdotOp D) : PrintsOp op (jsonOp op ++ [125]) := by
  have hkey := plainKey_letter op
  cases op with
  | xd_filled_ellipse r => exact printsOp_of_body rfl hkey (prints_jsonRect r).space
  | xd_unfilled_ellipse r => exact printsOp_of_body rfl hkey (prints_jsonRect r).space
  | xd_filled_polygon p => exact printsOp_of_body rfl hkey (prints_jsonPolyline p).space
  | xd_unfilled_polygon p => exact printsOp_of_body rfl hkey (prints_jsonPolyline p).space
  | xd_filled_bezier p => exact printsOp_of_body rfl hkey (prints_jsonPolyline p).space
  | xd_unfilled_bezier p => exact printsOp_of_body rfl hkey (prints_jsonPolyline p).space
  | xd_pen_color c => exact printsOp_of_body rfl hkey (prints_jsonString c).space
  | xd_grad_pen_color c => exact printsOp_of_body rfl hkey (prints_jsonString _).space
  | xd_fill_color c => exact printsOp_of_body rfl hkey (prints_jsonString c).space
  | xd_grad_fill_color c => exact printsOp_of_body rfl hkey (prints_jsonString _).space
  | xd_polyline p => exact printsOp_of_body rfl hkey (prints_jsonPolyline p)
  | xd_text x y align width text =>
    have h := (PrintsRow.cons (prints_toFixed 0 x).space (.cons (prints_toFixed 0 y).space
      (.cons (prints_align align) (.cons (prints_toFixed 0 width).space
        (.single (prints_jsonString text)))))).array.space
    refine printsOp_of_body ?_ hkey h
    simp only [jsonOp, append_assoc, cons_append]
    rfl
  | xd_font size name =>
    have h := (PrintsRow.cons (prints_printFloat size)
      (.single (prints_jsonString name))).array.space
    refine printsOp_of_body ?_ hkey h
    simp only [jsonOp, append_assoc, cons_append]
    rfl
  | xd_style s => exact printsOp_of_body rfl hkey (prints_jsonString s).space
  | xd_image pos name =>
    have h := (PrintsRow.cons (prints_jsonRect pos) (.single (prints_jsonString name))).array.space
    refine printsOp_of_body ?_ hkey h
    simp only [jsonOp, append_assoc, cons_append]
    rfl
  | xd_fontchar n => exact printsOp_of_body rfl hkey (prints_decimal n).space.space

/-! ## The whole text -/

/-- A piece for each operation. -/
def PiecesFor (ops : List (XdotOp D)) (ps : List Piece) : Prop :=
  Forall₂ (fun op p => p.strings = op.strings ∧
    (p.value.isSome ↔ Clean op.numbers op.strings) ∧ ∀ v ∈ p.value, op.Rendered v) ops ps

/-- Pieces for the operations, each after the end of a line. -/
theorem exists_pieces (ops : List (XdotOp D)) :
    ∃ ps, 10 :: printOps jsonXDot_Op ops = Json.commas ps ++ [10] ∧ PiecesFor ops ps := by
  induction ops with
  | nil => exact ⟨[], rfl, .nil⟩
  | cons op ops ih =>
    obtain ⟨ps, htext, hps⟩ := ih
    obtain ⟨p, hp, hspec⟩ := prints_op op
    refine ⟨p.ws [10] (fun _ hb => mem_singleton.1 hb ▸ rfl) :: ps, ?_, .cons hspec hps⟩
    cases hps with
    | nil =>
      change 10 :: (jsonOp op ++ [125, 10]) = 10 :: p.text ++ [10]
      rw [hp, cons_append, append_assoc, singleton_append]
    | @cons op' q ops ps hq hps =>
      calc 10 :: (jsonOp op ++ [125, 44, 10] ++ printOps jsonXDot_Op (op' :: ops))
          = 10 :: (jsonOp op ++ [125]) ++ 44 :: (10 :: printOps jsonXDot_Op (op' :: ops)) := by
            simp only [append_assoc, cons_append, nil_append]
        _ = 10 :: p.text ++ 44 :: (Json.commas (q :: ps) ++ [10]) := by rw [htext, hp]
        _ = 10 :: p.text ++ 44 :: Json.commas (q :: ps) ++ [10] := by
            simp only [append_assoc, cons_append]

variable {ops : List (XdotOp D)} {ps : List Piece}

/-- All pieces have values and their strings are UTF-8 when all operations are printable. -/
theorem PiecesFor.printable_iff (h : PiecesFor ops ps) :
    ((∀ p ∈ ps, p.value.isSome) ∧ ∀ s ∈ ps.flatMap Piece.strings, Utf8.WellFormed s) ↔
      ∀ op ∈ ops, op.Printable := by
  induction h with
  | nil => exact ⟨fun _ => nofun, fun _ => ⟨nofun, nofun⟩⟩
  | @cons op p ops ps hop _ ih =>
    obtain ⟨hstrings, hvalue, -⟩ := hop
    have hprintable : op.Printable ↔
        Clean op.numbers op.strings ∧ ∀ s ∈ op.strings, Utf8.WellFormed s := by
      rw [XdotOp.Printable, Clean, forall₂_and, and_assoc]
      exact and_congr_right fun _ => and_comm
    rw [forall_mem_cons, flatMap_cons, forall_mem_append, forall_mem_cons, ← ih,
      hprintable, hvalue, hstrings]
    exact and_and_and_comm

/-- The values of the pieces are objects for the operations. -/
theorem PiecesFor.rendered (h : PiecesFor ops ps) (hvalue : ∀ p ∈ ps, p.value.isSome) :
    ∃ vs, ps.mapM Piece.value = some vs ∧ Forall₂ XdotOp.Rendered ops vs := by
  obtain ⟨vs, hvs⟩ := isSome_iff_exists.1 (Json.mapM_value_isSome.2 hvalue)
  have hrendered := Json.mapM_value_eq_some.1 hvs
  refine ⟨vs, hvs, ?_⟩
  clear hvs hvalue
  induction h generalizing vs with
  | nil =>
    cases hrendered
    exact .nil
  | cons hop _ ih =>
    cases hrendered with
    | cons hv hvs => exact .cons (hop.2.2 _ hv) (ih _ hvs)

theorem jsonXDot_reads_iff (ops : List (XdotOp D)) :
    (∃ vs, Json.Reads (jsonXDot ops) (.array vs) ∧ Forall₂ XdotOp.Rendered ops vs) ↔
      ∀ op ∈ ops, op.Printable := by
  obtain ⟨ps, htext, hps⟩ := exists_pieces ops
  have hws : ∀ b ∈ [10], Json.isWs b = true := fun _ hb => mem_singleton.1 hb ▸ rfl
  have heq : jsonXDot ops = (Piece.array ps [10] hws).text ++ [10] := by
    change 91 :: (10 :: printOps jsonXDot_Op ops ++ [93, 10]) =
      91 :: (Json.commas ps ++ ([10] ++ [93]) ++ [10])
    rw [htext, append_assoc, append_assoc]
    rfl
  rw [heq, ← hps.printable_iff]
  constructor
  · rintro ⟨vs, hreads, -⟩
    obtain ⟨hvalue, hutf8⟩ := ((Piece.array ps [10] hws).reads hws).1 hreads
    exact ⟨(Piece.array_isSome ps hws).1 (hvalue ▸ rfl), hutf8⟩
  · rintro ⟨hsome, hutf8⟩
    obtain ⟨vs, hvs, hrendered⟩ := hps.rendered hsome
    exact ⟨vs, ((Piece.array ps [10] hws).reads hws).2
      ⟨congrArg (Option.map Json.Value.array) hvs, hutf8⟩, hrendered⟩

/-- A style with a line feed in it. -/
theorem jsonXDot_control_char : ¬∃ vs, Json.Reads
      (jsonXDot [(.xd_style [97, 10] : XdotOp Value)]) (.array vs) ∧
    Forall₂ XdotOp.Rendered [(.xd_style [97, 10] : XdotOp Value)] vs := by
  rintro ⟨vs, ⟨-, hparse⟩, -⟩
  have hnone : Json.parse (jsonXDot [(.xd_style [97, 10] : XdotOp Value)]) = none := by decide +kernel
  rw [hnone] at hparse
  exact nomatch hparse

end Graphviz.XDot
