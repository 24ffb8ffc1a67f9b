import Graphviz.Util.Fault
import Graphviz.Util.Numeral

/-!
# Xdot

`lib/xdot/xdot.c`: the operations of the xdot format, the parser `parseXDot` and the printer
`sprintXDot`. A C string is the list of its bytes, and its end is the terminating `NUL`. Memory
does not run out.
-/

namespace Graphviz.XDot

/-! ## Operations -/

/-- `xdot_rect`. -/
structure XdotRect (D : Type) where
  x : D
  y : D
  w : D
  h : D
  deriving DecidableEq

/-- `xdot_point`. -/
structure XdotPoint (D : Type) where
  x : D
  y : D
  z : D
  deriving DecidableEq

/-- `xdot_color_stop`. -/
structure XdotColorStop (D : Type) where
  frac : D
  color : CStr
  deriving DecidableEq

/-- `xdot_color`: `xd_none`, `xd_linear` or `xd_radial`. -/
inductive XdotColor (D : Type) where
  | xd_none (clr : CStr)
  | xd_linear (x0 y0 x1 y1 : D) (stops : List (XdotColorStop D))
  | xd_radial (x0 y0 r0 x1 y1 r1 : D) (stops : List (XdotColorStop D))
  deriving DecidableEq

/-- `xdot_align`. -/
inductive XdotAlign where
  | xd_left
  | xd_center
  | xd_right
  deriving DecidableEq

/-- `xdot_op`: its kind, with what `op->u` holds for it. -/
inductive XdotOp (D : Type) where
  | xd_filled_ellipse (ellipse : XdotRect D)
  | xd_unfilled_ellipse (ellipse : XdotRect D)
  | xd_filled_polygon (polygon : List (XdotPoint D))
  | xd_unfilled_polygon (polygon : List (XdotPoint D))
  | xd_filled_bezier (bezier : List (XdotPoint D))
  | xd_unfilled_bezier (bezier : List (XdotPoint D))
  | xd_pen_color (color : CStr)
  | xd_grad_pen_color (grad_color : XdotColor D)
  | xd_fill_color (color : CStr)
  | xd_grad_fill_color (grad_color : XdotColor D)
  | xd_polyline (polyline : List (XdotPoint D))
  | xd_text (x y : D) (align : XdotAlign) (width : D) (text : CStr)
  | xd_font (size : D) (name : CStr)
  | xd_style (style : CStr)
  | xd_image (pos : XdotRect D) (name : CStr)
  | xd_fontchar (fontchar : Nat)
  deriving DecidableEq

/-- `xdot`; the flag is `XDOT_PARSE_ERROR`. -/
structure Xdot (D : Type) where
  ops : List (XdotOp D)
  parseError : Bool
  deriving DecidableEq

/-! ## The parser -/

/-- How a parse function ends without a result: it returns `NULL`, or the program ends in
`graphviz_exit`. -/
inductive Stop where
  | null
  | exit
  deriving DecidableEq

/-- A parse function: its result and the rest of the text. -/
abbrev Parser (α : Type) := CStr → Except Stop (α × CStr)

variable {D : Type} [Double D]

/-- A function of the C library, where no conversion is `NULL`. -/
def orNull {α : Type} (x : Option α) : Except Stop α :=
  match x with
  | some a => .ok a
  | none => .error .null

/-- `parseReal`. -/
def parseReal : Parser D := fun s =>
  orNull (strtod s)

/-- `parseInt`. -/
def parseInt : Parser Int := fun s => do
  let (n, s) ← orNull (strtol s)
  .ok (toInt32 n, s)

/-- `parseUInt`. -/
def parseUInt : Parser Nat := fun s => do
  let (n, s) ← orNull (strtoul s)
  .ok (n % 2 ^ 32, s)

/-- `parseRect`. -/
def parseRect : Parser (XdotRect D) := fun s => do
  let (x, s) ← parseReal s
  let (y, s) ← parseReal s
  let (w, s) ← parseReal s
  let (h, s) ← parseReal s
  .ok (⟨x, y, w, h⟩, s)

/-- The loop of `parsePolyline`. -/
def parsePoints : Nat → Parser (List (XdotPoint D))
  | 0, s => .ok ([], s)
  | n + 1, s => do
    let (x, s) ← parseReal s
    let (y, s) ← parseReal s
    let (ps, s) ← parsePoints n s
    .ok (⟨x, y, Double.read (.finite 0)⟩ :: ps, s)

/-- `parsePolyline`. -/
def parsePolyline : Parser (List (XdotPoint D)) := fun s => do
  let (cnt, s) ← parseUInt s
  parsePoints cnt s

/-- The loop of `parseString`: `left` characters remain to be accounted, and `esc` says whether
the one before was a backslash. -/
def readChars (left : Nat) (esc : Bool) : Parser CStr
  | [] => if left = 0 then .ok ([], []) else .error .null
  | c :: s =>
    if left = 0 then .ok ([], c :: s)
    else do
      let (q, r) ← readChars (if c ≠ 92 ∨ esc then left - 1 else left) (c = 92) s
      .ok (c :: q, r)

/-- `parseString`. -/
def parseString : Parser CStr := fun s => do
  let (i, s) ← parseInt s
  if i ≤ 0 then .error .null
  else
    match s.dropWhile (· ≠ 45) with
    | [] => .error .null
    | _ :: s => readChars i.toNat false s

/-- `parseAlign`. -/
def parseAlign : Parser XdotAlign := fun s => do
  let (i, s) ← parseInt s
  .ok (if i < 0 then .xd_left else if 0 < i then .xd_right else .xd_center, s)

/-- The loop over the stops of a gradient. -/
def parseStops : Nat → Parser (List (XdotColorStop D))
  | 0, s => .ok ([], s)
  | n + 1, s => do
    let (d, s) ← parseReal s
    let (c, s) ← parseString s
    let (ps, s) ← parseStops n s
    .ok (⟨d, c⟩ :: ps, s)

/-- The number of stops, `gv_calloc`, which ends the program for a negative number, and the
stops. -/
def parseStopList : Parser (List (XdotColorStop D)) := fun s => do
  let (n_stops, s) ← parseInt s
  if n_stops < 0 then .error .exit else parseStops n_stops.toNat s

/-- `radGradient`. -/
def radGradient (s : CStr) : Except Stop (XdotColor D) := do
  let (x0, s) ← parseReal s
  let (y0, s) ← parseReal s
  let (r0, s) ← parseReal s
  let (x1, s) ← parseReal s
  let (y1, s) ← parseReal s
  let (r1, s) ← parseReal s
  let (stops, _) ← parseStopList s
  .ok (.xd_radial x0 y0 r0 x1 y1 r1 stops)

/-- `linGradient`. -/
def linGradient (s : CStr) : Except Stop (XdotColor D) := do
  let (x0, s) ← parseReal s
  let (y0, s) ← parseReal s
  let (x1, s) ← parseReal s
  let (y1, s) ← parseReal s
  let (stops, _) ← parseStopList s
  .ok (.xd_linear x0 y0 x1 y1 stops)

/-- `parseXDotColor`. -/
def parseXDotColor (cp : CStr) : Except Stop (XdotColor D) :=
  match cp with
  | [] => .error .null
  | c :: s =>
    if c = 91 then linGradient s
    else if c = 40 then radGradient s
    else if c = 35 ∨ c = 47 ∨ gv_isalnum c then .ok (.xd_none cp)
    else .error .null

/-- The color of an operation, by the kinds for a plain color and for a gradient. -/
def parseColorOp (plain : CStr → XdotOp D) (grad : XdotColor D → XdotOp D) : Parser (XdotOp D) :=
  fun s => do
    let (cs, s) ← parseString s
    let clr ← parseXDotColor cs
    match clr with
    | .xd_none c => .ok (plain c, s)
    | clr => .ok (grad clr, s)

/-- An operation that holds what one parse function returns. -/
def parseAs {α : Type} (p : Parser α) (op : α → XdotOp D) : Parser (XdotOp D) := fun s => do
  let (a, s) ← p s
  .ok (op a, s)

/-- The case of `parseOp` for `T`. -/
def parseText : Parser (XdotOp D) := fun s => do
  let (x, s) ← parseReal s
  let (y, s) ← parseReal s
  let (align, s) ← parseAlign s
  let (width, s) ← parseReal s
  let (text, s) ← parseString s
  .ok (.xd_text x y align width text, s)

/-- The case of `parseOp` for `F`. -/
def parseFont : Parser (XdotOp D) := fun s => do
  let (size, s) ← parseReal s
  let (name, s) ← parseString s
  .ok (.xd_font size name, s)

/-- The case of `parseOp` for `I`. -/
def parseImage : Parser (XdotOp D) := fun s => do
  let (pos, s) ← parseRect s
  let (name, s) ← parseString s
  .ok (.xd_image pos name, s)

/-- `parseOp`, after white space: `none` is the end of the text. -/
def parseOp (s : CStr) : Except Stop (Option (XdotOp D × CStr)) :=
  match s.dropWhile isspace with
  | [] => .ok none
  | 69 :: s => some <$> parseAs parseRect .xd_filled_ellipse s
  | 101 :: s => some <$> parseAs parseRect .xd_unfilled_ellipse s
  | 80 :: s => some <$> parseAs parsePolyline .xd_filled_polygon s
  | 112 :: s => some <$> parseAs parsePolyline .xd_unfilled_polygon s
  | 98 :: s => some <$> parseAs parsePolyline .xd_filled_bezier s
  | 66 :: s => some <$> parseAs parsePolyline .xd_unfilled_bezier s
  | 99 :: s => some <$> parseColorOp .xd_pen_color .xd_grad_pen_color s
  | 67 :: s => some <$> parseColorOp .xd_fill_color .xd_grad_fill_color s
  | 76 :: s => some <$> parseAs parsePolyline .xd_polyline s
  | 84 :: s => some <$> parseText s
  | 70 :: s => some <$> parseFont s
  | 83 :: s => some <$> parseAs parseString .xd_style s
  | 73 :: s => some <$> parseImage s
  | 116 :: s => some <$> parseAs parseUInt .xd_fontchar s
  | _ => .error .null

/-- The loop of `parseXDotFOn`, with a bound on the number of operations. -/
def parseOps : Nat → CStr → Except Fault (Xdot D)
  | 0, _ => .error .fuel
  | fuel + 1, s =>
    match parseOp s with
    | .ok none => .ok ⟨[], false⟩
    | .ok (some (op, s)) => do
      let x ← parseOps fuel s
      .ok { x with ops := op :: x.ops }
    | .error .null => .ok ⟨[], true⟩
    | .error .exit => .error .exitFailure

/-- `parseXDot`; a text without operations gives `NULL`, here `none`. -/
def parseXDot (s : CStr) : Except Fault (Option (Xdot D)) := do
  let x ← parseOps (s.length + 1) s
  .ok (if x.ops = [] then none else some x)

/-! ## The printer -/

/-- A coordinate: a space, two decimals, and no zeros at the end. -/
def printCoord (d : D) : CStr :=
  agxbuf_trim_zeros (32 :: toFixed 2 d)

/-- `printRect`. -/
def printRect (r : XdotRect D) : CStr :=
  printCoord r.x ++ printCoord r.y ++ printCoord r.w ++ printCoord r.h

/-- `printPolyline`. -/
def printPolyline (p : List (XdotPoint D)) : CStr :=
  32 :: decimal p.length ++ p.flatMap fun pt => printCoord pt.x ++ printCoord pt.y

/-- `printString`. -/
def printString (p : CStr) : CStr :=
  32 :: decimal p.length ++ 32 :: 45 :: p

/-- `printFloat`. -/
def printFloat (f : D) (space : Bool) : CStr :=
  if space then printCoord f else agxbuf_trim_zeros (toFixed 2 f)

/-- `printAlign`. -/
def printAlign : XdotAlign → CStr
  | .xd_left => [32, 45, 49]
  | .xd_right => [32, 49]
  | .xd_center => [32, 48]

/-- The stops of a gradient, with their number. -/
def printStops (stops : List (XdotColorStop D)) : CStr :=
  32 :: decimal stops.length ++ stops.flatMap fun st => printFloat st.frac true ++ printString st.color

/-- `toGradString`, which is not called for a plain color. -/
def toGradString : XdotColor D → CStr
  | .xd_linear x0 y0 x1 y1 stops =>
    91 :: printFloat x0 false ++ printFloat y0 true ++ printFloat x1 true ++ printFloat y1 true ++
      printStops stops ++ [93]
  | .xd_radial x0 y0 r0 x1 y1 r1 stops =>
    40 :: printFloat x0 false ++ printFloat y0 true ++ printFloat r0 true ++ printFloat x1 true ++
      printFloat y1 true ++ printFloat r1 true ++ printStops stops ++ [41]
  | .xd_none clr => clr

/-- `printXDot_Op`, without the space between operations. -/
def printXDot_Op : XdotOp D → CStr
  | .xd_filled_ellipse r => 69 :: printRect r
  | .xd_unfilled_ellipse r => 101 :: printRect r
  | .xd_filled_polygon p => 80 :: printPolyline p
  | .xd_unfilled_polygon p => 112 :: printPolyline p
  | .xd_filled_bezier p => 98 :: printPolyline p
  | .xd_unfilled_bezier p => 66 :: printPolyline p
  | .xd_pen_color c => 99 :: printString c
  | .xd_grad_pen_color c => 99 :: printString (toGradString c)
  | .xd_fill_color c => 67 :: printString c
  | .xd_grad_fill_color c => 67 :: printString (toGradString c)
  | .xd_polyline p => 76 :: printPolyline p
  | .xd_text x y align width text =>
    84 :: 32 :: toFixed 0 x ++ 32 :: toFixed 0 y ++ printAlign align ++ 32 :: toFixed 0 width ++
      printString text
  | .xd_font size name => 70 :: printFloat size true ++ printString name
  | .xd_style s => 83 :: printString s
  | .xd_image pos name => 73 :: printRect pos ++ printString name
  | .xd_fontchar n => 116 :: 32 :: decimal n

/-- `sprintXDot`. -/
def sprintXDot : List (XdotOp D) → CStr
  | [] => []
  | [op] => printXDot_Op op
  | op :: ops => printXDot_Op op ++ 32 :: sprintXDot ops

end Graphviz.XDot
