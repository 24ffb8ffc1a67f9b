import Mathlib.Data.Rat.Floor
import Graphviz.Util.Libc

/-!
# Numbers as text

The functions of the C library that read numbers and print them, and `agxbuf_trim_zeros`. The
format of a `double` is a parameter: what is read is rounded to it, and what is printed is its
exact value. Zeros have no sign.
-/

namespace Graphviz

/-- The numbers that text can stand for. -/
inductive Value where
  | finite (q : ℚ)
  | inf (neg : Bool)
  | nan (neg : Bool)
  deriving DecidableEq

/-- A format of numbers: `read` rounds to it. -/
class Double (D : Type) where
  read : Value → D
  value : D → Value

/-- The exact format. -/
instance : Double Value :=
  ⟨id, id⟩

/-! ## Reading -/

/-- `isspace`. -/
def isspace (c : UInt8) : Bool :=
  c = 32 || (9 ≤ c && c ≤ 13)

/-- `gv_isxdigit`. -/
def gv_isxdigit (c : UInt8) : Bool :=
  gv_isdigit c || (65 ≤ c && c ≤ 70) || (97 ≤ c && c ≤ 102)

/-- The value of a digit. -/
def digitVal (c : UInt8) : Nat :=
  if gv_isdigit c then c.toNat - 48 else (tolower c).toNat - 87

/-- The value of a row of digits. -/
def natOf (base : Nat) (ds : CStr) : Nat :=
  ds.foldl (fun a c => base * a + digitVal c) 0

/-- An optional sign. -/
def takeSign : CStr → Bool × CStr
  | 45 :: s => (true, s)
  | 43 :: s => (false, s)
  | s => (false, s)

/-- What `strtol` and `strtoul` read in base 10: the sign and the digits. -/
def readDigits (s : CStr) : Option (Bool × Nat × CStr) :=
  let (neg, s) := takeSign (s.dropWhile isspace)
  let ds := s.takeWhile gv_isdigit
  if ds = [] then none else some (neg, natOf 10 ds, s.dropWhile gv_isdigit)

/-- `strtol`, in base 10. -/
def strtol (s : CStr) : Option (Int × CStr) :=
  (readDigits s).map fun (neg, n, r) =>
    (if neg then max (-(n : Int)) (-2 ^ 63) else min (n : Int) (2 ^ 63 - 1), r)

/-- `strtoul`, in base 10. -/
def strtoul (s : CStr) : Option (Nat × CStr) :=
  (readDigits s).map fun (neg, n, r) =>
    (if 2 ^ 64 ≤ n then 2 ^ 64 - 1 else if neg then (2 ^ 64 - n) % 2 ^ 64 else n, r)

/-- A conversion to `int`. -/
def toInt32 (x : Int) : Int :=
  (x + 2 ^ 31) % 2 ^ 32 - 2 ^ 31

/-- Digits with an optional point. -/
def mantissa (base : Nat) (isd : UInt8 → Bool) (s : CStr) : Option (ℚ × CStr) :=
  let ip := s.takeWhile isd
  match s.dropWhile isd with
  | 46 :: r =>
    let fp := r.takeWhile isd
    if ip = [] ∧ fp = [] then none
    else some (natOf base ip + natOf base fp / base ^ fp.length, r.dropWhile isd)
  | r => if ip = [] then none else some (natOf base ip, r)

/-- An optional exponent. -/
def exponent (letter : UInt8) (s : CStr) : Int × CStr :=
  match s with
  | [] => (0, s)
  | c :: r =>
    let (neg, r) := takeSign r
    let ds := r.takeWhile gv_isdigit
    if tolower c = letter ∧ ds ≠ [] then
      (if neg then -(natOf 10 ds : Int) else natOf 10 ds, r.dropWhile gv_isdigit)
    else (0, s)

/-- The rest of a text that starts with a word, in any case. -/
def dropWord (w s : CStr) : Option CStr :=
  if (s.take w.length).map tolower = w then some (s.drop w.length) else none

/-- The characters in parentheses that may follow `nan`. -/
def dropPayload (s : CStr) : CStr :=
  match s with
  | 40 :: r =>
    match r.dropWhile fun c => gv_isalnum c || c = 95 with
    | 41 :: r => r
    | _ => s
  | _ => s

/-- A hexadecimal number without its sign. -/
def hexNumber (s : CStr) : Option (ℚ × CStr) :=
  match dropWord [48, 120] s with
  | none => none
  | some r =>
    (mantissa 16 gv_isxdigit r).map fun (q, r) =>
      let (e, r) := exponent 112 r
      (q * 2 ^ e, r)

/-- A decimal number without its sign. -/
def decimalNumber (s : CStr) : Option (ℚ × CStr) :=
  (mantissa 10 gv_isdigit s).map fun (q, r) =>
    let (e, r) := exponent 101 r
    (q * 10 ^ e, r)

/-- `strtod`, before the result is rounded. -/
def readValue (s : CStr) : Option (Value × CStr) :=
  let (neg, s) := takeSign (s.dropWhile isspace)
  match dropWord [105, 110, 102] s with
  | some r => some (.inf neg, (dropWord [105, 110, 105, 116, 121] r).getD r)
  | none =>
    match dropWord [110, 97, 110] s with
    | some r => some (.nan neg, dropPayload r)
    | none =>
      ((hexNumber s).orElse fun _ => decimalNumber s).map fun (q, r) =>
        (.finite (if neg then -q else q), r)

/-- `strtod`. -/
def strtod {D : Type} [Double D] (s : CStr) : Option (D × CStr) :=
  (readValue s).map fun (v, r) => (Double.read v, r)

/-! ## Printing -/

/-- `%u` and `%zu`. -/
def decimal (n : Nat) : CStr :=
  (Nat.toDigits 10 n).map fun c => c.toNat.toUInt8

/-- The nearest integer, and of two the even one. -/
def roundHalfEven (q : ℚ) : Int :=
  let f := ⌊q⌋
  if q - f < 1 / 2 then f
  else if 1 / 2 < q - f then f + 1
  else if f % 2 = 0 then f else f + 1

/-- The last `p` digits of a number. -/
def lastDigits : Nat → Nat → CStr
  | 0, _ => []
  | p + 1, m => lastDigits p (m / 10) ++ [48 + (m % 10).toUInt8]

/-- A number of `10 ^ -p`, with a point before its last digits. -/
def fixedPoint (p : Nat) (neg : Bool) (m : Nat) : CStr :=
  (if neg then [45] else []) ++ decimal (m / 10 ^ p) ++ if p = 0 then [] else 46 :: lastDigits p m

/-- `%.pf`. -/
def toFixed {D : Type} [Double D] (p : Nat) (d : D) : CStr :=
  match Double.value d with
  | .finite q => fixedPoint p (q < 0) (roundHalfEven (q * 10 ^ p)).natAbs
  | .inf neg => (if neg then [45] else []) ++ [105, 110, 102]
  | .nan neg => (if neg then [45] else []) ++ [110, 97, 110]

/-- A point at the end, here of a text in reverse, and the sign of a zero before it. -/
def dropPoint : CStr → CStr
  | 46 :: 48 :: 45 :: t => 48 :: t
  | 46 :: t => t
  | t => t

/-- `agxbuf_trim_zeros`: zeros at the end, and a point before them, are removed. -/
def agxbuf_trim_zeros (s : CStr) : CStr :=
  if 46 ∈ s then (dropPoint (s.reverse.dropWhile (· = 48))).reverse else s

end Graphviz
