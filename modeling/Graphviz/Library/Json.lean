import Graphviz.Library.Utf8

/-!
# JSON texts

The grammar of JSON as a parser of bytes: white space, literals, numbers, strings with escapes,
arrays and objects. The parser has fuel for the depth of a text and for the number of the entries
of an array or object; a text has enough of it in its own length. A text is JSON when it is UTF-8
and the parser reads it to its end.
-/

namespace Json

/-- A JSON value; numbers are kept as they are written. -/
inductive Value where
  | null
  | bool (b : Bool)
  | number (text : List UInt8)
  | string (s : List UInt8)
  | array (vs : List Value)
  | object (ms : List (List UInt8 × Value))

/-! ## The parser -/

/-- White space: space, tab, line feed and carriage return. -/
def isWs (c : UInt8) : Bool :=
  c == 32 || c == 9 || c == 10 || c == 13

/-- The text from its first byte that is not white space on. -/
def skipWs (s : List UInt8) : List UInt8 :=
  s.dropWhile isWs

/-- A digit. -/
def isDigit (c : UInt8) : Bool :=
  48 ≤ c && c ≤ 57

/-- A digit or more. -/
def digits (s : List UInt8) : Option (List UInt8 × List UInt8) :=
  if s.takeWhile isDigit = [] then none else some (s.takeWhile isDigit, s.dropWhile isDigit)

/-- The digits before the point, without a zero in front of others. -/
def intPart : List UInt8 → Option (List UInt8 × List UInt8)
  | 48 :: s => some ([48], s)
  | s => digits s

/-- A point with digits. -/
def fracPart : List UInt8 → Option (List UInt8 × List UInt8)
  | 46 :: s => (digits s).map fun (ds, s) => (46 :: ds, s)
  | s => some ([], s)

/-- The sign of an exponent. -/
def expSign : List UInt8 → List UInt8 × List UInt8
  | 43 :: s => ([43], s)
  | 45 :: s => ([45], s)
  | s => ([], s)

/-- An exponent. -/
def expPart : List UInt8 → Option (List UInt8 × List UInt8)
  | [] => some ([], [])
  | c :: s =>
    if c = 101 ∨ c = 69 then
      (digits (expSign s).2).map fun (ds, r) => (c :: (expSign s).1 ++ ds, r)
    else some ([], c :: s)

/-- A number after its sign. -/
def unsigned (s : List UInt8) : Option (List UInt8 × List UInt8) := do
  let (ip, s) ← intPart s
  let (fp, s) ← fracPart s
  let (ep, s) ← expPart s
  some (ip ++ fp ++ ep, s)

/-- A number. -/
def number : List UInt8 → Option (List UInt8 × List UInt8)
  | 45 :: s => (unsigned s).map fun (n, s) => (45 :: n, s)
  | s => unsigned s

/-- The value of a hexadecimal digit. -/
def hexVal (c : UInt8) : Option Nat :=
  if 48 ≤ c ∧ c ≤ 57 then some (c.toNat - 48)
  else if 65 ≤ c ∧ c ≤ 70 then some (c.toNat - 55)
  else if 97 ≤ c ∧ c ≤ 102 then some (c.toNat - 87)
  else none

/-- The value of four hexadecimal digits. -/
def hex4 (a b c d : UInt8) : Option Nat := do
  return 4096 * (← hexVal a) + 256 * (← hexVal b) + 16 * (← hexVal c) + (← hexVal d)

/-- What an escape of one letter stands for. -/
def escaped (c : UInt8) : Option UInt8 :=
  if c = 34 ∨ c = 92 ∨ c = 47 then some c
  else if c = 98 then some 8
  else if c = 102 then some 12
  else if c = 110 then some 10
  else if c = 114 then some 13
  else if c = 116 then some 9
  else none

/-- The bytes of a string after its opening quote, and the text after its closing quote. A code
unit outside the surrogates is escaped alone, and others in pairs. -/
def chars : List UInt8 → Option (List UInt8 × List UInt8)
  | [] => none
  | 34 :: s => some ([], s)
  | 92 :: 117 :: a :: b :: c :: d :: s =>
    match hex4 a b c d with
    | none => none
    | some u =>
      if 0xD800 ≤ u ∧ u < 0xDC00 then
        match s with
        | 92 :: 117 :: a' :: b' :: c' :: d' :: s' =>
          match hex4 a' b' c' d' with
          | none => none
          | some l =>
            if 0xDC00 ≤ l ∧ l < 0xE000 then
              (chars s').map fun (p, r) => (String.utf8EncodeChar
                (Char.ofNat (0x10000 + (u - 0xD800) * 0x400 + (l - 0xDC00))) ++ p, r)
            else none
        | _ => none
      else if 0xDC00 ≤ u ∧ u < 0xE000 then none
      else (chars s).map fun (p, r) => (String.utf8EncodeChar (Char.ofNat u) ++ p, r)
  | 92 :: c :: s =>
    match escaped c with
    | none => none
    | some b => (chars s).map fun (p, r) => (b :: p, r)
  | c :: s => if c < 32 ∨ c = 92 then none else (chars s).map fun (p, r) => (c :: p, r)

/-- The entries of an array up to its closing bracket. -/
def elements (value : List UInt8 → Option (Value × List UInt8)) :
    Nat → List UInt8 → Option (List Value × List UInt8)
  | 0, _ => none
  | fuel + 1, s =>
    match value s with
    | none => none
    | some (v, s) =>
      match skipWs s with
      | 44 :: s => (elements value fuel s).map fun (vs, s) => (v :: vs, s)
      | 93 :: s => some ([v], s)
      | _ => none

/-- The members of an object up to its closing brace. -/
def members (value : List UInt8 → Option (Value × List UInt8)) :
    Nat → List UInt8 → Option (List (List UInt8 × Value) × List UInt8)
  | 0, _ => none
  | fuel + 1, s =>
    match skipWs s with
    | 34 :: s =>
      match chars s with
      | none => none
      | some (key, s) =>
        match skipWs s with
        | 58 :: s =>
          match value s with
          | none => none
          | some (v, s) =>
            match skipWs s with
            | 44 :: s => (members value fuel s).map fun (ms, s) => ((key, v) :: ms, s)
            | 125 :: s => some ([(key, v)], s)
            | _ => none
        | _ => none
    | _ => none

/-- A value, after white space. -/
def value : Nat → List UInt8 → Option (Value × List UInt8)
  | 0, _ => none
  | fuel + 1, s =>
    match skipWs s with
    | 123 :: s =>
      match skipWs s with
      | 125 :: s => some (.object [], s)
      | _ => (members (value fuel) (fuel + 1) s).map fun (ms, s) => (.object ms, s)
    | 91 :: s =>
      match skipWs s with
      | 93 :: s => some (.array [], s)
      | _ => (elements (value fuel) (fuel + 1) s).map fun (vs, s) => (.array vs, s)
    | 34 :: s => (chars s).map fun (p, s) => (.string p, s)
    | 110 :: 117 :: 108 :: 108 :: s => some (.null, s)
    | 116 :: 114 :: 117 :: 101 :: s => some (.bool true, s)
    | 102 :: 97 :: 108 :: 115 :: 101 :: s => some (.bool false, s)
    | s => (number s).map fun (n, s) => (.number n, s)

/-- The value of a text that ends after it. -/
def parse (s : List UInt8) : Option Value :=
  match value (s.length + 1) s with
  | some (v, r) => if skipWs r = [] then some v else none
  | none => none

/-- The text is JSON, of this value. -/
def Reads (s : List UInt8) (v : Value) : Prop :=
  Utf8.WellFormed s ∧ parse s = some v

/-! ## White space -/

variable {s t w rest : List UInt8} {c : UInt8} {k : Nat} {v : Value}

theorem isWs_cases (h : isWs c = true) : c = 32 ∨ c = 9 ∨ c = 10 ∨ c = 13 := by
  simpa only [isWs, Bool.or_eq_true, beq_iff_eq, or_assoc] using h

theorem skipWs_append (hw : ∀ b ∈ w, isWs b = true) : skipWs (w ++ s) = skipWs s := by
  induction w with
  | nil => rfl
  | cons b w ih =>
    rw [List.cons_append, skipWs, List.dropWhile_cons_of_pos (hw b List.mem_cons_self)]
    exact ih fun b hb => hw b (List.mem_cons_of_mem _ hb)

theorem skipWs_cons (hc : isWs c = false) : skipWs (c :: s) = c :: s :=
  List.dropWhile_cons_of_neg (by rw [hc]; exact Bool.false_ne_true)

theorem value_skipWs (h : skipWs s = skipWs t) : value k s = value k t := by
  cases k with
  | zero => rfl
  | succ k => rw [value, value, h]

end Json
