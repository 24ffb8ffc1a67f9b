import Mathlib.Data.Fintype.EquivFin

/-!
# Characters and strings

`lib/util/gv_ctype.h`, and the functions of the C library on bytes that the modelled code
calls. A `char` is a byte; the sources test only for ASCII characters and for the others, so
its sign does not matter.
-/

namespace Graphviz

/-- A C string without its terminator. -/
abbrev CStr := List UInt8

/-- The bytes of a string literal of ASCII characters. -/
def lit (s : String) : CStr :=
  s.toList.map fun c => c.toNat.toUInt8

/-- `gv_islower`. -/
def gv_islower (c : UInt8) : Bool :=
  97 ≤ c && c ≤ 122

/-- `gv_isupper`. -/
def gv_isupper (c : UInt8) : Bool :=
  65 ≤ c && c ≤ 90

/-- `gv_isalpha`. -/
def gv_isalpha (c : UInt8) : Bool :=
  gv_islower c || gv_isupper c

/-- `gv_isdigit`. -/
def gv_isdigit (c : UInt8) : Bool :=
  48 ≤ c && c ≤ 57

/-- `gv_isalnum`. -/
def gv_isalnum (c : UInt8) : Bool :=
  gv_isalpha c || gv_isdigit c

/-- `isascii`. -/
def isascii (c : UInt8) : Bool :=
  c < 128

/-- `tolower`. -/
def tolower (c : UInt8) : UInt8 :=
  if gv_isupper c then c + 32 else c

/-- `strcasecmp`, as the test for equality its callers make. -/
def strcasecmpEq (s t : CStr) : Bool :=
  s.map tolower == t.map tolower

/-- A statement about every byte is decided by trying the 256 of them. -/
instance decidableForallByte (p : UInt8 → Prop) [DecidablePred p] : Decidable (∀ c, p c) :=
  decidable_of_iff (∀ i : Fin 256, p (UInt8.ofFin i))
    ⟨fun h c => h c.toFin, fun h i => h (UInt8.ofFin i)⟩

end Graphviz

/-!
## `qsort`

The sort of the C library leaves the elements in some sorted order, and which one if elements
compare equal is not known.
-/

namespace Graphviz

/-- `qsort` with a comparison: some sorted permutation. -/
structure Qsort {α : Type} (cmp : α → α → ℤ) where
  run : List α → List α
  perm : ∀ l, (run l).Perm l
  sorted : ∀ l, (run l).Pairwise fun x y => cmp x y ≤ 0

end Graphviz
