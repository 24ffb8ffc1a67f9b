import Graphviz.Library.Utf8
import Graphviz.Util.Numeral

/-!
# Entities and UTF-8

The functions of `lib/common/utils.c` that bring labels to UTF-8: character references and named
entities are replaced, and bytes that start no character are taken for Latin-1. What the functions
append to a buffer is their result; the warnings are left out.
-/

namespace Graphviz

open List Nat Option

/-- The entries of `entities.h`, which is made from `entities.html`. -/
def entityNames : List (String × Nat) :=
  [("AElig", 198), ("Aacute", 193), ("Acirc", 194), ("Agrave", 192), ("Alpha", 913),
   ("Aring", 197), ("Atilde", 195), ("Auml", 196), ("Beta", 914), ("Ccedil", 199), ("Chi", 935),
   ("Dagger", 8225), ("Delta", 916), ("ETH", 208), ("Eacute", 201), ("Ecirc", 202),
   ("Egrave", 200), ("Epsilon", 917), ("Eta", 919), ("Euml", 203), ("Gamma", 915),
   ("Iacute", 205), ("Icirc", 206), ("Igrave", 204), ("Iota", 921), ("Iuml", 207), ("Kappa", 922),
   ("Lambda", 923), ("Mu", 924), ("Ntilde", 209), ("Nu", 925), ("OElig", 338), ("Oacute", 211),
   ("Ocirc", 212), ("Ograve", 210), ("Omega", 937), ("Omicron", 927), ("Oslash", 216),
   ("Otilde", 213), ("Ouml", 214), ("Phi", 934), ("Pi", 928), ("Prime", 8243), ("Psi", 936),
   ("Rho", 929), ("Scaron", 352), ("Sigma", 931), ("THORN", 222), ("Tau", 932), ("Theta", 920),
   ("Uacute", 218), ("Ucirc", 219), ("Ugrave", 217), ("Upsilon", 933), ("Uuml", 220), ("Xi", 926),
   ("Yacute", 221), ("Yuml", 376), ("Zeta", 918), ("aacute", 225), ("acirc", 226), ("acute", 180),
   ("aelig", 230), ("agrave", 224), ("alefsym", 8501), ("alpha", 945), ("amp", 38), ("and", 8743),
   ("ang", 8736), ("aring", 229), ("asymp", 8776), ("atilde", 227), ("auml", 228),
   ("bdquo", 8222), ("beta", 946), ("brvbar", 166), ("bull", 8226), ("cap", 8745),
   ("ccedil", 231), ("cedil", 184), ("cent", 162), ("chi", 967), ("circ", 710), ("clubs", 9827),
   ("cong", 8773), ("copy", 169), ("crarr", 8629), ("cup", 8746), ("curren", 164), ("dArr", 8659),
   ("dagger", 8224), ("darr", 8595), ("deg", 176), ("delta", 948), ("diams", 9830),
   ("divide", 247), ("eacute", 233), ("ecirc", 234), ("egrave", 232), ("empty", 8709),
   ("emsp", 8195), ("ensp", 8194), ("epsilon", 949), ("equiv", 8801), ("eta", 951), ("eth", 240),
   ("euml", 235), ("euro", 8364), ("exist", 8707), ("fnof", 402), ("forall", 8704),
   ("frac12", 189), ("frac14", 188), ("frac34", 190), ("frasl", 8260), ("gamma", 947),
   ("ge", 8805), ("gt", 62), ("hArr", 8660), ("harr", 8596), ("hearts", 9829), ("hellip", 8230),
   ("iacute", 237), ("icirc", 238), ("iexcl", 161), ("igrave", 236), ("image", 8465),
   ("infin", 8734), ("int", 8747), ("iota", 953), ("iquest", 191), ("isin", 8712), ("iuml", 239),
   ("kappa", 954), ("lArr", 8656), ("lambda", 955), ("lang", 9001), ("laquo", 171),
   ("larr", 8592), ("lceil", 8968), ("ldquo", 8220), ("le", 8804), ("lfloor", 8970),
   ("lowast", 8727), ("loz", 9674), ("lrm", 8206), ("lsaquo", 8249), ("lsquo", 8216), ("lt", 60),
   ("macr", 175), ("mdash", 8212), ("micro", 181), ("middot", 183), ("minus", 8722), ("mu", 956),
   ("nabla", 8711), ("nbsp", 160), ("ndash", 8211), ("ne", 8800), ("ni", 8715), ("not", 172),
   ("notin", 8713), ("nsub", 8836), ("ntilde", 241), ("nu", 957), ("oacute", 243), ("ocirc", 244),
   ("oelig", 339), ("ograve", 242), ("oline", 8254), ("omega", 969), ("omicron", 959),
   ("oplus", 8853), ("or", 8744), ("ordf", 170), ("ordm", 186), ("oslash", 248), ("otilde", 245),
   ("otimes", 8855), ("ouml", 246), ("para", 182), ("part", 8706), ("permil", 8240),
   ("perp", 8869), ("phi", 966), ("pi", 960), ("piv", 982), ("plusmn", 177), ("pound", 163),
   ("prime", 8242), ("prod", 8719), ("prop", 8733), ("psi", 968), ("quot", 34), ("rArr", 8658),
   ("radic", 8730), ("rang", 9002), ("raquo", 187), ("rarr", 8594), ("rceil", 8969),
   ("rdquo", 8221), ("real", 8476), ("reg", 174), ("rfloor", 8971), ("rho", 961), ("rlm", 8207),
   ("rsaquo", 8250), ("rsquo", 8217), ("sbquo", 8218), ("scaron", 353), ("sdot", 8901),
   ("sect", 167), ("shy", 173), ("sigma", 963), ("sigmaf", 962), ("sim", 8764), ("spades", 9824),
   ("sub", 8834), ("sube", 8838), ("sum", 8721), ("sup", 8835), ("sup1", 185), ("sup2", 178),
   ("sup3", 179), ("supe", 8839), ("szlig", 223), ("tau", 964), ("there4", 8756), ("theta", 952),
   ("thetasym", 977), ("thinsp", 8201), ("thorn", 254), ("tilde", 732), ("times", 215),
   ("trade", 8482), ("uArr", 8657), ("uacute", 250), ("uarr", 8593), ("ucirc", 251),
   ("ugrave", 249), ("uml", 168), ("upsih", 978), ("upsilon", 965), ("uuml", 252),
   ("weierp", 8472), ("xi", 958), ("yacute", 253), ("yen", 165), ("yuml", 255), ("zeta", 950),
   ("zwj", 8205), ("zwnj", 8204)]

/-- `entities`. -/
def entities : List (CStr × Nat) :=
  entityNames.map fun e => (lit e.1, e.2)

/-- `ENTITY_NAME_LENGTH_MAX`. -/
def ENTITY_NAME_LENGTH_MAX : Nat := 8

/-- The value of a hexadecimal digit. -/
def hexValue (byte : UInt8) : Option Nat :=
  if 65 ≤ byte ∧ byte ≤ 70 then some (byte.toNat - 65 + 10)
  else if 97 ≤ byte ∧ byte ≤ 102 then some (byte.toNat - 97 + 10)
  else if 48 ≤ byte ∧ byte ≤ 57 then some (byte.toNat - 48)
  else none

/-- The value of a decimal digit. -/
def decValue (byte : UInt8) : Option Nat :=
  if 48 ≤ byte ∧ byte ≤ 57 then some (byte.toNat - 48) else none

/-- The loop over the digits of a reference: at most `k` bytes are looked at. The result is the
value, and what follows the `;` that ends the digits, if one is seen. -/
def scanDigits (value : UInt8 → Option Nat) (base : Nat) : Nat → CStr → Nat → Option (Nat × CStr)
  | 0, _, _ => none
  | _ + 1, [], _ => none
  | k + 1, byte :: s, n =>
    match value byte with
    | some d => scanDigits value base k s (n * base + d)
    | none => if byte = 59 then some (n, s) else none

/-- The loop over the bytes of a name. -/
def scanName : Nat → CStr → CStr → Option (Nat × CStr)
  | 0, _, _ => none
  | _ + 1, [], _ => none
  | k + 1, byte :: s, key =>
    if byte = 0 then none
    else if byte = 59 then (entities.lookup key).map fun v => (v, s)
    else scanName k s (key ++ [byte])

/-- `htmlEntity`: the value, and the string from where it goes on. -/
def htmlEntity (s : CStr) : Nat × CStr :=
  match s with
  | 35 :: 120 :: t => (scanDigits hexValue 16 6 t 0).getD (0, s)
  | 35 :: 88 :: t => (scanDigits hexValue 16 6 t 0).getD (0, s)
  | 35 :: t => (scanDigits decValue 10 7 t 0).getD (0, s)
  | _ => (scanName ENTITY_NAME_LENGTH_MAX s []).getD (0, s)

/-- The bytes that are made of a value. -/
def utf8Bytes (v : Nat) : CStr :=
  if v < 0x7F then [.ofNat v]
  else if v < 0x07FF then [.ofNat ((v >>> 6) ||| 0xC0), .ofNat ((v &&& 0x3F) ||| 0x80)]
  else [.ofNat ((v >>> 12) ||| 0xE0), .ofNat (((v >>> 6) &&& 0x3F) ||| 0x80),
    .ofNat ((v &&& 0x3F) ||| 0x80)]

theorem scanDigits_length {value : UInt8 → Option Nat} {base k n v : Nat} {s rest : CStr}
    (h : scanDigits value base k s n = some (v, rest)) : rest.length < s.length := by
  induction k generalizing s n with
  | zero => exact absurd h nofun
  | succ k ih =>
    cases s with
    | nil => exact absurd h nofun
    | cons byte s =>
      rw [scanDigits] at h
      split at h
      · exact (ih h).trans (lt_succ_self _)
      · split at h
        · obtain ⟨-, rfl⟩ := Prod.mk.inj (some.inj h)
          exact lt_succ_self _
        · exact absurd h nofun

theorem scanName_length {k v : Nat} {s key rest : CStr} (h : scanName k s key = some (v, rest)) :
    rest.length < s.length := by
  induction k generalizing s key with
  | zero => exact absurd h nofun
  | succ k ih =>
    cases s with
    | nil => exact absurd h nofun
    | cons byte s =>
      rw [scanName] at h
      split at h
      · exact absurd h nofun
      · split at h
        · obtain ⟨w, -, hw⟩ := map_eq_some_iff.1 h
          rw [← (Prod.mk.inj hw).2]
          exact lt_succ_self _
        · exact (ih h).trans (lt_succ_self _)

theorem htmlEntity_length (s : CStr) : (htmlEntity s).2.length ≤ s.length := by
  have hgetD : ∀ {o : Option (Nat × CStr)}, (∀ v rest, o = some (v, rest) →
      rest.length ≤ s.length) → (o.getD (0, s)).2.length ≤ s.length := by
    intro o ho
    cases o with
    | none => exact le_refl _
    | some r => exact ho r.1 r.2 rfl
  unfold htmlEntity
  split
  next => exact hgetD fun v rest h => (scanDigits_length h).le.trans (le_add_right _ 2)
  next => exact hgetD fun v rest h => (scanDigits_length h).le.trans (le_add_right _ 2)
  next => exact hgetD fun v rest h => (scanDigits_length h).le.trans (le_add_right _ 1)
  next => exact hgetD fun v rest h => (scanName_length h).le

/-- `latin1ToUTF8`. -/
def latin1ToUTF8 : CStr → CStr
  | [] => []
  | v :: s =>
    if v = 0 then []
    else if v = 38 then
      let n := (htmlEntity s).1
      utf8Bytes (if n = 0 then 38 else n) ++ latin1ToUTF8 (htmlEntity s).2
    else utf8Bytes v.toNat ++ latin1ToUTF8 s
termination_by s => s.length
decreasing_by
  · have := htmlEntity_length s
    simp only [List.length_cons]
    omega
  · simp

/-- `cvtAndAppend`: what is appended, and the byte that is left. -/
def cvtAndAppend (c : UInt8) : CStr × UInt8 :=
  let s := latin1ToUTF8 [c]
  (s.dropLast, s.getLastD 0)

/-- The loop that copies a character: `ui` is the number of bytes that are to follow. A byte that
does not continue a character ends it. The result is what is appended, and the string from where it
goes on. -/
def copyBytes : Nat → UInt8 → CStr → CStr × CStr
  | 0, c, s => ([c], s)
  | ui + 1, c, s =>
    if s.headD 0 &&& 0xC0 = 0x80 then
      let (out, rest) := copyBytes ui (s.headD 0) s.tail
      (c :: out, rest)
    else
      let (out, c) := cvtAndAppend c
      (out ++ [c], s)

/-- The body of the loop of `htmlEntityUTF8`, for the byte `c` and what follows it. -/
def convertByte (c : UInt8) (s : CStr) : CStr × CStr :=
  if c < 0xC0 then
    if c = 38 then
      let (v, rest) := htmlEntity s
      (if v = 0 then [c] else utf8Bytes v, rest)
    else ([c], s)
  else if c < 0xE0 then copyBytes 1 c s
  else if c < 0xF0 then copyBytes 2 c s
  else if c < 0xF8 then copyBytes 3 c s
  else
    let (out, c) := cvtAndAppend c
    (out ++ [c], s)

theorem copyBytes_length (ui : Nat) (c : UInt8) (s : CStr) :
    (copyBytes ui c s).2.length ≤ s.length := by
  induction ui generalizing c s with
  | zero => exact le_refl _
  | succ ui ih =>
    rw [copyBytes]
    split
    · exact (ih _ _).trans (by rw [length_tail]; omega)
    · exact le_refl _

theorem convertByte_length (c : UInt8) (s : CStr) : (convertByte c s).2.length ≤ s.length := by
  rw [convertByte]
  split
  · split
    · exact htmlEntity_length s
    · exact le_refl _
  split
  · exact copyBytes_length 1 c s
  split
  · exact copyBytes_length 2 c s
  split
  · exact copyBytes_length 3 c s
  · exact le_refl _

/-- `htmlEntityUTF8`. -/
def htmlEntityUTF8 : CStr → CStr
  | [] => []
  | c :: s =>
    if c = 0 then []
    else (convertByte c s).1 ++ htmlEntityUTF8 (convertByte c s).2
termination_by s => s.length
decreasing_by
  have := convertByte_length c s
  simp only [List.length_cons]
  omega

/-! ## References -/

/-- The text of a reference after `&`, and the code point that it stands for. -/
inductive Reference : CStr → Nat → Prop
  | decimal {ds : CStr} : ds ≠ [] → (∀ c ∈ ds, gv_isdigit c = true) →
      Reference (35 :: ds ++ [59]) (natOf 10 ds)
  | hexadecimal {x : UInt8} {ds : CStr} : x = 120 ∨ x = 88 → ds ≠ [] →
      (∀ c ∈ ds, gv_isxdigit c = true) → Reference (35 :: x :: ds ++ [59]) (natOf 16 ds)
  | name {key : CStr} {v : Nat} : entities.lookup key = some v → Reference (key ++ [59]) v

/-- A string starts with a reference to a character. -/
def Refers (s : CStr) (ch : Char) (rest : CStr) : Prop :=
  ∃ ref, s = ref ++ rest ∧ Reference ref ch.toNat

/-- Code points that are not encoded in UTF-8. -/
def Wrong (v : Nat) : Prop :=
  v = 0 ∨ v = 0x7F ∨ v = 0x7FF ∨ 0x10000 ≤ v ∨ ¬ v.isValidChar

/-- The references that the code misses or does not encode in UTF-8: they have no digits, or are to
code points that it goes wrong at, or they are longer than what it looks at. -/
inductive LeftOut : CStr → Prop
  | decimal {ds rest : CStr} : (∀ c ∈ ds, gv_isdigit c = true) →
      (ds.length ≤ 6 ∧ Wrong (natOf 10 ds)) ∨ (6 < ds.length ∧ (natOf 10 ds).isValidChar) →
      LeftOut (35 :: ds ++ 59 :: rest)
  | hexadecimal {x : UInt8} {ds rest : CStr} : x = 120 ∨ x = 88 →
      (∀ c ∈ ds, gv_isxdigit c = true) →
      (ds.length ≤ 5 ∧ Wrong (natOf 16 ds)) ∨ (5 < ds.length ∧ (natOf 16 ds).isValidChar) →
      LeftOut (35 :: x :: ds ++ 59 :: rest)
  | name {key rest : CStr} {v : Nat} : entities.lookup key = some v → 8 ≤ key.length →
      LeftOut (key ++ 59 :: rest)

variable {s t ds key rest out : CStr} {c : UInt8} {ch : Char} {k n v base : Nat}

/-- The entries of the table. -/
theorem entities_spec : (entities.all fun e => decide (e.2 ≠ 0 ∧ e.2 ≠ 0x7F ∧ e.2 ≠ 0x7FF ∧
    e.2 < 0xD800) && e.1 != [] && e.1.all gv_isalnum) = true := by
  decide +kernel

theorem lookup_spec (h : entities.lookup key = some v) :
    (v ≠ 0 ∧ v ≠ 0x7F ∧ v ≠ 0x7FF ∧ v < 0xD800) ∧ key ≠ [] ∧ ∀ c ∈ key, gv_isalnum c = true := by
  obtain ⟨l1, l2, heq, -⟩ := lookup_eq_some_iff.1 h
  have hmem : (key, v) ∈ entities := heq ▸ mem_append_right l1 mem_cons_self
  have hall := all_eq_true.1 entities_spec (key, v) hmem
  rw [Bool.and_eq_true, Bool.and_eq_true, decide_eq_true_iff, bne_iff_ne] at hall
  exact ⟨hall.1.1, hall.1.2, all_eq_true.1 hall.2⟩

theorem alnum_ne (h : gv_isalnum c = true) : c ≠ 35 ∧ c ≠ 59 ∧ c ≠ 0 := by
  refine ⟨?_, ?_, ?_⟩ <;> rintro rfl <;> exact absurd h (by decide)

/-! ## Scanning a reference -/

/-- The values of digits. -/
def Digital (value : UInt8 → Option Nat) (P : UInt8 → Bool) : Prop :=
  ∀ c, value c = if P c then some (digitVal c) else none

theorem decValue_digital : Digital decValue gv_isdigit := by
  have hall : ∀ c, decValue c = if gv_isdigit c then some (digitVal c) else none := by
    decide +kernel
  exact hall

theorem hexValue_digital : Digital hexValue gv_isxdigit := by
  have hall : ∀ c, hexValue c = if gv_isxdigit c then some (digitVal c) else none := by
    decide +kernel
  exact hall

theorem scanDigits_iff {value : UInt8 → Option Nat} {P : UInt8 → Bool} (hv : Digital value P)
    (hsemi : P 59 = false) : scanDigits value base k s n = some (v, rest) ↔
      ∃ ds, s = ds ++ 59 :: rest ∧ (∀ c ∈ ds, P c = true) ∧ ds.length < k ∧
        v = ds.foldl (fun a c => base * a + digitVal c) n := by
  induction k generalizing s n with
  | zero =>
    refine ⟨fun h => absurd h nofun, ?_⟩
    rintro ⟨ds, -, -, hlt, -⟩
    exact absurd hlt (not_lt_zero _)
  | succ k ih =>
    cases s with
    | nil =>
      refine ⟨fun h => absurd h nofun, ?_⟩
      rintro ⟨ds, heq, -⟩
      exact absurd heq.symm (append_ne_nil_of_right_ne_nil ds (cons_ne_nil _ _))
    | cons byte s =>
      rw [scanDigits, hv byte]
      cases hP : P byte with
      | true =>
        rw [if_pos rfl]
        dsimp only
        rw [ih, mul_comm]
        constructor
        · rintro ⟨ds, rfl, hds, hlt, rfl⟩
          exact ⟨byte :: ds, rfl, fun c hc => (mem_cons.1 hc).elim (fun h => h ▸ hP) (hds c),
            succ_lt_succ hlt, rfl⟩
        · rintro ⟨ds, heq, hds, hlt, rfl⟩
          cases ds with
          | nil =>
            rw [(cons.inj heq).1, hsemi] at hP
            exact absurd hP (by decide)
          | cons d ds =>
            obtain ⟨rfl, rfl⟩ := cons.inj heq
            exact ⟨ds, rfl, fun c hc => hds c (mem_cons_of_mem _ hc),
              lt_of_succ_lt_succ hlt, rfl⟩
      | false =>
        rw [if_neg (by decide)]
        dsimp only
        constructor
        · intro h
          split at h
          next h59 =>
            obtain ⟨rfl, rfl⟩ := Prod.mk.inj (some.inj h)
            exact ⟨[], by rw [h59]; rfl, nofun, succ_pos k, rfl⟩
          next => exact absurd h nofun
        · rintro ⟨ds, heq, hds, -, rfl⟩
          cases ds with
          | nil =>
            obtain ⟨rfl, rfl⟩ := cons.inj heq
            rw [if_pos rfl]
            rfl
          | cons d ds =>
            rw [(cons.inj heq).1, hds d mem_cons_self] at hP
            exact absurd hP (by decide)

theorem scanName_iff : scanName k s key = some (v, rest) ↔
    ∃ ds, s = ds ++ 59 :: rest ∧ (∀ c ∈ ds, c ≠ 0 ∧ c ≠ 59) ∧ ds.length < k ∧
      entities.lookup (key ++ ds) = some v := by
  induction k generalizing s key with
  | zero =>
    refine ⟨fun h => absurd h nofun, ?_⟩
    rintro ⟨ds, -, -, hlt, -⟩
    exact absurd hlt (not_lt_zero _)
  | succ k ih =>
    cases s with
    | nil =>
      refine ⟨fun h => absurd h nofun, ?_⟩
      rintro ⟨ds, heq, -⟩
      exact absurd heq.symm (append_ne_nil_of_right_ne_nil ds (cons_ne_nil _ _))
    | cons byte s =>
      rw [scanName]
      split
      next h0 =>
        refine ⟨fun h => absurd h nofun, ?_⟩
        rintro ⟨ds, heq, hds, -⟩
        cases ds with
        | nil => exact absurd ((cons.inj heq).1.symm.trans h0) (by decide)
        | cons d ds => exact absurd ((cons.inj heq).1.symm.trans h0) (hds d mem_cons_self).1
      next h0 =>
        split
        next h59 =>
          rw [map_eq_some_iff]
          constructor
          · rintro ⟨w, hw, heq⟩
            obtain ⟨rfl, rfl⟩ := Prod.mk.inj heq
            exact ⟨[], by rw [h59]; rfl, nofun, succ_pos k, by rw [append_nil, hw]⟩
          · rintro ⟨ds, heq, hds, -, hw⟩
            cases ds with
            | nil =>
              rw [append_nil] at hw
              exact ⟨v, hw, by rw [(cons.inj heq).2]⟩
            | cons d ds =>
              exact absurd ((cons.inj heq).1.symm.trans h59) (hds d mem_cons_self).2
        next h59 =>
          rw [ih]
          constructor
          · rintro ⟨ds, rfl, hds, hlt, hw⟩
            refine ⟨byte :: ds, rfl, fun c hc => ?_, succ_lt_succ hlt, ?_⟩
            · obtain rfl | hc := mem_cons.1 hc
              · exact ⟨h0, h59⟩
              · exact hds c hc
            · rw [append_assoc] at hw
              exact hw
          · rintro ⟨ds, heq, hds, hlt, hw⟩
            cases ds with
            | nil => exact absurd (cons.inj heq).1 h59
            | cons d ds =>
              obtain ⟨rfl, rfl⟩ := cons.inj heq
              refine ⟨ds, rfl, fun c hc => hds c (mem_cons_of_mem _ hc),
                lt_of_succ_lt_succ hlt, ?_⟩
              rw [append_assoc]
              exact hw

theorem htmlEntity_hex {x : UInt8} (hx : x = 120 ∨ x = 88) (t : CStr) :
    htmlEntity (35 :: x :: t) = (scanDigits hexValue 16 6 t 0).getD (0, 35 :: x :: t) := by
  rcases hx with rfl | rfl <;> rfl

theorem htmlEntity_dec (ht : ∀ x ∈ t.head?, x ≠ 120 ∧ x ≠ 88) :
    htmlEntity (35 :: t) = (scanDigits decValue 10 7 t 0).getD (0, 35 :: t) := by
  unfold htmlEntity
  split
  next heq => exact absurd rfl (ht 120 (by rw [(cons.inj heq).2]; rfl)).1
  next heq => exact absurd rfl (ht 88 (by rw [(cons.inj heq).2]; rfl)).2
  next heq => rw [(cons.inj heq).2]
  next hne => exact absurd rfl (hne t)

theorem htmlEntity_name (hs : ∀ c ∈ s.head?, c ≠ 35) :
    htmlEntity s = (scanName ENTITY_NAME_LENGTH_MAX s []).getD (0, s) := by
  unfold htmlEntity
  split
  next => exact absurd rfl (hs 35 rfl)
  next => exact absurd rfl (hs 35 rfl)
  next => exact absurd rfl (hs 35 rfl)
  next => rfl

/-- A digit is not what a hexadecimal reference has after the `#`. -/
theorem digit_head (hds : ∀ c ∈ ds, gv_isdigit c = true) :
    ∀ x ∈ (ds ++ 59 :: rest).head?, x ≠ 120 ∧ x ≠ 88 := by
  intro x hx
  cases ds with
  | nil =>
    obtain rfl := some_inj.1 hx
    decide
  | cons d ds =>
    obtain rfl := some_inj.1 hx
    have hd := hds d mem_cons_self
    constructor <;> rintro rfl <;> exact absurd hd (by decide)

theorem name_head (hkey : entities.lookup key = some v) : ∀ c ∈ (key ++ t).head?, c ≠ 35 := by
  obtain ⟨-, hne, hall⟩ := lookup_spec hkey
  cases key with
  | nil => exact absurd rfl hne
  | cons d key =>
    intro c hc
    obtain rfl := some_inj.1 hc
    exact (alnum_ne (hall d mem_cons_self)).1

theorem isValidChar_toNat (ch : Char) : ch.toNat.isValidChar :=
  ch.valid

/-- A reference that is not left out is found, and its code point is encoded in UTF-8. -/
theorem htmlEntity_refers (hs : ¬ LeftOut s) (h : Refers s ch rest) :
    htmlEntity s = (ch.toNat, rest) ∧ ¬ Wrong ch.toNat := by
  obtain ⟨ref, rfl, href⟩ := h
  generalize hch : ch.toNat = v at href
  have hvalid : v.isValidChar := hch ▸ isValidChar_toNat ch
  cases href with
  | @decimal ds hne hds =>
    rw [append_assoc, singleton_append] at hs ⊢
    have hlen : ds.length ≤ 6 := Nat.le_of_not_lt fun hlt => hs (.decimal hds (.inr ⟨hlt, hvalid⟩))
    refine ⟨?_, fun hw => hs (.decimal hds (.inl ⟨hlen, hw⟩))⟩
    have hscan : scanDigits decValue 10 7 (ds ++ 59 :: rest) 0 = some (natOf 10 ds, rest) :=
      (scanDigits_iff decValue_digital (by decide)).2 ⟨ds, rfl, hds, lt_succ_of_le hlen, rfl⟩
    rw [cons_append, htmlEntity_dec (digit_head hds), hscan, getD_some]
  | @hexadecimal x ds hx hne hds =>
    rw [append_assoc, singleton_append] at hs ⊢
    have hlen : ds.length ≤ 5 :=
      Nat.le_of_not_lt fun hlt => hs (.hexadecimal hx hds (.inr ⟨hlt, hvalid⟩))
    refine ⟨?_, fun hw => hs (.hexadecimal hx hds (.inl ⟨hlen, hw⟩))⟩
    have hscan : scanDigits hexValue 16 6 (ds ++ 59 :: rest) 0 = some (natOf 16 ds, rest) :=
      (scanDigits_iff hexValue_digital (by decide)).2 ⟨ds, rfl, hds, lt_succ_of_le hlen, rfl⟩
    rw [cons_append, cons_append, htmlEntity_hex hx, hscan, getD_some]
  | @name key v hkey =>
    obtain ⟨⟨h0, h7F, h7FF, hlt⟩, -, hall⟩ := lookup_spec hkey
    rw [append_assoc, singleton_append] at hs ⊢
    have hlen : key.length < 8 := Nat.lt_of_not_le fun hle => hs (.name hkey hle)
    have hscan : scanName ENTITY_NAME_LENGTH_MAX (key ++ 59 :: rest) [] = some (v, rest) :=
      scanName_iff.2 ⟨key, rfl, fun c hc => ⟨(alnum_ne (hall c hc)).2.2, (alnum_ne (hall c hc)).2.1⟩,
        hlen, by rw [nil_append, hkey]⟩
    refine ⟨by rw [htmlEntity_name (name_head hkey), hscan, getD_some], ?_⟩
    rintro (hw | hw | hw | hw | hw)
    · exact h0 hw
    · exact h7F hw
    · exact h7FF hw
    · omega
    · exact hw hvalid

theorem toNat_ofNat_of_valid (h : v.isValidChar) : (Char.ofNat v).toNat = v := by
  rw [Char.ofNat, dif_pos h]
  exact Char.toNat_val ▸ rfl

/-- Without a reference nothing is consumed. -/
theorem htmlEntity_none (hs : ¬ LeftOut s) (h : ∀ ch rest, ¬ Refers s ch rest) :
    htmlEntity s = (0, s) := by
  have hvalid : ∀ v, ¬ Wrong v → v.isValidChar ∧ v ≠ 0 := fun v hv =>
    ⟨by_contra fun hno => hv (.inr (.inr (.inr (.inr hno)))), fun h0 => hv (.inl h0)⟩
  unfold htmlEntity
  have hhex : ∀ x t, x = 120 ∨ x = 88 → s = 35 :: x :: t → scanDigits hexValue 16 6 t 0 = none := by
    intro x t hx hst
    refine eq_none_iff_forall_ne_some.2 fun r hr => ?_
    obtain ⟨ds, rfl, hds, hlt, hv⟩ := (scanDigits_iff hexValue_digital (by decide)).1 hr
    have hwrong : ¬ Wrong (natOf 16 ds) := fun hw =>
      hs (hst ▸ .hexadecimal hx hds (.inl ⟨le_of_lt_succ hlt, hw⟩))
    obtain ⟨hval, h0⟩ := hvalid _ hwrong
    refine h (Char.ofNat (natOf 16 ds)) r.2 ⟨35 :: x :: ds ++ [59], ?_, ?_⟩
    · rw [hst, append_assoc]
      rfl
    · rw [toNat_ofNat_of_valid hval]
      exact .hexadecimal hx (fun hnil => h0 (hnil ▸ rfl)) hds
  split
  next t => rw [hhex 120 t (.inl rfl) rfl, getD_none]
  next t => rw [hhex 88 t (.inr rfl) rfl, getD_none]
  next t _ _ =>
    have hdec : scanDigits decValue 10 7 t 0 = none := by
      refine eq_none_iff_forall_ne_some.2 fun r hr => ?_
      obtain ⟨ds, rfl, hds, hlt, hv⟩ := (scanDigits_iff decValue_digital (by decide)).1 hr
      have hwrong : ¬ Wrong (natOf 10 ds) := fun hw =>
        hs (.decimal hds (.inl ⟨le_of_lt_succ hlt, hw⟩))
      obtain ⟨hval, h0⟩ := hvalid _ hwrong
      refine h (Char.ofNat (natOf 10 ds)) r.2 ⟨35 :: ds ++ [59], ?_, ?_⟩
      · rw [append_assoc]
        rfl
      · rw [toNat_ofNat_of_valid hval]
        exact .decimal (fun hnil => h0 (hnil ▸ rfl)) hds
    rw [hdec, getD_none]
  next =>
    have hname : scanName ENTITY_NAME_LENGTH_MAX s [] = none := by
      refine eq_none_iff_forall_ne_some.2 fun r hr => ?_
      obtain ⟨key, rfl, -, -, hkey⟩ := scanName_iff.1 hr
      rw [nil_append] at hkey
      have hval : r.1.isValidChar := .inl (lookup_spec hkey).1.2.2.2
      refine h (Char.ofNat r.1) r.2 ⟨key ++ [59], ?_, ?_⟩
      · rw [append_assoc]
        rfl
      · rw [toNat_ofNat_of_valid hval]
        exact .name hkey
    rw [hname, getD_none]

/-! ## Bytes -/

/-- The bytes of a code point that the code does not go wrong at. -/
theorem utf8Bytes_eq (ch : Char) (h : ¬ Wrong ch.toNat) :
    utf8Bytes ch.toNat = String.utf8EncodeChar ch := by
  have hmask : ∀ x, x &&& 0x3F = x % 64 := fun x => and_two_pow_sub_one_eq_mod x 6
  have hor : ∀ k x a : Nat, x < 2 ^ k → x ||| (2 ^ k * a) = x + 2 ^ k * a := by
    intro k x a hx
    rw [Nat.or_comm, ← Nat.two_pow_add_eq_or_of_lt hx, Nat.add_comm]
  have h80 : ∀ x, x < 64 → x ||| 0x80 = x + 0x80 := fun x hx => hor 7 x 1 (by omega)
  have hC0 : ∀ x, x < 64 → x ||| 0xC0 = x + 0xC0 := fun x hx => hor 6 x 3 (by omega)
  have hE0 : ∀ x, x < 16 → x ||| 0xE0 = x + 0xE0 := fun x hx => hor 5 x 7 (by omega)
  rw [Wrong, not_or, not_or, not_or, not_or] at h
  obtain ⟨h0, h7F, h7FF, hlt, -⟩ := h
  rw [utf8Bytes]
  obtain ⟨hc, heq⟩ | ⟨hc, heq⟩ | ⟨hc, heq⟩ | ⟨hc, heq⟩ := Utf8.encode_cases ch
  · rw [if_pos (by omega), heq]
  · rw [if_neg (by omega), if_pos (by omega), heq, shiftRight_eq_div_pow, hmask,
      hC0 _ (by omega), h80 _ (by omega)]
  · rw [if_neg (by omega), if_neg (by omega), heq, shiftRight_eq_div_pow,
      shiftRight_eq_div_pow, hmask, hmask, hE0 _ (by omega), h80 _ (by omega),
      h80 _ (by omega)]
  · omega

/-- A byte of Latin-1 is converted. -/
theorem latin1_byte (hc : 0x80 ≤ c) :
    (cvtAndAppend c).1 ++ [(cvtAndAppend c).2] = String.utf8EncodeChar (Char.ofNat c.toNat) := by
  have hle : 0x80 ≤ c.toNat := UInt8.le_iff_toNat_le.1 hc
  have hlt := c.toNat_lt
  have hvalid : c.toNat.isValidChar := .inl (by omega)
  have hne : ∀ d : UInt8, d < 0x80 → c ≠ d := by
    rintro d hd rfl
    exact absurd hd (UInt8.not_lt.2 hc)
  have hbytes := utf8Bytes_eq (Char.ofNat c.toNat) (by
    rw [toNat_ofNat_of_valid hvalid]
    rintro (h | h | h | h | h)
    · omega
    · omega
    · omega
    · omega
    · exact h hvalid)
  rw [toNat_ofNat_of_valid hvalid] at hbytes
  have hlatin : latin1ToUTF8 [c] = utf8Bytes c.toNat := by
    rw [latin1ToUTF8, if_neg (hne 0 (by decide)), if_neg (hne 38 (by decide)), latin1ToUTF8,
      append_nil]
  rw [cvtAndAppend, hlatin, ← hbytes]
  have hnil : utf8Bytes c.toNat ≠ [] := by
    rw [utf8Bytes, if_neg (by omega), if_pos (by omega)]
    exact cons_ne_nil _ _
  rw [getLastD_eq_getLast?, getLast?_eq_some_getLast hnil, getD_some, dropLast_append_getLast hnil]

/-- The bytes that continue a character. -/
theorem trail_iff : c &&& 0xC0 = 0x80 ↔ 0x80 ≤ c ∧ c < 0xC0 := by
  have hall : ∀ c : UInt8, c &&& 0xC0 = 0x80 ↔ 0x80 ≤ c ∧ c < 0xC0 := by decide +kernel
  exact hall c

theorem copyBytes_trail {ds : CStr} {ui : Nat} (hlen : ds.length = ui)
    (hds : ∀ d ∈ ds, d &&& 0xC0 = 0x80) : copyBytes ui c (ds ++ s) = (c :: ds, s) := by
  subst hlen
  induction ds generalizing c with
  | nil => rfl
  | cons d ds ih =>
    rw [length_cons, copyBytes, cons_append, headD_cons, if_pos (hds d mem_cons_self), tail_cons,
      ih fun e he => hds e (mem_cons_of_mem d he)]

/-- A character of more than one byte is copied. -/
theorem convertByte_char (hch : 0x80 ≤ ch.toNat) :
    ∃ b bs, String.utf8EncodeChar ch = b :: bs ∧ 0xC0 ≤ b ∧
      convertByte b (bs ++ s) = (b :: bs, s) := by
  have hbyte : ∀ n, n < 64 → UInt8.ofNat (n + 0x80) &&& 0xC0 = 0x80 := by
    intro n hn
    rw [trail_iff, UInt8.le_iff_toNat_le, UInt8.lt_iff_toNat_lt, Utf8.toNat_ofNat (by omega)]
    change 128 ≤ n + 128 ∧ n + 128 < 192
    omega
  have hlt : ∀ n, n < 256 → ∀ k : UInt8, UInt8.ofNat n < k ↔ n < k.toNat := by
    intro n hn k
    rw [UInt8.lt_iff_toNat_lt, Utf8.toNat_ofNat hn]
  have hE0 : ∀ n, n < 256 → (UInt8.ofNat n < 0xE0 ↔ n < 224) := fun n hn => hlt n hn 0xE0
  have hF0 : ∀ n, n < 256 → (UInt8.ofNat n < 0xF0 ↔ n < 240) := fun n hn => hlt n hn 0xF0
  have hF8 : ∀ n, n < 256 → (UInt8.ofNat n < 0xF8 ↔ n < 248) := fun n hn => hlt n hn 0xF8
  have hle : ∀ n, n < 256 → 0xC0 ≤ n → (0xC0 : UInt8) ≤ UInt8.ofNat n := fun n hn h =>
    UInt8.not_lt.1 fun hno => absurd ((hlt n hn 0xC0).1 hno) (not_lt.2 h)
  obtain ⟨hc, heq⟩ | ⟨hc, heq⟩ | ⟨hc, heq⟩ | ⟨hc, heq⟩ := Utf8.encode_cases ch
  · omega
  · refine ⟨_, _, heq, hle _ (by omega) (by omega), ?_⟩
    rw [convertByte, if_neg (UInt8.not_lt.2 (hle _ (by omega) (by omega))),
      if_pos ((hE0 _ (by omega)).2 (by omega))]
    refine copyBytes_trail rfl fun d hd => ?_
    obtain rfl := mem_singleton.1 hd
    exact hbyte _ (by omega)
  · refine ⟨_, _, heq, hle _ (by omega) (by omega), ?_⟩
    rw [convertByte, if_neg (UInt8.not_lt.2 (hle _ (by omega) (by omega))),
      if_neg (mt (hE0 _ (by omega)).1 (by omega)),
      if_pos ((hF0 _ (by omega)).2 (by omega))]
    refine copyBytes_trail rfl fun d hd => ?_
    obtain rfl | hd := mem_cons.1 hd
    · exact hbyte _ (by omega)
    · obtain rfl := mem_singleton.1 hd
      exact hbyte _ (by omega)
  · refine ⟨_, _, heq, hle _ (by omega) (by omega), ?_⟩
    rw [convertByte, if_neg (UInt8.not_lt.2 (hle _ (by omega) (by omega))),
      if_neg (mt (hE0 _ (by omega)).1 (by omega)),
      if_neg (mt (hF0 _ (by omega)).1 (by omega)),
      if_pos ((hF8 _ (by omega)).2 (by omega))]
    refine copyBytes_trail rfl fun d hd => ?_
    obtain rfl | hd := mem_cons.1 hd
    · exact hbyte _ (by omega)
    obtain rfl | hd := mem_cons.1 hd
    · exact hbyte _ (by omega)
    · obtain rfl := mem_singleton.1 hd
      exact hbyte _ (by omega)

/-- A byte that would start a character, but for what follows it, is converted. -/
theorem convertByte_latin1 (hc : 0xC0 ≤ c) (hs : c < 0xF8 → ∀ b ∈ s.head?, b &&& 0xC0 ≠ 0x80) :
    convertByte c s = (String.utf8EncodeChar (Char.ofNat c.toNat), s) := by
  have hlatin := latin1_byte (c := c) (UInt8.le_trans (by decide) hc)
  have hcopy : ∀ ui, c < 0xF8 →
      copyBytes (ui + 1) c s = (String.utf8EncodeChar (Char.ofNat c.toNat), s) := by
    intro ui hlt
    rw [copyBytes, if_neg]
    · exact Prod.ext hlatin rfl
    · cases s with
      | nil => decide
      | cons b s => exact hs hlt b rfl
  rw [convertByte, if_neg (UInt8.not_lt.2 hc)]
  split
  next hlt => exact hcopy 0 (UInt8.lt_trans hlt (by decide))
  split
  next hlt => exact hcopy 1 (UInt8.lt_trans hlt (by decide))
  split
  next hlt => exact hcopy 2 hlt
  next => exact Prod.ext hlatin rfl

/-! ## The whole string -/

/-- Strings of characters and of bytes of `odd` that belong to none. Such a byte that could start a
character is not followed by one that continues it. -/
inductive Pieces (odd : UInt8 → Prop) : CStr → Prop
  | nil : Pieces odd []
  | char (ch : Char) {s : CStr} : Pieces odd s → Pieces odd (String.utf8EncodeChar ch ++ s)
  | trail {c : UInt8} {s : CStr} : odd c → 0x80 ≤ c → c < 0xC0 → Pieces odd s → Pieces odd (c :: s)
  | latin1 {c : UInt8} {s : CStr} : odd c → 0xC0 ≤ c →
      (c < 0xF8 → ∀ b ∈ s.head?, b &&& 0xC0 ≠ 0x80) → Pieces odd s → Pieces odd (c :: s)

/-- The normal form of a string: a reference is replaced by its character, a byte from `0xC0` that
belongs to no character by the character that it is in Latin-1, and everything else is unchanged. -/
inductive Normal (odd : UInt8 → Prop) : CStr → CStr → Prop
  | nil : Normal odd [] []
  | char {ch : Char} {s out : CStr} : ch ≠ '&' → Normal odd s out →
      Normal odd (String.utf8EncodeChar ch ++ s) (String.utf8EncodeChar ch ++ out)
  | reference {ch : Char} {s rest out : CStr} : Refers s ch rest → Normal odd rest out →
      Normal odd (38 :: s) (String.utf8EncodeChar ch ++ out)
  | ampersand {s out : CStr} : (∀ ch rest, ¬ Refers s ch rest) → Normal odd s out →
      Normal odd (38 :: s) (38 :: out)
  | trail {c : UInt8} {s out : CStr} : odd c → 0x80 ≤ c → c < 0xC0 → Normal odd s out →
      Normal odd (c :: s) (c :: out)
  | latin1 {c : UInt8} {s out : CStr} : odd c → 0xC0 ≤ c → Normal odd s out →
      Normal odd (c :: s) (String.utf8EncodeChar (Char.ofNat c.toNat) ++ out)

variable {odd : UInt8 → Prop}

theorem Pieces.of_wellFormed (h : Utf8.WellFormed s) : Pieces (fun _ => False) s := by
  obtain ⟨cs, rfl⟩ := h
  induction cs with
  | nil => exact .nil
  | cons ch cs ih => exact .char ch ih

/-- The normal form is well-formed when no byte that continues a character stands alone. -/
theorem Normal.wellFormed (h : Normal odd s out) (hodd : ∀ c, odd c → 0xC0 ≤ c) :
    Utf8.WellFormed out := by
  induction h with
  | nil => exact .nil
  | @char ch s out _ _ ih => exact (Utf8.WellFormed.char ch).append ih
  | @reference ch s rest out _ _ ih => exact (Utf8.WellFormed.char ch).append ih
  | ampersand _ _ ih => exact (Utf8.WellFormed.char '&').append ih
  | trail hc _ hlt _ _ => exact absurd hlt (UInt8.not_lt.2 (hodd _ hc))
  | @latin1 c s out _ _ _ ih => exact (Utf8.WellFormed.char _).append ih

theorem Pieces.tail (h : Pieces odd (c :: s)) (hc : c < 0x80) : Pieces odd s := by
  generalize hcs : c :: s = t at h
  cases h with
  | nil => exact absurd hcs (cons_ne_nil c s)
  | @char ch t ht =>
    obtain hlt | hge := lt_or_ge ch.toNat 0x80
    · obtain ⟨-, heq⟩ | ⟨h, -⟩ | ⟨h, -⟩ | ⟨h, -⟩ := Utf8.encode_cases ch
      · rw [heq] at hcs
        rw [(cons.inj hcs).2]
        exact ht
      · omega
      · omega
      · omega
    · obtain ⟨b, bs, heq, hb, -⟩ := convertByte_char (s := s) hge
      rw [heq] at hcs
      rw [(cons.inj hcs).1] at hc
      exact absurd hc (UInt8.not_lt.2 (UInt8.le_trans (by decide) hb))
  | trail _ hle => exact absurd ((cons.inj hcs).1 ▸ hc) (UInt8.not_lt.2 hle)
  | latin1 _ hle =>
    exact absurd ((cons.inj hcs).1 ▸ hc) (UInt8.not_lt.2 (UInt8.le_trans (by decide) hle))

theorem Pieces.drop {ref : CStr} (h : Pieces odd (ref ++ rest)) (href : ∀ c ∈ ref, c < 0x80) :
    Pieces odd rest := by
  induction ref with
  | nil => exact h
  | cons c ref ih =>
    exact ih (h.tail (href c mem_cons_self)) fun d hd => href d (mem_cons_of_mem c hd)

/-- The bytes of a reference. -/
theorem Reference.ascii {ref : CStr} (h : Reference ref v) : ∀ c ∈ ref, c < 0x80 := by
  have halnum : ∀ c, gv_isalnum c = true → c < 0x80 := by decide +kernel
  have hdigit : ∀ c, gv_isdigit c = true → c < 0x80 := by decide +kernel
  have hxdigit : ∀ c, gv_isxdigit c = true → c < 0x80 := by decide +kernel
  intro c hc
  cases h with
  | decimal _ hds =>
    obtain hc | hc := mem_append.1 hc
    · obtain rfl | hc := mem_cons.1 hc
      · decide
      · exact hdigit c (hds c hc)
    · rw [mem_singleton.1 hc]
      decide
  | hexadecimal hx _ hds =>
    obtain hc | hc := mem_append.1 hc
    · obtain rfl | hc := mem_cons.1 hc
      · decide
      obtain rfl | hc := mem_cons.1 hc
      · rcases hx with rfl | rfl <;> decide
      · exact hxdigit c (hds c hc)
    · rw [mem_singleton.1 hc]
      decide
  | name hkey =>
    obtain hc | hc := mem_append.1 hc
    · exact halnum c ((lookup_spec hkey).2.2 c hc)
    · rw [mem_singleton.1 hc]
      decide

theorem htmlEntityUTF8_step (hc : c ≠ 0) (h : convertByte c s = (out, rest)) :
    htmlEntityUTF8 (c :: s) = out ++ htmlEntityUTF8 rest := by
  rw [htmlEntityUTF8, if_neg hc, h]

theorem convertByte_ampersand {v : Nat} (h : htmlEntity s = (v, rest)) :
    convertByte 38 s = (if v = 0 then [38] else utf8Bytes v, rest) := by
  rw [convertByte, if_pos (by decide), if_pos rfl, h]

/-- A string is brought to its normal form. -/
theorem htmlEntityUTF8_normal (hs : Pieces odd s) (h₀ : 0 ∉ s)
    (href : ∀ t, 38 :: t <:+ s → ¬ LeftOut t) : Normal odd s (htmlEntityUTF8 s) := by
  induction hn : s.length using Nat.strong_induction_on generalizing s with
  | _ n ih =>
  subst hn
  -- what follows the first piece is in normal form
  have hrest : ∀ {rest}, Pieces odd rest → rest <:+ s → rest.length < s.length →
      Normal odd rest (htmlEntityUTF8 rest) := fun hp hsuff hlt =>
    ih _ hlt hp (fun hmem => h₀ (hsuff.subset hmem)) (fun t ht => href t (ht.trans hsuff)) rfl
  cases hs with
  | nil =>
    rw [htmlEntityUTF8]
    exact .nil
  | @char ch s hp =>
    obtain hlt | hge := lt_or_ge ch.toNat 0x80
    · obtain ⟨-, heq⟩ | ⟨h, -⟩ | ⟨h, -⟩ | ⟨h, -⟩ := Utf8.encode_cases ch
      · have hsuff : s <:+ String.utf8EncodeChar ch ++ s := suffix_append _ _
        by_cases hamp : ch = '&'
        · subst hamp
          change Normal odd (38 :: s) (htmlEntityUTF8 (38 :: s))
          have hleft : ¬ LeftOut s := href s (suffix_refl (38 :: s))
          by_cases hex : ∃ ch rest, Refers s ch rest
          · obtain ⟨ch, rest, href'⟩ := hex
            obtain ⟨hentity, hwrong⟩ := htmlEntity_refers hleft href'
            obtain ⟨ref, rfl, href''⟩ := href'
            rw [htmlEntityUTF8_step (by decide) (convertByte_ampersand hentity),
              if_neg fun h => hwrong (.inl h), utf8Bytes_eq ch hwrong]
            refine .reference ⟨ref, rfl, href''⟩ (hrest (hp.drop href''.ascii)
              ((suffix_append ref rest).trans hsuff) ?_)
            change rest.length < (ref ++ rest).length + 1
            rw [length_append]
            omega
          · have hno : ∀ ch rest, ¬ Refers s ch rest := fun ch rest h => hex ⟨ch, rest, h⟩
            rw [htmlEntityUTF8_step (by decide)
              (convertByte_ampersand (htmlEntity_none hleft hno)), if_pos rfl]
            exact .ampersand hno (hrest hp hsuff (lt_succ_self _))
        · have h38 : UInt8.ofNat ch.toNat ≠ 38 := by
            intro h
            refine hamp (Char.toNat_inj.1 ?_)
            rw [← Utf8.toNat_ofNat (show ch.toNat < 256 by omega), h]
            rfl
          have hlt80 : UInt8.ofNat ch.toNat < 0xC0 := by
            rw [UInt8.lt_iff_toNat_lt, Utf8.toNat_ofNat (by omega)]
            exact hlt.trans (by decide)
          have hne : UInt8.ofNat ch.toNat ≠ 0 := by
            intro h
            refine h₀ ?_
            rw [heq, ← h]
            exact mem_cons_self
          have hbyte : htmlEntityUTF8 (String.utf8EncodeChar ch ++ s) =
              String.utf8EncodeChar ch ++ htmlEntityUTF8 s := by
            rw [heq]
            refine htmlEntityUTF8_step hne ?_
            rw [convertByte, if_pos hlt80, if_neg h38]
            rfl
          rw [hbyte]
          refine .char hamp (hrest hp hsuff ?_)
          rw [heq]
          exact lt_succ_self _
      · omega
      · omega
      · omega
    · obtain ⟨b, bs, heq, hb, hconv⟩ := convertByte_char (s := s) hge
      have hne : b ≠ 0 := by
        rintro rfl
        exact absurd hb (by decide)
      have hbytes : htmlEntityUTF8 (String.utf8EncodeChar ch ++ s) =
          String.utf8EncodeChar ch ++ htmlEntityUTF8 s := by
        rw [heq]
        exact htmlEntityUTF8_step hne hconv
      rw [hbytes]
      refine .char ?_ (hrest hp (suffix_append _ _) ?_)
      · rintro rfl
        exact absurd hge (by decide)
      · rw [heq, cons_append, length_cons, length_append]
        omega
  | @trail c s hodd hle hlt hp =>
    have h38 : c ≠ 38 := by
      rintro rfl
      exact absurd hle (by decide)
    rw [htmlEntityUTF8_step (fun h => h₀ (h ▸ mem_cons_self))
      (show convertByte c s = ([c], s) by rw [convertByte, if_pos hlt, if_neg h38])]
    exact .trail hodd hle hlt (hrest hp (suffix_cons c s) (lt_succ_self _))
  | @latin1 c s hodd hle hnext hp =>
    rw [htmlEntityUTF8_step (fun h => h₀ (h ▸ mem_cons_self))
      (convertByte_latin1 hle hnext)]
    exact .latin1 hodd hle (hrest hp (suffix_cons c s) (lt_succ_self _))

/-- Strings of characters and of odd bytes are brought to their normal form. It is well-formed when
no byte that continues a character stands alone, as in a well-formed string. -/
theorem htmlEntityUTF8_spec (h₀ : 0 ∉ s) (href : ∀ t, 38 :: t <:+ s → ¬ LeftOut t) :
    (∀ odd, Pieces odd s → Normal odd s (htmlEntityUTF8 s) ∧
      ((∀ c, odd c → 0xC0 ≤ c) → Utf8.WellFormed (htmlEntityUTF8 s))) ∧
    (Utf8.WellFormed s → Normal (fun _ => False) s (htmlEntityUTF8 s) ∧
      Utf8.WellFormed (htmlEntityUTF8 s)) := by
  have hnormal : ∀ odd, Pieces odd s → Normal odd s (htmlEntityUTF8 s) := fun odd hs =>
    htmlEntityUTF8_normal hs h₀ href
  refine ⟨fun odd hs => ⟨hnormal odd hs, (hnormal odd hs).wellFormed⟩, fun hs => ?_⟩
  have hn := hnormal _ (.of_wellFormed hs)
  exact ⟨hn, hn.wellFormed fun c hc => hc.elim⟩

/-- `é` and a reference to `&`. -/
theorem htmlEntityUTF8_spec_amp : Utf8.WellFormed [0xC3, 0xA9, 38, 97, 109, 112, 59] ∧
    Normal (fun _ => False) [0xC3, 0xA9, 38, 97, 109, 112, 59]
      (htmlEntityUTF8 [0xC3, 0xA9, 38, 97, 109, 112, 59]) := by
  have hwf : Utf8.WellFormed [0xC3, 0xA9, 38, 97, 109, 112, 59] :=
    ⟨['é', '&', 'a', 'm', 'p', ';'], by decide⟩
  refine ⟨hwf, ((htmlEntityUTF8_spec (by decide) fun t ht => ?_).2 hwf).1⟩
  simp only [suffix_cons_iff, cons.injEq, suffix_nil, reduceCtorEq, or_false] at ht
  obtain rfl : t = [97, 109, 112, 59] := by
    obtain ⟨h, -⟩ | ⟨h, -⟩ | ⟨-, h⟩ | ⟨h, -⟩ | ⟨h, -⟩ | ⟨h, -⟩ | ⟨h, -⟩ := ht
    · exact absurd h (by decide)
    · exact absurd h (by decide)
    · exact h
    · exact absurd h (by decide)
    · exact absurd h (by decide)
    · exact absurd h (by decide)
    · exact absurd h (by decide)
  intro hleft
  generalize heq : ([97, 109, 112, 59] : CStr) = u at hleft
  cases hleft with
  | decimal => exact absurd (cons.inj heq).1 (by decide)
  | hexadecimal => exact absurd (cons.inj heq).1 (by decide)
  | @name key rest v _ hlen =>
    have := congrArg List.length heq
    simp only [length_append, length_cons, length_nil] at this
    omega

/-- A byte that continues a character is copied where there is no character to continue. -/
theorem htmlEntityUTF8_trail : htmlEntityUTF8 [0x80] = [0x80] ∧ ¬ Utf8.WellFormed [0x80] := by
  constructor
  · rw [htmlEntityUTF8, if_neg (by decide), show convertByte 0x80 [] = ([0x80], []) by rfl,
      htmlEntityUTF8]
    rfl
  · intro h
    exact absurd (h.head rfl) (by decide)

end Graphviz
