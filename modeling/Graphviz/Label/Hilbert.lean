import Graphviz.Library.HilbertCurve
import Mathlib.Data.BitVec
import Mathlib.Data.Nat.Bitwise

/-!
# The key of a point on the Hilbert curve (`label/xlabels.c`)

`hd_hil_s_from_xy` reads the coordinates of a point from their highest bit on, two bits of the key
for each, and swaps and complements the coordinates as a whole. Their bits that are still to be read
are those of a point on the curve of the order that is left.
-/

namespace Graphviz

open HilbertCurve Nat

/-- `point`. -/
structure point where
  x : BitVec 32
  y : BitVec 32
  deriving DecidableEq

/-- The variables of the loop of `hd_hil_s_from_xy`. -/
structure HilState where
  s : BitVec 32
  x : BitVec 32
  y : BitVec 32

/-- The body of the loop of `hd_hil_s_from_xy`. -/
def hilStep (st : HilState) (i : ℕ) : HilState :=
  let xi := st.x.sshiftRight i &&& 1
  let yi := st.y.sshiftRight i &&& 1
  let s := 4 * st.s + 2 * xi + (xi ^^^ yi)
  let x := st.x ^^^ st.y
  let y := st.y ^^^ (x &&& (yi - 1))
  let x := x ^^^ y
  let x := x ^^^ (-xi &&& (yi - 1))
  let y := y ^^^ (-xi &&& (yi - 1))
  ⟨s, x, y⟩

/-- `hd_hil_s_from_xy`. -/
def hd_hil_s_from_xy (p : point) (n : ℕ) : BitVec 32 :=
  ((List.range n).reverse.foldl hilStep ⟨0, p.x, p.y⟩).s

variable {n i : ℕ} {x y : BitVec 32} {st : HilState}

/-! ## One bit of each coordinate -/

/-- A bit that is read. -/
theorem sshiftRight_and_one (x : BitVec 32) (hi : i < 32) :
    x.sshiftRight i &&& 1 = if x.toNat.testBit i then 1 else 0 := by
  have hbit : x[i] = x.toNat.testBit i := by
    rw [← BitVec.getLsbD_eq_getElem]
    rfl
  ext j hj
  cases j with
  | zero => cases h : x.toNat.testBit i <;> simp [BitVec.getElem_sshiftRight, hi, hbit, h]
  | succ j => cases x.toNat.testBit i <;> simp

/-- The lowest bits of a complement. -/
theorem toNat_not_mod (x : BitVec 32) (hi : i ≤ 32) :
    (~~~x).toNat % 2 ^ i = 2 ^ i - 1 - x.toNat % 2 ^ i := by
  have hlt := x.isLt
  obtain ⟨k, hk⟩ : 2 ^ i ∣ 2 ^ 32 := pow_dvd_pow 2 hi
  rw [BitVec.toNat_not, Nat.sub_sub, Nat.add_comm 1, hk, Nat.mul_sub_mod (hk ▸ hlt), Nat.sub_sub,
    add_comm 1]

/-- The coordinates after a step: swapped if the bit of `y` is 0, and then complemented if the bit
of `x` is 1. -/
theorem hilStep_eq (hi : i < 32) : hilStep st i =
    match st.x.toNat.testBit i, st.y.toNat.testBit i with
    | false, false => ⟨4 * st.s, st.y, st.x⟩
    | false, true => ⟨4 * st.s + 1, st.x, st.y⟩
    | true, true => ⟨4 * st.s + 2, st.x, st.y⟩
    | true, false => ⟨4 * st.s + 3, ~~~st.y, ~~~st.x⟩ := by
  have hswap : ∀ x y : BitVec 32, y ^^^ (x ^^^ y) = x := fun x y => by
    rw [BitVec.xor_comm x y, ← BitVec.xor_assoc, BitVec.xor_self, BitVec.zero_xor]
  have hback : ∀ x y : BitVec 32, x ^^^ y ^^^ x = y := fun x y => by
    rw [BitVec.xor_comm x y, BitVec.xor_assoc, BitVec.xor_self, BitVec.xor_zero]
  have hundo : ∀ x y : BitVec 32, x ^^^ y ^^^ y = x := fun x y => by
    rw [BitVec.xor_assoc, BitVec.xor_self, BitVec.xor_zero]
  have hones : ∀ z : BitVec 32, z &&& 4294967295#32 = z := fun z => BitVec.and_allOnes
  have hnot : ∀ z : BitVec 32, z ^^^ 4294967295#32 = ~~~z := fun z => BitVec.xor_allOnes
  rw [hilStep, sshiftRight_and_one _ hi, sshiftRight_and_one _ hi]
  cases st.x.toNat.testBit i <;> cases st.y.toNat.testBit i
  case false.false => simp [hones, hswap, hback]
  case false.true => simp [hundo]
  case true.false => simp [hones, hnot, hswap, hback, BitVec.add_assoc]
  case true.true => simp [hundo]

theorem mod_two_pow_false (h : x.toNat.testBit i = false) :
    x.toNat % 2 ^ (i + 1) = x.toNat % 2 ^ i := by
  rw [testBit_eq_decide_div_mod_eq, decide_eq_false_iff_not] at h
  rw [mod_pow_succ, mod_two_ne_one.1 h, mul_zero, add_zero]

theorem mod_two_pow_true (h : x.toNat.testBit i = true) :
    x.toNat % 2 ^ (i + 1) = x.toNat % 2 ^ i + 2 ^ i := by
  rw [testBit_eq_decide_div_mod_eq, decide_eq_true_iff] at h
  rw [mod_pow_succ, h, mul_one]

/-- The place of the point of the bits that are left. -/
def rest (i : ℕ) (st : HilState) : ℕ := index i (st.x.toNat % 2 ^ i) (st.y.toNat % 2 ^ i)

/-- A step writes the highest digit of the place down. -/
theorem hilStep_rest (hi : i < 32) : (hilStep st i).s * BitVec.ofNat 32 (4 ^ i) +
      BitVec.ofNat 32 (rest i (hilStep st i)) =
    st.s * BitVec.ofNat 32 (4 ^ (i + 1)) + BitVec.ofNat 32 (rest (i + 1) st) := by
  have hpow : st.s * BitVec.ofNat 32 (4 ^ (i + 1)) = 4 * st.s * BitVec.ofNat 32 (4 ^ i) := by
    rw [pow_succ, BitVec.ofNat_mul, show BitVec.ofNat 32 4 = 4 from rfl]
    ring
  have hlt : ∀ z : ℕ, z % 2 ^ i < 2 ^ i := fun z => Nat.mod_lt _ (Nat.two_pow_pos i)
  have hx := hlt st.x.toNat
  have hy := hlt st.y.toNat
  rw [hpow, hilStep_eq hi]
  simp only [rest]
  cases hbx : st.x.toNat.testBit i <;> cases hby : st.y.toNat.testBit i
  case false.false =>
    rw [mod_two_pow_false hbx, mod_two_pow_false hby, index_first hx hy]
  case false.true =>
    rw [mod_two_pow_false hbx, mod_two_pow_true hby, index_second hx (by omega),
      Nat.add_sub_cancel, BitVec.ofNat_add]
    ring
  case true.true =>
    rw [mod_two_pow_true hbx, mod_two_pow_true hby, index_third (by omega) (by omega),
      Nat.add_sub_cancel, Nat.add_sub_cancel, BitVec.ofNat_add, BitVec.ofNat_mul,
      show BitVec.ofNat 32 2 = 2 from rfl]
    ring
  case true.false =>
    rw [mod_two_pow_true hbx, mod_two_pow_false hby, index_fourth (by omega) hy,
      toNat_not_mod _ hi.le, toNat_not_mod _ hi.le, BitVec.ofNat_add, BitVec.ofNat_mul,
      show BitVec.ofNat 32 3 = 3 from rfl,
      show 2 * 2 ^ i - 1 - (st.x.toNat % 2 ^ i + 2 ^ i) = 2 ^ i - 1 - st.x.toNat % 2 ^ i by omega]
    ring

/-- The loop writes all the digits of the place down. -/
theorem foldl_hilStep (hn : n ≤ 32) : ((List.range n).reverse.foldl hilStep st).s =
    st.s * BitVec.ofNat 32 (4 ^ n) + BitVec.ofNat 32 (rest n st) := by
  induction n generalizing st with
  | zero => simp [rest, index]
  | succ n ih =>
    rw [List.range_succ, List.reverse_append, List.reverse_singleton, List.singleton_append,
      List.foldl_cons, ih (le_of_succ_le hn), hilStep_rest hn]

/-! ## The places of the points of a square -/

/-- The points of the square of side `2 ^ n`. -/
def square (n : ℕ) : Set point :=
  {p | 0 ≤ p.x.toInt ∧ p.x.toInt < 2 ^ n ∧ 0 ≤ p.y.toInt ∧ p.y.toInt < 2 ^ n}

/-- A coordinate of a point of the square is read as it is. -/
theorem toNat_mod_of_toInt (h₀ : 0 ≤ x.toInt) (h : x.toInt < 2 ^ n) :
    x.toNat % 2 ^ n = x.toInt.toNat := by
  have hx : x.toInt = x.toNat := BitVec.toInt_eq_toNat_of_lt
    (Nat.lt_of_not_le fun hle => h₀.not_gt (BitVec.toInt_neg_iff.2 hle))
  rw [hx] at h ⊢
  exact mod_eq_of_lt (by exact_mod_cast h)

theorem toNat_lt_of_toInt (h₀ : 0 ≤ x.toInt) (h : x.toInt < 2 ^ n) : x.toInt.toNat < 2 ^ n := by
  rw [← toNat_mod_of_toInt h₀ h]
  exact Nat.mod_lt _ (Nat.two_pow_pos n)

/-- The key of a point of the square is its place on the curve. -/
theorem toNat_hd_hil_s_from_xy (hn : 2 * n ≤ 32) {p : point} (hp : p ∈ square n) :
    (hd_hil_s_from_xy p n).toNat = index n p.x.toInt.toNat p.y.toInt.toNat := by
  obtain ⟨hx0, hx, hy0, hy⟩ := hp
  have hlt := index_lt (toNat_lt_of_toInt hx0 hx) (toNat_lt_of_toInt hy0 hy)
  have hle : 4 ^ n ≤ 2 ^ 32 := by
    rw [show (4 : ℕ) = 2 ^ 2 from rfl, ← pow_mul]
    exact Nat.pow_le_pow_right Nat.two_pos hn
  rw [hd_hil_s_from_xy, foldl_hilStep (by omega), show (0 : BitVec 32) = 0#32 from rfl,
    BitVec.zero_mul, BitVec.zero_add, rest,
    toNat_mod_of_toInt hx0 hx, toNat_mod_of_toInt hy0 hy, BitVec.toNat_ofNat,
    mod_eq_of_lt (hlt.trans_le hle)]

/-- The point of the square of given coordinates. -/
theorem exists_square {a b : ℕ} (hn : 2 * n ≤ 32) (ha : a < 2 ^ n) (hb : b < 2 ^ n) :
    ∃ p ∈ square n, p.x.toInt.toNat = a ∧ p.y.toInt.toNat = b := by
  have hle : 2 ^ n ≤ 2 ^ 16 := Nat.pow_le_pow_right Nat.two_pos (by omega)
  have hint : ∀ c : ℕ, c < 2 ^ n → (BitVec.ofNat 32 c).toInt = c := fun c hc => by
    rw [BitVec.toInt_ofNat', Int.bmod_eq_of_le (by omega) (by omega)]
  refine ⟨⟨BitVec.ofNat 32 a, BitVec.ofNat 32 b⟩, ?_, ?_, ?_⟩
  · refine ⟨?_, ?_, ?_, ?_⟩ <;> simp only [hint a ha, hint b hb] <;> norm_cast <;> omega
  · rw [hint a ha, Int.toNat_natCast]
  · rw [hint b hb, Int.toNat_natCast]

/-- Points of the square with the same key are the same. -/
theorem hd_hil_s_from_xy_injOn (hn : 2 * n ≤ 32) :
    Set.InjOn (fun p => (hd_hil_s_from_xy p n).toNat) (square n) := by
  intro p hp q hq heq
  have hi := (toNat_hd_hil_s_from_xy hn hp).symm.trans
    (Eq.trans heq (toNat_hd_hil_s_from_xy hn hq))
  obtain ⟨hpx0, hpx, hpy0, hpy⟩ := hp
  obtain ⟨hqx0, hqx, hqy0, hqy⟩ := hq
  obtain ⟨hxx, hyy⟩ := index_inj (toNat_lt_of_toInt hpx0 hpx) (toNat_lt_of_toInt hpy0 hpy)
    (toNat_lt_of_toInt hqx0 hqx) (toNat_lt_of_toInt hqy0 hqy) hi
  have hx : p.x = q.x := BitVec.eq_of_toInt_eq (by omega)
  have hy : p.y = q.y := BitVec.eq_of_toInt_eq (by omega)
  cases p
  cases q
  cases hx
  cases hy
  rfl

/-- The keys of the points of a square are one curve through the square: the points and the keys
below `4 ^ n` are in a one-to-one correspondence, and points with successive keys are neighbours on
a horizontal or a vertical line. -/
theorem hd_hil_s_from_xy_curve (hn : 2 * n ≤ 32) :
    Set.BijOn (fun p => (hd_hil_s_from_xy p n).toNat) (square n) {m | m < 4 ^ n} ∧
    ∀ p ∈ square n, ∀ q ∈ square n,
      (hd_hil_s_from_xy q n).toNat = (hd_hil_s_from_xy p n).toNat + 1 →
      p.x = q.x ∧ (q.y.toInt - p.y.toInt).natAbs = 1 ∨
      p.y = q.y ∧ (q.x.toInt - p.x.toInt).natAbs = 1 := by
  refine ⟨⟨fun p hp => ?_, hd_hil_s_from_xy_injOn hn, fun m hm => ?_⟩, fun p hp q hq hpq => ?_⟩
  · obtain ⟨hx0, hx, hy0, hy⟩ := id hp
    simp only [Set.mem_ofPred_eq, toNat_hd_hil_s_from_xy hn hp]
    exact index_lt (toNat_lt_of_toInt hx0 hx) (toNat_lt_of_toInt hy0 hy)
  · obtain ⟨a, ha, b, hb, hab⟩ := exists_index hm
    obtain ⟨p, hp, rfl, rfl⟩ := exists_square hn ha hb
    exact ⟨p, hp, (toNat_hd_hil_s_from_xy hn hp).trans hab⟩
  · rw [toNat_hd_hil_s_from_xy hn hp, toNat_hd_hil_s_from_xy hn hq] at hpq
    obtain ⟨hpx0, hpx, hpy0, hpy⟩ := hp
    obtain ⟨hqx0, hqx, hqy0, hqy⟩ := hq
    have hstep := index_succ (toNat_lt_of_toInt hpx0 hpx) (toNat_lt_of_toInt hpy0 hpy)
      (toNat_lt_of_toInt hqx0 hqx) (toNat_lt_of_toInt hqy0 hqy) hpq
    obtain ⟨heq, hstep⟩ | ⟨heq, hstep⟩ := hstep
    · exact .inl ⟨BitVec.eq_of_toInt_eq (by omega), by omega⟩
    · exact .inr ⟨BitVec.eq_of_toInt_eq (by omega), by omega⟩

/-- The curve of order 16, whose keys are all the keys. -/
theorem hd_hil_s_from_xy_curve_sixteen :
    Set.BijOn (fun p => (hd_hil_s_from_xy p 16).toNat) (square 16) {m | m < 4 ^ 16} ∧
    ∀ p ∈ square 16, ∀ q ∈ square 16,
      (hd_hil_s_from_xy q 16).toNat = (hd_hil_s_from_xy p 16).toNat + 1 →
      p.x = q.x ∧ (q.y.toInt - p.y.toInt).natAbs = 1 ∨
      p.y = q.y ∧ (q.x.toInt - p.x.toInt).natAbs = 1 :=
  hd_hil_s_from_xy_curve (n := 16) (by decide)

end Graphviz
