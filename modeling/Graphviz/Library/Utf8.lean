import Mathlib.Data.List.Basic

/-!
# UTF-8

The encoding of characters by their code points, in four ranges, and strings of bytes that encode
characters.
-/

namespace Utf8

open List

open String (utf8EncodeChar)

variable {s t : List UInt8} {c : Char}

/-- The bytes of a character, by the range of its code point. -/
theorem encode_cases (c : Char) :
    (c.toNat < 0x80 ∧ utf8EncodeChar c = [.ofNat c.toNat]) ∨
    ((0x80 ≤ c.toNat ∧ c.toNat < 0x800) ∧
      utf8EncodeChar c = [.ofNat (c.toNat / 64 + 0xc0), .ofNat (c.toNat % 64 + 0x80)]) ∨
    ((0x800 ≤ c.toNat ∧ c.toNat < 0x10000) ∧
      utf8EncodeChar c = [.ofNat (c.toNat / 4096 + 0xe0), .ofNat (c.toNat / 64 % 64 + 0x80),
        .ofNat (c.toNat % 64 + 0x80)]) ∨
    ((0x10000 ≤ c.toNat ∧ c.toNat < 0x110000) ∧
      utf8EncodeChar c = [.ofNat (c.toNat / 262144 + 0xf0), .ofNat (c.toNat / 4096 % 64 + 0x80),
        .ofNat (c.toNat / 64 % 64 + 0x80), .ofNat (c.toNat % 64 + 0x80)]) := by
  have hvalid : c.toNat < 0x110000 :=
    c.valid.elim (fun h => Nat.lt_trans h (by decide)) And.right
  rw [utf8EncodeChar]
  change _ ∨ _ ∨ _ ∨ _
  generalize hv : c.val.toNat = v
  change c.toNat = v at hv
  rw [hv] at hvalid ⊢
  split
  next h => exact .inl ⟨by omega, rfl⟩
  split
  next h =>
    rw [Nat.mod_eq_of_lt (show v / 64 < 32 by omega)]
    exact .inr (.inl ⟨by omega, rfl⟩)
  split
  next h =>
    rw [Nat.mod_eq_of_lt (show v / 4096 < 16 by omega)]
    exact .inr (.inr (.inl ⟨by omega, rfl⟩))
  next h =>
    rw [Nat.mod_eq_of_lt (show v / 262144 < 8 by omega)]
    exact .inr (.inr (.inr ⟨by omega, rfl⟩))

/-- A byte that is made from a number in range. -/
theorem toNat_ofNat {n : Nat} (h : n < 256) : (UInt8.ofNat n).toNat = n := by
  rw [UInt8.toNat_ofNat', Nat.mod_eq_of_lt h]

/-! ## Well-formed strings -/

/-- A string of bytes that encodes characters. -/
def WellFormed (s : List UInt8) : Prop :=
  ∃ cs : List Char, s = cs.flatMap utf8EncodeChar

theorem WellFormed.nil : WellFormed [] :=
  ⟨[], rfl⟩

theorem WellFormed.char (c : Char) : WellFormed (utf8EncodeChar c) :=
  ⟨[c], by simp⟩

theorem WellFormed.append (hs : WellFormed s) (ht : WellFormed t) : WellFormed (s ++ t) := by
  obtain ⟨cs, rfl⟩ := hs
  obtain ⟨ds, rfl⟩ := ht
  exact ⟨cs ++ ds, flatMap_append.symm⟩

/-- A well-formed string begins with no byte that continues a character. -/
theorem WellFormed.head (hs : WellFormed s) {b : UInt8} (hb : b ∈ s.head?) :
    b.toNat < 0x80 ∨ 0xc0 ≤ b.toNat := by
  obtain ⟨cs, rfl⟩ := hs
  cases cs with
  | nil => exact absurd hb (by simp)
  | cons c cs =>
    rw [flatMap_cons] at hb
    rcases encode_cases c with ⟨hc, heq⟩ | ⟨hc, heq⟩ | ⟨hc, heq⟩ | ⟨hc, heq⟩ <;>
      rw [heq, cons_append, head?_cons, Option.mem_some_iff] at hb <;> subst hb
    · exact .inl (by rwa [toNat_ofNat (by omega)])
    · exact .inr (by rw [toNat_ofNat (by omega)]; omega)
    · exact .inr (by rw [toNat_ofNat (by omega)]; omega)
    · exact .inr (by rw [toNat_ofNat (by omega)]; omega)

/-! ## Single-byte characters -/

/-- A byte under 128 is a character of its own. -/
theorem encode_of_mem {b : UInt8} (hb : b ∈ utf8EncodeChar c) (h : b.toNat < 0x80) :
    utf8EncodeChar c = [b] := by
  rcases encode_cases c with ⟨hc, heq⟩ | ⟨hc, heq⟩ | ⟨hc, heq⟩ | ⟨hc, heq⟩ <;> rw [heq] at hb ⊢
  · rw [mem_singleton.1 hb]
  all_goals
    simp only [mem_cons, not_mem_nil, or_false] at hb
    exfalso
  · obtain rfl | rfl := hb <;> rw [toNat_ofNat (by omega)] at h <;> omega
  · obtain rfl | rfl | rfl := hb <;> rw [toNat_ofNat (by omega)] at h <;> omega
  · obtain rfl | rfl | rfl | rfl := hb <;> rw [toNat_ofNat (by omega)] at h <;> omega

theorem WellFormed.single {b : UInt8} (h : b.toNat < 0x80) : WellFormed [b] := by
  have hvalid : b.toNat.isValidChar := Or.inl (by omega)
  have hchar : (Char.ofNat b.toNat).toNat = b.toNat := by
    rw [Char.ofNat, dif_pos hvalid]
    rfl
  obtain ⟨-, heq⟩ | ⟨hc, -⟩ | ⟨hc, -⟩ | ⟨hc, -⟩ := encode_cases (Char.ofNat b.toNat)
  · have hwf := WellFormed.char (Char.ofNat b.toNat)
    rwa [heq, hchar, UInt8.ofNat_toNat] at hwf
  all_goals omega

/-- A string is well formed when it is on both sides of such a byte. -/
theorem wellFormed_append_cons {b : UInt8} (h : b.toNat < 0x80) :
    WellFormed (s ++ b :: t) ↔ WellFormed s ∧ WellFormed t := by
  refine ⟨?_, fun ⟨hs, ht⟩ => hs.append ((WellFormed.single h).append ht)⟩
  rintro ⟨cs, heq⟩
  induction cs generalizing s with
  | nil => exact absurd heq (by simp)
  | cons c cs ih =>
    rw [flatMap_cons] at heq
    obtain ⟨u, henc, hrest⟩ | ⟨u, rfl, hrest⟩ := append_eq_append_iff.1 heq
    · cases u with
      | nil =>
        rw [append_nil] at henc
        obtain ⟨-, ht⟩ := ih (s := []) hrest
        exact ⟨henc ▸ WellFormed.char c, ht⟩
      | cons b' u =>
        obtain ⟨rfl, rfl⟩ := List.cons.inj hrest
        have hone := encode_of_mem (henc ▸ mem_append_right _ mem_cons_self) h
        rw [hone] at henc
        obtain ⟨rfl, rfl⟩ : s = [] ∧ u = [] := by
          have hlen := congrArg List.length henc
          rw [length_singleton, length_append, List.length_cons] at hlen
          exact ⟨length_eq_zero_iff.1 (by omega), length_eq_zero_iff.1 (by omega)⟩
        exact ⟨.nil, cs, rfl⟩
    · obtain ⟨hu, ht⟩ := ih hrest.symm
      exact ⟨(WellFormed.char c).append hu, ht⟩

theorem wellFormed_cons {b : UInt8} (h : b.toNat < 0x80) : WellFormed (b :: s) ↔ WellFormed s :=
  (wellFormed_append_cons (s := []) h).trans ⟨And.right, fun hs => ⟨.nil, hs⟩⟩

/-- Single-byte characters before a string. -/
theorem wellFormed_ascii_append (h : ∀ b ∈ s, b.toNat < 0x80) :
    WellFormed (s ++ t) ↔ WellFormed t := by
  induction s with
  | nil => rfl
  | cons b s ih =>
    rw [cons_append, wellFormed_cons (h b mem_cons_self)]
    exact ih fun b hb => h b (mem_cons_of_mem _ hb)

/-- A string of single-byte characters. -/
theorem WellFormed.ascii (h : ∀ b ∈ s, b.toNat < 0x80) : WellFormed s := by
  have happend := wellFormed_ascii_append (t := []) h
  rw [append_nil] at happend
  exact happend.2 .nil

/-- Single-byte characters after a string. -/
theorem wellFormed_append_ascii (h : ∀ b ∈ t, b.toNat < 0x80) :
    WellFormed (s ++ t) ↔ WellFormed s := by
  cases t with
  | nil => rw [append_nil]
  | cons b t =>
    rw [wellFormed_append_cons (h b mem_cons_self)]
    exact and_iff_left (.ascii fun b hb => h b (mem_cons_of_mem _ hb))

end Utf8
