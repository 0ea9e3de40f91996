/-
  File:      Bray/Lib/Packed.lean
  Subject:   FIELDS PACKED IN ONE MACHINE WORD. Nothing of this repository is named here.

  A field of `k` bits at position `s` is read off with a mask or a shift; as a number it is a
  quotient and a remainder. An `or` with bits above what is there is an addition.
-/
import Mathlib.Data.Nat.Bitwise

namespace Bray.Lib

namespace Packed

/-- Masking out all but the `k` bits from position `s` on. -/
theorem and_field (x k s : Nat) : x &&& ((2 ^ k - 1) * 2 ^ s) = x / 2 ^ s % 2 ^ k * 2 ^ s := by
  rw [← Nat.shiftLeft_eq, ← Nat.shiftLeft_eq, ← Nat.shiftRight_eq_div_pow, ← Nat.and_two_pow_sub_one_eq_mod]
  apply Nat.eq_of_testBit_eq
  intro i
  simp only [Nat.testBit_and, Nat.testBit_shiftLeft, Nat.testBit_shiftRight, Nat.testBit_two_pow_sub_one]
  by_cases h : s ≤ i
  · simp [h]
  · simp [h]

variable {w : Nat} (x : BitVec w)

/-- The lowest `k` bits. -/
theorem toNat_and_low (k : Nat) (mask : BitVec w) (hm : mask.toNat = 2 ^ k - 1) :
    (x &&& mask).toNat = x.toNat % 2 ^ k := by
  rw [BitVec.toNat_and, hm, Nat.and_two_pow_sub_one_eq_mod]

/-- The `k` bits from position `s` on, in their place. -/
theorem toNat_and_field (k s : Nat) (mask : BitVec w) (hm : mask.toNat = (2 ^ k - 1) * 2 ^ s) :
    (x &&& mask).toNat = x.toNat / 2 ^ s % 2 ^ k * 2 ^ s := by
  rw [BitVec.toNat_and, hm, and_field]

/-- The bits from position `s` on, moved to the bottom. -/
theorem toNat_shift (s : Nat) : (x >>> s).toNat = x.toNat / 2 ^ s := by
  rw [BitVec.toNat_ushiftRight, Nat.shiftRight_eq_div_pow]

/-- An `or` of multiples of `2 ^ s` with bits below them. -/
theorem toNat_or_low (y : BitVec w) (a s : Nat) (hx : x.toNat = a * 2 ^ s) (hy : y.toNat < 2 ^ s) :
    (x ||| y).toNat = x.toNat + y.toNat := by
  rw [BitVec.toNat_or, hx, Nat.mul_comm, Nat.two_pow_add_eq_or_of_lt hy]

theorem or_eq_zero {y : BitVec w} : x ||| y = 0#w ↔ x = 0#w ∧ y = 0#w := by
  constructor
  · intro h
    have hn := congrArg BitVec.toNat h
    rw [BitVec.toNat_or, BitVec.toNat_ofNat, Nat.zero_mod, Nat.or_eq_zero_iff] at hn
    exact ⟨BitVec.eq_of_toNat_eq (by simpa using hn.1), BitVec.eq_of_toNat_eq (by simpa using hn.2)⟩
  · rintro ⟨rfl, rfl⟩
    simp

end Packed

end Bray.Lib
