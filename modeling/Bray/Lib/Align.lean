/-
  File:      Bray/Lib/Align.lean
  Subject:   ALIGNMENT BY MASKS: what the usual masks of machine words compute, for words of `w` bits
    and an alignment `2 ^ k`. Nothing of this repository is named here.

  * `isPowerOfTwo_of_mask` -- the test `a & (a - 1) == 0`;
  * `roundUp_dvd`, `le_roundUp` -- `(x + (a - 1)) & ~(a - 1)` is a multiple of `a` that is not below `x`;
  * `alignUp_dvd`, `alignUp_le` -- `x + ((a - (x & (a - 1))) & (a - 1))` is the next one.
-/
import Mathlib

namespace Bray.Lib

variable {a k w x : Nat}

theorem isPowerOfTwo_of_mask (h0 : a ≠ 0) (h : a &&& (a - 1) = 0) : ∃ k, a = 2 ^ k :=
  (Nat.and_sub_one_eq_zero_iff_isPowerOfTwo h0).mp h

/-- Clearing the low bits of a word. -/
theorem and_complement_eq (hx : x < 2 ^ w) : x &&& ((2 ^ w - 1) ^^^ (2 ^ k - 1)) = x >>> k <<< k := by
  refine Nat.eq_of_testBit_eq fun i => ?_
  rw [Nat.testBit_and, Nat.testBit_xor, Nat.testBit_two_pow_sub_one, Nat.testBit_two_pow_sub_one,
    Nat.testBit_shiftLeft, Nat.testBit_shiftRight]
  by_cases hk : k ≤ i
  · have hsum : k + (i - k) = i := by omega
    rw [hsum]
    by_cases hw : i < w
    · simp [hw, hk]
    · have hbit : x.testBit i = false :=
      Nat.testBit_lt_two_pow (Nat.lt_of_lt_of_le hx (Nat.pow_le_pow_right (by decide) (Nat.not_lt.mp hw)))
      simp [hbit]
  · by_cases hw : i < w
    · simp [hw, hk, Nat.lt_of_not_le hk]
    · have hbit : x.testBit i = false :=
      Nat.testBit_lt_two_pow (Nat.lt_of_lt_of_le hx (Nat.pow_le_pow_right (by decide) (Nat.not_lt.mp hw)))
      simp [hbit, hk]

theorem shiftRight_shiftLeft_eq (x k : Nat) : x >>> k <<< k = x / 2 ^ k * 2 ^ k := by
  rw [Nat.shiftLeft_eq, Nat.shiftRight_eq_div_pow]

/-- A size, rounded up to the alignment. -/
theorem roundUp_dvd (hx : x + (2 ^ k - 1) < 2 ^ w) :
    2 ^ k ∣ (x + (2 ^ k - 1)) &&& ((2 ^ w - 1) ^^^ (2 ^ k - 1)) := by
  rw [and_complement_eq hx, shiftRight_shiftLeft_eq]
  exact Nat.dvd_mul_left _ _

theorem le_roundUp (hx : x + (2 ^ k - 1) < 2 ^ w) : x ≤ (x + (2 ^ k - 1)) &&& ((2 ^ w - 1) ^^^ (2 ^ k - 1)) := by
  rw [and_complement_eq hx, shiftRight_shiftLeft_eq]
  have hmod := Nat.div_add_mod (x + (2 ^ k - 1)) (2 ^ k)
  rw [Nat.mul_comm] at hmod
  omega

/-- What an address lacks to the alignment. -/
theorem skip_eq (x k : Nat) : (2 ^ k - (x &&& (2 ^ k - 1))) &&& (2 ^ k - 1) = (2 ^ k - x % 2 ^ k) % 2 ^ k := by
  rw [Nat.and_two_pow_sub_one_eq_mod, Nat.and_two_pow_sub_one_eq_mod]

theorem alignUp_dvd (x k : Nat) : 2 ^ k ∣ x + ((2 ^ k - (x &&& (2 ^ k - 1))) &&& (2 ^ k - 1)) := by
  rw [skip_eq, Nat.dvd_iff_mod_eq_zero, Nat.add_mod_mod]
  have hmod := Nat.div_add_mod x (2 ^ k)
  have hsum : x + (2 ^ k - x % 2 ^ k) = 2 ^ k * (x / 2 ^ k + 1) := by
    rw [Nat.mul_add, Nat.mul_one]
    omega
  rw [hsum, Nat.mul_mod_right]

theorem alignUp_le (x k : Nat) : (2 ^ k - (x &&& (2 ^ k - 1))) &&& (2 ^ k - 1) ≤ 2 ^ k - 1 := by
  rw [skip_eq]
  exact Nat.le_pred_of_lt (Nat.mod_lt _ (Nat.two_pow_pos k))

end Bray.Lib
