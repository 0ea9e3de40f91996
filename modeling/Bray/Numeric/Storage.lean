/-
  File:      Bray/Numeric/Storage.lean
  Subject:   THE WORDS OF A NATURAL NUMBER.

  A `Natural` is its list of words. Whether the words stand inline or on the heap, and what lies behind the last of
  them, no operation can tell.
-/
import Bray.Lib.Limbs

namespace Bray.Numeric

open Bray.Lib

/-- A natural number, and a slice of words: both are the words, the lowest first. -/
abbrev Natural := List UInt64

def zeroed (count : Nat) : Natural := List.replicate count 0

/-- The word at an index, zero from the count on. -/
def word (value : Natural) (index : Nat) : UInt64 := digit value index

/-- The count without the zero words at the end. -/
def trimmedCount (value : Natural) : Nat → Nat
  | 0 => 0
  | count + 1 => if word value count = 0 then trimmedCount value count else count + 1

def trim (value : Natural) : Natural := value.take (trimmedCount value value.length)

theorem trimmedCount_le (value : Natural) (count : Nat) : trimmedCount value count ≤ count := by
  induction count with
  | zero => exact le_rfl
  | succ count ih =>
    rw [trimmedCount]
    split
    · omega
    · exact le_rfl

theorem digit_take (words : List UInt64) (n i : Nat) :
    digit (words.take n) i = if i < n then digit words i else 0 := by
  rw [digit, digit, List.getD_eq_getElem?_getD, List.getElem?_take]
  split <;> simp

theorem digit_of_trimmedCount_le {value : Natural} {count i : Nat} (from_ : trimmedCount value count ≤ i)
    (below : i < count) : digit value i = 0 := by
  induction count with
  | zero => omega
  | succ count ih =>
    rw [trimmedCount] at from_
    split at from_
    · rename_i zero
      by_cases last : i = count
      · rw [last]
        exact zero
      · exact ih from_ (by omega)
    · omega

/-- **Trimming keeps the number.** -/
@[simp] theorem value_trim (words : Natural) : value (trim words) = value words := by
  apply value_congr
  intro i
  rw [trim, digit_take]
  split
  · rfl
  · by_cases below : i < words.length
    · exact (digit_of_trimmedCount_le (by omega) below).symm
    · exact (digit_eq_zero (by omega)).symm

theorem word_pred_trimmedCount {value : Natural} {count : Nat} (positive : trimmedCount value count ≠ 0) :
    digit value (trimmedCount value count - 1) ≠ 0 := by
  induction count with
  | zero => exact absurd rfl positive
  | succ count ih =>
    rw [trimmedCount] at positive ⊢
    split
    · rename_i zero
      rw [if_pos zero] at positive
      exact ih positive
    · rename_i nonzero
      exact nonzero

theorem trimmed_trim (words : Natural) : Trimmed (trim words) := by
  have le := trimmedCount_le words words.length
  have length : (trim words).length = trimmedCount words words.length := by
    rw [trim, List.length_take]
    omega
  intro last
  rw [List.getLast?_eq_getElem?, length] at last
  have inside : trimmedCount words words.length - 1 < (trim words).length := by
    by_contra outside
    rw [List.getElem?_eq_none (by omega)] at last
    cases last
  rw [List.getElem?_eq_getElem inside, ← digit_eq_getElem inside, trim, digit_take] at last
  split at last
  · exact word_pred_trimmedCount (by omega) (Option.some.inj last)
  · omega

@[simp] theorem value_zeroed (count : Nat) : value (zeroed count) = 0 := value_replicate_zero count

@[simp] theorem length_zeroed (count : Nat) : (zeroed count).length = count := List.length_replicate

theorem trimmed_zeroed_zero : Trimmed (zeroed 0) := by decide

end Bray.Numeric
