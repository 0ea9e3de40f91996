/-
  File:      Bray/Lib/Limbs.lean
  Subject:   NUMBERS AS WORDS: a natural number written in 64-bit words, the lowest first.

  `value` is the number a list of words denotes, `digit` the word at a position (zero behind the last).
  Positions are read off the number by division (`toNat_digit`, `testBit_digit`), and a word that is
  replaced changes the number by its weight (`value_set`). `readAt`, `writeAt` and the checked operations are
  the steps of a program over such lists: they stop where an index or a result leaves its range.
-/
import Bray.Lib.Loop
import Mathlib.Data.Nat.Digits.Defs
import Mathlib.Data.Nat.Size

namespace Bray.Lib

open List

/-! ## 1. The value of a list of words -/

/-- The number of values a word has. -/
def radix : Nat := 2 ^ 64

theorem radix_eq : radix = 18446744073709551616 := rfl

theorem radix_pos : 0 < radix := by decide

theorem one_lt_radix : 1 < radix := by decide

theorem toNat_lt_radix (w : UInt64) : w.toNat < radix := w.toNat_lt

theorem radix_pow_eq (n : Nat) : radix ^ n = 2 ^ (64 * n) := by rw [radix, pow_mul]

theorem radix_pow_pos (n : Nat) : 0 < radix ^ n := Nat.pow_pos radix_pos

/-- **The number that the words denote.** -/
def value (words : List UInt64) : Nat := Nat.ofDigits radix (words.map UInt64.toNat)

/-- The word at a position. -/
def digit (words : List UInt64) (index : Nat) : UInt64 := words.getD index 0

@[simp] theorem value_nil : value [] = 0 := rfl

@[simp] theorem value_cons (w : UInt64) (words : List UInt64) :
    value (w :: words) = w.toNat + radix * value words := by
  simp [value, Nat.ofDigits_cons]

theorem value_append (low high : List UInt64) :
    value (low ++ high) = value low + radix ^ low.length * value high := by
  simp [value, Nat.ofDigits_append]

@[simp] theorem value_replicate_zero (n : Nat) : value (List.replicate n 0) = 0 := by
  simp [value, Nat.ofDigits_replicate_zero]

theorem value_lt (words : List UInt64) : value words < radix ^ words.length := by
  have := Nat.ofDigits_lt_base_pow_length (l := words.map UInt64.toNat) one_lt_radix (by
    intro x mem
    obtain ⟨w, -, rfl⟩ := mem_map.mp mem
    exact toNat_lt_radix w)
  simpa [value] using this

theorem value_drop (words : List UInt64) (i : Nat) : value (words.drop i) = value words / radix ^ i := by
  rw [value, value, Nat.ofDigits_div_pow_eq_ofDigits_drop i radix_pos, map_drop]
  intro x mem
  obtain ⟨w, -, rfl⟩ := mem_map.mp mem
  exact toNat_lt_radix w

theorem value_take (words : List UInt64) (i : Nat) : value (words.take i) = value words % radix ^ i := by
  rw [value, value, Nat.ofDigits_mod_pow_eq_ofDigits_take i radix_pos, map_take]
  intro x mem
  obtain ⟨w, -, rfl⟩ := mem_map.mp mem
  exact toNat_lt_radix w

/-! ## 2. Single words -/

variable {words a b : List UInt64} {i n offset count : Nat}

theorem digit_eq_getElem (h : i < words.length) : digit words i = words[i] := by
  simp [digit, h]

theorem digit_eq_zero (h : words.length ≤ i) : digit words i = 0 := by
  simp [digit, h]

theorem digit_set (h : i < words.length) (w : UInt64) (j : Nat) :
    digit (words.set i w) j = if j = i then w else digit words j := by
  by_cases same : j = i
  · subst same
    simp [digit, h]
  · simp [digit, getElem?_set_ne (Ne.symm same), same]

/-- **A word is a digit of the number.** -/
theorem toNat_digit (words : List UInt64) (i : Nat) : (digit words i).toNat = value words / radix ^ i % radix := by
  rw [← value_drop]
  cases h : words.drop i with
  | nil =>
    have beyond : words.length ≤ i := drop_eq_nil_iff.mp h
    simp [digit_eq_zero beyond]
  | cons w rest =>
    have inside : i < words.length := by
      by_contra outside
      rw [drop_eq_nil_of_le (by omega)] at h
      cases h
    have first : w = words[i] := by
      have head := head?_drop (l := words) (i := i)
      rw [h] at head
      simpa [getElem?_eq_getElem inside] using head
    rw [digit_eq_getElem inside, value_cons, ← first, Nat.add_mul_mod_self_left,
      Nat.mod_eq_of_lt (toNat_lt_radix w)]

theorem testBit_div_mod_radix (n i j : Nat) :
    (n / radix ^ i % radix).testBit j = (decide (j < 64) && n.testBit (64 * i + j)) := by
  rw [radix_pow_eq, radix, Nat.testBit_mod_two_pow, Nat.testBit_div_two_pow, Nat.add_comm j]

theorem testBit_digit (words : List UInt64) (i j : Nat) :
    (digit words i).toNat.testBit j = (decide (j < 64) && (value words).testBit (64 * i + j)) := by
  rw [toNat_digit, testBit_div_mod_radix]

/-- **The words are the number**: a list denotes the number whose digits its words are. -/
theorem value_eq_of_digits (h : ∀ i, (digit words i).toNat = n / radix ^ i % radix) : value words = n := by
  apply Nat.eq_of_testBit_eq
  intro k
  have bits := congrArg (fun d => d.testBit (k % 64)) (h (k / 64))
  simp only [testBit_digit, testBit_div_mod_radix, Nat.mod_lt k (by decide : 0 < 64), decide_true, Bool.true_and,
    Nat.div_add_mod k 64] at bits
  exact bits

theorem value_congr (h : ∀ i, digit a i = digit b i) : value a = value b :=
  value_eq_of_digits fun i => by rw [h, toNat_digit]

theorem digit_eq_zero_of_value_lt {j : Nat} (h : value words < radix ^ i) (le : i ≤ j) : digit words j = 0 := by
  apply UInt64.toNat_inj.mp
  rw [toNat_digit, Nat.div_eq_of_lt (Nat.lt_of_lt_of_le h (Nat.pow_le_pow_right radix_pos le))]
  rfl

/-- A number whose words are zero from a position on is small. -/
theorem value_lt_of_digits {words : List UInt64} {i : Nat} (h : ∀ j, i ≤ j → digit words j = 0) :
    value words < radix ^ i := by
  rw [radix_pow_eq]
  apply Nat.lt_pow_two_of_testBit
  intro k le
  have bits := testBit_digit words (k / 64) (k % 64)
  rw [h (k / 64) (by omega)] at bits
  simpa [Nat.mod_lt k (by decide : 0 < 64), Nat.div_add_mod k 64] using bits.symm

theorem value_eq_zero_iff : value words = 0 ↔ ∀ i, digit words i = 0 := by
  constructor
  · intro h i
    exact digit_eq_zero_of_value_lt (i := 0) (by simp [h]) (Nat.zero_le i)
  · intro h
    have := @value_lt_of_digits words 0 fun j _ => h j
    simpa using this

/-- **Replacing a word** changes the number by the weight of its position. -/
theorem value_set (h : i < words.length) (w : UInt64) :
    value (words.set i w) + radix ^ i * (digit words i).toNat = value words + radix ^ i * w.toNat := by
  have split : words = words.take i ++ words[i] :: words.drop (i + 1) := by simp
  have changed : words.set i w = words.take i ++ w :: words.drop (i + 1) := by
    rw [set_eq_take_append_cons_drop, if_pos h]
  have length : (words.take i).length = i := by simp; omega
  rw [changed, digit_eq_getElem h]
  conv_rhs => rw [split]
  simp only [value_append, value_cons, length]
  ring

/-- Writing below a position keeps a number below its weight. -/
theorem value_set_lt {k : Nat} (h : value words < radix ^ k) (below : i < k) (w : UInt64) :
    value (words.set i w) < radix ^ k := by
  by_cases inside : i < words.length
  · apply value_lt_of_digits
    intro j le
    rw [digit_set inside, if_neg (by omega)]
    exact digit_eq_zero_of_value_lt h le
  · rwa [set_eq_of_length_le (by omega)]

/-- Writing where nothing stood yet. -/
theorem value_set_of_lt (h : i < words.length) (empty : value words < radix ^ i)
    (w : UInt64) : value (words.set i w) = value words + radix ^ i * w.toNat := by
  have := value_set h w
  rwa [digit_eq_zero_of_value_lt empty le_rfl, UInt64.toNat_zero, Nat.mul_zero, Nat.add_zero] at this

/-! ## 3. Steps of a program -/

/-- A result that is meant to fit its width. -/
def checked (width n : Nat) : Option Nat := if n < 2 ^ width then some n else none

/-- The low 64 bits. -/
def truncate (n : Nat) : UInt64 := UInt64.ofNat n

def readAt (words : List UInt64) (index : Nat) : Option UInt64 := words[index]?

def writeAt (words : List UInt64) (index : Nat) (w : UInt64) : Option (List UInt64) :=
  if index < words.length then some (words.set index w) else none

theorem checked_eq {width : Nat} (h : n < 2 ^ width) : checked width n = some n := if_pos h

theorem readAt_eq {index : Nat} (h : index < words.length) : readAt words index = some (digit words index) := by
  rw [readAt, getElem?_eq_getElem h, digit_eq_getElem h]

theorem writeAt_eq {index : Nat} (h : index < words.length) (w : UInt64) :
    writeAt words index w = some (words.set index w) := if_pos h

@[simp] theorem toNat_truncate (n : Nat) : (truncate n).toNat = n % radix := by
  rw [truncate, UInt64.toNat_ofNat', radix]

/-- The low and the high part of a result. -/
theorem truncate_add_div (n : Nat) : (truncate n).toNat + radix * (n / radix) = n := by
  rw [toNat_truncate, Nat.mod_add_div]

/-- The low 64 bits of a number with a sign. -/
def truncateInt (n : Int) : UInt64 := UInt64.ofNat (n % radix).toNat

/-- A result with a sign that is meant to fit its width. -/
def checkedInt (width : Nat) (n : Int) : Option Int :=
  if -2 ^ (width - 1) ≤ n ∧ n < 2 ^ (width - 1) then some n else none

theorem checkedInt_eq {width : Nat} {n : Int} (h : -2 ^ (width - 1) ≤ n ∧ n < 2 ^ (width - 1)) :
    checkedInt width n = some n := if_pos h

theorem toNat_truncateInt (n : Int) : ((truncateInt n).toNat : Int) = n % radix := by
  have positive : (0 : Int) < radix := by decide
  have low := Int.emod_nonneg n positive.ne'
  have high := Int.emod_lt_of_pos n positive
  rw [truncateInt, UInt64.toNat_ofNat', ← radix, Nat.mod_eq_of_lt (by omega), Int.toNat_of_nonneg low]

theorem truncateInt_add_div (n : Int) : ((truncateInt n).toNat : Int) + radix * (n / radix) = n := by
  rw [toNat_truncateInt, Int.emod_add_mul_ediv]

/-! ## 4. The low words, and carries -/

/-- The number below a position, one word further. -/
theorem mod_radix_pow_succ (n i : Nat) :
    n % radix ^ (i + 1) = n % radix ^ i + radix ^ i * (n / radix ^ i % radix) := by
  rw [pow_succ, Nat.mod_mul]

theorem value_mod_succ (words : List UInt64) (i : Nat) :
    value words % radix ^ (i + 1) = value words % radix ^ i + radix ^ i * (digit words i).toNat := by
  rw [mod_radix_pow_succ, toNat_digit]

@[simp] theorem value_mod_length (words : List UInt64) : value words % radix ^ words.length = value words :=
  Nat.mod_eq_of_lt (value_lt words)

/-- The step of a carry that also takes up the word it replaces. -/
theorem carry_add_step {carry total sum x : Nat} (inside : i < words.length)
    (so_far : value words + radix ^ i * carry = sum) (here : total = x + (digit words i).toNat + carry) :
    value (words.set i (truncate total)) + radix ^ (i + 1) * (total / radix) = sum + radix ^ i * x := by
  have parts := truncate_add_div total
  have replaced := value_set inside (truncate total)
  have weights : radix ^ i * (truncate total).toNat + radix ^ (i + 1) * (total / radix) =
      radix ^ i * x + radix ^ i * (digit words i).toNat + radix ^ i * carry := by
    calc radix ^ i * (truncate total).toNat + radix ^ (i + 1) * (total / radix)
        = radix ^ i * ((truncate total).toNat + radix * (total / radix)) := by ring
      _ = _ := by rw [parts, here]; ring
  omega

/-! ## 5. Windows -/

/-- The words of a range. -/
def window (words : List UInt64) (offset count : Nat) : List UInt64 := (words.drop offset).take count

theorem length_window (h : offset + count ≤ words.length) : (window words offset count).length = count := by
  rw [window, length_take, length_drop]
  omega

theorem digit_window (words : List UInt64) (offset count j : Nat) :
    digit (window words offset count) j = if j < count then digit words (offset + j) else 0 := by
  rw [digit, digit, window, getD_eq_getElem?_getD, getElem?_take]
  split <;> simp [getElem?_drop]

theorem window_set_inside (words : List UInt64) (offset : Nat) (w : UInt64) :
    window (words.set (offset + i) w) offset count = (window words offset count).set i w := by
  rw [window, window, drop_set, if_neg (by omega), take_set, Nat.add_sub_cancel_left]

/-- What is written outside a window leaves it. -/
theorem value_window_congr {words' : List UInt64}
    (h : ∀ j, j < count → digit words' (offset + j) = digit words (offset + j)) :
    value (window words' offset count) = value (window words offset count) := by
  apply value_congr
  intro j
  rw [digit_window, digit_window]
  split
  · exact h j ‹_›
  · rfl

theorem value_window_lt (words : List UInt64) (offset count : Nat) :
    value (window words offset count) < radix ^ count :=
  Nat.lt_of_lt_of_le (value_lt _) (Nat.pow_le_pow_right radix_pos (by
    rw [window, length_take]
    omega))

theorem value_window_add {m : Nat} (n : Nat) (h : offset + m ≤ words.length) : value (window words offset (m + n)) =
      value (window words offset m) + radix ^ m * value (window words (offset + m) n) := by
  have halves : window words offset (m + n) = window words offset m ++ window words (offset + m) n := by
    rw [window, take_add, drop_drop, window, window]
  rw [halves, value_append, length_window h]

@[simp] theorem value_window_zero (words : List UInt64) (offset : Nat) : value (window words offset 0) = 0 := by
  simp [window]

theorem value_window_one (words : List UInt64) (offset : Nat) :
    value (window words offset 1) = (digit words offset).toNat := by
  have single := toNat_digit (window words offset 1) 0
  rw [digit_window, if_pos Nat.one_pos, pow_zero, Nat.div_one, Nat.add_zero] at single
  have small := value_window_lt words offset 1
  rw [pow_one] at small
  rw [single, Nat.mod_eq_of_lt small]

theorem value_window_succ (h : offset + n ≤ words.length) :
    value (window words offset (n + 1)) = value (window words offset n) + radix ^ n * (digit words (offset + n)).toNat := by
  rw [value_window_add 1 h, value_window_one]

theorem window_all (words : List UInt64) : window words 0 words.length = words := by simp [window]

theorem value_window_mod (words : List UInt64) (offset : Nat) (le : i ≤ count) :
    value (window words offset count) % radix ^ i = value (window words offset i) := by
  rw [← value_take, window, take_take, Nat.min_eq_left le, window]

/-- Nothing but the words of a range is written. -/
def Kept (touched : Nat → Prop) (words words' : List UInt64) : Prop :=
  words'.length = words.length ∧ ∀ j, ¬ touched j → digit words' j = digit words j

theorem Kept.refl (touched : Nat → Prop) (words : List UInt64) : Kept touched words words := ⟨rfl, fun _ _ => rfl⟩

variable {touched : Nat → Prop}

theorem Kept.trans {c : List UInt64} (first : Kept touched a b) (second : Kept touched b c) : Kept touched a c :=
  ⟨second.1.trans first.1, fun j h => (second.2 j h).trans (first.2 j h)⟩

theorem Kept.mono {touched' : Nat → Prop} (h : Kept touched a b)
    (le : ∀ j, touched j → touched' j) : Kept touched' a b :=
  ⟨h.1, fun j out => h.2 j fun inside => out (le j inside)⟩

theorem Kept.set (h : Kept touched a b) (inside : touched i) (w : UInt64) : Kept touched a (b.set i w) := by
  refine ⟨by rw [length_set, h.1], fun j out => ?_⟩
  rw [← h.2 j out, digit, digit, getD_eq_getElem?_getD, getElem?_set_ne (by rintro rfl; exact out inside),
    ← getD_eq_getElem?_getD]

/-- **The step of a carry with a sign**, through a window. -/
theorem signed_carry_step {carry total sum x : Int} (inside : offset + i < words.length)
    (so_far : (value (window words offset i) : Int) + radix ^ i * carry = sum) (here : total = x + carry) :
    (value (window (words.set (offset + i) (truncateInt total)) offset (i + 1)) : Int) +
      radix ^ (i + 1) * (total / radix) = sum + radix ^ i * x := by
  have parts := truncateInt_add_div total
  have low : value (window (words.set (offset + i) (truncateInt total)) offset i) = value (window words offset i) :=
    value_window_congr fun j lt => by rw [digit_set inside, if_neg (by omega)]
  rw [value_window_succ (by rw [length_set]; omega), low, digit_set inside, if_pos rfl]
  push_cast
  calc (value (window words offset i) : Int) + radix ^ i * ((truncateInt total).toNat : Int) +
        radix ^ (i + 1) * (total / radix)
      = value (window words offset i) + radix ^ i * (((truncateInt total).toNat : Int) + radix * (total / radix)) := by
        ring
    _ = sum + radix ^ i * x := by
        rw [parts, here, ← so_far]
        ring

/-- A window that is not touched keeps its number. -/
theorem Kept.value_window (h : Kept touched a b) (apart : ∀ j, j < count → ¬ touched (offset + j)) :
    value (window b offset count) = value (window a offset count) :=
  value_window_congr fun j lt => h.2 _ (apart j lt)

/-! ## 6. Trimmed lists -/

/-- The last word of the list is not zero. -/
def Trimmed (words : List UInt64) : Prop := words.getLast? ≠ some 0

instance (words : List UInt64) : Decidable (Trimmed words) := inferInstanceAs (Decidable (_ ≠ _))

theorem Trimmed.digit_ne_zero (h : Trimmed words) (nonempty : words ≠ []) : digit words (words.length - 1) ≠ 0 := by
  have positive : 0 < words.length := length_pos_iff.mpr nonempty
  intro zero
  apply h
  rw [getLast?_eq_getElem?, getElem?_eq_getElem (by omega), ← digit_eq_getElem (by omega), zero]

/-- **A trimmed list is as short as its number allows.** -/
theorem Trimmed.le_value (h : Trimmed words) (nonempty : words ≠ []) :
    radix ^ (words.length - 1) ≤ value words := by
  by_contra small
  exact h.digit_ne_zero nonempty (digit_eq_zero_of_value_lt (Nat.lt_of_not_le small) le_rfl)

theorem Trimmed.length_le (h : Trimmed words) (small : value words < radix ^ n) : words.length ≤ n := by
  by_contra long
  have nonempty : words ≠ [] := by
    intro empty
    simp [empty] at long
  have le := h.le_value nonempty
  have := Nat.pow_le_pow_right radix_pos (show n ≤ words.length - 1 by omega)
  omega

theorem Trimmed.length_eq (ha : Trimmed a) (same : value a = value b) : a.length ≤ b.length :=
  ha.length_le (same ▸ value_lt b)

/-- **A number has one trimmed list of words.** -/
theorem Trimmed.ext (ha : Trimmed a) (hb : Trimmed b) (same : value a = value b) : a = b := by
  refine ext_getElem (Nat.le_antisymm (ha.length_eq same) (hb.length_eq same.symm)) fun i inside inside' => ?_
  rw [← digit_eq_getElem inside, ← digit_eq_getElem inside']
  apply UInt64.toNat_inj.mp
  rw [toNat_digit, toNat_digit, same]

end Bray.Lib
