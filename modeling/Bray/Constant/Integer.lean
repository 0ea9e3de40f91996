/-
  File:      Bray/Constant/Integer.lean
  Subject:   INTEGER CONSTANTS (value/constant.rs, constant/integer.rs): a sign and a big-endian magnitude
    without leading zeros, and the test that one fits a machine representation.

  The magnitude is canonical by construction. Reading it as an integer (`toBigInteger`) undoes writing an
  integer (`fromBigInteger`), the number of its significant bits is that of the integer, and the test that
  looks at bits and bytes is the test of the range (`fits_iff`).
-/
import Mathlib.Data.Nat.Size
import Mathlib.Data.Nat.Digits.Defs
import Mathlib.Tactic.IntervalCases

namespace Bray.Constant

open List

inductive IntegerSign where
  | nonNegative
  | negative
  deriving DecidableEq

/-- A canonical integer: no leading zero byte, and no negative zero. -/
structure IntegerConstant where
  sign : IntegerSign
  magnitude : List UInt8
  canonical : magnitude.head? ≠ some 0 ∧ (magnitude = [] → sign = .nonNegative)
  deriving DecidableEq

def leadingZeros (byte : UInt8) : Nat := 8 - byte.toNat.size

def countOnes (byte : UInt8) : Nat := (List.range 8).countP fun i => byte.toNat.testBit i

/-- The number that big-endian bytes spell. -/
def beValue : List UInt8 → Nat
  | [] => 0
  | byte :: bytes => byte.toNat * 256 ^ bytes.length + beValue bytes

/-- The big-endian bytes of a number, without leading zeros. -/
def beBytes (value : Nat) : List UInt8 := ((Nat.digits 256 value).map UInt8.ofNat).reverse

namespace IntegerConstant

theorem head?_dropWhile_zero (bytes : List UInt8) : (bytes.dropWhile (· == 0)).head? ≠ some 0 := by
  induction bytes with
  | nil => simp
  | cons byte bytes ih =>
    rw [dropWhile_cons]
    split
    · exact ih
    · rename_i nonzero
      simpa using nonzero

/-- A sign and a big-endian magnitude, made canonical. -/
def new (sign : IntegerSign) (bytes : List UInt8) : IntegerConstant where
  sign := if (bytes.dropWhile (· == 0)).isEmpty then .nonNegative else sign
  magnitude := bytes.dropWhile (· == 0)
  canonical := ⟨head?_dropWhile_zero bytes, fun empty => by rw [empty]; rfl⟩

def isZero (value : IntegerConstant) : Bool := value.magnitude.isEmpty

/-- The exact additive inverse, preserving canonical zero. -/
def negated (value : IntegerConstant) : IntegerConstant where
  sign := if value.isZero || value.sign = .negative then .nonNegative else .negative
  magnitude := value.magnitude
  canonical := ⟨value.canonical.1, fun empty => by simp [isZero, empty]⟩

def magnitudeBits (value : IntegerConstant) : Nat :=
  match value.magnitude with
  | [] => 0
  | first :: rest => (first :: rest).length * 8 - leadingZeros first

end IntegerConstant

def toBigInteger (value : IntegerConstant) : Int :=
  match value.sign with
  | .nonNegative => beValue value.magnitude
  | .negative => -(beValue value.magnitude : Int)

def fromBigInteger (value : Int) : IntegerConstant :=
  .new (if value < 0 then .negative else .nonNegative) (beBytes value.natAbs)

/-! ## 1. Widths -/

inductive IntegerRepresentation where
  | signed (width : UInt16)
  | unsigned (width : UInt16)
  | targetSigned
  | targetUnsigned

abbrev NonZeroU16 := { width : UInt16 // width ≠ 0 }

namespace IntegerRepresentation

def isSigned : IntegerRepresentation → Bool
  | .signed _ | .targetSigned => true
  | .unsigned _ | .targetUnsigned => false

def width (representation : IntegerRepresentation) (targetWidth : NonZeroU16) : UInt16 :=
  match representation with
  | .signed width | .unsigned width => width
  | .targetSigned | .targetUnsigned => targetWidth.val

end IntegerRepresentation

def isPowerOfTwo (magnitude : List UInt8) : Bool := (magnitude.map countOnes).sum == 1

def fitsSigned (value : IntegerConstant) (width : Nat) : Bool :=
  let bits := value.magnitudeBits
  match value.sign with
  | .nonNegative => bits < width
  | .negative => bits < width || bits == width && isPowerOfTwo value.magnitude

def fitsIntegerRepresentation (value : IntegerConstant) (representation : IntegerRepresentation)
  (targetWidth : NonZeroU16) : Bool :=
  let width := (representation.width targetWidth).toNat
  if representation.isSigned then fitsSigned value width
  else value.sign == .nonNegative && value.magnitudeBits ≤ width

/-- The values of a machine representation. -/
def InRange (signed : Bool) (width : Nat) (value : Int) : Prop :=
  if signed then 0 < width ∧ -(2 ^ (width - 1) : Int) ≤ value ∧ value < 2 ^ (width - 1)
  else 0 ≤ value ∧ value < 2 ^ width

instance (signed : Bool) (width : Nat) (value : Int) : Decidable (InRange signed width value) := by
  unfold InRange
  infer_instance

/-! ## 2. Bytes and numbers -/

theorem beValue_lt (bytes : List UInt8) : beValue bytes < 256 ^ bytes.length := by
  induction bytes with
  | nil => exact Nat.one_pos
  | cons byte bytes ih =>
    have small := byte.toNat_lt
    calc byte.toNat * 256 ^ bytes.length + beValue bytes
      < byte.toNat * 256 ^ bytes.length + 256 ^ bytes.length := Nat.add_lt_add_left ih _
      _ = (byte.toNat + 1) * 256 ^ bytes.length := by ring
      _ ≤ 256 * 256 ^ bytes.length := Nat.mul_le_mul_right _ small
      _ = 256 ^ bytes.length * 256 := Nat.mul_comm _ _

theorem beValue_append (front back : List UInt8) :
    beValue (front ++ back) = beValue front * 256 ^ back.length + beValue back := by
  induction front with
  | nil => simp [beValue]
  | cons byte front ih =>
    rw [cons_append, beValue, ih, beValue, length_append, pow_add]
    ring

theorem beValue_dropWhile_zero (bytes : List UInt8) : beValue (bytes.dropWhile (· == 0)) = beValue bytes := by
  induction bytes with
  | nil => rfl
  | cons byte bytes ih =>
    rw [dropWhile_cons]
    split
    · rename_i zero
      have : byte = 0 := by simpa using zero
      rw [ih, beValue, this]
      simp
    · rfl

/-- The bytes of a number spell it. -/
theorem beValue_beBytes (value : Nat) : beValue (beBytes value) = value := by
  have digits (ds : List Nat) (small : ∀ d ∈ ds, d < 256) :
    beValue (ds.map UInt8.ofNat).reverse = Nat.ofDigits 256 ds := by
    induction ds with
    | nil => rfl
    | cons d ds ih =>
      have byte : (UInt8.ofNat d).toNat = d := by
        exact Nat.mod_eq_of_lt (small d (.head _))
      rw [map_cons, reverse_cons, beValue_append,
        ih fun d hd => small d (.tail _ hd), Nat.ofDigits_cons]
      simp [beValue, byte]
      ring
  rw [beBytes, digits _ fun d hd => Nat.digits_lt_base (by decide) hd, Nat.ofDigits_digits]

@[simp] theorem toBigInteger_new_nonNegative (bytes : List UInt8) :
    toBigInteger (.new .nonNegative bytes) = beValue bytes := by
  have : (IntegerConstant.new .nonNegative bytes).sign = .nonNegative := by
    simp [IntegerConstant.new]
  rw [toBigInteger, this]
  exact congrArg _ (beValue_dropWhile_zero bytes)

@[simp] theorem toBigInteger_new_negative (bytes : List UInt8) :
    toBigInteger (.new .negative bytes) = -(beValue bytes : Int) := by
  have same := beValue_dropWhile_zero bytes
  unfold toBigInteger IntegerConstant.new
  simp only
  cases empty : (bytes.dropWhile (· == 0)) with
  | nil =>
    rw [empty] at same
    rw [← same]
    rfl
  | cons first rest =>
    rw [empty] at same
    rw [← same]
    rfl

/-- **Reading undoes writing.** -/
@[simp] theorem toBigInteger_fromBigInteger (value : Int) : toBigInteger (fromBigInteger value) = value := by
  unfold fromBigInteger
  split
  · rw [toBigInteger_new_negative, beValue_beBytes]
    omega
  · rw [toBigInteger_new_nonNegative, beValue_beBytes]
    omega

theorem toBigInteger_natAbs (value : IntegerConstant) : (toBigInteger value).natAbs = beValue value.magnitude := by
  unfold toBigInteger
  split <;> simp

/-- The magnitude of a canonical integer is empty only for zero. -/
theorem beValue_eq_zero (value : IntegerConstant) : beValue value.magnitude = 0 ↔ value.magnitude = [] := by
  constructor
  · intro zero
    cases bytes : value.magnitude with
    | nil => rfl
    | cons first rest =>
      have nonzero : first ≠ 0 := by
        have := value.canonical.1
        rw [bytes] at this
        exact fun h => this (congrArg some h)
      have pos : 0 < first.toNat := Nat.pos_of_ne_zero fun h => nonzero (UInt8.toNat_inj.mp h)
      rw [bytes, beValue] at zero
      have := Nat.mul_pos pos (Nat.pow_pos (n := rest.length) (show 0 < 256 by decide))
      omega
  · intro empty
    rw [empty]
    rfl

@[simp] theorem toBigInteger_negated (value : IntegerConstant) :
    toBigInteger value.negated = -toBigInteger value := by
  unfold toBigInteger IntegerConstant.negated IntegerConstant.isZero
  simp only
  cases sign : value.sign with
  | nonNegative =>
    cases bytes : value.magnitude with
    | nil => rfl
    | cons first rest => rfl
  | negative => simp

/-- **The significant bits of the magnitude are those of the number.** -/
theorem magnitudeBits_eq (value : IntegerConstant) : value.magnitudeBits = (toBigInteger value).natAbs.size := by
  rw [toBigInteger_natAbs]
  unfold IntegerConstant.magnitudeBits
  cases bytes : value.magnitude with
  | nil => rfl
  | cons first rest =>
    have nonzero : first ≠ 0 := by
      have := value.canonical.1
      rw [bytes] at this
      exact fun h => this (congrArg some h)
    have pos : 0 < first.toNat := Nat.pos_of_ne_zero fun h => nonzero (UInt8.toNat_inj.mp h)
    have small : first.toNat.size ≤ 8 := Nat.size_le.mpr first.toNat_lt
    have some_bit : 0 < first.toNat.size := Nat.size_pos.mpr pos
    obtain ⟨k, top⟩ : ∃ k, first.toNat.size = k + 1 := ⟨_, (Nat.sub_add_cancel some_bit).symm⟩
    have low : 2 ^ k ≤ first.toNat := Nat.lt_size.mp (by omega)
    have high : first.toNat < 2 ^ (k + 1) := Nat.size_le.mp (Nat.le_of_eq top)
    have tail := beValue_lt rest
    have base : 256 ^ rest.length = 2 ^ (8 * rest.length) := by
      rw [Nat.pow_mul]
    have size : (beValue (first :: rest)).size = 8 * rest.length + (k + 1) := by
      refine Nat.le_antisymm (Nat.size_le.mpr ?_) (Nat.lt_size.mpr ?_)
      · rw [beValue, pow_add, ← base]
        calc first.toNat * 256 ^ rest.length + beValue rest
          < first.toNat * 256 ^ rest.length + 256 ^ rest.length := Nat.add_lt_add_left tail _
          _ = 256 ^ rest.length * (first.toNat + 1) := by ring
          _ ≤ 256 ^ rest.length * 2 ^ (k + 1) := Nat.mul_le_mul_left _ high
      · show 2 ^ (8 * rest.length + k) ≤ _
        rw [pow_add, ← base, beValue]
        calc 256 ^ rest.length * 2 ^ k ≤ 256 ^ rest.length * first.toNat := Nat.mul_le_mul_left _ low
          _ = first.toNat * 256 ^ rest.length := Nat.mul_comm _ _
          _ ≤ _ := Nat.le_add_right _ _
    show (first :: rest).length * 8 - (8 - first.toNat.size) = _
    rw [length_cons, top]
    omega

/-! ## 3. Powers of two -/

/-- The one bits of a number. -/
def ones (value : Nat) : Nat := (Nat.digits 2 value).sum

theorem ones_step (value : Nat) : ones value = value % 2 + ones (value / 2) := by
  cases value with
  | zero => rfl
  | succ value =>
    unfold ones
    rw [Nat.digits_def' (by decide) (Nat.succ_pos value), sum_cons]

/-- The one bits of two numbers of which one stands above the other. -/
theorem ones_append (high low k : Nat) (small : low < 2 ^ k) :
    ones (high * 2 ^ k + low) = ones high + ones low := by
  induction k generalizing low with
  | zero =>
    have : low = 0 := by simpa using small
    rw [this]
    simp [ones]
  | succ k ih =>
    have even : high * 2 ^ (k + 1) = 2 * (high * 2 ^ k) := by ring
    rw [ones_step, ones_step low, show (high * 2 ^ (k + 1) + low) % 2 = low % 2 by omega,
      show (high * 2 ^ (k + 1) + low) / 2 = high * 2 ^ k + low / 2 by omega,
      ih (low / 2) (by rw [pow_succ] at small; omega)]
    omega

theorem ones_beValue (bytes : List UInt8) : ones (beValue bytes) = (bytes.map countOnes).sum := by
  have byte_ones : ∀ n : Fin 256, ones n = (List.range 8).countP fun i => n.val.testBit i := by
    decide +kernel
  induction bytes with
  | nil => rfl
  | cons byte bytes ih =>
    have small := beValue_lt bytes
    rw [show 256 ^ bytes.length = 2 ^ (8 * bytes.length) by rw [Nat.pow_mul]] at small
    rw [beValue, show 256 ^ bytes.length = 2 ^ (8 * bytes.length) by rw [Nat.pow_mul],
      ones_append _ _ _ small, ih, map_cons, sum_cons]
    exact congrArg (· + _) (byte_ones ⟨byte.toNat, byte.toNat_lt⟩)

theorem ones_pos {value : Nat} (pos : 0 < value) : 0 < ones value := by
  induction value using Nat.strongRecOn with
  | ind value ih =>
    rw [ones_step]
    by_cases odd : value % 2 = 0
    · have := ih (value / 2) (by omega) (by omega)
      omega
    · omega

/-- **A number with a single one bit** is the power of two of its size. -/
theorem ones_eq_one {value : Nat} : ones value = 1 ↔ 0 < value ∧ value = 2 ^ (value.size - 1) := by
  induction value using Nat.strongRecOn with
  | ind value ih =>
    by_cases zero : value = 0
    · subst zero
      simp [ones]
    have pos : 0 < value := Nat.pos_of_ne_zero zero
    obtain ⟨k, top⟩ : ∃ k, value.size = k + 1 :=
      ⟨_, (Nat.sub_add_cancel (Nat.size_pos.mpr pos)).symm⟩
    have low : 2 ^ k ≤ value := Nat.lt_size.mp (by omega)
    have high : value < 2 ^ (k + 1) := Nat.size_le.mp (Nat.le_of_eq top)
    rw [top, Nat.add_sub_cancel]
    obtain ⟨rest, split⟩ := Nat.exists_eq_add_of_le low
    have below : rest < 2 ^ k := by
      omega
    have count : ones value = 1 + ones rest := by
      have := ones_append 1 rest k below
      rwa [Nat.one_mul, ← split] at this
    rw [count]
    rcases Nat.eq_zero_or_pos rest with none | some
    · subst none
      simp [ones, split]
    · have := ones_pos some
      omega

theorem isPowerOfTwo_iff (value : IntegerConstant) : isPowerOfTwo value.magnitude = true ↔
    0 < (toBigInteger value).natAbs ∧ (toBigInteger value).natAbs = 2 ^ ((toBigInteger value).natAbs.size - 1) := by
  rw [toBigInteger_natAbs, ← ones_eq_one, ones_beValue]
  simp [isPowerOfTwo]

/-! ## 4. The range test -/

theorem sign_eq_nonNegative (value : IntegerConstant) : value.sign = .nonNegative ↔ 0 ≤ toBigInteger value := by
  unfold toBigInteger
  cases sign : value.sign with
  | nonNegative => simp
  | negative =>
    have some : value.magnitude ≠ [] := fun empty => by
      have := value.canonical.2 empty
      rw [sign] at this
      cases this
    have : beValue value.magnitude ≠ 0 := fun zero => some ((beValue_eq_zero value).mp zero)
    simp only [reduceCtorEq, false_iff]
    omega

theorem natAbs_lt_two_pow {x : Int} {n : Nat} : x.natAbs < 2 ^ n ↔ -(2 ^ n : Int) < x ∧ x < 2 ^ n := by
  rw [show (2 : Int) ^ n = ((2 ^ n : Nat) : Int) from (Nat.cast_pow 2 n).symm]
  generalize 2 ^ n = p
  omega

theorem natAbs_eq_two_pow {x : Int} {n : Nat} (negative : x < 0) : x.natAbs = 2 ^ n ↔ x = -(2 ^ n : Int) := by
  rw [show (2 : Int) ^ n = ((2 ^ n : Nat) : Int) from (Nat.cast_pow 2 n).symm]
  generalize 2 ^ n = p
  omega

theorem fitsSigned_iff (value : IntegerConstant) (width : Nat) :
    fitsSigned value width = true ↔ InRange true width (toBigInteger value) := by
  have bits := magnitudeBits_eq value
  unfold fitsSigned InRange
  cases width with
  | zero =>
    simp only [Nat.lt_irrefl, false_and, if_true, iff_false]
    cases sign : value.sign with
    | nonNegative => simp
    | negative =>
      have power := isPowerOfTwo_iff value
      simp only [Nat.not_lt_zero, decide_false, Bool.false_or, Bool.and_eq_true, beq_iff_eq, power]
      intro ⟨empty, positive, _⟩
      rw [bits, Nat.size_eq_zero] at empty
      omega
  | succ k =>
    have short : value.magnitudeBits < k + 1 ↔
      -(2 ^ k : Int) < toBigInteger value ∧ toBigInteger value < 2 ^ k := by
      rw [Nat.lt_succ_iff, bits, Nat.size_le, natAbs_lt_two_pow]
    simp only [Nat.succ_pos, true_and, if_true, Nat.add_sub_cancel]
    cases sign : value.sign with
    | nonNegative =>
      have := (sign_eq_nonNegative value).mp sign
      simp only [decide_eq_true_eq, short]
      omega
    | negative =>
      have below : toBigInteger value < 0 := by
        refine Int.not_le.mp fun h => ?_
        rw [(sign_eq_nonNegative value).mpr h] at sign
        cases sign
      have minimum : (value.magnitudeBits = k + 1 ∧ isPowerOfTwo value.magnitude = true) ↔
        toBigInteger value = -(2 ^ k : Int) := by
        rw [isPowerOfTwo_iff, bits, ← natAbs_eq_two_pow below]
        constructor
        · intro ⟨top, _, power⟩
          rwa [top, Nat.add_sub_cancel] at power
        · intro power
          have top : (toBigInteger value).natAbs.size = k + 1 := by rw [power, Nat.size_pow]
          exact ⟨top, by omega, by rw [top, Nat.add_sub_cancel, power]⟩
      simp only [Bool.or_eq_true, Bool.and_eq_true, beq_iff_eq, decide_eq_true_eq, short, minimum]
      omega

/-- **The range test** on bits and bytes is the range of the representation. -/
theorem fits_iff (value : IntegerConstant) (representation : IntegerRepresentation)
    (targetWidth : NonZeroU16) : fitsIntegerRepresentation value representation targetWidth = true ↔
      InRange representation.isSigned (representation.width targetWidth).toNat (toBigInteger value) := by
  unfold fitsIntegerRepresentation
  cases representation.isSigned with
  | true => exact fitsSigned_iff value _
  | false =>
    simp only [Bool.false_eq_true, if_false, Bool.and_eq_true, beq_iff_eq, decide_eq_true_eq,
      sign_eq_nonNegative, magnitudeBits_eq, Nat.size_le, natAbs_lt_two_pow]
    constructor
    · exact fun h => ⟨h.1, h.2.2⟩
    · exact fun h => ⟨h.1, Int.lt_of_lt_of_le (Int.neg_neg_of_pos (Int.pow_pos (by decide))) h.1, h.2⟩

end Bray.Constant
