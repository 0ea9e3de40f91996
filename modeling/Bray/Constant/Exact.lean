/-
  File:      Bray/Constant/Exact.lean
  Subject:   FOLDING EQUALS THE MACHINE: the folded constant is the representative of the exact result in
    the width, and there is none exactly where the machine operation is undefined.

  Every exact result but that of a power has at most 2 * width + 1 bits (`bits_le_*`), so the limit on exact
  results is never met; a power is taken modulo 2 ^ width from the start.
-/
import Bray.Constant.Fold
import Bray.Lib.Check

namespace Bray.Constant

open Bray.Lib

/-! ## 1. The representative -/

/-- The value is in the range of a width and congruent to an exact result. -/
structure Representative (signed : Bool) (width : Nat) (exact value : Int) : Prop where
  inRange : InRange signed width value
  congruent : (2 ^ width : Int) ∣ value - exact

/-- A width is usable: a signed type has at least its sign. -/
def Usable (signed : Bool) (width : Nat) : Prop := signed = true → 0 < width

variable {width : Nat} {value : Int}

theorem InRange.usable {signed : Bool} (h : InRange signed width value) : Usable signed width := by
  intro isSigned
  unfold InRange at h
  rw [isSigned, if_pos rfl] at h
  exact h.1

theorem two_pow_pos (n : Nat) : (0 : Int) < 2 ^ n := Int.pow_pos (by decide)

theorem two_pow_pred (pos : 0 < width) : (2 : Int) ^ width = 2 * 2 ^ (width - 1) := by
  obtain ⟨k, rfl⟩ : ∃ k, width = k + 1 := ⟨_, (Nat.sub_add_cancel pos).symm⟩
  rw [pow_succ, Nat.add_sub_cancel]
  ring

theorem InRange.natAbs_lt {signed : Bool} (h : InRange signed width value) : value.natAbs < 2 ^ width := by
  rw [natAbs_lt_two_pow]
  cases signed with
  | true =>
    obtain ⟨pos, low, high⟩ := h
    have := two_pow_pred pos
    omega
  | false =>
    obtain ⟨low, high⟩ := h
    exact ⟨Int.lt_of_lt_of_le (Int.neg_neg_of_pos (two_pow_pos width)) low, high⟩

/-- The truncated remainder, lifted where it is negative, is the Euclidean one. -/
theorem lifted_tmod (value : Int) {modulus : Int} (pos : 0 < modulus) :
    (if value.tmod modulus < 0 then value.tmod modulus + modulus else value.tmod modulus) = value % modulus := by
  have low := Int.emod_nonneg value (Int.ne_of_gt pos)
  have high := Int.emod_lt_of_pos value pos
  have abs : (modulus.natAbs : Int) = modulus := Int.natAbs_of_nonneg (Int.le_of_lt pos)
  rw [Int.tmod_eq_emod]
  by_cases exact : 0 ≤ value ∨ modulus ∣ value
  · rw [if_pos exact, Nat.cast_zero, Int.sub_zero, if_neg (Int.not_lt.mpr low)]
  · rw [if_neg exact, abs, if_pos (by omega)]
    omega

/-- **Normalizing an integer** gives its representative. -/
theorem reduce_representative (value : Int) (representation : IntegerRepresentation)
    (usable : Usable representation.isSigned width) :
    Representative representation.isSigned width value (reduce value representation width) := by
  have pos := two_pow_pos width
  have low := Int.emod_nonneg value (Int.ne_of_gt pos)
  have high := Int.emod_lt_of_pos value pos
  have whole : (2 ^ width : Int) ∣ value % 2 ^ width - value :=
    ⟨-(value / 2 ^ width), by rw [Int.emod_def]; ring⟩
  unfold reduce
  simp only [lifted_tmod value pos]
  cases signed : representation.isSigned with
  | false =>
    exact ⟨⟨low, high⟩, whole⟩
  | true =>
    have half := two_pow_pred (usable signed)
    simp only [true_and]
    split
    · refine ⟨⟨usable signed, by omega, by omega⟩, ?_⟩
      have := Int.dvd_sub whole (Int.dvd_refl (2 ^ width))
      rwa [show value % 2 ^ width - value - 2 ^ width = value % 2 ^ width - 2 ^ width - value by ring] at this
    · exact ⟨⟨usable signed, by omega, by omega⟩, whole⟩

/-! ## 2. How large exact results are -/

/-- An integer with a sign and so many bits more. -/
def Within (k : Nat) (value : Int) : Prop := -(2 ^ k : Int) ≤ value ∧ value < 2 ^ k

theorem within_ofNat {k m : Nat} : Within k (m : Int) ↔ m < 2 ^ k := by
  unfold Within
  rw [show (2 : Int) ^ k = ((2 ^ k : Nat) : Int) from (Nat.cast_pow 2 k).symm]
  generalize 2 ^ k = p
  omega

theorem within_negSucc {k m : Nat} : Within k (Int.negSucc m) ↔ m < 2 ^ k := by
  unfold Within
  rw [show (2 : Int) ^ k = ((2 ^ k : Nat) : Int) from (Nat.cast_pow 2 k).symm, Int.negSucc_eq]
  generalize 2 ^ k = p
  omega

theorem within_of_natAbs_lt {k : Nat} (h : value.natAbs < 2 ^ k) : Within k value := by
  rw [natAbs_lt_two_pow] at h
  exact ⟨Int.le_of_lt h.1, h.2⟩

theorem Within.natAbs_lt {k : Nat} (h : Within k value) : value.natAbs < 2 ^ (2 * k + 1) := by
  rw [natAbs_lt_two_pow]
  have grows : (2 : Int) ^ k < 2 ^ (2 * k + 1) :=
    Int.pow_lt_pow_of_lt (by decide) (by omega)
  obtain ⟨low, high⟩ := h
  omega

section Bitwise

variable {k : Nat} {left right : Int} (hl : Within k left) (hr : Within k right)

include hl hr

theorem within_land : Within k (left.land right) := by
  cases left with
  | ofNat m =>
    have hm := within_ofNat.mp hl
    cases right with
    | ofNat n => exact within_ofNat.mpr (Nat.and_lt_two_pow m (within_ofNat.mp hr))
    | negSucc n => exact within_ofNat.mpr (Nat.bitwise_lt_two_pow hm (within_negSucc.mp hr))
  | negSucc m =>
    have hm := within_negSucc.mp hl
    cases right with
    | ofNat n => exact within_ofNat.mpr (Nat.bitwise_lt_two_pow (within_ofNat.mp hr) hm)
    | negSucc n => exact within_negSucc.mpr (Nat.or_lt_two_pow hm (within_negSucc.mp hr))

theorem within_lor : Within k (left.lor right) := by
  cases left with
  | ofNat m =>
    have hm := within_ofNat.mp hl
    cases right with
    | ofNat n => exact within_ofNat.mpr (Nat.or_lt_two_pow hm (within_ofNat.mp hr))
    | negSucc n => exact within_negSucc.mpr (Nat.bitwise_lt_two_pow (within_negSucc.mp hr) hm)
  | negSucc m =>
    have hm := within_negSucc.mp hl
    cases right with
    | ofNat n => exact within_negSucc.mpr (Nat.bitwise_lt_two_pow hm (within_ofNat.mp hr))
    | negSucc n => exact within_negSucc.mpr (Nat.and_lt_two_pow m (within_negSucc.mp hr))

theorem within_xor : Within k (left.xor right) := by
  cases left with
  | ofNat m =>
    have hm := within_ofNat.mp hl
    cases right with
    | ofNat n => exact within_ofNat.mpr (Nat.xor_lt_two_pow hm (within_ofNat.mp hr))
    | negSucc n => exact within_negSucc.mpr (Nat.xor_lt_two_pow hm (within_negSucc.mp hr))
  | negSucc m =>
    have hm := within_negSucc.mp hl
    cases right with
    | ofNat n => exact within_negSucc.mpr (Nat.xor_lt_two_pow hm (within_ofNat.mp hr))
    | negSucc n => exact within_ofNat.mpr (Nat.xor_lt_two_pow hm (within_negSucc.mp hr))

end Bitwise

/-- A result below the limit passes it. -/
theorem checkResultBits_integer {limit : Nat} (small : value.natAbs < 2 ^ limit) :
    checkResultBits (integer value) limit = .ok (integer value) := by
  have fits : ¬ limit < (fromBigInteger value).magnitudeBits := by
    rw [magnitudeBits_eq, toBigInteger_fromBigInteger, Nat.not_lt]
    exact Nat.size_le.mpr small
  exact if_neg fits

/-! ## 3. Exact results and undefined operations -/

inductive ExactResult where
  | integer (value : Int)
  | boolean (value : Bool)

/-- The operators of machine integers with two operands. -/
def BoundOperator.isMachineBinary : BoundOperator → Bool
  | .logicalOr | .logicalAnd | .matrixMultiply | .bitwiseNot | .logicalNot => false
  | _ => true

/-- **The exact result** of an operator on two integers. -/
def exactResult (operator : BoundOperator) (left right : Int) : ExactResult :=
  match operator with
  | .add => .integer (left + right)
  | .subtract => .integer (left - right)
  | .multiply => .integer (left * right)
  | .divide => .integer (left.tdiv right)
  | .remainder => .integer (left.tmod right)
  | .bitwiseAnd => .integer (left.land right)
  | .bitwiseOr => .integer (left.lor right)
  | .bitwiseXor => .integer (left.xor right)
  | .shiftLeft => .integer (left * 2 ^ right.toNat)
  | .shiftRight => .integer (left / 2 ^ right.toNat)
  | .exponentiate => .integer (left ^ right.toNat)
  | .equal => .boolean (left = right)
  | .notEqual => .boolean (left ≠ right)
  | .less => .boolean (left < right)
  | .lessEqual => .boolean (left ≤ right)
  | .greater => .boolean (left > right)
  | .greaterEqual => .boolean (left ≥ right)
  | .logicalOr | .logicalAnd | .matrixMultiply | .bitwiseNot | .logicalNot => .boolean false

/-- **The machine operation traps or is undefined.** -/
def Undefined (operator : BoundOperator) (signed : Bool) (width : Nat) (left right : Int) : Prop :=
  match operator with
  | .divide | .remainder => right = 0 ∨ signed = true ∧ left = -(2 ^ (width - 1) : Int) ∧ right = -1
  | .shiftLeft | .shiftRight => right < 0 ∨ (width : Int) ≤ right
  | .exponentiate => right < 0
  | _ => False

/-- A constant stands for an exact result in a width. -/
def Represents (signed : Bool) (width : Nat) : ExactResult → ConstantValueKind → Prop
  | .integer exact, .integer value => Representative signed width exact (toBigInteger value)
  | .boolean exact, .boolean value => value = exact
  | _, _ => False

def ExactResult.kind : ExactResult → ConstantValueKind
  | .integer value => Bray.Constant.integer value
  | .boolean value => .boolean value

/-- Normalizing the constant of an exact result represents the result. -/
theorem represents_normalize (exact : ExactResult) {representation : IntegerRepresentation}
    {targetWidth : NonZeroU16} (usable : Usable representation.isSigned (representation.width targetWidth).toNat) :
    Represents representation.isSigned (representation.width targetWidth).toNat exact
      (normalizeInteger exact.kind representation targetWidth) := by
  cases exact with
  | boolean value => exact rfl
  | integer value =>
    show Representative _ _ value (toBigInteger (fromBigInteger _))
    rw [toBigInteger_fromBigInteger, toBigInteger_fromBigInteger]
    exact reduce_representative value representation usable

/-! ## 4. Shifts -/

theorem ediv_two_pow_of_small {n : Nat} (small : value.natAbs < 2 ^ n) :
    value / 2 ^ n = if value < 0 then -1 else 0 := by
  have pos := two_pow_pos n
  rw [natAbs_lt_two_pow] at small
  split
  · rename_i negative
    have below := Int.ediv_neg_of_neg_of_pos negative pos
    have above : -1 ≤ value / 2 ^ n := Int.le_ediv_of_mul_le pos (by omega)
    omega
  · exact Int.ediv_eq_zero_of_lt (by omega) small.2

section Shifts

variable {value count : Int} {width : Nat} (inside : width < 65536) (low : 0 ≤ count) (high : count < width)

include inside low high

theorem shiftCount_eq (maximum : Nat) : shiftCount count maximum = .ok count.toNat := by
  have fits : 0 ≤ count ∧ count ≤ (usizeMax : Int) := by
    unfold usizeMax
    omega
  exact if_pos fits

theorem shiftLeft_eq (small : value.natAbs < 2 ^ width) :
    shiftLeft value count (width * 2 + 1) = .ok (integer (value * 2 ^ count.toNat)) := by
  unfold shiftLeft
  rw [if_neg (Int.not_lt.mpr low)]
  split
  · rename_i zero
    rw [zero, Int.zero_mul]
  · have short : bits value ≤ width := Nat.size_le.mpr small
    have room : ¬ (width * 2 + 1 < bits value ∨ ((width * 2 + 1 - bits value : Nat) : Int) < count) := by
      omega
    simp [if_neg room, shiftCount_eq inside low high, except_ok_bind]

theorem shiftRight_eq : shiftRight value count = .ok (integer (value / 2 ^ count.toNat)) := by
  unfold shiftRight
  rw [if_neg (Int.not_lt.mpr low)]
  split
  · rename_i short
    have small : value.natAbs < 2 ^ count.toNat := Nat.size_le.mp (by unfold bits at short; omega)
    rw [ediv_two_pow_of_small small]
  · rw [shiftCount_eq inside low high, except_ok_bind]

end Shifts

/-! ## 5. The exact operation meets its limit -/

/-- **The exact operation on operands of a width succeeds** where the machine operation is defined: no
arm that fails is reached, and no result exceeds 2 * width + 1 bits. A power is not computed this way. -/
theorem foldIntegerBinary_eq {operator : BoundOperator} {left right : IntegerConstant} {signed : Bool}
    (binary : operator.isMachineBinary = true) (noPower : operator ≠ .exponentiate)
    (inside : width < 65536) (leftFits : InRange signed width (toBigInteger left))
    (rightFits : operator.typesRight = true → InRange signed width (toBigInteger right))
    (defined : ¬ Undefined operator signed width (toBigInteger left) (toBigInteger right)) :
    foldIntegerBinary operator left right (width * 2 + 1) =
      .ok (exactResult operator (toBigInteger left) (toBigInteger right)).kind := by
  unfold foldIntegerBinary
  revert leftFits rightFits defined
  generalize toBigInteger left = l
  generalize toBigInteger right = r
  intro leftFits rightFits defined
  have hl := leftFits.natAbs_lt
  have wide : 2 ^ width * 2 ^ width ≤ 2 ^ (width * 2 + 1) := by
    rw [← pow_add]
    exact Nat.pow_le_pow_right (by decide) (by omega)
  have twice : 2 ^ width + 2 ^ width ≤ 2 ^ (width * 2 + 1) := by
    rw [← Nat.two_mul, Nat.mul_comm, ← pow_succ]
    exact Nat.pow_le_pow_right (by decide) (by omega)
  have bitwise {v : Int} (h : Within width v) : v.natAbs < 2 ^ (width * 2 + 1) := by
    rw [Nat.mul_comm]
    exact h.natAbs_lt
  cases operator with
  | add | subtract =>
    have hr := (rightFits rfl).natAbs_lt
    exact checkResultBits_integer (by omega)
  | multiply =>
    have hr := (rightFits rfl).natAbs_lt
    refine checkResultBits_integer (Nat.lt_of_lt_of_le ?_ wide)
    rw [Int.natAbs_mul]
    exact Nat.mul_lt_mul'' hl hr
  | divide =>
    have nonzero : r ≠ 0 := fun zero => defined (.inl zero)
    simp only [foldIntegerOperation, if_neg nonzero, except_ok_bind]
    refine checkResultBits_integer ?_
    rw [Int.natAbs_tdiv]
    calc l.natAbs / r.natAbs ≤ l.natAbs := Nat.div_le_self _ _
      _ < 2 ^ (width * 2 + 1) := by omega
  | remainder =>
    have nonzero : r ≠ 0 := fun zero => defined (.inl zero)
    simp only [foldIntegerOperation, if_neg nonzero, except_ok_bind]
    refine checkResultBits_integer ?_
    rw [Int.natAbs_tmod]
    have := Nat.mod_le l.natAbs r.natAbs
    omega
  | bitwiseAnd =>
    have hr := (rightFits rfl).natAbs_lt
    exact checkResultBits_integer (bitwise (within_land (within_of_natAbs_lt hl) (within_of_natAbs_lt hr)))
  | bitwiseOr =>
    have hr := (rightFits rfl).natAbs_lt
    exact checkResultBits_integer (bitwise (within_lor (within_of_natAbs_lt hl) (within_of_natAbs_lt hr)))
  | bitwiseXor =>
    have hr := (rightFits rfl).natAbs_lt
    exact checkResultBits_integer (bitwise (within_xor (within_of_natAbs_lt hl) (within_of_natAbs_lt hr)))
  | shiftLeft =>
    obtain ⟨low, high⟩ := not_or.mp defined
    have count : r.toNat < width := by omega
    simp only [foldIntegerOperation,
      shiftLeft_eq inside (Int.not_lt.mp low) (Int.not_le.mp high) hl, except_ok_bind]
    refine checkResultBits_integer (Nat.lt_of_lt_of_le ?_ wide)
    rw [Int.natAbs_mul, Int.natAbs_pow]
    exact Nat.mul_lt_mul'' hl (Nat.pow_lt_pow_right (by decide) count)
  | shiftRight =>
    obtain ⟨low, high⟩ := not_or.mp defined
    simp only [foldIntegerOperation, shiftRight_eq inside (Int.not_lt.mp low) (Int.not_le.mp high), except_ok_bind]
    refine checkResultBits_integer ?_
    have := Int.natAbs_ediv_le_natAbs l (2 ^ r.toNat)
    omega
  | equal | notEqual | less | lessEqual | greater | greaterEqual => rfl
  | exponentiate => exact absurd rfl noPower
  | logicalOr | logicalAnd | matrixMultiply | bitwiseNot | logicalNot => cases binary

/-! ## 6. Folding -/

section Folding

variable {operator : BoundOperator} {left right operand : IntegerConstant}
  {representation source target : IntegerRepresentation} {role : RepresentationRole} {targetWidth : NonZeroU16}

/-- The operand is in the range of a representation. -/
def Fits (value : IntegerConstant) (representation : IntegerRepresentation) (targetWidth : NonZeroU16) : Prop :=
  InRange representation.isSigned (representation.width targetWidth).toNat (toBigInteger value)

/-- What the fold answers in the defined cases: the constant of the exact result. -/
def folded (operator : BoundOperator) (left right : IntegerConstant)
  (representation : IntegerRepresentation) (targetWidth : NonZeroU16) : ConstantValueKind :=
  normalizeInteger (exactResult operator (toBigInteger left) (toBigInteger right)).kind representation
    targetWidth

/-- Reducing a power modulo the width first makes no difference. -/
theorem reduce_congr {a b : Int} {width : Nat} (same : a % 2 ^ width = b % 2 ^ width) :
    reduce a representation width = reduce b representation width := by
  unfold reduce
  simp only [lifted_tmod _ (two_pow_pos width), same]

theorem foldMachineOperation_eq (binary : operator.isMachineBinary = true)
    (leftFits : Fits left representation targetWidth)
    (rightFits : operator.typesRight = true → Fits right representation targetWidth)
    (defined : ¬ Undefined operator representation.isSigned (representation.width targetWidth).toNat
      (toBigInteger left) (toBigInteger right)) :
    foldMachineOperation operator left right representation targetWidth (representation.width targetWidth) =
      .ok (some (folded operator left right representation targetWidth)) := by
  unfold foldMachineOperation
  by_cases power : operator = .exponentiate
  · subst power
    have low : ¬ toBigInteger right < 0 := defined
    simp only [if_true, if_neg low, folded, exactResult, ExactResult.kind]
    refine congrArg (fun kind => Except.ok (some kind)) ?_
    simp only [integer, normalizeInteger, toBigInteger_fromBigInteger, modpow]
    rw [reduce_congr (Int.emod_emod_of_dvd _ (Int.dvd_refl _))]
  · have inside : (representation.width targetWidth).toNat < 65536 := UInt16.toNat_lt _
    have exact := foldIntegerBinary_eq binary power inside leftFits rightFits defined
    simp only [if_neg power, foldBinary, exact, folded]

/-- The division test, of operands in range. -/
theorem minimumByMinusOne_eq (leftFits : Fits left representation targetWidth) :
    ∃ answer, minimumByMinusOne operator left right representation (representation.width targetWidth) = .ok answer ∧
      (answer = true ↔ (operator = .divide ∨ operator = .remainder) ∧ representation.isSigned = true ∧
        toBigInteger left = -(2 ^ ((representation.width targetWidth).toNat - 1) : Int) ∧
        toBigInteger right = -1) := by
  unfold minimumByMinusOne
  by_cases division : (operator = .divide ∨ operator = .remainder) ∧ representation.isSigned = true
  · have wide : representation.width targetWidth ≠ 0 := by
      have pos := leftFits.usable division.2
      exact fun zero => Nat.lt_irrefl 0 (by rw [zero] at pos; exact pos)
    rw [if_pos division, if_neg wide]
    refine ⟨_, rfl, ?_⟩
    simp [division.1, division.2]
  · rw [if_neg division]
    refine ⟨false, rfl, ?_⟩
    simp only [Bool.false_eq_true, false_iff]
    exact fun h => division ⟨h.1, h.2.1⟩

/-- A division of the minimum by -1 and a shift out of range are undefined; so is everything else that the
checks before the operation leave, but a division by zero and a negative exponent. -/
theorem foldMachineIntegerBinary_spec (binary : operator.isMachineBinary = true)
    (leftFits : Fits left representation targetWidth)
    (rightFits : operator.typesRight = true → Fits right representation targetWidth) :
    ∃ result, foldMachineIntegerBinary operator left right representation targetWidth = .ok result ∧
      (result = none ↔ Undefined operator representation.isSigned
        (representation.width targetWidth).toNat (toBigInteger left) (toBigInteger right)) ∧
      ∀ kind, result = some kind → Represents representation.isSigned (representation.width targetWidth).toNat
        (exactResult operator (toBigInteger left) (toBigInteger right)) kind := by
  have leftChecked : fitsIntegerRepresentation left representation targetWidth = true :=
    (fits_iff _ _ _).mpr leftFits
  have rightChecked : ¬ (operator.typesRight = true ∧
    ¬ fitsIntegerRepresentation right representation targetWidth = true) :=
    fun ⟨typed, misfit⟩ => misfit ((fits_iff _ _ _).mpr (rightFits typed))
  obtain ⟨minimum, tested, minimum_iff⟩ :=
    @minimumByMinusOne_eq operator left right _ _ leftFits
  unfold foldMachineIntegerBinary
  rw [if_neg (not_not.mpr leftChecked), if_neg rightChecked]
  simp only [tested, except_ok_bind]
  by_cases undefined : Undefined operator representation.isSigned (representation.width targetWidth).toNat
    (toBigInteger left) (toBigInteger right)
  · suffices none : (if minimum = true then Except.ok none
      else if shiftOutOfRange operator right (representation.width targetWidth) = true then .ok none
      else foldMachineOperation operator left right representation targetWidth
        (representation.width targetWidth)) = (.ok none : Except Panic (Option ConstantValueKind)) from
      ⟨Option.none, none, by simp [undefined], nofun⟩
    split
    · rfl
    rename_i notMinimum
    split
    · rfl
    rename_i inRange
    cases operator with
    | divide =>
      rcases undefined with zero | overflow
      · simp [foldMachineOperation, foldBinary, foldIntegerBinary, foldIntegerOperation, zero]
      · exact absurd (minimum_iff.mpr ⟨.inl rfl, overflow⟩) notMinimum
    | remainder =>
      rcases undefined with zero | overflow
      · simp [foldMachineOperation, foldBinary, foldIntegerBinary, foldIntegerOperation, zero]
      · exact absurd (minimum_iff.mpr ⟨.inr rfl, overflow⟩) notMinimum
    | shiftLeft | shiftRight => exact absurd (by simpa [shiftOutOfRange, Undefined] using undefined) inRange
    | exponentiate =>
      have negative : toBigInteger right < 0 := undefined
      simp [foldMachineOperation, negative]
    | _ => exact absurd undefined id
  · have notMinimum : ¬ minimum = true := fun h => by
      obtain ⟨division, signed, low, one⟩ := minimum_iff.mp h
      rcases division with rfl | rfl
      · exact undefined (.inr ⟨signed, low, one⟩)
      · exact undefined (.inr ⟨signed, low, one⟩)
    have inRange : ¬ shiftOutOfRange operator right (representation.width targetWidth) = true := fun h => by
      cases operator with
      | shiftLeft | shiftRight => exact undefined (by simpa [shiftOutOfRange, Undefined] using h)
      | _ => simp [shiftOutOfRange] at h
    rw [if_neg notMinimum, if_neg inRange, foldMachineOperation_eq binary leftFits rightFits undefined]
    refine ⟨_, rfl, by simp [undefined], fun kind same => ?_⟩
    cases same
    exact represents_normalize _ leftFits.usable

theorem lnot_eq (value : Int) : value.lnot = -value - 1 := by
  cases value with
  | ofNat m =>
    show Int.negSucc m = -(m : Int) - 1
    omega
  | negSucc m =>
    show (m : Int) = -Int.negSucc m - 1
    omega

/-- The complement within a mask. -/
theorem ldiff_two_pow_sub_one {m width : Nat} (small : m < 2 ^ width) :
    Nat.ldiff (2 ^ width - 1) m = 2 ^ width - (m + 1) := by
  refine Nat.eq_of_testBit_eq fun i => ?_
  rw [Nat.testBit_ldiff, Nat.testBit_two_pow_sub_one, Nat.testBit_two_pow_sub_succ small]

/-- The unsigned complement is congruent to the complement. -/
theorem unsignedNot_congruent {value : Int} {width : UInt16} (low : 0 ≤ value) (high : value < 2 ^ width.toNat) :
    unsignedNot value width % 2 ^ width.toNat = (-value - 1) % 2 ^ width.toNat := by
  obtain ⟨m, rfl⟩ := Int.eq_ofNat_of_zero_le low
  have small : m < 2 ^ width.toNat := by exact_mod_cast high
  have mask : (2 ^ width.toNat - 1 : Int) = ((2 ^ width.toNat - 1 : Nat) : Int) := by
    have := Nat.two_pow_pos width.toNat
    push_cast [Nat.cast_sub this]
    rfl
  have complement : unsignedNot m width = ((2 ^ width.toNat - (m + 1) : Nat) : Int) := by
    unfold unsignedNot
    rw [mask, ← ldiff_two_pow_sub_one small]
    rfl
  rw [complement]
  have total : ((2 ^ width.toNat - (m + 1) : Nat) : Int) = -(m : Int) - 1 + 2 ^ width.toNat := by
    rw [Nat.cast_sub small]
    push_cast
    ring
  rw [total, Int.add_emod_right]

/-- The exact result of an operator with one operand. -/
def exactUnary (operator : BoundOperator) (value : Int) : Int :=
  if operator = .bitwiseNot then -value - 1 else -value

theorem represents_of_congruent {value exact : Int}
    (usable : Usable representation.isSigned (representation.width targetWidth).toNat)
    (same : value % 2 ^ (representation.width targetWidth).toNat =
      exact % 2 ^ (representation.width targetWidth).toNat) :
    Represents representation.isSigned (representation.width targetWidth).toNat (.integer exact)
      (normalizeInteger (integer value) representation targetWidth) := by
  show Representative _ _ exact (toBigInteger (fromBigInteger _))
  rw [toBigInteger_fromBigInteger, toBigInteger_fromBigInteger, reduce_congr same]
  exact reduce_representative exact representation usable

theorem foldMachineIntegerUnary_spec (typed : role.integerRepresentation = some representation)
    (known : operator = .subtract ∨ operator = .bitwiseNot) (fits : Fits operand representation targetWidth) :
    ∃ kind, foldMachineIntegerUnary operator operand role targetWidth = .ok kind ∧
      Represents representation.isSigned (representation.width targetWidth).toNat
        (.integer (exactUnary operator (toBigInteger operand))) kind := by
  have checked : fitsIntegerRepresentation operand representation targetWidth = true :=
    (fits_iff _ _ _).mpr fits
  have allowed : ¬ (operator ≠ .subtract ∧ operator ≠ .bitwiseNot) := by
    intro ⟨notSubtract, notComplement⟩
    exact known.elim notSubtract notComplement
  unfold foldMachineIntegerUnary
  simp only [typed, if_neg (not_not.mpr checked), if_neg allowed]
  rcases known with rfl | rfl
  · refine ⟨_, rfl, ?_⟩
    show Representative _ _ (-toBigInteger operand) (toBigInteger (fromBigInteger _))
    rw [toBigInteger_fromBigInteger, toBigInteger_negated]
    exact reduce_representative _ representation fits.usable
  · have folded : foldUnary .bitwiseNot (.integer operand) (some role) targetWidth =
      .ok (integer (bitwiseNot operand representation targetWidth)) := by
      simp [foldUnary, foldNumericSign, typed]
    rw [folded]
    refine ⟨_, rfl, represents_of_congruent fits.usable ?_⟩
    have exact : exactUnary .bitwiseNot (toBigInteger operand) = -toBigInteger operand - 1 := if_pos rfl
    rw [exact]
    cases representation with
    | signed width => rw [bitwiseNot, lnot_eq]
    | targetSigned => rw [bitwiseNot, lnot_eq]
    | unsigned width | targetUnsigned => exact unsignedNot_congruent fits.1 fits.2

theorem foldMachineIntegerTruncate_spec (fits : Fits operand source targetWidth)
    (usable : Usable target.isSigned (target.width targetWidth).toNat) :
    ∃ kind, foldMachineIntegerTruncate operand source target targetWidth = .ok kind ∧
      Represents target.isSigned (target.width targetWidth).toNat (.integer (toBigInteger operand)) kind := by
  have checked : fitsIntegerRepresentation operand source targetWidth = true := (fits_iff _ _ _).mpr fits
  unfold foldMachineIntegerTruncate
  rw [if_neg (not_not.mpr checked)]
  refine ⟨_, rfl, ?_⟩
  show Representative _ _ (toBigInteger operand) (toBigInteger (fromBigInteger _))
  rw [toBigInteger_fromBigInteger]
  exact reduce_representative _ target usable

end Folding

/-- **MACHINE-INTEGER FOLDING IS TWO'S-COMPLEMENT ARITHMETIC**, for every representation and all operands in
range (any exponent and any shift count): no assertion fails, a binary operation has no result exactly where
the machine operation is undefined, and every result is the representative of the exact one, or the exact
comparison. -/
theorem machine_integer_folding (targetWidth : NonZeroU16) (representation : IntegerRepresentation) :
    (∀ operator left right, operator.isMachineBinary = true → Fits left representation targetWidth →
      (operator.typesRight = true → Fits right representation targetWidth) →
      ∃ result, foldMachineIntegerBinary operator left right representation targetWidth = .ok result ∧
        (result = none ↔ Undefined operator representation.isSigned
          (representation.width targetWidth).toNat (toBigInteger left) (toBigInteger right)) ∧
        ∀ kind, result = some kind → Represents representation.isSigned (representation.width targetWidth).toNat
          (exactResult operator (toBigInteger left) (toBigInteger right)) kind) ∧
    (∀ operator operand role, role.integerRepresentation = some representation →
      operator = .subtract ∨ operator = .bitwiseNot → Fits operand representation targetWidth →
      ∃ kind, foldMachineIntegerUnary operator operand role targetWidth = .ok kind ∧
        Represents representation.isSigned (representation.width targetWidth).toNat
          (.integer (exactUnary operator (toBigInteger operand))) kind) ∧
    (∀ operand source, Fits operand source targetWidth →
      Usable representation.isSigned (representation.width targetWidth).toNat →
      ∃ kind, foldMachineIntegerTruncate operand source representation targetWidth = .ok kind ∧
        Represents representation.isSigned (representation.width targetWidth).toNat
          (.integer (toBigInteger operand)) kind) :=
  ⟨fun _ _ _ binary leftFits rightFits => foldMachineIntegerBinary_spec binary leftFits rightFits,
    fun _ _ _ typed known fits => foldMachineIntegerUnary_spec typed known fits,
    fun _ _ fits usable => foldMachineIntegerTruncate_spec fits usable⟩

/-- The minimum of eight signed bits, shifted right by seven: there is a result, and it represents -1. -/
theorem machine_integer_folding_shift : Fits (fromBigInteger (-128)) (.signed 8) ⟨64, by decide⟩ ∧
    ∃ result, foldMachineIntegerBinary .shiftRight (fromBigInteger (-128)) (fromBigInteger 7) (.signed 8)
      ⟨64, by decide⟩ = .ok result ∧ (result = none ↔ Undefined .shiftRight true 8 (-128) 7) ∧
      ∀ kind, result = some kind → Represents true 8 (exactResult .shiftRight (-128) 7) kind := by
  have fits : Fits (fromBigInteger (-128)) (.signed 8) ⟨64, by decide⟩ := by
    unfold Fits
    decide
  have folding := (machine_integer_folding ⟨64, by decide⟩ (.signed 8)).1 .shiftRight (fromBigInteger (-128))
    (fromBigInteger 7) rfl fits nofun
  exact ⟨fits, folding⟩

end Bray.Constant
