/-
  File:      Bray/Guarantee/Arithmetic.lean
  Subject:   INTERVAL ARITHMETIC (analysis/guarantee/integer/arithmetic.rs): the bounds of a built-in operation
    on two intervals, and that they hold.

  Each branch names the values that span the results: the sums and differences of the ends, the corners where
  the operation goes one way in each operand, and for powers the two outermost exponents of either parity.
  Big integers are integers; their conversions to machine widths and the budget only ever refuse.
-/
import Bray.Guarantee.Condition
import Bray.Lib.Interval
import Mathlib

namespace Bray.Guarantee

open Lib List Option

/-! ## 1. The bounds -/

abbrev IntegerRange := Int × Int

def u32Max : Nat := 2 ^ 32 - 1
def u64Max : Nat := 2 ^ 64 - 1
def usizeMax : Nat := 2 ^ 64 - 1

/-- `try_from`: an integer in a machine width. -/
def narrow (maximum : Nat) (value : Int) : Option Nat :=
  if 0 ≤ value ∧ value ≤ maximum then some value.toNat else none

/-- The significant bits of the magnitude. -/
def bits (value : Int) : Nat := value.natAbs.size

/-- The bits of an exact integer under the default limits of constant evaluation. -/
def integerBits : Nat := 16 * 1024 * 1024

/-- The most bits that the result may have, if 64 bits hold their number. -/
def resultBits (operator : BoundOperator) (left right : IntegerRange) : Option Nat :=
  let leftBits := max (bits left.1) (bits left.2)
  let rightBits := max (bits right.1) (bits right.2)
  let checked (value : Nat) : Option Nat := if value ≤ u64Max then some value else none
  match operator with
  | .add | .subtract => checked (max leftBits rightBits + 1)
  | .multiply => checked (leftBits + rightBits)
  | .shiftLeft => (narrow u64Max right.2).bind fun shift => checked (leftBits + shift)
  | .exponentiate => (narrow u64Max right.2).bind fun exponent => checked (leftBits * exponent)
  | _ => some (max leftBits rightBits)

def resultFitsAnalysisBudget (operator : BoundOperator) (left right : IntegerRange) : Bool :=
  (resultBits operator left right).any fun bits => bits ≤ integerBits

/-- The values of a function at the corners of two intervals. -/
def corners {β : Type} (f : Int → β → Int) (left : IntegerRange) (right : β × β) : List Int :=
  [f left.1 right.1, f left.1 right.2, f left.2 right.1, f left.2 right.2]

def divideRange (left right : IntegerRange) : Option IntegerRange :=
  if 0 < right.1 ∨ right.2 < 0 then extremes (corners Int.tdiv left right)
  else if right.1 = 0 ∧ right.2 = 0 then none
  else some (-(max (-left.1) left.2), max (-left.1) left.2)

def remainderRange (left right : IntegerRange) : Option IntegerRange :=
  if right.1 = 0 ∧ right.2 = 0 then none
  else
    let magnitude := max (-right.1) right.2 - 1
    some (if left.1 < 0 then -magnitude else 0, if 0 < left.2 then magnitude else 0)

def shiftRange (shifted : Int → Nat → Int) (left right : IntegerRange) : Option IntegerRange := do
  let minimum ← narrow usizeMax right.1
  let maximum ← narrow usizeMax right.2
  extremes (corners shifted left (minimum, maximum))

/-- The outermost exponents of an interval and their neighbours inside it. -/
def exponents (minimum maximum : Nat) : List Nat :=
  ([minimum, maximum, min (minimum + 1) u32Max, maximum - 1].insertionSort (· ≤ ·)).filter
    fun exponent => minimum ≤ exponent && exponent ≤ maximum

/-- The powers that span the results. -/
def powers (left : IntegerRange) (minimum maximum : Nat) : List Int :=
  (exponents minimum maximum).flatMap (fun exponent => [left.1 ^ exponent, left.2 ^ exponent]) ++
    if left.1 ≤ 0 ∧ 0 ≤ left.2 ∧ 0 < maximum then [0] else []

def powerRange (left right : IntegerRange) : Option IntegerRange := do
  let minimum ← narrow u32Max right.1
  let maximum ← narrow u32Max right.2
  extremes (powers left minimum maximum)

/-- The bounds of a bitwise operation, when both operands are nonnegative. -/
def bitwiseRange (upper : Int) (left right : IntegerRange) : Option IntegerRange :=
  if 0 ≤ left.1 ∧ 0 ≤ right.1 then some (0, upper) else none

def arithmeticRange (operator : BoundOperator) (left right : IntegerRange) : Option IntegerRange :=
  if resultFitsAnalysisBudget operator left right = false then none
  else
    match operator with
    | .add => some (left.1 + right.1, left.2 + right.2)
    | .subtract => some (left.1 - right.2, left.2 - right.1)
    | .multiply => extremes (corners (· * ·) left right)
    | .divide => divideRange left right
    | .remainder => remainderRange left right
    | .shiftLeft => shiftRange (fun value count => value * 2 ^ count) left right
    | .shiftRight => shiftRange (fun value count => value / 2 ^ count) left right
    | .exponentiate => powerRange left right
    | .bitwiseAnd => bitwiseRange (min left.2 right.2) left right
    -- after the budget the width fits every machine word
    | .bitwiseOr | .bitwiseXor => bitwiseRange (2 ^ max (bits left.2) (bits right.2) - 1) left right
    | _ => none

/-! ## 2. The operations -/

/-- **The exact result of an operation on integers**, where it is defined. -/
def exactOperation (operator : BoundOperator) (left right : Int) : Option Int :=
  match operator with
  | .add => some (left + right)
  | .subtract => some (left - right)
  | .multiply => some (left * right)
  | .divide => if right = 0 then none else some (left.tdiv right)
  | .remainder => if right = 0 then none else some (left.tmod right)
  | .shiftLeft => if right < 0 then none else some (left * 2 ^ right.toNat)
  | .shiftRight => if right < 0 then none else some (left / 2 ^ right.toNat)
  | .exponentiate => if right < 0 then none else some (left ^ right.toNat)
  | .bitwiseAnd => some (left.land right)
  | .bitwiseOr => some (left.lor right)
  | .bitwiseXor => some (left.xor right)
  | _ => none

/-- A value of an interval. -/
def Inside (range : IntegerRange) (value : Int) : Prop := range.1 ≤ value ∧ value ≤ range.2

instance (range : IntegerRange) (value : Int) : Decidable (Inside range value) :=
  inferInstanceAs (Decidable (_ ∧ _))

/-! ## 3. One way in each operand -/

theorem mul_oneWay (x low high : Int) : OneWayOn (fun y => x * y) low high := by
  rcases Int.le_total 0 x with pos | neg
  · exact .inl fun _ _ _ _ le => Int.mul_le_mul_of_nonneg_left le pos
  · exact .inr fun _ _ _ _ le => Int.mul_le_mul_of_nonpos_left neg le

theorem mul_oneWay' (y low high : Int) : OneWayOn (fun x => x * y) low high := by
  have := mul_oneWay y low high
  simpa only [Int.mul_comm] using this

/-- A larger divisor of a nonnegative value has the smaller quotient. -/
theorem tdiv_antitone {x c d : Int} (value : 0 ≤ x) (pos : 0 < c) (le : c ≤ d) : x.tdiv d ≤ x.tdiv c := by
  obtain ⟨x, rfl⟩ := Int.eq_ofNat_of_zero_le value
  obtain ⟨c, rfl⟩ := Int.eq_ofNat_of_zero_le (Int.le_of_lt pos)
  obtain ⟨d, rfl⟩ := Int.eq_ofNat_of_zero_le (Int.le_trans (Int.le_of_lt pos) le)
  exact Int.ofNat_le.mpr (Nat.div_le_div_left (Int.ofNat_le.mp le) (Int.natCast_pos.mp pos))

/-- Divisors of one sign: the quotients of a value go one way. -/
theorem tdiv_oneWay {low high : Int} (x : Int) (signed : 0 < low ∨ high < 0) :
    OneWayOn (fun y => x.tdiv y) low high := by
  -- the signs of the value and of the divisor are moved out of the quotient
  rcases Int.le_total 0 x with pos | neg
  · rcases signed with above | below
    · exact .inr fun c hc d _ le => tdiv_antitone pos (lt_of_lt_of_le above hc.1) le
    · refine .inr fun c _ d hd le => ?_
      have := @tdiv_antitone x (-d) (-c) pos (by have := hd.2; omega) (by omega)
      rw [Int.tdiv_neg, Int.tdiv_neg] at this
      exact Int.neg_le_neg_iff.mp this
  · have pos : 0 ≤ -x := by omega
    rcases signed with above | below
    · refine .inl fun c hc d _ le => ?_
      have := tdiv_antitone pos (lt_of_lt_of_le above hc.1) le
      rw [Int.neg_tdiv, Int.neg_tdiv] at this
      exact Int.neg_le_neg_iff.mp this
    · refine .inl fun c _ d hd le => ?_
      have := @tdiv_antitone (-x) (-d) (-c) pos (by have := hd.2; omega) (by omega)
      rwa [Int.tdiv_neg, Int.tdiv_neg, Int.neg_tdiv, Int.neg_tdiv, Int.neg_neg, Int.neg_neg] at this

theorem tdiv_oneWay' {y : Int} (nonzero : y ≠ 0) (low high : Int) : OneWayOn (fun x => x.tdiv y) low high := by
  rcases Int.lt_or_gt_of_ne nonzero with neg | pos
  · refine .inr fun a _ b _ le => ?_
    have := @Int.tdiv_le_tdiv a b (-y) (by omega) le
    rw [Int.tdiv_neg, Int.tdiv_neg] at this
    exact Int.neg_le_neg_iff.mp this
  · exact .inl fun a _ b _ le => Int.tdiv_le_tdiv pos le

theorem shiftLeft_oneWay (x : Int) (low high : Nat) : OneWayOn (fun count : Nat => x * 2 ^ count) low high := by
  have grows : ∀ {c d : Nat}, c ≤ d → (2 : Int) ^ c ≤ 2 ^ d := fun le => pow_le_pow_right₀ (by decide) le
  rcases Int.le_total 0 x with pos | neg
  · exact .inl fun _ _ _ _ le => Int.mul_le_mul_of_nonneg_left (grows le) pos
  · exact .inr fun _ _ _ _ le => Int.mul_le_mul_of_nonpos_left neg (grows le)

theorem shiftRight_oneWay (x : Int) (low high : Nat) : OneWayOn (fun count : Nat => x / 2 ^ count) low high := by
  have split : ∀ {c d : Nat}, c ≤ d → (2 : Int) ^ d = 2 ^ c * 2 ^ (d - c) := by
    intro c d le
    rw [← pow_add, Nat.add_sub_cancel' le]
  have pos : ∀ n : Nat, (0 : Int) < 2 ^ n := fun n => Int.pow_pos (by decide)
  rcases Int.le_total 0 x with value | value
  · refine .inr fun c _ d _ le => ?_
    show x / 2 ^ d ≤ x / 2 ^ c
    rw [split le, ← Int.ediv_ediv_of_nonneg (Int.le_of_lt (pos c))]
    exact Int.ediv_le_self _ (Int.ediv_nonneg value (Int.le_of_lt (pos c)))
  · refine .inl fun c _ d _ le => ?_
    show x / 2 ^ c ≤ x / 2 ^ d
    rw [split le, ← Int.ediv_ediv_of_nonneg (Int.le_of_lt (pos c))]
    have small : x / 2 ^ c ≤ 0 := by simpa using Int.ediv_le_ediv (pos c) value
    refine (Int.le_ediv_iff_mul_le (pos _)).mpr ?_
    have := Int.mul_le_mul_of_nonpos_left small (Int.add_one_le_of_lt (pos (d - c)))
    omega

/-! ## 4. Powers -/

variable {minimum maximum exponent : Nat}

theorem mem_exponents (within : minimum ≤ exponent ∧ exponent ≤ maximum)
    (one : exponent = minimum ∨ exponent = maximum ∨ exponent = maximum - 1) :
    exponent ∈ exponents minimum maximum := by
  unfold exponents
  rw [mem_filter, mem_insertionSort]
  refine ⟨?_, by simp [within.1, within.2]⟩
  rcases one with rfl | rfl | rfl
  · exact (.head _)
  · simp
  · simp

theorem mem_powers {left : IntegerRange} {minimum maximum exponent : Nat} (mem : exponent ∈ exponents minimum maximum) :
    left.1 ^ exponent ∈ powers left minimum maximum ∧ left.2 ^ exponent ∈ powers left minimum maximum := by
  refine ⟨mem_append_left _ (mem_flatMap.mpr ⟨exponent, mem, (.head _)⟩),
    mem_append_left _ (mem_flatMap.mpr ⟨exponent, mem, ?_⟩)⟩
  exact .tail _ (.head _)

variable {left right range : IntegerRange}

theorem zero_mem_powers (across : left.1 ≤ 0 ∧ 0 ≤ left.2)
    (pos : 0 < maximum) : 0 ∈ powers left minimum maximum := by
  refine mem_append_right _ ?_
  rw [if_pos ⟨across.1, across.2, pos⟩]
  exact (.head _)

/-- In an interval of exponents with more than one, some outermost exponent is even, and one is odd; from any
exponent on there is one of its parity. -/
theorem outer_exponent (within : minimum ≤ exponent ∧ exponent ≤ maximum) :
    (∃ outer ∈ exponents minimum maximum, exponent ≤ outer ∧ (Even outer ↔ Even exponent)) ∧
      (minimum = maximum ∨ ∃ outer ∈ exponents minimum maximum, ¬ (Even outer ↔ Even exponent)) := by
  by_cases parity : Even maximum ↔ Even exponent
  · refine ⟨⟨maximum, mem_exponents ⟨within.1.trans within.2, le_rfl⟩ (.inr (.inl rfl)), within.2, parity⟩, ?_⟩
    rcases Nat.eq_or_lt_of_le (within.1.trans within.2) with single | several
    · exact .inl single
    · refine .inr ⟨maximum - 1, mem_exponents ⟨by omega, by omega⟩ (.inr (.inr rfl)), ?_⟩
      rw [← parity, Nat.even_sub (by omega)]
      tauto
  · have below : exponent ≤ maximum - 1 := by
      rcases Nat.eq_or_lt_of_le within.2 with rfl | less
      · exact absurd Iff.rfl parity
      · omega
    have pos : 1 ≤ maximum := by
      rcases Nat.eq_zero_or_pos maximum with rfl | pos
      · obtain rfl : exponent = 0 := by omega
        exact absurd Iff.rfl parity
      · exact pos
    refine ⟨⟨maximum - 1, mem_exponents ⟨within.1.trans below, by omega⟩ (.inr (.inr rfl)), below, ?_⟩,
      .inr ⟨maximum, mem_exponents ⟨within.1.trans within.2, le_rfl⟩ (.inr (.inl rfl)), parity⟩⟩
    rw [Nat.even_sub pos]
    tauto

variable {value l r : Int}

/-- A negative value between others: their powers have the signs of the exponents. -/
theorem negative_power_span
    (inside : Inside left value) (neg : value < 0) (within : minimum ≤ exponent ∧ exponent ≤ maximum)
    (pos : 0 < maximum) : Spanned (powers left minimum maximum) (value ^ exponent) := by
  obtain ⟨⟨outer, mem, le, same⟩, others⟩ := outer_exponent within
  obtain ⟨low, high⟩ := left
  obtain ⟨size, rfl⟩ : ∃ size, value = -size := ⟨-value, (Int.neg_neg _).symm⟩
  obtain ⟨most, rfl⟩ : ∃ most, low = -most := ⟨-low, (Int.neg_neg _).symm⟩
  have above : size ≤ most := Int.neg_le_neg_iff.mp inside.1
  have power : 0 ≤ size ^ exponent := pow_nonneg (by omega) _
  have grown : size ^ exponent ≤ most ^ outer :=
    (pow_le_pow_left₀ (by omega) above _).trans (pow_le_pow_right₀ (by omega) le)
  have outermost := (@mem_powers (-most, high) _ _ _ mem).1
  -- the bound on the other side: a power of the other sign, zero, or the end that is nearer to zero
  have near : ∃ bound ∈ powers (-most, high) minimum maximum,
    (Even exponent → bound ≤ size ^ exponent) ∧ (¬ Even exponent → -(size ^ exponent) ≤ bound) := by
    by_cases across : 0 ≤ high
    · exact ⟨0, zero_mem_powers ⟨by show -most ≤ 0; omega, across⟩ pos, fun _ => power, fun _ => by omega⟩
    · rcases others with single | ⟨other, mem', differs⟩
      · obtain ⟨rfl, rfl⟩ : minimum = exponent ∧ maximum = exponent := by omega
        obtain ⟨least, rfl⟩ : ∃ least, high = -least := ⟨-high, (Int.neg_neg _).symm⟩
        have below : least ≤ size := Int.neg_le_neg_iff.mp inside.2
        have shrunk : least ^ maximum ≤ size ^ maximum := pow_le_pow_left₀ (by omega) below _
        have here := mem_exponents ⟨le_refl maximum, le_rfl⟩ (.inl rfl)
        refine ⟨(-least) ^ maximum, (@mem_powers (-most, -least) _ _ _ here).2, fun even => ?_, fun odd => ?_⟩
        · rw [even.neg_pow]
          exact shrunk
        · rw [(Nat.not_even_iff_odd.mp odd).neg_pow]
          exact Int.neg_le_neg shrunk
      · have other_nonneg : 0 ≤ most ^ other := pow_nonneg (by omega) _
        refine ⟨(-most) ^ other, (@mem_powers (-most, high) _ _ _ mem').1, fun even => ?_, fun odd => ?_⟩
        · have : Odd other := Nat.not_even_iff_odd.mp fun both => differs (iff_of_true both even)
          rw [this.neg_pow]
          omega
        · have : Even other := not_not.mp fun both => differs (iff_of_false both odd)
          rw [this.neg_pow]
          omega
  obtain ⟨bound, mem', even_bound, odd_bound⟩ := near
  by_cases even : Even exponent
  · rw [even.neg_pow]
    rw [(same.mpr even).neg_pow] at outermost
    exact ⟨⟨bound, mem', even_bound even⟩, _, outermost, grown⟩
  · rw [(Nat.not_even_iff_odd.mp even).neg_pow]
    rw [(Nat.not_even_iff_odd.mp fun other => even (same.mp other)).neg_pow] at outermost
    exact ⟨⟨_, outermost, Int.neg_le_neg grown⟩, bound, mem', odd_bound even⟩

/-- **The powers span the results.** -/
theorem powers_span (inside : Inside left value) (within : minimum ≤ exponent ∧ exponent ≤ maximum) :
    Spanned (powers left minimum maximum) (value ^ exponent) := by
  have ordered := within.1.trans within.2
  have first := (@mem_powers left _ _ _ (mem_exponents ⟨le_rfl, ordered⟩ (.inl rfl))).1
  have last := (@mem_powers left _ _ _ (mem_exponents ⟨ordered, le_rfl⟩ (.inr (.inl rfl)))).2
  obtain ⟨low, high⟩ := left
  obtain ⟨below, above⟩ := inside
  rcases Nat.eq_zero_or_pos exponent with rfl | pos
  · obtain rfl : minimum = 0 := by omega
    rw [pow_zero] at first ⊢
    exact .of_mem first
  · have pos' : 0 < maximum := by omega
    rcases Int.lt_or_le value 0 with neg | nonneg
    · exact negative_power_span ⟨below, above⟩ neg within pos'
    · constructor
      · by_cases across : low ≤ 0
        · exact ⟨0, zero_mem_powers ⟨across, nonneg.trans above⟩ pos', pow_nonneg nonneg _⟩
        · refine ⟨_, first, (pow_le_pow_right₀ (by omega) within.1).trans (pow_le_pow_left₀ (by omega) below _)⟩
      · rcases Int.lt_or_le high 1 with zero | one
        · obtain rfl : value = 0 := by omega
          rw [zero_pow (Nat.pos_iff_ne_zero.mp pos)]
          exact ⟨0, zero_mem_powers ⟨below, above⟩ pos', le_rfl⟩
        · exact ⟨_, last, (pow_le_pow_left₀ nonneg above _).trans (pow_le_pow_right₀ one within.2)⟩

/-! ## 5. The bounds hold -/

theorem narrow_eq_some {count : Nat} (found : narrow maximum value = some count) : value = count := by
  unfold narrow at found
  split at found
  · rename_i fits
    cases found
    exact (Int.toNat_of_nonneg fits.1).symm
  · cases found

/-- Shifts by counts between two bounds. -/
theorem shiftRange_sound {shifted : Int → Nat → Int}
    (operand : ∀ count, OneWayOn (fun value => shifted value count) left.1 left.2)
    (counts : ∀ value low high, OneWayOn (shifted value) low high)
    (found : shiftRange shifted left right = some range) (inside : Inside left l) (inside' : Inside right r) :
    Inside range (shifted l r.toNat) := by
  obtain ⟨minimum, low, rest⟩ := bind_eq_some_iff.mp found
  obtain ⟨maximum, high, ends⟩ := bind_eq_some_iff.mp rest
  have low' := narrow_eq_some low
  have high' := narrow_eq_some high
  obtain ⟨below, above⟩ := inside'
  exact extremes_span ends (spanned_corners (operand _) (counts _ _ _) (counts _ _ _) inside
    ⟨by omega, by omega⟩)

theorem divideRange_sound
    (found : divideRange left right = some range) (inside : Inside left l) (inside' : Inside right r)
    (defined : r ≠ 0) : Inside range (l.tdiv r) := by
  unfold divideRange at found
  split at found
  · rename_i signed
    exact extremes_span found (spanned_corners (tdiv_oneWay' defined _ _) (tdiv_oneWay _ signed)
      (tdiv_oneWay _ signed) inside inside')
  · split at found
    · cases found
    · cases found
      -- no quotient is larger than its dividend
      have size := Int.natAbs_tdiv_le_natAbs l r
      obtain ⟨below, above⟩ := inside
      constructor <;> simp only <;> omega

theorem remainderRange_sound
    (found : remainderRange left right = some range) (inside : Inside left l) (inside' : Inside right r)
    (defined : r ≠ 0) : Inside range (l.tmod r) := by
  unfold remainderRange at found
  split at found
  · cases found
  · cases found
    -- a remainder is smaller than its divisor and has the sign of its dividend
    have size : (l.tmod r).natAbs < r.natAbs := by
      rw [Int.natAbs_tmod]
      exact Nat.mod_lt _ (Int.natAbs_pos.mpr defined)
    have up : 0 ≤ l → 0 ≤ l.tmod r := fun nonneg => Int.tmod_nonneg r nonneg
    have down : l ≤ 0 → l.tmod r ≤ 0 := by
      intro nonpos
      have := Int.tmod_nonneg r (Int.neg_nonneg_of_nonpos nonpos)
      rw [Int.neg_tmod] at this
      omega
    obtain ⟨below, above⟩ := inside
    obtain ⟨below', above'⟩ := inside'
    constructor
    · split <;> omega
    · split <;> omega

/-! Bitwise operations on nonnegative values stay below the next power of two, and a conjunction below either
operand. -/

theorem land_nonneg (left : 0 ≤ l) (right : 0 ≤ r) : 0 ≤ l.land r ∧ l.land r ≤ l ∧ l.land r ≤ r := by
  obtain ⟨l, rfl⟩ := Int.eq_ofNat_of_zero_le left
  obtain ⟨r, rfl⟩ := Int.eq_ofNat_of_zero_le right
  exact ⟨Int.natCast_nonneg _, Int.ofNat_le.mpr Nat.and_le_left, Int.ofNat_le.mpr Nat.and_le_right⟩

theorem natAbs_lt_two_pow {upper : Int} {width : Nat} (nonneg : 0 ≤ value) (le : value ≤ upper)
    (wide : bits upper ≤ width) : value.natAbs < 2 ^ width := by
  have : value.natAbs ≤ upper.natAbs := by omega
  exact lt_of_le_of_lt this (Nat.size_le.mp wide)

theorem lor_xor_bounds {width : Nat} (left : 0 ≤ l) (right : 0 ≤ r) (small : l.natAbs < 2 ^ width)
    (small' : r.natAbs < 2 ^ width) :
    (0 ≤ l.lor r ∧ l.lor r ≤ 2 ^ width - 1) ∧ 0 ≤ l.xor r ∧ l.xor r ≤ 2 ^ width - 1 := by
  obtain ⟨l, rfl⟩ := Int.eq_ofNat_of_zero_le left
  obtain ⟨r, rfl⟩ := Int.eq_ofNat_of_zero_le right
  have bound : ∀ n : Nat, n < 2 ^ width → 0 ≤ (n : Int) ∧ (n : Int) ≤ 2 ^ width - 1 := by
    intro n less
    have : (n : Int) < 2 ^ width := by exact_mod_cast less
    omega
  exact ⟨bound _ (Nat.or_lt_two_pow small small'), bound _ (Nat.xor_lt_two_pow small small')⟩

theorem bitwiseRange_sound {upper : Int}
    (found : bitwiseRange upper left right = some range) (inside : Inside left l) (inside' : Inside right r)
    (bound : 0 ≤ l → 0 ≤ r → 0 ≤ value ∧ value ≤ upper) : Inside range value := by
  unfold bitwiseRange at found
  split at found
  · rename_i nonneg
    cases found
    exact bound (nonneg.1.trans inside.1) (nonneg.2.trans inside'.1)
  · cases found

/-- **Interval arithmetic is sound**: for every operator and every two intervals, the interval that is returned
has the result of the operation on any two of their values for which it is defined. -/
theorem arithmeticRange_sound {operator : BoundOperator} {left right range : IntegerRange}
    (found : arithmeticRange operator left right = some range) {l r value : Int} (inside : Inside left l)
    (inside' : Inside right r) (result : exactOperation operator l r = some value) : Inside range value := by
  unfold arithmeticRange at found
  split at found
  · cases found
  · cases operator with
    | add =>
      cases found
      cases result
      exact ⟨Int.add_le_add inside.1 inside'.1, Int.add_le_add inside.2 inside'.2⟩
    | subtract =>
      cases found
      cases result
      exact ⟨Int.sub_le_sub inside.1 inside'.2, Int.sub_le_sub inside.2 inside'.1⟩
    | multiply =>
      cases result
      exact extremes_span found (spanned_corners (mul_oneWay' _ _ _) (mul_oneWay _ _ _) (mul_oneWay _ _ _) inside
        inside')
    | divide =>
      obtain ⟨defined, ⟨⟩⟩ := ite_none_left_eq_some.mp result
      exact divideRange_sound found inside inside' defined
    | remainder =>
      obtain ⟨defined, ⟨⟩⟩ := ite_none_left_eq_some.mp result
      exact remainderRange_sound found inside inside' defined
    | shiftLeft =>
      obtain ⟨_, ⟨⟩⟩ := ite_none_left_eq_some.mp result
      exact shiftRange_sound (fun _ => mul_oneWay' _ _ _) (fun _ _ _ => shiftLeft_oneWay _ _ _) found inside inside'
    | shiftRight =>
      obtain ⟨_, ⟨⟩⟩ := ite_none_left_eq_some.mp result
      have operand : ∀ count : Nat, OneWayOn (fun value : Int => value / 2 ^ count) left.1 left.2 :=
        fun _ => .inl fun _ _ _ _ le => Int.ediv_le_ediv (Int.pow_pos (by decide)) le
      exact shiftRange_sound operand (fun _ _ _ => shiftRight_oneWay _ _ _) found inside inside'
    | exponentiate =>
      obtain ⟨_, ⟨⟩⟩ := ite_none_left_eq_some.mp result
      obtain ⟨minimum, low, rest⟩ := bind_eq_some_iff.mp found
      obtain ⟨maximum, high, ends⟩ := bind_eq_some_iff.mp rest
      have low' := narrow_eq_some low
      have high' := narrow_eq_some high
      obtain ⟨below, above⟩ := inside'
      exact extremes_span ends (powers_span inside ⟨by omega, by omega⟩)
    | bitwiseAnd =>
      cases result
      refine bitwiseRange_sound found inside inside' fun nonneg nonneg' => ?_
      obtain ⟨pos, first, second⟩ := land_nonneg nonneg nonneg'
      exact ⟨pos, le_min (first.trans inside.2) (second.trans inside'.2)⟩
    | bitwiseOr =>
      cases result
      refine bitwiseRange_sound found inside inside' fun nonneg nonneg' => ?_
      exact (lor_xor_bounds nonneg nonneg' (natAbs_lt_two_pow nonneg inside.2 (le_max_left _ _))
        (natAbs_lt_two_pow nonneg' inside'.2 (le_max_right _ _))).1
    | bitwiseXor =>
      cases result
      refine bitwiseRange_sound found inside inside' fun nonneg nonneg' => ?_
      exact (lor_xor_bounds nonneg nonneg' (natAbs_lt_two_pow nonneg inside.2 (le_max_left _ _))
        (natAbs_lt_two_pow nonneg' inside'.2 (le_max_right _ _))).2
    | _ => cases result

/-- The square of a value between -3 and 2. -/
theorem arithmeticRange_sound_square : Inside (0, 9) (-2 * -2) :=
  arithmeticRange_sound (show arithmeticRange .exponentiate (-3, 2) (2, 2) = some (0, 9) by decide +kernel)
    (show Inside (-3, 2) (-2) by decide) (show Inside (2, 2) 2 by decide) rfl

end Bray.Guarantee
