/-
  File:      Bray/Numeric/Multiplication.lean
  Subject:   LARGE MULTIPLICATION: the recursion over one workspace, in the difference form that keeps the
  operands of every level exactly half as long.

  The operands, the output and the scratch words of a call are ranges of the one workspace, given by their
  offsets. Each loop of the recursion has a theorem that says which range it writes and what the range
  then denotes; every other word is kept.
-/
import Bray.Numeric.Arithmetic

namespace Bray.Numeric

open Bray.Lib Option

/-- The positions of a range of the workspace. -/
def Within (offset count j : Nat) : Prop := offset ≤ j ∧ j < offset + count

/-! ## 1. Clearing the output, and the rows of a short product -/

def clearRound (output index : Nat) (storage : List UInt64) : Option (List UInt64) :=
  writeAt storage (output + index) 0

def baseRound (right factor slot index : Nat) (state : List UInt64 × Nat) : Option (List UInt64 × Nat) := do
  accumulate factor (← readAt state.1 (right + index)) (slot + index) state

def baseRow (left right output count row : Nat) (storage : List UInt64) : Option (List UInt64) := do
  let factor := (← readAt storage (left + row)).toNat
  let state ← countUp (baseRound right factor (output + row)) 0 count (storage, 0)
  writeAt state.1 (output + row + count) (truncate state.2)

variable {storage : List UInt64}

theorem clear_spec {output count : Nat} (room : output + count ≤ storage.length) :
    Yields (countUp (clearRound output) 0 count storage) fun result =>
      Kept (Within output count) storage result ∧ value (window result output count) = 0 := by
  refine (countUp_yields (fun index result => Kept (Within output count) storage result ∧
    ∀ j, j < index → digit result (output + j) = 0) ⟨Kept.refl _ _, by simp⟩
    fun index result _ below inv => ?_).mono fun result inv => ⟨inv.1, ?_⟩
  · obtain ⟨kept, zero⟩ := inv
    have here : output + index < result.length := by rw [kept.1]; omega
    rw [clearRound, writeAt_eq here]
    refine yields_some.mpr ⟨kept.set ⟨by omega, by omega⟩ 0, fun j lt => ?_⟩
    rw [digit_set here]
    split
    · rfl
    · exact zero j (by omega)
  · refine value_eq_zero_iff.mpr fun i => ?_
    rw [digit_window]
    split
    · exact inv.2 i (by omega)
    · rfl

section Base

variable {left right output count : Nat} {storage : List UInt64}

/-- What a row of the product has added to the output. -/
structure RowInv (storage : List UInt64) (right output count row factor : Nat) (before : List UInt64)
  (index : Nat) (state : List UInt64 × Nat) : Prop where
  kept : Kept (Within output (count + count)) storage state.1
  carry : state.2 < radix
  below : value (window state.1 output (count + count)) < radix ^ (row + count)
  sum : value (window state.1 output (count + count)) + radix ^ (row + index) * state.2 =
    value (window before output (count + count)) + radix ^ row * (factor * value (window storage right index))

theorem baseRound_spec {row index factor : Nat} {before : List UInt64} {state : List UInt64 × Nat}
    (word_ : factor < radix) (row_lt : row < count) (index_lt : index < count)
    (apart : right + count ≤ output) (room : output + (count + count) ≤ storage.length)
    (inv : RowInv storage right output count row factor before index state) :
    Yields (baseRound right factor (output + row) index state)
      (RowInv storage right output count row factor before (index + 1)) := by
  have length := inv.kept.1
  have here : output + row + index < state.1.length := by omega
  have source : digit state.1 (right + index) = digit storage (right + index) :=
    inv.kept.2 _ (by unfold Within; omega)
  obtain ⟨total, runs, sum, bound⟩ :=
    accumulate_eq (w := digit state.1 (right + index)) word_ here inv.carry
  rw [baseRound, readAt_eq (by omega), some_bind, runs]
  have slot : output + row + index = output + (row + index) := Nat.add_assoc _ _ _
  have current : digit (window state.1 output (count + count)) (row + index) = digit state.1 (output + row + index) := by
    rw [digit_window, if_pos (by omega), slot]
  rw [source, ← current] at sum
  have changed : window (state.1.set (output + row + index) (truncate total)) output (count + count) =
    (window state.1 output (count + count)).set (row + index) (truncate total) := by
    rw [slot, window_set_inside]
  refine yields_some.mpr ⟨inv.kept.set ⟨by omega, by omega⟩ _, bound, ?_, ?_⟩
  · rw [changed]
    exact value_set_lt inv.below (by omega) _
  · rw [changed, ← Nat.add_assoc, carry_add_step (by rw [length_window (by omega)]; omega) inv.sum sum,
      value_window_succ (by omega)]
    ring

theorem baseRow_spec {row : Nat} {before : List UInt64} (row_lt : row < count) (apart_left : left + count ≤ output)
    (apart : right + count ≤ output) (room : output + (count + count) ≤ storage.length)
    (kept : Kept (Within output (count + count)) storage before)
    (below : value (window before output (count + count)) < radix ^ (row + count)) :
    Yields (baseRow left right output count row before) fun result =>
      Kept (Within output (count + count)) storage result ∧
        value (window result output (count + count)) = value (window before output (count + count)) +
          radix ^ row * ((digit storage (left + row)).toNat * value (window storage right count)) := by
  have length := kept.1
  have factor : digit before (left + row) = digit storage (left + row) := kept.2 _ (by unfold Within; omega)
  have start : RowInv storage right output count row (digit storage (left + row)).toNat before 0 (before, 0) :=
    ⟨kept, radix_pos, below, by simp⟩
  rw [baseRow, readAt_eq (by omega), factor]
  refine (countUp_yields (RowInv storage right output count row (digit storage (left + row)).toNat before) start
    fun index state _ lt => baseRound_spec (toNat_lt_radix _) row_lt (by omega) apart room).bind fun state inv => ?_
  rw [Nat.zero_add] at inv
  have here : output + row + count < state.1.length := by rw [inv.kept.1]; omega
  have slot : output + row + count = output + (row + count) := Nat.add_assoc _ _ _
  rw [writeAt_eq here]
  refine yields_some.mpr ⟨inv.kept.set ⟨by omega, by omega⟩ _, ?_⟩
  rw [slot, window_set_inside, value_set_of_lt (by rw [length_window (by rw [inv.kept.1]; omega)]; omega) inv.below,
    toNat_truncate, Nat.mod_eq_of_lt inv.carry, inv.sum]

/-- **The short product** fills a cleared output. -/
theorem base_spec {cleared : List UInt64} (apart_left : left + count ≤ output) (apart : right + count ≤ output)
    (room : output + (count + count) ≤ storage.length) (kept : Kept (Within output (count + count)) storage cleared)
    (zero : value (window cleared output (count + count)) = 0) :
    Yields (countUp (baseRow left right output count) 0 count cleared) fun result =>
      Kept (Within output (count + count)) storage result ∧ value (window result output (count + count)) =
        value (window storage left count) * value (window storage right count) := by
  refine (countUp_yields (fun row result => Kept (Within output (count + count)) storage result ∧
    value (window result output (count + count)) =
      value (window storage left row) * value (window storage right count)) ⟨kept, by rw [zero, value_window_zero, Nat.zero_mul]⟩
    fun row result _ lt inv => ?_).mono fun result inv => by rwa [Nat.zero_add] at inv
  obtain ⟨kept', so_far⟩ := inv
  rw [Nat.zero_add] at lt
  have small : value (window result output (count + count)) < radix ^ (row + count) := by
    rw [so_far, pow_add]
    exact Nat.mul_lt_mul_of_lt_of_le (value_window_lt ..) (value_window_lt ..).le (radix_pow_pos _)
  refine (baseRow_spec lt apart_left apart room kept' small).mono fun result' spec => ⟨spec.1, ?_⟩
  rw [spec.2, so_far, value_window_succ (by omega)]
  ring

end Base

/-! ## 2. The order and the distance of the halves -/

/-- The order of two numbers as a sign. -/
def order (a b : Nat) : Int := if a < b then -1 else if b < a then 1 else 0

theorem order_lt {a b : Nat} : order a b < 0 ↔ a < b := by
  unfold order
  split_ifs <;> simp_all

theorem div_radix_pow_eq (n i : Nat) : n / radix ^ i = radix * (n / radix ^ (i + 1)) + n / radix ^ i % radix := by
  rw [pow_succ, ← Nat.div_div_eq_div_mul, Nat.div_add_mod]

/-- One index of the search for the highest word in which the halves of an operand differ. (The searches of both
operands go down in one loop; neither reads what the other finds.) -/
def orderRound (storage : List UInt64) (low half index : Nat) (known : Int) : Option Int := do
  if known ≠ 0 then return known
  let a ← readAt storage (low + index)
  let b ← readAt storage (low + half + index)
  return if a ≠ b then (if b < a then 1 else -1) else 0

/-- The difference of two words, turned round where the low half is the smaller one, with a borrow. -/
def delta (storage : List UInt64) (low half index : Nat) (known borrow : Int) : Option Int := do
  let difference ← checkedInt 128 ((← readAt storage (low + index)).toNat - (← readAt storage (low + half + index)).toNat)
  let turned ← checkedInt 128 (if known < 0 then -difference else difference)
  checkedInt 128 (turned + borrow)

def deltaRound (left right half scratch : Nat) (leftOrder rightOrder : Int) (index : Nat)
  (state : List UInt64 × Int × Int) : Option (List UInt64 × Int × Int) := do
  let leftDelta ← delta state.1 left half index leftOrder state.2.1
  let rightDelta ← delta state.1 right half index rightOrder state.2.2
  let storage ← writeAt state.1 (scratch + index) (truncateInt leftDelta)
  let storage ← writeAt storage (scratch + half + index) (truncateInt rightDelta)
  return (storage, leftDelta >>> (64 : Nat), rightDelta >>> (64 : Nat))

theorem order_step (a b i : Nat) : order (a / radix ^ i) (b / radix ^ i) =
    if order (a / radix ^ (i + 1)) (b / radix ^ (i + 1)) ≠ 0 then order (a / radix ^ (i + 1)) (b / radix ^ (i + 1))
    else order (a / radix ^ i % radix) (b / radix ^ i % radix) := by
  have ha := div_radix_pow_eq a i
  have hb := div_radix_pow_eq b i
  have la := Nat.mod_lt (a / radix ^ i) radix_pos
  have lb := Nat.mod_lt (b / radix ^ i) radix_pos
  generalize a / radix ^ i % radix = x at *
  generalize b / radix ^ i % radix = y at *
  generalize a / radix ^ (i + 1) = p at *
  generalize b / radix ^ (i + 1) = q at *
  rw [ha, hb]
  rcases lt_trichotomy p q with less | rfl | more
  · have : radix * p + x < radix * q + y := by
      have := Nat.mul_le_mul_left radix (show p + 1 ≤ q by omega)
      rw [Nat.mul_add, Nat.mul_one] at this
      omega
    simp [order, this, less]
  · simp [order]
  · have : radix * q + y < radix * p + x := by
      have := Nat.mul_le_mul_left radix (show q + 1 ≤ p by omega)
      rw [Nat.mul_add, Nat.mul_one] at this
      omega
    simp [order, this, more, this.le.not_gt, more.le.not_gt]

theorem orderRound_spec {low half index : Nat} (lt : index < half)
    (room : low + (half + half) ≤ storage.length) : orderRound storage low half index
       (order (value (window storage low half) / radix ^ (index + 1))
         (value (window storage (low + half) half) / radix ^ (index + 1))) =
      some (order (value (window storage low half) / radix ^ index)
        (value (window storage (low + half) half) / radix ^ index)) := by
  rw [order_step _ _ index, ← toNat_digit, ← toNat_digit, digit_window, digit_window, if_pos lt, if_pos lt, orderRound]
  split
  · rfl
  · rw [readAt_eq (by omega), readAt_eq (by omega)]
    congr 1
    generalize digit storage (low + index) = a
    generalize digit storage (low + half + index) = b
    unfold order
    rcases lt_trichotomy a.toNat b.toNat with less | same | more
    · have : a ≠ b := fun e => by rw [e] at less; omega
      simp [this, less, UInt64.lt_iff_toNat_lt, less.le.not_gt]
    · simp [UInt64.toNat_inj.mp same]
    · have : a ≠ b := fun e => by rw [e] at more; omega
      simp [this, more, UInt64.lt_iff_toNat_lt, more.le.not_gt]

/-- **The order of the halves.** -/
theorem order_spec {low half : Nat} (room : low + (half + half) ≤ storage.length) :
    countDown (orderRound storage low half) half 0 =
      some (order (value (window storage low half)) (value (window storage (low + half) half))) := by
  have top : ∀ offset, value (window storage offset half) / radix ^ half = 0 := fun offset =>
    Nat.div_eq_of_lt (value_window_lt ..)
  have start : (0 : Int) = order (value (window storage low half) / radix ^ half)
    (value (window storage (low + half) half) / radix ^ half) := by
    rw [top, top]
    rfl
  obtain ⟨known, runs, known_eq⟩ := @countDown_yields Int (orderRound storage low half) (fun index known =>
    known = order (value (window storage low half) / radix ^ index)
      (value (window storage (low + half) half) / radix ^ index)) half 0 start fun index known lt inv => by
    rw [inv, orderRound_spec lt room]
    exact yields_some.mpr rfl
  rw [runs, known_eq]
  simp

/-- The sign by which a difference is turned. -/
def sign (known : Int) : Int := if known < 0 then -1 else 1

theorem sign_mul_self (known : Int) : sign known * sign known = 1 := by
  unfold sign
  split <;> rfl

/-- A difference turned by its order is the distance. -/
theorem sign_order (a b : Nat) : 0 ≤ sign (order a b) * ((a : Int) - b) := by
  unfold sign
  simp only [order_lt]
  split <;> omega

variable {known borrow : Int}

theorem delta_eq {low half index : Nat}
    (room : low + half + index < storage.length) (bit : -1 ≤ borrow ∧ borrow ≤ 0) :
    delta storage low half index known borrow =
      some (sign known * ((digit storage (low + index)).toNat - (digit storage (low + half + index)).toNat) + borrow) := by
  have ha := toNat_lt_radix (digit storage (low + index))
  have hb := toNat_lt_radix (digit storage (low + half + index))
  rw [radix_eq] at ha hb
  rw [delta, readAt_eq (by omega), readAt_eq room]
  simp only [bind_eq_bind, bind_some]
  rw [checkedInt_eq (by omega), bind_some]
  unfold sign
  split
  · rw [checkedInt_eq (by omega), bind_some, checkedInt_eq (by omega), neg_one_mul]
  · rw [checkedInt_eq (by omega), bind_some, checkedInt_eq (by omega), one_mul]

/-- The borrow of a difference of words is none or one. -/
theorem borrow_bit (a b : UInt64) (bit : -1 ≤ borrow ∧ borrow ≤ 0) :
    -1 ≤ (sign known * (a.toNat - b.toNat) + borrow) / (radix : Int) ∧
      (sign known * (a.toNat - b.toNat) + borrow) / (radix : Int) ≤ 0 := by
  have ha := toNat_lt_radix a
  have hb := toNat_lt_radix b
  rw [radix_eq] at *
  unfold sign
  split <;> omega

/-- What one operand's differences are below an index. -/
structure DistanceInv (storage : List UInt64) (low half target : Nat) (known : Int) (index : Nat)
  (current : List UInt64) (borrow : Int) : Prop where
  bit : -1 ≤ borrow ∧ borrow ≤ 0
  sum : (value (window current target index) : Int) + radix ^ index * borrow =
    sign known * ((value (window storage low index) : Int) - value (window storage (low + half) index))

theorem distance_step {current : List UInt64} {low half target index : Nat}
    (room : low + half + index < storage.length) (here : target + index < current.length)
    (inv : DistanceInv storage low half target known index current borrow) :
    DistanceInv storage low half target known (index + 1) (current.set (target + index) (truncateInt
      (sign known * ((digit storage (low + index)).toNat - (digit storage (low + half + index)).toNat) + borrow)))
      ((sign known * ((digit storage (low + index)).toNat - (digit storage (low + half + index)).toNat) + borrow) /
        radix) := by
  refine ⟨borrow_bit _ _ inv.bit, ?_⟩
  rw [signed_carry_step here inv.sum rfl, value_window_succ (by omega), value_window_succ (by omega)]
  push_cast
  ring

/-- A distance ends without a borrow. -/
theorem distance_end {current : List UInt64} {low half target : Nat} (inv : DistanceInv storage low half target
      (order (value (window storage low half)) (value (window storage (low + half) half))) half current borrow) :
    (value (window current target half) : Int) =
      sign (order (value (window storage low half)) (value (window storage (low + half) half))) *
        ((value (window storage low half) : Int) - value (window storage (low + half) half)) := by
  have nonneg := sign_order (value (window storage low half)) (value (window storage (low + half) half))
  have small : (value (window current target half) : Int) < radix ^ half := by
    exact_mod_cast value_window_lt current target half
  have sum := inv.sum
  have bit := inv.bit
  rcases (show borrow = -1 ∨ borrow = 0 by omega) with rfl | rfl
  · omega
  · rw [← sum]
    ring

/-- **The loop of the differences** leaves the distance of the halves of each operand in the scratch words. -/
theorem deltas_spec {left right half scratch : Nat}
    (left_apart : left + (half + half) ≤ scratch) (right_apart : right + (half + half) ≤ scratch)
    (room : scratch + (half + half) ≤ storage.length) : Yields (countUp (deltaRound left right half scratch
       (order (value (window storage left half)) (value (window storage (left + half) half)))
       (order (value (window storage right half)) (value (window storage (right + half) half)))) 0 half
       (storage, 0, 0)) fun result => Kept (Within scratch (half + half)) storage result.1 ∧
       (value (window result.1 scratch half) : Int) * value (window result.1 (scratch + half) half) =
         sign (order (value (window storage left half)) (value (window storage (left + half) half))) *
           sign (order (value (window storage right half)) (value (window storage (right + half) half))) *
           (((value (window storage left half) : Int) - value (window storage (left + half) half)) *
             ((value (window storage right half) : Int) - value (window storage (right + half) half))) := by
  generalize hl : order (value (window storage left half)) (value (window storage (left + half) half)) = leftOrder
  generalize hr : order (value (window storage right half)) (value (window storage (right + half) half)) = rightOrder
  have start : ∀ low target known, DistanceInv storage low half target known 0 storage 0 := fun low target known =>
    ⟨by omega, by simp⟩
  refine (countUp_yields (fun index (state : List UInt64 × Int × Int) =>
    Kept (Within scratch (half + half)) storage state.1 ∧
      DistanceInv storage left half scratch leftOrder index state.1 state.2.1 ∧
      DistanceInv storage right half (scratch + half) rightOrder index state.1 state.2.2)
    ⟨Kept.refl _ _, start .., start ..⟩ fun index state _ lt inv => ?_).mono fun result inv => ?_
  · obtain ⟨kept, first, second⟩ := inv
    have length := kept.1
    have same : ∀ j, j < scratch → digit state.1 j = digit storage j := fun j below =>
      kept.2 j (by unfold Within; omega)
    rw [deltaRound, delta_eq (by omega) first.bit, delta_eq (by omega) second.bit, same _ (by omega),
      same _ (by omega), same _ (by omega), same _ (by omega)]
    simp only [bind_eq_bind, bind_some]
    rw [writeAt_eq (by omega), bind_some, writeAt_eq (by rw [List.length_set]; omega), bind_some]
    have firstStep := distance_step (by omega) (by omega) first
    have secondStep := distance_step (by omega) (by omega) second
    have shift : ∀ n : Int, n >>> (64 : Nat) = n / (radix : Int) := fun n => Int.shiftRight_eq_div_pow n 64
    rw [shift, shift]
    refine yields_some.mpr ⟨(kept.set ⟨by omega, by omega⟩ _).set ⟨by omega, by omega⟩ _, ⟨firstStep.bit, ?_⟩,
      ⟨secondStep.bit, ?_⟩⟩
    · -- the word of the second operand lies behind the window of the first
      rw [← firstStep.sum]
      congr 2
      refine congrArg Nat.cast (value_window_congr fun j below => ?_)
      rw [digit_set (by rw [List.length_set]; omega), if_neg (by omega)]
    · rw [← secondStep.sum]
      congr 2
      refine congrArg Nat.cast (value_window_congr fun j below => ?_)
      have apart : scratch + half + j ≠ scratch + index := by omega
      by_cases here : scratch + half + j = scratch + half + index
      · rw [here, digit_set (by rw [List.length_set]; omega), if_pos rfl, digit_set (by omega), if_pos rfl]
      · rw [digit_set (by rw [List.length_set]; omega), digit_set (by omega), digit_set (by omega), if_neg here,
          if_neg here, if_neg apart]
  · obtain ⟨kept, first, second⟩ := inv
    rw [Nat.zero_add] at first second
    subst hl hr
    refine ⟨kept, ?_⟩
    rw [distance_end first, distance_end second]
    ring

/-! ## 3. The middle product and its addition -/

def middleRound (output cross count : Nat) (leftOrder rightOrder : Int) (index : Nat) (state : List UInt64 × Int) :
  Option (List UInt64 × Int) := do
  let outer ← checkedInt 128 (((← readAt state.1 (output + index)).toNat : Int) +
    (← readAt state.1 (output + count + index)).toNat + state.2)
  let product := ((← readAt state.1 (cross + index)).toNat : Int)
  let middle ← checkedInt 128 (if (leftOrder < 0) ≠ (rightOrder < 0) then outer + product else outer - product)
  let storage ← writeAt state.1 (cross + index) (truncateInt middle)
  return (storage, middle >>> (64 : Nat))

/-- The middle product, in the place of the product of the differences. -/
def middleProduct (storage : List UInt64) (output cross count : Nat) (leftOrder rightOrder : Int) :
  Option (List UInt64) := do
  let state ← countUp (middleRound output cross count leftOrder rightOrder) 0 count (storage, 0)
  writeAt state.1 (cross + count) (truncateInt state.2)

def additionRound (target cross index : Nat) (state : List UInt64 × Nat) : Option (List UInt64 × Nat) := do
  let sum ← checked 128 ((← readAt state.1 (target + index)).toNat + (← readAt state.1 (cross + index)).toNat + state.2)
  let storage ← writeAt state.1 (target + index) (truncate sum)
  return (storage, sum >>> (64 : Nat))

/-- The carry behind the middle product, as far as it goes. -/
def carryOut (storage : List UInt64) (slot addition : Nat) : Option (List UInt64) :=
  if addition = 0 then some storage
  else if inside : slot < storage.length then do
    let sum ← checked 128 ((digit storage slot).toNat + addition)
    carryOut (storage.set slot (truncate sum)) (slot + 1) (sum >>> (64 : Nat))
  else none
termination_by storage.length - slot
decreasing_by
  rw [List.length_set]
  omega

/-- The sign with which the product of the differences enters. -/
def turn (leftOrder rightOrder : Int) : Int := if (leftOrder < 0) ≠ (rightOrder < 0) then 1 else -1

theorem turn_eq (leftOrder rightOrder : Int) : turn leftOrder rightOrder = -(sign leftOrder * sign rightOrder) := by
  unfold turn sign
  by_cases hl : leftOrder < 0 <;> by_cases hr : rightOrder < 0 <;> simp [hl, hr]

section Middle

variable {storage : List UInt64} {output cross count : Nat}

structure MiddleInv (storage : List UInt64) (output cross count : Nat) (factor : Int) (index : Nat)
  (state : List UInt64 × Int) : Prop where
  kept : Kept (Within cross (count + 1)) storage state.1
  above : ∀ j, index ≤ j → digit state.1 (cross + j) = digit storage (cross + j)
  bit : -1 ≤ state.2 ∧ state.2 ≤ 2
  sum : (value (window state.1 cross index) : Int) + radix ^ index * state.2 =
    value (window storage output index) + value (window storage (output + count) index) +
      factor * value (window storage cross index)

theorem middleRound_spec {leftOrder rightOrder : Int} {index : Nat} {state : List UInt64 × Int} (lt : index < count)
    (apart : output + (count + count) ≤ cross) (room : cross + (count + 1) ≤ storage.length)
    (inv : MiddleInv storage output cross count (turn leftOrder rightOrder) index state) :
    Yields (middleRound output cross count leftOrder rightOrder index state)
      (MiddleInv storage output cross count (turn leftOrder rightOrder) (index + 1)) := by
  have length := inv.kept.1
  have same : ∀ j, j < cross → digit state.1 j = digit storage j := fun j below =>
    inv.kept.2 j (by unfold Within; omega)
  have bit := inv.bit
  have ha := toNat_lt_radix (digit storage (output + index))
  have hb := toNat_lt_radix (digit storage (output + count + index))
  have hc := toNat_lt_radix (digit storage (cross + index))
  rw [radix_eq] at ha hb hc
  have here : cross + index < state.1.length := by omega
  rw [middleRound, readAt_eq (by omega), readAt_eq (by omega), readAt_eq here, same _ (by omega), same _ (by omega),
    inv.above index le_rfl]
  simp only [bind_eq_bind, bind_some]
  rw [checkedInt_eq (by omega), bind_some]
  have middle : (if (leftOrder < 0) ≠ (rightOrder < 0) then
    ((digit storage (output + index)).toNat : Int) + (digit storage (output + count + index)).toNat + state.2 +
      (digit storage (cross + index)).toNat
    else ((digit storage (output + index)).toNat : Int) + (digit storage (output + count + index)).toNat + state.2 -
      (digit storage (cross + index)).toNat) =
    ((digit storage (output + index)).toNat : Int) + (digit storage (output + count + index)).toNat +
      turn leftOrder rightOrder * (digit storage (cross + index)).toNat + state.2 := by
    unfold turn
    split <;> ring
  rw [middle, checkedInt_eq (by omega), bind_some, writeAt_eq here]
  refine yields_some.mpr ⟨inv.kept.set ⟨by omega, by omega⟩ _, ?_, ?_, ?_⟩
  · intro j from_
    rw [digit_set here, if_neg (by omega)]
    exact inv.above j (by omega)
  · rw [Int.shiftRight_eq_div_pow]
    omega
  · have shift : ∀ n : Int, n >>> (64 : Nat) = n / (radix : Int) := fun n => Int.shiftRight_eq_div_pow n 64
    rw [shift, signed_carry_step here inv.sum rfl, value_window_succ (by omega), value_window_succ (by omega),
      value_window_succ (by omega)]
    push_cast
    ring

/-- **The middle product** in the words of the cross product and one more. -/
theorem middle_spec {leftOrder rightOrder : Int} {total : Nat}
    (apart : output + (count + count) ≤ cross) (room : cross + (count + 1) ≤ storage.length)
    (total_eq : (total : Int) = value (window storage output count) + value (window storage (output + count) count) +
      turn leftOrder rightOrder * value (window storage cross count)) :
    Yields (middleProduct storage output cross count leftOrder rightOrder) fun result =>
      Kept (Within cross (count + 1)) storage result ∧ value (window result cross (count + 1)) = total := by
  have start : MiddleInv storage output cross count (turn leftOrder rightOrder) 0 (storage, 0) :=
    ⟨Kept.refl _ _, fun _ _ => rfl, by omega, by simp⟩
  refine (countUp_yields (MiddleInv storage output cross count (turn leftOrder rightOrder)) start
    fun index state _ lt => middleRound_spec (by omega) apart room).bind fun state inv => ?_
  rw [Nat.zero_add] at inv
  have length := inv.kept.1
  have here : cross + count < state.1.length := by omega
  have sum := inv.sum
  rw [← total_eq] at sum
  have bit := inv.bit
  have small : (value (window state.1 cross count) : Int) < radix ^ count := by
    exact_mod_cast value_window_lt state.1 cross count
  have carry : 0 ≤ state.2 := by
    by_contra negative
    rw [show state.2 = -1 by omega] at sum
    omega
  have low : value (window (state.1.set (cross + count) (truncateInt state.2)) cross count) =
    value (window state.1 cross count) := value_window_congr fun j lt => by rw [digit_set here, if_neg (by omega)]
  have top : ((truncateInt state.2).toNat : Int) = state.2 := by
    rw [toNat_truncateInt, Int.emod_eq_of_lt carry (by rw [radix_eq]; omega)]
  rw [writeAt_eq here]
  refine yields_some.mpr ⟨inv.kept.set ⟨by omega, by omega⟩ _, ?_⟩
  rw [value_window_succ (by rw [List.length_set]; omega), low, digit_set here, if_pos rfl]
  zify
  rw [top, sum]

end Middle

end Bray.Numeric
