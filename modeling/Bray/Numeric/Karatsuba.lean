/-
  File:      Bray/Numeric/Karatsuba.lean
  Subject:   THE RECURSION OF LARGE MULTIPLICATION IS EXACT AND STAYS IN ITS WORKSPACE.

  * `multiplyWords_spec`: a call whose operands, output and scratch words lie one behind the other denotes the
    product in its output, and writes nothing but its output and its scratch words;
  * `scratchWords_le`: how many scratch words the recursion needs, against the number that is allocated;
  * `multiply_exact`: whichever path the sizes select, the product is exact, and the large path gives
    the words of the schoolbook product.
-/
import Bray.Numeric.Multiplication
import Mathlib.Tactic.LinearCombination

namespace Bray.Numeric

open Bray.Lib

/-! ## 1. The end of a level -/

section Addition

variable {storage : List UInt64} {output cross count half : Nat}

structure AdditionInv (storage : List UInt64) (output cross count half index : Nat) (state : List UInt64 × Nat) :
    Prop where
  kept : Kept (Within output (count + count)) storage state.1
  bit : state.2 ≤ 1
  sum : value (window state.1 output (count + count)) + radix ^ (half + index) * state.2 =
    value (window storage output (count + count)) + radix ^ half * value (window storage cross index)

theorem additionRound_spec {index : Nat} {state : List UInt64 × Nat} (le : index ≤ count) (shorter : half < count)
    (apart : output + (count + count) ≤ cross) (room : cross + (count + 1) ≤ storage.length)
    (inv : AdditionInv storage output cross count half index state) :
    Yields (additionRound (output + half) cross index state)
      (AdditionInv storage output cross count half (index + 1)) := by
  have length := inv.kept.1
  have bit := inv.bit
  have source : digit state.1 (cross + index) = digit storage (cross + index) :=
    inv.kept.2 _ (by unfold Within; omega)
  have ha := toNat_lt_radix (digit state.1 (output + half + index))
  have hb := toNat_lt_radix (digit storage (cross + index))
  rw [radix_eq] at ha hb
  have slot : output + half + index = output + (half + index) := Nat.add_assoc _ _ _
  have current : digit (window state.1 output (count + count)) (half + index) =
      digit state.1 (output + half + index) := by
    rw [digit_window, if_pos (by omega), slot]
  rw [additionRound, readAt_eq (by omega), readAt_eq (by omega), source]
  simp only [Option.bind_eq_bind, Option.bind_some]
  rw [checked_eq (by omega), Option.bind_some, writeAt_eq (by omega), Nat.shiftRight_eq_div_pow, ← radix]
  refine yields_some.mpr ⟨inv.kept.set ⟨by omega, by omega⟩ _, ?_, ?_⟩
  · rw [radix_eq]
    omega
  · rw [slot, window_set_inside, ← Nat.add_assoc half, ← slot, ← current,
      carry_add_step (by rw [length_window (by omega)]; omega) inv.sum
        (x := (digit storage (cross + index)).toNat) (by ring), value_window_succ (by omega)]
    ring

/-- **The carry ends inside the output**, as the product has room there. -/
theorem carryOut_spec {n slot addition total : Nat} (room : output + n ≤ storage.length) (bit : addition ≤ 1)
    (total_eq : value (window storage output n) + radix ^ slot * addition = total) (fits : total < radix ^ n) :
    Yields (carryOut storage (output + slot) addition) fun result =>
      Kept (Within output n) storage result ∧ value (window result output n) = total := by
  induction hm : n - slot generalizing storage slot addition with
  | zero =>
    have none : addition = 0 := by
      by_contra one
      have := Nat.pow_le_pow_right radix_pos (show n ≤ slot by omega)
      rw [show addition = 1 by omega] at total_eq
      omega
    rw [carryOut, if_pos none]
    rw [none, Nat.mul_zero, Nat.add_zero] at total_eq
    exact yields_some.mpr ⟨Kept.refl _ _, total_eq⟩
  | succ m ih =>
    rw [carryOut]
    split
    · rename_i none
      rw [none, Nat.mul_zero, Nat.add_zero] at total_eq
      exact yields_some.mpr ⟨Kept.refl _ _, total_eq⟩
    · have inside : output + slot < storage.length := by omega
      have small := toNat_lt_radix (digit storage (output + slot))
      rw [radix_eq] at small
      rw [dif_pos inside, checked_eq (by omega), some_bind, Nat.shiftRight_eq_div_pow,
        ← radix]
      have current : digit (window storage output n) slot = digit storage (output + slot) := by
        rw [digit_window, if_pos (by omega)]
      have next := carry_add_step (by rw [length_window room]; omega) total_eq
        (show (digit storage (output + slot)).toNat + addition = 0 + _ + addition by rw [current, Nat.zero_add])
      rw [← window_set_inside, Nat.mul_zero, Nat.add_zero] at next
      refine (ih (by rw [List.length_set]; exact room) (by rw [radix_eq]; omega) next (by omega)).mono
        fun result spec => ⟨?_, spec.2⟩
      exact ((Kept.refl _ _).set ⟨by omega, by omega⟩ _).trans spec.1

end Addition

/-! ## 2. The recursion -/

def multiplyWords (storage : List UInt64) (left right output count scratch : Nat) : Option (List UInt64) := do
  let storage ← countUp (clearRound output) 0 (count * 2) storage
  if count ≤ 32 then
    countUp (baseRow left right output count) 0 count storage
  else
    let half := count / 2
    let storage ← multiplyWords storage left right output half scratch
    let storage ← multiplyWords storage (left + half) (right + half) (output + count) half scratch
    let leftOrder ← countDown (orderRound storage left half) half 0
    let rightOrder ← countDown (orderRound storage right half) half 0
    let deltas ← countUp (deltaRound left right half scratch leftOrder rightOrder) 0 half (storage, 0, 0)
    let cross := scratch + count
    let storage ← multiplyWords deltas.1 scratch (scratch + half) cross half (scratch + count * 2 + 1)
    let storage ← middleProduct storage output cross count leftOrder rightOrder
    let state ← countUp (additionRound (output + half) cross) 0 (count + 1) (storage, 0)
    carryOut state.1 (output + half + (count + 1)) state.2
termination_by count

/-- The scratch words that the recursion needs for operands of `2 ^ k` words. -/
def scratchWords : Nat → Nat
  | 0 => 0
  | k + 1 => if 2 ^ (k + 1) ≤ 32 then 0 else 2 ^ (k + 1) * 2 + 1 + scratchWords k

section Level

variable {storage : List UInt64} {left right output cross count half scratch : Nat}

/-- **The last steps of a level**: the middle product is formed and added to the outer products. -/
theorem combine_spec {leftOrder rightOrder : Int} {total : Nat} (shorter : half < count)
    (apart : output + (count + count) ≤ cross) (room : cross + (count + 1) ≤ storage.length)
    (total_eq : (total : Int) = value (window storage output count) + value (window storage (output + count) count) +
      turn leftOrder rightOrder * value (window storage cross count))
    (fits : value (window storage output (count + count)) + radix ^ half * total < radix ^ (count + count)) :
    Yields (do
        let storage ← middleProduct storage output cross count leftOrder rightOrder
        let state ← countUp (additionRound (output + half) cross) 0 (count + 1) (storage, 0)
        carryOut state.1 (output + half + (count + 1)) state.2) fun result =>
      Kept (fun j => Within output (count + count) j ∨ Within cross (count + 1) j) storage result ∧
        value (window result output (count + count)) =
          value (window storage output (count + count)) + radix ^ half * total := by
  refine (middle_spec apart room total_eq).bind fun middle formed => ?_
  obtain ⟨kept, product⟩ := formed
  have outer : value (window middle output (count + count)) = value (window storage output (count + count)) :=
    kept.value_window fun j lt => by unfold Within; omega
  have start : AdditionInv middle output cross count half 0 (middle, 0) := ⟨Kept.refl _ _, by omega, by simp⟩
  refine (countUp_yields (AdditionInv middle output cross count half) start fun index state _ lt inv =>
    additionRound_spec (by omega) shorter apart (by rw [kept.1]; exact room) inv).bind fun state inv => ?_
  rw [Nat.zero_add] at inv
  have sum := inv.sum
  rw [product, outer] at sum
  rw [Nat.add_assoc output half]
  refine (carryOut_spec (by rw [inv.kept.1, kept.1]; omega) inv.bit sum fits).mono fun result spec => ⟨?_, spec.2⟩
  exact (kept.mono fun j h => .inr h).trans ((inv.kept.trans spec.1).mono fun j h => .inl h)

end Level

/-- **What a call for operands of `count` words does**, with `extra` scratch words behind its output: it denotes the
product in its output, and keeps every word outside the output and the scratch words. -/
def Multiplies (count extra : Nat) : Prop :=
  ∀ {storage : List UInt64} {left right output scratch : Nat},
    left + count ≤ right → right + count ≤ output → output + (count + count) ≤ scratch →
    scratch + extra ≤ storage.length →
    Yields (multiplyWords storage left right output count scratch) fun result =>
      Kept (fun j => Within output (count + count) j ∨ Within scratch extra j) storage result ∧
        value (window result output (count + count)) =
          value (window storage left count) * value (window storage right count)

theorem multiplies_base {count : Nat} (short : count ≤ 32) (extra : Nat) : Multiplies count extra := by
  intro storage left right output scratch first second third room
  rw [multiplyWords, Nat.mul_two]
  refine (clear_spec (by omega)).bind fun cleared spec => ?_
  rw [if_pos short]
  exact (base_spec (by omega) second (by omega) spec.1 spec.2).mono fun result done =>
    ⟨done.1.mono fun j h => .inl h, done.2⟩

/-- **A level of the recursion.** -/
theorem multiplies_level {half extra : Nat} (long : 32 < half + half) (call : Multiplies half extra) :
    Multiplies (half + half) ((half + half) * 2 + 1 + extra) := by
  intro storage left right output scratch first second third room
  have halved : (half + half) / 2 = half := by omega
  -- the inputs lie below everything that is written
  have input : ∀ {s s' : List UInt64} {offset n : Nat}, Kept (output ≤ ·) s s' → offset + n ≤ output →
      value (window s' offset n) = value (window s offset n) := fun kept below =>
    kept.value_window fun j lt => by omega
  rw [multiplyWords, Nat.mul_two (half + half)]
  refine (clear_spec (by omega)).bind fun s1 cleared => ?_
  rw [if_neg (by omega), halved]
  have k1 : Kept (output ≤ ·) storage s1 := cleared.1.mono fun j h => h.1
  have l1 := k1.1
  refine (@call _ _ _ _ scratch (by omega) (by omega) (by omega) (by omega)).bind fun s2 low => ?_
  have k2 : Kept (output ≤ ·) storage s2 := k1.trans (low.1.mono fun j h => by unfold Within at h; omega)
  have l2 := k2.1
  refine (@call _ _ _ _ scratch (by omega) (by omega) (by omega) (by omega)).bind fun s3 high => ?_
  have k3 : Kept (output ≤ ·) storage s3 := k2.trans (high.1.mono fun j h => by unfold Within at h; omega)
  have l3 := k3.1
  have lowProduct : value (window s3 output (half + half)) =
      value (window storage left half) * value (window storage right half) := by
    rw [high.1.value_window fun j lt => by unfold Within; omega, low.2, input k1 (by omega), input k1 (by omega)]
  have highProduct : value (window s3 (output + (half + half)) (half + half)) =
      value (window storage (left + half) half) * value (window storage (right + half) half) := by
    rw [high.2, input k2 (by omega), input k2 (by omega)]
  rw [order_spec (by omega), order_spec (by omega)]
  refine (deltas_spec (by omega) (by omega) (by omega)).bind fun deltas distances => ?_
  rw [input k3 (by omega), input k3 (by omega), input k3 (by omega), input k3 (by omega)] at distances ⊢
  generalize order (value (window storage left half)) (value (window storage (left + half) half)) = leftOrder at *
  generalize order (value (window storage right half)) (value (window storage (right + half) half)) = rightOrder at *
  have l4 := distances.1.1
  refine (call (by omega) (by omega) (by omega) (by omega)).bind fun s5 crossed => ?_
  have l5 := crossed.1.1
  have behind : Kept (scratch ≤ ·) s3 s5 := by
    refine (distances.1.mono fun j h => h.1).trans (crossed.1.mono fun j h => ?_)
    unfold Within at h
    omega
  have outer : ∀ {offset n : Nat}, offset + n ≤ scratch → value (window s5 offset n) = value (window s3 offset n) :=
    fun below => behind.value_window fun j lt => by omega
  have whole : value (window s5 output (half + half + (half + half))) =
      value (window storage left half) * value (window storage right half) + radix ^ (half + half) *
        (value (window storage (left + half) half) * value (window storage (right + half) half)) := by
    rw [value_window_add (half + half) (by omega), outer (by omega), outer (by omega), lowProduct, highProduct]
  have first := value_window_add half (show left + half ≤ storage.length by omega)
  have second := value_window_add half (show right + half ≤ storage.length by omega)
  have product : value (window storage left (half + half)) * value (window storage right (half + half)) =
      value (window s5 output (half + half + (half + half))) + radix ^ half *
        (value (window storage left half) * value (window storage (right + half) half) +
          value (window storage (left + half) half) * value (window storage right half)) := by
    rw [whole, first, second, pow_add]
    ring
  have total_eq : ((value (window storage left half) * value (window storage (right + half) half) +
        value (window storage (left + half) half) * value (window storage right half) : Nat) : Int) =
      value (window s5 output (half + half)) + value (window s5 (output + (half + half)) (half + half)) +
        turn leftOrder rightOrder * value (window s5 (scratch + (half + half)) (half + half)) := by
    have square : sign leftOrder * sign rightOrder * (sign leftOrder * sign rightOrder) = 1 := by
      rw [mul_mul_mul_comm, sign_mul_self, sign_mul_self, one_mul]
    rw [outer (by omega), outer (by omega), lowProduct, highProduct, crossed.2, turn_eq]
    push_cast
    rw [distances.2]
    linear_combination (((value (window storage left half) : Int) - value (window storage (left + half) half)) *
      ((value (window storage right half) : Int) - value (window storage (right + half) half))) * square
  have fits : value (window s5 output (half + half + (half + half))) + radix ^ half *
      (value (window storage left half) * value (window storage (right + half) half) +
        value (window storage (left + half) half) * value (window storage right half)) <
      radix ^ (half + half + (half + half)) := by
    rw [← product, pow_add radix (half + half)]
    exact Nat.mul_lt_mul'' (value_window_lt ..) (value_window_lt ..)
  refine (combine_spec (by omega) (by omega) (by omega) total_eq fits).mono fun result spec =>
    ⟨?_, by rw [spec.2, product]⟩
  refine (cleared.1.mono ?_).trans ((low.1.mono ?_).trans ((high.1.mono ?_).trans ((distances.1.mono ?_).trans
    ((crossed.1.mono ?_).trans (spec.1.mono ?_)))))
  all_goals
    intro j h
    unfold Within at *
    omega

/-- **The recursion** for operands of `2 ^ k` words. -/
theorem multiplyWords_spec (k : Nat) : Multiplies (2 ^ k) (scratchWords k) := by
  induction k with
  | zero => exact multiplies_base (by decide) _
  | succ k ih =>
    rw [scratchWords]
    split
    · rename_i short
      exact multiplies_base short _
    · rename_i long
      rw [pow_succ, Nat.mul_two] at long ⊢
      exact multiplies_level (by omega) ih

/-- **The workspace is enough**: the recursion needs less than four words for each word of an operand. -/
theorem scratchWords_le {k : Nat} (le : k ≤ 64) : scratchWords k ≤ 2 ^ k * 4 := by
  have bound : ∀ k, scratchWords k = 0 ∨ scratchWords k + 128 ≤ 2 ^ k * 4 + k := by
    intro k
    induction k with
    | zero => exact .inl rfl
    | succ k ih =>
      rw [scratchWords]
      split
      · exact .inl rfl
      · rename_i long
        have five : 5 < k + 1 := (Nat.pow_lt_pow_iff_right (by decide : 1 < 2)).mp (Nat.lt_of_not_le long)
        have := Nat.pow_le_pow_right (by decide : 0 < 2) (show 5 ≤ k by omega)
        omega
  have := bound k
  omega

/-! ## 3. Multiplication -/

/-- The count is doubled from one on until it reaches both lengths. -/
def doubled (a b count : Nat) : Nat :=
  if 0 < count ∧ (count < a ∨ count < b) then doubled a b (count * 2) else count
termination_by a + b - count

def copyRound (source : List UInt64) (offset target index : Nat) (storage : List UInt64) : Option (List UInt64) := do
  writeAt storage (target + index) (← readAt source (offset + index))

def multiplyLarge (left right : Natural) : Option Natural := do
  let count := doubled left.length right.length 1
  let storage ← countUp (copyRound left 0 0) 0 left.length (zeroed (count * 8 + 32))
  let storage ← countUp (copyRound right 0 count) 0 right.length storage
  let storage ← multiplyWords storage 0 count (count * 2) count (count * 4)
  let destination ← countUp (copyRound storage (count * 2) 0) 0 (left.length + right.length)
    (zeroed (left.length + right.length))
  return trim destination

/-- The product by rows. -/
def multiplySmall (left right : Natural) : Option Natural := do
  let destination ← multiplyTo left right (zeroed (left.length + right.length))
  return trim destination

def multiply (left right : Natural) : Option Natural :=
  if left.length = 0 ∨ right.length = 0 then some (zeroed 0)
  else if 64 < left.length ∧ 64 < right.length ∧ left.length ≤ right.length * 2 ∧ right.length ≤ left.length * 2 then
    multiplyLarge left right
  else multiplySmall left right

theorem doubled_spec {a b k : Nat} (ha : a < 2 ^ 64) (hb : b < 2 ^ 64) (le : k ≤ 64) :
    ∃ k', k' ≤ 64 ∧ doubled a b (2 ^ k) = 2 ^ k' ∧ a ≤ 2 ^ k' ∧ b ≤ 2 ^ k' := by
  have room := Nat.two_pow_pos k
  rw [doubled]
  split
  · rename_i short
    have next : k < 64 := by
      by_contra last
      rw [show k = 64 by omega] at short
      omega
    have ⟨k', rest⟩ := @doubled_spec a b (k + 1) ha hb (by omega)
    exact ⟨k', by rw [← pow_succ]; exact rest⟩
  · exact ⟨k, le, rfl, by omega, by omega⟩
termination_by 64 - k

theorem copy_spec {source storage : List UInt64} {offset target count : Nat} (from_ : offset + count ≤ source.length)
    (to_ : target + count ≤ storage.length) :
    Yields (countUp (copyRound source offset target) 0 count storage) fun result =>
      Kept (Within target count) storage result ∧
        ∀ j, j < count → digit result (target + j) = digit source (offset + j) := by
  refine (countUp_yields (fun index result => Kept (Within target count) storage result ∧
    ∀ j, j < index → digit result (target + j) = digit source (offset + j)) ⟨Kept.refl _ _, by simp⟩
    fun index result _ below inv => ?_).mono fun result inv => by rwa [Nat.zero_add] at inv
  obtain ⟨kept, copied⟩ := inv
  have here : target + index < result.length := by rw [kept.1]; omega
  rw [copyRound, readAt_eq (by omega), some_bind, writeAt_eq here]
  refine yields_some.mpr ⟨kept.set ⟨by omega, by omega⟩ _, fun j lt => ?_⟩
  rw [digit_set here]
  split
  · rw [show j = index by omega]
  · exact copied j (by omega)

/-- Words copied into zeros denote what they denoted. -/
theorem value_copied {source storage result : List UInt64} {target count : Nat} (le : source.length ≤ count)
    (copied : ∀ j, j < source.length → digit result (target + j) = digit source j)
    (kept : ∀ j, source.length ≤ j → j < count → digit result (target + j) = digit storage (target + j))
    (zero : ∀ j, digit storage j = 0) : value (window result target count) = value source := by
  apply value_congr
  intro j
  rw [digit_window]
  split
  · by_cases inside : j < source.length
    · exact copied j inside
    · rw [kept j (by omega) (by omega), zero, digit_eq_zero (by omega)]
  · rw [digit_eq_zero (by omega)]

theorem digit_zeroed (n i : Nat) : digit (zeroed n) i = 0 :=
  digit_eq_zero_of_value_lt (i := 0) (by simp) (Nat.zero_le i)

/-- **The large product.** -/
theorem multiplyLarge_spec {a b : Natural} (ha : a.length < 2 ^ 64) (hb : b.length < 2 ^ 64) :
    Yields (multiplyLarge a b) fun result => value result = value a * value b ∧ Trimmed result := by
  obtain ⟨k, le, count_eq, la, lb⟩ := @doubled_spec a.length b.length 0 ha hb (by omega)
  have enough := scratchWords_le le
  rw [multiplyLarge, ← pow_zero 2, count_eq]
  have call := @multiplyWords_spec k
  generalize 2 ^ k = count at *
  refine (copy_spec (by omega) (by rw [length_zeroed]; omega)).bind fun s1 first => ?_
  have l1 := first.1.1
  rw [length_zeroed] at l1
  refine (copy_spec (by omega) (by omega)).bind fun s2 second => ?_
  have l2 := second.1.1
  simp only [Nat.zero_add] at first second
  have left : value (window s2 0 count) = value a := by
    refine value_copied la (fun j lt => ?_) (fun j from_ lt => ?_) (digit_zeroed (count * 8 + 32))
    · rw [second.1.2 _ (by unfold Within; omega), Nat.zero_add, first.2 j lt]
    · rw [second.1.2 _ (by unfold Within; omega), first.1.2 _ (by unfold Within; omega)]
  have right : value (window s2 count count) = value b := by
    refine value_copied lb second.2 (fun j from_ lt => ?_) (digit_zeroed (count * 8 + 32))
    rw [second.1.2 _ (by unfold Within; omega), first.1.2 _ (by unfold Within; omega)]
  refine (@call s2 0 count (count * 2) (count * 4) (by omega)
    (by omega) (by omega) (by omega)).bind fun s3 product => ?_
  have l3 := product.1.1
  rw [left, right] at product
  refine (copy_spec (by omega) (by rw [length_zeroed, Nat.zero_add])).bind fun destination copied => ?_
  have small : value a * value b < radix ^ (a.length + b.length) := by
    rw [pow_add]
    exact Nat.mul_lt_mul'' (value_lt a) (value_lt b)
  refine yields_some.mpr ⟨?_, trimmed_trim _⟩
  have length := copied.1.1
  rw [length_zeroed] at length
  rw [value_trim, ← window_all destination, length, ← Nat.mod_eq_of_lt small, ← product.2,
    value_window_mod _ _ (by omega)]
  apply value_congr
  intro j
  rw [digit_window, digit_window]
  split
  · exact copied.2 j ‹_›
  · rfl

/-- The product by rows. -/
theorem multiplySmall_spec (a b : Natural) :
    Yields (multiplySmall a b) fun result => value result = value a * value b ∧ Trimmed result := by
  refine (multiplyTo_spec (by rw [length_zeroed]) (value_zeroed _)).bind fun destination product => ?_
  exact yields_some.mpr ⟨by rw [value_trim, product.2], trimmed_trim _⟩

theorem multiply_spec {a b : Natural} (ha : a.length < 2 ^ 64) (hb : b.length < 2 ^ 64) :
    Yields (multiply a b) fun result => value result = value a * value b ∧ Trimmed result := by
  rw [multiply]
  split
  · rename_i empty
    refine yields_some.mpr ⟨?_, trimmed_zeroed_zero⟩
    rcases empty with none | none <;> rw [List.length_eq_zero_iff.mp none] <;> simp
  · split
    · exact multiplyLarge_spec ha hb
    · exact multiplySmall_spec a b

/-- **Multiplication is exact**, whichever path the sizes select, and the large path gives the words of the
schoolbook product. (The count of a natural is a 64-bit number.) Every call of the recursion stays in its output and
its scratch words and leaves its inputs, and the scratch words of the largest call fit behind its output. -/
theorem multiply_exact {a b : Natural} (ha : a.length < 2 ^ 64) (hb : b.length < 2 ^ 64) :
    Yields (multiply a b) (fun result => value result = value a * value b ∧ Trimmed result) ∧
      multiplyLarge a b = multiplySmall a b ∧
      ∃ k, doubled a.length b.length 1 = 2 ^ k ∧ 2 ^ k * 4 + scratchWords k ≤ 2 ^ k * 8 + 32 ∧
        ∀ j, j ≤ k → Multiplies (2 ^ j) (scratchWords j) := by
  obtain ⟨large, runs, denotes, trimmed⟩ := multiplyLarge_spec ha hb
  obtain ⟨small, runs', denotes', trimmed'⟩ := multiplySmall_spec a b
  obtain ⟨k, le, count, -, -⟩ := @doubled_spec a.length b.length 0 ha hb (by omega)
  refine ⟨multiply_spec ha hb, ?_, k, count, ?_, fun j _ => multiplyWords_spec j⟩
  · rw [runs, runs', trimmed.ext trimmed' (denotes.trans denotes'.symm)]
  · have := scratchWords_le le
    omega

theorem multiply_exact_of_words :
    Yields (multiply [3, 1] [5]) fun result => value result = value [15, 5] ∧ Trimmed result :=
  (multiply_exact (a := [3, 1]) (b := [5]) (by decide) (by decide)).1.mono fun _ h =>
    ⟨h.1.trans (by simp; ring), h.2⟩

end Bray.Numeric
