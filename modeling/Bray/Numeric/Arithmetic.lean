/-
  File:      Bray/Numeric/Arithmetic.lean
  Subject:   SCHOOLBOOK MULTIPLICATION of numbers in words: a loop over the words of either factor with a carry.
-/
import Bray.Numeric.Storage

namespace Bray.Numeric

open Bray.Lib

/-- A product of two words added to the word of a slot, with the carry of the slots below. -/
def accumulate (factor : Nat) (w : UInt64) (slot : Nat) (state : List UInt64 × Nat) :
  Option (List UInt64 × Nat) := do
  let combined ← checked 128 (factor * w.toNat + (← readAt state.1 slot).toNat + state.2)
  let destination ← writeAt state.1 slot (truncate combined)
  return (destination, combined >>> 64)

def multiplyRound (right : List UInt64) (factor leftIndex rightIndex : Nat) (state : List UInt64 × Nat) :
  Option (List UInt64 × Nat) := do
  accumulate factor (← readAt right rightIndex) (leftIndex + rightIndex) state

def multiplyRow (left right : List UInt64) (leftIndex : Nat) (destination : List UInt64) :
  Option (List UInt64) := do
  let factor := (← readAt left leftIndex).toNat
  let state ← countUp (multiplyRound right factor leftIndex) 0 right.length (destination, 0)
  writeAt state.1 (leftIndex + right.length) (truncate state.2)

def multiplyTo (left right destination : List UInt64) : Option (List UInt64) :=
  countUp (multiplyRow left right) 0 left.length destination

/-- A product of two words and two more words fit the double width, and the carry fits a word. -/
theorem product_bound {a b c d : Nat} (ha : a < radix) (hb : b < radix) (hc : c < radix) (hd : d < radix) :
    a * b + c + d < radix * radix := by
  have : a * b ≤ (radix - 1) * (radix - 1) := Nat.mul_le_mul (by omega) (by omega)
  rw [radix_eq] at *
  omega

theorem radix_mul_radix : radix * radix = 2 ^ 128 := by decide

/-- **A slot of a row**: the product is added, and the carry stays a word. -/
theorem accumulate_eq {factor slot : Nat} {w : UInt64} {state : List UInt64 × Nat} (word_ : factor < radix)
    (inside : slot < state.1.length) (carry : state.2 < radix) :
    ∃ total, accumulate factor w slot state = some (state.1.set slot (truncate total), total / radix) ∧
      total = factor * w.toNat + (digit state.1 slot).toNat + state.2 ∧ total / radix < radix := by
  have bound := product_bound word_ (toNat_lt_radix w) (toNat_lt_radix (digit state.1 slot)) carry
  refine ⟨_, ?_, rfl, Nat.div_lt_of_lt_mul bound⟩
  rw [accumulate, readAt_eq inside]
  simp only [Option.bind_eq_bind, Option.bind_some]
  rw [checked_eq (by rw [← radix_mul_radix]; exact bound), Option.bind_some, writeAt_eq inside,
    Nat.shiftRight_eq_div_pow, ← radix]
  rfl

structure MultiplyInv (right destination : List UInt64) (factor leftIndex rightIndex : Nat)
  (state : List UInt64 × Nat) : Prop where
  length : state.1.length = destination.length
  carry : state.2 < radix
  below : value state.1 < radix ^ (leftIndex + right.length)
  sum : value state.1 + radix ^ (leftIndex + rightIndex) * state.2 =
    value destination + radix ^ leftIndex * (factor * (value right % radix ^ rightIndex))

theorem multiplyRound_spec {right destination : List UInt64} {factor leftIndex rightIndex : Nat}
    {state : List UInt64 × Nat} (word_ : factor < radix) (inside : rightIndex < right.length)
    (room : leftIndex + right.length < destination.length)
    (inv : MultiplyInv right destination factor leftIndex rightIndex state) :
    Yields (multiplyRound right factor leftIndex rightIndex state)
      (MultiplyInv right destination factor leftIndex (rightIndex + 1)) := by
  have here : leftIndex + rightIndex < state.1.length := by rw [inv.length]; omega
  obtain ⟨total, runs, sum, bound⟩ := accumulate_eq (w := digit right rightIndex) word_ here inv.carry
  rw [multiplyRound, readAt_eq inside, some_bind, runs]
  refine yields_some.mpr ⟨?_, bound, ?_, ?_⟩
  · rw [List.length_set, inv.length]
  · exact value_set_lt inv.below (by omega) _
  · rw [← Nat.add_assoc, carry_add_step here inv.sum sum, value_mod_succ right]
    ring

theorem multiplyRow_spec {left right destination : List UInt64} {leftIndex : Nat}
    (inside : leftIndex < left.length) (room : leftIndex + right.length < destination.length)
    (empty : value destination < radix ^ (leftIndex + right.length)) :
    Yields (multiplyRow left right leftIndex destination) fun result => result.length = destination.length ∧
      value result = value destination + radix ^ leftIndex * ((digit left leftIndex).toNat * value right) := by
  have start : MultiplyInv right destination (digit left leftIndex).toNat leftIndex 0 (destination, 0) :=
    ⟨rfl, radix_pos, empty, by simp [Nat.mod_one]⟩
  rw [multiplyRow, readAt_eq inside]
  refine (countUp_yields (MultiplyInv right destination (digit left leftIndex).toNat leftIndex) start
    fun index state _ below => multiplyRound_spec (toNat_lt_radix _) (by simpa using below) room).bind
    fun state inv => ?_
  rw [Nat.zero_add] at inv
  have here : leftIndex + right.length < state.1.length := by rw [inv.length]; exact room
  have sum := inv.sum
  rw [value_mod_length] at sum
  rw [writeAt_eq here]
  refine yields_some.mpr ⟨by rw [List.length_set, inv.length], ?_⟩
  rw [value_set_of_lt here inv.below, toNat_truncate, Nat.mod_eq_of_lt inv.carry, sum]

/-- **Schoolbook multiplication** into a destination of zeros. -/
theorem multiplyTo_spec {left right destination : List UInt64}
    (room : left.length + right.length ≤ destination.length) (empty : value destination = 0) :
    Yields (multiplyTo left right destination) fun result =>
      result.length = destination.length ∧ value result = value left * value right := by
  have start : destination.length = destination.length ∧
    value destination = value left % radix ^ 0 * value right := ⟨rfl, by simp [empty, Nat.mod_one]⟩
  refine (countUp_yields (fun index (state : List UInt64) => state.length = destination.length ∧
    value state = value left % radix ^ index * value right) start fun index state _ below inv => ?_).mono
    fun result inv => ?_
  · obtain ⟨length, so_far⟩ := inv
    rw [Nat.zero_add] at below
    have small : value state < radix ^ (index + right.length) := by
      rw [so_far, pow_add]
      exact Nat.mul_lt_mul_of_lt_of_le (Nat.mod_lt _ (radix_pow_pos _)) (value_lt right).le (radix_pow_pos _)
    refine (multiplyRow_spec below (by omega) small).mono fun result spec => ⟨by rw [spec.1, length], ?_⟩
    rw [spec.2, so_far, value_mod_succ left]
    ring
  · rwa [Nat.zero_add, value_mod_length] at inv

end Bray.Numeric
