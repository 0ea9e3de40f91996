/-
  File:      Bray/Lib/Interval.lean
  Subject:   BOUNDS OF A FUNCTION ON AN INTERVAL. Nothing of this repository is named here.

  A value is spanned by some others when one of them is not above it and one is not below (`Spanned`). A
  function that is monotone or antitone on an interval is spanned by its values at the ends; one of two
  arguments that is so in each of them is spanned by its values at the corners (`spanned_corners`).
-/
import Mathlib.Data.List.Sort
import Mathlib.Order.Interval.Set.Basic

namespace Bray.Lib

open List

variable {α β γ : Type}

/-- A value between two of some values. -/
def Spanned [LE γ] (values : List γ) (value : γ) : Prop :=
  (∃ low ∈ values, low ≤ value) ∧ ∃ high ∈ values, value ≤ high

section Spanned

variable [Preorder γ]

theorem Spanned.of_mem {values : List γ} {value : γ} (mem : value ∈ values) : Spanned values value :=
  ⟨⟨value, mem, le_rfl⟩, value, mem, le_rfl⟩

theorem Spanned.trans {inner values : List γ} {value : γ} (spanned : Spanned inner value)
    (each : ∀ other ∈ inner, Spanned values other) : Spanned values value := by
  obtain ⟨⟨low, mem, below⟩, high, mem', above⟩ := spanned
  obtain ⟨⟨least, mem'', below'⟩, _⟩ := each low mem
  obtain ⟨_, greatest, mem''', above'⟩ := each high mem'
  exact ⟨⟨least, mem'', below'.trans below⟩, greatest, mem''', above.trans above'⟩

theorem Spanned.subset {inner values : List γ} {value : γ} (spanned : Spanned inner value)
    (subset : inner ⊆ values) : Spanned values value :=
  spanned.trans fun _ mem => .of_mem (subset mem)

end Spanned

/-! ## Monotone functions -/

/-- A function goes one way on an interval. -/
def OneWayOn [Preorder α] [Preorder γ] (f : α → γ) (low high : α) : Prop :=
  MonotoneOn f (Set.Icc low high) ∨ AntitoneOn f (Set.Icc low high)

section OneWay

variable [Preorder α] [Preorder β] [Preorder γ]

/-- **A function that goes one way** is spanned by its values at the ends. -/
theorem OneWayOn.spanned {f : α → γ} {low high value : α} (way : OneWayOn f low high)
    (within : value ∈ Set.Icc low high) : Spanned [f low, f high] (f value) := by
  have bottom : low ∈ Set.Icc low high := Set.left_mem_Icc.mpr (within.1.trans within.2)
  have top : high ∈ Set.Icc low high := Set.right_mem_Icc.mpr (within.1.trans within.2)
  rcases way with up | down
  · exact ⟨⟨_, (.head _), up bottom within within.1⟩, _, .tail _ (.head _),
    up within top within.2⟩
  · exact ⟨⟨_, .tail _ (.head _), down within top within.2⟩, _, (.head _),
    down bottom within within.1⟩

/-- **A function that goes one way in each argument** is spanned by its values at the corners. -/
theorem spanned_corners {f : α → β → γ} {low high x : α} {low' high' y : β}
    (first : OneWayOn (fun x => f x y) low high) (atLow : OneWayOn (f low) low' high')
    (atHigh : OneWayOn (f high) low' high') (within : x ∈ Set.Icc low high) (within' : y ∈ Set.Icc low' high') :
    Spanned [f low low', f low high', f high low', f high high'] (f x y) := by
  refine (first.spanned within).trans fun other mem => ?_
  rcases mem_cons.mp mem with rfl | mem
  · exact (atLow.spanned within').subset (by simp)
  · obtain rfl := mem_singleton.mp mem
    exact (atHigh.spanned within').subset (by simp)

end OneWay

/-! ## The ends of some values -/

/-- The least and the greatest of two values or more. -/
def extremes [LinearOrder γ] (values : List γ) : Option (γ × γ) :=
  match values.insertionSort (· ≤ ·) with
  | [] => none
  | minimum :: rest => rest.getLast?.map fun maximum => (minimum, maximum)

/-- **What is spanned is between the extremes.** -/
theorem extremes_span [LinearOrder γ] {values : List γ} {ends : γ × γ} {value : γ}
    (found : extremes values = some ends) (spanned : Spanned values value) : ends.1 ≤ value ∧ value ≤ ends.2 := by
  unfold extremes at found
  have sorted := pairwise_insertionSort (· ≤ ·) values
  have perm := perm_insertionSort (· ≤ ·) values
  split at found
  · cases found
  · rename_i minimum rest eq
    obtain ⟨maximum, last, rfl⟩ := Option.map_eq_some_iff.mp found
    obtain ⟨front, rfl⟩ := getLast?_eq_some_iff.mp last
    rw [eq] at sorted perm
    obtain ⟨least, sorted'⟩ := pairwise_cons.mp sorted
    obtain ⟨⟨low, mem, below⟩, high, mem', above⟩ := spanned
    refine ⟨le_trans ?_ below, le_trans above ?_⟩
    · rcases mem_cons.mp (perm.symm.mem_iff.mp mem) with rfl | later
      · exact le_rfl
      · exact least low later
    · rcases mem_cons.mp (perm.symm.mem_iff.mp mem') with rfl | later
      · exact least maximum (mem_append_right _ (.head _))
      · rcases mem_append.mp later with inner | final
        · exact (pairwise_append.mp sorted').2.2 high inner maximum (.head _)
        · exact le_of_eq (mem_singleton.mp final)

end Bray.Lib
