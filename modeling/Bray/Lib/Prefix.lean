/-
  File:      Bray/Lib/Prefix.lean
  Subject:   LISTS WITH A COMMON PREFIX LIE TOGETHER in the lexicographic order. Nothing of this
    repository is named here.

  * `prefix_of_between` -- what lies between a list and an extension of it extends it too;
  * `exists_parting` -- lists of which neither extends the other part at some element;
  * `takeWhile_eq_filter` -- so the keys under a prefix are read off from its place to the first
    key that is not under it.
-/
import Mathlib

namespace Bray.Lib

open List

variable {α : Type} [LinearOrder α]

theorem cons_le_cons {x y : α} {xs ys : List α} : x :: xs ≤ y :: ys ↔ x < y ∨ x = y ∧ xs ≤ ys := by
  rw [le_iff_lt_or_eq, cons_lt_cons_iff, le_iff_lt_or_eq, List.cons.injEq]
  tauto

theorem le_append (xs ys : List α) : xs ≤ xs ++ ys := by
  induction xs with
  | nil => exact not_lt.mp (not_lt_nil _)
  | cons x xs ih => exact cons_le_cons.mpr (.inr ⟨rfl, ih⟩)

theorem prefix_of_between {xs ys zs : List α} (low : xs ≤ ys) (high : ys ≤ xs ++ zs) : xs <+: ys := by
  induction xs generalizing ys with
  | nil => exact nil_prefix
  | cons x xs ih =>
    cases ys with
    | nil => exact absurd low (not_le.mpr (nil_lt_cons x xs))
    | cons y ys =>
      rcases cons_le_cons.mp low with lt | ⟨rfl, low'⟩
      · rcases cons_le_cons.mp high with lt' | ⟨rfl, _⟩
        · exact absurd lt' lt.asymm
        · exact absurd lt (lt_irrefl _)
      · rcases cons_le_cons.mp high with lt' | ⟨_, high⟩
        · exact absurd lt' (lt_irrefl _)
        · exact cons_prefix_cons.mpr ⟨rfl, ih low' high⟩

omit [LinearOrder α] in
/-- Two lists of which neither extends the other part somewhere. -/
theorem exists_parting {xs ys : List α} (h : ¬ xs <+: ys) (h' : ¬ ys <+: xs) :
    ∃ common x y xs' ys', xs = common ++ x :: xs' ∧ ys = common ++ y :: ys' ∧ x ≠ y := by
  induction xs generalizing ys with
  | nil => exact absurd nil_prefix h
  | cons x xs ih =>
    cases ys with
    | nil => exact absurd nil_prefix h'
    | cons y ys =>
      by_cases e : x = y
      · subst e
        obtain ⟨common, a, b, xs', ys', rfl, rfl, ne⟩ :=
          ih (fun p => h (cons_prefix_cons.mpr ⟨rfl, p⟩))
            (fun p => h' (cons_prefix_cons.mpr ⟨rfl, p⟩))
        exact ⟨x :: common, a, b, xs', ys', rfl, rfl, ne⟩
      · exact ⟨[], x, y, xs, ys, rfl, rfl, e⟩

omit [LinearOrder α] in
/-- A property that no later element has once one lacks it. -/
theorem takeWhile_eq_filter {p : α → Bool} {xs : List α}
    (h : xs.Pairwise fun x y => p y = true → p x = true) : xs.takeWhile p = xs.filter p := by
  induction xs with
  | nil => rfl
  | cons x xs ih =>
    obtain ⟨head, tail⟩ := pairwise_cons.mp h
    cases hx : p x with
    | true => rw [takeWhile_cons_of_pos hx, filter_cons_of_pos hx, ih tail]
    | false =>
      rw [takeWhile_cons_of_neg (by simp [hx]), filter_cons_of_neg (by simp [hx]),
        filter_eq_nil_iff.mpr fun y hy hp => by simp [head y hy hp] at hx]

end Bray.Lib
