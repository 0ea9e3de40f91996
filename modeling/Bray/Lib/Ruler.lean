/-
  File:      Bray/Lib/Ruler.lean
  Subject:   RULERS: positions along a sequence, measured by what its elements weigh. Nothing of this
  repository is named here.

  A sequence whose elements have positive weights is measured by several units at once (bytes, code units,
  elements). `marks w start xs` are the positions at which the elements begin; they ascend, so a binary
  search among them finds the element at a position, or says between which elements it falls.
-/
import Mathlib

namespace Bray.Lib

open List

variable {α : Type}

/-! ## 1. Measuring a sequence -/

/-- What the elements weigh together. -/
def span (w : α → Nat) (xs : List α) : Nat := (xs.map w).sum

@[simp] theorem span_nil (w : α → Nat) : span w [] = 0 := rfl

@[simp] theorem span_cons (w : α → Nat) (x : α) (xs : List α) :
  span w (x :: xs) = w x + span w xs := by simp [span]

@[simp] theorem span_append (w : α → Nat) (xs ys : List α) :
  span w (xs ++ ys) = span w xs + span w ys := by simp [span]

theorem span_take_le (w : α → Nat) (xs : List α) (i : Nat) : span w (xs.take i) ≤ span w xs := by
  conv_rhs => rw [← take_append_drop i xs, span_append]
  exact Nat.le_add_right _ _

variable {w : α → Nat} {xs : List α}

theorem span_take_succ {i : Nat} (h : i < xs.length) :
    span w (xs.take (i + 1)) = span w (xs.take i) + w (xs.get ⟨i, h⟩) := by
  rw [take_succ_eq_append_getElem h, span_append]
  simp

section Positive

variable {w : α → Nat} (pos : ∀ x, 0 < w x)

include pos

variable {xs : List α}

theorem span_pos (ne : xs ≠ []) : 0 < span w xs := by
  cases xs with
  | nil => exact absurd rfl ne
  | cons x xs =>
    exact Nat.lt_of_lt_of_le (pos x) (Nat.le_add_right _ _)

theorem length_le_span (xs : List α) : xs.length ≤ span w xs := by
  induction xs with
  | nil => exact Nat.le_refl _
  | cons x xs ih =>
    have := pos x
    rw [length_cons, span_cons]
    omega

/-- A longer part of the sequence measures more. -/
theorem span_take_lt {i j : Nat} (lt : i < j) (le : j ≤ xs.length) : span w (xs.take i) < span w (xs.take j) := by
  have first : i < xs.length := Nat.lt_of_lt_of_le lt le
  have step : span w (xs.take i) < span w (xs.take (i + 1)) := by
    rw [span_take_succ first]
    exact Nat.lt_add_of_pos_right (pos _)
  have rest : span w (xs.take (i + 1)) ≤ span w (xs.take j) := by
    have := span_take_le w (xs.take j) (i + 1)
    rwa [take_take, Nat.min_eq_left lt] at this
  exact Nat.lt_of_lt_of_le step rest

/-- **The measure of a part orders the parts as their lengths do.** -/
theorem span_take_lt_iff {i j : Nat} (hi : i ≤ xs.length) (hj : j ≤ xs.length) :
    span w (xs.take i) < span w (xs.take j) ↔ i < j := by
  constructor
  · intro h
    rcases Nat.lt_trichotomy i j with lt | rfl | gt
    · exact lt
    · exact absurd h (Nat.lt_irrefl _)
    · exact absurd (span_take_lt pos gt hi) (Nat.not_lt.mpr (Nat.le_of_lt h))
  · exact fun h => span_take_lt pos h hj

theorem span_take_inj {i j : Nat} (hi : i ≤ xs.length) (hj : j ≤ xs.length)
    (same : span w (xs.take i) = span w (xs.take j)) : i = j := by
  rcases Nat.lt_trichotomy i j with lt | rfl | gt
  · exact absurd same (Nat.ne_of_lt (span_take_lt pos lt hj))
  · rfl
  · exact absurd same (Nat.ne_of_gt (span_take_lt pos gt hi))

end Positive

/-! ## 2. Where the elements begin -/

/-- The positions at which the elements begin, the first at `start`. -/
def marks (w : α → Nat) (start : Nat) : List α → List Nat
  | [] => []
  | x :: xs => start :: marks w (start + w x) xs

@[simp] theorem length_marks (w : α → Nat) (start : Nat) (xs : List α) : (marks w start xs).length = xs.length := by
  induction xs generalizing start with
  | nil => rfl
  | cons x xs ih => simp [marks, ih]

theorem marks_append (w : α → Nat) (start : Nat) (xs ys : List α) :
    marks w start (xs ++ ys) = marks w start xs ++ marks w (start + span w xs) ys := by
  induction xs generalizing start with
  | nil => simp [marks]
  | cons x xs ih => simp [marks, ih, Nat.add_assoc]

/-- The mark of an element is what stands before it. -/
theorem marks_getElem?_eq_some {start : Nat} {i mark : Nat} :
    (marks w start xs)[i]? = some mark ↔ i < xs.length ∧ mark = start + span w (xs.take i) := by
  induction xs generalizing start i with
  | nil => simp [marks]
  | cons x xs ih =>
    cases i with
    | zero => simp [marks, eq_comm]
    | succ i => simp [marks, ih, Nat.add_assoc]

theorem le_of_mem_marks {start mark : Nat} (mem : mark ∈ marks w start xs) : start ≤ mark := by
  obtain ⟨i, at_i⟩ := mem_iff_getElem?.mp mem
  have := (marks_getElem?_eq_some.mp at_i).2
  omega

/-- The marks ascend, whatever the last element weighs. -/
theorem marks_sorted (pos : ∀ x ∈ xs.dropLast, 0 < w x) (start : Nat) : (marks w start xs).Pairwise (· < ·) := by
  induction xs generalizing start with
  | nil => exact List.Pairwise.nil
  | cons x xs ih =>
    rw [marks, pairwise_cons]
    cases xs with
    | nil => simp [marks]
    | cons y ys =>
      refine ⟨fun mark mem => ?_, ih (fun z hz => pos z (.tail _ hz)) _⟩
      have := le_of_mem_marks mem
      have := pos x (.head _)
      omega

/-! ## 3. Searching the marks -/

/-- The index behind the first keys below a bound. -/
def insertionPoint (keys : List Nat) (key : Nat) : Nat :=
  (keys.takeWhile fun other => other < key).length

/-- A binary search of ascending keys: `ok` the index of the key, or `error` the index at which it could be
inserted. -/
def binarySearch (keys : List Nat) (key : Nat) : Except Nat Nat :=
  if keys[insertionPoint keys key]? = some key then .ok (insertionPoint keys key)
  else .error (insertionPoint keys key)

theorem insertionPoint_le (keys : List Nat) (key : Nat) : insertionPoint keys key ≤ keys.length :=
  (takeWhile_sublist _).length_le

variable {keys : List Nat}

section

variable (sorted : keys.Pairwise (· < ·))
include sorted

/-- In ascending keys, the keys below a bound are the first ones. -/
theorem lt_iff_insertionPoint (key : Nat) {i mark : Nat}
    (at_i : keys[i]? = some mark) : mark < key ↔ i < insertionPoint keys key := by
  unfold insertionPoint
  induction keys generalizing i with
  | nil => simp at at_i
  | cons first keys ih =>
    rw [pairwise_cons] at sorted
    by_cases below : first < key
    · rw [takeWhile_cons_of_pos (by simpa using below), length_cons]
      cases i with
      | zero =>
        have : first = mark := by simpa using at_i
        omega
      | succ i =>
        rw [ih sorted.2 at_i]
        omega
    · rw [takeWhile_cons_of_neg (by simpa using below)]
      have : first ≤ mark := by
        cases i with
        | zero => exact Nat.le_of_eq (by simpa using at_i)
        | succ i =>
          exact Nat.le_of_lt (sorted.1 mark (mem_of_getElem? at_i))
      simp only [length_nil, Nat.not_lt_zero, iff_false]
      omega

theorem insertionPoint_eq {key i : Nat} (at_i : keys[i]? = some key) : insertionPoint keys key = i := by
  have upper : ¬ i < insertionPoint keys key :=
    (lt_iff_insertionPoint sorted key at_i).not.mp (Nat.lt_irrefl key)
  refine Nat.le_antisymm (Nat.not_lt.mp upper) (Nat.not_lt.mp fun lower => ?_)
  obtain ⟨bound, at_key⟩ := List.getElem_of_getElem? at_i
  have short := getElem?_eq_getElem (Nat.lt_trans lower bound)
  have above := (lt_iff_insertionPoint sorted key short).not.mpr (Nat.lt_irrefl _)
  have ascends := pairwise_iff_getElem.mp sorted _ _ (Nat.lt_trans lower bound) bound lower
  omega

/-- **A search that succeeds** has found the key. -/
theorem binarySearch_eq_ok {key i : Nat} : binarySearch keys key = .ok i ↔ keys[i]? = some key := by
  unfold binarySearch
  constructor
  · intro found
    split at found
    · cases found
      assumption
    · cases found
  · intro at_i
    rw [insertionPoint_eq sorted at_i, if_pos at_i]

/-- **A search that fails** says where the key falls: behind the keys below it, before those above it. -/
theorem binarySearch_eq_error {key i : Nat} (missed : binarySearch keys key = .error i) :
    key ∉ keys ∧ i ≤ keys.length ∧ ∀ j mark, keys[j]? = some mark → (mark < key ↔ j < i) := by
  have at_point : i = insertionPoint keys key := by
    unfold binarySearch at missed
    split at missed
    · cases missed
    · cases missed
      rfl
  refine ⟨fun mem => ?_, at_point ▸ insertionPoint_le keys key, fun j mark at_j => ?_⟩
  · obtain ⟨j, at_j⟩ := mem_iff_getElem?.mp mem
    rw [(binarySearch_eq_ok sorted).mpr at_j] at missed
    cases missed
  · rw [at_point]
    exact lt_iff_insertionPoint sorted key at_j

end

end Bray.Lib
