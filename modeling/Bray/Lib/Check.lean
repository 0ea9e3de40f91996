/-
  File:      Bray/Lib/Check.lean
  Subject:   CHECKS: a check is an `Option Unit`, and a validation runs one check after another.

  A check that fails is `none` and ends the validation. A validation that succeeds has passed every
  check in it, so its success is a conjunction. The lemmas say so for each way of combining checks, and
  as simp lemmas they turn the success of a validation into the facts it establishes.
-/
import Mathlib.Data.List.Basic
import Mathlib.Data.Option.Basic

namespace Bray.Lib

/-! ## 1. Checks without an error -/

variable {α β : Type}

/-- A step that yields a value hands it to the next one. -/
theorem some_bind {a : α} {rest : α → Option β} : (some a >>= rest) = rest a := rfl

/-- A check followed by anything succeeds when both do. -/
@[simp] theorem check_bind_eq_some {check : Option Unit} {rest : Unit → Option β} {b : β} :
    check.bind rest = some b ↔ check = some () ∧ rest () = some b := by
  cases check with
  | none => simp
  | some u => simp

/-- The same of the steps of a `do`. -/
theorem check_bind {check : Option Unit} {rest : Unit → Option β} {b : β} :
    (check >>= rest) = some b ↔ check = some () ∧ rest () = some b :=
  check_bind_eq_some

/-- A test succeeds where its condition holds. -/
@[simp] theorem guard_eq_some_unit {p : Prop} [Decidable p] : (guard p : Option Unit) = some () ↔ p := by
  by_cases h : p <;> simp [guard, h]

/-- **A loop of checks** succeeds when the check of every element does. -/
@[simp] theorem forM_eq_some {check : α → Option Unit} {xs : List α} :
    forM xs check = some () ↔ ∀ x ∈ xs, check x = some () := by
  induction xs with
  | nil => simp [pure]
  | cons x xs ih => simp [ih]

/-! ## 2. Checks with an error -/

section Errors

variable {ε : Type}

variable {rest : α → Except ε β}

@[simp] theorem except_ok_bind {a : α} : (Except.ok a >>= rest) = rest a := rfl

@[simp] theorem except_error_bind {e : ε} :
  ((Except.error e : Except ε α) >>= rest) = .error e := rfl

/-- A step followed by others succeeds when the step does and the others do with its result. -/
theorem except_bind_eq_ok {step : Except ε α} {b : β} :
    (step >>= rest) = .ok b ↔ ∃ a, step = .ok a ∧ rest a = .ok b := by
  cases step with
  | error e => simp
  | ok a => simp

/-- A step followed by others fails with an error when the step fails with it, or succeeds and the others
fail with it. -/
theorem except_bind_eq_error {step : Except ε α} {e : ε} :
    (step >>= rest) = .error e ↔ step = .error e ∨ ∃ a, step = .ok a ∧ rest a = .error e := by
  cases step with
  | error e' => simp
  | ok a => simp

/-- A loop of checks succeeds when the check of every element does. -/
theorem except_forM_eq_ok {check : α → Except ε PUnit} {xs : List α} {u : PUnit} :
    List.forM xs check = .ok u ↔ ∀ x ∈ xs, check x = .ok () := by
  induction xs with
  | nil => simp [pure, Except.pure]
  | cons x xs ih =>
    rw [List.forM, except_bind_eq_ok]
    simp only [ih, List.forall_mem_cons, exists_and_right]
    exact and_congr_left fun _ => ⟨fun ⟨_, h⟩ => h, fun h => ⟨_, h⟩⟩

end Errors

end Bray.Lib
