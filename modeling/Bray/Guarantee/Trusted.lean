/-
  File:      Bray/Guarantee/Trusted.lean
  Subject:   PROOFS FROM TRUSTED AND ORDINARY FACTS (`prove_trusted` and `prove_mixed`,
             `condition/proof.rs`).

  A condition is proved from the trusted facts, or else from their closure and the ordinary facts together.
-/
import Bray.Guarantee.Closure
import Mathlib

namespace Bray.Guarantee

open List ExecutionCondition

namespace ExecutionCondition

local instance factsLawful : LawfulBEq (ExecutionCondition × Bool) := inferInstance

/-- The loop over both values: an ordinary fact is no evidence of a qualified condition. -/
def mixedEvidence (trusted ordinary : Assumptions) (condition : ExecutionCondition) : Option Bool :=
  [true, false].find? fun value =>
    ((condition, value) ∈ trusted ∨ (condition, value) ∈ ordinary ∧ condition.containsTrusted = false) ∧
      condition.containsUnknown = false

/-- The last branch of `prove_mixed`. -/
def proveEither (trusted ordinary : Assumptions) (condition : ExecutionCondition) (budget : Nat) :
  Option Bool × Nat :=
  match prove trusted condition budget with
  | (some value, budget) => (some value, budget)
  | (none, budget) => prove ordinary condition budget

def proveMixed (trusted ordinary : Assumptions) : ExecutionCondition → Nat → Option Bool × Nat
  | _, 0 => (none, 0)
  | .boolean value, budget + 1 => (some value, budget)
  | .entry condition _, budget + 1 =>
    if condition.isUnknown then (none, budget) else proveMixed trusted ordinary condition budget
  | .trusted condition, budget + 1 =>
    if condition.isUnknown then (none, budget)
    else (mixedEvidence trusted ordinary (.trusted condition), budget)
  | .operation operator operands, budget + 1 =>
    match mixedEvidence trusted ordinary (.operation operator operands) with
    | some value => (some value, budget)
    | none => match operator, operands with
      | .logicalNot, [operand] =>
        let (value, budget) := proveMixed trusted ordinary operand budget
        (value.map not, budget)
      | .logicalAnd, [left, right] =>
        let (leftValue, budget) := proveMixed trusted ordinary left budget
        let (rightValue, budget) := proveMixed trusted ordinary right budget
        (conjunction leftValue rightValue, budget)
      | .logicalOr, [left, right] =>
        let (leftValue, budget) := proveMixed trusted ordinary left budget
        let (rightValue, budget) := proveMixed trusted ordinary right budget
        (disjunction leftValue rightValue, budget)
      | _, _ => proveEither trusted ordinary (.operation operator operands) budget
  | condition, budget + 1 =>
    if condition.isUnknown then (none, budget)
    else match mixedEvidence trusted ordinary condition with
      | some value => (some value, budget)
      | none => proveEither trusted ordinary condition budget

def proveTrusted (fuel : Nat) (trusted ordinary : Assumptions) (condition : ExecutionCondition) :
  Option (Option Bool) :=
  match (prove trusted condition workLimit).1 with
  | some value => some (some value)
  | none => (trustedConditionClosure fuel trusted ordinary).map fun known =>
    (proveMixed known ordinary condition workLimit).1

end ExecutionCondition

namespace Interpretation

variable {I : Interpretation} {trusted ordinary : Assumptions} {c : ExecutionCondition} {budget : Nat} {v : Bool}

theorem mixedEvidence_sound (hT : I.Satisfies trusted) (hO : I.Satisfies ordinary)
    (h : mixedEvidence trusted ordinary c = some v) : I.eval c = some (.bool v) := by
  have evidence := find?_some h
  rcases (of_decide_eq_true evidence).1 with known | known
  · exact hT _ known
  · exact hO _ known.1

theorem proveEither_sound (hT : I.Satisfies trusted) (hO : I.Satisfies ordinary)
    (h : (proveEither trusted ordinary c budget).1 = some v) : I.eval c = some (.bool v) := by
  unfold proveEither at h
  split at h
  · rename_i proved
    exact prove_sound hT ((congrArg Prod.fst proved).trans h)
  · exact prove_sound hO h

/-- **What is proved from both kinds of facts holds where both hold**, wherever the budget runs out. -/
theorem proveMixed_sound (hT : I.Satisfies trusted) (hO : I.Satisfies ordinary)
    (h : (proveMixed trusted ordinary c budget).1 = some v) : I.eval c = some (.bool v) := by
  induction c using partsInduction generalizing budget v with
  | step c ih =>
    unfold proveMixed at h
    split at h
    · cases h
    · obtain rfl := Option.some.inj h
      rw [eval]
    · split at h
      · cases h
      · simpa only [eval] using ih _ (by rw [size_entry]; omega) h
    · split at h
      · cases h
      · exact mixedEvidence_sound hT hO h
    · next operator operands budget =>
      split at h
      · next known =>
        obtain rfl := Option.some.inj h
        exact mixedEvidence_sound hT hO known
      · have sound {x : ExecutionCondition} (hx : x ∈ operands) (budget : Nat) (w : Bool)
          (e : (proveMixed trusted ordinary x budget).1 = some w) : I.truth (I.eval x) = some w :=
          truth_eq_some.mpr (ih x (size_lt_of_mem hx) e)
        split at h
        · next operand _ =>
          obtain ⟨w, hw, rfl⟩ := Option.map_eq_some_iff.mp h
          rw [eval_not, Bool.not_not]
          exact truth_eq_some.mp (sound (by simp) _ _ hw)
        · have hv := conjunction_mono (sound (by simp) _) (sound (by simp) _) h
          simp only [eval, evalList, operate, hv, Option.map_some]
        · have hv := disjunction_mono (sound (by simp) _) (sound (by simp) _) h
          simp only [eval, evalList, operate, hv, Option.map_some]
        · exact proveEither_sound hT hO h
    · split at h
      · cases h
      · split at h
        · next known =>
          obtain rfl := Option.some.inj h
          exact mixedEvidence_sound hT hO known
        · exact proveEither_sound hT hO h

end Interpretation

/-- **`prove_trusted` answers, and what it answers is the value of the condition** wherever the trusted and
the ordinary facts hold, a qualified occurrence having a truth value only where its condition has it. -/
theorem proveTrusted_sound (trusted ordinary : Assumptions) (c : ExecutionCondition) :
    (∃ fuel answer, ∀ more, proveTrusted (fuel + more) trusted ordinary c = some answer) ∧
    ∀ fuel v, proveTrusted fuel trusted ordinary c = some (some v) → ∀ I : Interpretation, I.Qualified →
      I.Satisfies trusted → I.Satisfies ordinary → I.eval c = some (.bool v) := by
  constructor
  · obtain ⟨fuel, known, closes⟩ := trustedConditionClosure_ends trusted ordinary
    cases proved : (prove trusted c workLimit).1 with
    | some value => exact ⟨0, some value, fun _ => by rw [proveTrusted, proved]⟩
    | none => exact ⟨fuel, _, fun more => by rw [proveTrusted, proved, closes more]; rfl⟩
  · intro fuel v answer I hI hT hO
    unfold proveTrusted at answer
    split at answer
    · next proved =>
      cases answer
      exact Interpretation.prove_sound hT proved
    · obtain ⟨known, closed, answer⟩ := Option.map_eq_some_iff.mp answer
      exact Interpretation.proveMixed_sound
        (Interpretation.trustedConditionClosure_sound hI closed hT hO) hO answer

/-- Of a trusted disjunction an ordinary fact leaves one operand. -/
theorem proveTrusted_sound_left : oneTrue.eval (argument 0) = some (.bool true) := by
  refine (proveTrusted_sound [(either (argument 0) (argument 3), true)] [(argument 3, false)] (argument 0)).2 16
    true (by decide) oneTrue (Interpretation.Transparent.qualified fun _ _ => rfl) ?_ ?_ <;>
  simp [Interpretation.Satisfies, either, argument, Interpretation.eval, Interpretation.evalList,
    Interpretation.operate, oneTrue, standard, Interpretation.truth, disjunction]

end Bray.Guarantee
