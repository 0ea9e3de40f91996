/-
  File:      Bray/Guarantee/Operators.lean
  Subject:   NORMAL FORMS MEAN WHAT THEY STAND FOR (`ExecutionCondition::operation`), and an
    assumed outcome is taken apart into its consequences (`assume`, `assume_with`).

  An interpretation with an `Arithmetic` gives every operator a meaning on operand values. A
  logical normal form has the truth value of the operator, three-valued as it is. Any other is
  unknown as soon as an operand contains an unknown part; else its value is the operator's, of
  unordered values too, provided the operands of a comparison have values: without them `x < x`
  and the absence of a present value are decided all the same.
-/
import Bray.Guarantee.Sound

namespace Bray.Guarantee

open List

namespace ExecutionCondition

/-! ## 1. Assuming an outcome -/

mutual
/-- `observes_borrowed(None)` -/
def observesBorrowed : ExecutionCondition → Bool
  | .borrowed _ => true
  | .operation _ operands | .predicate _ _ operands | .call _ _ _ operands =>
    observesBorrowedAny operands
  | .tagged _ value | .variantTest _ value | .trusted value | .projection _ value
  | .present value => value.observesBorrowed
  | .entry condition false => condition.observesBorrowed
  | _ => false
termination_by structural c => c
def observesBorrowedAny : List ExecutionCondition → Bool
  | [] => false
  | x :: xs => x.observesBorrowed || observesBorrowedAny xs
termination_by structural c => c
end

/-- The last arm of `assume_with`: the condition itself, unless a part of it is unknown. -/
def assumeWhole (condition : ExecutionCondition) (value : Bool) : Assumptions :=
  if condition.containsUnknown then [] else [(condition, value)]

mutual
/-- `assume_with`: what is inserted, in order. An unknown condition inserts nothing. -/
def assumeWith : ExecutionCondition → Bool → Assumptions
  | .unknown, _ => []
  | .entry condition captured, value =>
    if condition.isUnknown then []
    else if captured && !condition.containsTrusted && !condition.observesBorrowed then
      assumeWith condition value
    else assumeWhole (.entry condition captured) value
  | .trusted condition, value =>
    if condition.isUnknown then []
    else assumeWhole (.trusted condition) value ++ assumeWith condition value
  | .operation .logicalNot [operand], value => assumeWith operand !value
  | .operation .logicalAnd operands, true => assumeAll operands true
  | .operation .logicalOr operands, false => assumeAll operands false
  | condition, value => if condition.isUnknown then [] else assumeWhole condition value
termination_by structural c => c
def assumeAll : List ExecutionCondition → Bool → Assumptions
  | [], _ => []
  | x :: xs, value => assumeWith x value ++ assumeAll xs value
termination_by structural c => c
end

/-- `assume` -/
def assume (condition : ExecutionCondition) (value : Bool) (assumptions : Assumptions) :
  Assumptions :=
  assumeWith condition value ++ assumptions

/-! ## 2. What an absence test looks at -/

/-- The term that an absence test comes to through borrows and updated payloads. -/
def observedValue : ExecutionCondition → ExecutionCondition
  | .borrowed subject => subject.observedValue
  | .constructed base fields =>
    if nullableFields fields then base.observedValue else .constructed base fields
  | condition => condition

theorem containsUnknown_observedValue {c : ExecutionCondition} (h : c.containsUnknown = true) :
    c.observedValue.containsUnknown = true := by
  fun_induction observedValue c with
  | case1 subject ih => exact ih h
  | case2 base fields _ _ => cases h
  | case3 base fields _ => cases h
  | case4 c _ _ => exact h

theorem scalarContents_idem (c : ExecutionCondition) : c.scalarContents.scalarContents = c.scalarContents := by
  cases c with
  | constructed base fields =>
    cases hb : componentBase base fields <;> simp only [scalarContents, hb]
  | _ => rfl

theorem observedValue_of_observedNullable {c s : ExecutionCondition}
    (h : c.observedNullable = some s) : c.observedValue = s.observedValue := by
  unfold observedNullable at h
  split at h
  · cases h
    rfl
  · next base fields =>
    obtain ⟨hn, h⟩ := Option.ite_none_right_eq_some.mp h
    cases h
    simp only [observedValue, hn, if_true]
  · cases h

/-- Whether an operand is first replaced by the scalar it is a snapshot of makes no difference. -/
theorem observedValue_scalarContents (c : ExecutionCondition) :
    c.scalarContents.observedValue.scalarContents = c.observedValue.scalarContents := by
  cases c with
  | constructed base fields =>
    have scalar : ∀ s, componentBase base fields = s → s.observedValue = s →
      (constructed base fields).scalarContents = s →
      s.observedValue.scalarContents = (constructed base fields).observedValue.scalarContents := by
      intro s hb hs e
      by_cases hn : nullableFields fields = true
      · rw [Interpretation.componentBase_of_nullable base hn] at hb
        simp only [observedValue, hn, if_true, hb]
      · simp only [observedValue, hn, Bool.false_eq_true, if_false, e, hs]
        rw [← e, scalarContents_idem]
    generalize hb : componentBase base fields = s at scalar
    cases s with
    | literal value =>
      have e : (constructed base fields).scalarContents = .literal value := by
        simp only [scalarContents, hb]
      rw [e]
      exact scalar _ rfl rfl e
    | boolean value =>
      have e : (constructed base fields).scalarContents = .boolean value := by
        simp only [scalarContents, hb]
      rw [e]
      exact scalar _ rfl rfl e
    | _ =>
      have e : (constructed base fields).scalarContents = constructed base fields := by
        simp only [scalarContents, hb]
      rw [e]
  | _ => rfl

theorem containsUnknown_scalarContents (c : ExecutionCondition) :
    c.scalarContents.containsUnknown = c.containsUnknown := by
  cases c with
  | constructed base fields =>
    simp only [scalarContents]
    split <;> rfl
  | _ => rfl

theorem containsUnknownAny_iff {xs : List ExecutionCondition} :
    containsUnknownAny xs = true ↔ ∃ x ∈ xs, x.containsUnknown = true := by
  induction xs with
  | nil => simp [containsUnknownAny]
  | cons x xs ih => simp [containsUnknownAny, ih]

theorem containsUnknownAny_scalarContents (xs : List ExecutionCondition) :
    containsUnknownAny (xs.map scalarContents) = containsUnknownAny xs := by
  induction xs with
  | nil => rfl
  | cons x xs ih => simp only [map_cons, containsUnknownAny, containsUnknown_scalarContents, ih]

end ExecutionCondition

open Bray.Lib
open ExecutionCondition

namespace Interpretation

variable {I : Interpretation}

/-! ## 3. Consequences of an outcome -/

theorem satisfies_nil : I.Satisfies [] := by simp [Satisfies]

theorem satisfies_append {xs ys : Assumptions} : I.Satisfies (xs ++ ys) ↔ I.Satisfies xs ∧ I.Satisfies ys := by
  simp [Satisfies, or_imp, forall_and]

variable {c left right : ExecutionCondition}

theorem satisfies_assumeWhole {v : Bool} (h : I.eval c = some (.bool v)) : I.Satisfies (assumeWhole c v) := by
  unfold assumeWhole
  split
  · exact satisfies_nil
  · simpa [Satisfies] using h

variable {xs operands : List ExecutionCondition}

theorem operands_of_and (h : I.eval (.operation .logicalAnd xs) = some (.bool true)) :
    ∀ x ∈ xs, I.eval x = some (.bool true) := by
  match xs with
  | [left, right] =>
    simp only [eval, evalList, operate, Option.map_eq_some_iff, Value.bool.injEq] at h
    obtain ⟨_, h, rfl⟩ := h
    unfold conjunction at h
    split at h
    · cases h
    · cases h
    · next hl hr => simpa using ⟨truth_eq_some.mp hl, truth_eq_some.mp hr⟩
    · cases h
  | [] | [_] | _ :: _ :: _ :: _ => simp [eval, evalList, operate] at h

theorem operands_of_or (h : I.eval (.operation .logicalOr xs) = some (.bool false)) :
    ∀ x ∈ xs, I.eval x = some (.bool false) := by
  match xs with
  | [left, right] =>
    simp only [eval, evalList, operate, Option.map_eq_some_iff, Value.bool.injEq] at h
    obtain ⟨_, h, rfl⟩ := h
    unfold disjunction at h
    split at h
    · cases h
    · cases h
    · next hl hr => simpa using ⟨truth_eq_some.mp hl, truth_eq_some.mp hr⟩
    · cases h
  | [] | [_] | _ :: _ :: _ :: _ => simp [eval, evalList, operate] at h

/-- A qualified occurrence has a truth value only where its condition has it. -/
def Qualified (I : Interpretation) : Prop :=
  ∀ c value b, I.trusted c value = some (.bool b) → value = some (.bool b)

theorem Transparent.qualified (h : I.Transparent) : I.Qualified := fun c value _ hb =>
  (h c value).symm.trans hb

mutual
/-- **Assuming an outcome assumes consequences of it only.** -/
theorem assumeWith_sound (trust : I.Qualified) :
    ∀ (c : ExecutionCondition) (v : Bool), I.eval c = some (.bool v) → I.Satisfies (assumeWith c v)
  | .unknown, _, _ => satisfies_nil
  | .entry condition captured, v, h => by
    have inner : I.eval condition = some (.bool v) := by simpa only [eval] using h
    unfold assumeWith
    split
    · exact satisfies_nil
    · split
      · exact assumeWith_sound trust condition v inner
      · exact satisfies_assumeWhole h
  | .trusted condition, v, h => by
    have inner : I.eval condition = some (.bool v) :=
      trust condition _ v (by simpa only [eval] using h)
    unfold assumeWith
    split
    · exact satisfies_nil
    · exact satisfies_append.mpr
        ⟨satisfies_assumeWhole h, assumeWith_sound trust condition v inner⟩
  | .operation operator operands, v, h => by
    unfold assumeWith
    split
    · exact satisfies_nil
    · next e => cases e
    · next e => cases e
    · next operand e =>
      obtain ⟨rfl, rfl⟩ := ExecutionCondition.operation.inj e
      exact assumeWith_sound trust operand _ (eval_not.mp h)
    · next operands' e =>
      obtain ⟨rfl, rfl⟩ := ExecutionCondition.operation.inj e
      exact assumeAll_sound trust operands true (operands_of_and h)
    · next operands' e =>
      obtain ⟨rfl, rfl⟩ := ExecutionCondition.operation.inj e
      exact assumeAll_sound trust operands false (operands_of_or h)
    · split
      · exact satisfies_nil
      · exact satisfies_assumeWhole h
  | .boolean _, _, h | .variant _, _, h | .tagged _ _, _, h | .variantTest _ _, _, h
  | .literal _, _, h | .input _, _, h | .result, _, h | .expression _, _, h
  | .scopedCapability _, _, h | .present _, _, h | .constructed _ _, _, h | .postState _ _, _, h
  | .joined _ _ _, _, h | .predicate _ _ _, _, h | .call _ _ _ _, _, h | .projection _ _, _, h
  | .borrowed _, _, h => by
    simp only [assumeWith]
    split
    · exact satisfies_nil
    · exact satisfies_assumeWhole h
theorem assumeAll_sound (trust : I.Qualified) :
    ∀ (xs : List ExecutionCondition) (v : Bool), (∀ x ∈ xs, I.eval x = some (.bool v)) →
      I.Satisfies (assumeAll xs v)
  | [], _, _ => satisfies_nil
  | x :: xs, v, h => satisfies_append.mpr
    ⟨assumeWith_sound trust x v (h x mem_cons_self),
      assumeAll_sound trust xs v fun y hy => h y (mem_cons_of_mem _ hy)⟩
end

/-! ## 4. Operators on values -/

/-- The meaning of the operators that are neither logical nor comparisons, on operand values; a
  sign on a constant is folded as it means. -/
structure Arithmetic (I : Interpretation) where
  apply : BoundOperator → List (Option (Value I.Datum)) → Option (Value I.Datum)
  atom_eq : ∀ operator operands, operator.isLogical = false → operator.isComparison = false →
    I.atom (.operation operator operands) = apply operator (I.evalList operands)
  sign : ∀ operator (value : ConstantValueData) kind, foldNumericSign operator value.kind = some kind →
      apply operator [some (I.literal value)] = some (I.literal ⟨value.ty, kind⟩)

/-- **The value of an operator on operand values.** -/
noncomputable def Arithmetic.value (A : I.Arithmetic) (operator : BoundOperator)
  (values : List (Option (Value I.Datum))) : Option (Value I.Datum) :=
  if operator.isLogical || operator.isComparison then I.operate .unknown operator values
  else A.apply operator values

/-- The operands of an equality are of one type: a truth value is compared with a truth value, and
  nothing that an absence test comes to is one. -/
structure WellTyped (I : Interpretation) (operator : BoundOperator)
  (operands : List ExecutionCondition) : Prop where
  truths : operator.isEquality = true → ∀ x ∈ operands, ∀ y ∈ operands, ∀ a v,
    I.eval x = some (.bool a) → I.eval y = some v → ∃ b, v = .bool b
  nullables : operator.isEquality = true → ∀ absent : ConstantValueData,
    absent.kind = .nullableAbsent → (∃ y ∈ operands, y.scalarContents = .literal absent) →
      ∀ x ∈ operands, ∀ b, x.observedValue.scalarContents ≠ .boolean b

variable {operator : BoundOperator}

theorem operate_self (h : (operator.isLogical || operator.isComparison) = true) (self other : ExecutionCondition)
    (values : List (Option (Value I.Datum))) :
    I.operate self operator values = I.operate other operator values := by
  cases operator with
  | logicalNot => cases values <;> rfl
  | logicalAnd | logicalOr => match values with
    | [_, _] | [] | [_] | _ :: _ :: _ :: _ => rfl
  | equal | notEqual | less | lessEqual | greater | greaterEqual => rfl
  | _ => cases h

/-- An operation has the value of its operator on the values of its operands. -/
theorem Arithmetic.eval_operation (A : I.Arithmetic) (operator : BoundOperator)
    (operands : List ExecutionCondition) :
    I.eval (.operation operator operands) = A.value operator (I.evalList operands) := by
  simp only [eval, value]
  split
  · next h => exact operate_self h _ _ _
  · next h =>
    simp only [Bool.or_eq_true, not_or, Bool.not_eq_true] at h
    rw [← A.atom_eq operator operands h.1 h.2]
    obtain ⟨logical, comparison⟩ := h
    cases operator <;> first
      | exact absurd logical (by decide)
      | exact absurd comparison (by decide)
      | rfl

theorem evalList_scalarContents (xs : List ExecutionCondition) :
    I.evalList (xs.map scalarContents) = I.evalList xs := by
  simp only [evalList_eq, map_map]
  exact map_congr_left fun x _ => eval_scalarContents x

/-! ## 5. Logical operators -/

theorem eval_negation_of {v : Bool} (h : I.eval c = some (.bool v)) : I.eval (negation c) = some (.bool !v) := by
  rw [← eval_scalarContents] at h
  unfold negation
  split
  · next value e =>
    rw [e] at h
    simpa [eval] using h
  · next inner e =>
    rw [e] at h
    cases inner with
    | nil => simp [eval, evalList, operate] at h
    | cons x inner => exact eval_not.mp h
  · exact eval_not.mpr (by rw [Bool.not_not]; exact h)

theorem truth_negation (c : ExecutionCondition) : I.truth (I.eval (negation c)) = (I.truth (I.eval c)).map not := by
  apply Option.ext
  intro v
  simp only [Option.map_eq_some_iff, truth_eq_some]
  constructor
  · intro h
    exact ⟨!v, eval_negation h, Bool.not_not v⟩
  · rintro ⟨w, h, rfl⟩
    exact eval_negation_of h

section

variable (x : Option Bool)
include x

theorem truth_map_bool : I.truth (x.map .bool) = x := by
  cases x <;> rfl

theorem conjunction_true_left : conjunction (some true) x = x := by
  rcases x with _ | _ | _ <;> rfl

theorem conjunction_true_right : conjunction x (some true) = x := by
  rcases x with _ | _ | _ <;> rfl

theorem conjunction_false_right : conjunction x (some false) = some false := by
  rcases x with _ | _ | _ <;> rfl

theorem disjunction_false_left : disjunction (some false) x = x := by
  rcases x with _ | _ | _ <;> rfl

theorem disjunction_false_right : disjunction x (some false) = x := by
  rcases x with _ | _ | _ <;> rfl

theorem disjunction_true_right : disjunction x (some true) = some true := by
  rcases x with _ | _ | _ <;> rfl

end

/-- **A logical normal form has the truth value of its operator**, whichever operands have none. -/
theorem truth_finish (logical : operator.isLogical = true)
    (self : ExecutionCondition) (xs : List ExecutionCondition) :
    I.truth (I.eval (finish operator xs)) = I.truth (I.operate self operator (I.evalList xs)) := by
  have whole : I.truth (I.eval (.operation operator xs)) = I.truth (I.operate self operator (I.evalList xs)) := by
    simp only [eval]
    rw [operate_self (by rw [logical]; rfl)]
  cases operator with
  | logicalNot =>
    rcases xs with _ | ⟨operand, _ | ⟨second, _ | _⟩⟩
    · exact whole
    · simp only [finish, evalList, operate, truth_negation]
      cases I.truth (I.eval operand) <;> rfl
    · exact whole
    · exact whole
  | logicalAnd =>
    rcases xs with _ | ⟨left, _ | ⟨right, _ | _⟩⟩
    · exact whole
    · exact whole
    · simp only [finish, evalList, operate, truth_map_bool]
      split
      · next h =>
        rcases h with rfl | rfl
        · rfl
        · simp [eval, truth, conjunction_false_right]
      · split
        · next h => rw [h]; simp [eval, truth, conjunction_true_left]
        · split
          · next h => rw [h]; simp [eval, truth, conjunction_true_right]
          · simp only [eval, evalList, operate, truth_map_bool]
    · exact whole
  | logicalOr =>
    rcases xs with _ | ⟨left, _ | ⟨right, _ | _⟩⟩
    · exact whole
    · exact whole
    · simp only [finish, evalList, operate, truth_map_bool]
      split
      · next h =>
        rcases h with rfl | rfl
        · rfl
        · simp [eval, truth, disjunction_true_right]
      · split
        · next h => rw [h]; simp [eval, truth, disjunction_false_left]
        · split
          · next h => rw [h]; simp [eval, truth, disjunction_false_right]
          · simp only [eval, evalList, operate, truth_map_bool]
    · exact whole
  | _ => cases logical

theorem operationOf_logical (logical : operator.isLogical = true) (operands : List ExecutionCondition) :
    operationOf operator operands = finish operator (operands.map scalarContents) := by
  have sign : ∀ kind, foldNumericSign operator kind = none := by
    intro kind
    cases operator <;> cases logical <;> rfl
  have comparison : operator.isComparison = false := by cases operator <;> cases logical <;> rfl
  have equality : operator.isEquality = false := by cases operator <;> cases logical <;> rfl
  simp only [operationOf, logical, comparison, equality, sign, Bool.not_true, Bool.false_and]
  split
  · next h => cases h
  · split
    · next e => rw [e]
    · next e => rw [e]
    · rfl

/-! ## 6. Comparisons of values -/

/-- The condition has a truth value. -/
def Decided (I : Interpretation) (c : ExecutionCondition) : Prop :=
  ∃ v, I.eval c = some (.bool v)

theorem decided_boolean (v : Bool) : I.Decided (.boolean v) := ⟨v, by simp only [eval]⟩

variable {a b : Value I.Datum}

theorem decided_comparison (hc : operator.isComparison = true) (ha : I.eval left = some a)
    (hb : I.eval right = some b) : I.Decided (.operation operator [left, right]) := by
  classical
  exact ⟨decide (I.Compares operator a b), (eval_comparison hc).mpr
    ⟨left, right, a, b, rfl, ha, hb, decide_eq_true_iff⟩⟩

theorem decided_truthTest {expected b : Bool}
    (h : I.eval c = some (.bool b)) : I.Decided (truthTest operator c expected) := by
  unfold truthTest
  split
  · exact ⟨b, h⟩
  · exact ⟨!b, eval_negation_of h⟩

theorem eval_of_observedNullable {s : ExecutionCondition} (h : c.observedNullable = some s)
    (ha : ∃ a, I.eval c = some a) : ∃ a, I.eval s = some a := by
  obtain ⟨f, e, _⟩ := eval_observedNullable (I := I) h
  obtain ⟨a, ha⟩ := ha
  obtain ⟨w, hw, _⟩ := Option.map_eq_some_iff.mp (e.symm.trans ha)
  exact ⟨w, hw⟩

/-- An absence test of a value is decided, or unknown with a part of what it comes to. -/
theorem decided_absentTest (ho : operator.isEquality = true)
    {absent : ConstantValueData} {x : ExecutionCondition} (ha : ∃ a, I.eval x = some a)
    (typed : ∀ b, x.observedValue.scalarContents ≠ .boolean b) : I.Decided (absentTest operator absent x) ∨
      absentTest operator absent x = .unknown ∧ x.observedValue.containsUnknown = true := by
  have hc : operator.isComparison = true := by
    rcases isEquality_iff.mp ho with rfl | rfl <;> rfl
  have hlit : ∀ value, I.eval (.literal value) = some (I.literal value) := fun value => by
    simp only [eval]
  fun_induction absentTest operator absent x with
  | case1 value => exact absurd rfl (typed value)
  | case2 left value _ => exact .inl (decided_boolean value)
  | case3 left _ | case10 base fields left hb _ => exact .inl (decided_comparison hc (hlit left) (hlit absent))
  | case4 c h => exact .inr ⟨rfl, h⟩
  | case5 c _ => exact .inl (decided_boolean _)
  | case6 c h | case13 subject _ _ _ _ _ h => exact .inr ⟨rfl, containsUnknown_observedValue h⟩
  | case7 c _ ih =>
    exact ih (eval_of_observedNullable rfl ha) typed
  | case8 base fields value hb =>
    refine absurd ?_ (typed value)
    by_cases hn : nullableFields fields = true
    · rw [componentBase_of_nullable base hn] at hb
      simp [observedValue, hn, hb, scalarContents]
    · simp [observedValue, hn, Bool.false_eq_true, scalarContents, hb]
  | case9 base fields left hb value _ => exact .inl (decided_boolean value)
  | case11 base fields hn _ _ ih =>
    have observed : (constructed base fields).observedValue = base.observedValue := by
      simp only [observedValue, hn, if_true]
    rw [observed] at typed ⊢
    exact ih (eval_of_observedNullable (by simp [observedNullable, hn]) ha) typed
  | case12 base fields hn _ _ | case14 subject _ _ _ _ _ _ =>
    obtain ⟨a, ha⟩ := ha
    exact .inl (decided_comparison hc ha (hlit absent))

theorem decided_finishEquality (ho : operator.isEquality = true) (ha : I.eval left = some a)
    (hb : I.eval right = some b) (typed : I.WellTyped operator [left, right]) :
    I.Decided (finishEquality operator left right) := by
  have hc : operator.isComparison = true := by
    rcases isEquality_iff.mp ho with rfl | rfl <;> rfl
  have truth : ∀ v, I.eval (.boolean v) = some (.bool v) := fun v => by simp only [eval]
  unfold finishEquality
  split
  · split
    · exact decided_boolean _
    · exact decided_comparison hc ha hb
  · split
    · exact decided_boolean _
    · exact decided_comparison hc ha hb
  · next expected =>
    obtain ⟨t, rfl⟩ := typed.truths ho (.boolean expected) (by simp) left (by simp) expected a
      (truth expected) ha
    exact decided_truthTest ha
  · next expected _ =>
    obtain ⟨t, rfl⟩ := typed.truths ho (.boolean expected) (by simp) right (by simp) expected b
      (truth expected) hb
    exact decided_truthTest hb
  · exact decided_comparison hc ha hb

theorem decided_finish (hc : operator.isComparison = true) (ha : I.eval left = some a)
    (hb : I.eval right = some b) (typed : I.WellTyped operator [left, right]) :
    I.Decided (finish operator [left, right]) := by
  cases operator with
  | equal | notEqual => exact decided_finishEquality rfl ha hb typed
  | less | greater =>
    simp only [finish]
    split
    · exact decided_boolean false
    · exact decided_comparison hc ha hb
  | lessEqual | greaterEqual => exact decided_comparison hc ha hb
  | _ => exact absurd hc (by decide)

theorem WellTyped.scalars (typed : I.WellTyped operator operands) :
    I.WellTyped operator (operands.map scalarContents) := by
  constructor
  · intro ho x hx y hy a v hxa hyv
    obtain ⟨x, hx', rfl⟩ := mem_map.mp hx
    obtain ⟨y, hy', rfl⟩ := mem_map.mp hy
    rw [eval_scalarContents] at hxa hyv
    exact typed.truths ho x hx' y hy' a v hxa hyv
  · rintro ho absent ha ⟨y, hy, hya⟩ x hx b
    obtain ⟨x, hx', rfl⟩ := mem_map.mp hx
    obtain ⟨y, hy', rfl⟩ := mem_map.mp hy
    rw [observedValue_scalarContents]
    exact typed.nullables ho absent ha ⟨y, hy', by rwa [scalarContents_idem] at hya⟩ x hx' b

/-- The normal form is decided, or unknown with a part of what an operand comes to. -/
def DecidedOrUnknown (I : Interpretation) (operands : List ExecutionCondition)
  (c : ExecutionCondition) : Prop :=
  I.Decided c ∨ c = .unknown ∧ ∃ x ∈ operands, x.observedValue.containsUnknown = true

theorem decided_observed (ho : operator.isEquality = true)
    {absent : ConstantValueData} {x s : ExecutionCondition} (observed : x.observedNullable = some s)
    (ha : ∃ a, I.eval x = some a) (typed : ∀ b, x.observedValue.scalarContents ≠ .boolean b)
    (hx : x ∈ operands) : I.DecidedOrUnknown operands (absentTest operator absent s) := by
  rw [observedValue_of_observedNullable observed] at typed
  have outcome : I.Decided (absentTest operator absent s) ∨
    absentTest operator absent s = .unknown ∧ s.observedValue.containsUnknown = true :=
    decided_absentTest ho (eval_of_observedNullable observed ha) typed
  rcases outcome with decided | ⟨unknown, part⟩
  · exact .inl decided
  · exact .inr ⟨unknown, x, hx, observedValue_of_observedNullable observed ▸ part⟩

theorem decided_operationOf (hc : operator.isComparison = true) (ha : I.eval left = some a)
    (hb : I.eval right = some b) (typed : I.WellTyped operator [left, right]) :
    I.DecidedOrUnknown ([left, right].map scalarContents) (operationOf operator [left, right]) := by
  replace typed := typed.scalars
  rw [← eval_scalarContents] at ha hb
  simp only [operationOf, map_cons, map_nil] at typed ⊢
  generalize left.scalarContents = l at *
  generalize right.scalarContents = r at *
  split
  · next h =>
    obtain ⟨x, hx, h⟩ := containsUnknownAny_iff.mp (Bool.and_eq_true_iff.mp h).2
    exact .inr ⟨rfl, x, hx, containsUnknown_observedValue h⟩
  · split
    · next e => exact absurd (congrArg List.length e) (by simp)
    · next c d e =>
      obtain ⟨rfl, rfl⟩ : l = .literal c ∧ r = .literal d := by simpa using e
      split
      · exact .inl (decided_boolean _)
      · exact .inl (decided_finish hc ha hb typed)
    · split
      · next ho =>
        split
        · next subject absent e =>
          unfold absentOperands at e
          split at e
          · next x absent' e' =>
            obtain ⟨rfl, rfl⟩ : l = x ∧ r = .literal absent' := by simpa using e'
            obtain ⟨kind, e⟩ := Option.ite_none_right_eq_some.mp e
            obtain ⟨s, hs, e⟩ := Option.map_eq_some_iff.mp e
            cases e
            exact decided_observed ho hs ⟨a, ha⟩
              (typed.nullables ho absent kind ⟨.literal absent, by simp, rfl⟩ l (by simp)) (by simp)
          · next absent' x _ e' =>
            obtain ⟨rfl, rfl⟩ : l = .literal absent' ∧ r = x := by simpa using e'
            obtain ⟨kind, e⟩ := Option.ite_none_right_eq_some.mp e
            obtain ⟨s, hs, e⟩ := Option.map_eq_some_iff.mp e
            cases e
            exact decided_observed ho hs ⟨b, hb⟩
              (typed.nullables ho absent kind ⟨.literal absent, by simp, rfl⟩ r (by simp)) (by simp)
          · cases e
        · exact .inl (decided_finish hc ha hb typed)
      · exact .inl (decided_finish hc ha hb typed)

/-! ## 7. The value of a normal form -/

/-- **What a normal form is worth.** -/
structure Arithmetic.Preserves (A : I.Arithmetic) (operator : BoundOperator)
  (operands : List ExecutionCondition) : Prop where
  /-- A logical operator is three-valued, unknown operands included. -/
  logical : operator.isLogical = true → I.truth (I.eval (operationOf operator operands)) =
      I.truth (A.value operator (I.evalList operands))
  /-- Any other is unknown as soon as a part of an operand is. -/
  guarded : operator.isLogical = false → (∃ x ∈ operands, x.containsUnknown = true) →
    operationOf operator operands = .unknown
  /-- And it has the value of the operator, a comparison when its operands have values, unless an
    unknown part is what an absence test comes to. -/
  strict : operator.isLogical = false → (operator.isComparison = true → ∀ x ∈ operands, ∃ a, I.eval x = some a) →
      I.eval (operationOf operator operands) = A.value operator (I.evalList operands) ∨
        operationOf operator operands = .unknown ∧ ∃ x ∈ operands, x.observedValue.containsUnknown = true

theorem containsUnknown_of_scalar (h : c.scalarContents.observedValue.containsUnknown = true) :
    c.observedValue.containsUnknown = true := by
  rw [← containsUnknown_scalarContents, observedValue_scalarContents, containsUnknown_scalarContents] at h
  exact h

theorem preserves_comparison (A : I.Arithmetic) (hc : operator.isComparison = true)
    (ha : I.eval left = some a) (hb : I.eval right = some b) (typed : I.WellTyped operator [left, right]) :
    I.eval (operationOf operator [left, right]) = A.value operator (I.evalList [left, right]) ∨
      operationOf operator [left, right] = .unknown ∧
        ∃ x ∈ [left, right], x.observedValue.containsUnknown = true := by
  rcases decided_operationOf hc ha hb typed with ⟨v, decided⟩ | ⟨unknown, x, hx, part⟩
  · left
    have settles := (operationOf_settles hc decided).decides a b ha hb
    rw [decided, ← A.eval_operation]
    exact ((eval_comparison hc).mpr ⟨left, right, a, b, rfl, ha, hb, settles⟩).symm
  · obtain ⟨x, hx', rfl⟩ := mem_map.mp hx
    exact .inr ⟨unknown, x, hx', containsUnknown_of_scalar part⟩

theorem finish_plain (logical : operator.isLogical = false)
    (plain : operator.isComparison = false ∨ xs.length ≠ 2) : finish operator xs = .operation operator xs := by
  match xs with
  | [] | [_] | _ :: _ :: _ :: _ => cases operator <;> first
    | rfl
    | cases logical
  | [_, _] =>
    rcases plain with comparison | length
    · cases operator <;> first
        | exact absurd logical (by decide)
        | exact absurd comparison (by decide)
        | rfl
    · exact absurd rfl length

theorem absentOperands_length (h : xs.length ≠ 2) : absentOperands xs = none := by
  unfold absentOperands
  split
  · exact absurd rfl h
  · exact absurd rfl h
  · rfl

/-- Off a comparison of two operands an operation is left as it is, but for a folded sign. -/
theorem preserves_plain (A : I.Arithmetic) (logical : operator.isLogical = false)
    (plain : operator.isComparison = false ∨ operands.length ≠ 2) (known : containsUnknownAny operands = false) :
    I.eval (operationOf operator operands) = A.value operator (I.evalList operands) := by
  have whole : ∀ xs, I.eval (.operation operator xs) = A.value operator (I.evalList xs) :=
    A.eval_operation operator
  rw [← evalList_scalarContents]
  simp only [operationOf, containsUnknownAny_scalarContents, known, Bool.and_false, Bool.false_eq_true, if_false]
  have plain' : operator.isComparison = false ∨ (operands.map scalarContents).length ≠ 2 := by
    simpa using plain
  generalize operands.map scalarContents = xs at plain' ⊢
  split
  · next value =>
    split
    · next kind folded =>
      have additive : (operator.isLogical || operator.isComparison) = false := by
        cases operator <;> first
          | rfl
          | (simp only [foldNumericSign] at folded; cases folded)
      simp only [Arithmetic.value, additive, eval, evalList, Bool.false_eq_true, if_false]
      exact (A.sign operator value kind folded).symm
    · rw [finish_plain logical plain']
      exact whole _
  · next left right =>
    split
    · next hc => exact absurd (plain'.resolve_left (by simp [hc])) (by simp)
    · rw [finish_plain logical plain']
      exact whole _
  · split
    · next ho =>
      have comparison : operator.isComparison = true := by
        rcases isEquality_iff.mp ho with rfl | rfl <;> rfl
      rw [absentOperands_length (plain'.resolve_left (by simp [comparison]))]
      exact (congrArg I.eval (finish_plain logical plain')).trans (whole _)
    · rw [finish_plain logical plain']
      exact whole _

theorem preserves (A : I.Arithmetic) (typed : I.WellTyped operator operands) : A.Preserves operator operands := by
  have guarded : operator.isLogical = false → containsUnknownAny operands = true →
    operationOf operator operands = .unknown := by
    intro logical unknown
    simp [operationOf, containsUnknownAny_scalarContents, logical, unknown, Bool.not_false, Bool.and_self]
  refine ⟨fun logical => ?_, fun logical part => guarded logical (containsUnknownAny_iff.mpr part),
    fun logical values => ?_⟩
  · rw [operationOf_logical logical, truth_finish logical .unknown, evalList_scalarContents]
    simp [Arithmetic.value, logical, Bool.true_or]
  · cases unknown : containsUnknownAny operands with
    | true =>
      obtain ⟨x, hx, part⟩ := containsUnknownAny_iff.mp unknown
      exact .inr ⟨guarded logical unknown, x, hx, containsUnknown_observedValue part⟩
    | false =>
      by_cases pair : operator.isComparison = true ∧ operands.length = 2
      · obtain ⟨hc, length⟩ := pair
        obtain ⟨left, right, rfl⟩ := length_eq_two.mp length
        obtain ⟨a, ha⟩ := values hc left (by simp)
        obtain ⟨b, hb⟩ := values hc right (by simp)
        exact preserves_comparison A hc ha hb typed
      · left
        refine preserves_plain A logical ?_ unknown
        rcases not_and_or.mp pair with comparison | length
        · exact .inl (by simpa using comparison)
        · exact .inr length

/-- **NORMALISATION PRESERVES MEANING**, in every interpretation with a meaning for every operator;
  and what is assumed of an outcome, where a trusted occurrence is worth its condition, holds. -/
theorem operation_preserves_meaning (I : Interpretation) (A : I.Arithmetic) :
    (∀ operator operands, I.WellTyped operator operands → A.Preserves operator operands) ∧
      (I.Transparent → ∀ condition value assumptions, I.eval condition = some (.bool value) →
        I.Satisfies assumptions → I.Satisfies (assume condition value assumptions)) :=
  ⟨fun _ _ typed => preserves A typed, fun trust condition value _ outcome held =>
    satisfies_append.mpr ⟨assumeWith_sound trust.qualified condition value outcome, held⟩⟩

/-! ## 8. Operators that are applied to values -/

section Composed

variable (I : Interpretation)
  (apply : BoundOperator → List (Option (Value I.Datum)) → Option (Value I.Datum))

/-- The interpretation with other values of the atoms. -/
abbrev withAtom (atom : ExecutionCondition → Option (Value I.Datum)) : Interpretation :=
  { I with atom := atom }

mutual
/-- The value of a condition when the operators are applied to operand values. -/
noncomputable def composed : ExecutionCondition → Option (Value I.Datum)
  | .boolean value => some (.bool value)
  | .literal value => some (I.literal value)
  | .variantTest tested subject =>
    (composed subject).bind fun v => (I.variantOf v).map fun active => .bool (active == tested)
  | .present value => (composed value).map I.present
  | .borrowed value => (composed value).map I.borrowed
  | .entry condition _ => composed condition
  | .trusted condition => I.trusted condition (composed condition)
  | .unknown => none
  | .constructed base fields => match componentBase base fields with
    | .literal value => some (I.literal value)
    | .boolean value => some (.bool value)
    | _ =>
      if nullableFields fields then (composed base).map (I.updated (.constructed base fields))
      else I.atom (.constructed base fields)
  | .operation operator operands =>
    if operator.isLogical || operator.isComparison then
      I.operate .unknown operator (composedList operands)
    else apply operator (composedList operands)
  | condition => I.atom condition
termination_by structural c => c
noncomputable def composedList : List ExecutionCondition → List (Option (Value I.Datum))
  | [] => []
  | x :: xs => composed x :: composedList xs
termination_by structural c => c
end

/-- The atoms: operators are applied to the values of their operands. -/
noncomputable def composedAtom : ExecutionCondition → Option (Value I.Datum)
  | .operation operator operands => apply operator (I.composedList apply operands)
  | condition => I.atom condition

section

variable {operator : BoundOperator} (hc : operator.isComparison = true) (self : ExecutionCondition)
include hc self

theorem operate_values (a b : Value I.Datum) : I.operate self operator [some a, some b] =
      some (.bool (@decide (I.Compares operator a b) (Classical.propDecidable _))) := by
  cases operator <;> first
    | rfl
    | exact absurd hc (by decide)

theorem operate_missing {values : List (Option (Value I.Datum))}
    (missing : ∀ a b, values ≠ [some a, some b]) : I.operate self operator values = none := by
  match values, missing with
  | [some a, some b], missing => exact absurd rfl (missing a b)
  | [none, _], _ | [some _, none], _ | [], _ | [some _], _ | [none], _
  | some _ :: some _ :: _ :: _, _ | some _ :: none :: _ :: _, _ | none :: _ :: _ :: _, _ =>
    cases operator <;> first
      | rfl
      | exact absurd hc (by decide)

end

theorem operate_withAtom (atom : ExecutionCondition → Option (Value I.Datum))
    (self : ExecutionCondition) (operator : BoundOperator) (values : List (Option (Value I.Datum))) :
    (I.withAtom atom).operate self operator values =
      if operator.isLogical || operator.isComparison then I.operate .unknown operator values else atom self := by
  have truth : ∀ x, (I.withAtom atom).truth x = I.truth x := by
    rintro (_ | _ | _) <;> rfl
  by_cases hc : operator.isComparison = true
  · rw [hc, Bool.or_true, if_pos rfl]
    by_cases paired : ∃ a b, values = [some a, some b]
    · obtain ⟨a, b, rfl⟩ := paired
      rw [operate_values I hc]
      exact operate_values (I.withAtom atom) hc self a b
    · rw [operate_missing I hc .unknown fun a b e => paired ⟨a, b, e⟩]
      exact operate_missing (I.withAtom atom) hc self fun a b e => paired ⟨a, b, e⟩
  · cases operator with
    | logicalNot => cases values with
      | nil => rfl
      | cons x xs => exact congrArg (Option.map fun b => Value.bool !b) (truth x)
    | logicalAnd => match values with
      | [x, y] =>
        show (conjunction _ _).map Value.bool = (conjunction _ _).map Value.bool
        rw [truth, truth]
      | [] | [_] | _ :: _ :: _ :: _ => rfl
    | logicalOr => match values with
      | [x, y] =>
        show (disjunction _ _).map Value.bool = (disjunction _ _).map Value.bool
        rw [truth, truth]
      | [] | [_] | _ :: _ :: _ :: _ => rfl
    | equal | notEqual | less | lessEqual | greater | greaterEqual => exact absurd rfl hc
    | _ => rfl

mutual
theorem eval_composed : ∀ c : ExecutionCondition, (I.withAtom (I.composedAtom apply)).eval c = I.composed apply c
  | .boolean _ | .literal _ | .unknown | .variant _ | .tagged _ _ | .input _ | .result
  | .expression _ | .scopedCapability _ | .postState _ _ | .joined _ _ _ | .predicate _ _ _
  | .call _ _ _ _ | .projection _ _ => rfl
  | .variantTest _ c => by simp only [eval, composed, eval_composed c]
  | .present c => by simp only [eval, composed, eval_composed c]
  | .borrowed c => by simp only [eval, composed, eval_composed c]
  | .entry c _ => by simp only [eval, composed, eval_composed c]
  | .trusted c => by simp only [eval, composed, eval_composed c]
  | .constructed base fields => by
    rw [eval, composed, eval_composed base]
    rfl
  | .operation operator operands => by
    simp only [eval, composed, eval_composedList operands]
    exact operate_withAtom I _ _ operator _
theorem eval_composedList : ∀ xs : List ExecutionCondition,
    (I.withAtom (I.composedAtom apply)).evalList xs = I.composedList apply xs
  | [] => rfl
  | x :: xs => by
    simp only [evalList, composedList, eval_composed x, eval_composedList xs]
end

/-- Every meaning of the operators that folds signs as they mean is one of an interpretation. -/
noncomputable def arithmeticOf (sign : ∀ operator (value : ConstantValueData) kind,
  foldNumericSign operator value.kind = some kind →
    apply operator [some (I.literal value)] = some (I.literal ⟨value.ty, kind⟩)) :
  (I.withAtom (I.composedAtom apply)).Arithmetic where
  apply := apply
  atom_eq operator operands _ _ := by rw [eval_composedList]; rfl
  sign := sign

end Composed

end Interpretation

/-! ## 9. Signed constants and a false input -/

/-- Signs are folded, nothing else has a value. -/
def applySign (operator : BoundOperator) :
  List (Option (Value (ConstantValueKind × Nat))) → Option (Value (ConstantValueKind × Nat))
  | [some (.datum (kind, 0))] => (foldNumericSign operator kind).map fun kind => .datum (kind, 0)
  | _ => none

def falseInputs : Interpretation :=
  standard fun
    | .input _ => some (.bool false)
    | _ => none

theorem applySign_literal (operator : BoundOperator) (value : ConstantValueData)
    (kind : ConstantValueKind) (folded : foldNumericSign operator value.kind = some kind) :
    applySign operator [some (falseInputs.literal value)] = some (falseInputs.literal ⟨value.ty, kind⟩) := by
  obtain ⟨ty, original⟩ := value
  simp only at folded
  unfold foldNumericSign at folded
  split at folded <;> cases folded <;> rfl

/-- Inputs that are false, and signed constants. -/
noncomputable def signed : Interpretation :=
  falseInputs.withAtom (falseInputs.composedAtom applySign)

noncomputable def signedArithmetic : signed.Arithmetic :=
  falseInputs.arithmeticOf applySign applySign_literal

/-- An input, and a conjunction of it with an unknown condition: false as the input is. -/
def someInput : ExecutionCondition := .input ⟨.argument 0, []⟩

def halfUnknown : ExecutionCondition := .operation .logicalAnd [.unknown, someInput]

theorem eval_someInput : signed.eval someInput = some (.bool false) := rfl

theorem wellTyped_halfUnknown : signed.WellTyped .equal [halfUnknown, .boolean true] := by
  constructor
  · intro _ _ _ y hy _ v _ hv
    rcases mem_pair.mp hy with rfl | rfl
    · exact ⟨false, (Option.some.inj hv).symm⟩
    · exact ⟨true, (Option.some.inj hv).symm⟩
  · rintro _ absent _ ⟨y, hy, e⟩
    rcases mem_pair.mp hy with rfl | rfl <;> cases e

/-- **A comparison of a condition that has a value may be unknown**: some part of it is. -/
theorem comparison_of_half_unknown :
    ¬ ∀ (I : Interpretation) (A : I.Arithmetic) operator operands, I.WellTyped operator operands →
      I.eval (operationOf operator operands) = A.value operator (I.evalList operands) := by
  intro preserved
  have eq := preserved signed signedArithmetic .equal [halfUnknown, .boolean true]
    wellTyped_halfUnknown
  cases eq

/-- The comparison of the two is typed, and the input is false as assumed. -/
theorem operation_preserves_meaning_signed : signedArithmetic.Preserves .equal [halfUnknown, .boolean true] ∧
      signed.Satisfies (assume (.operation .logicalNot [someInput]) true []) :=
  ⟨(Interpretation.operation_preserves_meaning signed signedArithmetic).1 .equal _
      wellTyped_halfUnknown,
    (Interpretation.operation_preserves_meaning signed signedArithmetic).2 (fun _ _ => rfl) _ true []
      (Interpretation.eval_not.mpr eval_someInput) Interpretation.satisfies_nil⟩

end Bray.Guarantee
