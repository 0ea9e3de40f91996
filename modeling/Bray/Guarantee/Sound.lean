/-
  File:      Bray/Guarantee/Sound.lean
  Subject:   THE PROVER IS SOUND. What it answers is the value of the condition in every
             interpretation in which the assumptions hold, wherever its budget ran out.

  The comparisons rest on two facts. A normal form that has a truth value settles the comparison
  it stands for (`operationOf_settles`): it decides it when both operands have values, and when it
  is true, of any operator but `!=`, it tells that they do. And every term the search for an
  ordering reaches lies above the one it started from (`Above`).
-/
import Bray.Guarantee.Standard

namespace Bray.Guarantee

open Bray.Lib List Option Unordered
open ExecutionCondition

namespace Interpretation

variable {I : Interpretation}

/-! ## 1. Values of small terms -/

theorem evalList_eq (xs : List ExecutionCondition) : I.evalList xs = xs.map I.eval := by
  induction xs with
  | nil => rfl
  | cons x xs ih => simp only [evalList, map_cons, ih]

theorem truth_eq_some {x : Option (Value I.Datum)} {b : Bool} : I.truth x = some b ↔ x = some (.bool b) := by
  cases x with
  | none => simp [truth]
  | some v => cases v <;> simp [truth]

/-- Two truth values are equal places exactly when they are the same. -/
theorem same_bool {a b : Bool} : Same (I.rank (.bool a)) (I.rank (.bool b)) ↔ a = b := by
  constructor
  · rintro ⟨k, ha, hb⟩
    have hne := I.bool_ne
    cases a <;> cases b
    · rfl
    · exact absurd (ha.trans hb.symm) hne
    · exact absurd (hb.trans ha.symm) hne
    · rfl
  · rintro rfl
    exact same_self (I.bool_rank a)

variable {operator : BoundOperator} {v : Bool}

theorem operate_comparison (hc : operator.isComparison = true)
    {self : ExecutionCondition} {values : List (Option (Value I.Datum))} :
    I.operate self operator values = some (.bool v) ↔
      ∃ a b, values = [some a, some b] ∧ (v = true ↔ I.Compares operator a b) := by
  have compared (a b : Value I.Datum) : I.operate self operator [some a, some b] =
      some (.bool (@decide (I.Compares operator a b) (Classical.propDecidable _))) := by
    cases operator <;> first
      | rfl
      | exact absurd hc (by decide)
  have other : (∀ a b, values ≠ [some a, some b]) → I.operate self operator values = none := by
    intro hn
    rcases values with _ | ⟨_ | a, _ | ⟨_ | b, _ | _⟩⟩ <;> first
      | exact absurd rfl (hn _ _)
      | cases operator <;> first
        | rfl
        | exact absurd hc (by decide)
  by_cases pair : ∃ a b, values = [some a, some b]
  · obtain ⟨a, b, rfl⟩ := pair
    rw [compared]
    simp only [Option.some.injEq, Value.bool.injEq, List.cons.injEq, and_true, and_assoc]
    constructor
    · rintro rfl
      exact ⟨a, b, rfl, rfl, @decide_eq_true_iff _ (Classical.propDecidable _)⟩
    · rintro ⟨_, _, rfl, rfl, h⟩
      cases v
      · exact (@decide_eq_false_iff_not _ (Classical.propDecidable _)).mpr fun hc =>
          absurd (h.mpr hc) Bool.false_ne_true
      · exact (@decide_eq_true_iff _ (Classical.propDecidable _)).mpr (h.mp rfl)
  · have hn : ∀ a b, values ≠ [some a, some b] := fun a b e => pair ⟨a, b, e⟩
    rw [other hn]
    constructor
    · intro h
      cases h
    · rintro ⟨a, b, e, _⟩
      exact absurd e (hn a b)

theorem eval_comparison (hc : operator.isComparison = true) {operands : List ExecutionCondition} :
    I.eval (.operation operator operands) = some (.bool v) ↔
      ∃ left right a b, operands = [left, right] ∧ I.eval left = some a ∧ I.eval right = some b ∧
        (v = true ↔ I.Compares operator a b) := by
  simp only [eval, evalList_eq]
  rw [operate_comparison hc]
  constructor
  · rintro ⟨a, b, e, h⟩
    obtain ⟨left, right, rfl⟩ := length_eq_two.mp (by simpa using congrArg List.length e)
    obtain ⟨hl, hr⟩ : I.eval left = some a ∧ I.eval right = some b := by simpa using e
    exact ⟨left, right, a, b, rfl, hl, hr, h⟩
  · rintro ⟨left, right, a, b, rfl, hl, hr, h⟩
    exact ⟨a, b, by rw [map_cons, map_cons, hl, hr]; rfl, h⟩

variable {left right c x : ExecutionCondition}

theorem eval_comparison_pair (hc : operator.isComparison = true)
    (h : I.eval (.operation operator [left, right]) = some (.bool v)) :
    ∃ a b, I.eval left = some a ∧ I.eval right = some b ∧ (v = true ↔ I.Compares operator a b) := by
  obtain ⟨_, _, a, b, e, hl, hr, hv⟩ := (eval_comparison hc).mp h
  obtain ⟨rfl, rfl⟩ : left = _ ∧ right = _ := by simpa using e
  exact ⟨a, b, hl, hr, hv⟩

theorem eval_not {operand : ExecutionCondition} {operands : List ExecutionCondition} :
    I.eval (.operation .logicalNot (operand :: operands)) = some (.bool v) ↔ I.eval operand = some (.bool !v) := by
  simp only [eval, evalList, operate, map_eq_some_iff, Value.bool.injEq, truth_eq_some]
  constructor
  · rintro ⟨b, hb, rfl⟩
    rw [hb, Bool.not_not]
  · intro h
    exact ⟨!v, h, Bool.not_not v⟩

/-- A snapshot of a scalar has the value of the scalar. -/
theorem eval_scalarContents (c : ExecutionCondition) : I.eval c.scalarContents = I.eval c := by
  cases c with
  | constructed base fields =>
      simp only [scalarContents]
      split
      · rename_i value e
        simp only [eval, e]
      · rename_i value e
        simp only [eval, e]
      · rfl
  | _ => rfl

/-! ## 2. Normal forms -/

theorem eval_negation (h : I.eval (negation c) = some (.bool v)) : I.eval c = some (.bool !v) := by
  rw [← eval_scalarContents]
  unfold negation at h
  split at h
  · rename_i value e
    rw [e]
    simp only [eval, Option.some.injEq, Value.bool.injEq] at h ⊢
    rw [← h, Bool.not_not]
  · rename_i inner e
    rw [e]
    cases inner with
    | nil => simp [eval] at h
    | cons x inner => exact eval_not.mpr (by rw [Bool.not_not]; exact h)
  · exact eval_not.mp h

/-- A comparison with a Boolean constant is decided by the truth value of its other operand. -/
theorem eval_truthTest (ho : operator.isEquality = true) {expected : Bool}
    (h : I.eval (truthTest operator c expected) = some (.bool v)) :
    ∃ a, I.eval c = some a ∧ (v = true ↔ I.Compares operator a (.bool expected)) := by
  unfold truthTest at h
  rcases isEquality_iff.mp ho with rfl | rfl
  · split at h
    · rename_i e
      obtain rfl : expected = true := e
      exact ⟨_, h, same_bool.symm⟩
    · rename_i e
      obtain rfl : expected = false := by simpa using e
      refine ⟨_, eval_negation h, ?_⟩
      show _ ↔ Same _ _
      rw [same_bool]
      cases v <;> simp
  · split at h
    · rename_i e
      obtain rfl : expected = false := e
      refine ⟨_, h, ?_⟩
      show _ ↔ ¬ Same _ _
      rw [same_bool]
      cases v <;> simp
    · rename_i e
      obtain rfl : expected = true := by
        cases expected
        · exact absurd rfl e
        · rfl
      refine ⟨_, eval_negation h, ?_⟩
      show _ ↔ ¬ Same _ _
      rw [same_bool]
      cases v <;> simp

/-- A truth value of a normal form **settles** the comparison: it decides it between values, and
    a true one, unless it is an inequality, tells that there are values. -/
structure Settles (I : Interpretation) (operator : BoundOperator) (v : Bool)
    (x y : Option (Value I.Datum)) : Prop where
  decides : ∀ a b, x = some a → y = some b → (v = true ↔ I.Compares operator a b)
  values : v = true → operator ≠ .notEqual → ∃ a b, x = some a ∧ y = some b

theorem Settles.of_values {a b : Value I.Datum}
    (h : v = true ↔ I.Compares operator a b) : Settles I operator v (some a) (some b) := by
  refine ⟨fun a' b' ha hb => ?_, fun _ _ => ⟨a, b, rfl, rfl⟩⟩
  obtain rfl := Option.some.inj ha
  obtain rfl := Option.some.inj hb
  exact h

/-- An equality is settled in either order of its operands. -/
theorem Settles.swap (ho : operator.isEquality = true)
    {x y : Option (Value I.Datum)} (h : Settles I operator v x y) : Settles I operator v y x := by
  have hsym : ∀ a b, I.Compares operator a b ↔ I.Compares operator b a := by
    intro a b
    rcases isEquality_iff.mp ho with rfl | rfl
    · exact ⟨Same.symm, Same.symm⟩
    · exact not_congr ⟨Same.symm, Same.symm⟩
  refine ⟨fun a b ha hb => (h.decides b a hb ha).trans (hsym b a), fun hv hn => ?_⟩
  obtain ⟨a, b, ha, hb⟩ := h.values hv hn
  exact ⟨b, a, hb, ha⟩

theorem Settles.of_operation (hc : operator.isComparison = true)
    (h : I.eval (.operation operator [left, right]) = some (.bool v)) :
    Settles I operator v (I.eval left) (I.eval right) := by
  obtain ⟨a, b, ha, hb, hv⟩ := eval_comparison_pair hc h
  rw [ha, hb]
  exact .of_values hv

theorem Settles.of_literals {left right : ConstantValueData}
    {value : Bool} (hf : foldBinary operator left.kind right.kind = some value)
    (h : I.eval (.boolean value) = some (.bool v)) :
    Settles I operator v (some (I.literal left)) (some (I.literal right)) := by
  obtain rfl : value = v := by simpa [eval] using h
  exact .of_values (I.literal_fold operator left right value hf)

/-! ### Absent nullables -/

theorem componentBase_of_nullable (base : ExecutionCondition)
    {fields : List (StorageProjection × ExecutionCondition)} (h : nullableFields fields = true) :
    componentBase base fields = base := by
  have hnone : fields.find? (fun x => x.1 == .ownedTarget) = none := by
    rw [find?_eq_none]
    intro x hx
    have := all_eq_true.mp h x hx
    simp only [beq_iff_eq] at this ⊢
    rw [this]
    decide
  unfold componentBase
  rw [hnone]

/-- What is observed in place of an operand is absent when the operand is. -/
theorem eval_observedNullable {s : ExecutionCondition} (h : c.observedNullable = some s) :
    ∃ f : Value I.Datum → Value I.Datum, I.eval c = (I.eval s).map f ∧
      ∀ v (absent : ConstantValueData), absent.kind = .nullableAbsent →
        (Same (I.rank (f v)) (I.rank (I.literal absent)) ↔
          Same (I.rank v) (I.rank (I.literal absent))) := by
  unfold observedNullable at h
  split at h
  · obtain rfl := Option.some.inj h
    exact ⟨I.borrowed, by simp only [eval], I.borrowed_absent⟩
  · rename_i base fields
    split at h
    · rename_i hn
      obtain rfl := Option.some.inj h
      simp only [eval, componentBase_of_nullable base hn, hn, if_true]
      split
      · exact ⟨id, by simp [eval], fun _ _ _ => Iff.rfl⟩
      · exact ⟨id, by simp [eval], fun _ _ _ => Iff.rfl⟩
      · exact ⟨_, rfl, I.updated_absent _⟩
    · cases h
  · cases h

variable {absent : ConstantValueData}

section

variable (ho : operator.isEquality = true) (ha : absent.kind = .nullableAbsent)
include ho ha

theorem Settles.observe {s : ExecutionCondition} (h : c.observedNullable = some s)
    (hs : Settles I operator v (I.eval s) (some (I.literal absent))) :
    Settles I operator v (I.eval c) (some (I.literal absent)) := by
  obtain ⟨f, e, hf⟩ := eval_observedNullable (I := I) h
  rw [e]
  refine ⟨fun a b hx hy => ?_, fun hv hn => ?_⟩
  · obtain ⟨w, hw, rfl⟩ := map_eq_some_iff.mp hx
    obtain rfl := Option.some.inj hy
    refine (hs.decides w _ hw rfl).trans ?_
    rcases isEquality_iff.mp ho with rfl | rfl
    · exact (hf w absent ha).symm
    · exact not_congr (hf w absent ha).symm
  · obtain ⟨w, b, hw, hb⟩ := hs.values hv hn
    exact ⟨f w, b, by rw [hw]; rfl, hb⟩

/-- A present value is not absent, whether or not it has a value. -/
theorem Settles.of_present (h : I.eval (.boolean (operator == .notEqual)) = some (.bool v)) :
    Settles I operator v (I.eval (.present c)) (some (I.literal absent)) := by
  obtain rfl : (operator == .notEqual) = v := by simpa [eval] using h
  have hne : ∀ a, I.eval (.present c) = some a → ¬ Same (I.rank a) (I.rank (I.literal absent)) := by
    intro a hx
    obtain ⟨w, _, rfl⟩ := map_eq_some_iff.mp hx
    exact I.present_absent w absent ha
  rcases isEquality_iff.mp ho with rfl | rfl
  · refine ⟨fun a b hx hy => ?_, fun hv => absurd hv (by decide)⟩
    obtain rfl := Option.some.inj hy
    exact iff_of_false (by decide) (hne a hx)
  · refine ⟨fun a b hx hy => ?_, fun _ hn => absurd rfl hn⟩
    obtain rfl := Option.some.inj hy
    exact iff_of_true (by decide) (hne a hx)

theorem absentTest_settles (h : I.eval (absentTest operator absent x) = some (.bool v)) :
    Settles I operator v (I.eval x) (some (I.literal absent)) := by
  have hc : operator.isComparison = true := by
    rcases isEquality_iff.mp ho with rfl | rfl <;> rfl
  have hlit : I.eval (.literal absent) = some (I.literal absent) := by simp only [eval]
  have htruth : ∀ value, I.eval (truthTest operator (.literal absent) value) = some (.bool v) →
      Settles I operator v (some (.bool value)) (some (I.literal absent)) := by
    intro value h
    obtain ⟨a, hl, hv⟩ := eval_truthTest ho h
    obtain rfl := Option.some.inj (hlit.symm.trans hl)
    exact (Settles.of_values hv).swap ho
  -- the cases of the definition, in its order
  fun_induction absentTest operator absent x with
  | case1 value =>
      exact htruth value h
  | case2 left value hf =>
      exact .of_literals hf h
  | case3 left _ => exact hlit ▸ Settles.of_operation hc h
  | case4 c _ => simp [eval] at h
  | case5 c _ => exact .of_present ho ha h
  | case6 c _ => simp [eval] at h
  | case7 c _ ih => exact .observe ho ha rfl (ih h)
  | case8 base fields value hb =>
      simp only [eval, hb]
      exact htruth value h
  | case9 base fields left hb value hf =>
      simp only [eval, hb]
      exact .of_literals hf h
  | case10 base fields left hb _ =>
      have e : I.eval (.constructed base fields) = I.eval (.literal left) := by simp only [eval, hb]
      rw [e]
      exact hlit ▸ Settles.of_operation hc h
  | case11 base fields hn _ _ ih => exact .observe ho ha (by simp [observedNullable, hn]) (ih h)
  | case12 base fields _ _ _ => exact hlit ▸ Settles.of_operation hc h
  | case13 subject _ => simp [eval] at h
  | case14 subject _ => exact hlit ▸ Settles.of_operation hc h

end

/-! ### The normal form of a comparison -/

theorem finishEquality_settles (ho : operator.isEquality = true)
    (h : I.eval (finishEquality operator left right) = some (.bool v)) :
    Settles I operator v (I.eval left) (I.eval right) := by
  have hc : operator.isComparison = true := by
    rcases isEquality_iff.mp ho with rfl | rfl <;> rfl
  have hlit : ∀ absent, I.eval (.literal absent) = some (I.literal absent) := fun absent => by
    simp only [eval]
  have htrue : ∀ expected, I.eval (.boolean expected) = some (.bool expected) := fun expected => by
    simp only [eval]
  unfold finishEquality at h
  split at h
  · split at h
    · rename_i ha
      exact hlit _ ▸ .of_present ho ha h
    · exact .of_operation hc h
  · split at h
    · rename_i ha
      exact hlit _ ▸ (Settles.of_present ho ha h).swap ho
    · exact .of_operation hc h
  · obtain ⟨a, hl, hv⟩ := eval_truthTest ho h
    rw [hl, htrue]
    exact .of_values hv
  · obtain ⟨a, hl, hv⟩ := eval_truthTest ho h
    rw [hl, htrue]
    exact (Settles.of_values hv).swap ho
  · exact .of_operation hc h

/-- Nothing is strictly before itself, ordered or not. -/
theorem Settles.of_strict_self (ho : operator = .less ∨ operator = .greater)
    (h : I.eval (.boolean false) = some (.bool v)) : Settles I operator v (I.eval c) (I.eval c) := by
  obtain rfl : false = v := by simpa [eval] using h
  refine ⟨fun a b hx hy => ?_, fun hv => absurd hv Bool.false_ne_true⟩
  obtain rfl := Option.some.inj (hx.symm.trans hy)
  refine iff_of_false Bool.false_ne_true fun hlt => ?_
  rcases ho with rfl | rfl
  · exact Lt.not_le hlt (Lt.le hlt)
  · exact Lt.not_le hlt (Lt.le hlt)

theorem finish_settles (hc : operator.isComparison = true)
    (h : I.eval (finish operator [left, right]) = some (.bool v)) :
    Settles I operator v (I.eval left) (I.eval right) := by
  cases operator with
  | equal => exact finishEquality_settles rfl h
  | notEqual => exact finishEquality_settles rfl h
  | less =>
      simp only [finish] at h
      split at h
      · rename_i e
        exact e ▸ .of_strict_self (.inl rfl) h
      · exact .of_operation hc h
  | greater =>
      simp only [finish] at h
      split at h
      · rename_i e
        exact e ▸ .of_strict_self (.inr rfl) h
      · exact .of_operation hc h
  | lessEqual => exact .of_operation hc h
  | greaterEqual => exact .of_operation hc h
  | _ => exact absurd hc (by decide)

/-- **A normal form that has a truth value settles the comparison it stands for.** -/
theorem operationOf_settles (hc : operator.isComparison = true)
    (h : I.eval (operationOf operator [left, right]) = some (.bool v)) :
    Settles I operator v (I.eval left) (I.eval right) := by
  rw [← eval_scalarContents left, ← eval_scalarContents right]
  simp only [operationOf, map_cons, map_nil] at h
  generalize left.scalarContents = l at h ⊢
  generalize right.scalarContents = r at h ⊢
  split at h
  · simp [eval] at h
  · split at h
    · rename_i e
      exact absurd (congrArg List.length e) (by simp)
    · rename_i a b e
      obtain ⟨rfl, rfl⟩ : l = .literal a ∧ r = .literal b := by simpa using e
      split at h
      · rename_i hf
        exact .of_literals hf h
      · exact finish_settles hc h
    · split at h
      · rename_i ho
        split at h
        · rename_i subject absent e
          unfold absentOperands at e
          split at e
          · rename_i left absent' e'
            obtain ⟨rfl, rfl⟩ : l = left ∧ r = .literal absent' := by simpa using e'
            split at e
            · rename_i ha
              obtain ⟨s, hs, e⟩ := map_eq_some_iff.mp e
              obtain ⟨rfl, rfl⟩ : s = subject ∧ absent' = absent := by simpa using e
              simpa only [eval] using (absentTest_settles ho ha h).observe ho ha hs
            · cases e
          · rename_i absent' right _ e'
            obtain ⟨rfl, rfl⟩ : l = .literal absent' ∧ r = right := by simpa using e'
            split at e
            · rename_i ha
              obtain ⟨s, hs, e⟩ := map_eq_some_iff.mp e
              obtain ⟨rfl, rfl⟩ : s = subject ∧ absent' = absent := by simpa using e
              simpa only [eval] using ((absentTest_settles ho ha h).observe ho ha hs).swap ho
            · cases e
          · cases e
        · exact finish_settles hc h
      · exact finish_settles hc h

/-! ## 3. Orderings -/

section Assumed

variable {assumptions : Assumptions} (hA : I.Satisfies assumptions)
include hA

/-- A comparison that excludes unordered operands gives its operands a place. -/
theorem ordered_of_assumption {operator : BoundOperator} {operands : List ExecutionCondition}
    {holds : Bool} (hm : (.operation operator operands, holds) ∈ assumptions)
    (hx : excludesUnordered operator holds = true) {value : ExecutionCondition}
    (hv : value ∈ operands) : ∃ a, I.eval value = some a ∧ (I.rank a).isSome = true := by
  have h := hA _ hm
  have hc : operator.isComparison = true := by cases operator <;> first | rfl | cases hx
  obtain ⟨left, right, a, b, rfl, ha, hb, hv'⟩ := (eval_comparison hc).mp h
  have hle : Le (I.rank a) (I.rank b) ∨ Le (I.rank b) (I.rank a) := by
    cases operator with
    | equal => exact .inl (Same.le (hv'.mp hx))
    | notEqual =>
        have hs : ¬ ¬ Same (I.rank a) (I.rank b) := fun hn =>
          absurd (hv'.mpr hn) (by simpa [excludesUnordered] using hx)
        exact .inl (Same.le (not_not.mp hs))
    | less => exact .inl (Lt.le (hv'.mp hx))
    | lessEqual => exact .inl (hv'.mp hx)
    | greater => exact .inr (Lt.le (hv'.mp hx))
    | greaterEqual => exact .inr (hv'.mp hx)
    | _ => exact absurd hc (by decide)
  rcases mem_pair.mp hv with rfl | rfl
  · exact ⟨a, ha, hle.elim Le.left Le.right⟩
  · exact ⟨b, hb, hle.elim Le.right Le.left⟩

theorem positivelyOrdered_sound {value : ExecutionCondition} {budget : Nat}
    (h : (positivelyOrdered value assumptions budget).1 = true) :
    ∃ a, I.eval value = some a ∧ (I.rank a).isSome = true := by
  -- over the part of the assumptions that is left
  have loop : ∀ (rest : Assumptions) (budget : Nat), (∀ x ∈ rest, x ∈ assumptions) →
      (positivelyOrdered value rest budget).1 = true →
      ∃ a, I.eval value = some a ∧ (I.rank a).isSome = true := by
    intro rest budget
    fun_induction positivelyOrdered value rest budget with
    | case1 | case2 => exact fun _ h => absurd h Bool.false_ne_true
    | case3 holds rest budget operator operands hcond =>
        intro hsub _
        rw [Bool.and_eq_true, decide_eq_true_eq] at hcond
        exact ordered_of_assumption hA (hsub _ (.head _)) hcond.1 hcond.2
    | case4 holds rest budget operator operands _ ih | case5 holds rest budget condition _ ih =>
        exact fun hsub h => ih (fun x hx => hsub x (.tail _ hx)) h
  exact loop assumptions budget (fun x hx => hx) h

end Assumed

/-- The values of two terms are in order, strictly if asked. -/
def InOrder (I : Interpretation) (strict : Bool) (lower upper : ExecutionCondition) : Prop :=
  ∃ a b, I.eval lower = some a ∧ I.eval upper = some b ∧
    Le (I.rank a) (I.rank b) ∧ (strict = true → Lt (I.rank a) (I.rank b))

theorem InOrder.trans {s t : Bool} {y z : ExecutionCondition} (h : InOrder I s x y)
    (h' : InOrder I t y z) : InOrder I (s || t) x z := by
  obtain ⟨a, b, ha, hb, hle, hlt⟩ := h
  obtain ⟨b', c, hb', hc, hle', hlt'⟩ := h'
  obtain rfl := Option.some.inj (hb.symm.trans hb')
  refine ⟨a, c, ha, hc, hle.trans hle', fun hst => ?_⟩
  rcases Bool.or_eq_true_iff.mp hst with hs | ht
  · exact (hlt hs).trans_le hle'
  · exact hle.trans_lt (hlt' ht)

theorem InOrder.weaken {s t : Bool} {y : ExecutionCondition} (h : InOrder I s x y)
    (hst : t = true → s = true) : InOrder I t x y := by
  obtain ⟨a, b, ha, hb, hle, hlt⟩ := h
  exact ⟨a, b, ha, hb, hle, fun ht => hlt (hst ht)⟩

/-- **What the search has reached**: the start, or a term above it. -/
def Above (I : Interpretation) (lower : ExecutionCondition) (x : ExecutionCondition × Bool) :
    Prop :=
  x = (lower, false) ∨ InOrder I x.2 lower x.1

theorem Above.step {lower current next : ExecutionCondition} {strict edge : Bool}
    (h : Above I lower (current, strict)) (he : InOrder I edge current next) :
    InOrder I (strict || edge) lower next := by
  rcases h with e | h
  · obtain ⟨rfl, rfl⟩ : current = lower ∧ strict = false := by simpa using e
    exact he
  · exact h.trans he

section Assumed

variable {assumptions : Assumptions} (hA : I.Satisfies assumptions)
include hA

theorem orderingEdge_sound {operator : BoundOperator} {left right current start stop : ExecutionCondition}
    {strict : Bool} (hm : (.operation operator [left, right], true) ∈ assumptions)
    (he : orderingEdge operator left right current = some (start, stop, strict)) : InOrder I strict start stop := by
  have h := hA _ hm
  have hc : operator.isComparison = true := by cases operator <;> first | rfl | cases he
  obtain ⟨a, b, ha, hb, hv⟩ := eval_comparison_pair hc h
  have hv := hv.mp rfl
  cases operator with
  | less =>
      obtain ⟨rfl, rfl, rfl⟩ : left = start ∧ right = stop ∧ true = strict := by
        simpa [orderingEdge] using he
      exact ⟨a, b, ha, hb, Lt.le hv, fun _ => hv⟩
  | lessEqual =>
      obtain ⟨rfl, rfl, rfl⟩ : left = start ∧ right = stop ∧ false = strict := by
        simpa [orderingEdge] using he
      exact ⟨a, b, ha, hb, hv, fun h => absurd h Bool.false_ne_true⟩
  | greater =>
      obtain ⟨rfl, rfl, rfl⟩ : right = start ∧ left = stop ∧ true = strict := by
        simpa [orderingEdge] using he
      exact ⟨b, a, hb, ha, Lt.le hv, fun _ => hv⟩
  | greaterEqual =>
      obtain ⟨rfl, rfl, rfl⟩ : right = start ∧ left = stop ∧ false = strict := by
        simpa [orderingEdge] using he
      exact ⟨b, a, hb, ha, hv, fun h => absurd h Bool.false_ne_true⟩
  | equal =>
      simp only [orderingEdge] at he
      split at he
      · obtain ⟨rfl, rfl, rfl⟩ : right = start ∧ left = stop ∧ false = strict := by simpa using he
        exact ⟨b, a, hb, ha, (Same.symm hv).le, fun h => absurd h Bool.false_ne_true⟩
      · obtain ⟨rfl, rfl, rfl⟩ : left = start ∧ right = stop ∧ false = strict := by simpa using he
        exact ⟨a, b, ha, hb, Same.le hv, fun h => absurd h Bool.false_ne_true⟩
  | _ => cases he

variable {lower upper : ExecutionCondition}

theorem followEdges_sound (upper : ExecutionCondition) (requiresStrict : Bool)
    {current : ExecutionCondition} {strict : Bool} (hcur : Above I lower (current, strict)) (rest : Assumptions)
    (hsub : ∀ x ∈ rest, x ∈ assumptions) (pending : List (ExecutionCondition × Bool)) (budget : Nat)
    (hp : ∀ x ∈ pending, Above I lower x) :
    ((followEdges upper requiresStrict current strict rest pending budget).1 = some true →
        InOrder I requiresStrict lower upper) ∧
      ((followEdges upper requiresStrict current strict rest pending budget).1 = none →
        ∀ x ∈ (followEdges upper requiresStrict current strict rest pending budget).2.1, Above I lower x) := by
  fun_induction followEdges upper requiresStrict current strict rest pending budget with
  | case1 pending budget => exact ⟨fun h => absurd h (by simp), fun _ => hp⟩
  | case2 _ _ pending => exact ⟨fun h => absurd h (by simp), fun h => by cases h⟩
  | case3 operator left right rest pending budget stop edge hstop he =>
      refine ⟨fun _ => ?_, fun h => by cases h⟩
      obtain ⟨rfl, hstrict⟩ := hstop
      have hedge := orderingEdge_sound hA (hsub _ (.head _)) he
      refine (hcur.step hedge).weaken fun hr => ?_
      simpa [hr] using hstrict
  | case4 operator left right rest pending budget stop edge _ he ih =>
      have hedge := orderingEdge_sound hA (hsub _ (.head _)) he
      refine ih (fun x hx => hsub x (.tail _ hx)) fun x hx => ?_
      rcases mem_cons.mp hx with rfl | hx
      · exact .inr (hcur.step hedge)
      · exact hp x hx
  | case5 operator left right rest pending budget start stop edge he hstart ih
  | case6 operator left right rest pending budget he ih | case7 rest pending budget x _ ih =>
      exact ih (fun x hx => hsub x (.tail _ hx)) hp

omit hA in
theorem literalsOrdered_sound {strict : Bool}
    (h : literalsOrdered strict lower upper = true) : InOrder I strict lower upper := by
  unfold literalsOrdered at h
  split at h
  · rename_i a b
    split at h
    · have hf := I.literal_fold _ a b true (by simpa using h)
      have hl : I.eval (.literal a) = some (I.literal a) := by simp only [eval]
      have hr : I.eval (.literal b) = some (I.literal b) := by simp only [eval]
      have hv := hf.mp rfl
      cases strict with
      | true => exact ⟨_, _, hl, hr, Lt.le hv, fun _ => hv⟩
      | false => exact ⟨_, _, hl, hr, hv, fun h => absurd h Bool.false_ne_true⟩
    · cases h
  · cases h

theorem orderedPathLoop_sound {requiresStrict : Bool}
    (fuel : Nat) (pending visited : List (ExecutionCondition × Bool)) (budget : Nat)
    (hp : ∀ x ∈ pending, Above I lower x)
    (h : (orderedPathLoop upper requiresStrict assumptions fuel pending visited budget).1 = true) :
    InOrder I requiresStrict lower upper := by
  fun_induction orderedPathLoop upper requiresStrict assumptions fuel pending visited budget with
  | case1 | case2 => cases h
  | case3 fuel current strict pending visited budget hlit =>
      have hlast := literalsOrdered_sound (I := I) hlit
      refine ((hp _ (.head _)).step hlast).weaken fun hr => ?_
      cases strict <;> simp [hr]
  | case4 fuel current strict pending visited budget _ _ ih =>
      exact ih (fun x hx => hp x (.tail _ hx)) h
  | case5 fuel current strict pending visited budget _ _ found pending' budget' e =>
      have hf := followEdges_sound hA upper requiresStrict
        (hp _ (.head _)) assumptions (fun x hx => hx) pending budget
        fun x hx => hp x (.tail _ hx)
      rw [e] at hf
      exact hf.1 (congrArg some h)
  | case6 fuel current strict pending visited budget _ _ pending' budget' e ih =>
      have hf := followEdges_sound hA upper requiresStrict
        (hp _ (.head _)) assumptions (fun x hx => hx) pending budget
        fun x hx => hp x (.tail _ hx)
      rw [e] at hf
      exact ih (hf.2 rfl) h

theorem orderedPath_sound {requiresStrict : Bool} {budget : Nat}
    (h : (orderedPath upper requiresStrict lower assumptions budget).1 = true) :
    InOrder I requiresStrict lower upper := by
  unfold orderedPath at h
  split at h
  · cases h
  · refine orderedPathLoop_sound hA _ _ _ _ (fun x hx => .inl ?_) h
    exact mem_singleton.mp hx

end Assumed

/-! ## 4. Comparisons -/

section Assumed

variable {assumptions : Assumptions} (hA : I.Satisfies assumptions)
include hA

variable {left right : ExecutionCondition}

variable {operator : BoundOperator}

theorem known_sound (hc : operator.isComparison = true)
    (hn : operator ≠ .notEqual) (h : known assumptions operator left right = true) :
    ∃ a b, I.eval left = some a ∧ I.eval right = some b ∧ I.Compares operator a b := by
  have hs := operationOf_settles hc (hA _ (of_decide_eq_true h))
  obtain ⟨a, b, ha, hb⟩ := hs.values rfl hn
  exact ⟨a, b, ha, hb, (hs.decides a b ha hb).mp rfl⟩

theorem known_less (h : known assumptions .less left right = true) : InOrder I true left right := by
  obtain ⟨a, b, ha, hb, hlt⟩ := known_sound hA rfl (by decide) h
  exact ⟨a, b, ha, hb, Lt.le hlt, fun _ => hlt⟩

theorem known_greater (h : known assumptions .greater left right = true) : InOrder I true right left := by
  obtain ⟨a, b, ha, hb, hlt⟩ := known_sound hA rfl (by decide) h
  exact ⟨b, a, hb, ha, Lt.le hlt, fun _ => hlt⟩

theorem known_lessEqual (h : known assumptions .lessEqual left right = true) : InOrder I false left right := by
  obtain ⟨a, b, ha, hb, hle⟩ := known_sound hA rfl (by decide) h
  exact ⟨a, b, ha, hb, hle, fun h => absurd h Bool.false_ne_true⟩

theorem known_greaterEqual (h : known assumptions .greaterEqual left right = true) :
    InOrder I false right left := by
  obtain ⟨a, b, ha, hb, hle⟩ := known_sound hA rfl (by decide) h
  exact ⟨b, a, hb, ha, hle, fun h => absurd h Bool.false_ne_true⟩

theorem known_equal (h : known assumptions .equal left right = true) :
    InOrder I false left right ∧ InOrder I false right left := by
  obtain ⟨a, b, ha, hb, hs⟩ := known_sound hA rfl (by decide) h
  exact ⟨⟨a, b, ha, hb, Same.le hs, fun h => absurd h Bool.false_ne_true⟩,
    ⟨b, a, hb, ha, (Same.symm hs).le, fun h => absurd h Bool.false_ne_true⟩⟩

/-- Terms that are known to be unequal have no values, or different ones. -/
theorem knownUnequal_sound (h : knownUnequal assumptions left right = true)
    {a b : Value I.Datum} (ha : I.eval left = some a) (hb : I.eval right = some b) :
    ¬ Same (I.rank a) (I.rank b) := by
  unfold knownUnequal at h
  simp only [Bool.or_eq_true, decide_eq_true_eq] at h
  rcases h with ((h | h) | h) | h
  · have hs := operationOf_settles rfl (hA _ (of_decide_eq_true h))
    exact (hs.decides a b ha hb).mp rfl
  · have hs := operationOf_settles rfl (hA _ (of_decide_eq_true h))
    exact fun e => (hs.decides b a hb ha).mp rfl (Same.symm e)
  · have hs := operationOf_settles rfl (hA _ h)
    exact fun e => absurd ((hs.decides a b ha hb).mpr e) Bool.false_ne_true
  · have hs := operationOf_settles rfl (hA _ h)
    exact fun e => absurd ((hs.decides b a hb ha).mpr (Same.symm e)) Bool.false_ne_true

theorem InOrder.of_unequal (hu : knownUnequal assumptions left right = true)
    (h : InOrder I false left right) : InOrder I true left right := by
  obtain ⟨a, b, ha, hb, hle, _⟩ := h
  exact ⟨a, b, ha, hb, hle, fun _ => hle.lt_of_not_same (knownUnequal_sound hA hu ha hb)⟩

omit hA in
/-- A strict ordering, in either direction, decides an equality. -/
theorem eval_equality_of_strict (ho : operator.isEquality = true)
    (h : InOrder I true left right ∨ InOrder I true right left) :
    I.eval (.operation operator [left, right]) = some (.bool (operator == .notEqual)) := by
  obtain ⟨a, b, ha, hb, hn⟩ : ∃ a b, I.eval left = some a ∧ I.eval right = some b ∧
      ¬ Same (I.rank a) (I.rank b) := by
    rcases h with ⟨a, b, ha, hb, _, hlt⟩ | ⟨b, a, hb, ha, _, hlt⟩
    · exact ⟨a, b, ha, hb, (hlt rfl).not_same⟩
    · exact ⟨a, b, ha, hb, fun e => (hlt rfl).not_same e.symm⟩
  rcases isEquality_iff.mp ho with rfl | rfl
  · refine (eval_comparison rfl).mpr ⟨left, right, a, b, rfl, ha, hb, ?_⟩
    exact iff_of_false (by decide) hn
  · refine (eval_comparison rfl).mpr ⟨left, right, a, b, rfl, ha, hb, ?_⟩
    exact iff_of_true (by decide) hn

variable {budget : Nat} {v allowsEqual : Bool}

theorem equalityIsImplied_sound (ho : operator.isEquality = true)
    (h : (equalityIsImplied operator left right assumptions budget).1 = some v) :
    I.eval (.operation operator [left, right]) = some (.bool v) := by
  have hstrict : InOrder I true left right ∨ InOrder I true right left := by
    unfold equalityIsImplied at h
    split at h
    · rename_i hk
      simp only [Bool.or_eq_true] at hk
      rcases hk with ((hk | hk) | hk) | hk
      · exact .inl (known_less hA hk)
      · exact .inr (known_less hA hk)
      · exact .inr (known_greater hA hk)
      · exact .inl (known_greater hA hk)
    · simp only at h
      split at h
      · rename_i hf
        exact .inl (orderedPath_sound hA hf)
      · split at h
        · rename_i hb
          exact .inr (orderedPath_sound hA hb)
        · cases h
  have hv : v = (operator == .notEqual) := by
    unfold equalityIsImplied at h
    simp only at h
    repeat' split at h
    all_goals first
      | exact (Option.some.inj h).symm
      | cases h
  rw [hv]
  exact eval_equality_of_strict ho hstrict

omit hA in
/-- The two directions of an ordering are one with the operands exchanged. -/
theorem orderingIsImplied_swap : orderingIsImplied .greater .less allowsEqual left right assumptions budget =
      orderingIsImplied .less .greater allowsEqual right left assumptions budget := by
  have hu : knownUnequal assumptions left right = knownUnequal assumptions right left := by
    unfold knownUnequal
    simp [Bool.or_comm, Bool.or_left_comm, Bool.or_assoc]
  unfold orderingIsImplied
  simp only [weakened, hu, reduceCtorEq, if_false, if_true]
  simp [Bool.or_comm, Bool.or_left_comm, Bool.or_assoc]

/-- The upward orderings. -/
theorem orderingIsImplied_sound
    (h : (orderingIsImplied .less .greater allowsEqual left right assumptions budget).1 = some v) :
    (v = true ∧ InOrder I (!allowsEqual) left right) ∨ (v = false ∧ InOrder I allowsEqual right left) := by
  have strong : ∀ {x y : ExecutionCondition} {s : Bool}, InOrder I true x y → InOrder I s x y :=
    fun h => h.weaken fun _ => rfl
  unfold orderingIsImplied at h
  simp only [weakened] at h
  split at h
  · rename_i hk
    obtain rfl := Option.some.inj h
    refine .inl ⟨rfl, ?_⟩
    simp only [Bool.or_eq_true, Bool.and_eq_true] at hk
    rcases hk with ((hk | hk) | ⟨hu, hk | hk⟩) | ⟨he, hk | hk⟩
    · exact strong (known_less hA hk)
    · exact strong (known_greater hA hk)
    · exact strong ((known_lessEqual hA hk).of_unequal hA hu)
    · exact strong ((known_greaterEqual hA hk).of_unequal hA hu)
    · exact he ▸ (known_equal hA hk).1
    · exact he ▸ (known_equal hA hk).2
  · split at h
    · rename_i hk
      obtain rfl := Option.some.inj h
      refine .inr ⟨rfl, ?_⟩
      simp only [Bool.or_eq_true] at hk
      rcases hk with hk | hk
      · exact strong (known_greater hA hk)
      · exact strong (known_less hA hk)
    · split at h
      · rename_i hk
        obtain rfl := Option.some.inj h
        refine .inr ⟨rfl, ?_⟩
        simp only [Bool.or_eq_true, Bool.and_eq_true, Bool.not_eq_true'] at hk
        obtain ⟨he, hk⟩ := hk
        rw [he]
        rcases hk with ((hk | hk) | hk) | hk
        · exact known_greaterEqual hA hk
        · exact known_lessEqual hA hk
        · exact (known_equal hA hk).2
        · exact (known_equal hA hk).1
      · simp only [if_true] at h
        split at h
        · rename_i hp
          obtain rfl := Option.some.inj h
          refine .inl ⟨rfl, ?_⟩
          have hup := orderedPath_sound hA hp
          cases hu : knownUnequal assumptions left right with
          | true =>
              rw [hu, Bool.not_true, Bool.and_false] at hup
              exact strong (hup.of_unequal hA hu)
          | false =>
              rw [hu, Bool.not_false, Bool.and_true] at hup
              exact hup
        · split at h
          · rename_i hp
            obtain rfl := Option.some.inj h
            exact .inr ⟨rfl, orderedPath_sound hA hp⟩
          · cases h

omit hA in
/-- What an answer about an upward ordering says of the two values. -/
theorem eval_upward (h : (v = true ∧ InOrder I (!allowsEqual) left right) ∨
      (v = false ∧ InOrder I allowsEqual right left)) :
    ∃ a b, I.eval left = some a ∧ I.eval right = some b ∧ (v = true ↔
      Holds (if allowsEqual then .lessEqual else .less) (I.rank a) (I.rank b)) := by
  rcases h with ⟨rfl, a, b, ha, hb, hle, hlt⟩ | ⟨rfl, b, a, hb, ha, hle, hlt⟩
  · refine ⟨a, b, ha, hb, iff_of_true rfl ?_⟩
    cases allowsEqual with
    | true => exact hle
    | false => exact hlt rfl
  · refine ⟨a, b, ha, hb, iff_of_false Bool.false_ne_true ?_⟩
    cases allowsEqual with
    | true => exact (hlt rfl).not_le
    | false => exact fun h => Lt.not_le h hle

/-- A term compared with itself, when it is ordered. -/
theorem reflexiveValue_sound (ho : (positivelyOrdered left assumptions budget).1 = true)
    (h : reflexiveValue operator = some v) : I.eval (.operation operator [left, left]) = some (.bool v) := by
  obtain ⟨a, ha, hr⟩ := positivelyOrdered_sound hA ho
  have hs := same_self hr
  have hirr : ¬ Lt (I.rank a) (I.rank a) := fun hlt => hlt.not_same hs
  have hc : operator.isComparison = true := by cases operator <;> first | rfl | cases h
  refine (eval_comparison hc).mpr ⟨left, left, a, a, rfl, ha, ha, ?_⟩
  cases operator with
  | equal => exact iff_of_true (Option.some.inj h).symm hs
  | lessEqual | greaterEqual => exact iff_of_true (Option.some.inj h).symm hs.le
  | notEqual =>
      obtain rfl := Option.some.inj h
      exact iff_of_false Bool.false_ne_true fun hn => hn hs
  | less | greater =>
      obtain rfl := Option.some.inj h
      exact iff_of_false Bool.false_ne_true hirr
  | _ => cases h

theorem comparisonBetween_sound (h : (comparisonBetween operator left right assumptions budget).1 = some v) :
    I.eval (.operation operator [left, right]) = some (.bool v) := by
  cases operator with
  | equal => exact equalityIsImplied_sound hA rfl h
  | notEqual => exact equalityIsImplied_sound hA rfl h
  | less | lessEqual =>
      obtain ⟨a, b, ha, hb, hv⟩ := eval_upward (orderingIsImplied_sound hA h)
      exact (eval_comparison rfl).mpr ⟨left, right, a, b, rfl, ha, hb, hv⟩
  | greater | greaterEqual =>
      simp only [comparisonBetween] at h
      rw [orderingIsImplied_swap] at h
      obtain ⟨b, a, hb, ha, hv⟩ := eval_upward (orderingIsImplied_sound hA h)
      exact (eval_comparison rfl).mpr ⟨left, right, a, b, rfl, ha, hb, hv⟩
  | _ => cases h

theorem comparisonIsImplied_sound {operands : List ExecutionCondition}
    (h : (comparisonIsImplied operator operands assumptions budget).1 = some v) :
    I.eval (.operation operator operands) = some (.bool v) := by
  unfold comparisonIsImplied at h
  split at h
  · rename_i left right
    by_cases e : left = right
    · subst e
      simp only [if_true] at h
      split at h
      · rename_i ho
        exact reflexiveValue_sound hA ho h
      · exact comparisonBetween_sound hA h
    · simp only [if_neg e, Bool.false_eq_true, if_false] at h
      exact comparisonBetween_sound hA h
  · cases h

/-! ## 5. The prover -/

theorem exactEvidence_sound {c : ExecutionCondition}
    (h : exactEvidence assumptions c = some v) : I.eval c = some (.bool v) := by
  unfold exactEvidence at h
  split at h
  · rename_i hm
    obtain rfl := Option.some.inj h
    exact hA _ hm.1
  · split at h
    · rename_i hm
      obtain rfl := Option.some.inj h
      exact hA _ hm.1
    · cases h

theorem inverseEvidence_sound {operands : List ExecutionCondition}
    (h : inverseEvidence assumptions operator operands = some v) :
    I.eval (.operation operator operands) = some (.bool v) := by
  -- a truth value of one equality is the opposite truth value of the other
  have flip : ∀ {op op' : BoundOperator} {w : Bool}, op.isEquality = true →
      op'.isEquality = true → op ≠ op' → I.eval (.operation op operands) = some (.bool w) →
      I.eval (.operation op' operands) = some (.bool !w) := by
    intro op op' w ho ho' hne hw
    have hc : ∀ {op : BoundOperator}, op.isEquality = true → op.isComparison = true := by
      intro op ho
      rcases isEquality_iff.mp ho with rfl | rfl <;> rfl
    obtain ⟨left, right, a, b, rfl, ha, hb, hv⟩ := (eval_comparison (hc ho)).mp hw
    refine (eval_comparison (hc ho')).mpr ⟨left, right, a, b, rfl, ha, hb, ?_⟩
    rcases isEquality_iff.mp ho with rfl | rfl <;> rcases isEquality_iff.mp ho' with rfl | rfl
    · exact absurd rfl hne
    · cases w <;> simpa [Compares, Holds] using hv
    · cases w <;> simpa [Compares, Holds, not_not] using hv
    · exact absurd rfl hne
  unfold inverseEvidence at h
  simp only at h
  split at h
  all_goals first
    | (cases h)
    | (split at h
       · rename_i hm
         obtain rfl := Option.some.inj h
         exact flip rfl rfl (by decide) (hA _ hm)
       · split at h
         · rename_i hm
           obtain rfl := Option.some.inj h
           exact flip rfl rfl (by decide) (hA _ hm)
         · cases h)

theorem otherVariantActive_sound {tested : Payload} {subject : ExecutionCondition}
    (h : otherVariantActive assumptions tested subject = true) :
    I.eval (.variantTest tested subject) = some (.bool false) := by
  obtain ⟨⟨c, value⟩, hm, hx⟩ := any_eq_true.mp h
  cases c with
  | variantTest active other =>
      simp only [Bool.and_eq_true, bne_iff_ne, beq_iff_eq] at hx
      obtain ⟨⟨rfl, hne⟩, rfl⟩ := hx
      have hv := hA _ hm
      simp only [eval, bind_eq_some_iff, map_eq_some_iff] at hv ⊢
      obtain ⟨w, hw, t, ht, e⟩ := hv
      obtain rfl : t = active := by simpa using e
      exact ⟨w, hw, t, ht, by simp [hne]⟩
  | _ => cases hx

omit hA in
/-- Kleene's connectives are monotone: what some of the values decide, all of them decide. -/
theorem conjunction_mono {x y x' y' : Option Bool} (hx : ∀ v, x = some v → x' = some v)
    (hy : ∀ v, y = some v → y' = some v) (h : conjunction x y = some v) : conjunction x' y' = some v := by
  rcases x with _ | _ | _
  · rcases y with _ | _ | _
    · cases h
    · rw [hy _ rfl]
      cases x' <;> grind [conjunction]
    · cases h
  · rw [hx _ rfl]
    exact h
  · rw [hx _ rfl]
    rcases y with _ | _ | _
    · cases h
    · rw [hy _ rfl]
      exact h
    · rw [hy _ rfl]
      exact h

omit hA in
theorem disjunction_mono {x y x' y' : Option Bool} (hx : ∀ v, x = some v → x' = some v)
    (hy : ∀ v, y = some v → y' = some v) (h : disjunction x y = some v) : disjunction x' y' = some v := by
  rcases x with _ | _ | _
  · rcases y with _ | _ | _
    · cases h
    · cases h
    · rw [hy _ rfl]
      cases x' <;> grind [disjunction]
  · rw [hx _ rfl]
    rcases y with _ | _ | _
    · cases h
    · rw [hy _ rfl]
      exact h
    · rw [hy _ rfl]
      exact h
  · rw [hx _ rfl]
    exact h

/-- **THE PROVER IS SOUND**: for every set of assumptions, every condition and every budget, an
    answer is the value of the condition in every interpretation that satisfies the assumptions. -/
theorem prove_sound {c : ExecutionCondition}
    (h : (prove assumptions c budget).1 = some v) : I.eval c = some (.bool v) := by
  -- one case for each way the prover returns
  fun_induction prove assumptions c budget generalizing v with
  | case1 | case4 | case13 | case14 => cases h
  | case2 condition captured budget ih => simpa only [eval] using ih h
  | case3 value budget =>
      obtain rfl := Option.some.inj h
      simp only [eval]
  | case5 _ _ _ _ _ he | case7 _ _ _ _ he =>
      obtain rfl := Option.some.inj h
      exact exactEvidence_sound hA he
  | case6 =>
      simp only at h
      split at h
      · rename_i hother
        obtain rfl := Option.some.inj h
        exact otherVariantActive_sound hA hother
      · cases h
  | case8 operator operands budget _ value _ he =>
      obtain rfl := Option.some.inj h
      exact comparisonIsImplied_sound hA (congrArg Prod.fst he)
  | case9 _ _ _ _ _ _ _ he =>
      obtain rfl := Option.some.inj h
      exact inverseEvidence_sound hA he
  | case10 _ _ operand _ _ e _ _ _ ih =>
      obtain ⟨w, rfl, rfl⟩ := map_eq_some_iff.mp h
      rw [eval_not, Bool.not_not]
      exact ih (by rw [e])
  | case11 _ _ left right _ _ el _ _ er _ _ _ ihl ihr =>
      have hv := conjunction_mono (fun w hw => truth_eq_some.mpr (ihl (by rw [el]; exact hw)))
        (fun w hw => truth_eq_some.mpr (ihr (by rw [er]; exact hw))) h
      simp only [eval, evalList, operate, hv, map_some]
  | case12 _ _ left right _ _ el _ _ er _ _ _ ihl ihr =>
      have hv := disjunction_mono (fun w hw => truth_eq_some.mpr (ihl (by rw [el]; exact hw)))
        (fun w hw => truth_eq_some.mpr (ihr (by rw [er]; exact hw))) h
      simp only [eval, evalList, operate, hv, map_some]
  | case15 => exact exactEvidence_sound hA h

end Assumed

end Interpretation

/-! ## 6. Soundness -/

/-- **SOUNDNESS OF THE PROVER**: in every interpretation of the atoms, whatever a trusted
    occurrence is worth there, the answer under assumptions that hold is the value of the
    condition, and no budget at which the search is cut short changes that. -/
theorem answers_are_values (I : Interpretation) (assumptions : Assumptions)
    (hA : I.Satisfies assumptions) (c : ExecutionCondition) (budget : Nat) (v : Bool)
    (h : (prove assumptions c budget).1 = some v) : I.eval c = some (.bool v) :=
  Interpretation.prove_sound hA h

/-- The arguments in ascending order, nothing else has a value. -/
def ascending : Interpretation :=
  standard fun
    | .input ⟨.argument ordinal, []⟩ => some (.datum (.integer ordinal, 0))
    | _ => none

theorem ascending_lessEqual {i j : Nat} (h : i < j) {operator : BoundOperator}
    (ho : operator = .less ∨ operator = .lessEqual) : ascending.eval (.operation operator
      [.input ⟨.argument i, []⟩, .input ⟨.argument j, []⟩]) = some (.bool true) := by
  have hrank : Rank.integer i < .integer j := by
    refine lt_iff_le_not_ge.mpr ⟨Rank.integer_le.mpr (by omega), ?_⟩
    rw [Rank.integer_le]
    omega
  have hlt : Lt (ascending.rank (.datum (.integer i, 0)))
      (ascending.rank (.datum (.integer j, 0))) := lt_some.mpr hrank
  have hc : operator.isComparison = true := by rcases ho with rfl | rfl <;> rfl
  refine (Interpretation.eval_comparison hc).mpr ⟨_, _, _, _, rfl, rfl, rfl, iff_of_true rfl ?_⟩
  rcases ho with rfl | rfl
  · exact hlt
  · exact hlt.le

/-- From `x < y` and `y <= z` the prover finds `x < z`, and so it is. -/
theorem answers_are_values_chain : ascending.eval (.operation .less
      [.input ⟨.argument 0, []⟩, .input ⟨.argument 2, []⟩]) = some (.bool true) := by
  refine answers_are_values ascending
    [(.operation .less [.input ⟨.argument 0, []⟩, .input ⟨.argument 1, []⟩], true),
      (.operation .lessEqual [.input ⟨.argument 1, []⟩, .input ⟨.argument 2, []⟩], true)]
    ?_ _ ExecutionCondition.workLimit true (by decide)
  intro x hx
  rcases mem_pair.mp hx with rfl | rfl
  · exact ascending_lessEqual (by decide) (.inl rfl)
  · exact ascending_lessEqual (by decide) (.inr rfl)

end Bray.Guarantee
