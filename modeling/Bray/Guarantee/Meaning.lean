/-
  File:      Bray/Guarantee/Meaning.lean
  Subject:   WHAT A CONDITION MEANS. An interpretation gives values to the atoms and an order, with
    unordered values, to compare them by; `eval` gives a condition its value, if any.

  * `!=` is the negation of `==`; the orderings and `==` are false on unordered operands; a
    comparison of operands without values has none.
  * `&&`, `||` and `!` are Kleene's: a false operand decides a conjunction, whatever the other is.
  * Entry guards are transparent, an unknown condition has no value. What a trusted occurrence is
    worth, given what its condition is worth, is left to the interpretation.
  * An atom is whatever the prover does not look into (inputs, results, calls, predicates,
    projections, aggregates, arithmetic): any function of the term.

  The laws say what the prover relies on: the two truth values are ordered and differ; literals
  compare as constant folding compares them; a present value is not absent; a borrow and a
  snapshot with another payload are absent when the nullable they are over is.
-/
import Bray.Guarantee.Prove
import Bray.Lib.Unordered

namespace Bray.Guarantee

open Bray.Lib
open ExecutionCondition (componentBase nullableFields conjunction disjunction)

/-- A truth value or some other value. -/
inductive Value (δ : Type) where
  | bool (value : Bool)
  | datum (value : δ)

/-- The comparison holds between two places, either of which may be missing. -/
def Holds {κ : Type} [PartialOrder κ] (operator : BoundOperator) (a b : Option κ) : Prop :=
  match operator with
  | .equal => Unordered.Same a b
  | .notEqual => ¬ Unordered.Same a b
  | .less => Unordered.Lt a b
  | .lessEqual => Unordered.Le a b
  | .greater => Unordered.Lt b a
  | .greaterEqual => Unordered.Le b a
  | _ => False

structure Interpretation where
  Datum : Type
  Key : Type
  order : PartialOrder Key
  /-- The place of a value in the order, none for an unordered one. -/
  rank : Value Datum → Option Key
  literal : ConstantValueData → Value Datum
  variantOf : Value Datum → Option Payload
  present : Value Datum → Value Datum
  borrowed : Value Datum → Value Datum
  /-- A nullable snapshot whose payload was updated. -/
  updated : ExecutionCondition → Value Datum → Value Datum
  trusted : ExecutionCondition → Option (Value Datum) → Option (Value Datum)
  atom : ExecutionCondition → Option (Value Datum)
  bool_rank : ∀ b, (rank (.bool b)).isSome = true
  bool_ne : rank (.bool false) ≠ rank (.bool true)
  literal_fold : ∀ operator (left right : ConstantValueData) value,
    foldBinary operator left.kind right.kind = some value →
      (value = true ↔ Holds operator (rank (literal left)) (rank (literal right)))
  present_absent : ∀ v (absent : ConstantValueData), absent.kind = .nullableAbsent →
    ¬ Holds .equal (rank (present v)) (rank (literal absent))
  borrowed_absent : ∀ v (absent : ConstantValueData), absent.kind = .nullableAbsent →
    (Holds .equal (rank (borrowed v)) (rank (literal absent)) ↔ Holds .equal (rank v) (rank (literal absent)))
  updated_absent : ∀ c v (absent : ConstantValueData), absent.kind = .nullableAbsent →
    (Holds .equal (rank (updated c v)) (rank (literal absent)) ↔ Holds .equal (rank v) (rank (literal absent)))

attribute [instance] Interpretation.order

namespace Interpretation

variable (I : Interpretation)

/-- The truth value, if it is one. -/
def truth : Option (Value I.Datum) → Option Bool
  | some (.bool value) => some value
  | _ => none

/-- The comparison of two values. -/
def Compares (operator : BoundOperator) (a b : Value I.Datum) : Prop :=
  Holds operator (I.rank a) (I.rank b)

open Classical in
/-- The value of an operation with operand values `values`, `self` being the whole term. -/
noncomputable def operate (self : ExecutionCondition) (operator : BoundOperator)
  (values : List (Option (Value I.Datum))) : Option (Value I.Datum) :=
  match operator, values with
  | .logicalNot, value :: _ => (I.truth value).map fun b => .bool !b
  | .logicalNot, [] => none
  | .logicalAnd, [left, right] => (conjunction (I.truth left) (I.truth right)).map .bool
  | .logicalAnd, _ => none
  | .logicalOr, [left, right] => (disjunction (I.truth left) (I.truth right)).map .bool
  | .logicalOr, _ => none
  | operator, values =>
    if operator.isComparison then
      match values with
      | [some left, some right] => some (.bool (decide (I.Compares operator left right)))
      | _ => none
    else I.atom self

mutual
/-- **The value of a condition**, none when it has no meaning. -/
noncomputable def eval : ExecutionCondition → Option (Value I.Datum)
  | .boolean value => some (.bool value)
  | .literal value => some (I.literal value)
  | .variantTest tested subject =>
    (eval subject).bind fun v => (I.variantOf v).map fun active => .bool (active == tested)
  | .present value => (eval value).map I.present
  | .borrowed value => (eval value).map I.borrowed
  | .entry condition _ => eval condition
  | .trusted condition => I.trusted condition (eval condition)
  | .unknown => none
  | .constructed base fields => match componentBase base fields with
    | .literal value => some (I.literal value)
    | .boolean value => some (.bool value)
    | _ =>
      if nullableFields fields then (eval base).map (I.updated (.constructed base fields))
      else I.atom (.constructed base fields)
  | .operation operator operands =>
    I.operate (.operation operator operands) operator (evalList operands)
  | condition => I.atom condition
termination_by structural c => c
noncomputable def evalList : List ExecutionCondition → List (Option (Value I.Datum))
  | [] => []
  | x :: xs => eval x :: evalList xs
termination_by structural c => c
end

def Satisfies (assumptions : Assumptions) : Prop :=
  ∀ x ∈ assumptions, I.eval x.1 = some (.bool x.2)

/-- A trusted occurrence is worth what its condition is worth. -/
def Transparent : Prop := ∀ condition value, I.trusted condition value = value

end Interpretation

end Bray.Guarantee
