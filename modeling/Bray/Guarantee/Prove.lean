/-
  File:      Bray/Guarantee/Prove.lean
  Subject:   THE PROVER OF EXECUTION CONDITIONS (`condition/proof.rs`, `implication.rs`).

  A set of assumptions is a list of conditions, each with the value it is assumed to have; the
  source keeps it sorted, and nothing here depends on the order. The work budget that the source
  decrements in place is passed in and handed back with every result.
-/
import Bray.Guarantee.Normal

namespace Bray.Guarantee

abbrev Assumptions := List (ExecutionCondition × Bool)

namespace ExecutionCondition

/-! ## 1. Orderings among the assumptions -/

/-- A comparison with this value excludes a NaN among its operands. -/
def excludesUnordered : BoundOperator → Bool → Bool
  | .equal, holds | .less, holds | .lessEqual, holds | .greater, holds | .greaterEqual, holds =>
    holds
  | .notEqual, holds => !holds
  | _, _ => false

/-- Some assumption holds of `value` only if it is ordered. -/
def positivelyOrdered (value : ExecutionCondition) : Assumptions → Nat → Bool × Nat
  | [], budget => (false, budget)
  | _ :: _, 0 => (false, 0)
  | (condition, holds) :: assumptions, budget + 1 =>
    match condition with
    | .operation operator operands =>
      if excludesUnordered operator holds && decide (value ∈ operands) then (true, budget)
      else positivelyOrdered value assumptions budget
    | _ => positivelyOrdered value assumptions budget

/-- The edge a held comparison adds to the graph of orderings: its lower end, its upper end, and
  whether it is strict. An equality is read from the end that is `current`. -/
def orderingEdge (operator : BoundOperator) (left right current : ExecutionCondition) :
  Option (ExecutionCondition × ExecutionCondition × Bool) :=
  match operator with
  | .less => some (left, right, true)
  | .lessEqual => some (left, right, false)
  | .greater => some (right, left, true)
  | .greaterEqual => some (right, left, false)
  | .equal => if right = current then some (right, left, false) else some (left, right, false)
  | _ => none

/-- The two ends are integer literals and their values are in order. -/
def literalsOrdered (strict : Bool) : ExecutionCondition → ExecutionCondition → Bool
  | .literal current, .literal upper => match current.kind, upper.kind with
    | .integer _, .integer _ =>
      foldBinary (if strict then .less else .lessEqual) current.kind upper.kind == some true
    | _, _ => false
  | _, _ => false

section Path

variable (upper : ExecutionCondition) (requiresStrict : Bool)

/-- The `for` loop of `ordered_path`: a result when it returns, otherwise what is pending. -/
def followEdges (current : ExecutionCondition) (strict : Bool) :
  Assumptions → List (ExecutionCondition × Bool) → Nat → Option Bool × List (ExecutionCondition × Bool) × Nat
  | [], pending, budget => (none, pending, budget)
  | _ :: _, pending, 0 => (some false, pending, 0)
  | (.operation operator [left, right], true) :: assumptions, pending, budget + 1 =>
    match orderingEdge operator left right current with
    | some (start, stop, edgeStrict) =>
      if start = current then
        if stop = upper ∧ ((strict || edgeStrict) || !requiresStrict) = true then
          (some true, pending, budget)
        else
          followEdges current strict assumptions ((stop, strict || edgeStrict) :: pending) budget
      else followEdges current strict assumptions pending budget
    | none => followEdges current strict assumptions pending budget
  | _ :: assumptions, pending, budget + 1 =>
    followEdges current strict assumptions pending budget

/-- The `while` loop of `ordered_path`. -/
def orderedPathLoop (assumptions : Assumptions) :
  Nat → List (ExecutionCondition × Bool) → List (ExecutionCondition × Bool) → Nat → Bool × Nat
  | 0, _, _, budget => (false, budget)
  | _ + 1, [], _, budget => (false, budget)
  | fuel + 1, (current, strict) :: pending, visited, budget =>
    if literalsOrdered (requiresStrict && !strict) current upper then (true, budget)
    else if (current, strict) ∈ visited then
      orderedPathLoop assumptions fuel pending visited budget
    else match followEdges upper requiresStrict current strict assumptions pending budget with
      | (some found, _, budget) => (found, budget)
      | (none, pending, budget) =>
        orderedPathLoop assumptions fuel pending ((current, strict) :: visited) budget

/-- Held comparisons lead from `lower` to `upper`. Every node that becomes pending costs a unit of
  the budget, so the loop ends before its fuel does (`orderedPathLoop_fuel`). -/
def orderedPath (lower : ExecutionCondition) (assumptions : Assumptions) (budget : Nat) :
  Bool × Nat :=
  if assumptions.length < 2 then (false, budget)
  else orderedPathLoop upper requiresStrict assumptions (budget + 2) [(lower, false)] [] budget

end Path

/-! ## 2. Comparisons -/

/-- `known(operator, left, right)` -/
def known (assumptions : Assumptions) (operator : BoundOperator)
  (left right : ExecutionCondition) : Bool :=
  decide ((operationOf operator [left, right], true) ∈ assumptions)

/-- `unequal` -/
def knownUnequal (assumptions : Assumptions) (left right : ExecutionCondition) : Bool :=
  known assumptions .notEqual left right || known assumptions .notEqual right left ||
    decide ((operationOf .equal [left, right], false) ∈ assumptions) ||
    decide ((operationOf .equal [right, left], false) ∈ assumptions)

/-- What is known of a term compared with itself when it is ordered. -/
def reflexiveValue : BoundOperator → Option Bool
  | .equal | .lessEqual | .greaterEqual => some true
  | .notEqual | .less | .greater => some false
  | _ => none

/-- The result of an equality or an inequality: only a strict ordering decides it. -/
def equalityIsImplied (operator : BoundOperator) (left right : ExecutionCondition)
  (assumptions : Assumptions) (budget : Nat) : Option Bool × Nat :=
  if known assumptions .less left right || known assumptions .less right left ||
    known assumptions .greater left right || known assumptions .greater right left then
    (some (operator == .notEqual), budget)
  else
    let (forward, budget) := orderedPath right true left assumptions budget
    if forward then (some (operator == .notEqual), budget)
    else
      let (backward, budget) := orderedPath left true right assumptions budget
      (if backward then some (operator == .notEqual) else none, budget)

/-- The strict operator of a direction and the weak one. -/
def weakened : BoundOperator → BoundOperator
  | .less => .lessEqual
  | _ => .greaterEqual

/-- An ordering comparison, given by its strict operator, the strict operator of the other
  direction, and whether it holds of equal operands. -/
def orderingIsImplied (strict reversed : BoundOperator) (allowsEqual : Bool)
  (left right : ExecutionCondition) (assumptions : Assumptions) (budget : Nat) :
  Option Bool × Nat :=
  let known := known assumptions
  let unequal := knownUnequal assumptions left right
  if known strict left right || known reversed right left ||
    unequal && (known (weakened strict) left right || known (weakened reversed) right left) ||
    allowsEqual && (known .equal left right || known .equal right left) then
    (some true, budget)
  -- only positive ordering evidence is used, a false comparison can include NaN
  else if known reversed left right || known strict right left then (some false, budget)
  else if !allowsEqual && (known (weakened reversed) left right ||
    known (weakened strict) right left || known .equal left right || known .equal right left) then
    (some false, budget)
  else
    let (lower, upper) := if strict = .less then (left, right) else (right, left)
    let (upward, budget) := orderedPath upper (!allowsEqual && !unequal) lower assumptions budget
    if upward then (some true, budget)
    else
      let (downward, budget) := orderedPath lower allowsEqual upper assumptions budget
      (if downward then some false else none, budget)

/-- A comparison of two terms, by the known orderings between them. -/
def comparisonBetween (operator : BoundOperator) (left right : ExecutionCondition)
  (assumptions : Assumptions) (budget : Nat) : Option Bool × Nat :=
  match operator with
  | .equal | .notEqual => equalityIsImplied operator left right assumptions budget
  | .less => orderingIsImplied .less .greater false left right assumptions budget
  | .lessEqual => orderingIsImplied .less .greater true left right assumptions budget
  | .greater => orderingIsImplied .greater .less false left right assumptions budget
  | .greaterEqual => orderingIsImplied .greater .less true left right assumptions budget
  | _ => (none, budget)

def comparisonIsImplied (operator : BoundOperator) (operands : List ExecutionCondition)
  (assumptions : Assumptions) (budget : Nat) : Option Bool × Nat :=
  match operands with
  | [left, right] =>
    let (ordered, budget) :=
      if left = right then positivelyOrdered left assumptions budget else (false, budget)
    if ordered then (reflexiveValue operator, budget)
    else comparisonBetween operator left right assumptions budget
  | _ => (none, budget)

/-! ## 3. The prover -/

def exactEvidence (assumptions : Assumptions) (condition : ExecutionCondition) : Option Bool :=
  if (condition, true) ∈ assumptions ∧ condition.containsUnknown = false then some true
  else if (condition, false) ∈ assumptions ∧ condition.containsUnknown = false then some false
  else none

/-- The opposite of an equality is assumed. -/
def inverseEvidence (assumptions : Assumptions) (operator : BoundOperator)
  (operands : List ExecutionCondition) : Option Bool :=
  let search (inverse : BoundOperator) : Option Bool :=
    if (.operation inverse operands, true) ∈ assumptions then some false
    else if (.operation inverse operands, false) ∈ assumptions then some true
    else none
  match operator with
  | .equal => search .notEqual
  | .notEqual => search .equal
  | _ => none

/-- Another variant of the same subject is assumed to be the active one. -/
def otherVariantActive (assumptions : Assumptions) (tested : Payload)
  (subject : ExecutionCondition) : Bool :=
  assumptions.any fun
    | (.variantTest active other, value) => value && active != tested && other == subject
    | _ => false

/-- `&&` of two answers. -/
def conjunction : Option Bool → Option Bool → Option Bool
  | some false, _ | _, some false => some false
  | some true, some true => some true
  | _, _ => none

/-- `||` of two answers. -/
def disjunction : Option Bool → Option Bool → Option Bool
  | some true, _ | _, some true => some true
  | some false, some false => some false
  | _, _ => none

/-- **The prover**: the value of the condition under the assumptions, when it finds one within the
  budget, and what is left of the budget. -/
def prove (assumptions : Assumptions) : ExecutionCondition → Nat → Option Bool × Nat
  | _, 0 => (none, 0)
  | .entry condition _, budget + 1 => prove assumptions condition budget
  | .boolean value, budget + 1 => (some value, budget)
  | .variantTest tested subject, budget + 1 =>
    if subject.isUnknown then (none, budget)
    else match exactEvidence assumptions (.variantTest tested subject) with
      | some value => (some value, budget)
      | none =>
        (if otherVariantActive assumptions tested subject then some false else none, budget)
  | .operation operator operands, budget + 1 =>
    match exactEvidence assumptions (.operation operator operands) with
    | some value => (some value, budget)
    | none => match comparisonIsImplied operator operands assumptions budget with
      | (some value, budget) => (some value, budget)
      | (none, budget) => match inverseEvidence assumptions operator operands with
        | some value => (some value, budget)
        | none => match operator, operands with
          | .logicalNot, [operand] =>
            let (value, budget) := prove assumptions operand budget
            (value.map not, budget)
          | .logicalAnd, [left, right] =>
            let (leftValue, budget) := prove assumptions left budget
            let (rightValue, budget) := prove assumptions right budget
            (conjunction leftValue rightValue, budget)
          | .logicalOr, [left, right] =>
            let (leftValue, budget) := prove assumptions left budget
            let (rightValue, budget) := prove assumptions right budget
            (disjunction leftValue rightValue, budget)
          | _, _ => (none, budget)
  | condition, budget + 1 =>
    if condition.isUnknown then (none, budget) else (exactEvidence assumptions condition, budget)

end ExecutionCondition

end Bray.Guarantee
