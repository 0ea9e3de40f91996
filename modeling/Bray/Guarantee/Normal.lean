/-
  File:      Bray/Guarantee/Normal.lean
  Subject:   NORMALISED OPERATIONS (`ExecutionCondition::operation`) and the constant folding they
    use (`fold_binary` on comparisons, `fold_numeric_sign`).

  `fold_binary` is called here with the six comparison operators only; its arithmetic is left out.
  A comparison of reals reads the bits as the IEEE format does: the magnitude with its sign, equal
  for the two zeros and absent for a NaN (`RealConstantBits.key`).
-/
import Bray.Guarantee.Condition
import Mathlib.Data.String.Basic

namespace Bray.Guarantee

/-! ## 1. Folding constants -/

/-- Binary exponent and mantissa widths `e` and `m`: the signed magnitude of the bits, nothing for
  a NaN. -/
def realKey (e m bits : Nat) : Option Int :=
  let magnitude := bits % 2 ^ (e + m)
  if (2 ^ e - 1) * 2 ^ m < magnitude then none
  else if bits / 2 ^ (e + m) = 0 then some magnitude else some (-magnitude)

/-- The format of a real, and its place among the reals of that format. -/
def RealConstantBits.key : RealConstantBits → Nat × Option Int
  | .binary16 bits => (16, realKey 5 10 bits.toNat)
  | .binary32 bits => (32, realKey 8 23 bits.toNat)
  | .binary64 bits => (64, realKey 11 52 bits.toNat)
  | .binary128 bits => (128, realKey 15 112 bits.toNat)

/-- `fold_ordered` -/
def foldOrdered {α : Type} [LinearOrder α] (operator : BoundOperator) (left right : α) :
  Option Bool :=
  match operator with
  | .equal => some (decide (left = right))
  | .notEqual => some (decide (left ≠ right))
  | .less => some (decide (left < right))
  | .lessEqual => some (decide (left ≤ right))
  | .greater => some (decide (right < left))
  | .greaterEqual => some (decide (right ≤ left))
  | _ => none

/-- A comparison of two reals of one format: all but `!=` fail on a NaN. -/
def foldRealBinary (operator : BoundOperator) (left right : RealConstantBits) : Option Bool :=
  if left.key.1 = right.key.1 then
    match left.key.2, right.key.2 with
    | some a, some b => foldOrdered operator a b
    | _, _ => match operator with
      | .equal | .less | .lessEqual | .greater | .greaterEqual => some false
      | .notEqual => some true
      | _ => none
  else none

/-- Equality of complex numbers; the imaginary parts are compared only when the real parts agree. -/
def foldComplexBinary (operator : BoundOperator)
  (leftReal leftImaginary rightReal rightImaginary : RealConstantBits) : Option Bool :=
  let equal := (foldRealBinary .equal leftReal rightReal).bind fun real =>
    if real then foldRealBinary .equal leftImaginary rightImaginary else some false
  match operator with
  | .equal => equal
  | .notEqual => equal.map not
  | _ => none

/-- `fold_binary` with a comparison operator: the Boolean it results in, if it does. -/
def foldBinary (operator : BoundOperator) : ConstantValueKind → ConstantValueKind → Option Bool
  | .integer left, .integer right => foldOrdered operator left right
  | .boolean left, .boolean right => match operator with
    | .equal => some (left == right)
    | .notEqual => some (left != right)
    | _ => none
  | .character left, .character right => foldOrdered operator left right
  | .string left, .string right => foldOrdered operator left right
  | .real left, .real right => foldRealBinary operator left right
  | .complex leftReal leftImaginary, .complex rightReal rightImaginary =>
    foldComplexBinary operator leftReal leftImaginary rightReal rightImaginary
  | left, right => match operator with
    | .equal => some (left == right)
    | .notEqual => some (left != right)
    | _ => none

def negateReal : RealConstantBits → RealConstantBits
  | .binary16 bits => .binary16 (bits ^^^ (1 <<< 15))
  | .binary32 bits => .binary32 (bits ^^^ (1 <<< 31))
  | .binary64 bits => .binary64 (bits ^^^ (1 <<< 63))
  | .binary128 bits => .binary128 (bits ^^^ (1 <<< 127))

def foldNumericSign : BoundOperator → ConstantValueKind → Option ConstantValueKind
  | .add, .integer value => some (.integer value)
  | .subtract, .integer value => some (.integer (-value))
  | .subtract, .real value => some (.real (negateReal value))
  | .add, .real value => some (.real value)
  | .subtract, .complex real imaginary => some (.complex (negateReal real) (negateReal imaginary))
  | .add, .complex real imaginary => some (.complex real imaginary)
  | _, _ => none

/-! ## 2. Operations -/

def BoundOperator.isLogical : BoundOperator → Bool
  | .logicalNot | .logicalAnd | .logicalOr => true
  | _ => false

def BoundOperator.isEquality : BoundOperator → Bool
  | .equal | .notEqual => true
  | _ => false

def BoundOperator.isComparison : BoundOperator → Bool
  | .equal | .notEqual | .less | .lessEqual | .greater | .greaterEqual => true
  | _ => false

namespace ExecutionCondition

/-- An operand that is a snapshot of a literal or a Boolean is replaced by it. -/
def scalarContents : ExecutionCondition → ExecutionCondition
  | .constructed base fields => match componentBase base fields with
    | .literal value => .literal value
    | .boolean value => .boolean value
    | _ => .constructed base fields
  | operand => operand

/-- Every component of the snapshot is the payload of a nullable. -/
def nullableFields (fields : List (StorageProjection × ExecutionCondition)) : Bool :=
  fields.all fun x => x.1 == .nullableValue

/-- `operation(LogicalNot, [condition])` -/
def negation (condition : ExecutionCondition) : ExecutionCondition :=
  match condition.scalarContents with
  | .boolean value => .boolean !value
  | .operation .logicalNot inner => inner.head?.getD .unknown
  | condition => .operation .logicalNot [condition]

/-- `operation(operator, [condition, Boolean(expected)])` -/
def truthTest (operator : BoundOperator) (condition : ExecutionCondition) (expected : Bool) :
  ExecutionCondition :=
  if expected = (operator == .equal) then condition else negation condition

/-- `operation(operator, [subject, Literal(absent)])` for an equality operator and an absent
  nullable: a borrow and a snapshot with another payload observe the nullable they are over. -/
def absentTest (operator : BoundOperator) (absent : ConstantValueData) :
  ExecutionCondition → ExecutionCondition
  | .boolean value => truthTest operator (.literal absent) value
  | .literal value => match foldBinary operator value.kind absent.kind with
    | some value => .boolean value
    | none => .operation operator [.literal value, .literal absent]
  | .present value =>
    if value.containsUnknown then .unknown else .boolean (operator == .notEqual)
  | .borrowed subject =>
    if subject.containsUnknown then .unknown else absentTest operator absent subject
  | .constructed base fields => match componentBase base fields with
    | .boolean value => truthTest operator (.literal absent) value
    | .literal value => match foldBinary operator value.kind absent.kind with
      | some value => .boolean value
      | none => .operation operator [.literal value, .literal absent]
    | _ =>
      if nullableFields fields then absentTest operator absent base
      else .operation operator [.constructed base fields, .literal absent]
  | subject =>
    if subject.containsUnknown then .unknown else .operation operator [subject, .literal absent]

/-- The nullable that an equality with an absent literal observes in place of the operand. -/
def observedNullable : ExecutionCondition → Option ExecutionCondition
  | .borrowed subject => some subject
  | .constructed base fields => if nullableFields fields then some base else none
  | _ => none

/-- The operands of an equality with an absent literal that is to observe a nullable instead. -/
def absentOperands : List ExecutionCondition → Option (ExecutionCondition × ConstantValueData)
  | [left, .literal absent] =>
    if absent.kind = .nullableAbsent then left.observedNullable.map (·, absent) else none
  | [.literal absent, right] =>
    if absent.kind = .nullableAbsent then right.observedNullable.map (·, absent) else none
  | _ => none

/-- The arms of the last match of `operation` that are about equalities. -/
def finishEquality (operator : BoundOperator) (left right : ExecutionCondition) :
  ExecutionCondition :=
  match left, right with
  | .present value, .literal absent =>
    if absent.kind = .nullableAbsent then .boolean (operator == .notEqual)
    else .operation operator [.present value, .literal absent]
  | .literal absent, .present value =>
    if absent.kind = .nullableAbsent then .boolean (operator == .notEqual)
    else .operation operator [.literal absent, .present value]
  | condition, .boolean expected => truthTest operator condition expected
  | .boolean expected, condition => truthTest operator condition expected
  | left, right => .operation operator [left, right]

/-- The last match of `operation`. -/
def finish (operator : BoundOperator) (operands : List ExecutionCondition) : ExecutionCondition :=
  match operator, operands with
  | .logicalNot, [operand] => negation operand
  | .logicalAnd, [left, right] =>
    if left = .boolean false ∨ right = .boolean false then .boolean false
    else if left = .boolean true then right
    else if right = .boolean true then left
    else .operation .logicalAnd [left, right]
  | .logicalOr, [left, right] =>
    if left = .boolean true ∨ right = .boolean true then .boolean true
    else if left = .boolean false then right
    else if right = .boolean false then left
    else .operation .logicalOr [left, right]
  | .less, [left, right] =>
    if left = right then .boolean false else .operation .less [left, right]
  | .greater, [left, right] =>
    if left = right then .boolean false else .operation .greater [left, right]
  | operator, [left, right] =>
    if operator.isEquality then finishEquality operator left right
    else .operation operator [left, right]
  | operator, operands => .operation operator operands

/-- **A built-in operation in normal form.** -/
def operationOf (operator : BoundOperator) (operands : List ExecutionCondition) :
  ExecutionCondition :=
  let operands := operands.map scalarContents
  if !operator.isLogical && containsUnknownAny operands then .unknown
  else match operands with
    | [.literal value] => match foldNumericSign operator value.kind with
      | some kind => .literal ⟨value.ty, kind⟩
      | none => finish operator [.literal value]
    | [.literal left, .literal right] =>
      if operator.isComparison then
        match foldBinary operator left.kind right.kind with
        | some value => .boolean value
        | none => finish operator [.literal left, .literal right]
      else finish operator [.literal left, .literal right]
    | operands =>
      if operator.isEquality then
        match absentOperands operands with
        | some (subject, absent) => absentTest operator absent subject
        | none => finish operator operands
      else finish operator operands

theorem isEquality_iff {operator : BoundOperator} :
    operator.isEquality = true ↔ operator = .equal ∨ operator = .notEqual := by
  cases operator <;> decide

end ExecutionCondition

end Bray.Guarantee
