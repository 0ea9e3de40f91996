/-
  File:      Bray/Constant/Fold.lean
  Subject:   FOLDING MACHINE INTEGERS (constant/operation.rs, constant/machine.rs): an operation on exact
    integers of any size, then the representative of the width.

  Big integers are `Int`: division truncates, bitwise operators act on the infinite two's complement, a
  right shift rounds down, and a modular power lies in `[0, modulus)`. An assertion or an `expect` that
  fails is a panic. The other kinds of constant values (reals, characters, strings, aggregates) have arms
  of their own in the source and none here.
-/
import Bray.Constant.Integer
import Mathlib.Data.Int.Bitwise

namespace Bray.Constant

inductive BoundOperator where
  | logicalOr
  | logicalAnd
  | equal
  | notEqual
  | less
  | lessEqual
  | greater
  | greaterEqual
  | bitwiseOr
  | bitwiseXor
  | bitwiseAnd
  | shiftLeft
  | shiftRight
  | add
  | subtract
  | multiply
  | divide
  | remainder
  | matrixMultiply
  | exponentiate
  | bitwiseNot
  | logicalNot
  deriving DecidableEq

/-- The roles of the machine integer types, and the others. -/
inductive RepresentationRole where
  | scalarI8
  | scalarI16
  | scalarI32
  | scalarI64
  | scalarI128
  | scalarU8
  | scalarU16
  | scalarU32
  | scalarU64
  | scalarU128
  | scalarIsize
  | scalarUsize
  | other (role : Nat)

def RepresentationRole.integerRepresentation : RepresentationRole → Option IntegerRepresentation
  | .scalarI8 => some (.signed 8)
  | .scalarI16 => some (.signed 16)
  | .scalarI32 => some (.signed 32)
  | .scalarI64 => some (.signed 64)
  | .scalarI128 => some (.signed 128)
  | .scalarU8 => some (.unsigned 8)
  | .scalarU16 => some (.unsigned 16)
  | .scalarU32 => some (.unsigned 32)
  | .scalarU64 => some (.unsigned 64)
  | .scalarU128 => some (.unsigned 128)
  | .scalarIsize => some .targetSigned
  | .scalarUsize => some .targetUnsigned
  | .other _ => none

inductive ConstantValueKind where
  | integer (value : IntegerConstant)
  | boolean (value : Bool)
  deriving DecidableEq

inductive ConstantOperationError where
  | invalid
  | divisionByZero
  | notRepresentable
  | resourceLimitExceeded (actual maximum : Nat)

/-- A failed assertion or `expect`. -/
inductive Panic where
  | assertion
  | notAnInteger
  | widthUnderflow
  | failed (error : ConstantOperationError)

def u32Max : Nat := 2 ^ 32 - 1
def u64Max : Nat := 2 ^ 64 - 1
def usizeMax : Nat := 2 ^ 64 - 1

/-! ## 1. Big integers -/

/-- The significant bits of the magnitude of a big integer. -/
def bits (value : Int) : Nat := value.natAbs.size

/-- `base ^ exponent` modulo a positive modulus, in `[0, modulus)`. -/
def modpow (base : Int) (exponent : Nat) (modulus : Int) : Int := base ^ exponent % modulus

/-- The conversion of a nonnegative big integer to a width, cut off where it does not fit. -/
def saturate (value : Int) (maximum : Nat) : Nat :=
  if 0 ≤ value ∧ value ≤ maximum then value.toNat else maximum

def integer (value : Int) : ConstantValueKind := .integer (fromBigInteger value)

/-! ## 2. Exact operations -/

def shiftCount (value : Int) (maximum : Nat) : Except ConstantOperationError Nat :=
  if 0 ≤ value ∧ value ≤ usizeMax then .ok value.toNat
  else .error (.resourceLimitExceeded (saturate value u64Max) maximum)

def shiftLeft (value count : Int) (maximumIntegerBits : Nat) :
  Except ConstantOperationError ConstantValueKind :=
  if count < 0 then .error .invalid
  else if value = 0 then .ok (integer value)
  else
    let availableBits := maximumIntegerBits - bits value
    if maximumIntegerBits < bits value ∨ (availableBits : Int) < count then
      .error (.resourceLimitExceeded (min (bits value + saturate count u64Max) u64Max) maximumIntegerBits)
    else do
      let count ← shiftCount count maximumIntegerBits
      .ok (integer (value * 2 ^ count))

def shiftRight (value count : Int) : Except ConstantOperationError ConstantValueKind :=
  if count < 0 then .error .invalid
  else if (bits value : Int) ≤ count then .ok (integer (if value < 0 then -1 else 0))
  else do
    let count ← shiftCount count u64Max
    .ok (integer (value / 2 ^ count))

def exponentiate (value exponent : Int) (maximumIntegerBits : Nat) :
  Except ConstantOperationError ConstantValueKind :=
  if exponent < 0 then .error .invalid
  else if value = 0 then .ok (integer (if exponent = 0 then 1 else value))
  else if value = 1 then .ok (integer value)
  else if value = -1 then .ok (integer (if exponent.tmod 2 = 0 then 1 else value))
  else
    let minimumResultBits : Int := ((bits value - 1 : Nat) : Int) * exponent + 1
    if (maximumIntegerBits : Int) < minimumResultBits then
      .error (.resourceLimitExceeded (saturate minimumResultBits u64Max) maximumIntegerBits)
    else if exponent ≤ u32Max then .ok (integer (value ^ exponent.toNat))
    else .error (.resourceLimitExceeded u64Max maximumIntegerBits)

/-- The operation itself, before the limit on the size of its result. -/
def foldIntegerOperation (operator : BoundOperator) (left right : Int) (maximumIntegerBits : Nat) :
  Except ConstantOperationError ConstantValueKind :=
  match operator with
  | .add => .ok (integer (left + right))
  | .subtract => .ok (integer (left - right))
  | .multiply => .ok (integer (left * right))
  | .divide => if right = 0 then .error .divisionByZero else .ok (integer (left.tdiv right))
  | .remainder => if right = 0 then .error .divisionByZero else .ok (integer (left.tmod right))
  | .bitwiseAnd => .ok (integer (left.land right))
  | .bitwiseOr => .ok (integer (left.lor right))
  | .bitwiseXor => .ok (integer (left.xor right))
  | .shiftLeft => shiftLeft left right maximumIntegerBits
  | .shiftRight => shiftRight left right
  | .equal => .ok (.boolean (left = right))
  | .notEqual => .ok (.boolean (left ≠ right))
  | .less => .ok (.boolean (left < right))
  | .lessEqual => .ok (.boolean (left ≤ right))
  | .greater => .ok (.boolean (left > right))
  | .greaterEqual => .ok (.boolean (left ≥ right))
  | .exponentiate => exponentiate left right maximumIntegerBits
  | .logicalOr | .logicalAnd | .matrixMultiply | .bitwiseNot | .logicalNot => .error .invalid

def checkResultBits (result : ConstantValueKind) (maximumIntegerBits : Nat) :
  Except ConstantOperationError ConstantValueKind :=
  match result with
  | .integer value =>
    if maximumIntegerBits < value.magnitudeBits then
      .error (.resourceLimitExceeded value.magnitudeBits maximumIntegerBits)
    else .ok result
  | .boolean _ => .ok result

def foldIntegerBinary (operator : BoundOperator) (left right : IntegerConstant) (maximumIntegerBits : Nat) :
  Except ConstantOperationError ConstantValueKind := do
  let result ← foldIntegerOperation operator (toBigInteger left) (toBigInteger right) maximumIntegerBits
  checkResultBits result maximumIntegerBits

def foldBooleanBinary (operator : BoundOperator) (left right : Bool) :
  Except ConstantOperationError ConstantValueKind :=
  match operator with
  | .logicalAnd => .ok (.boolean (left && right))
  | .logicalOr => .ok (.boolean (left || right))
  | .equal => .ok (.boolean (left == right))
  | .notEqual => .ok (.boolean (left != right))
  | _ => .error .invalid

def foldBinary (operator : BoundOperator) (left right : ConstantValueKind) (maximumIntegerBits : Nat) :
  Except ConstantOperationError ConstantValueKind :=
  match left, right with
  | .integer left, .integer right => foldIntegerBinary operator left right maximumIntegerBits
  | .boolean left, .boolean right => foldBooleanBinary operator left right
  | left, right =>
    match operator with
    | .equal => .ok (.boolean (left = right))
    | .notEqual => .ok (.boolean (left ≠ right))
    | _ => .error .invalid

def foldNumericSign (operator : BoundOperator) (operand : ConstantValueKind) : Option ConstantValueKind :=
  match operator, operand with
  | .add, .integer value => some (.integer value)
  | .subtract, .integer value => some (.integer value.negated)
  | _, _ => none

def unsignedNot (value : Int) (width : UInt16) : Int := value.lnot.land (2 ^ width.toNat - 1)

def bitwiseNot (value : IntegerConstant) (representation : IntegerRepresentation)
  (targetWidth : NonZeroU16) : Int :=
  match representation with
  | .unsigned width => unsignedNot (toBigInteger value) width
  | .targetUnsigned => unsignedNot (toBigInteger value) targetWidth.val
  | .signed _ | .targetSigned => (toBigInteger value).lnot

def foldUnary (operator : BoundOperator) (operand : ConstantValueKind)
  (representation : Option RepresentationRole) (targetWidth : NonZeroU16) :
  Except ConstantOperationError ConstantValueKind :=
  match foldNumericSign operator operand with
  | some value => .ok value
  | none =>
    match operator, operand with
    | .logicalNot, .boolean value => .ok (.boolean !value)
    | .bitwiseNot, .integer value =>
      match representation.bind RepresentationRole.integerRepresentation with
      | none => .error .invalid
      | some integerRepresentation => .ok (integer (bitwiseNot value integerRepresentation targetWidth))
    | _, _ => .error .invalid

/-! ## 3. Machine integers -/

/-- The representative of an integer in a width: the remainder that is not negative, less the modulus where
it stands for a negative number. -/
def reduce (value : Int) (representation : IntegerRepresentation) (width : Nat) : Int :=
  let modulus : Int := 2 ^ width
  let remainder := value.tmod modulus
  let reduced := if remainder < 0 then remainder + modulus else remainder
  if representation.isSigned ∧ modulus / 2 ≤ reduced then reduced - modulus else reduced

def normalizeInteger (value : ConstantValueKind) (representation : IntegerRepresentation)
  (targetWidth : NonZeroU16) : ConstantValueKind :=
  match value with
  | .integer value =>
    integer (reduce (toBigInteger value) representation (representation.width targetWidth).toNat)
  | .boolean value => .boolean value

def foldMachineIntegerUnary (operator : BoundOperator) (operand : IntegerConstant)
  (role : RepresentationRole) (targetWidth : NonZeroU16) : Except Panic ConstantValueKind :=
  match role.integerRepresentation with
  | none => .error .notAnInteger
  | some representation =>
    if ¬ fitsIntegerRepresentation operand representation targetWidth then .error .assertion
    else if operator ≠ .subtract ∧ operator ≠ .bitwiseNot then .error .assertion
    else
      match foldUnary operator (.integer operand) (some role) targetWidth with
      | .error error => .error (.failed error)
      | .ok value => .ok (normalizeInteger value representation targetWidth)

/-- The operators whose right operand is of the machine type as well. -/
def BoundOperator.typesRight : BoundOperator → Bool
  | .shiftLeft | .shiftRight | .exponentiate => false
  | _ => true

/-- The division of the minimum by -1. `width - 1` underflows at width zero. -/
def minimumByMinusOne (operator : BoundOperator) (left right : IntegerConstant)
  (representation : IntegerRepresentation) (width : UInt16) : Except Panic Bool :=
  if (operator = .divide ∨ operator = .remainder) ∧ representation.isSigned then
    if width = 0 then .error .widthUnderflow
    else .ok (toBigInteger left = -(2 ^ (width.toNat - 1) : Int) && toBigInteger right = -1)
  else .ok false

/-- A shift whose count the machine does not define. -/
def shiftOutOfRange (operator : BoundOperator) (right : IntegerConstant) (width : UInt16) : Bool :=
  (operator = .shiftLeft || operator = .shiftRight) &&
    (toBigInteger right < 0 || (width.toNat : Int) ≤ toBigInteger right)

/-- What follows the checks: a modular power, or the exact operation and its representative. -/
def foldMachineOperation (operator : BoundOperator) (left right : IntegerConstant)
  (representation : IntegerRepresentation) (targetWidth : NonZeroU16) (width : UInt16) :
  Except Panic (Option ConstantValueKind) :=
  if operator = .exponentiate then
    let exponent := toBigInteger right
    if exponent < 0 then .ok none
    else
      let value := modpow (toBigInteger left) exponent.toNat (2 ^ width.toNat)
      .ok (some (normalizeInteger (integer value) representation targetWidth))
  else
    match foldBinary operator (.integer left) (.integer right) (width.toNat * 2 + 1) with
    | .ok result => .ok (some (normalizeInteger result representation targetWidth))
    | .error .divisionByZero => .ok none
    | .error (.resourceLimitExceeded _ _) => .ok none
    | .error error => .error (.failed error)

def foldMachineIntegerBinary (operator : BoundOperator) (left right : IntegerConstant)
  (representation : IntegerRepresentation) (targetWidth : NonZeroU16) :
  Except Panic (Option ConstantValueKind) :=
  if ¬ fitsIntegerRepresentation left representation targetWidth then .error .assertion
  else if operator.typesRight ∧ ¬ fitsIntegerRepresentation right representation targetWidth then
    .error .assertion
  else do
    let width := representation.width targetWidth
    if (← minimumByMinusOne operator left right representation width) then .ok none
    else if shiftOutOfRange operator right width then .ok none
    else foldMachineOperation operator left right representation targetWidth width

def foldMachineIntegerTruncate (operand : IntegerConstant) (source target : IntegerRepresentation)
  (targetWidth : NonZeroU16) : Except Panic ConstantValueKind :=
  if ¬ fitsIntegerRepresentation operand source targetWidth then .error .assertion
  else .ok (normalizeInteger (.integer operand) target targetWidth)

end Bray.Constant
