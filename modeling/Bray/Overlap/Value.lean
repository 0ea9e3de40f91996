/-
  File:      Bray/Overlap/Value.lean
  Subject:   SEMANTIC VALUES (bray-symbols/value): types, constant terms, substitutions and trait
    applications, as trees.

  The store interns every value: two values have one identity exactly when they are equal, and a value
  is made of values interned before it. So an identity is modelled by the tree it stands for. What a
  value holds besides other values is its `Label`; the values it holds are its arguments, in the order
  the source reads them (the comments say which). Identities of symbols are numbers.
-/
import Bray.Lib.Term

namespace Bray.Overlap

open Bray.Lib

/-- The identity of a symbol, or of data that is only compared. -/
abbrev Payload := Nat

/-- `GenericParameterSymbolId` -/
inductive Parameter where
  | type (symbol : Payload)
  | const (symbol : Payload)
  deriving DecidableEq

inductive BorrowKind where
  | shared | mutable
  deriving DecidableEq

inductive CallableAbi where
  | bray | c | system
  deriving DecidableEq

inductive CallableConstness where
  | runtime | constant
  deriving DecidableEq

inductive CallableExecution where
  | synchronous | asynchronous
  deriving DecidableEq

inductive CallableTrust where
  | safe | trusted
  deriving DecidableEq

inductive CallablePosition where
  | namedOnly | positionalOrNamed
  deriving DecidableEq

inductive CallableParameterMode where
  | immutable | mutable
  deriving DecidableEq

inductive SelfTypeContext where
  | namedType (symbol : Payload)
  | trait (symbol : Payload)
  | implementation (symbol : Payload)
  deriving DecidableEq

inductive TargetSizedIntegerType where
  | isize | usize
  deriving DecidableEq

inductive ConstantUnaryOperation where
  | identity | negate | logicalNot | bitwiseNot | predicateTrust | borrowObservation | entryCondition
  deriving DecidableEq

inductive ConstantBinaryOperation where
  | add | subtract | multiply | divide | remainder | exponentiate | logicalAnd | logicalOr | bitwiseAnd
  | bitwiseOr | bitwiseXor | shiftLeft | shiftRight | equal | notEqual | less | lessOrEqual | greater
  | greaterOrEqual
  deriving DecidableEq

/-- `ConstantProjectionKind` without its terms. -/
inductive ConstantProjectionKind where
  | tupleElement (ordinal : Nat)
  | arrayElement
  | arrayElementOrdinal (ordinal : Nat)
  | arraySlice (lower upper : Bool)
  | productField (field : Payload)
  | unionPayloadField (field : Payload)
  | nullableValue
  deriving DecidableEq

/-- `CallableParameterData` without its type. -/
structure CallableParameterData where
  name : String
  position : CallablePosition
  mode : CallableParameterMode
  deriving DecidableEq

/-- `CallableTypeData` without its types and contracts. -/
structure CallableTypeData where
  parameters : List CallableParameterData
  variadic : Bool
  constness : CallableConstness
  trust : CallableTrust
  abi : CallableAbi
  execution : CallableExecution
  deriving DecidableEq

/-- Values that hold no other value. -/
inductive Atom where
  /- types -/
  | error
  | exactInteger (bits : Nat) (signed : Bool)
  | contextualSelf (context : SelfTypeContext)
  /- constant terms -/
  | integerLiteral (ty : TargetSizedIntegerType) (value : Int)
  | callableArgument (ordinal : Nat)
  | targetProperty (constant : Payload)
  deriving DecidableEq

inductive Label where
  /- types -/
  /-- substitution -/
  | named (definition : Payload)
  /-- subject, application -/
  | typeValuedMemberProjection (member : Payload)
  | tuple
  /-- element, length -/
  | array
  | flexibleArray
  | slice
  | generator
  | nullable
  | borrow (kind : BorrowKind)
  /-- application -/
  | traitView
  /-- storage, target -/
  | ownedIndirection
  /-- the parameters' types, the result, the dependency contracts, the other phase behaviors -/
  | callable (data : CallableTypeData)
  /- constant terms -/
  /-- term, type -/
  | typed
  /-- the type of a closed value, and the types inside it -/
  | value (kind : Payload)
  | unary (operation : ConstantUnaryOperation)
  | binary (operation : ConstantBinaryOperation)
  /-- operand, target type -/
  | conversion
  | variantTest (variant : Payload)
  | nullablePresent
  | constantTuple
  | constantArray
  /-- value, count -/
  | repeatedArray
  | product (fields : List Payload)
  | union (variant : Payload) (fields : List Payload)
  /-- subject and application of the requirement -/
  | traitConstant (member : Payload)
  /-- substitution, and the selected implementation if there is one -/
  | definitionApplication (definition : Payload)
  /-- callable, implementation witnesses, the selected implementation if there is one, arguments -/
  | call (witnesses : Nat) (selected : Bool)
  /-- substitution, arguments -/
  | predicateCall (predicate : Payload)
  /-- subject, the terms of the kind -/
  | projection (kind : ConstantProjectionKind)
  /- what types and terms refer to -/
  /-- arguments -/
  | substitution (owner : Payload) (parameters : List Parameter)
  /-- substitution -/
  | application (definition : Payload)
  /-- substitution of a callable or of an implementation -/
  | instantiated (definition : Payload)
  /-- the types and terms in the invocation's and the deferred execution's contract -/
  | contracts (shape : Payload)
  /-- the types and terms in the other phase behaviors -/
  | phaseBehaviors (shape : Payload)
  deriving DecidableEq

abbrev Value := Term Atom Label Parameter

/-- What a value is. -/
inductive Kind where
  | type | constant | substitution | application | other
  deriving DecidableEq

def Parameter.kind : Parameter → Kind
  | .type _ => .type
  | .const _ => .constant

def Atom.kind : Atom → Kind
  | .error | .exactInteger _ _ | .contextualSelf _ => .type
  | .integerLiteral _ _ | .callableArgument _ | .targetProperty _ => .constant

def Label.kind : Label → Kind
  | .named _ | .typeValuedMemberProjection _ | .tuple | .array | .flexibleArray | .slice | .generator
  | .nullable | .borrow _ | .traitView | .ownedIndirection | .callable _ => .type
  | .typed | .value _ | .unary _ | .binary _ | .conversion | .variantTest _ | .nullablePresent
  | .constantTuple | .constantArray | .repeatedArray | .product _ | .union _ _ | .traitConstant _
  | .definitionApplication _ | .call _ _ | .predicateCall _ | .projection _ => .constant
  | .substitution _ _ => .substitution
  | .application _ => .application
  | .instantiated _ | .contracts _ | .phaseBehaviors _ => .other

def Value.kind : Value → Kind
  | .param p => p.kind
  | .atom a => a.kind
  | .node l _ => l.kind

theorem kind_substitution {v : Value} (h : Value.kind v = .substitution) :
    ∃ owner parameters args, v = .node (.substitution owner parameters) args := by
  cases v with
  | param p => cases p <;> cases h
  | atom a => cases a <;> cases h
  | node l args =>
    cases l with
    | substitution owner parameters => exact ⟨owner, parameters, args, rfl⟩
    | _ => cases h

theorem kind_application {v : Value} (h : Value.kind v = .application) :
    ∃ definition args, v = .node (.application definition) args := by
  cases v with
  | param p => cases p <;> cases h
  | atom a => cases a <;> cases h
  | node l args =>
    cases l with
    | application definition => exact ⟨definition, args, rfl⟩
    | _ => cases h

/-! ## Occurrence (occurrence.rs)

The source keeps the values it has visited, so that one reached twice is walked once; a walk that has
not found the parameter there the first time does not find it the second time, and the model walks
again. -/

/-- What `type_contains_parameter` walks: types, and the types of substitutions. -/
def typeOpens : Label → Nat → Nat
  | .callable data, _ => data.parameters.length + 1
  | l, n => match l.kind with
    | .type | .substitution | .application => n
    | .constant | .other => 0

/-- What `constant_contains_parameter` and `type_contains_const_parameter` walk. -/
def constantOpens : Label → Nat → Nat
  | .callable data, _ => data.parameters.length + 1
  | .typed, _ => 1
  | .conversion, _ => 1
  | .definitionApplication _, _ => 1
  | .value _, _ => 0
  | .contracts _, _ => 0
  | .phaseBehaviors _, _ => 0
  | _, n => n

def typeContainsParameter (ty : Value) (parameter : Parameter) : Bool :=
  ty.contains typeOpens parameter

def constantContainsParameter (term : Value) (parameter : Parameter) : Bool :=
  term.contains constantOpens parameter

end Bray.Overlap
