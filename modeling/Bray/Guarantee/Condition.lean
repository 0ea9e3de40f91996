/-
  File:      Bray/Guarantee/Condition.lean
  Subject:   EXECUTION CONDITIONS (`execution_guarantees/condition/model.rs`): the terms that entry
    and completion guarantees are made of.

  Identifiers of symbols, expressions, units, substitutions and interned constants are compared and
  never taken apart here: each is a number (`Payload`). An integer constant is canonical in the
  source (a sign and a magnitude without leading zeros), so it is an integer here.
-/
import Mathlib.Data.List.Basic

namespace Bray.Guarantee

/-- The identity of a symbol, an expression, a unit or an interned value. -/
abbrev Payload := Nat

inductive BoundOperator where
  | logicalOr | logicalAnd | equal | notEqual | less | lessEqual | greater | greaterEqual
  | bitwiseOr | bitwiseXor | bitwiseAnd | shiftLeft | shiftRight | add | subtract | multiply
  | divide | remainder | matrixMultiply | exponentiate | bitwiseNot | logicalNot
  deriving DecidableEq

/-- The bits of a real constant in its selected format. -/
inductive RealConstantBits where
  | binary16 (bits : BitVec 16)
  | binary32 (bits : BitVec 32)
  | binary64 (bits : BitVec 64)
  | binary128 (bits : BitVec 128)
  deriving DecidableEq

/-- The payload of a constant. The children of an aggregate are interned. -/
inductive ConstantValueKind where
  | error
  | boolean (value : Bool)
  | character (value : Char)
  | integer (value : Int)
  | real (value : RealConstantBits)
  | complex (real imaginary : RealConstantBits)
  | string (value : String)
  | staticAddress (selection : Payload)
  | borrowed (value : Payload)
  | unit
  | nullableAbsent
  | nullablePresent (value : Payload)
  | tuple (values : List Payload)
  | array (values : List Payload)
  | product (fields : List (Payload × Payload))
  | union (variant : Payload) (fields : List (Payload × Payload))
  deriving DecidableEq

/-- A typed constant value. -/
structure ConstantValueData where
  ty : Payload
  kind : ConstantValueKind
  deriving DecidableEq

inductive ConstantProjectionKind where
  | tupleElement (index : Nat)
  | arrayElement (index : Payload)
  | arrayElementOrdinal (index : Nat)
  | arraySlice (lower upper : Option Payload)
  | productField (field : Payload)
  | unionPayloadField (field : Payload)
  | nullableValue
  deriving DecidableEq

inductive StorageProjection where
  | productField (field : Payload)
  | tupleElement (index : Nat)
  | elementFromStart (index : Nat)
  | elementFromEnd (index : Nat)
  | activeUnionPayloadField (variant field : Payload)
  | element (selector : Payload)
  | sliceRange (start stop : Option Payload)
  | nullableValue
  | ownedTarget
  | uninitPayload
  deriving DecidableEq

inductive ExecutionInput where
  | reference (target : Payload)
  | constant (term : Payload)
  | static (selection : Payload)
  | argument (ordinal : Nat)
  | storage (identity : Payload)
  deriving DecidableEq

/-- An observable input or local place with its selected component path. -/
structure ExecutionPlace where
  root : ExecutionInput
  projections : List ConstantProjectionKind
  deriving DecidableEq

/-- A callable or an implementation with its substitution. -/
structure Instance where
  definition : Payload
  substitution : Payload
  deriving DecidableEq

/-- A bounded, source-independent value used to compare entry and completion conditions. -/
inductive ExecutionCondition where
  /-- A checked Boolean value. -/
  | boolean (value : Bool)
  /-- An active union tag in a checked aggregate snapshot. -/
  | variant (variant : Payload)
  /-- A constructed union snapshot with its exact active tag. -/
  | tagged (variant : Payload) (value : ExecutionCondition)
  /-- A test of a union tag, independent of its payload. -/
  | variantTest (variant : Payload) (subject : ExecutionCondition)
  /-- A checked literal value. -/
  | literal (value : ConstantValueData)
  /-- The value of a supplied input before execution begins. -/
  | input (place : ExecutionPlace)
  /-- The value produced by normal completion. -/
  | result
  /-- The value produced by one runtime expression. -/
  | expression (expression : Payload)
  /-- The capability produced by successful entry at one `with` occurrence. -/
  | scopedCapability (expression : Payload)
  /-- The present branch of a nullable value. -/
  | present (value : ExecutionCondition)
  /-- An aggregate snapshot with checked component values over its immutable base. -/
  | constructed (base : ExecutionCondition) (fields : List (StorageProjection × ExecutionCondition))
  /-- Fresh contents observed after a checked mutation. -/
  | postState (mutation : Payload) (place : ExecutionPlace)
  /-- The current value of storage where control-flow predecessors meet. -/
  | joined (unit : Payload) (block : Nat) (place : ExecutionPlace)
  /-- A selected built-in operation on other known values. -/
  | operation (operator : BoundOperator) (operands : List ExecutionCondition)
  /-- A checked predicate application. -/
  | predicate (predicate : Payload) (substitution : Payload) (operands : List ExecutionCondition)
  /-- A checked deterministic callable application. -/
  | call (callable : Instance) (implementation : Option Instance) (witnesses : List Instance) (operands : List ExecutionCondition)
  /-- One component of an observed immutable value. -/
  | projection (projection : ConstantProjectionKind) (value : ExecutionCondition)
  /-- A predicate occurrence that must be established by trusted evidence. -/
  | trusted (condition : ExecutionCondition)
  /-- The contents reached through a borrowed predicate argument. -/
  | borrowed (value : ExecutionCondition)
  /-- A conditional guarantee's entry guard. -/
  | entry (condition : ExecutionCondition) (captured : Bool)
  /-- Meaning that cannot currently be established. -/
  | unknown

namespace ExecutionCondition

/-! ## 1. Equality of conditions -/

mutual
def beq : ExecutionCondition → ExecutionCondition → Bool
  | .boolean a0, .boolean b0 => a0 == b0
  | .variant a0, .variant b0 => a0 == b0
  | .tagged a0 a1, .tagged b0 b1 => a0 == b0 && a1.beq b1
  | .variantTest a0 a1, .variantTest b0 b1 => a0 == b0 && a1.beq b1
  | .literal a0, .literal b0 => a0 == b0
  | .input a0, .input b0 => a0 == b0
  | .result, .result => true
  | .expression a0, .expression b0 => a0 == b0
  | .scopedCapability a0, .scopedCapability b0 => a0 == b0
  | .present a0, .present b0 => a0.beq b0
  | .constructed a0 a1, .constructed b0 b1 => a0.beq b0 && beqFields a1 b1
  | .postState a0 a1, .postState b0 b1 => a0 == b0 && a1 == b1
  | .joined a0 a1 a2, .joined b0 b1 b2 => a0 == b0 && a1 == b1 && a2 == b2
  | .operation a0 a1, .operation b0 b1 => a0 == b0 && beqList a1 b1
  | .predicate a0 a1 a2, .predicate b0 b1 b2 => a0 == b0 && a1 == b1 && beqList a2 b2
  | .call a0 a1 a2 a3, .call b0 b1 b2 b3 => a0 == b0 && a1 == b1 && a2 == b2 && beqList a3 b3
  | .projection a0 a1, .projection b0 b1 => a0 == b0 && a1.beq b1
  | .trusted a0, .trusted b0 => a0.beq b0
  | .borrowed a0, .borrowed b0 => a0.beq b0
  | .entry a0 a1, .entry b0 b1 => a0.beq b0 && a1 == b1
  | .unknown, .unknown => true
  | _, _ => false
termination_by structural a => a
def beqList : List ExecutionCondition → List ExecutionCondition → Bool
  | [], [] => true
  | x :: xs, y :: ys => x.beq y && beqList xs ys
  | _, _ => false
termination_by structural a => a
def beqFields : List (StorageProjection × ExecutionCondition) → List (StorageProjection × ExecutionCondition) → Bool
  | [], [] => true
  | (p, x) :: xs, (q, y) :: ys => p == q && x.beq y && beqFields xs ys
  | _, _ => false
termination_by structural a => a
end

mutual
theorem beq_iff : ∀ a b : ExecutionCondition, a.beq b = true ↔ a = b
  | .boolean _, b => by cases b <;> simp [beq]
  | .variant _, b => by cases b <;> simp [beq]
  | .tagged _ a1, b => by cases b <;> simp [beq, beq_iff a1]
  | .variantTest _ a1, b => by cases b <;> simp [beq, beq_iff a1]
  | .literal _, b => by cases b <;> simp [beq]
  | .input _, b => by cases b <;> simp [beq]
  | .result, b => by cases b <;> simp [beq]
  | .expression _, b => by cases b <;> simp [beq]
  | .scopedCapability _, b => by cases b <;> simp [beq]
  | .present a0, b => by cases b <;> simp [beq, beq_iff a0]
  | .constructed a0 a1, b => by cases b <;> simp [beq, beq_iff a0, beqFields_iff a1]
  | .postState _ _, b => by cases b <;> simp [beq]
  | .joined _ _ _, b => by cases b <;> simp [beq, and_assoc]
  | .operation _ a1, b => by cases b <;> simp [beq, beqList_iff a1]
  | .predicate _ _ a2, b => by cases b <;> simp [beq, beqList_iff a2, and_assoc]
  | .call _ _ _ a3, b => by cases b <;> simp [beq, beqList_iff a3, and_assoc]
  | .projection _ a1, b => by cases b <;> simp [beq, beq_iff a1]
  | .trusted a0, b => by cases b <;> simp [beq, beq_iff a0]
  | .borrowed a0, b => by cases b <;> simp [beq, beq_iff a0]
  | .entry a0 _, b => by cases b <;> simp [beq, beq_iff a0]
  | .unknown, b => by cases b <;> simp [beq]
theorem beqList_iff : ∀ xs ys : List ExecutionCondition, beqList xs ys = true ↔ xs = ys
  | [], ys => by cases ys <;> simp [beqList]
  | x :: xs, ys => by cases ys <;> simp [beqList, beq_iff x, beqList_iff xs]
theorem beqFields_iff : ∀ xs ys : List (StorageProjection × ExecutionCondition), beqFields xs ys = true ↔ xs = ys
  | [], ys => by cases ys <;> simp [beqFields]
  | (p, x) :: xs, ys => by
    cases ys with
    | nil => simp [beqFields]
    | cons y ys =>
      obtain ⟨q, y⟩ := y
      simp [beqFields, beq_iff x, beqFields_iff xs, and_assoc]
end

instance : DecidableEq ExecutionCondition := fun a b => decidable_of_iff _ (beq_iff a b)

/-! ## 2. Unknown and trusted parts -/

/-- `WORK_LIMIT` -/
def workLimit : Nat := 128

def isUnknown : ExecutionCondition → Bool
  | .unknown => true
  | .trusted value | .borrowed value | .present value | .projection _ value
  | .variantTest _ value | .entry value _ => value.isUnknown
  | _ => false

mutual
def containsTrusted : ExecutionCondition → Bool
  | .trusted _ => true
  | .operation _ operands | .predicate _ _ operands | .call _ _ _ operands =>
    containsTrustedAny operands
  | .tagged _ value | .variantTest _ value | .present value | .projection _ value
  | .borrowed value | .entry value _ => value.containsTrusted
  | .constructed base fields => base.containsTrusted || containsTrustedField fields
  | _ => false
termination_by structural a => a
def containsTrustedAny : List ExecutionCondition → Bool
  | [] => false
  | x :: xs => x.containsTrusted || containsTrustedAny xs
termination_by structural a => a
def containsTrustedField : List (StorageProjection × ExecutionCondition) → Bool
  | [] => false
  | (_, x) :: xs => x.containsTrusted || containsTrustedField xs
termination_by structural a => a
end

mutual
/-- Only operations and transparent wrappers are searched: an unknown part of an aggregate or of
  an application does not make the whole unknown. -/
def containsUnknown : ExecutionCondition → Bool
  | .operation _ operands => containsUnknownAny operands
  | .trusted value | .borrowed value | .present value | .projection _ value
  | .variantTest _ value | .entry value _ => value.containsUnknown
  | .unknown => true
  | _ => false
termination_by structural a => a
def containsUnknownAny : List ExecutionCondition → Bool
  | [] => false
  | x :: xs => x.containsUnknown || containsUnknownAny xs
termination_by structural a => a
end

/-- The storage behind an owning indirection when it was set, the base otherwise. -/
def componentBase (base : ExecutionCondition)
  (fields : List (StorageProjection × ExecutionCondition)) : ExecutionCondition :=
  match fields.find? fun x => x.1 == .ownedTarget with
  | some x => x.2
  | none => base

end ExecutionCondition

end Bray.Guarantee
